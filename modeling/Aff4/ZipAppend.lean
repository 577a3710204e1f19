import Aff4.ZipRead

/-! Appending to a volume: it is written and closed, opened again for writing, used, and
closed a second time. -/

namespace Aff4

open LittleEndian Search Transition List

variable {σ : Type}

namespace ZipSegment

/-- A stored member that was loaded and listed again fails the checks: the new entry counts its name
without the terminator that the local header counts. -/
lemma reloaded_twice_refused {zlib : Zlib σ} {s : ZipSegment σ} {member container : RDFURN}
    {inputs : List Bytes} {data more : Bytes} (hs : Stored zlib s member container inputs data)
    (hn : s.Near) (hnm : s.filename.length ≤ buffSize-1) (hd : data.length ≤ zip64Limit)
    (junk : Junk) {fd : FileBackedObject} (hfd : fd.data = data ++ more) :
    s.reloaded.reloaded.Refused junk (some fd) := by
  obtain ⟨pre,payload,post,hcn,ho,-⟩ := hs.content
  obtain ⟨name,hsg,hf⟩ := hs.name
  have hl := congrArg length hcn
  simp only [length_append] at hl
  rw [zip64Limit] at hd
  have hn' : s.reloaded.Near := by
    rw [Near,reloaded_offset hn]
    exact hn
  have hp : s.reloaded.reloaded.offsetOfFileHeader.toNat = pre.length := by
    rw [reloaded_offset hn',reloaded_offset hn,ho]
    exact UInt64.toNat_ofNat_of_lt' (by
      rw [UInt64.size]
      omega)
  have hsh : s.reloaded.filename.length < s.filename.length := by
    change (unescapeFilename (cstring s.filename)).length < _
    rw [hf,cstring_zstring fun c hc => (escapeFilename_printable hsg c hc).ne_zero, zstring_length]
    exact Nat.lt_succ_of_le (unescapeFilename_length_le name).2
  have hms : s.fileHeader.fileNameLength ≠ s.reloaded.reloaded.cd.fileNameLength := by
    intro he
    have hB : buffSize-1 < UInt16.size := by decide
    have hnt : (UInt16.ofNat s.filename.length).toNat =
      (UInt16.ofNat s.reloaded.filename.length).toNat := congrArg UInt16.toNat he
    rw [UInt16.toNat_ofNat_of_lt' (by omega),UInt16.toNat_ofNat_of_lt' (by omega)] at hnt
    omega
  intro fd' hfd'
  cases hfd'
  have hf : fd.data = pre ++ (s.fileHeader.encode ++ (s.filename ++ (payload ++ (post ++ more)))) := by
    rw [hfd,hcn]
    simp
  exact matchHeader_mismatch junk hf hp (by omega) hms

end ZipSegment

namespace ZipFile

lemma reopen_mode (junk : Junk) (urn : RDFURN) (mode mode' : Mode) (file : Bytes) :
    (reopen junk urn mode file : ZipFile σ).members = (reopen junk urn mode' file).members := by
  simp only [reopen,loadFromBackingStore,findEndCentralDirectory,ofFile]
  generalize locateEnd buffSize (⟨file,0⟩ : FileBackedObject) = p
  obtain ⟨fd,found⟩ := p
  cases found with
  | none => rfl
  | some found =>
    by_cases he : found.record.offsetOfCd = 0xFFFFFFFF
    · simp only [if_pos he]
      cases directoryUsed (readZip64 junk fd found.record).2 <;> rfl
    · simp only [if_neg he]
      cases directoryUsed (some (found.record,found.record.offsetOfCd.toUInt64)) <;> rfl

section

variable {zlib : Zlib σ} {start first second : ZipFile σ} {ops more : List Op} {junk : Junk}
  {urn : RDFURN} (hw : start.mode = .w) (hrn : run (step zlib) start ops = some first)
  (hm : run (step zlib) (reopen junk urn .w first.close.backingStore.data) more = some second)

include hw hrn hm

lemma append_loses {k : Nat} {member : RDFURN} {inputs : List Bytes}
    (hc : Created zlib start ops k member inputs) {content content' : Bytes}
    (hold : first.Retrieves zlib k member content) :
    ¬ second.Retrieves zlib (first.entryOf k) member content' := by
  intro hnw
  have hmd := (run_mode hrn).trans hw
  obtain ⟨hmd',hd'⟩ := reopen_keeps junk urn .w first.close.backingStore.data (σ := σ)
  have hsn := (run_mode hm).trans hmd'
  obtain ⟨s,hmm,hs⟩ := created_stored hw hc hrn
  have hrc := recognised_of_retrieves hmd hmm hs hold
  have hsz := hrc.size
  have hle := first.startOfCd_le_closedSize hmd
  have hB : buffSize = 40960 := rfl
  -- The old member is still listed as it was loaded.
  obtain ⟨s',hmm',hold⟩ := hold
  obtain rfl := Option.some.inj (hmm.symm.trans hmm')
  have hgt := (hold junk urn 0 0 0).2.1
  rw [reopened,reopen_mode junk urn .r .w] at hgt
  have hk := run_closed hm hgt rfl
  obtain ⟨t,ht,hnw⟩ := hnw
  obtain rfl := Option.some.inj (hk.symm.trans ht)
  obtain ⟨-,hgt',hrd⟩ := hnw (fun _ => 0) urn 0 0 0
  obtain ⟨hmd'',hd''⟩ := second.reopened_keeps (fun _ => 0) urn
  obtain ⟨grown,hg⟩ := run_data hm
  have hf := second.close_data hsn
  rw [hg,hd',first.close_data hmd,append_assoc,append_assoc] at hf
  have hn := stored_filename_length hmd hs hsz
  have hr := ZipSegment.reloaded_twice_refused hs (stored_near hmd hs hsz)
    (by omega) (by rw [zip64Limit]; rw [startOfCd] at hle; omega) (fun _ => 0) (hd''.trans hf)
  have hz := hrd 0
  rw [readMember,readSegment,hgt',Option.bind_some,own,if_pos hmd'',
    ZipSegment.readCall_refused rfl hr] at hz
  cases hz

/-- Appending to a volume loses every member that could be found and read in it. -/
theorem append_keeps_evidence_iff :
    (∀ k member inputs, Created zlib start ops k member inputs →
      first.Retrieves zlib k member inputs.flatten →
      second.Retrieves zlib (first.entryOf k) member inputs.flatten) ↔
    ∀ k member inputs, Created zlib start ops k member inputs →
      ¬ first.Retrieves zlib k member inputs.flatten :=
  ⟨fun h k member inputs hc hold =>
      append_loses hw hrn hm hc hold (h k member inputs hc hold),
    fun h k member inputs hc hold => absurd hold (h k member inputs hc)⟩

end

def oldVolume : ZipFile Unit :=
  reopen (fun _ => 0) (.set fqn) .w
    (oneMemberVolume (chars ['/','a']) oneMember_runs).close.backingStore.data

def newMember : List Op :=
  [.openMember (.set (fqn ++ chars ['v','/','b'])) .w 0 0 0,.write 1 (chars ['y']),.close 1]

lemma newMember_runs : (run (step plainZlib) oldVolume newMember).isSome := by decide +kernel

def appendedVolume : ZipFile Unit := (run (step plainZlib) oldVolume newMember).get newMember_runs

lemma oneMember_retrieves : (oneMemberVolume (chars ['/','a']) oneMember_runs).Retrieves plainZlib 0
    memberA (chars ['x']) := by
  obtain ⟨s,hmm,hs⟩ := created_stored (rfl : newVolume.mode = .w)
    (oneMember_created (chars ['/','a']) (by decide +kernel)) (Option.some_get oneMember_runs).symm
  exact retrieves_of_findable plainZlib_inverse rfl hmm hs oneMember_findable

theorem append_one_member : ¬ ∀ k member inputs,
    Created plainZlib newVolume (oneMember (chars ['/','a'])) k member inputs →
      (oneMemberVolume (chars ['/','a']) oneMember_runs).Retrieves plainZlib k member
        inputs.flatten →
      appendedVolume.Retrieves plainZlib
        ((oneMemberVolume (chars ['/','a']) oneMember_runs).entryOf k) member inputs.flatten :=
  fun h => (append_keeps_evidence_iff rfl (Option.some_get oneMember_runs).symm
    (Option.some_get newMember_runs).symm).mp h 0 _ _
    (oneMember_created (chars ['/','a']) (by decide +kernel)) oneMember_retrieves

/-- The new entry of `a` gives its name two bytes, the local header three. -/
theorem append_one_member_fails :
    Created plainZlib newVolume (oneMember (chars ['/','a'])) 0
      memberA [chars ['x']] ∧
    (oneMemberVolume (chars ['/','a']) oneMember_runs).Retrieves plainZlib 0
      memberA (chars ['x']) ∧
    ¬ appendedVolume.Retrieves plainZlib 0 memberA (chars ['x']) := by
  refine ⟨oneMember_created (chars ['/','a']) (by decide +kernel),oneMember_retrieves,fun h => ?_⟩
  obtain ⟨s,-,h⟩ := h
  exact absurd ((h (fun _ => 0) (.set fqn) 0 0 0).2.2 5) (by decide +kernel)

/-- One session on the file of a volume. -/
structure Session where
  junk : Junk
  urn : RDFURN
  mode : Mode
  ops : List Op

def session (zlib : Zlib σ) (file : Bytes) (s : Session) : Option Bytes :=
  (run (step zlib) (reopen s.junk s.urn s.mode file) s.ops).map fun z => z.close.backingStore.data

/-- No session changes a byte of the file, with whatever directory it was closed. -/
theorem session_append {zlib : Zlib σ} {file final : Bytes} {sessions : List Session}
    (h : run (session zlib) file sessions = some final) : file <+: final := by
  refine run_invariant (I := fun now => file <+: now) (fun now s next hn hs => ?_) h (prefix_refl _)
  obtain ⟨volume,hrn,rfl⟩ := Option.map_eq_some_iff.mp hs
  obtain ⟨more,hm⟩ := run_data hrn
  rw [(reopen_keeps s.junk s.urn s.mode now).2] at hm
  refine hn.trans ?_
  cases hmd : volume.mode with
  | r => simp [close,hmd,hm]
  | w => simp [volume.close_data hmd,hm]

theorem session_append_two : ∃ final, run (session plainZlib) [1]
    [⟨fun _ => 0,.set fqn,.w,oneMember (chars ['/','a'])⟩,⟨fun _ => 0,.set fqn,.w,newMember⟩] =
      some final ∧ [1] <+: final :=
  have h := (Option.some_get (by decide +kernel)).symm
  ⟨_,h,session_append h⟩

end ZipFile

end Aff4
