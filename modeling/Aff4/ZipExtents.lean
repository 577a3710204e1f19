import Aff4.ZipSession

/-! Where the segments of a volume stand in its file: each is appended when it is closed,
and nothing is written over it afterwards. -/

namespace Aff4

open LittleEndian Transition List Option ZipSegment

variable {σ : Type}

namespace ZipSegment

/-- Whether the segment was written and closed, as opposed to loaded or still open. -/
def Finished (s : ZipSegment σ) : Prop := s.mode = .w ∧ s.buffer = none

instance (s : ZipSegment σ) : Decidable s.Finished :=
  inferInstanceAs (Decidable (s.mode = .w ∧ s.buffer = none))

def extentStart (s : ZipSegment σ) : Nat := s.offsetOfFileHeader.toNat

/-- The end of the data descriptor, by what the segment records of its sizes. -/
def extentEnd (s : ZipSegment σ) : Nat :=
  s.extentStart+(ZipFileHeader.size+s.filename.length+s.cd.compressSize.toNat+
    s.dataDescriptor.length)

def extent (s : ZipSegment σ) (data : Bytes) : Bytes :=
  slice data s.extentStart (s.extentEnd-s.extentStart)

/-- The header, the name, the content and the descriptor stand in the extent. -/
def Placed (s : ZipSegment σ) (data : Bytes) : Prop :=
  ∃ pre payload post,
    data = pre ++ (s.fileHeader.encode ++ (s.filename ++ (payload ++ s.dataDescriptor)) ++ post) ∧
    s.extentStart = pre.length ∧ s.cd.compressSize.toNat = payload.length

variable {data : Bytes}

section

variable {s : ZipSegment σ} (hs : s.Placed data)
include hs

lemma Placed.append (more : Bytes) : s.Placed (data ++ more) := by
  obtain ⟨pre,payload,post,rfl,hr⟩ := hs
  exact ⟨pre,payload,post ++ more,by simp,hr⟩

lemma Placed.end_le : s.extentEnd ≤ data.length := by
  obtain ⟨pre,payload,post,rfl,hst,hsz⟩ := hs
  simp only [extentEnd,hst,hsz,length_append,ZipFileHeader.encode_length]
  omega

lemma Placed.extent_append (more : Bytes) : s.extent (data ++ more) = s.extent data := by
  have he := hs.end_le
  have hle : s.extentStart ≤ s.extentEnd := Nat.le_add_right _ _
  rw [extent,extent,slice,slice,drop_append_of_le_length (by omega),
    take_append_of_le_length (by rw [length_drop]; omega)]

end

def Open (zlib : Zlib σ) (s : ZipSegment σ) : Prop :=
  ∃ member inputs io, Writing zlib s member inputs io ∧ io.Appending

variable {zlib : Zlib σ} {s : ZipSegment σ} (hs : s.Open zlib)

include hs in
lemma Open.buffer : s.buffer ≠ none := by
  obtain ⟨member,inputs,io,hw,-⟩ := hs
  simp [hw.buffer]

lemma writePieces_appending {io io' : StringIO} {pieces : List Bytes} (hs : io.Appending)
    (h : io.writePieces pieces = some io') : io'.Appending := by
  induction pieces generalizing io with
  | nil => exact some.inj h ▸ hs
  | cons piece pieces ih =>
    obtain ⟨next,hn,hr⟩ := bind_eq_some_iff.mp h
    exact ih (hs.write hn) hr

variable {n : Int} {container : RDFURN} {fd fd' : FileBackedObject}

lemma write_cases {zlib : Zlib σ} {s t : ZipSegment σ} (h : s.write zlib data = some (n,t)) :
    t = s ∨ t.mode = s.mode ∧ t.cd.fileNameLength = s.cd.fileNameLength ∧ s.buffer ≠ none ∧
      t.buffer ≠ none := by
  rw [write] at h
  split at h
  · exact .inl (Prod.mk.inj (some.inj h)).2.symm
  · split at h
    · exact .inl (Prod.mk.inj (some.inj h)).2.symm
    · next hio =>
      obtain ⟨io',-,ht⟩ := map_eq_some_iff.mp h
      cases ht
      exact .inr ⟨rfl,rfl,by simp [hio],by simp⟩

include hs

lemma Open.write {t : ZipSegment σ} (h : s.write zlib data = some (n,t)) :
    t.Open zlib := by
  obtain ⟨member,inputs,io,hw,ha⟩ := hs
  by_cases hne : data = []
  · rw [ZipSegment.write,if_pos hne] at h
    cases h
    exact ⟨member,inputs,io,hw,ha⟩
  · obtain ⟨io',hw'⟩ := write_writing hw hne h
    rw [ZipSegment.write,if_neg hne,hw.buffer] at h
    obtain ⟨io₁,hio,ht⟩ := map_eq_some_iff.mp h
    cases ht
    obtain rfl : io₁ = io' := some.inj hw'.buffer
    exact ⟨member,_,io₁,hw',writePieces_appending ha hio⟩

lemma Open.close_record {t : ZipSegment σ} (h : s.close zlib container fd = some (fd',t)) :
    t.Finished ∧ t.offsetOfFileHeader = UInt64.ofNat fd.data.length ∧
      ∃ payload, fd'.data = fd.data ++
          (t.fileHeader.encode ++ (t.filename ++ (payload ++ t.dataDescriptor))) ∧
        t.cd.compressSize.toNat = payload.length := by
  obtain ⟨member,inputs,io,hw,ha⟩ := hs
  obtain ⟨io',name,hio',-,rfl,-,hc,hap⟩ := hw.close_written h
  have hf := writePieces_appending ha hio'
  have hsm : io'.data.length < 2^32 := lt_trans (lt_trans hf.room hf.small) (by decide)
  refine ⟨⟨hw.mode,rfl⟩,rfl,io'.data,hap,?_⟩
  rw [hc]
  exact UInt32.toNat_ofNat_of_lt' hsm

lemma Open.close {t : ZipSegment σ}
    (h : s.close zlib container fd = some (fd',t)) (hsz : fd'.data.length < 2^64) :
    t.Finished ∧ t.Placed fd'.data ∧ t.extentStart = fd.data.length := by
  obtain ⟨hf,ho,payload,hd,hc⟩ := hs.close_record h
  have hlt : fd.data.length < 2^64 := by
    rw [hd,length_append] at hsz
    omega
  have hst : t.extentStart = fd.data.length := by
    rw [extentStart,ho]
    exact UInt64.toNat_ofNat_of_lt' hlt
  exact ⟨hf,⟨fd.data,payload,[],by rw [append_nil,hd],hst,hc⟩,hst⟩

end ZipSegment

namespace ZipFile

def Apart (s t : ZipSegment σ) : Prop := s.extentEnd ≤ t.extentStart ∨ t.extentEnd ≤ s.extentStart

lemma Apart.symm {s t : ZipSegment σ} (h : Apart s t) : Apart t s := Or.symm h

structure Laid (zlib : Zlib σ) (volume : ZipFile σ) : Prop where
  members : ∀ s ∈ volume.members,
    s.mode = .r ∨ s.Open zlib ∨ s.Finished ∧ s.Placed volume.backingStore.data
  apart : ∀ (j k : Nat) (s t : ZipSegment σ), j ≠ k → volume.members[j]? = some s →
    volume.members[k]? = some t → s.Finished → t.Finished → Apart s t

section

variable {zlib : Zlib σ} {volume next : ZipFile σ} {s t : ZipSegment σ} {j : Nat}

lemma Laid.placed (hs : volume.Laid zlib) (hmm : s ∈ volume.members) (hf : s.Finished) :
    s.Placed volume.backingStore.data := by
  rcases hs.members s hmm with hm | ho | ⟨-,hp⟩
  · rw [hf.1] at hm
    cases hm
  · exact absurd hf.2 ho.buffer
  · exact hp

lemma Laid.concat (hs : volume.Laid zlib) (ho : t.Open zlib) :
    Laid zlib {volume with members := volume.members ++ [t]} := by
  have hold : ∀ (k : Nat) (s : ZipSegment σ), (volume.members ++ [t])[k]? = some s →
      s.Finished → volume.members[k]? = some s := by
    intro k s hm hf
    rw [getElem?_append] at hm
    split at hm
    · exact hm
    · have hst : s = t := mem_singleton.mp (mem_of_getElem? hm)
      exact absurd (hst ▸ hf.2) ho.buffer
  refine ⟨fun s hm => ?_,fun j k s u hjk hs' hu hsf huf => ?_⟩
  · rcases mem_append.mp hm with hm | hm
    · exact hs.members s hm
    · obtain rfl := mem_singleton.mp hm
      exact .inr (.inl ho)
  · exact hs.apart j k s u hjk (hold j s hs' hsf) (hold k u hu huf) hsf huf

lemma Laid.set (hs : volume.Laid zlib) (hmm : volume.members[j]? = some s)
    {fd : FileBackedObject} {more : Bytes} (hd : fd.data = volume.backingStore.data ++ more)
    (ht : t.mode = .r ∨ t.Open zlib ∨ t.Finished ∧ t.Placed fd.data)
    (hpl : t.Finished → t = s ∨ volume.backingStore.data.length ≤ t.extentStart) :
    Laid zlib {volume with members := volume.members.set j t, backingStore := fd} := by
  have hb : ∀ k u, j ≠ k → volume.members[k]? = some u → t.Finished → u.Finished →
      Apart t u := by
    intro k u hjk hu htf huf
    rcases hpl htf with rfl | hle
    · exact hs.apart j k t u hjk hmm hu htf huf
    · exact .inr (le_trans (hs.placed (mem_of_getElem? hu) huf).end_le hle)
  refine ⟨fun u hu => ?_,fun i k u v hik hu hv huf hvf => ?_⟩
  · rcases mem_or_eq_of_mem_set hu with hu | rfl
    · rcases hs.members u hu with hm | ho | ⟨hf,hp⟩
      · exact .inl hm
      · exact .inr (.inl ho)
      · exact .inr (.inr ⟨hf,hd ▸ hp.append more⟩)
    · exact ht
  · simp only [getElem?_set] at hu hv
    split at hu
    · next hij =>
      subst hij
      rw [if_neg hik] at hv
      split at hu
      · exact some.inj hu ▸ hb k v hik hv (some.inj hu ▸ huf) hvf
      · cases hu
    · next hij =>
      split at hv
      · next hjk =>
        split at hv
        · cases hv
          exact (hb i u hij hu hvf huf).symm
        · cases hv
      · exact hs.apart i k u v hik hu hv huf hvf

lemma step_laid {op : Op} (hs : volume.Laid zlib) (h : volume.step zlib op = some next)
    (hsz : next.backingStore.data.length < 2^64) : next.Laid zlib := by
  cases op with
  | openMember member mode method dosdate dostime =>
    obtain ⟨⟨next',result⟩,ho,rfl⟩ := map_eq_some_iff.mp h
    obtain ⟨rfl,-⟩ | ⟨_,segment,_,hm,-,rfl,hfn,rfl⟩ := openMember_cases ho
    · exact hs
    · exact hs.concat ⟨member,[],.con,finish_writing hm rfl rfl rfl hfn, StringIO.con_appending⟩
  | write j data =>
    obtain ⟨s,hmm,hw⟩ := bind_eq_some_iff.mp h
    obtain ⟨⟨n,t⟩,hwr,rfl⟩ := map_eq_some_iff.mp hw
    have hk := hs.members s (mem_of_getElem? hmm)
    obtain rfl | ⟨hm,-,-,hb⟩ := write_cases hwr
    · exact hs.set hmm (append_nil _).symm hk fun _ => .inl rfl
    · refine hs.set hmm (append_nil _).symm ?_ fun hf => absurd hf.2 hb
      rcases hk with hr | ho | ⟨hf,-⟩
      · exact .inl (hm.trans hr)
      · exact .inr (.inl (ho.write hwr))
      · exact absurd (write_closed hf.2 hwr ▸ hf.2) hb
  | close j =>
    obtain ⟨s,hmm,hc⟩ := bind_eq_some_iff.mp h
    obtain ⟨⟨fd,t⟩,hcl,rfl⟩ := map_eq_some_iff.mp hc
    obtain ⟨rfl,rfl⟩ | hcl := closeMember_cases hcl
    · exact hs.set hmm (append_nil _).symm (hs.members t (mem_of_getElem? hmm)) fun _ => .inl rfl
    obtain ⟨hr,rfl,rfl⟩ | ⟨io,_,_,_,hio,-,-,-,-,ha⟩ := close_cases hcl
    · exact hs.set hmm (append_nil _).symm (.inl hr) fun _ => .inl rfl
    · rcases hs.members s (mem_of_getElem? hmm) with hr | ho | ⟨hf,-⟩
      · have hsa : s.close zlib volume.urn volume.backingStore = some (volume.backingStore,s) :=
          if_pos hr
        obtain ⟨rfl,rfl⟩ := Prod.mk.inj (some.inj (hsa.symm.trans hcl))
        exact hs.set hmm (append_nil _).symm (.inl hr) fun _ => .inl rfl
      · obtain ⟨hf,hp,hst⟩ := ho.close hcl hsz
        exact hs.set hmm ha (.inr (.inr ⟨hf,hp⟩)) fun _ => .inr (le_of_eq hst.symm)
      · rw [hf.2] at hio
        cases hio

lemma run_laid {ops : List Op} (hs : volume.Laid zlib) (h : run (step zlib) volume ops = some next)
    (hsz : next.backingStore.data.length < 2^64) : next.Laid zlib := by
  -- The offset of a segment is exact because the file was no longer when it was closed.
  refine run_invariant (I := fun z => z.backingStore.data.length < 2^64 → z.Laid zlib)
    (fun z op u hz hu hlt => ?_) h (fun _ => hs) hsz
  obtain ⟨more,hm⟩ := (step_preserved hu).data
  refine step_laid (hz ?_) hu hlt
  rw [hm,length_append] at hlt
  omega

lemma laid_of_loaded (h : ∀ s ∈ volume.members, s.mode = .r) : volume.Laid zlib := by
  refine ⟨fun s hs => .inl (h s hs),fun j k s t _ hs _ hsf _ => ?_⟩
  have := h s (mem_of_getElem? hs)
  rw [hsf.1] at this
  cases this

end

variable {fd : FileBackedObject}

lemma loadEntryFromCD_fresh {s : ZipSegment σ}
    (h : (loadEntryFromCD fd).2 = some s) : s.mode = .r ∧ s.buffer = none := by
  unfold loadEntryFromCD at h
  simp only at h
  split at h
  · cases h
  · split at h
    · split at h
      · cases h
      · exact some.inj h ▸ ⟨rfl,rfl⟩
    · cases h

lemma loadEntries_fresh {n : Nat} {s : ZipSegment σ}
    (h : some s ∈ loadEntries n fd) : s.mode = .r ∧ s.buffer = none := by
  induction n generalizing fd with
  | zero => cases h
  | succ n ih =>
    rcases mem_cons.mp h with h | h
    · exact loadEntryFromCD_fresh h.symm
    · exact ih h

lemma reopen_fresh (junk : Junk) (urn : RDFURN) (mode : Mode) (file : Bytes) :
    ∀ s ∈ (reopen junk urn mode file : ZipFile σ).members, s.mode = .r ∧ s.buffer = none := by
  intro s hs
  have hn := (findEndCentralDirectory_keeps junk (ofFile urn mode file : ZipFile σ)).1
  rw [reopen,loadFromBackingStore] at hs
  simp only at hs
  split at hs
  · rw [hn] at hs
    cases hs
  · rw [hn,mem_append] at hs
    rcases hs with hs | hs
    · cases hs
    · exact loadEntries_fresh (reduceOption_mem_iff.mp hs)

/-- The extents of the closed segments have no byte in common, lie before the directory and
hold what was written when the segment was closed. -/
theorem extents_apart {zlib : Zlib σ} {start volume : ZipFile σ} {ops : List Op}
    (hw : start.mode = .w) (hl : ∀ s ∈ start.members, s.mode = .r)
    (hrn : run (step zlib) start ops = some volume)
    (hsz : volume.backingStore.data.length < 2^64) :
    (∀ (j k : Nat) (s t : ZipSegment σ), j ≠ k → volume.members[j]? = some s →
      volume.members[k]? = some t → s.Finished → t.Finished → Apart s t) ∧
    (∀ s ∈ volume.members, s.Finished → s.extentEnd ≤ volume.startOfCd) ∧
    ∀ (before after : List Op) (k : Nat) (mid : ZipFile σ) (s : ZipSegment σ),
      ops = before ++ .close k :: after →
      run (step zlib) start (before ++ [.close k]) = some mid → mid.members[k]? = some s →
      s.Finished →
      volume.members[k]? = some s ∧ s.Placed mid.backingStore.data ∧
        s.extent volume.close.backingStore.data = s.extent mid.backingStore.data := by
  have hld := run_laid (laid_of_loaded hl) hrn hsz
  refine ⟨hld.apart,fun s hs hf => (hld.placed hs hf).end_le,?_⟩
  intro before after k mid s ho hmi hmm hf
  have hr : run (step zlib) mid after = some volume := by
    rw [ho,append_cons] at hrn
    obtain ⟨t,ht,hr⟩ := run_append hrn
    rwa [some.inj (hmi.symm.trans ht)]
  obtain ⟨more,hm⟩ := run_data hr
  have hmd : volume.mode = .w := (run_mode hrn).trans hw
  have hp : s.Placed mid.backingStore.data := by
    refine (run_laid (laid_of_loaded hl) hmi ?_).placed (mem_of_getElem? hmm) hf
    rw [hm,length_append] at hsz
    omega
  refine ⟨run_closed hr hmm hf.2,hp,?_⟩
  rw [volume.close_data hmd,hm,append_assoc,hp.extent_append]

def interleaved : List Op :=
  [.openMember memberA .w 0 0 0,
    .openMember (.set (fqn ++ chars ['v','/','b'])) .w 8 0 0,
    .write 0 (chars ['x']),.write 1 (chars ['y','z']),.write 0 (chars ['t']),.close 1,.close 0]

theorem interleaved_apart : ∃ volume s t,
    run (step plainZlib) newVolume interleaved = some volume ∧ volume.members = [s,t] ∧
      s.Finished ∧ t.Finished ∧ Apart s t := by
  have hrn : (run (step plainZlib) newVolume interleaved).map (fun z =>
      (z.members.map fun s => decide s.Finished,decide (z.backingStore.data.length < 2^64))) =
      some ([true,true],true) := by decide +kernel
  obtain ⟨volume,hv,hfc⟩ := map_eq_some_iff.mp hrn
  obtain ⟨hf,hl⟩ := Prod.mk.inj hfc
  obtain ⟨s,members,hm,hs,htl⟩ := map_eq_cons_iff.mp hf
  obtain ⟨t,rest,rfl,ht,hr⟩ := map_eq_cons_iff.mp htl
  obtain rfl := map_eq_nil_iff.mp hr
  have hsf := of_decide_eq_true hs
  have htf := of_decide_eq_true ht
  refine ⟨volume,s,t,hv,hm,hsf,htf,?_⟩
  exact (extents_apart rfl (by simp [newVolume,ofFile]) hv (of_decide_eq_true hl)).1 0 1
    s t (by decide) (by rw [hm]; rfl) (by rw [hm]; rfl) hsf htf

end ZipFile

end Aff4
