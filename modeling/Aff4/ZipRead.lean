import Aff4.ZipSession

/-! Reading a segment call by call: `ZipSegment_read` with the state that
`decompress_segment` leaves behind, and `FileLikeObject_seek`. -/

namespace Aff4

open LittleEndian Transition List Option ZipSegment

variable {σ : Type}

namespace ZipSegment

/-- `FileLikeObject_seek`. No class between this one and a segment has a method `resolve`,
so that the size is asked for through a NULL pointer. -/
def seek (self : ZipSegment σ) (offset : Int64) : SeekFrom → Option (ZipSegment σ)
  | .set => some {self with readptr := offset.toInt.toNat}
  | .cur =>
    if self.readptr+offset.toInt < 2^63 then
      some {self with readptr := (self.readptr+offset.toInt).toNat}
    else none
  | .fromEnd => none

variable {fd : FileBackedObject}

lemma fill_length {zlib : Zlib σ} {cd : CDFileHeader} {method : UInt16}
    {io : StringIO} (hl : io.data.length = cd.fileSize.toNat)
    (h : (fill zlib fd cd method io).1 = true) :
    (fill zlib fd cd method io).2.data.length = cd.fileSize.toNat := by
  have hst : ∀ bytes : Bytes, bytes.length ≤ io.data.length →
      (store io.data 0 bytes).length = cd.fileSize.toNat := by
    simp only [store,take_zero,length_append,length_drop,length_replicate,nil_append]
    omega
  by_cases hs : method = zipStored
  · simp only [fill,if_pos hs]
    refine hst _ ?_
    rw [FileBackedObject.read_fst,length_take]
    exact min_le_left _ _
  · by_cases hd : method = zipDeflate
    · by_cases hf : tallocNamedConst cd.compressSize.toNat = true
      · simp only [fill,if_neg hs,if_pos hd,if_pos hf] at h ⊢
        cases hin : zlib.inflate (fd.read cd.compressSize.toNat).1 io.data.length with
        | none =>
          rw [hin] at h
          cases h
        | some out =>
          rw [hin] at h
          exact hst out (le_of_eq ((of_decide_eq_true h).trans hl.symm))
      · simp only [fill,if_neg hs,if_pos hd,if_neg hf] at h
        cases h
    · simp only [fill,if_neg hs,if_neg hd] at h
      cases h

lemma decompressSegment_length {zlib : Zlib σ} {junk : Junk} {zip : Option FileBackedObject}
    {s t : ZipSegment σ} (h : s.decompressSegment zlib junk zip = some (true,t)) :
    ∃ io, t.buffer = some io ∧ io.data.length = s.cd.fileSize.toNat ∧
      s.cd.fileSize.toNat < maxTallocSize := by
  cases zip with
  | none => simp [decompressSegment] at h
  | some fd =>
    rw [decompressSegment,bind_eq_some_iff] at h
    obtain ⟨found,-,h⟩ := h
    cases found with
    | none => simp at h
    | some p =>
      obtain ⟨io,hio,h⟩ := map_eq_some_iff.mp h
      obtain ⟨hd,rfl⟩ := Prod.mk.inj h
      have hs : s.cd.fileSize.toNat < maxTallocSize := by
        by_contra hb
        rw [ StringIO.con_seek_none junk (Nat.not_lt.mp hb)] at hio
        cases hio
      obtain ⟨io',hio',hl⟩ := StringIO.con_seek junk hs
      obtain rfl := some.inj (hio'.symm.trans hio)
      exact ⟨_,rfl,fill_length hl hd,hs⟩

section

variable {zlib : Zlib σ} {junk : Junk} {zip : Option FileBackedObject} {s t : ZipSegment σ}
  {io : StringIO}

lemma seek_length (junk : Junk) (p : Nat) (hl : io.data.length < maxTallocSize) :
    (p < maxTallocSize → ∃ io', io.seek junk p = some io' ∧ io'.readptr = p ∧
      io'.data.length = max io.data.length p) ∧
    (maxTallocSize ≤ p → io.seek junk p = none) := by
  rw [ StringIO.seek,tallocNamedConst]
  constructor
  · intro hp
    by_cases hlt : io.data.length < p
    · refine ⟨{io with data := overlay junk p io.data, readptr := p},by simp [hlt,hp],rfl,?_⟩
      rw [overlay,length_append,length_map,length_range]
      omega
    · exact ⟨{io with readptr := p},by simp [hlt],rfl,(max_eq_left (Nat.not_lt.mp hlt)).symm⟩
  · intro hp
    have hlt : io.data.length < p := by omega
    simp [hlt,Nat.not_lt.mpr hp]

lemma read_length (junk : Junk) (p : Nat) (hln : io.data.length < maxTallocSize) (n : UInt32) :
    (p < maxTallocSize ∧ p+n.toNat < 2^32 → ∃ data io',
      ((io.seek junk p).bind fun io => io.readCall n) = some (data,io') ∧
      data.length = min n.toNat (io.data.length-p) ∧ io'.data.length = max io.data.length p) ∧
    (¬ (p < maxTallocSize ∧ p+n.toNat < 2^32) →
      ((io.seek junk p).bind fun io => io.readCall n) = none) := by
  obtain ⟨hf,hb⟩ := seek_length junk p hln
  have hm : maxTallocSize < 2^31 := by decide
  by_cases hp : p < maxTallocSize
  · obtain ⟨io',hs,hpt,hl⟩ := hf hp
    rw [hs,bind_some, StringIO.readCall,hpt]
    constructor
    · rintro ⟨-,hn⟩
      refine ⟨_,_,if_neg (by omega),?_,hl⟩
      rw [ StringIO.read,hpt,slice_length,hl]
      omega
    · intro hn
      exact if_pos ⟨by omega,by omega⟩
  · rw [hb (Nat.not_lt.mp hp)]
    exact ⟨fun h => absurd h.1 hp,fun _ => rfl⟩

lemma readCall_buffered (h : s.buffer = some io) (n : UInt32) :
    s.readCall zlib junk zip n = s.readBuffer junk n := by
  rw [readCall,h]
  rfl

lemma readCall_unbuffered (h : s.buffer = none) (n : UInt32) :
    s.readCall zlib junk zip n = (s.decompressSegment zlib junk zip).bind fun r =>
      if r.1 then r.2.readBuffer junk n else some (none,r.2) := by
  rw [readCall,h]
  rfl

end

section

/-- What a caller does with a segment. The bytes that new memory happens to hold belong to
the call. -/
inductive Call where
  | seek (offset : Int64) (whence : SeekFrom)
  | read (junk : Junk) (length : UInt32)

def call (zlib : Zlib σ) (zip : Option FileBackedObject) (self : ZipSegment σ) :
    Call → Option ((Option Bytes × Nat) × ZipSegment σ)
  | .seek offset whence => (self.seek offset whence).map fun t => ((some [],t.readptr),t)
  | .read junk length =>
    (self.readCall zlib junk zip length).map fun r => ((r.1,r.2.readptr),r.2)

/-- A position in a file, and the furthest that a read has started from, if that lies past
the end of the file, or else its length. -/
structure Cursor where
  pos : Nat
  reach : Nat

def Cursor.call (d : Bytes) (c : Cursor) : Call → Option ((Option Bytes × Nat) × Cursor)
  | .seek offset whence =>
    let base := match whence with
      | .set => 0
      | .cur => c.pos
      | .fromEnd => d.length
    let pos := (base+offset.toInt).toNat
    some ((some [],pos),{c with pos := pos})
  | .read _ length =>
    let data := slice d c.pos length.toNat
    some ((some data,c.pos+data.length),⟨c.pos+data.length,max c.reach c.pos⟩)

/-- A call on which a segment and a file agree: the position does not come from the end or
overflow, and a read asks for nothing or starts where there is nothing left to read. -/
def Cursor.Harmless (c : Cursor) : Call → Prop
  | .seek _ .set => True
  | .seek offset .cur => c.pos+offset.toInt < 2^63
  | .seek _ .fromEnd => False
  | .read _ length =>
    (length.toNat = 0 ∨ c.reach ≤ c.pos) ∧ c.pos < maxTallocSize ∧ c.pos+length.toNat < 2^32

def Loads (zlib : Zlib σ) (zip : Option FileBackedObject) (s : ZipSegment σ) (d : Bytes) : Prop :=
  s.buffer = none ∧ ∀ junk, ∃ io,
    s.decompressSegment zlib junk zip = some (true,{s with buffer := some io}) ∧ io.data = d

structure Follows (zlib : Zlib σ) (zip : Option FileBackedObject) (d : Bytes)
    (s : ZipSegment σ) (c : Cursor) : Prop where
  pos : s.readptr = c.pos
  reach : d.length ≤ c.reach
  small : c.reach < maxTallocSize
  buffer : s.Loads zlib zip d ∧ c.reach = d.length ∨
    ∃ io, s.buffer = some io ∧ io.data.length = c.reach

variable {zlib : Zlib σ} {zip : Option FileBackedObject} {d : Bytes} {s : ZipSegment σ} {c : Cursor}

lemma decompressSegment_at (junk : Junk) (s : ZipSegment σ) (p : Nat) :
    ({s with readptr := p} : ZipSegment σ).decompressSegment zlib junk zip =
      (s.decompressSegment zlib junk zip).map fun r => (r.1,{r.2 with readptr := p}) := by
  cases zip with
  | none => rfl
  | some fd =>
    simp only [decompressSegment,show ({s with readptr := p} : ZipSegment σ).matchHeader junk fd =
      s.matchHeader junk fd from rfl]
    cases s.matchHeader junk fd with
    | none => rfl
    | some found =>
      cases found with
      | none => rfl
      | some q => cases StringIO.con.seek junk s.cd.fileSize.toNat <;> rfl

lemma Loads.at (hs : s.Loads zlib zip d) (p : Nat) :
    ({s with readptr := p} : ZipSegment σ).Loads zlib zip d := by
  refine ⟨hs.1,fun junk => ?_⟩
  obtain ⟨io,hio,hd⟩ := hs.2 junk
  exact ⟨io,by rw [decompressSegment_at,hio]; rfl,hd⟩

lemma Follows.seek (hs : Follows zlib zip d s c) (p : Nat) :
    Follows zlib zip d {s with readptr := p} {c with pos := p} := by
  refine ⟨rfl,hs.reach,hs.small,?_⟩
  rcases hs.buffer with ⟨hl,hr⟩ | hb
  · exact .inl ⟨hl.at p,hr⟩
  · exact .inr hb

lemma Follows.readCall_eq (hs : Follows zlib zip d s c) (junk : Junk) (n : UInt32) :
    ∃ io : StringIO, io.data.length = c.reach ∧
      s.readCall zlib junk zip n = ((io.seek junk c.pos).bind fun io => io.readCall n).map
        fun r => (some r.1,{s with buffer := some r.2}) := by
  rcases hs.buffer with ⟨hl,hr⟩ | ⟨io,hio,hln⟩
  · obtain ⟨io,hio,hd⟩ := hl.2 junk
    refine ⟨io,by rw [hd,hr],?_⟩
    rw [readCall_unbuffered hl.1,hio,← hs.pos]
    rfl
  · exact ⟨io,hln,by rw [readCall_buffered hio,readBuffer,hio,hs.pos]; rfl⟩

variable {e : Call} {o : Option Bytes × Nat} {b : Cursor}

lemma call_follows
    (hs : Follows zlib zip d s c) (hsp : c.call d e = some (o,b)) (hok : c.Harmless e) :
    ∃ t, s.call zlib zip e = some (o,t) ∧ Follows zlib zip d t b := by
  cases e with
  | seek offset whence =>
    cases hsp
    refine ⟨_,?_,hs.seek _⟩
    cases whence with
    | set => simp [call,seek]
    | cur =>
      have hlt : s.readptr+offset.toInt < 2^63 := by
        rw [hs.pos]
        exact hok
      rw [call,seek,if_pos hlt,hs.pos]
      rfl
    | fromEnd => exact hok.elim
  | read junk n =>
    cases hsp
    obtain ⟨hn,hft⟩ := hok
    obtain ⟨io,hl,hrd⟩ := hs.readCall_eq junk n
    obtain ⟨data,io',hio,hd,hl'⟩ := (read_length junk c.pos (hl ▸ hs.small) n).1 hft
    have hr := hs.reach
    have he : data = [] := eq_nil_of_length_eq_zero (by omega)
    have hf : slice d c.pos n.toNat = [] := by
      refine eq_nil_of_length_eq_zero ?_
      rw [slice_length]
      omega
    refine ⟨{s with buffer := some io'},?_,?_⟩
    · rw [call,hrd,hio,hf,he]
      simp [hs.pos]
    · have hm : max c.reach c.pos < maxTallocSize := Nat.max_lt.mpr ⟨hs.small,hft.1⟩
      refine ⟨by simp [hf,hs.pos],?_,hm,.inr ⟨io',rfl,by rw [hl',hl]⟩⟩
      exact le_trans hr (le_max_left _ _)

lemma call_differs {t : ZipSegment σ}
    (hs : Follows zlib zip d s c) (hsp : c.call d e = some (o,b)) (hb : ¬ c.Harmless e) :
    s.call zlib zip e ≠ some (o,t) := by
  cases e with
  | seek offset whence =>
    cases whence with
    | set => exact absurd trivial hb
    | cur =>
      have hge : ¬ s.readptr+offset.toInt < 2^63 := by
        rw [hs.pos]
        exact hb
      rw [call,seek,if_neg hge]
      simp
    | fromEnd => simp [call,seek]
  | read junk n =>
    cases hsp
    obtain ⟨io,hl,hr⟩ := hs.readCall_eq junk n
    obtain ⟨hg,hf⟩ := read_length junk c.pos (hl ▸ hs.small) n
    intro h
    rw [call,hr] at h
    by_cases hft : c.pos < maxTallocSize ∧ c.pos+n.toNat < 2^32
    · obtain ⟨data,io',hio,hd,-⟩ := hg hft
      rw [hio] at h
      simp only [map_some,some.injEq,Prod.mk.injEq,hs.pos] at h
      obtain ⟨⟨hsa,hp⟩,-⟩ := h
      have hn : (slice d c.pos n.toNat).length = 0 := by omega
      rw [← hsa] at hn
      exact hb ⟨by omega,hft⟩
    · rw [hf hft] at h
      cases h

lemma Loads.length_lt (hs : s.Loads zlib zip d) : d.length < maxTallocSize := by
  obtain ⟨io,hio,rfl⟩ := hs.2 fun _ => 0
  obtain ⟨io',hb,hl,hsm⟩ := decompressSegment_length hio
  cases hb
  rwa [hl]

/-- A segment answers like a file with its content exactly when no call is harmful: a read
that gives anything leaves the position where it was. -/
theorem reads_like_file_iff (hs : s.Loads zlib zip d) {calls : List Call}
    {replies : List (Option Bytes × Nat)} {last : Cursor}
    (h : trace (Cursor.call d) ⟨s.readptr,d.length⟩ calls = some (replies,last)) :
    (∃ t, trace (call zlib zip) s calls = some (replies,t)) ↔
      Along (post (Cursor.call d)) Cursor.Harmless ⟨s.readptr,d.length⟩ calls := by
  have hst : Follows zlib zip d s ⟨s.readptr,d.length⟩ :=
    ⟨rfl,Nat.le_refl _,hs.length_lt,.inl ⟨hs,rfl⟩⟩
  have hi : (∃ t, trace (call zlib zip) s calls = some (replies,t)) ↔
      Along (post (Cursor.call d)) (fun c e => ¬ ¬ c.Harmless e) ⟨s.readptr,d.length⟩ calls := by
    refine trace_agrees_iff (R := Follows zlib zip d) ?_ ?_ hst h
    · intro s c e o b hr hsp hok
      exact call_follows hr hsp (not_not.mp hok)
    · intro s c e o b t hr hsp hb
      exact call_differs hr hsp hb
  simpa only [not_not] using hi

lemma reloaded_loads {inputs : List Bytes} {member container : RDFURN} {data more : Bytes}
    {fd : FileBackedObject} (hz : zlib.Inverse)
    (hs : Stored zlib s member container inputs data) (hnr : s.Near)
    (hn : s.filename.length ≤ buffSize-1) (hp : s.reloaded.filename <+: s.filename)
    (hd : data.length < maxTallocSize) (hfd : fd.data = data ++ more)
    (hsm : inputs.flatten.length < maxTallocSize) :
    s.reloaded.Loads zlib (some fd) inputs.flatten := by
  refine ⟨rfl,fun junk => ?_⟩
  exact (decompressSegment_reloaded hs hz hnr hn hp hd junk hfd).1 hsm

end

variable {zlib : Zlib σ} {zip : Option FileBackedObject} {s t : ZipSegment σ}

/-- What a successful decompression gives: all bytes of a stored member, or a stream that
was read whole and inflates to as many bytes as it should. -/
def Recovers (zlib : Zlib σ) (fd : FileBackedObject) (cd : CDFileHeader)
    (compressionMethod : UInt16) (out : Bytes) : Prop :=
  out.length = cd.fileSize.toNat ∧
    (compressionMethod = zipStored ∧ (fd.read cd.fileSize.toNat).1 = out ∨
      compressionMethod = zipDeflate ∧
        (fd.read cd.compressSize.toNat).1.length = cd.compressSize.toNat ∧
        zlib.inflate (fd.read cd.compressSize.toNat).1 cd.fileSize.toNat = some out)

def Recoverable (zlib : Zlib σ) (junk : Junk) (zip : Option FileBackedObject)
    (s : ZipSegment σ) : Prop :=
  ∃ fd fd' header out, zip = some fd ∧ s.matchHeader junk fd = some (some (fd',header)) ∧
    Recovers zlib fd' s.cd header.compressionMethod out

/-- The volume is not open for reading, or the local header or the name does not match. -/
def Refused (junk : Junk) (zip : Option FileBackedObject) (s : ZipSegment σ) : Prop :=
  ∀ fd, zip = some fd → s.matchHeader junk fd = some none

def AlwaysFails (zlib : Zlib σ) (zip : Option FileBackedObject) (s : ZipSegment σ) : Prop :=
  ∀ calls t, run (post (call zlib zip)) s calls = some t →
    ∀ junk n, (t.readCall zlib junk zip n).map Prod.fst = some none

lemma decompressSegment_refused {junk : Junk} (h : s.Refused junk zip) :
    s.decompressSegment zlib junk zip = some (false,s) := by
  cases zip with
  | none => rfl
  | some fd => rw [decompressSegment,h fd rfl]; rfl

lemma readCall_refused {junk : Junk} (hs : s.buffer = none) (h : s.Refused junk zip)
    (n : UInt32) : s.readCall zlib junk zip n = some (none,s) := by
  rw [readCall_unbuffered hs,decompressSegment_refused h]
  rfl

lemma decompressSegment_buffer {junk : Junk} {done : Bool} (h : ¬ s.Refused junk zip)
    (ht : s.decompressSegment zlib junk zip = some (done,t)) : ∃ io, t.buffer = some io := by
  simp only [Refused,not_forall] at h
  obtain ⟨fd,rfl,hm⟩ := h
  rw [decompressSegment,bind_eq_some_iff] at ht
  obtain ⟨found,hf,ht⟩ := ht
  cases found with
  | none => exact absurd hf hm
  | some p =>
    obtain ⟨io,-,ht⟩ := map_eq_some_iff.mp ht
    cases ht
    exact ⟨_,rfl⟩

lemma readCall_not_failed {junk : Junk} {io : StringIO} (hs : s.buffer = some io)
    (n : UInt32) : (s.readCall zlib junk zip n).map Prod.fst ≠ some none := by
  rw [readCall_buffered hs,readBuffer,hs,bind_some]
  cases (io.seek junk s.readptr).bind fun io => io.readCall n <;> simp

lemma call_refused {e : Call} (hs : s.buffer = none) (h : ∀ junk, s.Refused junk zip)
    (ht : post (call zlib zip) s e = some t) : t.buffer = none ∧ ∀ junk, t.Refused junk zip := by
  cases e with
  | seek offset whence =>
    simp only [post,call,Option.map_map,Option.map_eq_some_iff,Function.comp] at ht
    obtain ⟨u,hu,rfl⟩ := ht
    cases whence with
    | set =>
      cases hu
      exact ⟨hs,h⟩
    | cur =>
      rw [seek] at hu
      split at hu
      · cases hu
        exact ⟨hs,h⟩
      · cases hu
    | fromEnd => cases hu
  | read junk n =>
    rw [post,call,readCall_refused hs (h junk)] at ht
    cases ht
    exact ⟨hs,h⟩

/-- A segment that cannot be decompressed fails on every read exactly when its header is
refused: only then is no buffer left behind by the first attempt. -/
theorem stays_failed_iff (hs : s.buffer = none) :
    ((∀ junk, ¬ s.Recoverable zlib junk zip) → s.AlwaysFails zlib zip) ↔
      (∃ junk, s.Recoverable zlib junk zip) ∨ ∀ junk, s.Refused junk zip := by
  constructor
  · intro hfl
    by_cases hrc : ∃ junk, s.Recoverable zlib junk zip
    · exact .inl hrc
    · have ha := hfl fun junk h => hrc ⟨junk,h⟩
      refine .inr fun junk => ?_
      by_contra hrf
      have hf := ha [] s rfl junk 0
      rw [readCall_unbuffered hs] at hf
      cases hd : s.decompressSegment zlib junk zip with
      | none =>
        rw [hd] at hf
        cases hf
      | some r =>
        obtain ⟨done,t⟩ := r
        obtain ⟨io,hio⟩ := decompressSegment_buffer hrf hd
        cases done with
        | true =>
          rw [hd] at hf
          have hr : (t.readCall zlib junk zip 0).map Prod.fst = some none := by
            rw [readCall_buffered hio]
            exact hf
          exact readCall_not_failed hio 0 hr
        | false =>
          -- The first read reports the failure, and the second one reads the buffer.
          have hp : run (post (call zlib zip)) s [.read junk 0] = some t := by
            simp [run,post,call,readCall_unbuffered hs,hd]
          exact readCall_not_failed hio 0 (ha [.read junk 0] t hp junk 0)
  · intro hc hb
    have hrf := hc.resolve_left fun h => hb h.choose h.choose_spec
    intro calls t ht junk n
    obtain ⟨hbf,hrf'⟩ := run_invariant
      (I := fun u => u.buffer = none ∧ ∀ junk, u.Refused junk zip)
      (fun u e v hu hv => call_refused hu.1 hu.2 hv) ht ⟨hs,hrf⟩
    rw [readCall_refused hbf (hrf' junk)]
    rfl

end ZipSegment

namespace ZipFile

def oneByteFile : Bytes := (oneMemberVolume (chars ['/','a']) oneMember_runs).close.backingStore.data

/-- What the first member of a volume answers to some calls, the memory being zero. -/
def answers (file : Bytes) (lengths : List UInt32) : Option (List (Option Bytes × Nat)) :=
  (reopen (fun _ => 0) (.set fqn) .r file : ZipFile Unit).members[0]?.bind fun s =>
    (trace (ZipSegment.call plainZlib (some ⟨file,0⟩)) s
      (lengths.map (.read fun _ => 0))).map Prod.fst

lemma oneByte_loads : ∃ s : ZipSegment Unit, s.readptr = 0 ∧
    s.Loads plainZlib (some ⟨oneByteFile,0⟩) (chars ['x']) := by
  have hf : (run (step plainZlib) newVolume (oneMember (chars ['/','a']))).map (fun z =>
      (decide (z.mode = .w ∧ z.backingStore.data.length < maxTallocSize),
        z.members.map fun s => decide (s.Near ∧ s.filename.length ≤ buffSize-1 ∧
          s.reloaded.filename <+: s.filename))) = some (true,[true]) := by decide +kernel
  rw [oneByteFile]
  generalize hv : oneMemberVolume (chars ['/','a']) oneMember_runs = volume
  have hr : run (step plainZlib) newVolume (oneMember (chars ['/','a'])) = some volume := by
    rw [← hv]
    exact (some_get oneMember_runs).symm
  rw [hr] at hf
  obtain ⟨hvl,hm⟩ := Prod.mk.inj (some.inj hf)
  obtain ⟨hmd,hsz⟩ := of_decide_eq_true hvl
  obtain ⟨s,hmm,hst⟩ := created_stored (rfl : newVolume.mode = .w)
    (oneMember_created (chars ['/','a']) (by decide +kernel)) hr
  have hs := mem_map_of_mem (f := fun s : ZipSegment Unit => decide (s.Near ∧
    s.filename.length ≤ buffSize-1 ∧ s.reloaded.filename <+: s.filename))
    (mem_of_getElem? hmm)
  rw [hm,mem_singleton] at hs
  obtain ⟨hnr,hn,hp⟩ := of_decide_eq_true hs
  exact ⟨s.reloaded,rfl,reloaded_loads plainZlib_inverse hst hnr hn hp hsz
    (volume.close_data hmd) (by decide)⟩

theorem reads_past_end : ∃ s t : ZipSegment Unit,
    s.Loads plainZlib (some ⟨oneByteFile,0⟩) (chars ['x']) ∧
    trace (ZipSegment.call plainZlib (some ⟨oneByteFile,0⟩)) s
      [.seek 1 .set,.read (fun _ => 0) 5] = some ([(some [],1),(some [],1)],t) := by
  obtain ⟨s,hp,hs⟩ := oneByte_loads
  have hsp : trace (ZipSegment.Cursor.call (chars ['x'])) ⟨s.readptr,1⟩
      [.seek 1 .set,.read (fun _ => 0) 5] = some ([(some [],1),(some [],1)],⟨1,1⟩) := by
    rfl
  have hh : Along (post (ZipSegment.Cursor.call (chars ['x'])))
      ZipSegment.Cursor.Harmless ⟨s.readptr,1⟩ [.seek 1 .set,.read (fun _ => 0) 5] := by
    rw [hp]
    refine ⟨trivial,fun c hc => ⟨?_,fun _ _ => trivial⟩⟩
    cases hc
    exact ⟨.inr (by decide),by decide,by decide⟩
  obtain ⟨t,ht⟩ := (reads_like_file_iff hs hsp).mpr hh
  exact ⟨s,t,hs,ht⟩

/-- Two reads of one byte give the first byte twice. -/
theorem reads_same_byte_twice :
    answers oneByteFile [1,1] = some [(some (chars ['x']),0),(some (chars ['x']),0)] ∧
    (trace (ZipSegment.Cursor.call (chars ['x'])) ⟨0,1⟩
      [.read (fun _ => 0) 1,.read (fun _ => 0) 1]).map Prod.fst =
      some [(some (chars ['x']),1),(some [],1)] := by
  decide +kernel

def unknownMethodFile : Bytes := store oneByteFile 8 [99]

/-- The first read fails, and the second gives a byte that was never stored. -/
theorem unknown_method_read_again :
    ((reopen (fun _ => 0) (.set fqn) .r unknownMethodFile : ZipFile Unit).members[0]?.bind fun s =>
      (s.matchHeader (fun _ => 0) ⟨unknownMethodFile,0⟩).join.map fun r => r.2.compressionMethod) =
      some 99 ∧
    answers unknownMethodFile [1,1] = some [(none,0),(some [0],0)] := by
  decide +kernel

def otherHeader : ZipFileHeader :=
  ({ZipSegment.con none .w 0 0 with filename := chars ['a','b']} : ZipSegment Unit).fileHeader

theorem mismatch_stays_failed :
    (ZipSegment.con none .r 0 0 : ZipSegment Unit).AlwaysFails plainZlib
      (some ⟨otherHeader.encode,0⟩) := by
  have hd : otherHeader.encode = [] ++ (otherHeader.encode ++ []) := by simp
  have hr : ∀ junk, (con none .r 0 0 : ZipSegment Unit).Refused junk
      (some ⟨otherHeader.encode,0⟩) := by
    intro junk fd hfd
    cases hfd
    exact matchHeader_mismatch junk hd rfl (by decide) (by decide)
  refine (stays_failed_iff rfl).mpr (.inr hr) fun junk hrc => ?_
  obtain ⟨fd,fd',header,out,hfd,hm,-⟩ := hrc
  rw [hr junk fd hfd] at hm
  cases hm

end ZipFile

end Aff4
