import Aff4.ZipExtents
import Aff4.ZipRead

/-! Which members the directory lists after a session in which members are also read. -/

namespace Aff4

open LittleEndian Transition List Option ZipSegment

variable {σ : Type}

namespace ZipSegment

variable {zlib : Zlib σ} {junk : Junk} {zip : Option FileBackedObject} {s t : ZipSegment σ}
  {n : UInt32} {r : Option Bytes}

lemma readBuffer_cases (h : s.readBuffer junk n = some (r,t)) :
    t.mode = s.mode ∧ t.cd = s.cd ∧ t.buffer ≠ none := by
  obtain ⟨io,-,h⟩ := bind_eq_some_iff.mp h
  obtain ⟨q,-,h⟩ := map_eq_some_iff.mp h
  cases h
  exact ⟨rfl,rfl,by simp⟩

lemma decompressSegment_cases {done : Bool}
    (h : s.decompressSegment zlib junk zip = some (done,t)) : t.mode = s.mode ∧ t.cd = s.cd := by
  cases zip with
  | none =>
    cases h
    exact ⟨rfl,rfl⟩
  | some fd =>
    rw [decompressSegment,bind_eq_some_iff] at h
    obtain ⟨found,-,h⟩ := h
    cases found with
    | none =>
      cases h
      exact ⟨rfl,rfl⟩
    | some p =>
      obtain ⟨io,-,h⟩ := map_eq_some_iff.mp h
      cases h
      exact ⟨rfl,rfl⟩

/-- A read changes only the buffer. It does not take one away, and makes one unless it is
refused. -/
lemma readCall_cases (h : s.readCall zlib junk zip n = some (r,t)) :
    t.mode = s.mode ∧ t.cd = s.cd ∧ (s.buffer ≠ none ∨ ¬ s.Refused junk zip → t.buffer ≠ none) := by
  by_cases hb : s.buffer = none
  · rw [readCall_unbuffered hb] at h
    obtain ⟨⟨done,u⟩,hu,h⟩ := bind_eq_some_iff.mp h
    obtain ⟨hm,hcd⟩ := decompressSegment_cases hu
    cases done with
    | true =>
      obtain ⟨hm',hcd',hbf⟩ := readBuffer_cases h
      exact ⟨hm'.trans hm,hcd'.trans hcd,fun _ => hbf⟩
    | false =>
      cases h
      refine ⟨hm,hcd,fun hor => ?_⟩
      obtain ⟨io,hio⟩ := decompressSegment_buffer (hor.resolve_left (not_not.mpr hb)) hu
      simp [hio]
  · obtain ⟨io,hio⟩ := ne_none_iff_exists'.mp hb
    rw [readCall_buffered hio] at h
    obtain ⟨hm,hcd,hbf⟩ := readBuffer_cases h
    exact ⟨hm,hcd,fun _ => hbf⟩

structure Headed (s : ZipSegment σ) (data : Bytes) : Prop where
  name : s.filename ≠ []
  header : ∃ pre rest, data = pre ++ (s.fileHeader.encode ++ rest) ∧
    s.offsetOfFileHeader.toNat = pre.length ∧ pre.length < 2^63

lemma Headed.append {data : Bytes} (hs : s.Headed data) (more : Bytes) :
    s.Headed (data ++ more) := by
  obtain ⟨pre,rest,rfl,ho,hlt⟩ := hs.header
  exact ⟨hs.name,pre,rest ++ more,by simp,ho,hlt⟩

variable {fd : FileBackedObject}

/-- The comparison of the names goes beyond the array if the length of the name of a closed
segment is a multiple of 65536, and is not made otherwise. -/
lemma Headed.matchHeader (hs : s.Headed fd.data) (hz : s.cd.fileNameLength = 0) (junk : Junk) :
    s.matchHeader junk fd = some none ∨ s.matchHeader junk fd = none := by
  obtain ⟨pre,rest,hd,ho,hlt⟩ := hs.header
  by_cases hln : s.fileHeader.fileNameLength = 0
  · right
    have hm : s.filename.length%2^16 = 0 := by
      have := congrArg UInt16.toNat hln
      simpa [fileHeader] using this
    have hp : 0 < s.filename.length := length_pos_of_ne_nil hs.name
    have hl : buffSize < s.filename.length := by
      rw [buffSize]
      omega
    obtain ⟨fd',hr,-⟩ := read_header_at hd ho hlt
    have hn : (fd'.read (min buffSize (0 : UInt16).toNat)).1.length = (0 : UInt16).toNat := by
      simp [FileBackedObject.read_fst]
    simp only [ZipSegment.matchHeader,hr,decode_overlay,hln,hz,ne_eq,not_true,if_false,hn,
      hl,if_true]
  · exact .inl (matchHeader_mismatch junk hd ho hlt (by rwa [hz]))

/-- A closed segment cannot be read before the volume is closed: only `ZipFile_close` completes its
directory entry with the length of the name. -/
lemma Headed.readCall (hs : s.Headed fd.data) (hb : s.buffer = none)
    (hz : s.cd.fileNameLength = 0) (hzp : ∀ fd', zip = some fd' → fd' = fd)
    (h : s.readCall zlib junk zip n = some (r,t)) : t = s := by
  have hsa : s.Refused junk zip → t = s := by
    intro hr
    rw [readCall_refused hb hr] at h
    exact (Prod.mk.inj (some.inj h)).2.symm
  rcases hs.matchHeader hz junk with hm | hm
  · refine hsa fun fd' hfd => ?_
    rw [hzp fd' hfd]
    exact hm
  · cases zip with
    | none => exact hsa fun fd' hfd => by cases hfd
    | some fd' =>
      rw [readCall_unbuffered hb,decompressSegment,hzp fd' rfl,hm] at h
      cases h

structure Created (s : ZipSegment σ) (closed : Bool) (data : Bytes) : Prop where
  mode : s.mode = .w
  nameLength : s.cd.fileNameLength = 0
  buffer : s.buffer = none ↔ closed = true
  headed : closed = true → s.Headed data

variable {closed : Bool} {data : Bytes}

lemma Created.append (hs : s.Created closed data) (more : Bytes) :
    s.Created closed (data ++ more) :=
  ⟨hs.mode,hs.nameLength,hs.buffer,fun h => (hs.headed h).append more⟩

lemma Created.of_buffer (hs : s.Created closed data) (hb : s.buffer ≠ none)
    (hm : t.mode = s.mode) (hl : t.cd.fileNameLength = s.cd.fileNameLength)
    (ht : t.buffer ≠ none) : t.Created closed data := by
  have ho : closed ≠ true := fun h => hb (hs.buffer.mpr h)
  exact ⟨hm.trans hs.mode,hl.trans hs.nameLength,iff_of_false ht ho,fun h => absurd h ho⟩

lemma Created.write {input : Bytes} {m : Int} (hs : s.Created closed data)
    (h : s.write zlib input = some (m,t)) : t.Created closed data := by
  obtain rfl | ⟨hm,hl,hb,ht⟩ := write_cases h
  · exact hs
  · exact hs.of_buffer hb hm hl ht

lemma Created.read (hs : s.Created closed fd.data)
    (hz : ∀ fd', zip = some fd' → fd' = fd) (h : s.readCall zlib junk zip n = some (r,t)) :
    t.Created closed fd.data := by
  by_cases hb : s.buffer = none
  · rwa [(hs.headed (hs.buffer.mp hb)).readCall hb hs.nameLength hz h]
  · obtain ⟨hm,hcd,ht⟩ := readCall_cases h
    exact hs.of_buffer hb hm (by rw [hcd]) (ht (.inl hb))

lemma Created.close {container : RDFURN} {fd fd' : FileBackedObject}
    (hs : s.Created closed fd.data) (h : s.close zlib container fd = some (fd',t))
    (hsz : fd'.data.length < 2^63) : t.Created true fd'.data := by
  obtain ⟨hm,-⟩ | ⟨io,io',urn,name,-,-,-,-,rfl,ha⟩ := close_cases h
  · rw [hs.mode] at hm
    cases hm
  · have hlt : fd.data.length < 2^63 := by
      rw [ha,length_append] at hsz
      omega
    refine ⟨hs.mode,hs.nameLength,iff_of_true rfl rfl,fun _ => ⟨?_,fd.data,_,ha,?_,hlt⟩⟩
    · simp [written,zstring]
    · exact UInt64.toNat_ofNat_of_lt' (lt_trans hlt (by decide))

end ZipSegment

namespace ZipFile

/-- The calls on a writable volume. A member is read through the volume that is open for
reading on the same file, if there is one at that time. -/
inductive Access where
  | op (op : Op)
  | read (k : Nat) (junk : Junk) (length : UInt32) (opened : Bool)

def container (self : ZipFile σ) (opened : Bool) : Option FileBackedObject :=
  if opened then some self.backingStore else none

def access (zlib : Zlib σ) (self : ZipFile σ) : Access → Option (ZipFile σ)
  | .op op => self.step zlib op
  | .read k junk length opened =>
    self.members[k]?.bind fun s =>
      (s.readCall zlib junk (self.container opened) length).map fun r =>
        {self with members := self.members.set k r.2}

def Access.closes (k : Nat) : Access → Bool
  | .op (.close j) => j = k
  | _ => false

/-- Whether member `k` was loaded with the volume or closed since. -/
def due (start : ZipFile σ) (accesses : List Access) (k : Nat) : Bool :=
  decide (k < start.members.length) || accesses.any (Access.closes k)

def listing (self : ZipFile σ) (due : Nat → Bool) : Bytes :=
  (self.members.zipIdx.filter fun p => due p.2).flatMap fun p => p.1.directoryEntry

def Harmless (volume : ZipFile σ) : Access → Prop
  | .op _ => True
  | .read k junk _ opened => ∀ s, volume.members[k]? = some s → s.mode = .r → s.buffer = none →
    s.Refused junk (volume.container opened)

lemma container_eq {volume : ZipFile σ} {opened : Bool} (fd : FileBackedObject)
    (h : volume.container opened = some fd) : fd = volume.backingStore := by
  cases opened with
  | false => cases h
  | true => exact (some.inj h).symm

/-- A session that began with `n` loaded members. -/
structure Tracked (volume : ZipFile σ) (n : Nat) (closed : Nat → Bool) : Prop where
  writable : volume.mode = .w
  length : n ≤ volume.members.length
  loaded : ∀ (k : Nat) (s : ZipSegment σ), k < n → volume.members[k]? = some s → s.mode = .r
  created : ∀ (k : Nat) (s : ZipSegment σ), n ≤ k → volume.members[k]? = some s →
    s.Created (closed k) volume.backingStore.data
  known : ∀ k, closed k = true → k < volume.members.length

section

variable {zlib : Zlib σ} {volume next : ZipFile σ} {n j : Nat} {closed closed' : Nat → Bool}
  {s t : ZipSegment σ}

lemma Tracked.set (hs : volume.Tracked n closed) (hm : volume.members[j]? = some s)
    {fd : FileBackedObject} {more : Bytes} (hd : fd.data = volume.backingStore.data ++ more)
    (ho : ∀ k, k ≠ j → closed' k = closed k) (hl : j < n → t.mode = .r)
    (hc : n ≤ j → t.Created (closed' j) fd.data) :
    Tracked {volume with members := volume.members.set j t, backingStore := fd} n closed' := by
  have hlt := (List.getElem?_eq_some_iff.mp hm).1
  refine ⟨hs.writable,by simpa using hs.length,fun k u hk hu => ?_,fun k u hk hu => ?_,
    fun k hk => ?_⟩
  · by_cases hjk : j = k
    · subst hjk
      obtain rfl := some.inj ((List.getElem?_set_self hlt).symm.trans hu)
      exact hl hk
    · exact hs.loaded k u hk ((getElem?_set_ne hjk).symm.trans hu)
  · by_cases hjk : j = k
    · subst hjk
      obtain rfl := some.inj ((List.getElem?_set_self hlt).symm.trans hu)
      exact hc hk
    · have hold := hs.created k u hk ((getElem?_set_ne hjk).symm.trans hu)
      rw [ho k (Ne.symm hjk),hd]
      exact hold.append more
  · rw [length_set]
    by_cases hjk : k = j
    · rwa [hjk]
    · exact hs.known k (ho k hjk ▸ hk)

lemma Tracked.concat (hs : volume.Tracked n closed) (hm : t.mode = .w)
    (hln : t.cd.fileNameLength = 0) (hb : t.buffer ≠ none) :
    Tracked {volume with members := volume.members ++ [t]} n closed := by
  have hl := hs.length
  have hc : ∀ (k : Nat) (u : ZipSegment σ), (volume.members ++ [t])[k]? = some u →
      volume.members[k]? = some u ∨ k = volume.members.length ∧ u = t := by
    intro k u hu
    rw [getElem?_append] at hu
    split at hu
    · exact .inl hu
    · obtain ⟨hlt,rfl⟩ := List.getElem?_eq_some_iff.mp hu
      rw [List.length_singleton] at hlt
      exact .inr ⟨by omega,by simp⟩
  refine ⟨hs.writable,?_,fun k u hk hu => ?_,fun k u hk hu => ?_,fun k hk => ?_⟩
  · rw [length_append]
    omega
  · rcases hc k u hu with hu | ⟨rfl,-⟩
    · exact hs.loaded k u hk hu
    · omega
  · rcases hc k u hu with hu | ⟨rfl,rfl⟩
    · exact hs.created k u hk hu
    · have ho : closed volume.members.length ≠ true := fun h => lt_irrefl _ (hs.known _ h)
      exact ⟨hm,hln,iff_of_false hb ho,fun h => absurd h ho⟩
  · have := hs.known k hk
    rw [length_append]
    omega

variable {a : Access}

lemma access_tracked (hs : volume.Tracked n closed)
    (h : volume.access zlib a = some next) (hsz : next.backingStore.data.length < 2^63) :
    next.Tracked n fun k => closed k || a.closes k := by
  cases a with
  | read j junk length opened =>
    obtain ⟨s,hmm,h⟩ := bind_eq_some_iff.mp h
    obtain ⟨⟨r,t⟩,hr,rfl⟩ := map_eq_some_iff.mp h
    refine hs.set hmm (append_nil _).symm (fun k _ => by simp [Access.closes]) ?_ ?_
    · intro hj
      exact (readCall_cases hr).1.trans (hs.loaded j s hj hmm)
    · intro hj
      simpa [Access.closes] using (hs.created j s hj hmm).read container_eq hr
  | op op =>
    cases op with
    | openMember member mode method dosdate dostime =>
      obtain ⟨⟨next',result⟩,hopn,rfl⟩ := map_eq_some_iff.mp h
      simp only [Access.closes,Bool.or_false]
      obtain ⟨rfl,-⟩ | ⟨_,segment,_,rfl,-,rfl,hf,rfl⟩ := openMember_cases hopn
      · exact hs
      · have hw := finish_writing rfl rfl rfl rfl hf
        exact hs.concat hw.mode (by rw [finish_cd rfl hf]; rfl)
          (by simp [hw.buffer])
    | write j data =>
      obtain ⟨s,hmm,h⟩ := bind_eq_some_iff.mp h
      obtain ⟨⟨m,t⟩,hwr,rfl⟩ := map_eq_some_iff.mp h
      refine hs.set hmm (append_nil _).symm (fun k _ => by simp [Access.closes]) ?_ ?_
      · intro hj
        obtain rfl | ⟨hm,-⟩ := write_cases hwr
        · exact hs.loaded j t hj hmm
        · exact hm.trans (hs.loaded j s hj hmm)
      · intro hj
        simpa [Access.closes] using (hs.created j s hj hmm).write hwr
    | close j =>
      obtain ⟨s,hmm,h⟩ := bind_eq_some_iff.mp h
      rw [closeMember_eq hs.writable] at h
      obtain ⟨⟨fd,t⟩,hc,rfl⟩ := map_eq_some_iff.mp h
      have ho : ∀ k, k ≠ j → (closed k || Access.closes k (.op (.close j))) = closed k := by
        intro k hk
        simp [Access.closes,Ne.symm hk]
      obtain ⟨hm,rfl,rfl⟩ | ⟨_,_,_,_,hio,-,-,-,-,ha⟩ := close_cases hc
      · refine hs.set hmm (append_nil _).symm ho (fun _ => hm) fun hj => ?_
        rw [(hs.created j t hj hmm).mode] at hm
        cases hm
      · refine hs.set hmm ha ho (fun hj => ?_) fun hj => ?_
        · have hsa : s.close zlib volume.urn volume.backingStore =
              some (volume.backingStore,s) := if_pos (hs.loaded j s hj hmm)
          obtain ⟨-,rfl⟩ := Prod.mk.inj (some.inj (hsa.symm.trans hc))
          exact hs.loaded j s hj hmm
        · simpa [Access.closes] using (hs.created j s hj hmm).close hc hsz

lemma access_data (h : volume.access zlib a = some next) :
    ∃ more, next.backingStore.data = volume.backingStore.data ++ more := by
  cases a with
  | op op => exact (step_preserved h).data
  | read j junk length opened =>
    obtain ⟨s,-,h⟩ := bind_eq_some_iff.mp h
    obtain ⟨r,-,rfl⟩ := map_eq_some_iff.mp h
    exact ⟨[],by simp⟩

variable {start : ZipFile σ} {accesses : List Access} {k : Nat} {α β : Type}

lemma run_tracked (hw : start.mode = .w) (hf : ∀ s ∈ start.members, s.mode = .r)
    (h : run (access zlib) start accesses = some volume)
    (hsz : volume.backingStore.data.length < 2^63) :
    volume.Tracked start.members.length fun k => accesses.any (Access.closes k) := by
  induction accesses using reverseRecOn generalizing volume with
  | nil =>
    cases h
    refine ⟨hw,le_refl _,fun k s _ hs => hf s (mem_of_getElem? hs),?_,by simp⟩
    intro k s hk hs
    exact absurd (List.getElem?_eq_some_iff.mp hs).1 (Nat.not_lt.mpr hk)
  | append_singleton accesses a ih =>
    rw [run_snoc] at h
    obtain ⟨u,hu,hst⟩ := bind_eq_some_iff.mp h
    obtain ⟨more,hm⟩ := access_data hst
    have hlt : u.backingStore.data.length < 2^63 := by
      rw [hm,length_append] at hsz
      omega
    simpa [any_append] using access_tracked (ih hu hlt) hst hsz

lemma access_loaded (hmm : volume.members[k]? = some s)
    (hm : s.mode = .r) (h : volume.access zlib a = some next) :
    ∃ t, next.members[k]? = some t ∧ t.mode = .r ∧ (s.buffer ≠ none → t.buffer ≠ none) ∧
      (volume.Harmless a → s.buffer = none → t.buffer = none) := by
  have hlt := (List.getElem?_eq_some_iff.mp hmm).1
  have hk : next.members[k]? = some s → ∃ t, next.members[k]? = some t ∧ t.mode = .r ∧
      (s.buffer ≠ none → t.buffer ≠ none) ∧
      (volume.Harmless a → s.buffer = none → t.buffer = none) :=
    fun hg => ⟨s,hg,hm,id,fun _ hb => hb⟩
  cases a with
  | read j junk length opened =>
    obtain ⟨u,hu,h⟩ := bind_eq_some_iff.mp h
    obtain ⟨⟨r,t⟩,hr,rfl⟩ := map_eq_some_iff.mp h
    by_cases hjk : j = k
    · subst hjk
      obtain rfl := some.inj (hmm.symm.trans hu)
      obtain ⟨hm',-,hb⟩ := readCall_cases hr
      refine ⟨t,List.getElem?_set_self hlt,hm'.trans hm,fun hs => hb (.inl hs),?_⟩
      intro hok hs
      rw [readCall_refused hs (hok s hmm hm hs)] at hr
      cases hr
      exact hs
    · exact hk ((getElem?_set_ne hjk).trans hmm)
  | op op =>
    by_cases ht : op.touches k = false
    · exact hk ((step_preserved h).members k s ht hmm)
    · cases op with
      | openMember => simp [Op.touches] at ht
      | write j data =>
        obtain rfl : j = k := by simpa [Op.touches] using ht
        obtain ⟨u,hu,h⟩ := bind_eq_some_iff.mp h
        obtain ⟨⟨m,t⟩,hw,rfl⟩ := map_eq_some_iff.mp h
        obtain rfl := some.inj (hmm.symm.trans hu)
        obtain rfl | ⟨hm',-,hs,hb⟩ := write_cases hw
        · exact hk (List.getElem?_set_self hlt)
        · exact ⟨t,List.getElem?_set_self hlt,hm'.trans hm,fun _ => hb, fun _ hn => absurd hn hs⟩
      | close j =>
        obtain rfl : j = k := by simpa [Op.touches] using ht
        obtain ⟨u,hu,h⟩ := bind_eq_some_iff.mp h
        obtain ⟨⟨fd,t⟩,hc,rfl⟩ := map_eq_some_iff.mp h
        obtain rfl := some.inj (hmm.symm.trans hu)
        obtain ⟨-,rfl⟩ | hc := closeMember_cases hc
        · exact hk (List.getElem?_set_self hlt)
        have hsa : s.close zlib volume.urn volume.backingStore =
          some (volume.backingStore,s) := if_pos hm
        obtain ⟨rfl,rfl⟩ := Prod.mk.inj (some.inj (hsa.symm.trans hc))
        exact hk (List.getElem?_set_self hlt)

def Spoiled (volume : ZipFile σ) (k : Nat) : Prop :=
  ∃ s, volume.members[k]? = some s ∧ s.mode = .r ∧ s.buffer ≠ none

lemma access_spoiled (hs : volume.Spoiled k)
    (h : volume.access zlib a = some next) : next.Spoiled k := by
  obtain ⟨s,hmm,hm,hb⟩ := hs
  obtain ⟨t,ht,hm',hk,-⟩ := access_loaded hmm hm h
  exact ⟨t,ht,hm',hk hb⟩

lemma access_harmful (ha : ¬ volume.Harmless a)
    (h : volume.access zlib a = some next) : ∃ k, next.Spoiled k := by
  cases a with
  | op op => exact absurd trivial ha
  | read k junk length opened =>
    simp only [Harmless,not_forall] at ha
    obtain ⟨s,hmm,hm,-,hrf⟩ := ha
    obtain ⟨u,hu,h⟩ := bind_eq_some_iff.mp h
    obtain ⟨⟨r,t⟩,hr,rfl⟩ := map_eq_some_iff.mp h
    obtain rfl := some.inj (hmm.symm.trans hu)
    obtain ⟨hm',-,hb⟩ := readCall_cases hr
    exact ⟨k,t,List.getElem?_set_self (List.getElem?_eq_some_iff.mp hmm).1,
      hm'.trans hm,hb (.inr hrf)⟩

lemma run_spoiled_iff (hf : ∀ s ∈ start.members, s.mode = .r ∧ s.buffer = none)
    (h : run (access zlib) start accesses = some volume)
    (htr : volume.Tracked start.members.length closed) :
    (∃ k, volume.Spoiled k) ↔ ¬ Along (access zlib) Harmless start accesses := by
  constructor
  · rintro ⟨k,s,hmm,hm,hb⟩ hal
    have hc := run_invariant_along
      (I := fun z => ∀ k < start.members.length, ∃ s, z.members[k]? = some s ∧ s.mode = .r ∧
        s.buffer = none) (fun z a u hz ha hu k hk => ?_) h hal fun k hk =>
          ⟨_,getElem?_eq_getElem hk,hf _ (getElem_mem hk)⟩
    · by_cases hk : k < start.members.length
      · obtain ⟨t,ht,-,hn⟩ := hc k hk
        exact hb (some.inj (hmm.symm.trans ht) ▸ hn)
      · have hw := (htr.created k s (Nat.not_lt.mp hk) hmm).mode
        rw [hm] at hw
        cases hw
    · obtain ⟨s,hs,hm,hn⟩ := hz k hk
      obtain ⟨t,ht,hm',-,hc⟩ := access_loaded hs hm hu
      exact ⟨t,ht,hm',hc ha hn⟩
  · intro hal
    obtain ⟨before,after,a,u,v,-,hbd,hst,haf⟩ := exists_step_of_not_along h hal
    obtain ⟨k,hk⟩ := access_harmful hbd hst
    exact ⟨k,run_invariant (I := fun z => z.Spoiled k) (fun _ _ _ hz hu => access_spoiled hz hu)
      haf hk⟩

lemma filter_flatMap_length_le {l : List α} {p q : α → Bool} {f : α → List β}
    (hpq : ∀ x ∈ l, p x = true → q x = true) :
    ((l.filter p).flatMap f).length ≤ ((l.filter q).flatMap f).length := by
  induction l with
  | nil => exact le_refl _
  | cons x l ih =>
    have ht := ih fun y hy => hpq y (mem_cons_of_mem _ hy)
    have hx := hpq x mem_cons_self
    rw [filter_cons,filter_cons]
    cases hp : p x with
    | true =>
      rw [hx hp]
      simpa using ht
    | false =>
      cases q x <;> simp at ht ⊢ <;> omega

lemma filter_flatMap_eq_iff {l : List α} {p q : α → Bool} {f : α → List β}
    (hf : ∀ x, f x ≠ []) (hpq : ∀ x ∈ l, p x = true → q x = true) :
    (l.filter p).flatMap f = (l.filter q).flatMap f ↔ ∀ x ∈ l, q x = true → p x = true := by
  induction l with
  | nil => simp
  | cons x l ih =>
    have hpq' := fun y hy => hpq y (mem_cons_of_mem x hy)
    rw [filter_cons,filter_cons,forall_mem_cons,← ih hpq']
    cases hp : p x with
    | true => simp [hpq x mem_cons_self hp]
    | false =>
      cases hq : q x with
      | false => simp
      | true =>
        have hle := filter_flatMap_length_le (f := f) hpq'
        have hps := length_pos_of_ne_nil (hf x)
        refine iff_of_false (fun he => ?_) (by simp)
        have := congrArg length he
        simp only [Bool.false_eq_true,if_false,if_true,flatMap_cons,length_append] at this
        omega

lemma directoryEntry_ne_nil (s : ZipSegment σ) : s.directoryEntry ≠ [] := by
  refine append_ne_nil_of_left_ne_nil (ne_nil_of_length_pos ?_) _
  rw [CDFileHeader.encode_length]
  decide

lemma directory_eq (volume : ZipFile σ) : volume.directory =
    (volume.members.zipIdx.filter fun p => p.1.isClosed).flatMap fun p => p.1.directoryEntry := by
  rw [directory,closed]
  conv_lhs => rw [← List.zipIdx_map_fst 0 volume.members]
  rw [List.filter_map,List.flatMap_map]
  rfl

lemma directory_eq_listing_iff {due : Nat → Bool}
    (hd : ∀ (k : Nat) (s : ZipSegment σ), volume.members[k]? = some s → s.buffer = none →
      due k = true) : volume.directory = volume.listing due ↔
      ∀ (k : Nat) (s : ZipSegment σ), volume.members[k]? = some s → due k = true →
        s.buffer = none := by
  have hi := filter_flatMap_eq_iff (l := volume.members.zipIdx) (p := fun p => p.1.isClosed)
    (q := fun p => due p.2) (f := fun p => p.1.directoryEntry)
    (fun p => directoryEntry_ne_nil p.1) fun p hp hc =>
      hd p.2 p.1 (mem_zipIdx_iff_getElem?.mp hp) (isNone_iff_eq_none.mp hc)
  rw [directory_eq,listing,hi]
  constructor
  · intro ha k s hs hk
    exact isNone_iff_eq_none.mp (ha (s,k) (mem_zipIdx_iff_getElem?.mpr hs) hk)
  · intro ha p hp hk
    exact isNone_iff_eq_none.mpr (ha p.2 p.1 (mem_zipIdx_iff_getElem?.mp hp) hk)

/-- The directory lists exactly the members that were loaded or closed, if and only if no
loaded member was read as far as to be given a buffer. -/
theorem directory_complete_iff {start : ZipFile σ} (hw : start.mode = .w)
    (hf : ∀ s ∈ start.members, s.mode = .r ∧ s.buffer = none) {accesses : List Access}
    (h : run (access zlib) start accesses = some volume)
    (hsz : volume.backingStore.data.length < 2^63) :
    volume.close.backingStore.data = volume.backingStore.data ++
        (volume.listing (due start accesses) ++
          trailer volume.urn volume.startOfCd volume.offsetOfEndCd volume.closed.length) ↔
      Along (access zlib) Harmless start accesses := by
  have ht := run_tracked hw (fun s hs => (hf s hs).1) h hsz
  have hl : ∀ (k : Nat) (s : ZipSegment σ), volume.members[k]? = some s → s.mode = .r →
      k < start.members.length := by
    intro k s hs hr
    by_contra hk
    rw [(ht.created k s (Nat.not_lt.mp hk) hs).mode] at hr
    cases hr
  rw [volume.close_data ht.writable,append_cancel_left_eq,append_cancel_right_eq,
    directory_eq_listing_iff,← not_iff_not,← run_spoiled_iff hf h ht]
  · constructor
    · intro hm
      by_contra hcl
      refine hm fun k s hs hk => ?_
      by_cases hlt : k < start.members.length
      · by_contra hb
        exact hcl ⟨k,s,hs,ht.loaded k s hlt hs,hb⟩
      · have hc : accesses.any (Access.closes k) = true := by simpa [due,hlt] using hk
        exact (ht.created k s (Nat.not_lt.mp hlt) hs).buffer.mpr hc
    · rintro ⟨k,s,hs,hr,hb⟩ ha
      exact hb (ha k s hs (by simp [due,hl k s hs hr]))
  · intro k s hs hb
    by_cases hlt : k < start.members.length
    · simp [due,hlt]
    · have := (ht.created k s (Nat.not_lt.mp hlt) hs).buffer.mp hb
      simp [due,this]

end

def reopenedVolume : ZipFile Unit := reopen (fun _ => 0) (.set fqn) .w oneByteFile

/-- The member is read while the volume is not open for reading, and a second one is made. -/
def readAndAppend : List Access :=
  [.read 0 (fun _ => 0) 1 false,.op (.openMember (.set (fqn ++ chars ['v','/','b'])) .w 0 0 0),
    .op (.write 1 (chars ['y'])),.op (.close 1)]

theorem readAndAppend_listed : ∃ volume,
    run (access plainZlib) reopenedVolume readAndAppend = some volume ∧
      volume.close.backingStore.data = volume.backingStore.data ++
        (volume.listing (due reopenedVolume readAndAppend) ++
          trailer volume.urn volume.startOfCd volume.offsetOfEndCd volume.closed.length) := by
  have hf : (run (access plainZlib) reopenedVolume readAndAppend).map (fun z =>
      decide (z.backingStore.data.length < 2^63)) = some true := by decide +kernel
  obtain ⟨volume,hv,hs⟩ := map_eq_some_iff.mp hf
  refine ⟨volume,hv,(directory_complete_iff (by decide +kernel) (reopen_fresh _ _ _ _) hv
    (of_decide_eq_true hs)).mpr ?_⟩
  exact ⟨fun s _ _ _ fd hfd => (by cases hfd),
    fun _ _ => ⟨trivial,fun _ _ => ⟨trivial,fun _ _ => ⟨trivial,fun _ _ => trivial⟩⟩⟩⟩

/-- The member is read while the volume is also open for reading, and is not listed. -/
theorem read_member_not_listed : reopenedVolume.closed.length = 1 ∧
    (run (access plainZlib) reopenedVolume [.read 0 (fun _ => 0) 1 true]).map directory =
      some [] := by
  decide +kernel

end ZipFile

end Aff4
