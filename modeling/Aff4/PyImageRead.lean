import Aff4.PyImage

/-! Reading an image of aff4.py: the chunk behind every index entry, the cache along any sequence of
reads, and the stream that an image stands for. -/

namespace Aff4.Python

open LittleEndian List Nat ImageParams

namespace ImageParams

variable {s : ImageParams} {zlib : Zlib}

variable {k : Nat}

lemma entries_split (bevy : Bytes) {n : Nat} (h : k ≤ n) :
    ∃ rest, s.entries zlib bevy n = s.entries zlib bevy k ++ rest := by
  induction n, h using le_induction with
  | base => exact ⟨[],by simp⟩
  | succ n _ ih =>
    obtain ⟨rest,hr⟩ := ih
    exact ⟨rest ++ leBytes 4 (s.stored zlib bevy n).length,by
      rw [entries_succ,hr,append_assoc]⟩

/-- Where the chunk after `k` begins, according to the index. -/
def entryEnd (self : ImageParams) (zlib : Zlib) (bevy : Bytes) (k : Nat) : Nat :=
  if k+1 < self.chunkCount bevy then (self.stored zlib bevy (k+1)).length else 0xFFFFFFFF

lemma slice_index (bevy : Bytes) (hk : k < s.chunkCount bevy) :
    slice (s.indexData zlib bevy) (4*k) 8 =
      leBytes 4 (s.stored zlib bevy k).length ++ leBytes 4 (s.entryEnd zlib bevy k) := by
  obtain ⟨rest,hr⟩ : ∃ rest, s.indexData zlib bevy = s.entries zlib bevy k ++
      (leBytes 4 (s.stored zlib bevy k).length ++
        leBytes 4 (s.entryEnd zlib bevy k)) ++ rest := by
    unfold entryEnd indexData
    split
    · rename_i hn
      obtain ⟨rest,hr⟩ : ∃ rest, s.entries zlib bevy (s.chunkCount bevy) =
          s.entries zlib bevy (k+2) ++ rest := entries_split bevy hn
      rw [hr,entries_succ,entries_succ]
      simp
    · obtain hl : s.chunkCount bevy = k+1 := by omega
      refine ⟨[],?_⟩
      rw [hl,entries_succ,append_nil,append_assoc]
  have hm := slice_middle (s.entries zlib bevy k)
    (leBytes 4 (s.stored zlib bevy k).length ++ leBytes 4 (s.entryEnd zlib bevy k)) rest
  rwa [entries_length,length_append,leBytes_length,leBytes_length,← hr] at hm

variable {bevy : Bytes} (hsz : (s.bevyData zlib bevy).length < 2^32)
include hsz

lemma stored_length_lt (hk : k ≤ s.chunkCount bevy) : (s.stored zlib bevy k).length < 256^4 := by
  obtain ⟨rest,hr⟩ : ∃ rest, s.bevyData zlib bevy = s.stored zlib bevy k ++ rest :=
    stored_split bevy hk
  rw [hr,length_append] at hsz
  omega

lemma entryEnd_lt (k : Nat) : s.entryEnd zlib bevy k < 256^4 := by
  unfold entryEnd
  split
  · rename_i hn
    exact stored_length_lt hsz (le_of_lt hn)
  · decide

lemma readAt_bevy (hk : k < s.chunkCount bevy) :
    Image.readAt (s.bevyData zlib bevy) (s.stored zlib bevy k).length
        ((s.entryEnd zlib bevy k : Int)-(s.stored zlib bevy k).length) =
      s.storedChunk zlib bevy k := by
  obtain ⟨rest,hr⟩ : ∃ rest, s.bevyData zlib bevy = s.stored zlib bevy (k+1) ++ rest :=
    stored_split bevy hk
  rw [stored_succ] at hr
  have hln : (min (((s.bevyData zlib bevy).length : Int)-(s.stored zlib bevy k).length)
      ((s.entryEnd zlib bevy k : Int)-(s.stored zlib bevy k).length)).toNat =
        (s.storedChunk zlib bevy k).length := by
    have ht := congrArg length hr
    simp only [length_append] at ht
    unfold entryEnd
    split
    · rw [stored_succ,length_append]
      omega
    · have hl : s.bevyData zlib bevy = s.stored zlib bevy (k+1) := by
        rw [bevyData,show s.chunkCount bevy = k+1 by omega]
      have ht' := congrArg length hl
      rw [stored_succ,length_append] at ht'
      omega
  rw [Image.readAt,hln,hr]
  exact slice_middle _ _ _

end ImageParams

namespace Image

variable {params : ImageParams} {zlib : Zlib} {volume : Volume} {content : Bytes}

lemma loadChunk_holds (hu : params.Usable zlib) (hs : params.Small zlib content)
    (hv : volume.Holds zlib params content) {c : Nat} (hc : c*params.chunkSize < content.length) :
    loadChunk zlib volume params c =
      some (slice content (c*params.chunkSize) params.chunkSize) := by
  have hcs := hu.chunkSize
  have hci := hu.chunksInSegment
  generalize hq : c/params.chunksInSegment = q
  generalize hr : c%params.chunksInSegment = r
  have hrl : r < params.chunksInSegment := hr ▸ mod_lt _ hci
  have hp : q*params.bevySize+r*params.chunkSize = c*params.chunkSize := by
    rw [← div_add_mod c params.chunksInSegment,hq,hr,bevySize]
    ring
  have hi : r*params.chunkSize+params.chunkSize ≤ params.bevySize := by
    have := mul_le_mul_right params.chunkSize (show r+1 ≤ params.chunksInSegment from hrl)
    rwa [succ_mul,mul_comm params.chunksInSegment] at this
  have hst : q*params.bevySize < content.length := by omega
  have hcn : r < params.chunkCount (params.bevyOf content q) := by
    rw [lt_chunkCount_iff hcs,bevyOf,slice_length]
    omega
  have hbv : (c : Int)/params.chunksInSegment = q := by
    rw [← hq]
    exact_mod_cast rfl
  have hin : (c : Int)%params.chunksInSegment = r := by
    rw [← hr]
    exact_mod_cast rfl
  have he : slice (params.indexData zlib (params.bevyOf content q)) (4*r) 8 = _ :=
    slice_index _ hcn
  have hb := stored_length_lt (hs q) (le_of_lt hcn)
  have hen := entryEnd_lt (hs q) r
  have hf := leBytes_length 4 (params.stored zlib (params.bevyOf content q) r).length
  have hch := (hu.stored_chunk (params.bevyOf content q) r).2
  rw [bevyOf,slice_slice _ _ hi,hp] at hch
  have ho : (4*(r : Int)).toNat = 4*r := by omega
  simp only [loadChunk,hbv,hin,hv.index q hst,hv.bevy q hst,Option.bind_some,ho,he,
    length_append,leBytes_length,if_true,take_left' hf,drop_left' hf,
    leNat_leBytes,mod_eq_of_lt hb,mod_eq_of_lt hen]
  rw [readAt_bevy (hs q) hcn]
  exact hch

lemma loadChunk_negative (hu : params.Usable zlib) (hv : volume.Holds zlib params content)
    {c : Int} (hc : c < 0) : loadChunk zlib volume params c = none := by
  have hn : c/params.chunksInSegment < 0 :=
    Int.ediv_neg_of_neg_of_pos hc (by exact_mod_cast hu.chunksInSegment)
  simp [loadChunk,hv.negative _ hn]

end Image

namespace Store

/-- The keys in order of age are those of the table, and every value is as `P` says. -/
structure Sound (P : Int → Bytes → Prop) (store : Store) : Prop where
  nodup : store.age.Nodup
  keys : ∀ k, k ∈ store.age ↔ store.hash k ≠ none
  values : ∀ k v, store.hash k = some v → P k v

variable {P : Int → Bytes → Prop} {s : Store}

lemma new_sound (P : Int → Bytes → Prop) : new.Sound P :=
  ⟨by simp [new],by simp [new],by simp [new]⟩

lemma Sound.expire (h : s.Sound P) (fuel : Nat) (hf : s.age.length < fuel) :
    ∃ next, Store.expire fuel s = some next ∧ next.Sound P := by
  induction fuel generalizing s with
  | zero => omega
  | succ fuel ih =>
    rw [Store.expire]
    by_cases hl : s.limit < s.age.length
    · rw [if_pos hl]
      cases ha : s.age with
      | nil => simp [ha] at hl
      | cons x age =>
        have hd := h.nodup
        rw [ha,nodup_cons] at hd
        have hx : ¬ s.hash x = none := (h.keys x).mp (by simp [ha])
        simp only [hx,if_false]
        refine ih ⟨hd.2,fun k => ?_,fun k v hv => ?_⟩ (by simp [ha] at hf; omega)
        · have hk := h.keys k
          rw [ha,mem_cons] at hk
          by_cases hkx : k = x
          · simpa [hkx] using hd.1
          · simpa [hkx] using hk
        · by_cases hkx : k = x
          · simp [hkx] at hv
          · exact h.values k v (by simpa [hkx] using hv)
    · rw [if_neg hl]
      exact ⟨s,rfl,h⟩

lemma Sound.add (h : s.Sound P) {urn : Int} {obj : Bytes} (hn : s.hash urn = none)
    (ho : P urn obj) : ∃ next, s.add urn obj = some next ∧ next.Sound P := by
  have hf : urn ∉ s.age := fun hm => (h.keys urn).mp hm hn
  refine Sound.expire ⟨?_,fun k => ?_,fun k v hv => ?_⟩ (s.age.length+2) (by simp)
  · exact nodup_append.mpr ⟨h.nodup,by simp,by
      intro a ha b hb hab
      rw [mem_singleton] at hb
      exact hf (hb ▸ hab ▸ ha)⟩
  · have hk := h.keys k
    by_cases hku : k = urn
    · simp [hku]
    · simpa [hku] using hk
  · by_cases hku : k = urn
    · subst hku
      have hv : obj = v := by simpa using hv
      exact hv ▸ ho
    · exact h.values k v (by simpa [hku] using hv)

end Store

def IsChunk (params : ImageParams) (content : Bytes) (k : Int) (chunk : Bytes) : Prop :=
  ∃ c : Nat, k = c ∧ chunk = slice content (c*params.chunkSize) params.chunkSize

structure Image.Reads (image : Image) (params : ImageParams) (content : Bytes) : Prop where
  opened : image.params = params
  size : image.size = content.length
  cache : image.chunkCache.Sound (IsChunk params content)

namespace Image

variable {params : ImageParams} {zlib : Zlib} {volume : Volume} {content : Bytes} {s : Image}

variable (hu : params.Usable zlib) (hs : params.Small zlib content)
  (hv : volume.Holds zlib params content)

variable {p n : Nat}

include hu hs hv

lemma partialRead_reads (h : s.Reads params content) (hp : s.readptr = p)
    (hn : 0 < n) (hle : p+n ≤ content.length) : ∃ m next, 0 < m ∧ m ≤ n ∧
      s.partialRead zlib volume n = some (slice content p m,next) ∧
      next.Reads params content ∧ next.readptr = s.readptr := by
  have hcs := hu.chunkSize
  generalize hc : p/params.chunkSize = c
  generalize ho : p%params.chunkSize = o
  have hpl : c*params.chunkSize+o = p := by
    rw [← hc,← ho,mul_comm]
    exact div_add_mod _ _
  have hol : o < params.chunkSize := ho ▸ mod_lt _ hcs
  have hid : (p : Int)/params.chunkSize = c := by
    rw [← hc]
    exact_mod_cast rfl
  have hof : (p : Int)%params.chunkSize = o := by
    rw [← ho]
    exact_mod_cast rfl
  have ha : (min ((params.chunkSize : Int)-o) n).toNat = min (params.chunkSize-o) n := by omega
  have hpc : slice (slice content (c*params.chunkSize) params.chunkSize) o
      (min (params.chunkSize-o) n) = slice content p (min (params.chunkSize-o) n) := by
    rw [slice_slice _ _ (by omega),hpl]
  refine ⟨min (params.chunkSize-o) n,?_⟩
  simp only [partialRead,h.opened,hp,hid,hof,ha,Int.toNat_natCast]
  cases hh : s.chunkCache.hash c with
  | some chunk =>
    obtain ⟨c',hc',rfl⟩ := h.cache.values c chunk hh
    obtain rfl : c = c' := by exact_mod_cast hc'
    exact ⟨s,by omega,by omega,by simp only [hpc],h,hp⟩
  | none =>
    obtain ⟨cache,hadd,hsn⟩ := h.cache.add hh (⟨c,rfl,rfl⟩ : IsChunk params content c _)
    have hl := loadChunk_holds hu hs hv (show c*params.chunkSize < content.length by omega)
    refine ⟨{s with chunkCache := cache},by omega,by omega,?_,⟨h.opened,h.size,hsn⟩,hp⟩
    rw [hl,Option.bind_some,hadd,Option.map_some,hpc]
    simp only [h.opened,hp]

lemma readLoop_reads (fuel : Nat) (h : s.Reads params content)
    (hp : s.readptr = p) (hle : n = 0 ∨ p+n ≤ content.length) (hf : n < fuel) (result : Bytes) :
    ∃ next, readLoop zlib volume fuel s n result = some (result ++ slice content p n,next) ∧
      next.Reads params content ∧ next.readptr = s.readptr+n := by
  induction fuel generalizing s p n result with
  | zero => omega
  | succ fuel ih =>
    rw [readLoop]
    by_cases hn : n = 0
    · subst hn
      exact ⟨s,by simp [slice],h,by simp⟩
    · have hle : p+n ≤ content.length := hle.resolve_left hn
      obtain ⟨m,mid,hm,hmn,hrd,hmd,hpt⟩ :=
        partialRead_reads hu hs hv h hp (Nat.pos_of_ne_zero hn) hle
      have hln : (slice content p m).length = m := by
        rw [slice_length]
        omega
      have hne : ¬ slice content p m = [] := by
        rw [← length_eq_zero_iff,hln]
        omega
      have hrs : (n : Int)-m = ((n-m : Nat) : Int) := by omega
      have hnx : Reads {mid with readptr := mid.readptr+m} params content :=
        ⟨hmd.opened,hmd.size,hmd.cache⟩
      obtain ⟨next,hl,hr,he⟩ := ih hnx (p := p+m) (n := n-m)
        (by simp [hpt,hp]) (by omega) (by omega) (result ++ slice content p m)
      refine ⟨next,?_,hr,by simp only [he,hpt]; omega⟩
      have hj : slice content p n = slice content p m ++ slice content (p+m) (n-m) := by
        rw [slice,slice,slice,← drop_drop,← take_add,Nat.add_sub_cancel' hmn]
      rw [if_pos (by omega),hrd,Option.bind_some]
      simp only [hne,if_false,hln,hrs]
      rw [hl,hj,append_assoc]

end Image

/-! ### The stream that an image stands for -/

structure Stream where
  content : Bytes
  readptr : Int

inductive FileOp where
  | seek (offset whence : Int)
  | read (length : Option Int)

def Image.step (zlib : Zlib) (volume : Volume) (self : Image) : FileOp → Option (Bytes × Image)
  | .seek offset whence => some ([],self.seek offset whence)
  | .read length => self.read zlib volume length

namespace Stream

def seek (self : Stream) (offset whence : Int) : Stream :=
  {self with readptr := seekTo self.readptr self.content.length offset whence}

def wanted (self : Stream) (length : Option Int) : Nat :=
  (min (self.content.length - self.readptr) (length.getD self.content.length)).toNat

def read (self : Stream) (length : Option Int) : Bytes × Stream :=
  let data := slice self.content self.readptr.toNat (self.wanted length)
  (data,{self with readptr := self.readptr + data.length})

def step (self : Stream) : FileOp → Option (Bytes × Stream)
  | .seek offset whence => some ([],self.seek offset whence)
  | .read length => some (self.read length)

def Before (self : Stream) : FileOp → Prop
  | .seek _ _ => False
  | .read length => self.readptr < 0 ∧ 0 < self.wanted length

end Stream

namespace Image

variable {params : ImageParams} {zlib : Zlib} {volume : Volume} {s : Image} {stream : Stream}

structure Represents (image : Image) (params : ImageParams) (stream : Stream) : Prop where
  reads : image.Reads params stream.content
  readptr : image.readptr = stream.readptr

variable (hu : params.Usable zlib) (hs : params.Small zlib stream.content)
  (hv : volume.Holds zlib params stream.content)

variable (h : s.Represents params stream)

include h in
lemma wanted_eq (length : Option Int) : stream.wanted length =
      (min ((s.size : Int)-s.readptr) (length.getD s.size)).toNat := by
  rw [Stream.wanted,h.reads.size,h.readptr]

variable {length : Option Int}

include hu hs hv in
include h in
lemma read_represents (hb : 0 ≤ stream.readptr ∨ stream.wanted length = 0) :
    ∃ next, s.read zlib volume length = some ((stream.read length).1,next) ∧
      next.Represents params (stream.read length).2 := by
  have hw := wanted_eq h length
  unfold read
  generalize hn : min ((s.size : Int)-s.readptr) (length.getD s.size) = n at hw
  by_cases hz : stream.wanted length = 0
  · have hd : (stream.read length).1 = [] := by simp [Stream.read,hz,slice]
    refine ⟨s,?_,h.reads,?_⟩
    · rw [hd,readLoop,if_neg (by omega)]
    · simpa [Stream.read,hz,slice] using h.readptr
  · have hps : 0 ≤ stream.readptr := hb.resolve_right hz
    have hle : stream.readptr.toNat+stream.wanted length ≤ stream.content.length := by
      have hsz := h.reads.size
      have hp := h.readptr
      omega
    have hp : s.readptr = (stream.readptr.toNat : Int) := by
      rw [h.readptr]
      omega
    have hl : n = (stream.wanted length : Int) := by omega
    obtain ⟨next,hr,hrd,he⟩ := readLoop_reads hu hs hv (n.toNat+1) h.reads hp
      (.inr hle) (by omega) []
    refine ⟨next,?_,hrd,?_⟩
    · rw [← hl] at hr
      exact hr
    · simp only [Stream.read,he,h.readptr,slice_length]
      omega

include hu hv in
include h in
lemma read_before (hn : stream.readptr < 0)
    (hw : 0 < stream.wanted length) : s.read zlib volume length = none := by
  rw [wanted_eq h length] at hw
  unfold read
  generalize min ((s.size : Int)-s.readptr) (length.getD s.size) = n at hw
  have hcs : (0 : Int) < params.chunkSize := by exact_mod_cast hu.chunkSize
  have hid : s.readptr/params.chunkSize < 0 := Int.ediv_neg_of_neg_of_pos (h.readptr ▸ hn) hcs
  have hcc : s.chunkCache.hash (s.readptr/params.chunkSize) = none := by
    cases hh : s.chunkCache.hash (s.readptr/params.chunkSize) with
    | none => rfl
    | some chunk =>
      obtain ⟨c,hc,_⟩ := h.reads.cache.values _ _ hh
      omega
  have hp : s.partialRead zlib volume n = none := by
    simp [partialRead,h.reads.opened,hcc,loadChunk_negative hu hv hid]
  rw [readLoop,if_pos (by omega),hp,Option.bind_none]

include h in
lemma seek_represents (offset whence : Int) :
    (s.seek offset whence).Represents params (stream.seek offset whence) := by
  refine ⟨⟨h.reads.opened,h.reads.size,h.reads.cache⟩,?_⟩
  simp [seek,Stream.seek,h.readptr,h.reads.size]

end Image

open Transition in
/-- Whatever was written, and in whichever order the workers finish: seeks and reads give the slices
of the content exactly when no read asks for a byte in front of it. -/
theorem Image.read_back_iff {params : ImageParams} {zlib : Zlib} (hu : params.Usable zlib)
    (writes : List Bytes) (hs : params.Small zlib writes.flatten) :
    ∃ writer, run (ImageWriter.write params) .new writes = some writer ∧
      writer.size = writes.flatten.length ∧
      ∀ order : List ImageWorker, order.Perm writer.close →
        ∀ ops outputs last, trace Stream.step ⟨writes.flatten,0⟩ ops = some (outputs,last) →
          ((∃ image, trace (Image.step zlib (order.foldl (ImageWorker.store zlib params) .empty))
              ⟨params,0,writer.size,.new⟩ ops = some (outputs,image)) ↔
            Along (post Stream.step) (fun stream op => ¬ stream.Before op)
              ⟨writes.flatten,0⟩ ops) := by
  have hp : 0 < params.bevySize := mul_pos hu.chunkSize hu.chunksInSegment
  obtain ⟨writer,hrn,hf,hsz⟩ :=
    ImageWriter.run_write_filled hp writes (ImageWriter.new_filled params) rfl rfl
  rw [nil_append] at hf hsz
  refine ⟨writer,hrn,hsz,fun order ho ops outputs last hsp => ?_⟩
  have hv := hf.holds hu hs ho
  -- the stream keeps its content, so the relation carries it along
  refine trace_refines_iff (R := fun image stream =>
    image.Represents params stream ∧ stream.content = writes.flatten) ?_ ?_ ?_ hsp
  · rintro image stream op o next ⟨hrp,hc⟩ hst hg
    rw [← hc] at hs hv
    cases op with
    | seek offset whence =>
      obtain ⟨rfl,rfl⟩ : [] = o ∧ stream.seek offset whence = next := by
        simpa [Stream.step] using hst
      exact ⟨_,rfl,seek_represents hrp offset whence,hc⟩
    | read length =>
      obtain ⟨rfl,rfl⟩ : (stream.read length).1 = o ∧ (stream.read length).2 = next := by
        simpa [Stream.step,Prod.ext_iff] using hst
      simp only [Stream.Before,not_and,not_lt,le_zero] at hg
      have hb : 0 ≤ stream.readptr ∨ stream.wanted length = 0 := by
        by_cases h : 0 ≤ stream.readptr
        · exact .inl h
        · exact .inr (hg (by omega))
      obtain ⟨image',hr,hrp'⟩ := read_represents hu hs hv hrp hb
      exact ⟨image',hr,hrp',hc⟩
  · rintro image stream op o next ⟨hrp,hc⟩ _ hbd
    rw [← hc] at hv
    cases op with
    | seek => exact hbd.elim
    | read length => exact read_before hu hv hrp hbd.1 hbd.2
  · exact ⟨⟨⟨rfl,hsz,Store.new_sound _⟩,rfl⟩,rfl⟩

def smallParams : ImageParams := ⟨2,2,0⟩

def plainZlib : Zlib := ⟨fun data _ => some data,fun data => some data⟩

lemma smallParams_usable : smallParams.Usable plainZlib :=
  ⟨by decide,by decide,fun h => absurd h (by decide)⟩

lemma smallParams_small (content : Bytes) : smallParams.Small plainZlib content := by
  intro k
  generalize hb : smallParams.bevyOf content k = bevy
  have hl : bevy.length ≤ 4 := by
    rw [← hb,bevyOf,slice_length]
    exact min_le_left _ _
  have hcn : smallParams.chunkCount bevy ≤ 2 := by
    simp only [chunkCount,smallParams]
    omega
  have hst : ∀ n, (smallParams.stored plainZlib bevy n).length ≤ 2*n := by
    intro n
    induction n with
    | zero => simp [stored]
    | succ n ih =>
      have hc : (smallParams.storedChunk plainZlib bevy n).length ≤ 2 := by
        simp [storedChunk,deflate,smallParams,slice_length]
      rw [stored_succ,length_append]
      omega
  have := hst (smallParams.chunkCount bevy)
  rw [bevyData]
  omega

open Transition in
theorem read_back_small : ∃ writer image,
    run (ImageWriter.write smallParams) .new [[1,2,3],[],[4,5,6]] = some writer ∧
    trace (Image.step plainZlib
        (writer.close.foldl (ImageWorker.store plainZlib smallParams) .empty))
      ⟨smallParams,0,writer.size,.new⟩ [.read (some 3),.seek (-1) 2,.read none] =
        some ([[1,2,3],[],[6]],image) := by
  obtain ⟨writer,hrn,_,hr⟩ := Image.read_back_iff smallParams_usable [[1,2,3],[],[4,5,6]]
    (smallParams_small _)
  obtain ⟨image,hi⟩ := (hr writer.close (.refl _)
    [.read (some 3),.seek (-1) 2,.read none] [[1,2,3],[],[6]] _ rfl).mpr (by
      refine ⟨?_,fun _ h => ?_⟩
      · simp [Stream.Before]
      · cases h
        refine ⟨id,fun _ h => ?_⟩
        cases h
        exact ⟨fun h => absurd h.1 (by decide),fun _ _ => trivial⟩)
  exact ⟨writer,image,hrn,hi⟩

open Transition in
/-- A read in front of the first byte looks for a segment that is not there. -/
theorem read_back_before_fails : ∃ writer,
    run (ImageWriter.write smallParams) .new [[1]] = some writer ∧
    (trace (Image.step plainZlib
        (writer.close.foldl (ImageWorker.store plainZlib smallParams) .empty))
      ⟨smallParams,0,writer.size,.new⟩ [.seek (-1) 0,.read (some 1)]).isNone = true :=
  ⟨_,rfl,by decide +kernel⟩

end Aff4.Python
