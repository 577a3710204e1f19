import Mathlib.Algebra.BigOperators.Group.List.Basic
import Aff4.MapText

/-! The hash imager, imager.py. `dump_full_run` breaks a file's block run into runs of at most
`MAX_SIZE` bytes. The map of the image begins with a point on the stream of zeros, and
`add_block_run` adds the blocks of each hashed object. -/

namespace Aff4.Python.HashImager

open List

abbrev Run := Int × Nat

/-- The local variables of `dump_full_run`, with the blocks and the `size` of each call of
`dump_block_run` so far. -/
structure FullRun where
  currentLength : Nat := 0
  currentRun : List Run := []
  size : Int
  dumped : List (List Run × Int) := []

section

variable (maxSize : Nat)

/-- A call of `dump_block_run` in the loop, and the start of a new run. -/
def FullRun.dumpBlockRun (s : FullRun) (blocks : List Run) : FullRun :=
  { currentLength := 0, currentRun := [], size := s.size-maxSize
    dumped := s.dumped ++ [(blocks,(maxSize : Int))] }

/-- The `while` loop, up to the offset and the `available` that are appended after it. -/
def splitLoop : Nat → FullRun → Int → Nat → Nat → Option (FullRun × Int × Nat)
  | 0, _, _, _, _ => none
  | fuel+1, s, offset, length, available =>
      if maxSize < s.currentLength+length then
        let available := maxSize-s.currentLength
        splitLoop fuel (s.dumpBlockRun maxSize (s.currentRun ++ [(offset,available)]))
          (offset+available) (length-available) available
      else some (s,offset,available)

def addRun (s : FullRun) (r : Run) : Option FullRun := do
  let (s,offset,available) ← splitLoop maxSize (r.2+1) s r.1 r.2 r.2
  return { s with currentRun := s.currentRun ++ [(offset,available)] }

def dumpFullRun (blockRun : List Run) (size : Int) : Option (List (List Run × Int)) :=
  (blockRun.foldlM (addRun maxSize) { size }).map fun s => s.dumped ++ [(s.currentRun,s.size)]

def bytes (r : Run) : List Int := (range r.2).map fun i : Nat => r.1+i

def total (rs : List Run) : Nat := (rs.map Prod.snd).sum

/-- The calls are within `MAX_SIZE` and have the bytes of the runs in order. -/
def Splits (blockRun : List Run) (calls : List (List Run × Int)) : Prop :=
  (∀ c ∈ calls, total c.1 ≤ maxSize) ∧
    calls.flatMap (fun c => c.1.flatMap bytes) = blockRun.flatMap bytes

lemma bytes_add (o : Int) (m n : Nat) : bytes (o,m+n) = bytes (o,m) ++ bytes (o+m,n) := by
  simp [bytes,range_add,Int.add_assoc]

@[simp] lemma length_bytes (r : Run) : (bytes r).length = r.2 := by simp [bytes]

@[simp] lemma total_nil : total [] = 0 := rfl

@[simp] lemma total_cons (r : Run) (rs : List Run) : total (r :: rs) = r.2+total rs := by
  simp [total]

@[simp] lemma total_append (rs rs' : List Run) : total (rs ++ rs') = total rs+total rs' := by
  simp [total]

lemma dvd_of_flatMap_bytes {os : List Int} {r : Run}
    (h : os.flatMap (fun o => bytes (o,maxSize)) = bytes r) : maxSize ∣ r.2 :=
  ⟨os.length,by simpa [mul_comm] using (congrArg length h).symm⟩

def full (offset : Int) : List Run × Int := ([(offset,maxSize)],maxSize)

section

variable {maxSize} (hmx : 0 < maxSize)
include hmx

variable {s : FullRun} (hs : s.currentLength = 0)

include hs in
/-- Once the loop has turned, `available` stays at `MAX_SIZE`, also for the rest of the run. -/
lemma splitLoop_full (hr : s.currentRun = []) (offset : Int) {fuel length : Nat} (hl : 0 < length)
    (hf : length ≤ fuel) :
    ∃ t last new, splitLoop maxSize fuel s offset length maxSize = some (t,last,maxSize) ∧
      t.currentLength = 0 ∧ t.currentRun = [] ∧ t.dumped = s.dumped ++ new.map (full maxSize) ∧
      (maxSize ∣ length →
        (new ++ [last]).flatMap (fun o => bytes (o,maxSize)) = bytes (offset,length)) := by
  induction fuel generalizing s offset length with
  | zero => omega
  | succ fuel ih =>
    rw [splitLoop]
    split
    case isFalse h =>
      refine ⟨s,offset,[],rfl,hs,hr,by simp,fun hd => ?_⟩
      simp [Nat.le_antisymm (by omega : length ≤ maxSize) (Nat.le_of_dvd hl hd)]
    case isTrue h =>
      rw [hs,hr]
      obtain ⟨t,last,new,ht,h0,h1,h2,h3⟩ := ih (s := s.dumpBlockRun maxSize [(offset,maxSize)])
        rfl rfl (offset+maxSize) (by omega : 0 < length-maxSize) (by omega)
      refine ⟨t,last,offset :: new,ht,h0,h1,by simp [h2,full,FullRun.dumpBlockRun],fun hd => ?_⟩
      rw [cons_append,flatMap_cons,h3 (Nat.dvd_sub hd (Nat.dvd_refl _)),← bytes_add]
      congr 2
      omega

include hs in
/-- What a run of the list does: a short one is appended without a look at the length so far, a
long one closes the current run with a whole `MAX_SIZE`. -/
lemma addRun_cases (r : Run) : ∃ t, addRun maxSize s r = some t ∧ t.currentLength = 0 ∧
      (r.2 ≤ maxSize ∧ t.currentRun = s.currentRun ++ [r] ∧ t.dumped = s.dumped ∨
       maxSize < r.2 ∧ ∃ last new, t.currentRun = [(last,maxSize)] ∧
        t.dumped = s.dumped ++ (s.currentRun ++ [(r.1,maxSize)],(maxSize : Int)) ::
          new.map (full maxSize) ∧
        (maxSize ∣ r.2 →
          (r.1 :: new ++ [last]).flatMap (fun o => bytes (o,maxSize)) = bytes r)) := by
  rw [addRun,splitLoop,hs]
  split
  case isFalse h => exact ⟨_,rfl,hs,.inl ⟨by omega,rfl,rfl⟩⟩
  case isTrue h =>
    obtain ⟨t,last,new,ht,h0,h1,h2,h3⟩ := splitLoop_full hmx
      (s := s.dumpBlockRun maxSize (s.currentRun ++ [(r.1,maxSize)])) rfl rfl (r.1+maxSize)
      (by omega : 0 < r.2-maxSize) (Nat.sub_le ..)
    refine ⟨{ t with currentRun := t.currentRun ++ [(last,maxSize)] },
      by simp only [Nat.sub_zero,ht]; rfl,h0,.inr ⟨by omega,last,new,by simp [h1],
      by simp [h2,FullRun.dumpBlockRun],fun hd => ?_⟩⟩
    rw [cons_append,flatMap_cons,h3 (Nat.dvd_sub hd (Nat.dvd_refl _)),← bytes_add]
    congr 2
    omega

include hs in
/-- From a current run that is not empty, the sub-runs stay within `MAX_SIZE` only if everything
that is left goes into it. -/
lemma foldlM_addRun (rs : List Run) :
    ∃ t, rs.foldlM (addRun maxSize) s = some t ∧ s.dumped ⊆ t.dumped ∧
      (0 < total s.currentRun → (∀ c ∈ t.dumped ++ [(t.currentRun,t.size)], total c.1 ≤ maxSize) →
        total s.currentRun+total rs ≤ maxSize) ∧
      (total s.currentRun+total rs ≤ maxSize →
        t.dumped = s.dumped ∧ t.currentRun = s.currentRun ++ rs) := by
  induction rs generalizing s with
  | nil =>
    refine ⟨s,rfl,fun _ => id,fun _ h => ?_,by simp⟩
    simpa using h (s.currentRun,s.size) (by simp)
  | cons r rs ih =>
    obtain ⟨s',h,h0,hc⟩ := addRun_cases hmx hs r
    obtain ⟨t,ht,hsb,hin,ho⟩ := ih h0
    refine ⟨t,by simp [h,ht],?_⟩
    rcases hc with ⟨hr,hrn,hd⟩ | ⟨hr,last,new,hrn,hd,-⟩
    · simp only [hrn,hd,total_append,total_cons,total_nil,append_assoc,cons_append,nil_append,
        add_zero] at hsb hin ho ⊢
      rw [← add_assoc]
      exact ⟨hsb,fun hp => hin (by omega),ho⟩
    · rw [hd] at hsb
      refine ⟨fun c hm => hsb (by simp [hm]),fun hp hle => ?_,fun hle => ?_⟩
      · have := hle _ (mem_append_left _ (hsb (mem_append_right _ mem_cons_self)))
        simp only [total_append,total_cons,total_nil] at this
        omega
      · rw [total_cons] at hle; omega

/-- Right only when nothing has to be split, or when one run is cut evenly: `current_length` is
never raised, and the last piece of a split run is given the length of the piece before it. -/
theorem dumpFullRun_splits_iff {blockRun : List Run} (hp : ∀ r ∈ blockRun, 0 < r.2) (size : Int) :
    ∃ calls, dumpFullRun maxSize blockRun size = some calls ∧
      (Splits maxSize blockRun calls ↔
        total blockRun ≤ maxSize ∨ ∃ r, blockRun = [r] ∧ maxSize ∣ r.2) := by
  obtain ⟨t,ht,-,-,ho⟩ := foldlM_addRun hmx (s := { size }) rfl blockRun
  refine ⟨t.dumped ++ [(t.currentRun,t.size)],by rw [dumpFullRun,ht]; rfl,?_,?_⟩
  · rintro ⟨hle,hb⟩
    cases blockRun with
    | nil => simp
    | cons r rs =>
      obtain ⟨s,h,h0,hc⟩ := addRun_cases hmx (s := { size }) rfl r
      obtain ⟨t',ht',hsb,hin,ho'⟩ := foldlM_addRun hmx h0 rs
      obtain rfl : t' = t := by simpa [h,ht'] using ht
      rcases hc with ⟨hr,hrn,hdm⟩ | ⟨hr,last,new,hrn,hdm,-⟩
      · left
        simpa [hrn] using hin (by simpa [hrn] using hp r mem_cons_self) hle
      · right
        have hf := hin (by simpa [hrn]) hle
        have hn : rs = [] := by
          cases rs with
          | nil => rfl
          | cons r' rs' =>
            have := hp r' (by simp)
            simp only [hrn,total_cons,total_nil] at hf
            omega
        subst hn
        obtain ⟨hd,hr'⟩ := ho' (by simp [hrn])
        refine ⟨r,rfl,dvd_of_flatMap_bytes _ (?_ : (r.1 :: new ++ [last]).flatMap _ = _)⟩
        simpa [hd,hr',hrn,hdm,full,flatMap_map] using hb
  · rintro (hle | ⟨r,rfl,hd⟩)
    · obtain ⟨h1,h2⟩ := ho (by simpa using hle)
      simp [Splits,h1,h2,hle]
    · obtain ⟨s,h,-,hc⟩ := addRun_cases hmx (s := { size }) rfl r
      obtain rfl : s = t := by simpa [h] using ht
      rcases hc with ⟨hr,hrn,hdm⟩ | ⟨hr,last,new,hrn,hdm,hb⟩
      · simp [Splits,hrn,hdm,hr]
      · rw [hdm,hrn]
        refine ⟨fun c hm => ?_,by simpa [full,flatMap_map] using hb hd⟩
        simp only [nil_append,cons_append,mem_cons,mem_append,mem_map,not_mem_nil,or_false] at hm
        rcases hm with rfl | ⟨o,-,rfl⟩ | rfl <;> simp [full]

end

theorem dumpFullRun_splits_iff_two : ∃ calls, dumpFullRun 4 [(7,2),(20,1)] 3 = some calls ∧
    (Splits 4 [(7,2),(20,1)] calls ↔
      total [(7,2),(20,1)] ≤ 4 ∨ ∃ r, [((7 : Int),2),(20,1)] = [r] ∧ 4 ∣ r.2) :=
  dumpFullRun_splits_iff (by decide) (by decide) 3

/-- A run that is one byte too long is passed on with `MAX_SIZE-1` bytes after its end. -/
theorem dumpFullRun_overruns :
    dumpFullRun 4 [(0,5)] 5 = some [([(0,4)],4),([(4,4)],1)] ∧
      ¬ Splits 4 [(0,5)] [([(0,4)],4),([(4,4)],1)] := by
  refine ⟨by decide,fun h => ?_⟩
  exact absurd h.2 (by decide)

end

open LittleEndian Text Breakpoints Transition MapValue Option

def zeroUrn : Bytes := chars ['a','f','f','4',':','/','/','z','e','r','o']

structure Block where
  imageBlock : Nat
  length : Nat
  fileOffset : Nat
  hashedUrn : Bytes

/-- A turn of the loop of `add_block_run`. -/
def addBlock (map : MapValue) (b : Block) : Option MapValue :=
  (map.addPoint (.ofNat b.imageBlock) (.ofNat b.fileOffset) b.hashedUrn).bind fun r =>
    if b.length < r.1.toNat then r.2.call ⟨.ofNat (b.imageBlock+b.length),0,zeroUrn⟩ else some r.2

structure BlockRun where
  hashedUrn : Bytes
  fileOffset : Nat
  blocks : List (Nat × Nat)

/-- The turns of a call, with `file_offset` as it is in each of them. -/
def turns (hashedUrn : Bytes) : Nat → List (Nat × Nat) → List Block
  | _, [] => []
  | fileOffset, (imageBlock,length) :: blocks =>
      ⟨imageBlock,length,fileOffset,hashedUrn⟩ :: turns hashedUrn (fileOffset+length) blocks

def BlockRun.turns (r : BlockRun) : List Block := HashImager.turns r.hashedUrn r.fileOffset r.blocks

/-- The map of `HashImager.__init__`, with the calls of `add_block_run` one after the other. -/
def image (size : Nat) (runs : List BlockRun) : Option MapValue :=
  (con.call ⟨0,0,zeroUrn⟩).bind fun map =>
    run addBlock {map with size := .ofNat size} (runs.flatMap BlockRun.turns)

def Block.Covers (b : Block) (r : Nat) : Prop := b.imageBlock ≤ r ∧ r < b.imageBlock+b.length

structure Fits (size : Nat) (blocks : List Block) : Prop where
  small : size < 2^62 ∧ ∀ b ∈ blocks, b.fileOffset < 2^62
  inside : ∀ b ∈ blocks, 0 < b.length ∧ b.imageBlock+b.length ≤ size
  streams : ∀ b ∈ blocks, RDFURN.set b.hashedUrn ≠ RDFURN.set zeroUrn
  disjoint : blocks.Pairwise fun b d => ∀ r, b.Covers r → ¬ d.Covers r

/-- The offsets of a block are those of its stream, and the others are zeros. -/
def Frame (size : Nat) (blocks : List Block) (map : MapValue) : Prop :=
  ∀ r < size, ∃ range, map.getRange (.ofNat r) = some (some range) ∧
    (∀ b ∈ blocks, b.Covers r → range.target = RDFURN.set b.hashedUrn ∧
      range.targetOffset.toNat = b.fileOffset+(r-b.imageBlock)) ∧
    ((∀ b ∈ blocks, ¬ b.Covers r) → range.target = RDFURN.set zeroUrn)

section

variable {map next : MapValue} {available : UInt64} {target : Bytes}

lemma toNat_ofNat {x : Nat} (h : x < 2^62) : (UInt64.ofNat x).toNat = x :=
  UInt64.toNat_ofNat_of_lt' (h.trans (by decide))

lemma signed_ofNat {x : Nat} (h : x < 2^62) : signed (.ofNat x) = x := by
  rw [signed_of_lt (by rw [toNat_ofNat h]; omega),toNat_ofNat h]

structure Put (map next : MapValue) (x : Nat) (v : Option RDFURN × UInt64) : Prop where
  holds : ∃ calls, next.Holds calls
  size : next.size = map.size
  other : ∀ q, q ≠ (x : Int) → next.lines q = map.lines q
  near : Near next.lines x v

variable {x y : Nat} (h : ∃ calls, map.Holds calls) (hx : x < 2^62)
  (hr : map.addPoint (.ofNat x) (.ofNat y) target = some (available,next))

include h hx hr in
lemma addPoint_put (hy : y < 2^62) :
    Put map next x (some (RDFURN.set target),.ofNat y-.ofNat x) := by
  obtain ⟨calls,h⟩ := h
  have hc : map.call ⟨.ofNat x,.ofNat y,target⟩ = some next := by rw [call,hr]; rfl
  obtain ⟨hnx,ho,hn⟩ := call_holds h
    ⟨(toNat_ofNat hx).trans_lt hx,(toNat_ofNat hy).trans_lt hy⟩ hc
  rw [signed_ofNat hx] at ho hn
  refine ⟨⟨_,hnx⟩,?_,ho,hn⟩
  obtain ⟨⟨i,mid⟩,ha,hr⟩ := bind_eq_some_iff.mp hr
  rw [← (addTarget_frame ha).2.2.2]
  obtain ⟨_,_,_,⟨_,rfl⟩ | ⟨_,_,rfl⟩⟩ := addNode_cases hr <;> rfl

include h hx hr in
/-- With a point at zero, `add_point` returns the distance to the next point or to the end. -/
lemma addPoint_available (hps : 0 < x) (ho : map.lines 0 ≠ none) (hsz : x < map.size.toNat) :
    ∃ e, x+available.toNat = e ∧ x < e ∧ (∀ q : Int, x < q → q < e → map.lines q = none) ∧
      (map.lines e ≠ none ∨ e = map.size.toNat) := by
  obtain ⟨calls,h⟩ := h
  obtain ⟨⟨i,mid⟩,hadd,hr⟩ := bind_eq_some_iff.mp hr
  have hpl := (addTarget_targeted (c := ⟨0,0,target⟩) h hadd).placed
  obtain ⟨existing,hg,rfl,_⟩ := addNode_cases hr
  have hxn := toNat_ofNat hx
  have hk := signed_ofNat hx
  have hne : UInt64.ofNat x ≠ 0x7fffffffffffffff := fun he => by
    rw [he] at hxn
    exact absurd hxn (by simp; omega)
  simp only [ne_eq,lines_eq_none,← (addTarget_frame hadd).2.2] at *
  obtain ⟨p,hp,hz⟩ : ∃ p ∈ mid.tree, signed p.imageOffset = 0 := by simpa using ho
  simp only [getRange,removePoint,hpl.period,signed_succ hne,hk] at hg
  have hpk : p.key < x := by rw [MapPoint.key]; omega
  have hsm := psearch_eq_none.not.mpr fun hal =>
    absurd (hal p (mem_erase.mpr ⟨hp,hpk.ne⟩)) hpk.le.not_gt
  obtain ⟨q,hq⟩ := ne_none_iff_exists'.mp hsm
  rw [if_neg (by simp [hne]),hq] at hg
  obtain ⟨t,_,rfl⟩ := map_eq_some_iff.mp hg
  have hem : ∀ e q : Int, x < q → q < e → (∀ a ∈ erase MapPoint.key x mid.tree,
      (x : Int)+1 ≤ a.key → e ≤ a.key) → ∀ p ∈ mid.tree, signed p.imageOffset ≠ q := by
    intro e q hq hqe hal p hp hpq
    have : p.key = q := hpq
    have := hal p (mem_erase.mpr ⟨hp,by omega⟩) (by omega)
    omega
  cases hn : nsearch MapPoint.key (erase MapPoint.key x mid.tree) (x+1) with
  | none =>
    refine ⟨mid.size.toNat,?_,hsz,fun q hq hqe => hem _ q hq hqe fun a ha _ => ?_,.inr rfl⟩
    · simp only [map_some,getD_some,map_none,getD_none]
      rw [UInt64.toNat_sub_of_le _ _ (by rw [UInt64.le_iff_toNat_le]; omega)]
      omega
    · have := nsearch_eq_none.mp hn a ha
      omega
  | some m =>
    obtain ⟨hm,hge,hmn⟩ := nsearch_eq_some (sorted_erase hpl.sorted _) hn
    have hmm := (mem_erase.mp hm).1
    have hmk : m.key = m.imageOffset.toNat := signed_of_lt (by have := hpl.small m hmm; omega)
    refine ⟨m.imageOffset.toNat,?_,by omega,fun q hq hqe => hem _ q hq hqe fun a ha hxa => ?_,
      .inl fun hal => hal m hmm hmk⟩
    · simp only [map_some,getD_some]
      rw [UInt64.toNat_sub_of_le _ _ (by rw [UInt64.le_iff_toNat_le]; omega)]
      omega
    · exact hmk ▸ hmn a ha hxa

variable {r : Nat} {v w : Option RDFURN × UInt64}

lemma Put.fill (h : Put map next x v) (hxr : x ≤ r)
    (hg : ∀ q : Int, x < q → q ≤ r → map.lines q = none) : Near next.lines r v :=
  (near_iff_of_gap (by omega) (fun q hq hqr => (h.other q (by omega)).trans (hg q hq hqr)) v).mpr h.near

lemma Put.keep (h : Put map next x v) (hp : 0 < x) (hor : map.lines 0 ≠ none)
    (hr : r < x ∨ ∃ q : Int, x < q ∧ q ≤ r ∧ map.lines q ≠ none) (hw : Near map.lines r w) :
    Near next.lines r w := by
  refine near_of_not_overtakes h.other (by grind) (fun ho => ?_) hw
  rcases ho with ⟨hxr,hg⟩ | ⟨_,hb⟩
  · grind
  · exact hor (hb 0 (by omega))

end

def Right (blocks : List Block) (r : Nat) (t : RDFURN) (d : UInt64) : Prop :=
  (∀ b ∈ blocks, b.Covers r → t = RDFURN.set b.hashedUrn ∧ d = .ofNat b.fileOffset-.ofNat b.imageBlock) ∧
    ((∀ b ∈ blocks, ¬ b.Covers r) → t = RDFURN.set zeroUrn)

structure Laid (size : Nat) (done : List Block) (map : MapValue) : Prop where
  holds : ∃ calls, map.Holds calls
  sized : map.size.toNat = size
  origin : map.lines 0 ≠ none
  keys : ∀ q, map.lines q ≠ none → q = 0 ∨ ∃ b ∈ done, q = b.imageBlock ∨ q = b.imageBlock+b.length
  right : ∀ r < size, ∃ t d, Near map.lines r (some t,d) ∧ Right done r t d

section

variable {size : Nat} {done blocks : List Block} {map next : MapValue} {b : Block}

lemma laid_addBlock (h : Laid size done map) (hf : Fits size (done ++ b :: blocks))
    (hps : 0 < b.imageBlock) (hn : addBlock map b = some next) : Laid size (done ++ [b]) next := by
  obtain ⟨hln,hin⟩ := hf.inside b (by simp)
  have hsm := hf.small.1
  have hsz := h.sized
  have hdj : ∀ d ∈ done, ∀ r, d.Covers r → ¬ b.Covers r := fun d hd =>
    (pairwise_append.mp hf.disjoint).2.2 d hd b mem_cons_self
  obtain ⟨⟨available,mid⟩,hm,hn⟩ := bind_eq_some_iff.mp hn
  have hp := addPoint_put h.holds (by omega) hm (hf.small.2 b (by simp))
  obtain ⟨e,rfl,hxe,hg,hen⟩ := addPoint_available h.holds (by omega) hm hps h.origin (by omega)
  have hor : mid.lines 0 ≠ none := hp.other 0 (by omega) ▸ h.origin
  -- a point inside the block would begin or end another one
  have hle : b.length ≤ available.toNat := by
    by_contra hlt
    obtain hne | he := hen
    · obtain hz | ⟨d,hd,hqd⟩ := h.keys _ hne
      · omega
      · have hdl := (hf.inside d (by simp [hd])).1
        have hst := hdj d hd (max d.imageBlock b.imageBlock)
        grind [Block.Covers]
    · omega
  have hl : b.length = available.toNat ∧ next = mid ∨ b.length < available.toNat ∧
      Put mid next (b.imageBlock+b.length) (some (RDFURN.set zeroUrn),0-.ofNat (b.imageBlock+b.length)) := by
    split at hn
    · next hlt =>
      obtain ⟨r,hr,rfl⟩ := map_eq_some_iff.mp hn
      exact .inr ⟨hlt,addPoint_put (y := 0) hp.holds (by omega) hr (by omega)⟩
    · exact .inl ⟨by grind,(some.inj hn).symm⟩
  have hnr : ∀ {r w}, r < b.imageBlock+b.length ∨ b.imageBlock+available.toNat ≤ r ∧ r < size →
      Near mid.lines r w → Near next.lines r w := by
    intro r w hr hw
    rcases hl with ⟨_,rfl⟩ | ⟨hlt,hp'⟩
    · exact hw
    · refine hp'.keep (by omega) hor (hr.imp_right fun hr => ⟨_,?_,Int.ofNat_le.mpr hr.1,?_⟩) hw
      · omega
      · rw [hp.other _ (by omega)]
        exact hen.resolve_right (by omega)
  obtain ⟨hh,hsa,ho⟩ : (∃ calls, next.Holds calls) ∧ next.size = map.size ∧
      ∀ q : Int, q ≠ b.imageBlock → q ≠ b.imageBlock+b.length → next.lines q = map.lines q := by
    rcases hl with ⟨_,rfl⟩ | ⟨_,hp'⟩
    · exact ⟨hp.holds,hp.size,fun q hq _ => hp.other q hq⟩
    · exact ⟨hp'.holds,hp'.size.trans hp.size,fun q hq hqe =>
        (hp'.other q (by simpa using hqe)).trans (hp.other q hq)⟩
  refine ⟨hh,hsa ▸ hsz,ho 0 (by omega) (by omega) ▸ h.origin,fun q hq => ?_,fun r hr => ?_⟩
  · by_cases hx : q = b.imageBlock ∨ q = b.imageBlock+b.length
    · exact .inr ⟨b,by simp,hx⟩
    · push Not at hx
      exact (h.keys q (ho q hx.1 hx.2 ▸ hq)).imp_right fun ⟨d,hd,hqd⟩ => ⟨d,by simp [hd],hqd⟩
  obtain ⟨t,y,hv,hdn,hze⟩ := h.right r hr
  simp only [Right,forall_mem_append,forall_mem_singleton]
  by_cases hc : b.Covers r
  · have hfl := hp.fill hc.1 fun q hq hqr => hg q hq (by have := hc.2; omega)
    exact ⟨_,_,hnr (.inl hc.2) hfl,⟨fun d hd hdr => absurd hc (hdj d hd r hdr),
      fun _ => ⟨rfl,rfl⟩⟩,fun hnt => absurd hc hnt.2⟩
  by_cases hin : b.imageBlock+b.length ≤ r ∧ r < b.imageBlock+available.toNat
  · -- no other point is between the block and `r`, which has been in zeros
    obtain ⟨_,rfl⟩ | ⟨_,hp'⟩ := hl
    · omega
    obtain ⟨u,_,hu,_,hzr⟩ := h.right b.imageBlock (by omega)
    have htu := near_unique ((near_iff_of_gap (by omega) (fun q hq hqr => hg q hq (by omega)) _).mp hv) hu
    refine ⟨_,_,hp'.fill hin.1 fun q hq hqr => ?_,⟨fun d hd hdr => ?_,fun hb => absurd hb hc⟩,fun _ => rfl⟩
    · exact (hp.other q (by omega)).trans (hg q (by omega) (by omega))
    · have hur := hzr fun d hd hdx => hdj d hd _ hdx ⟨le_rfl,by omega⟩
      refine absurd ?_ (hf.streams d (by simp [hd]))
      rw [← hur,← (hdn d hd hdr).1,some.inj (Prod.mk.inj htu).1]
  · have hou : r < b.imageBlock ∨ b.imageBlock+available.toNat ≤ r := by grind [Block.Covers]
    refine ⟨t,y,hnr (by omega) (hp.keep hps h.origin (hou.imp_right fun hr => ?_) hv),
      ⟨hdn,fun hb => absurd hb hc⟩,fun hnt => hze hnt.1⟩
    exact ⟨_,Int.ofNat_lt.mpr hxe,Int.ofNat_le.mpr hr,hen.resolve_right (by omega)⟩

lemma con_laid (h : size < 2^62) (hm : con.call ⟨0,0,zeroUrn⟩ = some map) :
    Laid size [] {map with size := .ofNat size} := by
  obtain ⟨r,hr,rfl⟩ := map_eq_some_iff.mp hm
  have hp := addPoint_put (x := 0) (y := 0) ⟨[],con_holds⟩ (by omega) hr (by omega)
  have ho : ∀ q, q ≠ 0 → r.2.lines q = none := hp.other
  obtain ⟨calls,⟨p,i,j,k⟩,hsm,hb,⟨names,⟨t,f,c⟩,hn⟩,hsb⟩ := hp.holds
  refine ⟨⟨calls,⟨p,i,j,k⟩,hsm,hb,⟨names,⟨t,f,c⟩,hn⟩,hsb⟩,toNat_ofNat h,fun hno => ?_,
    fun q hq => .inl (by_contra fun hne => hq (ho q hne)),
    fun q _ => ⟨_,_,hp.fill (by omega) fun _ _ _ => rfl,by simp,fun _ => rfl⟩⟩
  have ha : ∀ q, r.2.lines q = none := fun q => by
    by_cases hq : q = 0
    · exact hq ▸ hno
    · exact ho q hq
  rcases hp.near with ⟨q,_,hq,_⟩ | ⟨_,q,_,hq,_⟩ <;> simp [ha] at hq

lemma laid_run (h : Laid size done map) (hf : Fits size (done ++ blocks))
    (hp : ∀ b ∈ blocks, 0 < b.imageBlock) (hrn : run addBlock map blocks = some next) :
    Laid size (done ++ blocks) next := by
  induction blocks generalizing done map with
  | nil => exact some.inj hrn ▸ by simpa using h
  | cons b blocks ih =>
    obtain ⟨mid,hm,hrn⟩ := run_cons hrn
    have hl := laid_addBlock h hf (hp b (by simp)) hm
    rw [append_cons] at hf ⊢
    exact ih hl hf (fun d hd => hp d (by simp [hd])) hrn

lemma laid_frame (h : Laid size done map) (hf : Fits size done) : Frame size done map := by
  intro r hr
  have hsm := hf.small
  obtain ⟨calls,hh⟩ := h.holds
  obtain ⟨t,d,hv,hrt,hz⟩ := h.right r hr
  have hrn := toNat_ofNat (x := r) (by omega)
  obtain ⟨range,hg,rfl,ho⟩ := (getRange_iff_near hh.placed (r := .ofNat r) (by omega) t
    (d+.ofNat r)).mpr (by rwa [signed_ofNat (by omega),UInt64.add_sub_cancel])
  refine ⟨range,hg,fun b hb hbr => ?_,hz⟩
  obtain ⟨ht,rfl⟩ := hrt b hb hbr
  have hin := hf.inside b hb
  have hxn := toNat_ofNat (x := b.imageBlock) (by omega)
  have hof := hsm.2 b hb
  have hyn := toNat_ofNat hof
  obtain ⟨hge,_⟩ := hbr
  refine ⟨ht,?_⟩
  rw [ho,UInt64.toNat_add,UInt64.toNat_sub]
  omega

end

/-- Where no block begins at zero, the blocks are in place and zeros are everywhere else. -/
theorem image_frame {size : Nat} {runs : List BlockRun} {map : MapValue}
    (hf : Fits size (runs.flatMap BlockRun.turns))
    (hp : ∀ b ∈ runs.flatMap BlockRun.turns, 0 < b.imageBlock) (h : image size runs = some map) :
    Frame size (runs.flatMap BlockRun.turns) map := by
  obtain ⟨start,hst,hrn⟩ := bind_eq_some_iff.mp h
  exact laid_frame (laid_run (con_laid hf.small.1 hst) hf hp hrn) hf

def oneBlock (imageBlock : Nat) : BlockRun := ⟨chars ['a'],0,[(imageBlock,1)]⟩

lemma oneBlock_fits {x size : Nat} (h : x < size) (hsz : size < 2^62) :
    Fits size ([oneBlock x].flatMap BlockRun.turns) := by
  have hu : RDFURN.set (chars ['a']) ≠ RDFURN.set zeroUrn := fun he =>
    absurd (congrArg RDFURN.value he) (by decide +kernel)
  exact ⟨⟨hsz,by simp [BlockRun.turns,turns,oneBlock]⟩,by simpa [BlockRun.turns,turns,oneBlock] using Nat.succ_le_of_lt h,
    by simpa [BlockRun.turns,turns,oneBlock] using hu,pairwise_singleton _ _⟩

/-- Two runs, the second one with two blocks around the first. -/
def threeBlocks : List BlockRun := [⟨chars ['a'],7,[(3,2)]⟩,⟨chars ['b'],0,[(6,1),(1,2)]⟩]

theorem image_frame_three : ∃ map, image 9 threeBlocks = some map ∧
    Frame 9 (threeBlocks.flatMap BlockRun.turns) map := by
  obtain ⟨map,hm⟩ := isSome_iff_exists.mp (show (image 9 threeBlocks).isSome by decide +kernel)
  have hu : ∀ b ∈ threeBlocks.flatMap BlockRun.turns, (RDFURN.set b.hashedUrn).value ≠
      (RDFURN.set zeroUrn).value := by decide +kernel
  have hd : (threeBlocks.flatMap BlockRun.turns).Pairwise fun b d =>
      b.imageBlock+b.length ≤ d.imageBlock ∨ d.imageBlock+d.length ≤ b.imageBlock := by decide
  refine ⟨map,hm,image_frame ⟨by decide,by decide,
    fun b hb he => hu b hb (congrArg RDFURN.value he),hd.imp fun h r hb hd => ?_⟩ (by decide) hm⟩
  obtain ⟨hb,hb'⟩ := hb
  obtain ⟨hd,hd'⟩ := hd
  omega

/-- A first block at zero takes the whole image. -/
theorem zeros_lost : ∃ map, image 2 [oneBlock 0] = some map ∧
    Fits 2 ([oneBlock 0].flatMap BlockRun.turns) ∧
    ¬ Frame 2 ([oneBlock 0].flatMap BlockRun.turns) map := by
  have hg : ((image 2 [oneBlock 0]).map fun map => (map.getRange 1).map fun range =>
      range.map fun range => range.target.value) =
        some (some (some (RDFURN.set (chars ['a'])).value)) := by decide +kernel
  obtain ⟨map,hm,hra⟩ := map_eq_some_iff.mp hg
  refine ⟨map,hm,oneBlock_fits (by decide) (by decide),fun h => ?_⟩
  obtain ⟨range,hr,_,hz⟩ := h 1 (by decide)
  have hr : map.getRange 1 = some (some range) := hr
  rw [hr,map_some,map_some,hz (by simp [BlockRun.turns,turns,oneBlock,Block.Covers])] at hra
  exact absurd hra (by decide +kernel)

end Aff4.Python.HashImager
