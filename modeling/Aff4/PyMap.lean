import Aff4.Lib.Bisect
import Aff4.Lib.Breakpoints
import Aff4.Memory
import Aff4.PyImageRead

/-! The map stream of aff4.py: a sorted list of image offsets with a target and an offset into it
for each. `Map.write` appends to a backing stream and maps the range. An exception has no result. -/

namespace Aff4.Python

open LittleEndian Bisect Option Int

abbrev Urn := Bytes

def fqn : Bytes := chars ['u','r','n',':','a','f','f','4',':']

def nullUrn : Urn := fqn ++ chars ['n','u','l','l']

def atUrn : Urn := chars ['@']

/-- `oracle.open(urn, 'r')`: what `seek(offset)` and `read(length)` give on the stream. -/
def Oracle : Type := Urn → Option (Int → Int → Option Bytes)

/-- What the resolver says of a map. A number that it does not have is 0. -/
structure MapAttributes where
  target : Option Urn
  blocksize : Nat
  size : Nat
  imagePeriod : Nat
  targetPeriod : Nat
  targetSize : Nat

structure Map where
  imageOffsets : List Int
  targetOffsets : Int → Option Int
  targetUrns : Int → Option Urn
  imagePeriod : Int
  targetPeriod : Int
  readptr : Int
  size : Int

def orElse (a b : Int) : Int := if a = 0 then b else a

def divmod (a b : Int) : Option (Int × Int) :=
  if b = 0 then none else some (a.fdiv b,a.fmod b)

/-- `l[i]`, which counts from the end for a negative `i`. -/
def item {α : Type} (l : List α) (i : Int) : Option α :=
  if 0 ≤ i then l[i.toNat]?
  else if 0 ≤ l.length + i then l[(l.length + i).toNat]?
  else none

namespace Map

def init (attributes : MapAttributes) : Map :=
  let blocksize := orElse attributes.blocksize 1
  let maxSize := max (orElse attributes.size 1) attributes.targetSize
  { imageOffsets := [0]
    targetOffsets := Function.update (fun _ => none) 0 (some 0)
    targetUrns := Function.update (fun _ => none) 0 (some atUrn)
    imagePeriod := orElse (blocksize*attributes.imagePeriod) maxSize
    targetPeriod := orElse (blocksize*attributes.targetPeriod) maxSize
    readptr := 0
    size := attributes.size }

def seek (self : Map) (offset whence : Int) : Map :=
  {self with readptr := seekTo self.readptr self.size offset whence}

def add (self : Map) (imageOffset targetOffset : Int) (targetUrn : Urn) : Map × Nat :=
  ({ self with
      imageOffsets := insort self.imageOffsets imageOffset
      targetOffsets := Function.update self.targetOffsets imageOffset (some targetOffset)
      targetUrns := Function.update self.targetUrns imageOffset (some targetUrn) },
    bisectLeft self.imageOffsets imageOffset)

def writeFrom (self : Map) (targetUrn : Urn) (targetOffset targetLength : Int) : Map :=
  let next := (self.add self.readptr targetOffset targetUrn).1
  let readptr := self.readptr + targetLength
  {next with readptr := readptr, size := max self.size readptr}

/-- `del self.target_offsets[x]` and `del self.target_urns[x]`. -/
def delPoint (self : Map) (x : Int) : Option Map :=
  if self.targetOffsets x = none ∨ self.targetUrns x = none then none
  else some { self with
    targetOffsets := Function.update self.targetOffsets x none
    targetUrns := Function.update self.targetUrns x none }

/-- The end of `Map.write`: the points between two positions are deleted. -/
def deletePoints (self : Map) (left right : Nat) : Option Map :=
  if left ≠ right then
    Transition.run delPoint
      {self with imageOffsets := self.imageOffsets.take left ++ self.imageOffsets.drop right}
      ((self.imageOffsets.take right).drop left)
  else some self

/-- The data goes to the end of the backing stream, whose new content is returned too. -/
def write (self : Map) (attributes : MapAttributes) (backing data : Bytes) :
    Option (Map × Bytes) := do
  let target ← attributes.target
  let (first,l) := self.add self.readptr backing.length target
  let left := l + 1
  let readptr := self.readptr + data.length
  let (last,right) := {first with readptr := readptr}.add readptr 0 nullUrn
  let next ← last.deletePoints left right
  some ({next with size := max next.size readptr},backing ++ data)

/-- The part of `partial_read` that looks for the point of an offset within the period. -/
def lookup (self : Map) (imagePeriodOffset : Int) : Option (Urn × Int) := do
  let l : Int := bisectRight self.imageOffsets imagePeriodOffset - 1
  let imageOffsetAtPoint ← item self.imageOffsets l
  let targetOffsetAtPoint ← self.targetOffsets imageOffsetAtPoint
  let urn ← self.targetUrns imageOffsetAtPoint
  some (urn,targetOffsetAtPoint + imagePeriodOffset - imageOffsetAtPoint)

/-- The target and the offset there that `partial_read` finds for an offset of the map. -/
def resolve (self : Map) (x : Int) : Option (Urn × Int) := do
  let (periodNumber,imagePeriodOffset) ← divmod x self.imagePeriod
  let (urn,targetOffset) ← self.lookup imagePeriodOffset
  some (urn,targetOffset + periodNumber*self.targetPeriod)

/-- How much `partial_read` may read at once: up to the next point, or to the end of the
period. -/
def availableToRead (self : Map) (length : Int) : Option Int := do
  let (_,imagePeriodOffset) ← divmod self.readptr self.imagePeriod
  let l : Int := bisectRight self.imageOffsets imagePeriodOffset - 1
  if l < self.imageOffsets.length - 1 then
    (item self.imageOffsets (l+1)).map fun next => next - imagePeriodOffset
  else some (min length (self.imagePeriod - imagePeriodOffset))

def partialRead (self : Map) (oracle : Oracle) (length : Int) : Option (Bytes × Map) := do
  let (urn,targetOffset) ← self.resolve self.readptr
  let available ← self.availableToRead length
  let target ← oracle urn
  let data ← target targetOffset (min available length)
  some (data,{self with readptr := self.readptr + data.length})

def readLoop (oracle : Oracle) (length : Int) : Nat → Map → Bytes → Option (Bytes × Map)
  | 0, _, _ => none
  | fuel+1, self, result =>
      if result.length < length then
        (self.partialRead oracle (length - result.length)).bind fun r =>
          if r.1 = [] then some (result,r.2) else readLoop oracle length fuel r.2 (result ++ r.1)
      else some (result,self)

def read (self : Map) (oracle : Oracle) (length : Int) : Option (Bytes × Map) :=
  let length := min length (self.size - self.readptr)
  readLoop oracle length (length.toNat + 1) self []

/-! ### The points -/

/-- The target of a point, with the offset there that offset 0 of the map would have. -/
def line (self : Map) (q : Int) : Option (Urn × Int) := do
  let urn ← self.targetUrns q
  let targetOffset ← self.targetOffsets q
  some (urn,targetOffset - q)

def points (self : Map) (q : Int) : Option (Option (Urn × Int)) :=
  if q ∈ self.imageOffsets then some (self.line q) else none

/-- What every map keeps: the list is sorted and has a point at 0, each point has both a target
and an offset or neither, and the periods are usable. -/
structure Listed (map : Map) : Prop where
  sorted : map.imageOffsets.Pairwise (· ≤ ·)
  zero : 0 ∈ map.imageOffsets
  keys : ∀ q, map.targetOffsets q = none ↔ map.targetUrns q = none
  imagePeriod : 0 < map.imagePeriod
  targetPeriod : 0 < map.targetPeriod

variable {b x offset : Int}

lemma orElse_pos {a : Int} (ha : 0 ≤ a) (hb : 0 < b) : 0 < orElse a b := by
  unfold orElse
  split <;> omega

lemma init_listed (attributes : MapAttributes) : (init attributes).Listed := by
  have hm : 0 < max (orElse attributes.size 1) attributes.targetSize :=
    lt_max_of_lt_left (orElse_pos (natCast_nonneg _) (by decide))
  have hb := orElse_pos (natCast_nonneg attributes.blocksize) zero_lt_one
  refine ⟨by simp [init],by simp [init],fun q => ?_,orElse_pos ?_ hm,orElse_pos ?_ hm⟩
  · by_cases hq : q = 0 <;> simp [init,Function.update,hq]
  · exact mul_nonneg hb.le (natCast_nonneg _)
  · exact mul_nonneg hb.le (natCast_nonneg _)

variable {s : Map}

lemma points_ne_none {q : Int} : s.points q ≠ none ↔ q ∈ s.imageOffsets := by simp [points]

lemma seek_listed (h : s.Listed) (offset whence : Int) : (s.seek offset whence).Listed :=
  ⟨h.sorted,h.zero,h.keys,h.imagePeriod,h.targetPeriod⟩

lemma item_bisectRight (hs : s.imageOffsets.Pairwise (· ≤ ·))
    (hx : ∃ q ∈ s.imageOffsets, q ≤ x) :
    ∃ g, item s.imageOffsets (bisectRight s.imageOffsets x-1) = some g ∧
      g ∈ s.imageOffsets ∧ g ≤ x ∧ ∀ q ∈ s.imageOffsets, q ≤ x → q ≤ g := by
  obtain ⟨g,hp,hg,hm⟩ := get_bisectRight hs hx
  refine ⟨g,?_,hm⟩
  rw [item,if_pos (by omega),show ((bisectRight s.imageOffsets x : Int)-1).toNat =
    bisectRight s.imageOffsets x-1 by omega,hg]

lemma divmod_of_pos (hb : 0 < b) (a : Int) : divmod a b = some (a/b,a%b) := by
  rw [divmod,if_neg hb.ne',fdiv_eq_ediv_of_nonneg a hb.le,fmod_eq_emod_of_nonneg a hb.le]

lemma divmod_eq (h : s.Listed) (x : Int) :
    divmod x s.imagePeriod = some (x/s.imagePeriod,x%s.imagePeriod) :=
  divmod_of_pos h.imagePeriod x

lemma lookup_rules (hs : s.imageOffsets.Pairwise (· ≤ ·))
    (ho : ∃ q ∈ s.imageOffsets, q ≤ offset) : ∃ v, Breakpoints.Rules s.points offset v ∧
      s.lookup offset = v.map fun r => (r.1,r.2+offset) := by
  obtain ⟨g,hi,hg,hle,hm⟩ := item_bisectRight hs ho
  refine ⟨s.line g,⟨g,hle,by simp [points,hg],fun q hq hne => ?_⟩,?_⟩
  · exact hm q (points_ne_none.mp hne) hq
  · simp only [lookup,hi,line,bind_eq_bind,bind_some]
    cases s.targetUrns g with
    | none => cases s.targetOffsets g <;> rfl
    | some urn =>
      cases s.targetOffsets g with
      | none => rfl
      | some targetOffset =>
        simp only [bind_some,map_some,some.injEq,Prod.mk.injEq,true_and]
        omega

lemma lookup_eq (h : s.Listed) (ho : 0 ≤ offset) : ∃ v,
    Breakpoints.Rules s.points offset v ∧ s.lookup offset = v.map fun r => (r.1,r.2+offset) :=
  lookup_rules h.sorted ⟨0,h.zero,ho⟩

lemma resolve_of_pos (h : 0 < s.imagePeriod) (x : Int) : s.resolve x =
    (s.lookup (x%s.imagePeriod)).map fun r =>
      (r.1,r.2+x/s.imagePeriod*s.targetPeriod) := by
  rw [resolve,divmod_of_pos h,bind_eq_bind,bind_some,map_eq_bind]
  rfl

lemma resolve_eq (h : s.Listed) (x : Int) : s.resolve x = (s.lookup (x%s.imagePeriod)).map fun r =>
      (r.1,r.2+x/s.imagePeriod*s.targetPeriod) :=
  resolve_of_pos h.imagePeriod x

lemma availableToRead_pos (h : s.Listed) {length : Int} (hl : 0 < length) :
    ∃ available, s.availableToRead length = some available ∧ 0 < available := by
  have hlt := emod_lt_of_pos s.readptr h.imagePeriod
  simp only [availableToRead,divmod_eq h,bind_eq_bind,bind_some]
  split
  · next hn =>
    have hin : bisectRight s.imageOffsets (s.readptr%s.imagePeriod) <
        s.imageOffsets.length := by omega
    have hi : item s.imageOffsets
        ((bisectRight s.imageOffsets (s.readptr%s.imagePeriod) : Int)-1+1) =
        some s.imageOffsets[bisectRight s.imageOffsets (s.readptr%s.imagePeriod)] := by
      rw [item,if_pos (by omega),sub_add_cancel,toNat_natCast,List.getElem?_eq_getElem hin]
    rw [hi]
    refine ⟨_,rfl,sub_pos.mpr ?_⟩
    exact lt_of_get_bisectRight h.sorted (List.getElem?_eq_getElem hin)
  · exact ⟨_,rfl,by omega⟩

/-- The data that `partial_read` gives for one byte at an offset. -/
def fetch (self : Map) (oracle : Oracle) (x : Int) : Option Bytes :=
  ((self.seek x 0).partialRead oracle 1).map Prod.fst

lemma fetch_eq (h : s.Listed) (oracle : Oracle) (x : Int) :
    s.fetch oracle x = (s.resolve x).bind fun r =>
      (oracle r.1).bind fun target => target r.2 1 := by
  obtain ⟨available,ha,hp⟩ := availableToRead_pos (seek_listed h x 0) zero_lt_one
  have hm : min available 1 = 1 := by omega
  have hr : (s.seek x 0).resolve (s.seek x 0).readptr = s.resolve x := rfl
  rw [fetch,partialRead,hr]
  cases s.resolve x with
  | none => rfl
  | some r =>
    simp only [bind_eq_bind,bind_some,ha,hm]
    cases oracle r.1 with
    | none => rfl
    | some target =>
      simp only [bind_some]
      cases target r.2 1 <;> rfl

lemma read_one (oracle : Oracle) (hx : x < s.size) :
    ((s.seek x 0).read oracle 1).map Prod.fst = s.fetch oracle x := by
  have hl : min 1 ((s.seek x 0).size-(s.seek x 0).readptr) = 1 := by
    simp only [seek,seekTo,if_pos]
    omega
  rw [read,hl,fetch]
  simp only [readLoop,Int.toNat_one,List.length_nil,Int.natCast_zero,Int.zero_lt_one,if_true,
    Int.sub_zero,List.nil_append]
  cases (s.seek x 0).partialRead oracle 1 with
  | none => rfl
  | some r =>
    simp only [bind_some,map_some]
    by_cases hr : r.1 = []
    · simp [hr]
    · have : 0 < r.1.length := List.length_pos_iff.mpr hr
      rw [if_neg hr,if_neg (by omega)]
      rfl

end Map

end Aff4.Python
