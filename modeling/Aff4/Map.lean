import Mathlib.Data.UInt
import Aff4.Cache
import Aff4.Urn
import Aff4.Lib.Breakpoints

/-! The points of a map, map.c: `add_point` keeps them in a treap, with the targets in a table of
their own, and `get_range` finds the target of an offset. The treap is the list of its nodes. -/

namespace Aff4

open LittleEndian Breakpoints List Option Multimap

/-- `map_point_node_t`. The offsets are `long long`, here as their bits. -/
structure MapPoint where
  imageOffset : UInt64
  targetOffset : UInt64
  targetIdx : UInt32
  deriving DecidableEq, Repr

/-- `map_point_cmp` compares signed numbers. -/
def signed (offset : UInt64) : Int := offset.toInt64.toInt

def MapPoint.key (p : MapPoint) : Int := signed p.imageOffset

/-- What `get_range` returns and the three results it stores through pointers. -/
structure MapRange where
  target : RDFURN
  targetOffset : UInt64
  availableToRead : UInt64
  targetIdx : UInt32

/-- `number_of_urns` is the length of `targets`. -/
structure MapValue where
  size : UInt64
  numberOfPoints : Int
  targets : List RDFURN
  cache : Cache Nat
  tree : List MapPoint
  imagePeriod : UInt64
  targetPeriod : UInt64

namespace MapValue

def con : MapValue := ⟨0,0,[],.con 100 0,[],-1,-1⟩

/-- `get_range`: no result for a division by zero, for `readptr + 1` out of the range of `long long`
or for an index outside `targets`; an empty map gives NULL. -/
def getRange (self : MapValue) (readptr : UInt64) : Option (Option MapRange) :=
  if self.imagePeriod = 0 ∨ readptr = 0x7fffffffffffffff then none
  else
    let periodNumber := readptr / self.imagePeriod
    let imagePeriodOffset := readptr % self.imagePeriod
    let nnode := nsearch MapPoint.key self.tree (signed (readptr + 1))
    match psearch MapPoint.key self.tree (signed readptr) with
    | some pnode =>
        let nextOffset := (nnode.map MapPoint.imageOffset).getD self.size
        self.targets[pnode.targetIdx.toNat]?.map fun target =>
          some ⟨target,
            pnode.targetOffset + imagePeriodOffset - pnode.imageOffset +
              periodNumber * self.targetPeriod,
            nextOffset - readptr,pnode.targetIdx⟩
    | none =>
        match nnode with
        | some nnode =>
            self.targets[nnode.targetIdx.toNat]?.map fun target =>
              some ⟨target,
                nnode.targetOffset - (nnode.imageOffset - imagePeriodOffset) +
                  periodNumber * self.targetPeriod,
                nnode.imageOffset - readptr,nnode.targetIdx⟩
        | none => some none

/-- The part of `add_point` that finds the target in the table or adds it. -/
def addTarget (self : MapValue) (target : Bytes) : Option (Nat × MapValue) :=
  let name := zstring (cstring target)
  (self.cache.borrow name).bind fun
    | some targetIndex => some (targetIndex,self)
    | none =>
        (RDFURN.setBuffered target).bind fun targetUrn =>
          -- the reallocated table is used without a test
          if tallocNamedConst (pointerSize * (self.targets.length + 1)) then
            (self.cache.put name self.targets.length).map fun r =>
              (self.targets.length,{self with targets := self.targets ++ [targetUrn], cache := r.2})
          else none

def removePoint (self : MapValue) (imageOffset : UInt64) : MapValue :=
  {self with tree := erase MapPoint.key (signed imageOffset) self.tree}

/-- `tree_insert`, and the counter, which is an `int`. -/
def insertPoint (self : MapValue) (node : MapPoint) : Option MapValue :=
  if self.numberOfPoints + 1 < 2^31 then
    some {self with
      tree := place MapPoint.key node self.tree
      numberOfPoints := self.numberOfPoints + 1}
  else none

def redundant (existing : Option MapRange) (targetIndex : Nat) (targetOffset : UInt64) : Bool :=
  match existing with
  | some range => range.targetIdx.toNat == targetIndex && range.targetOffset == targetOffset
  | none => false

/-- The part of `add_point` that follows the search for the target. -/
def addNode (self : MapValue) (imageOffset targetOffset : UInt64) (targetIndex : Nat) :
    Option (UInt64 × MapValue) :=
  let self := self.removePoint imageOffset
  (self.getRange imageOffset).bind fun existing =>
    let availableToRead := (existing.map MapRange.availableToRead).getD 0
    if redundant existing targetIndex targetOffset then some (availableToRead,self)
    else
      (self.insertPoint ⟨imageOffset,targetOffset,UInt32.ofNat targetIndex⟩).map fun self =>
        (availableToRead,self)

def addPoint (self : MapValue) (imageOffset targetOffset : UInt64) (target : Bytes) :
    Option (UInt64 × MapValue) :=
  (self.addTarget target).bind fun r => r.2.addNode imageOffset targetOffset r.1

end MapValue

structure MapCall where
  imageOffset : UInt64
  targetOffset : UInt64
  target : Bytes

namespace MapCall

def Small (c : MapCall) : Prop := c.imageOffset.toNat < 2^62 ∧ c.targetOffset.toNat < 2^62

/-- The call is the last one made for its image offset, and that is the greatest one that is
not above `r`. -/
structure Governs (c : MapCall) (calls : List MapCall) (r : UInt64) : Prop where
  below : c.imageOffset ≤ r
  greatest : ∀ d ∈ calls, d.imageOffset ≤ r → d.imageOffset ≤ c.imageOffset
  latest : calls.reverse.find? (fun d => d.imageOffset = c.imageOffset) = some c

end MapCall

namespace MapValue

def call (self : MapValue) (c : MapCall) : Option MapValue :=
  (self.addPoint c.imageOffset c.targetOffset c.target).map Prod.snd

/-- `get_range` gives at every offset what the governing call has said. -/
def Follows (calls : List MapCall) (self : MapValue) : Prop :=
  ∀ (r : UInt64) (c : MapCall), r.toNat < 2^62 → c.Governs calls r →
    ∃ range, self.getRange r = some (some range) ∧ range.target = RDFURN.set c.target ∧
      range.targetOffset.toNat = c.targetOffset.toNat + r.toNat - c.imageOffset.toNat

def Resolves (self : MapValue) (c : MapCall) : Prop :=
  ∃ range, self.getRange c.imageOffset = some (some range) ∧
    range.target = RDFURN.set c.target ∧ range.targetOffset = c.targetOffset

/-- There is no point of the treap at `d`, and with one at `x` it would be the point from which
`get_range` finds the target of `d`. -/
def Overtakes (self : MapValue) (x d : UInt64) : Prop :=
  (x < d ∧ ∀ p ∈ self.tree, x < p.imageOffset → d < p.imageOffset) ∨
    (d < x ∧ ∀ p ∈ self.tree, x ≤ p.imageOffset)

/-- `add_point` finds that it need not insert the point. -/
def Redundant (self : MapValue) (c : MapCall) : Prop :=
  ∃ targetIndex next existing, self.addTarget c.target = some (targetIndex,next) ∧
    (next.removePoint c.imageOffset).getRange c.imageOffset = some existing ∧
    redundant existing targetIndex c.targetOffset = true

/-- There is room for what the call adds: the parts of a new target in the parser's buffer,
the target in the table, and the point in the counter. -/
structure Admits (map : MapValue) (calls : List MapCall) (c : MapCall) : Prop where
  buffered : (RDFURN.set c.target).parser.Buffered
  table : (∃ d ∈ calls, cstring d.target = cstring c.target) ∨ map.targets.length + 1 < 2^25
  counter : map.Redundant c ∨ map.numberOfPoints + 1 < 2^31

structure Placed (map : MapValue) : Prop where
  period : map.imagePeriod = -1
  sorted : Sorted MapPoint.key map.tree
  small : ∀ p ∈ map.tree, p.imageOffset.toNat < 2^62
  indexed : ∀ p ∈ map.tree, p.targetIdx.toNat < map.targets.length

structure Tabled (names : List Bytes) (map : MapValue) : Prop where
  targets : map.targets = names.map RDFURN.set
  few : names.length < 2^25
  cached : ∃ m : Multimap Bytes Nat, map.cache.Refines 100 0 m ∧
    (∀ i ∈ m.items, i.key.length < maxTallocSize) ∧
    ∀ (s : Bytes) (i : Nat), (m.oldest (zstring s)).map Item.value = some i ↔ names[i]? = some s

lemma con_placed : con.Placed := ⟨rfl,.nil,by simp [con],by simp [con]⟩

lemma con_tabled : con.Tabled [] :=
  ⟨rfl,by simp,.empty,Cache.con_refines 100 0,by simp [empty],by simp [oldest,empty]⟩

end MapValue

lemma signed_eq (x : UInt64) :
    signed x = if x.toNat < 2^63 then (x.toNat : Int) else x.toNat-2^64 := by
  show x.toBitVec.toInt = _
  rw [BitVec.toInt_eq_toNat_cond]
  simp only [UInt64.toNat_toBitVec]
  split <;> split <;> omega

variable {x y : UInt64}

lemma signed_of_lt (h : x.toNat < 2^63) : signed x = x.toNat := by
  rw [signed_eq,if_pos h]

lemma signed_succ (h : x ≠ 0x7fffffffffffffff) : signed (x+1) = signed x+1 := by
  have hne : x.toNat ≠ 0x7fffffffffffffff := fun he => h (UInt64.toNat.inj he)
  have hlt := x.toNat_lt
  rw [signed_eq,signed_eq,UInt64.toNat_add,UInt64.toNat_one]
  split <;> split <;> omega

lemma signed_lt_iff (hx : x.toNat < 2^62) (hy : y.toNat < 2^62) :
    signed x < signed y ↔ x < y := by
  rw [signed_of_lt (by omega),signed_of_lt (by omega),UInt64.lt_iff_toNat_lt]
  omega

lemma signed_le_iff (hx : x.toNat < 2^62) (hy : y.toNat < 2^62) :
    signed x ≤ signed y ↔ x ≤ y := by
  rw [signed_of_lt (by omega),signed_of_lt (by omega),UInt64.le_iff_toNat_le]
  omega

lemma signed_inj : signed x = signed y ↔ x = y := by
  refine ⟨fun h => ?_,fun h => h ▸ rfl⟩
  exact UInt64.toBitVec_inj.mp (BitVec.toInt_inj.mp h)

lemma div_period {r : UInt64} (h : r.toNat < 2^62) : r/(-1 : UInt64) = 0 := by
  have hp : (-1 : UInt64).toNat = 2^64-1 := by decide
  apply UInt64.toNat.inj
  rw [UInt64.toNat_div,hp]
  exact Nat.div_eq_of_lt (by omega)

lemma mod_period {r : UInt64} (h : r.toNat < 2^62) : r%(-1 : UInt64) = r := by
  have hp : (-1 : UInt64).toNat = 2^64-1 := by decide
  apply UInt64.toNat.inj
  rw [UInt64.toNat_mod,hp]
  exact Nat.mod_eq_of_lt (by omega)

namespace MapValue

variable {s : MapValue}

lemma getRange_nearest (h : s.Placed) {r : UInt64} (hr : r ≠ 0x7fffffffffffffff) :
    (s.tree = [] ∧ s.getRange r = some none) ∨
      ∃ p ∈ s.tree, ∃ range, s.getRange r = some (some range) ∧
        s.targets[p.targetIdx.toNat]? = some range.target ∧
        range.targetOffset = p.targetOffset-p.imageOffset + (r%(-1)+r/(-1)*s.targetPeriod) ∧
        range.targetIdx = p.targetIdx ∧ ∀ {V : Type} (value : MapPoint → V),
          Near (points MapPoint.key value s.tree) (signed r) (value p) := by
  have hg : ¬ ((-1 : UInt64) = 0 ∨ r = 0x7fffffffffffffff) := by
    rintro (h | h)
    · exact absurd h (by decide)
    · exact hr h
  have hf : ∀ p ∈ s.tree, ∃ target, s.targets[p.targetIdx.toNat]? = some target :=
    fun p hp => ⟨_,getElem?_eq_getElem (h.indexed p hp)⟩
  simp only [getRange,h.period,hg,if_false]
  cases hp : psearch MapPoint.key s.tree (signed r) with
  | some p =>
    have hm := (psearch_eq_some h.sorted hp).1
    obtain ⟨target,ht⟩ := hf p hm
    simp only [ht,map_some]
    refine .inr ⟨p,hm,_,rfl,ht,?_,rfl,fun _ => ?_⟩
    · grind
    · exact .inl (rules_of_psearch h.sorted hp)
  | none =>
    cases hn : nsearch MapPoint.key s.tree (signed (r+1)) with
    | some n =>
      have hm := (nsearch_eq_some h.sorted hn).1
      obtain ⟨target,ht⟩ := hf n hm
      simp only [ht,map_some]
      refine .inr ⟨n,hm,_,rfl,ht,?_,rfl,fun _ => ?_⟩
      · grind
      · exact near_of_nsearch h.sorted (fun a _ => by rw [signed_succ hr,Int.add_one_le_iff]) hp hn
    | none =>
      refine .inl ⟨eq_nil_iff_forall_not_mem.mpr fun a ha => ?_,rfl⟩
      have hl := psearch_eq_none.mp hp a ha
      have hh := nsearch_eq_none.mp hn a ha
      rw [signed_succ hr] at hh
      omega

lemma getRange_spec (h : s.Placed) {r : UInt64} (hr : r.toNat < 2^62) :
    (s.tree = [] ∧ s.getRange r = some none) ∨
      ∃ p ∈ s.tree, ∃ range, s.getRange r = some (some range) ∧
        s.targets[p.targetIdx.toNat]? = some range.target ∧
        range.targetOffset = p.targetOffset-p.imageOffset+r ∧ range.targetIdx = p.targetIdx ∧
        ∀ {V : Type} (value : MapPoint → V),
          Near (points MapPoint.key value s.tree) (signed r) (value p) := by
  have hne : r ≠ 0x7fffffffffffffff := by
    rintro rfl
    exact absurd hr (by decide)
  simpa [div_period hr,mod_period hr] using getRange_nearest h hne

lemma set_cstring (target : Bytes) : RDFURN.set (cstring target) = RDFURN.set target := by
  simp [RDFURN.set,cstring_eq_self (cstring_ne_zero target)]

lemma table_room (n : Nat) : tallocNamedConst (pointerSize*(n+1)) = decide (n+1 < 2^25) := by
  simp only [tallocNamedConst,pointerSize,maxTallocSize]
  exact decide_eq_decide.mpr (by omega)

variable {names : List Bytes} {u : MapValue}

lemma Tabled.borrow (h : u.Tabled names) (s : Bytes) :
    ∃ found, u.cache.borrow (zstring s) = some found ∧
      ∀ i, found = some i ↔ names[i]? = some s := by
  obtain ⟨m,hr,hs,hn⟩ := h.cached
  have hc : ¬ Cache.Uncopied (zstring s)
      (Cache.bucket 100 m.items (cacheHash 100 (zstring s))) := by
    rintro ⟨hl,i,hi,hln⟩
    have := hs i (List.mem_of_mem_filter hi)
    omega
  refine ⟨(m.oldest (zstring s)).map Item.value,?_,hn s⟩
  simp only [Cache.borrow,Cache.find_refines hr hc,Option.map_some,Option.map_map]
  rfl

lemma Tabled.add (h : u.Tabled names) {s : Bytes} (hnw : s ∉ names)
    (hrm : names.length+1 < 2^25) (hs : s.length+1 < maxTallocSize) :
    ∃ cache, (u.cache.put (zstring s) names.length).map Prod.snd = some cache ∧
      Tabled (names ++ [s]) {u with targets := u.targets ++ [RDFURN.set s], cache := cache} := by
  obtain ⟨m,hr,hk,hn⟩ := h.cached
  obtain ⟨cache,hp,hrf⟩ := Cache.put_refines hr (by decide) (zstring s) names.length
  rw [put_unbounded] at hrf
  refine ⟨cache,by rw [hp]; rfl,by simp [h.targets],by simpa using hrm,_,hrf,?_,?_⟩
  · intro i hi
    rcases mem_append.mp hi with hi | hi
    · exact hk i hi
    · rw [mem_singleton.mp hi]
      simpa using hs
  · intro t i
    by_cases ht : s = t
    · subst ht
      have hno : m.oldest (zstring s) = none := by
        cases ho : m.oldest (zstring s) with
        | none => rfl
        | some item =>
          have := (hn s item.value).mp (by rw [ho]; rfl)
          exact absurd (mem_of_getElem? this) hnw
      rw [oldest_add_self hno]
      simp only [map_some,some.injEq,getElem?_append,getElem?_singleton]
      split
      · constructor
        · omega
        · intro hi
          exact absurd (mem_of_getElem? hi) hnw
      · split <;> simp <;> omega
    · rw [oldest_add_of_ne _ (by simpa [zstring] using ht),hn]
      simp only [getElem?_append,getElem?_singleton]
      split
      · rfl
      · rename_i hge
        rw [getElem?_eq_none (Nat.not_lt.mp hge)]
        split <;> simp [ht]

lemma addTarget_spec (h : u.Tabled names) (target : Bytes) :
    ((∃ r, u.addTarget target = some r) ↔ cstring target ∈ names ∨
      (RDFURN.set target).parser.Buffered ∧ names.length+1 < 2^25) ∧
    ∀ i next, u.addTarget target = some (i,next) →
      ∃ more, next.Tabled (names ++ more) ∧ (names ++ more)[i]? = some (cstring target) ∧
        (∀ s ∈ more, s = cstring target) ∧ next.tree = u.tree ∧
        next.numberOfPoints = u.numberOfPoints ∧ next.imagePeriod = u.imagePeriod := by
  obtain ⟨found,hf,hid⟩ := h.borrow (cstring target)
  simp only [addTarget,hf,bind_some]
  cases found with
  | some i =>
    have hi := (hid i).mp rfl
    refine ⟨iff_of_true ⟨_,rfl⟩ (.inl (mem_of_getElem? hi)),fun j next hj => ?_⟩
    obtain ⟨rfl,rfl⟩ := hj
    exact ⟨[],by simpa using h,by simpa using hi,by simp,rfl,rfl,rfl⟩
  | none =>
    have hn : cstring target ∉ names := by
      intro hm
      obtain ⟨i,hi⟩ := mem_iff_getElem?.mp hm
      simpa using (hid i).mpr hi
    have hl : u.targets.length = names.length := by simp [h.targets]
    simp only [RDFURN.setBuffered,hl,table_room,hn,false_or]
    by_cases hb : (RDFURN.set target).parser.Buffered
    · by_cases hrm : names.length+1 < 2^25
      · have hs := URLParse.Buffered.length_lt hb
        have hsz : (cstring target).length+1 < maxTallocSize := by
          simp only [buffSize,maxTallocSize] at hs ⊢
          omega
        obtain ⟨cache,hp,ht⟩ := h.add hn hrm hsz
        obtain ⟨r,hr,rfl⟩ := map_eq_some_iff.mp hp
        simp only [hb,hrm,decide_true,if_true,bind_some,hr,map_some]
        refine ⟨iff_of_true ⟨_,rfl⟩ ⟨trivial,trivial⟩,fun i next hi => ?_⟩
        obtain ⟨rfl,rfl⟩ := hi
        refine ⟨[cstring target],?_,by simp,by simp,rfl,rfl,rfl⟩
        simpa only [set_cstring] using ht
      · simp only [hb,hrm,decide_false,if_true,bind_some]
        simp
    · simp [hb]

end MapValue

/-- The target of a point, and how far its offsets are ahead of those of the image. -/
def MapPoint.line (targets : List RDFURN) (p : MapPoint) : Option RDFURN × UInt64 :=
  (targets[p.targetIdx.toNat]?,p.targetOffset - p.imageOffset)

def MapCall.line (c : MapCall) : Option RDFURN × UInt64 :=
  (some (RDFURN.set c.target),c.targetOffset - c.imageOffset)

def MapCall.added (calls : List MapCall) (k : Int) : Option (Option RDFURN × UInt64) :=
  (calls.reverse.find? fun c => signed c.imageOffset = k).map MapCall.line

namespace MapValue

def lines (self : MapValue) : Int → Option (Option RDFURN × UInt64) :=
  points MapPoint.key (MapPoint.line self.targets) self.tree

section

variable {u : MapValue}

lemma Placed.removePoint (h : u.Placed) (x : UInt64) : (u.removePoint x).Placed where
  period := h.period
  sorted := sorted_erase h.sorted _
  small p hp := h.small p (mem_erase.mp hp).1
  indexed p hp := h.indexed p (mem_erase.mp hp).1

lemma lines_removePoint (x : UInt64) {q : Int} (hq : q ≠ signed x) :
    (u.removePoint x).lines q = u.lines q :=
  points_erase_of_ne hq

lemma Placed.place (h : u.Placed) {node : MapPoint} (hx : node.imageOffset.toNat < 2^62)
    (hi : node.targetIdx.toNat < u.targets.length) (n : Int) :
    Placed {u with tree := place MapPoint.key node u.tree, numberOfPoints := n} where
  period := h.period
  sorted := sorted_place h.sorted node
  small p hp := by
    rcases mem_place.mp hp with rfl | ⟨hp,_⟩
    · exact hx
    · exact h.small p hp
  indexed p hp := by
    rcases mem_place.mp hp with rfl | ⟨hp,_⟩
    · exact hi
    · exact h.indexed p hp

variable {x y : UInt64} {i : Nat}

lemma near_of_redundant (h : u.Placed) (hx : x.toNat < 2^62)
    {existing : Option MapRange} (hg : u.getRange x = some existing)
    (hrd : redundant existing i y = true) : Near u.lines (signed x) (u.targets[i]?,y-x) := by
  rcases getRange_spec h hx with ⟨_,hn⟩ | ⟨p,_,range,hr,ht,ho,hi,hnr⟩
  · rw [hg,some.injEq] at hn
    simp [redundant,hn] at hrd
  · rw [hg,some.injEq] at hr
    simp only [redundant,hr,Bool.and_eq_true,beq_iff_eq,hi,ho] at hrd
    have hl : p.line u.targets = (u.targets[i]?,y-x) := by
      rw [MapPoint.line,hrd.1,← hrd.2]
      congr 1
      grind
    exact hl ▸ hnr (MapPoint.line u.targets)

lemma addNode_cases {available : UInt64} {next : MapValue}
    (h : u.addNode x y i = some (available,next)) :
    ∃ existing, (u.removePoint x).getRange x = some existing ∧
      available = (existing.map MapRange.availableToRead).getD 0 ∧
      (redundant existing i y = true ∧ next = u.removePoint x ∨
        redundant existing i y = false ∧ u.numberOfPoints+1 < 2^31 ∧ next = {u with
          tree := place MapPoint.key ⟨x,y,UInt32.ofNat i⟩ u.tree
          numberOfPoints := u.numberOfPoints+1}) := by
  obtain ⟨existing,hg,h⟩ := bind_eq_some_iff.mp h
  refine ⟨existing,hg,?_⟩
  split at h
  · next hrd =>
    obtain ⟨rfl,rfl⟩ := h
    exact ⟨rfl,.inl ⟨hrd,rfl⟩⟩
  · next hrd =>
    obtain ⟨after,ha,h⟩ := map_eq_some_iff.mp h
    obtain ⟨rfl,rfl⟩ := h
    rw [insertPoint] at ha
    split at ha
    · next hr =>
      cases ha
      refine ⟨rfl,.inr ⟨by simpa using hrd,hr,?_⟩⟩
      have hp : place MapPoint.key ⟨x,y,UInt32.ofNat i⟩ _ = place _ _ u.tree := place_erase _
      exact congrArg (fun tree => {u with
        tree := tree, numberOfPoints := u.numberOfPoints+1}) hp
    · cases ha

lemma addNode_spec (h : u.Placed) (y : UInt64) (hx : x.toNat < 2^62)
    (hi : i < u.targets.length) (hf : u.targets.length < 2^25) :
    ((∃ r, u.addNode x y i = some r) ↔ (∃ existing, (u.removePoint x).getRange x = some existing ∧
        redundant existing i y = true) ∨ u.numberOfPoints+1 < 2^31) ∧
    ∀ available next, u.addNode x y i = some (available,next) →
      next.Placed ∧ next.targets = u.targets ∧ next.cache = u.cache ∧
        (∀ q, q ≠ signed x → next.lines q = u.lines q) ∧
        Near next.lines (signed x) (u.targets[i]?,y-x) := by
  have hr := h.removePoint x
  obtain ⟨existing,hg⟩ : ∃ existing, (u.removePoint x).getRange x = some existing := by
    rcases getRange_spec hr hx with ⟨_,hno⟩ | ⟨_,_,range,hra,_⟩
    · exact ⟨_,hno⟩
    · exact ⟨_,hra⟩
  simp only [addNode,hg,bind_some,some.injEq,exists_eq_left']
  cases hrd : redundant existing i y with
  | true =>
    refine ⟨iff_of_true ⟨_,rfl⟩ (.inl rfl),fun available next hn => ?_⟩
    obtain ⟨_,rfl⟩ := hn
    exact ⟨hr,rfl,rfl,fun q hq => lines_removePoint x hq,near_of_redundant hr hx hg hrd⟩
  | false =>
    have hc : (u.removePoint x).numberOfPoints = u.numberOfPoints := rfl
    simp only [Bool.false_eq_true,if_false,insertPoint,hc,false_or]
    by_cases hrm : u.numberOfPoints+1 < 2^31
    · simp only [hrm,if_true,map_some]
      refine ⟨iff_of_true ⟨_,rfl⟩ trivial,fun available next hn => ?_⟩
      obtain ⟨_,rfl⟩ := hn
      have hid : (UInt32.ofNat i).toNat = i := UInt32.toNat_ofNat_of_lt' (by
        simp only [UInt32.size]
        omega)
      have hin : (UInt32.ofNat i).toNat < (u.removePoint x).targets.length := hid.symm ▸ hi
      refine ⟨hr.place hx hin _,rfl,rfl,fun q hq => ?_,?_⟩
      · exact (points_place_of_ne hr.sorted _ hq).trans (lines_removePoint x hq)
      · refine near_self ((points_place_self hr.sorted _).trans ?_)
        rw [MapPoint.line,hid]
        rfl
    · simp only [hrm,if_false]
      simp

end

structure Holds (calls : List MapCall) (map : MapValue) : Prop where
  placed : map.Placed
  small : ∀ c ∈ calls, c.Small
  buffered : ∀ c ∈ calls, (RDFURN.set c.target).parser.Buffered
  tabled : ∃ names, map.Tabled names ∧ ∀ s, s ∈ names ↔ ∃ c ∈ calls, cstring c.target = s
  subset : ∀ q, map.lines q ≠ none → MapCall.added calls q ≠ none

lemma con_holds : Holds [] con :=
  ⟨con_placed,by simp,by simp,⟨[],con_tabled,by simp⟩,by simp [lines,points,con]⟩

lemma added_snoc (calls : List MapCall) (c : MapCall) (k : Int) : MapCall.added (calls ++ [c]) k =
      if signed c.imageOffset = k then some c.line else MapCall.added calls k := by
  by_cases h : signed c.imageOffset = k <;> simp [MapCall.added,h]

lemma added_ne_none {calls : List MapCall} {k : Int} :
    MapCall.added calls k ≠ none ↔ ∃ c ∈ calls, signed c.imageOffset = k := by simp [MapCall.added]

section

variable {calls : List MapCall} {u : MapValue} {c : MapCall}

variable {next : MapValue}

lemma lines_addTarget {names more : List Bytes} (h : u.Placed)
    (hs : u.Tabled names) (hn : next.Tabled (names ++ more))
    (ht : next.tree = u.tree) : next.lines = u.lines := by
  funext q
  simp only [lines,points,ht]
  cases hp : u.tree.find? fun a => a.key = q with
  | none => rfl
  | some p =>
    have hp := h.indexed p (mem_of_find?_eq_some hp)
    rw [hs.targets,length_map] at hp
    simp only [map_some,MapPoint.line,hs.targets,hn.targets,map_append]
    rw [getElem?_append_left (by simpa using hp)]

variable (h : u.Holds calls)

include h in
lemma addTarget_returns_iff :
    (∃ r, u.addTarget c.target = some r) ↔ (RDFURN.set c.target).parser.Buffered ∧
      ((∃ d ∈ calls, cstring d.target = cstring c.target) ∨ u.targets.length+1 < 2^25) := by
  obtain ⟨names,ht,hn⟩ := h.tabled
  have hkn : (∃ d ∈ calls, cstring d.target = cstring c.target) →
      (RDFURN.set c.target).parser.Buffered := by
    rintro ⟨d,hd,he⟩
    rw [← set_cstring,← he,set_cstring]
    exact h.buffered d hd
  rw [(addTarget_spec ht c.target).1,hn,ht.targets,length_map]
  constructor
  · rintro (hk | ⟨hb,hr⟩)
    · exact ⟨hkn hk,.inl hk⟩
    · exact ⟨hb,.inr hr⟩
  · rintro ⟨hb,hk | hr⟩
    · exact .inl hk
    · exact .inr ⟨hb,hr⟩

structure Targeted (calls : List MapCall) (map : MapValue) (c : MapCall) (i : Nat)
    (mid : MapValue) : Prop where
  placed : mid.Placed
  lines : mid.lines = map.lines
  index : mid.targets[i]? = some (RDFURN.set c.target)
  counter : mid.numberOfPoints = map.numberOfPoints
  tabled : ∃ names, mid.Tabled names ∧ ∀ s, s ∈ names ↔ ∃ d ∈ calls ++ [c], cstring d.target = s

variable {mid : MapValue}

variable {i : Nat}

include h in
lemma addTarget_targeted (ha : u.addTarget c.target = some (i,mid)) :
    Targeted calls u c i mid := by
  obtain ⟨names,ht,hn⟩ := h.tabled
  obtain ⟨more,hmd,hi,hm,htr,hc,hpr⟩ := (addTarget_spec ht c.target).2 i mid ha
  have hl := lines_addTarget h.placed ht hmd htr
  refine ⟨⟨hpr.trans h.placed.period,htr ▸ h.placed.sorted,htr ▸ h.placed.small,?_⟩,
    hl,?_,hc,names ++ more,hmd,fun s => ?_⟩
  · intro p hp
    have := h.placed.indexed p (htr ▸ hp)
    rw [ht.targets,length_map] at this
    rw [hmd.targets,length_map,length_append]
    omega
  · rw [hmd.targets,getElem?_map,hi,map_some,set_cstring]
  · rw [mem_append,hn]
    constructor
    · rintro (⟨d,hd,rfl⟩ | hs)
      · exact ⟨d,by simp [hd],rfl⟩
      · exact ⟨c,by simp,(hm s hs).symm⟩
    · rintro ⟨d,hd,rfl⟩
      rcases mem_append.mp hd with hd | hd
      · exact .inl ⟨d,hd,rfl⟩
      · rw [mem_singleton.mp hd,← hn,← mem_append]
        exact mem_of_getElem? hi

lemma Targeted.addNode (h : Targeted calls u c i mid) (hc : c.Small) :
    ((∃ r, mid.addNode c.imageOffset c.targetOffset i = some r) ↔
      (∃ existing, (mid.removePoint c.imageOffset).getRange c.imageOffset = some existing ∧
        redundant existing i c.targetOffset = true) ∨ u.numberOfPoints+1 < 2^31) ∧
    ∀ available next, mid.addNode c.imageOffset c.targetOffset i = some (available,next) →
      next.Placed ∧ next.targets = mid.targets ∧ next.cache = mid.cache ∧
        (∀ q, q ≠ signed c.imageOffset → next.lines q = u.lines q) ∧
        Near next.lines (signed c.imageOffset) c.line := by
  obtain ⟨names,hm,_⟩ := h.tabled
  have hs := addNode_spec h.placed c.targetOffset hc.1 (List.getElem?_eq_some_iff.mp h.index).1
    (by simpa [hm.targets] using hm.few)
  rwa [h.counter,h.lines,h.index] at hs

lemma call_eq (ha : u.addTarget c.target = some (i,mid)) :
    u.call c = (mid.addNode c.imageOffset c.targetOffset i).map Prod.snd := by
  simp [call,addPoint,ha]

include h in
lemma call_returns_iff (hc : c.Small) : (∃ next, u.call c = some next) ↔ u.Admits calls c := by
  cases hadd : u.addTarget c.target with
  | none =>
    refine iff_of_false (by simp [call,addPoint,hadd]) fun ha => ?_
    obtain ⟨r,hr⟩ := (addTarget_returns_iff h).mpr ⟨ha.buffered,ha.table⟩
    simp [hadd] at hr
  | some r =>
    obtain ⟨i,mid⟩ := r
    obtain ⟨hb,ht⟩ := (addTarget_returns_iff h).mp ⟨_,hadd⟩
    have hn := ((addTarget_targeted h hadd).addNode hc).1
    simp only [call_eq hadd,map_eq_some_iff]
    constructor
    · rintro ⟨_,r,hr,_⟩
      refine ⟨hb,ht,?_⟩
      rcases hn.mp ⟨r,hr⟩ with ⟨existing,hg,hrd⟩ | hrm
      · exact .inl ⟨i,mid,existing,hadd,hg,hrd⟩
      · exact .inr hrm
    · intro ha
      obtain ⟨r,hr⟩ : ∃ r, mid.addNode c.imageOffset c.targetOffset i = some r := by
        refine hn.mpr ?_
        rcases ha.counter with ⟨j,mid',existing,hadd',hg,hrd⟩ | hrm
        · rw [hadd,some.injEq,Prod.mk.injEq] at hadd'
          obtain ⟨rfl,rfl⟩ := hadd'
          exact .inl ⟨existing,hg,hrd⟩
        · exact .inr hrm
      exact ⟨_,r,hr,rfl⟩

include h in
lemma call_holds (hc : c.Small) (hn : u.call c = some next) : next.Holds (calls ++ [c]) ∧
      (∀ q, q ≠ signed c.imageOffset → next.lines q = u.lines q) ∧
      Near next.lines (signed c.imageOffset) c.line := by
  have ha := (call_returns_iff h hc).mp ⟨next,hn⟩
  obtain ⟨⟨i,mid⟩,hadd⟩ := (addTarget_returns_iff h).mpr ⟨ha.buffered,ha.table⟩
  rw [call_eq hadd] at hn
  obtain ⟨r,hr,rfl⟩ := map_eq_some_iff.mp hn
  have ht := addTarget_targeted h hadd
  obtain ⟨hp,htr,hcc,ho,hnr⟩ := (ht.addNode hc).2 r.1 r.2 hr
  obtain ⟨names,hm,hnm⟩ := ht.tabled
  have htb : r.2.Tabled names := ⟨htr ▸ hm.targets,hm.few,hcc ▸ hm.cached⟩
  refine ⟨⟨hp,?_,?_,⟨names,htb,hnm⟩,fun q hq => ?_⟩,ho,hnr⟩
  · simpa [or_imp,forall_and] using ⟨h.small,hc⟩
  · simpa [or_imp,forall_and] using ⟨h.buffered,ha.buffered⟩
  · rw [added_snoc]
    split
    · simp
    · rename_i hne
      exact h.subset q (ho q (Ne.symm hne) ▸ hq)

lemma lines_eq_none {q : Int} : u.lines q = none ↔ ∀ p ∈ u.tree, signed p.imageOffset ≠ q :=
  points_eq_none

variable {r : UInt64}

lemma getRange_iff_near (h : u.Placed) (hr : r.toNat < 2^62) (target : RDFURN)
    (y : UInt64) : (∃ range, u.getRange r = some (some range) ∧ range.target = target ∧
      range.targetOffset = y) ↔ Near u.lines (signed r) (some target,y-r) := by
  rcases getRange_spec h hr with ⟨he,hno⟩ | ⟨p,_,range,hra,ht,ho,_,hn⟩
  · refine iff_of_false (by simp [hno]) ?_
    rintro (⟨q,_,hq,_⟩ | ⟨_,q,_,hq,_⟩) <;> simp [lines,points,he] at hq
  · have hl : p.line u.targets = (some range.target,range.targetOffset-r) := by
      rw [MapPoint.line,ht,ho]
      congr 1
      grind
    have hn : Near u.lines (signed r) (some range.target,range.targetOffset-r) :=
      hl ▸ hn (MapPoint.line u.targets)
    constructor
    · rintro ⟨range',hra',rfl,rfl⟩
      rw [hra,some.injEq,some.injEq] at hra'
      exact hra' ▸ hn
    · intro hy
      have heq := near_unique hn hy
      simp only [Prod.mk.injEq,some.injEq,sub_left_inj] at heq
      exact ⟨range,hra,heq⟩

lemma resolves_iff_near (h : u.Placed) (hc : c.Small) :
    u.Resolves c ↔ Near u.lines (signed c.imageOffset) c.line :=
  getRange_iff_near h hc.1 _ _

lemma overtakes_iff (h : u.Placed) {x d : UInt64} (hx : x.toNat < 2^62) (hd : d.toNat < 2^62) :
    u.Overtakes x d ↔ Breakpoints.Overtakes u.lines (signed x) (signed d) := by
  have hup : (∀ p ∈ u.tree, x < p.imageOffset → d < p.imageOffset) ↔
      ∀ q, signed x < q → q ≤ signed d → u.lines q = none := by
    constructor
    · intro hp q hxq hqd
      refine lines_eq_none.mpr fun p hm he => ?_
      subst he
      have hs := h.small p hm
      have := hp p hm ((signed_lt_iff hx hs).mp hxq)
      exact absurd hqd (not_le.mpr ((signed_lt_iff hd hs).mpr this))
    · intro hq p hm hxp
      have hs := h.small p hm
      by_contra hle
      have hn := hq (signed p.imageOffset) ((signed_lt_iff hx hs).mpr hxp)
        ((signed_le_iff hs hd).mpr (UInt64.not_lt.mp hle))
      exact lines_eq_none.mp hn p hm rfl
  have hdw : (∀ p ∈ u.tree, x ≤ p.imageOffset) ↔
      ∀ q, q < signed x → u.lines q = none := by
    constructor
    · intro hp q hqx
      refine lines_eq_none.mpr fun p hm he => ?_
      subst he
      have hle := (signed_le_iff hx (h.small p hm)).mpr (hp p hm)
      exact absurd hqx (not_lt.mpr hle)
    · intro hq p hm
      by_contra hle
      have hn := hq (signed p.imageOffset)
        ((signed_lt_iff (h.small p hm) hx).mpr (UInt64.not_le.mp hle))
      exact lines_eq_none.mp hn p hm rfl
  rw [Overtakes,Breakpoints.Overtakes,hup,hdw,signed_lt_iff hx hd,signed_lt_iff hd hx]

lemma added_of_governs (hg : c.Governs calls r) :
    MapCall.added calls (signed c.imageOffset) = some c.line := by
  have hl := hg.latest
  simp only [MapCall.added,signed_inj]
  rw [hl]
  rfl

lemma rules_of_governs (hs : ∀ c ∈ calls, c.Small) (hr : r.toNat < 2^62)
    (hg : c.Governs calls r) : Rules (MapCall.added calls) (signed r) c.line := by
  have hc : c ∈ calls := by simpa using mem_of_find?_eq_some hg.latest
  refine ⟨signed c.imageOffset,(signed_le_iff (hs c hc).1 hr).mpr hg.below,
    added_of_governs hg,fun q hq hne => ?_⟩
  obtain ⟨d,hd,rfl⟩ := added_ne_none.mp hne
  have hle := hg.greatest d hd ((signed_le_iff (hs d hd).1 hr).mp hq)
  exact (signed_le_iff (hs d hd).1 (hs c hc).1).mpr hle

lemma governs_of_added {k : Int} {v : Option RDFURN × UInt64}
    (hv : MapCall.added calls k = some v) :
    ∃ c ∈ calls, signed c.imageOffset = k ∧ c.line = v ∧ c.Governs calls c.imageOffset := by
  obtain ⟨c,hc,rfl⟩ := map_eq_some_iff.mp hv
  have hk : signed c.imageOffset = k := by simpa using find?_some hc
  subst hk
  refine ⟨c,by simpa using mem_of_find?_eq_some hc,rfl,rfl,UInt64.le_refl _,fun d _ hd => hd,?_⟩
  simpa only [signed_inj] using hc

lemma toNat_along (hr : r.toNat < 2^62) (hc : c.Small) (hle : c.imageOffset ≤ r)
    (y : UInt64) : y.toNat = c.targetOffset.toNat+r.toNat-c.imageOffset.toNat ↔
      y-r = c.targetOffset-c.imageOffset := by
  have hle := UInt64.le_iff_toNat_le.mp hle
  obtain ⟨hi,ht⟩ := hc
  have hs : (c.targetOffset+(r-c.imageOffset)).toNat =
      c.targetOffset.toNat+r.toNat-c.imageOffset.toNat := by
    rw [UInt64.toNat_add,UInt64.toNat_sub_of_le _ _ (UInt64.le_iff_toNat_le.mpr hle)]
    omega
  rw [← hs,UInt64.toNat_inj]
  grind

include h in
lemma follows_iff_thins : u.Follows calls ↔ Thins u.lines (MapCall.added calls) := by
  constructor
  · intro hf k v hv
    obtain ⟨c,hc,rfl,rfl,hg⟩ := governs_of_added hv
    have hs := h.small c hc
    obtain ⟨range,hra,htg,ho⟩ := hf c.imageOffset c hs.1 hg
    have ho := (toNat_along hs.1 hs hg.below _).mp ho
    refine (getRange_iff_near h.placed hs.1 _ _).mp ⟨range,hra,htg,?_⟩
    exact sub_left_inj.mp ho
  · intro ht r c hr hg
    have hc : c ∈ calls := by simpa using mem_of_find?_eq_some hg.latest
    have hn := (rules_near_iff_thins h.subset).mpr ht (signed r) c.line
      (rules_of_governs h.small hr hg)
    have hb : c.line = (some (RDFURN.set c.target),
        c.targetOffset-c.imageOffset+r-r) := by
      rw [MapCall.line]
      congr 1
      grind
    rw [hb] at hn
    obtain ⟨range,hra,htg,ho⟩ := (getRange_iff_near h.placed hr _ _).mpr hn
    refine ⟨range,hra,htg,(toNat_along hr (h.small c hc) hg.below _).mpr ?_⟩
    grind

include h in
/-- A call keeps what the earlier calls have said exactly when it says what `get_range` gives
already or overtakes none of them. -/
lemma thins_call_iff (hc : c.Small) (ht : Thins u.lines (MapCall.added calls))
    (hnx : u.call c = some next) : Thins next.lines (MapCall.added (calls ++ [c])) ↔
      u.Resolves c ∨ ∀ d ∈ calls, ¬ u.Overtakes c.imageOffset d.imageOffset := by
  obtain ⟨_,hoth,hn⟩ := call_holds h hc hnx
  rw [resolves_iff_near h.placed hc,
    thins_put_iff ht hoth hn (by rw [added_snoc,if_pos rfl])
      fun q hq => by rw [added_snoc,if_neg (Ne.symm hq)]]
  refine or_congr_right ⟨fun ha d hd ho => ?_,fun ha q hq ho => ?_⟩
  · refine ha (signed d.imageOffset) (added_ne_none.mpr ⟨d,hd,rfl⟩) ?_
    exact (overtakes_iff h.placed hc.1 (h.small d hd).1).mp ho
  · obtain ⟨d,hd,rfl⟩ := added_ne_none.mp hq
    exact ha d hd ((overtakes_iff h.placed hc.1 (h.small d hd).1).mpr ho)

open Transition in
/-- `get_range` follows the calls of `add_point` all along exactly when every call finds room
and either says what `get_range` gives already or overtakes no earlier one. -/
theorem getRange_follows_iff {calls : List MapCall} (hsm : ∀ c ∈ calls, c.Small) :
    (∀ front, front <+: calls → ∃ map, run call con front = some map ∧ map.Follows front) ↔
      ∀ front c, front ++ [c] <+: calls → ∀ map, run call con front = some map →
        map.Admits front c ∧
          (map.Resolves c ∨ ∀ d ∈ front, ¬ map.Overtakes c.imageOffset d.imageOffset) := by
  refine prefixes_iff (P := fun _ c => c.Small) con_holds ?_
    (fun es e t u he hi hu => (call_holds hi he hu).1) ?_
    fun front c hfr => hsm c (hfr.subset (by simp))
  · intro r c hr hg
    simpa using hg.latest
  · intro front c map hc hi hg
    have ht := (follows_iff_thins hi).mp hg
    have hs : ∀ next, map.call c = some next → (next.Follows (front ++ [c]) ↔
        map.Resolves c ∨ ∀ d ∈ front, ¬ map.Overtakes c.imageOffset d.imageOffset) :=
      fun next hn => (follows_iff_thins (call_holds hi hc hn).1).trans
        (thins_call_iff hi hc ht hn)
    rw [← call_returns_iff hi hc]
    constructor
    · rintro ⟨next,hn,hf⟩
      exact ⟨⟨next,hn⟩,(hs next hn).mp hf⟩
    · rintro ⟨⟨next,hn⟩,hk⟩
      exact ⟨next,hn,(hs next hn).mpr hk⟩

end

open Transition in
theorem getRange_follows_two_calls :
    ∃ map, run call con [⟨10,7,chars ['a']⟩,⟨20,0,chars ['b']⟩] = some map ∧
      map.Follows [⟨10,7,chars ['a']⟩,⟨20,0,chars ['b']⟩] := by
  refine (getRange_follows_iff (by simp [MapCall.Small])).mpr ?_ _ prefix_rfl
  intro front c hf map hm
  rcases front with _ | ⟨d,_ | ⟨e,front⟩⟩
  · obtain rfl : c = ⟨10,7,chars ['a']⟩ := by simpa using hf
    obtain rfl : con = map := by simpa [run] using hm
    exact ⟨⟨by decide,.inr (by decide),.inr (by decide)⟩,.inr (by simp)⟩
  · obtain ⟨rfl,rfl⟩ : d = ⟨10,7,chars ['a']⟩ ∧ c = ⟨20,0,chars ['b']⟩ := by simpa using hf
    have hv : (run call con [⟨10,7,chars ['a']⟩]).map (fun map =>
        (map.targets.length,map.numberOfPoints,map.tree.map MapPoint.imageOffset)) =
          some (1,1,[10]) := by decide +kernel
    simp only [hm,Option.map_some,Option.some.injEq,Prod.mk.injEq] at hv
    obtain ⟨ht,hn,htr⟩ := hv
    refine ⟨⟨by decide,.inr (by omega),.inr (by omega)⟩,.inr ?_⟩
    simp only [mem_singleton,forall_eq]
    rintro (⟨hlt,-⟩ | ⟨-,hle⟩)
    · exact absurd hlt (by decide)
    · obtain ⟨p,hp,h10⟩ := mem_map.mp (htr ▸ mem_singleton_self (10 : UInt64))
      exact absurd (h10 ▸ hle p hp) (by decide)
  · simpa using hf.length_le

/-- The second call is left out, as the first one gives the same target and offset. The third one
then comes between. -/
def sparedCalls : List MapCall := [⟨0,0,chars ['a']⟩,⟨100,100,chars ['a']⟩,⟨50,0,chars ['b']⟩]

open Transition in
lemma run_sparedCalls : ((run call con sparedCalls).bind fun map => map.getRange 100).map
    (fun r => r.map fun range => (range.target.parser,range.targetOffset)) =
      some (some ((RDFURN.set (chars ['b'])).parser,50)) := by decide +kernel

open Transition in
theorem spared_point_fails : (∀ c ∈ sparedCalls, c.Small) ∧
    MapCall.Governs ⟨100,100,chars ['a']⟩ sparedCalls 100 ∧
    ∃ map range, run call con sparedCalls = some map ∧ map.getRange 100 = some (some range) ∧
      range.target = RDFURN.set (chars ['b']) ∧ range.targetOffset = 50 ∧
      ¬ map.Follows sparedCalls := by
  have hg : MapCall.Governs ⟨100,100,chars ['a']⟩ sparedCalls 100 :=
    ⟨by decide,by simp [sparedCalls],by simp [sparedCalls]⟩
  obtain ⟨r,hr,hv⟩ := map_eq_some_iff.mp run_sparedCalls
  obtain ⟨range,rfl,hra⟩ := map_eq_some_iff.mp hv
  obtain ⟨map,hm,hgt⟩ := bind_eq_some_iff.mp hr
  obtain ⟨htg,ho⟩ := Prod.mk.inj hra
  refine ⟨by simp [sparedCalls,MapCall.Small],hg,map,range,hm,hgt,?_,ho,fun hf => ?_⟩
  · cases ht : range.target
    simp_all [RDFURN.set]
  · obtain ⟨range',hgt',_,ho'⟩ := hf 100 _ (by decide) hg
    rw [hgt,some.injEq,some.injEq] at hgt'
    rw [← hgt',ho] at ho'
    exact absurd ho' (by decide)

end MapValue

end Aff4
