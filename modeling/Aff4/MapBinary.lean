import Aff4.Map

/-! The binary form of a map: `MapValueBinary_serialise` writes the targets to `idx` and the points
to `map`, and `MapValueBinary_decode` reads them back in blocks. -/

namespace Aff4

open LittleEndian Breakpoints List Option Nat MapPoint

def htonl (n : UInt32) : UInt32 := UInt32.ofNat (leNat (leBytes 4 n.toNat).reverse)

/-- `ntohll` is the same function. -/
def htonll (n : UInt64) : UInt64 :=
  ((htonl n.toUInt32).toUInt64 <<< 32) ||| (htonl (n >>> 32).toUInt32).toUInt64

namespace MapPoint

def pack (p : MapPoint) : Bytes :=
  le64 (htonll p.imageOffset) ++ le64 (htonll p.targetOffset) ++ le32 (htonl p.targetIdx)

def unpack (data : Bytes) : MapPoint :=
  let (imageOffset,data) := take64 data
  let (targetOffset,data) := take64 data
  ⟨htonll imageOffset,htonll targetOffset,htonl (take32 data).1⟩

def unpackAll : Nat → Bytes → List MapPoint
  | 0, _ => []
  | n+1, data => unpack (data.take 20) :: unpackAll n (data.drop 20)

end MapPoint

structure Allocator where
  usable : Nat → Nat
  enough : ∀ size, size ≤ usable size

/-- Whether byte `k` of a new block of some size can be written. -/
def Allocator.writable (heap : Allocator) (size k : Nat) : Bool :=
  tallocNamedConst size && decide (k < heap.usable size)

namespace MapValue

def indexData (self : MapValue) : Bytes := self.targets.flatMap fun target => zstring target.value

def mapData (self : MapValue) : Bytes := self.tree.flatMap MapPoint.pack

/-- `MapValueBinary_serialise`: the content of the two members, unless nothing is written. -/
def serialiseBinary (self : MapValue) : Option (Bytes × Bytes) :=
  if self.numberOfPoints = 0 then none else some (self.indexData,self.mapData)

/-- The loop over the content of `idx`. A string that does not end has no result. -/
def readTargets : Nat → MapValue → Bytes → Option (Bool × MapValue)
  | _, self, [] => some (true,self)
  | 0, _, _ => none
  | fuel+1, self, x =>
      let y := cstring x
      if (0 : UInt8) ∈ x then
        if y = [] then some (false,self)
        else if tallocNamedConst (pointerSize * (self.targets.length + 1)) then
          (RDFURN.setBuffered y).bind fun target =>
            readTargets fuel {self with targets := self.targets ++ [target]}
              (x.drop (y.length + 1))
        else none
      else none

/-- `tree_insert` of each node. A second node for an offset fails an assertion. -/
def insertNodes : List MapPoint → List MapPoint → Option (List MapPoint)
  | tree, [] => some tree
  | tree, node :: nodes =>
      if tree.any fun p => p.key = node.key then none
      else insertNodes (place MapPoint.key node tree) nodes

/-- The outer loop over the content of `map`: each turn reads a block of `BUFF_SIZE` points and
counts them down from `i`, as the loop head does once more. -/
def readPoints : Nat → Int → Bytes → List MapPoint → Option (List MapPoint)
  | 0, _, _, _ => none
  | fuel+1, i, rest, tree =>
      if i ≤ 0 then some tree
      else
        let buff := rest.take (20 * buffSize)
        let res := buff.length / 20
        (insertNodes tree (MapPoint.unpackAll res buff)).bind fun tree =>
          readPoints fuel (i - res - 1) (rest.drop (20 * buffSize)) tree

def pointCount (size : Nat) : Int := Int.bmod (size % 2^64 / 20 : Nat) (2^32)

/-- The part of `MapValueBinary_decode` that reads the points. -/
def readMap (map : Bytes) (self : MapValue) : Option MapValue :=
  let i := pointCount map.length
  (readPoints (i.toNat + 1) i map self.tree).map fun tree =>
    {self with tree := tree, numberOfPoints := i}

/-- `MapValueBinary_decode`, from the two members where they can be opened. -/
def decodeBinary (heap : Allocator) (idx map : Option Bytes) (self : MapValue) :
    Option (Bool × MapValue) :=
  match idx with
  | none => some (true,self)
  | some idx =>
      -- the terminator goes one byte behind the block
      if heap.writable (idx.length + 1) (idx.length + 1) then
        (readTargets idx.length self idx).bind fun
          | (false,self) => some (false,self)
          | (true,self) =>
              match map with
              | none => some (true,self)
              | some map => (readMap map self).map fun self => (true,self)
      else none

end MapValue

lemma htonl_toNat (n : UInt32) : (htonl n).toNat = leNat (leBytes 4 n.toNat).reverse := by
  have hlt := leNat_lt (leBytes 4 n.toNat).reverse
  rw [length_reverse,leBytes_length] at hlt
  exact UInt32.toNat_ofNat_of_lt' hlt

lemma htonl_htonl (n : UInt32) : htonl (htonl n) = n := by
  have hb := leBytes_leNat (leBytes 4 n.toNat).reverse
  rw [length_reverse,leBytes_length,← htonl_toNat] at hb
  apply UInt32.toNat.inj
  rw [htonl_toNat,hb,reverse_reverse,leNat_leBytes]
  exact mod_eq_of_lt n.toNat_lt

lemma halves_toNat (a b : UInt32) :
    ((a.toUInt64 <<< 32) ||| b.toUInt64).toNat = a.toNat*2^32+b.toNat := by
  have ha := a.toNat_lt
  have hb := b.toNat_lt
  have hs : (a.toUInt64 <<< 32).toNat = a.toNat <<< 32 := by
    simp [UInt64.toNat_shiftLeft,shiftLeft_eq]
    omega
  rw [UInt64.toNat_or,hs,UInt32.toNat_toUInt64,← shiftLeft_add_eq_or_of_lt hb,shiftLeft_eq]

lemma htonll_htonll (n : UInt64) : htonll (htonll n) = n := by
  have hl : (htonll n).toUInt32 = htonl (n >>> 32).toUInt32 := by
    apply UInt32.toNat.inj
    have := (htonl (n >>> 32).toUInt32).toNat_lt
    rw [UInt64.toNat_toUInt32,htonll,halves_toNat]
    omega
  have hh : (htonll n >>> 32).toUInt32 = htonl n.toUInt32 := by
    apply UInt32.toNat.inj
    have := (htonl (n >>> 32).toUInt32).toNat_lt
    have := (htonl n.toUInt32).toNat_lt
    rw [UInt64.toNat_toUInt32,UInt64.toNat_shiftRight,htonll,halves_toNat]
    simp [shiftRight_eq_div_pow]
    omega
  rw [htonll,hl,hh,htonl_htonl,htonl_htonl]
  apply UInt64.toNat.inj
  have := n.toNat_lt
  rw [halves_toNat,UInt64.toNat_toUInt32,UInt64.toNat_toUInt32,UInt64.toNat_shiftRight]
  simp [shiftRight_eq_div_pow]
  omega

namespace MapPoint

@[simp] lemma pack_length (p : MapPoint) : p.pack.length = 20 := by simp [pack]

lemma unpack_pack (p : MapPoint) : unpack p.pack = p := by
  have ht := take32_le32 (htonl p.targetIdx) []
  rw [append_nil] at ht
  simp [unpack,pack,append_assoc,ht,htonl_htonl,htonll_htonll]

lemma packed_length (points : List MapPoint) :
    (points.flatMap pack).length = 20*points.length := by
  induction points with
  | nil => rfl
  | cons p points ih =>
    rw [flatMap_cons,length_append,ih,pack_length,length_cons]
    omega

lemma unpackAll_packed (points : List MapPoint) :
    unpackAll points.length (points.flatMap pack) = points := by
  induction points with
  | nil => rfl
  | cons p points ih =>
    have hl := pack_length p
    rw [flatMap_cons,length_cons,unpackAll,take_left' hl,drop_left' hl,ih,unpack_pack]

lemma split_packed (points : List MapPoint) (n : Nat) :
    (points.flatMap pack).take (20*n) = (points.take n).flatMap pack ∧
      (points.flatMap pack).drop (20*n) = (points.drop n).flatMap pack := by
  induction n generalizing points with
  | zero => simp
  | succ n ih =>
    cases points with
    | nil => simp
    | cons p points =>
      obtain ⟨ht,hd⟩ := ih points
      have hs : 20*(n+1) = p.pack.length+20*n := by
        rw [pack_length]
        omega
      rw [flatMap_cons,hs,take_length_add_append,drop_length_add_append,ht,hd]
      exact ⟨rfl,rfl⟩

end MapPoint

namespace MapValue

variable {tree : List MapPoint} {i : Int} {s : MapValue} {n : Nat}

lemma place_last {node : MapPoint}
    (h : ∀ p ∈ tree, p.key < node.key) : place key node tree = tree ++ [node] := by
  have hb : tree.filter (fun p => p.key < node.key) = tree :=
    filter_eq_self.mpr fun p hp => by simpa using h p hp
  have ha : tree.filter (fun p => node.key < p.key) = [] :=
    filter_eq_nil_iff.mpr fun p hp => by simpa using (h p hp).le
  rw [place,hb,ha]

lemma insertNodes_sorted {nodes : List MapPoint}
    (h : Sorted key (tree ++ nodes)) : insertNodes tree nodes = some (tree ++ nodes) := by
  induction nodes generalizing tree with
  | nil => simp [insertNodes]
  | cons node nodes ih =>
    have hl : ∀ p ∈ tree, p.key < node.key :=
      fun p hp => (pairwise_append.mp h).2.2 p hp node mem_cons_self
    have hn : tree.any (fun p => decide (p.key = node.key)) = false :=
      any_eq_false.mpr fun p hp => by simpa using (hl p hp).ne
    rw [append_cons] at h ⊢
    rw [insertNodes,hn,if_neg Bool.false_ne_true,place_last hl,ih h]

def counted (i : Int) : Nat := buffSize * ((i.toNat + buffSize) / (buffSize + 1))

lemma counted_of_nonpos (h : i ≤ 0) : counted i = 0 := by
  simp only [counted,buffSize]
  omega

lemma counted_of_pos (h : 0 < i) :
    counted i = buffSize+counted (i-buffSize-1) := by
  simp only [counted,buffSize]
  omega

lemma readPoints_packed (fuel : Nat) (hfu : i.toNat < fuel)
    {points : List MapPoint} (h : Sorted key (tree ++ points)) :
    readPoints fuel i (points.flatMap pack) tree =
      some (tree ++ points.take (counted i)) := by
  induction fuel generalizing i tree points with
  | zero => omega
  | succ fuel ih =>
    rw [readPoints]
    by_cases hi : i ≤ 0
    · simp [hi,counted_of_nonpos hi]
    · obtain ⟨ht,hd⟩ := split_packed points buffSize
      have hr : ((points.take buffSize).flatMap pack).length/20 =
          (points.take buffSize).length := by
        rw [packed_length]
        omega
      have hs : tree ++ points =
          tree ++ points.take buffSize ++ points.drop buffSize := by
        rw [append_assoc,take_append_drop]
      rw [hs] at h
      have hf := insertNodes_sorted (pairwise_append.mp h).1
      simp only [hi,if_false,ht,hd,hr,unpackAll_packed,hf,bind_some]
      rw [ih (by omega) h,append_assoc]
      by_cases ha : points.length ≤ buffSize
      · have hn : points.drop buffSize = [] := drop_eq_nil_of_le ha
        rw [hn,take_nil,append_nil,take_of_length_le ha,take_of_length_le]
        rw [counted_of_pos (by omega)]
        omega
      · rw [length_take,Nat.min_eq_left (by omega),counted_of_pos (by omega : 0 < i),take_add]

lemma cstring_zstring_append {s : Bytes} (hs : ∀ c ∈ s, c ≠ 0) (rest : Bytes) :
    cstring (zstring s ++ rest) = s := by
  rw [zstring,append_assoc,cstring_append hs]
  simp [cstring]

lemma readTargets_target (fuel : Nat) (s : MapValue) (t : RDFURN) (rest : Bytes) :
    readTargets (fuel+1) s (zstring t.value ++ rest) =
      if (RDFURN.set t.value).parser.Buffered ∧ s.targets.length+1 < 2^25 then
        readTargets fuel {s with targets := s.targets ++ [RDFURN.set t.value]} rest
      else none := by
  have hne : t.value ≠ [] := ne_nil_of_mem t.colon_mem_value
  have hy := cstring_zstring_append t.value_ne_zero rest
  have hz : (0 : UInt8) ∈ zstring t.value ++ rest := by simp [zstring]
  have hd : (zstring t.value ++ rest).drop (t.value.length+1) = rest :=
    drop_left' (zstring_length _)
  obtain ⟨c,x,hx⟩ : ∃ c x, zstring t.value ++ rest = c :: x :=
    exists_cons_of_ne_nil (ne_nil_of_mem hz)
  rw [hx] at hy hz hd ⊢
  simp only [readTargets,hy,hz,hne,hd,if_true,if_false,table_room,decide_eq_true_eq,
    RDFURN.setBuffered]
  by_cases hr : s.targets.length+1 < 2^25
  · by_cases hb : (RDFURN.set t.value).parser.Buffered
    · simp only [hr,hb,and_self,if_true,bind_some]
    · simp only [hr,hb,false_and,if_true,if_false,bind_none]
  · simp only [hr,and_false,if_false]

lemma readTargets_written (targets : List RDFURN) (fuel : Nat) (hfw : s.targets.length < 2^25)
    (hf : (targets.flatMap fun target => zstring target.value).length ≤ fuel) :
    readTargets fuel s (targets.flatMap fun target => zstring target.value) =
      if (∀ t ∈ targets, (RDFURN.set t.value).parser.Buffered) ∧
        s.targets.length+targets.length < 2^25
      then some (true,{s with
        targets := s.targets ++ targets.map fun target => RDFURN.set target.value})
      else none := by
  induction targets generalizing fuel s with
  | nil =>
    cases fuel <;> simp [readTargets] <;> omega
  | cons t targets ih =>
    rw [flatMap_cons] at hf ⊢
    obtain ⟨fuel,rfl⟩ : ∃ n, fuel = n+1 := exists_eq_succ_of_ne_zero (by
      simp [zstring] at hf
      omega)
    rw [readTargets_target]
    by_cases hr : s.targets.length+1 < 2^25
    · by_cases hb : (RDFURN.set t.value).parser.Buffered
      · have hl : (targets.flatMap fun target => zstring target.value).length ≤ fuel := by
          simp [zstring] at hf ⊢
          omega
        rw [if_pos ⟨hb,hr⟩,ih fuel (by simpa using hr) hl]
        simp [hb,add_assoc,add_comm 1]
      · simp [hb]
    · have hfu : ¬ s.targets.length+(t :: targets).length < 2^25 := by
        simp only [length_cons]
        omega
      simp only [hr,hfu,and_false,if_false]

lemma pointCount_of_lt (h : n < 2^31) : pointCount (20*n) = n := by
  have hs : 20*n%2^64/20 = n := by omega
  have hh : (n : Int) < (((2^32 : Nat) : Int)+1)/2 := by omega
  unfold pointCount
  rw [hs]
  exact Int.bmod_eq_of_le (by simp) hh

lemma le_counted_iff (n : Nat) : n ≤ counted (pointCount (20*n)) ↔ n ≤ counted n := by
  by_cases h : n < 2^31
  · rw [pointCount_of_lt h]
  · have hlt := Int.bmod_lt (x := ((20*n%2^64/20 : Nat) : Int)) (m := 2^32) (by decide)
    rw [show Int.bmod ((20*n%2^64/20 : Nat) : Int) (2^32) = pointCount (20*n) from rfl] at hlt
    refine iff_of_false ?_ ?_ <;> simp only [counted,buffSize] <;> omega

/-- A map as it is built: its points in order, each with a target of the table, and no more of
them than were counted. -/
structure Listed (map : MapValue) : Prop where
  sorted : Sorted MapPoint.key map.tree
  indexed : ∀ p ∈ map.tree, p.targetIdx.toNat < map.targets.length
  counted : map.tree.length ≤ map.numberOfPoints

lemma readMap_written {next : MapValue} (hs : Sorted key s.tree)
    (hn : next.tree = []) (targets : List RDFURN) :
    readMap s.mapData {next with targets := targets} = some {next with
      targets := targets
      tree := s.tree.take (counted (pointCount (20*s.tree.length)))
      numberOfPoints := pointCount (20*s.tree.length)} := by
  have hl : s.mapData.length = 20*s.tree.length := packed_length _
  have hsr : Sorted key ([] ++ s.tree) := hs
  unfold readMap
  rw [hl,hn]
  generalize pointCount (20*s.tree.length) = i
  have hp := readPoints_packed (i.toNat+1) (lt_succ_self _) hsr
  rw [← mapData,nil_append] at hp
  simp [hp]

lemma decodeBinary_written (heap : Allocator) (hs : Sorted key s.tree) :
    decodeBinary heap (some s.indexData) (some s.mapData) con =
      if heap.writable (s.indexData.length+1) (s.indexData.length+1) = true ∧
        (∀ t ∈ s.targets, (RDFURN.set t.value).parser.Buffered) ∧ s.targets.length < 2^25
      then some (true,{con with
        targets := s.targets.map fun target => RDFURN.set target.value
        tree := s.tree.take (counted (pointCount (20*s.tree.length)))
        numberOfPoints := pointCount (20*s.tree.length)})
      else none := by
  have ht := readTargets_written s.targets s.indexData.length
    (show con.targets.length < 2^25 by simp [con]) (le_refl _)
  have hn : con.targets = [] := rfl
  rw [← indexData,hn,length_nil,zero_add,nil_append] at ht
  simp only [decodeBinary]
  by_cases hh : heap.writable (s.indexData.length+1) (s.indexData.length+1) = true
  · by_cases hr : (∀ t ∈ s.targets, (RDFURN.set t.value).parser.Buffered) ∧ s.targets.length < 2^25
    · rw [if_pos hr] at ht
      have hm := readMap_written hs (show con.tree = [] from rfl)
        (s.targets.map fun target => RDFURN.set target.value)
      rw [if_pos hh,if_pos ⟨hh,hr⟩,ht]
      rw [bind_some]
      dsimp only
      rw [hm,map_some]
    · rw [if_neg hr] at ht
      rw [if_pos hh,if_neg fun h => hr h.2,ht]
      rfl
  · rw [if_neg hh,if_neg fun h => hh h.1]

/-- The two members of a map are decoded to its points and targets exactly when the block for
`idx` has a byte to spare, the targets fit, and the countdown reaches the last block. -/
theorem decode_serialise_iff (heap : Allocator) {self : MapValue} (hs : self.Listed)
    (hn : self.tree ≠ []) :
    (∃ idx map next, self.serialiseBinary = some (idx,map) ∧
      decodeBinary heap (some idx) (some map) con = some (true,next) ∧
      next.tree = self.tree ∧
      next.targets.map RDFURN.value = self.targets.map RDFURN.value) ↔
    self.indexData.length + 1 < 2^28 ∧ self.indexData.length + 1 < heap.usable (self.indexData.length + 1) ∧
      (∀ t ∈ self.targets, (RDFURN.set t.value).parser.Buffered) ∧
      self.targets.length < 2^25 ∧
      self.tree.length ≤ buffSize * ((self.tree.length + buffSize) / (buffSize + 1)) := by
  have hc : self.numberOfPoints ≠ 0 := by
    have hp := length_pos_of_ne_nil hn
    have hle := hs.counted
    omega
  have hv : (self.targets.map fun target => RDFURN.set target.value).map RDFURN.value =
      self.targets.map RDFURN.value := by
    rw [List.map_map]
    refine map_congr_left fun t _ => ?_
    exact t.set_value (cstring_eq_self t.value_ne_zero)
  have hwr : heap.writable (self.indexData.length+1) (self.indexData.length+1) = true ↔
      self.indexData.length+1 < 2^28 ∧ self.indexData.length+1 < heap.usable (self.indexData.length+1) := by
    simp only [Allocator.writable,tallocNamedConst,Bool.and_eq_true,decide_eq_true_eq]
    rfl
  have htk : self.tree.take (counted (pointCount (20*self.tree.length))) = self.tree ↔
      self.tree.length ≤ buffSize*((self.tree.length+buffSize)/(buffSize+1)) := by
    rw [take_eq_self_iff,le_counted_iff]
    rfl
  simp only [serialiseBinary,hc,if_false,some.injEq,Prod.mk.injEq]
  rw [← htk,← and_assoc,← hwr]
  constructor
  · rintro ⟨_,_,next,⟨rfl,rfl⟩,hd,ht,_⟩
    rw [decodeBinary_written heap hs.sorted] at hd
    split at hd
    · rename_i hr
      simp only [some.injEq,Prod.mk.injEq,true_and] at hd
      subst hd
      exact ⟨hr.1,hr.2.1,hr.2.2,ht⟩
    · cases hd
  · rintro ⟨hw,hb,hrm,ht⟩
    have hd := decodeBinary_written heap hs.sorted
    rw [if_pos ⟨hw,hb,hrm⟩] at hd
    exact ⟨_,_,_,⟨rfl,rfl⟩,hd,ht,hv⟩

def wordAllocator : Allocator where
  usable size := 8 * (size / 8 + 1)
  enough size := by omega

def evenMap (n : Nat) : MapValue :=
  {con with
    targets := [RDFURN.set (chars ['a'])]
    tree := (range n).map fun i => ⟨UInt64.ofNat i,0,0⟩
    numberOfPoints := n}

lemma evenMap_listed (h : n < 2^62) : (evenMap n).Listed where
  sorted := by
    refine pairwise_map.mpr ((pairwise_lt_range).imp_of_mem fun {i j} hi hj hij => ?_)
    have hk : ∀ i < n, key ⟨UInt64.ofNat i,0,0⟩ = i := by
      intro i hi
      have hn : (UInt64.ofNat i).toNat = i := UInt64.toNat_ofNat_of_lt' (by
        simp only [UInt64.size]
        omega)
      rw [key,signed_of_lt (show (UInt64.ofNat i).toNat < 2^63 by omega),hn]
    rw [hk i (mem_range.mp hi),hk j (mem_range.mp hj)]
    exact_mod_cast hij
  indexed p hp := by
    obtain ⟨i,_,rfl⟩ := mem_map.mp hp
    simp [evenMap]
  counted := by simp [evenMap]

lemma evenMap_readable (n : Nat) :
    wordAllocator.writable ((evenMap n).indexData.length+1) ((evenMap n).indexData.length+1) = true ∧
      (∀ t ∈ (evenMap n).targets, (RDFURN.set t.value).parser.Buffered) ∧
      (evenMap n).targets.length < 2^25 := by
  have hd : (evenMap n).indexData = zstring (RDFURN.set (chars ['a'])).value := by
    simp [indexData,evenMap]
  refine ⟨?_,?_,by simp [evenMap]⟩
  · rw [hd]
    decide +kernel
  · simp only [evenMap,mem_singleton,forall_eq]
    decide +kernel

theorem decode_serialise_three_points : ∃ idx map next, (evenMap 3).serialiseBinary = some (idx,map) ∧
    decodeBinary wordAllocator (some idx) (some map) con = some (true,next) ∧
    next.tree = (evenMap 3).tree ∧
    next.targets.map RDFURN.value = (evenMap 3).targets.map RDFURN.value :=
  (decode_serialise_iff wordAllocator (evenMap_listed (by decide)) (by decide)).mpr
    ⟨by decide +kernel,by decide +kernel,(evenMap_readable 3).2.1,(evenMap_readable 3).2.2,
      by decide⟩

/-- Of one point more than a block holds, the last one is lost. -/
theorem decode_serialise_block_fails : (evenMap 40961).Listed ∧
    (evenMap 40961).tree.length = 40961 ∧
    ∃ idx map next, (evenMap 40961).serialiseBinary = some (idx,map) ∧
      decodeBinary wordAllocator (some idx) (some map) con = some (true,next) ∧
      next.tree.length = 40960 := by
  have hl : (evenMap 40961).Listed := evenMap_listed (by decide)
  have hln : (evenMap 40961).tree.length = 40961 := by simp [evenMap]
  have hd := decodeBinary_written wordAllocator hl.sorted
  rw [if_pos (evenMap_readable 40961),hln,pointCount_of_lt (by decide)] at hd
  refine ⟨hl,hln,_,_,_,?_,hd,?_⟩
  · rw [serialiseBinary,if_neg (by simp [evenMap])]
  · simp [hln,MapValue.counted,buffSize]

end MapValue

end Aff4
