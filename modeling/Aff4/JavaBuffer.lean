import Aff4.Lib.LittleEndian

/-! The ByteBuffer of java.nio that the readers of the Java library fill. An exception has no
result. -/

namespace Aff4.Java

open LittleEndian List

@[ext] structure ReadBuffer where
  array : Bytes
  position : Nat
  limit : Nat
  position_le : position ≤ limit
  limit_le : limit ≤ array.length
  length_lt : array.length < 2^31

namespace ReadBuffer

def capacity (self : ReadBuffer) : Nat := self.array.length

/-- `ByteBuffer.wrap`. -/
def wrap (array : Bytes) : Option ReadBuffer :=
  if h : array.length < 2^31 then some ⟨array,0,array.length,Nat.zero_le _,le_rfl,h⟩ else none

/-- The same buffer with other bytes. -/
def holding (self : ReadBuffer) (bytes : Bytes) (h : bytes.length = self.array.length) :
    ReadBuffer :=
  {self with array := bytes, limit_le := h ▸ self.limit_le, length_lt := h ▸ self.length_lt}

def setPosition (self : ReadBuffer) (n : Int) : Option ReadBuffer :=
  if h : 0 ≤ n ∧ n ≤ self.limit then
    some {self with position := n.toNat, position_le := Int.toNat_le.mpr h.2}
  else none

def setLimit (self : ReadBuffer) (n : Int) : Option ReadBuffer :=
  if h : 0 ≤ n ∧ n ≤ self.array.length then
    some {self with
      position := min self.position n.toNat, limit := n.toNat,
      position_le := Nat.min_le_right _ _, limit_le := Int.toNat_le.mpr h.2}
  else none

def stored (self : ReadBuffer) (bytes : Bytes) : Bytes :=
  self.array.take self.position ++ bytes ++ self.array.drop (self.position+bytes.length)

variable {s : ReadBuffer}

lemma stored_length {bytes : Bytes} (h : s.position+bytes.length ≤ s.limit) :
    (s.stored bytes).length = s.array.length := by
  have hle := s.limit_le
  simp only [stored,length_append,length_take,length_drop]
  omega

lemma stored_append {s next : ReadBuffer} {xs ys : Bytes}
    (hr : s.position+xs.length ≤ s.limit) (ha : next.array = s.stored xs)
    (hp : next.position = s.position+xs.length) : next.stored ys = s.stored (xs ++ ys) := by
  have hle := s.limit_le
  have hf : (s.array.take s.position ++ xs).length = s.position+xs.length := by
    rw [length_append,length_take]
    omega
  have ht : (s.stored xs).take (s.position+xs.length) =
      s.array.take s.position ++ xs := by rw [stored,← hf,take_left]
  have hd : (s.stored xs).drop (s.position+xs.length+ys.length) =
      s.array.drop (s.position+xs.length+ys.length) := by
    rw [stored,← drop_drop,← hf,drop_left,hf,drop_drop]
  rw [stored,stored,ha,hp,ht,hd,length_append,append_assoc _ xs ys,add_assoc]

lemma stored_nil (s : ReadBuffer) : s.stored [] = s.array := by simp [stored]

def store (self : ReadBuffer) (bytes : Bytes) (h : self.position+bytes.length ≤ self.limit) :
    ReadBuffer where
  array := self.stored bytes
  position := self.position+bytes.length
  limit := self.limit
  position_le := h
  limit_le := by rw [stored_length h]; exact self.limit_le
  length_lt := by rw [stored_length h]; exact self.length_lt

def put (self : ReadBuffer) (src : Bytes) (offset length : Int) : Option ReadBuffer :=
  if 0 ≤ offset ∧ 0 ≤ length ∧ offset+length ≤ src.length then
    let bytes := slice src offset.toNat length.toNat
    if h : self.position+bytes.length ≤ self.limit then some (self.store bytes h) else none
  else none

variable {n : Nat}

lemma setPosition_of_le (h : n ≤ s.limit) :
    s.setPosition n = some {s with position := n, position_le := h} := by
  rw [setPosition,dif_pos ⟨Int.natCast_nonneg n,Int.ofNat_le.mpr h⟩]
  rfl

lemma setLimit_of_le (h : n ≤ s.array.length) :
    s.setLimit n = some {s with
      position := min s.position n, limit := n, position_le := min_le_right _ _, limit_le := h}
    := by
  rw [setLimit,dif_pos ⟨Int.natCast_nonneg n,Int.ofNat_le.mpr h⟩]
  rfl

lemma setPosition_setLimit {α : Type} {m : Nat} (hn : n ≤ s.limit)
    (hm : m ≤ s.array.length) (f : ReadBuffer → α) :
    ((s.setPosition n).bind fun b => (b.setLimit m).map f) = some (f {s with
        position := min n m, limit := m,
        position_le := min_le_right _ _, limit_le := hm}) := by
  rw [setPosition_of_le hn,Option.bind_some,setLimit_of_le (s := {s with position := n, position_le := hn}) hm]
  rfl

lemma put_of_le (s : ReadBuffer) (src : Bytes) {offset length : Nat}
    (hs : offset+length ≤ src.length) (h : s.position+length ≤ s.limit) :
    s.put src offset length = some (s.store (slice src offset length) (by
      rw [slice_length]; omega)) := by
  rw [put,if_pos ⟨Int.natCast_nonneg _,Int.natCast_nonneg _,by omega⟩]
  exact dif_pos _

end ReadBuffer

/-- What a new array of `count` bytes holds after bytes have been read into it. -/
def fill (count : Nat) (bytes : Bytes) : Bytes :=
  bytes.take count ++ replicate (count-bytes.length) 0

lemma fill_length (count : Nat) (bytes : Bytes) : (fill count bytes).length = count := by
  rw [fill,length_append,length_take,length_replicate]
  omega

variable {count : Nat} {bytes : Bytes}

lemma fill_of_le (h : count ≤ bytes.length) :
    fill count bytes = bytes.take count := by
  rw [fill,Nat.sub_eq_zero_of_le h,replicate_zero,append_nil]

lemma slice_fill {o n : Nat} (h : bytes.length ≤ count)
    (hn : o+n ≤ bytes.length) : slice (fill count bytes) o n = slice bytes o n := by
  rw [fill,take_of_length_le h,slice_append_left _ _ _ _ hn]

end Aff4.Java
