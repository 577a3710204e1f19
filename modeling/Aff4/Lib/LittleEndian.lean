import Mathlib.Tactic.NormNum
import Mathlib.Tactic.Ring

/-! Fixed-width little-endian numbers inside byte strings, and the two ways a
packed structure is read back: field by field from the front, or at an offset. -/

namespace LittleEndian

open List

abbrev Bytes := List UInt8

/-- The low `w` bytes of `n`, least significant first. Higher bits are dropped,
as a store into a `w`-byte field does. -/
def leBytes : Nat → Nat → Bytes
  | 0, _ => []
  | w+1, n => UInt8.ofNat n :: leBytes w (n/256)

def leNat : Bytes → Nat
  | [] => 0
  | b :: bs => b.toNat + 256*leNat bs

@[simp] lemma leBytes_length (w n : Nat) : (leBytes w n).length = w := by
  induction w generalizing n with
  | zero => rfl
  | succ w ih => simp [leBytes,ih]

lemma leNat_leBytes (w n : Nat) : leNat (leBytes w n) = n%256^w := by
  induction w generalizing n with
  | zero => simp [leBytes,leNat,Nat.mod_one]
  | succ w ih =>
    rw [leBytes,leNat,ih,pow_succ',Nat.mod_mul]
    simp

lemma leNat_lt (bs : Bytes) : leNat bs < 256^bs.length := by
  induction bs with
  | nil => simp [leNat]
  | cons b bs ih =>
    have hb := b.toNat_lt
    simp only [leNat,length_cons,pow_succ]
    omega

lemma leBytes_leNat (bs : Bytes) : leBytes bs.length (leNat bs) = bs := by
  induction bs with
  | nil => rfl
  | cons b bs ih =>
    have hb := b.toNat_lt
    have hl : UInt8.ofNat (b.toNat+256*leNat bs) = b := by
      apply UInt8.toNat.inj
      rw [UInt8.toNat_ofNat']
      omega
    have hh : (b.toNat+256*leNat bs)/256 = leNat bs := by omega
    rw [length_cons,leBytes,leNat,hl,hh,ih]

lemma leBytes_injective {w n m : Nat} (hn : n < 256^w) (hm : m < 256^w)
    (h : leBytes w n = leBytes w m) : n = m := by
  have hh := congrArg leNat h
  rwa [leNat_leBytes,leNat_leBytes,Nat.mod_eq_of_lt hn,Nat.mod_eq_of_lt hm] at hh

def takeLE (w : Nat) (bs : Bytes) : Nat × Bytes := (leNat (bs.take w),bs.drop w)

@[simp] lemma takeLE_leBytes (w n : Nat) (rest : Bytes) :
    takeLE w (leBytes w n ++ rest) = (n%256^w,rest) := by simp [takeLE,leNat_leBytes]

def le16 (x : UInt16) : Bytes := leBytes 2 x.toNat
def le32 (x : UInt32) : Bytes := leBytes 4 x.toNat
def le64 (x : UInt64) : Bytes := leBytes 8 x.toNat

def take16 (bs : Bytes) : UInt16 × Bytes := (UInt16.ofNat (takeLE 2 bs).1,(takeLE 2 bs).2)
def take32 (bs : Bytes) : UInt32 × Bytes := (UInt32.ofNat (takeLE 4 bs).1,(takeLE 4 bs).2)
def take64 (bs : Bytes) : UInt64 × Bytes := (UInt64.ofNat (takeLE 8 bs).1,(takeLE 8 bs).2)

@[simp] lemma le16_length (x : UInt16) : (le16 x).length = 2 := leBytes_length 2 _
@[simp] lemma le32_length (x : UInt32) : (le32 x).length = 4 := leBytes_length 4 _
@[simp] lemma le64_length (x : UInt64) : (le64 x).length = 8 := leBytes_length 8 _

@[simp] lemma take16_le16 (x : UInt16) (rest : Bytes) : take16 (le16 x ++ rest) = (x,rest) := by
  have hlt : x.toNat < 256^2 := x.toNat_lt
  rw [take16,le16,takeLE_leBytes,Nat.mod_eq_of_lt hlt,UInt16.ofNat_toNat]

@[simp] lemma take32_le32 (x : UInt32) (rest : Bytes) : take32 (le32 x ++ rest) = (x,rest) := by
  have hlt : x.toNat < 256^4 := x.toNat_lt
  rw [take32,le32,takeLE_leBytes,Nat.mod_eq_of_lt hlt,UInt32.ofNat_toNat]

@[simp] lemma take64_le64 (x : UInt64) (rest : Bytes) : take64 (le64 x ++ rest) = (x,rest) := by
  have hlt : x.toNat < 256^8 := x.toNat_lt
  rw [take64,le64,takeLE_leBytes,Nat.mod_eq_of_lt hlt,UInt64.ofNat_toNat]

def slice (bs : Bytes) (pos n : Nat) : Bytes := (bs.drop pos).take n

lemma slice_length (bs : Bytes) (pos n : Nat) :
    (slice bs pos n).length = min n (bs.length-pos) := by simp [slice]

lemma slice_append_right (xs ys : Bytes) (pos n : Nat) (h : xs.length ≤ pos) :
    slice (xs ++ ys) pos n = slice ys (pos-xs.length) n := by
  simp [slice,drop_append,drop_eq_nil_of_le h]

lemma slice_append_left (xs ys : Bytes) (pos n : Nat) (h : pos+n ≤ xs.length) :
    slice (xs ++ ys) pos n = slice xs pos n := by
  have hz : n-(xs.length-pos) = 0 := by omega
  have hp : pos ≤ xs.length := by omega
  simp [slice,drop_append_of_le_length hp,take_append,hz]

lemma slice_slice (bs : Bytes) (pos : Nat) {n pos' n' : Nat} (h : pos'+n' ≤ n) :
    slice (slice bs pos n) pos' n' = slice bs (pos+pos') n' := by
  rw [slice,slice,slice,drop_take,take_take,drop_drop,min_eq_left (by omega)]

lemma slice_middle (xs ys zs : Bytes) : slice (xs ++ ys ++ zs) xs.length ys.length = ys := by
  simp [slice]

variable {blocks : List Bytes} {B : Nat} (hf : ∀ block ∈ blocks, block.length = B)

include hf

lemma blocks_length : blocks.flatten.length = blocks.length*B := by
  induction blocks with
  | nil => simp
  | cons b blocks ih =>
    rw [flatten_cons,length_append,hf b mem_cons_self,length_cons,
      Nat.succ_mul,ih fun x hx => hf x (mem_cons_of_mem _ hx),add_comm]

lemma slice_blocks {last : Bytes} (hl : last.length ≤ B) {k : Nat} {block : Bytes}
    (hk : (blocks ++ [last])[k]? = some block) :
    slice (blocks.flatten ++ last) (k*B) B = block := by
  induction blocks generalizing k with
  | nil =>
    cases k with
    | zero =>
      obtain rfl : last = block := by simpa using hk
      simpa [slice] using take_of_length_le hl
    | succ k => simp at hk
  | cons b blocks ih =>
    have hb := hf b mem_cons_self
    have hr := fun x hx => hf x (mem_cons_of_mem _ hx)
    rw [flatten_cons,append_assoc]
    cases k with
    | zero =>
      obtain rfl : b = block := by simpa using hk
      simpa [hb] using slice_middle [] b (blocks.flatten ++ last)
    | succ k =>
      have hle : b.length ≤ (k+1)*B := by
        rw [hb,Nat.succ_mul]
        exact Nat.le_add_left _ _
      have hs : (k+1)*B-b.length = k*B := by rw [hb,Nat.succ_mul,Nat.add_sub_cancel]
      rw [slice_append_right _ _ _ _ hle,hs]
      exact ih hr hk

end LittleEndian
