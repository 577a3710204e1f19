import Mathlib.Data.List.TakeWhile
import Aff4.Lib.LittleEndian

/-! What talloc.c promises about memory, and C strings as byte lists. -/

namespace Aff4

open LittleEndian

def buffSize : Nat := 40960

def chars (l : List Char) : Bytes := l.map fun c => UInt8.ofNat c.toNat

def zstring (s : Bytes) : Bytes := s ++ [0]

@[simp] lemma zstring_length (s : Bytes) : (zstring s).length = s.length+1 := by simp [zstring]

def cstring (p : Bytes) : Bytes := p.takeWhile fun c => c != 0

lemma cstring_ne_zero (p : Bytes) : ∀ c ∈ cstring p, c ≠ 0 := by
  intro c hc
  simpa using List.mem_takeWhile_imp hc

section

variable {s : Bytes} (hs : ∀ c ∈ s, c ≠ 0)
include hs

lemma cstring_append (rest : Bytes) : cstring (s ++ rest) = s ++ cstring rest :=
  List.takeWhile_append_of_pos fun c hc => by simpa using hs c hc

lemma cstring_eq_self : cstring s = s := by simpa [cstring] using cstring_append hs []

lemma cstring_padded (k : Nat) : cstring (s ++ List.replicate k 0) = s := by
  rw [cstring_append hs]
  cases k with
  | zero => simp [cstring]
  | succ k => simp [cstring,List.replicate_succ]

lemma cstring_zstring : cstring (zstring s) = s := cstring_padded hs 1

end

/-- `MAX_TALLOC_SIZE`: a request for this many bytes or more gives NULL. -/
def maxTallocSize : Nat := 0x10000000

def tallocNamedConst (size : Nat) : Bool := decide (size < maxTallocSize)

def tallocMemdup (p : Bytes) : Option Bytes :=
  if tallocNamedConst p.length then some p else none

def tallocArray (elSize count : Nat) : Bool :=
  if maxTallocSize / elSize ≤ count then false else tallocNamedConst (elSize * count)

def pointerSize : Nat := 8

variable {p : Bytes} {n m : Int}

lemma tallocMemdup_eq_some (h : p.length < maxTallocSize) :
    tallocMemdup p = some p := by simp [tallocMemdup,tallocNamedConst,h]

lemma eq_of_tallocMemdup {q : Bytes} (h : tallocMemdup p = some q) : p = q := by
  rw [tallocMemdup] at h
  split at h
  · exact Option.some.inj h
  · cases h

lemma tallocMemdup_eq_none (h : maxTallocSize ≤ p.length) :
    tallocMemdup p = none := by simp [tallocMemdup,tallocNamedConst,Nat.not_lt.mpr h]

lemma tallocArray_pointers (count : Nat) :
    tallocArray pointerSize count = decide (count < 2^25) := by
  by_cases h : count < 2^25
  · have hle : ¬ maxTallocSize/pointerSize ≤ count := by
      simp only [maxTallocSize,pointerSize]
      omega
    have hlt : pointerSize*count < maxTallocSize := by
      simp only [maxTallocSize,pointerSize]
      omega
    simp only [tallocArray,hle,if_false,tallocNamedConst,hlt,h]
  · have hle : maxTallocSize/pointerSize ≤ count := by
      simp only [maxTallocSize,pointerSize]
      omega
    simp only [tallocArray,hle,if_true,h,decide_false]

/-- An `int` result. Signed overflow has none. -/
def toInt (n : Int) : Option Int := if -2^31 ≤ n ∧ n < 2^31 then some n else none

lemma toInt_eq_some (h : toInt n = some m) : m = n ∧ -2^31 ≤ n ∧ n < 2^31 := by
  rw [toInt] at h
  split at h
  · next hn => exact ⟨(Option.some.inj h).symm,hn⟩
  · cases h

lemma isSome_toInt : (toInt n).isSome = true ↔ -2^31 ≤ n ∧ n < 2^31 := by
  rw [toInt]
  split
  · next h => exact iff_of_true rfl h
  · next h => exact iff_of_false (by simp) h

def toLong (n : Int) : Option Int := if -2^63 ≤ n ∧ n < 2^63 then some n else none

lemma toLong_eq_some (h : toLong n = some m) : m = n ∧ -2^63 ≤ n ∧ n < 2^63 := by
  rw [toLong] at h
  split at h
  · next hn => exact ⟨(Option.some.inj h).symm,hn⟩
  · cases h

/-- The conversion of a wider number to `int`, which keeps its low bits. -/
def wrapInt (n : Int) : Int := n.bmod (2^32)

lemma wrapInt_bounds (n : Int) : -2^31 ≤ wrapInt n ∧ wrapInt n < 2^31 := by
  unfold wrapInt Int.bmod
  dsimp only
  split <;> omega

lemma wrapInt_of_bounds (hle : -2^31 ≤ n) (hlt : n < 2^31) : wrapInt n = n := by
  unfold wrapInt Int.bmod
  dsimp only
  split <;> omega

/-- The conversion of an `unsigned long` to `int64_t`. -/
def wrapLong (n : Int) : Int := n.bmod (2^64)

lemma wrapLong_of_bounds (hle : -2^63 ≤ n) (hlt : n < 2^63) : wrapLong n = n := by
  unfold wrapLong Int.bmod
  dsimp only
  split <;> omega

end Aff4
