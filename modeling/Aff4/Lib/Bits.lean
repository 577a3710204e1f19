import Mathlib.Data.Nat.Bitwise

/-! Digits of a power of two packed into a number by shifts, and taken out again
with another width. -/

namespace Bits

def digit (w t j : Nat) : Nat := t >>> (j*w) &&& (2^w-1)

/-- The `or` of the digits `f 0`, ..., `f (n-1)`, each shifted to its place. -/
def pack (w n : Nat) (f : Nat → Nat) : Nat :=
  (List.range n).foldl (fun t j => t ||| f j <<< (j*w)) 0

lemma testBit_digit (w t j i : Nat) :
    (digit w t j).testBit i = (decide (i < w) && t.testBit (j*w+i)) := by
  rw [digit,Nat.testBit_and,Nat.testBit_shiftRight,Nat.testBit_two_pow_sub_one,Bool.and_comm]

lemma digit_lt (w t j : Nat) : digit w t j < 2^w := by
  have hle : digit w t j ≤ 2^w-1 := Nat.and_le_right
  have hp := Nat.two_pow_pos w
  omega

lemma pack_succ (w n : Nat) (f : Nat → Nat) : pack w (n+1) f = pack w n f ||| f n <<< (n*w) := by
  simp [pack,List.range_succ]

lemma testBit_pack (w n : Nat) (f : Nat → Nat) (i : Nat) :
    (pack w n f).testBit i = true ↔ ∃ j, j < n ∧ j*w ≤ i ∧ (f j).testBit (i-j*w) = true := by
  induction n with
  | zero => simp [pack]
  | succ n ih =>
    simp only [pack_succ,Nat.testBit_or,Nat.testBit_shiftLeft,Bool.or_eq_true,Bool.and_eq_true,
      decide_eq_true_eq,ih]
    constructor
    · rintro (⟨j,hj,h⟩ | h)
      · exact ⟨j,by omega,h⟩
      · exact ⟨n,Nat.lt_succ_self n,h⟩
    · rintro ⟨j,hj,h⟩
      by_cases hn : j = n
      · exact .inr (hn ▸ h)
      · exact .inl ⟨j,by omega,h⟩

variable {f : Nat → Nat}

variable {w n kept t k : Nat}

/-- Digits that come from a number are put back where they were, and what follows
the first `kept` of them does not matter below their bits. -/
lemma testBit_pack_digit (hw : 0 < w) (hn : kept ≤ n)
    (hf : ∀ j, j < kept → f j = digit w t j) {i : Nat} (hi : i < kept*w) :
    (pack w n f).testBit i = t.testBit i := by
  have hd : i/w < kept := Nat.div_lt_of_lt_mul (by rwa [mul_comm] at hi)
  have hp : i/w*w+i%w = i := Nat.div_add_mod' i w
  rw [Bool.eq_iff_iff,testBit_pack]
  constructor
  · rintro ⟨j,_,hle,hb⟩
    have hj : j < kept := by
      by_contra hj
      have := Nat.mul_le_mul_right w (Nat.not_lt.mp hj)
      omega
    rw [hf j hj,testBit_digit,Bool.and_eq_true] at hb
    simpa [Nat.add_sub_cancel' hle] using hb.2
  · intro hb
    refine ⟨i/w,by omega,by omega,?_⟩
    have hs : i-i/w*w = i%w := by omega
    rw [hf _ hd,testBit_digit,hs,hp,hb]
    simpa using Nat.mod_lt i hw

lemma digit_pack (hf : ∀ j, f j < 2^w) (hk : k < n) :
    digit w (pack w n f) k = f k := by
  refine Nat.eq_of_testBit_eq fun i => ?_
  rw [testBit_digit]
  by_cases hi : i < w
  · rw [Bool.eq_iff_iff]
    simp only [hi,decide_true,Bool.true_and,testBit_pack]
    constructor
    · rintro ⟨j,_,hle,hb⟩
      have hlt : k*w+i-j*w < w := by
        by_contra hlt
        rw [Nat.testBit_lt_two_pow (lt_of_lt_of_le (hf j)
          (Nat.pow_le_pow_right (by omega) (Nat.not_lt.mp hlt)))] at hb
        cases hb
      have hjk : j = k := by
        rcases Nat.lt_trichotomy j k with h | h | h
        · have := Nat.mul_le_mul_right w (Nat.succ_le_of_lt h)
          rw [Nat.succ_mul] at this
          omega
        · exact h
        · have := Nat.mul_le_mul_right w (Nat.succ_le_of_lt h)
          rw [Nat.succ_mul] at this
          omega
      subst hjk
      simpa using hb
    · intro hb
      exact ⟨k,hk,by omega,by simpa using hb⟩
  · have hbg : f k < 2^i :=
      lt_of_lt_of_le (hf k) (Nat.pow_le_pow_right (by omega) (Nat.not_lt.mp hi))
    simp [hi,Nat.testBit_lt_two_pow hbg]

lemma digit_pack_digit {v : Nat} (hw : 0 < w) (hn : kept ≤ n)
    (hf : ∀ j, j < kept → f j = digit w t j) (hk : (k+1)*v ≤ kept*w) :
    digit v (pack w n f) k = digit v t k := by
  refine Nat.eq_of_testBit_eq fun i => ?_
  rw [testBit_digit,testBit_digit]
  by_cases hi : i < v
  · rw [testBit_pack_digit hw hn hf]
    rw [Nat.succ_mul] at hk
    omega
  · simp [hi]

end Bits
