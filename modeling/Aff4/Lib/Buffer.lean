import Mathlib.Tactic.Common

/-! Buffers of a fixed size that are written at an offset, and what is left in
them when they are filled from the front. -/

namespace Buffer

open List

variable {α : Type}

/-- A write that goes past the end has no result. -/
def writeAt (buffer : List α) (o : Nat) (xs : List α) : Option (List α) :=
  if o + xs.length ≤ buffer.length then
    some (buffer.take o ++ xs ++ buffer.drop (o+xs.length))
  else none

/-- A read that goes past the end has no result. -/
def readAt (buffer : List α) (o n : Nat) : Option (List α) :=
  if o + n ≤ buffer.length then some ((buffer.drop o).take n) else none

def overwrite (buffer xs : List α) : List α := xs ++ buffer.drop xs.length

lemma overwrite_length {buffer xs : List α} (h : xs.length ≤ buffer.length) :
    (overwrite buffer xs).length = buffer.length := by
  simp [overwrite]
  omega

lemma overwrite_get {xs : List α} (buffer : List α) {i : Nat} (h : i < xs.length) :
    (overwrite buffer xs)[i]? = xs[i]? :=
  getElem?_append_left h

lemma take_eq_of_get {xs out : List α} (h : ∀ i, i < xs.length → out[i]? = xs[i]?) :
    out.take xs.length = xs := by
  refine ext_getElem? fun i => ?_
  by_cases hi : i < xs.length
  · rw [getElem?_take_of_lt hi,h i hi]
  · rw [getElem?_eq_none (by simp; omega),getElem?_eq_none (by omega)]

variable {buffer xs out : List α}

variable {o : Nat} (h : writeAt buffer o xs = some out)

include h in
lemma writeAt_length : out.length = buffer.length ∧ o+xs.length ≤ buffer.length := by
  rw [writeAt] at h
  split at h
  · rename_i hft
    cases h
    simp only [length_append,length_take,length_drop]
    omega
  · cases h

lemma writeAt_of_le {buffer xs : List α} {o : Nat} (h : o+xs.length ≤ buffer.length) :
    writeAt buffer o xs = some (buffer.take o ++ xs ++ buffer.drop (o+xs.length)) := if_pos h

include h in
lemma writeAt_take : out.take (o+xs.length) = buffer.take o ++ xs := by
  have hft := (writeAt_length h).2
  rw [writeAt_of_le hft,Option.some.injEq] at h
  subst h
  refine take_left' ?_
  rw [length_append,length_take]
  omega

include h in
lemma writeAt_content {n : Nat} (ho : o ≤ n) : out.take (max n (o+xs.length)) =
      (buffer.take n).take o ++ xs ++ (buffer.take n).drop (o+xs.length) := by
  have hft := (writeAt_length h).2
  rw [take_take,Nat.min_eq_left ho]
  rcases Nat.le_total n (o+xs.length) with hn | hn
  · rw [Nat.max_eq_right hn,writeAt_take h,drop_eq_nil_of_le,append_nil]
    rw [length_take]
    omega
  · rw [Nat.max_eq_left hn]
    rw [writeAt_of_le hft,Option.some.injEq] at h
    have hfr : (buffer.take o ++ xs).length = o+xs.length := by
      rw [length_append,length_take]
      omega
    rw [← h,take_append,take_of_length_le (by omega),hfr,drop_take]

lemma readAt_of_le {buffer : List α} {o n : Nat} (h : o+n ≤ buffer.length) :
    readAt buffer o n = some ((buffer.drop o).take n) := if_pos h

lemma readAt_length {buffer out : List α} {o n : Nat} (h : readAt buffer o n = some out) :
    out.length = n := by
  rw [readAt] at h
  split at h
  · cases h
    rw [length_take,length_drop]
    omega
  · cases h

lemma writeAt_overwrite {buffer xs : List α} {o : Nat} (ys : List α)
    (ho : o ≤ xs.length) (he : xs.length ≤ o+ys.length) (hft : o+ys.length ≤ buffer.length) :
    writeAt (overwrite buffer xs) o ys = some (overwrite buffer (xs.take o ++ ys)) := by
  have hl : (overwrite buffer xs).length = buffer.length := overwrite_length (by omega)
  rw [writeAt,if_pos (by omega)]
  have ht : (overwrite buffer xs).take o = xs.take o := take_append_of_le_length ho
  have hd : (overwrite buffer xs).drop (o+ys.length) = buffer.drop (o+ys.length) := by
    rw [overwrite,drop_append,drop_of_length_le he,nil_append,drop_drop]
    congr 1
    omega
  rw [ht,hd]
  simp [overwrite,Nat.min_eq_left ho]

variable {f : Nat → List α} {w : Nat} (hf : ∀ k, (f k).length = w)

include hf

lemma flatMap_range_length (n : Nat) : ((range n).flatMap f).length = n*w := by
  induction n with
  | zero => simp
  | succ n ih => simp [range_succ,ih,hf,Nat.succ_mul]

lemma flatMap_range_get {n k q : Nat} (hk : k < n) (hq : q < w) :
    ((range n).flatMap f)[k*w+q]? = (f k)[q]? := by
  induction n with
  | zero => omega
  | succ n ih =>
    have hl := flatMap_range_length hf n
    rw [range_succ,flatMap_append]
    by_cases hn : k = n
    · subst hn
      rw [getElem?_append_right (by omega),hl,Nat.add_sub_cancel_left]
      simp
    · have hlt : k*w+q < n*w := by
        have := Nat.mul_le_mul_right w (show k+1 ≤ n by omega)
        rw [Nat.succ_mul] at this
        omega
      rw [getElem?_append_left (by omega),ih (by omega)]

end Buffer
