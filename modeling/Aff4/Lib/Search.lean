import Mathlib.Tactic.Common

/-! The last place at which a marker stands in a list, searched from the end, and what
cutting the list off and padding it does to the places found. -/

namespace Search

open List

variable {α : Type}

def At (needle l : List α) (i : Nat) : Prop := needle <+: l.drop i

instance [DecidableEq α] (needle l : List α) (i : Nat) : Decidable (At needle l i) :=
  inferInstanceAs (Decidable (_ <+: _))

lemma at_append_right (needle xs ys : List α) (j : Nat) :
    At needle (xs ++ ys) (xs.length+j) ↔ At needle ys j := by
  rw [At,At,drop_append,drop_eq_nil_of_le (Nat.le_add_right _ _),Nat.add_sub_cancel_left,nil_append]

variable {needle l : List α}

variable {i n : Nat}

lemma at_of_take (h : At needle (l.take n) i) : At needle l i := by
  rw [At,drop_take] at h
  exact h.trans ( take_prefix _ _)

lemma at_take_of_le (h : At needle l i) (hn : i+needle.length ≤ n) : At needle (l.take n) i := by
  rw [At,drop_take]
  exact prefix_take_iff.mpr ⟨h,by omega⟩

lemma at_of_padded {needle xs : List α} {pad : α} (hne : needle ≠ []) (hp : pad ∉ needle)
    {k : Nat} (h : At needle (xs ++ replicate k pad) i) :
    i+needle.length ≤ xs.length ∧ At needle xs i := by
  have hps := length_pos_iff.mpr hne
  by_cases hle : i+needle.length ≤ xs.length
  · refine ⟨hle,?_⟩
    rw [At,drop_append_of_le_length (by omega)] at h
    exact prefix_of_prefix_length_le h (prefix_append _ _) (by
      rw [length_drop]
      omega)
  · -- The last element of the marker would be a padding element.
    exfalso
    apply hp
    have hg := h.getElem (i := needle.length-1) (by omega)
    have hm := getElem_mem (l := needle) (n := needle.length-1) (by omega)
    rw [hg,getElem_drop,getElem_append_right (by omega),getElem_replicate] at hm
    exact hm

def lastAt [DecidableEq α] (needle l : List α) : Nat → Nat
  | 0 => 0
  | i+1 => if At needle l (i+1) then i+1 else lastAt needle l i

variable [DecidableEq α]

lemma lastAt_le (needle l : List α) (n : Nat) : lastAt needle l n ≤ n := by
  induction n with
  | zero => exact Nat.le_refl 0
  | succ n ih =>
    rw [lastAt]
    split
    · exact Nat.le_refl _
    · exact Nat.le_succ_of_le ih

lemma lastAt_at (h : lastAt needle l n ≠ 0) : At needle l (lastAt needle l n) := by
  induction n with
  | zero => exact absurd rfl h
  | succ n ih =>
    rw [lastAt] at h ⊢
    split
    · next hat => exact hat
    · next hat =>
      rw [if_neg hat] at h
      exact ih h

lemma le_lastAt {j : Nat} (hj : j ≤ n) (h : At needle l j) : j ≤ lastAt needle l n := by
  induction n with
  | zero => omega
  | succ n ih =>
    rw [lastAt]
    split
    · exact hj
    · next hat =>
      have hne : j ≠ n+1 := by
        rintro rfl
        exact hat h
      exact ih (by omega)

lemma lastAt_eq (hi : i ≤ n) (h : At needle l i)
    (hl : ∀ j, i < j → j ≤ n → ¬ At needle l j) : lastAt needle l n = i := by
  have hle := le_lastAt hi h
  by_contra hne
  exact hl _ (by omega) (lastAt_le needle l n) (lastAt_at (by omega))

end Search
