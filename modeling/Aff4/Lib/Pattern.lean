import Mathlib.Data.List.TakeWhile

/-! Regular expressions of single characters and groups `([..]+)`, matched from the front of a text
by backtracking: each group is tried with as many characters as there are, then with fewer. -/

namespace Pattern

open List

variable {α : Type}

inductive Piece (α : Type) where
  | one (c : α)
  | many (p : α → Bool)

def longest (rest : List α → Option (List (List α))) (s : List α) : Nat → Option (List (List α))
  | 0 => none
  | n+1 =>
      match rest (s.drop (n+1)) with
      | some found => some (s.take (n+1) :: found)
      | none => longest rest s n

def groups [DecidableEq α] : List (Piece α) → List α → Option (List (List α))
  | [], _ => some []
  | .one _ :: _, [] => none
  | .one c :: pieces, x :: s => if x = c then groups pieces s else none
  | .many p :: pieces, s => longest (groups pieces) s (s.takeWhile p).length

lemma longest_some {rest : List α → Option (List (List α))} {s : List α} {n : Nat}
    {found : List (List α)} (h : longest rest s n = some found) :
    ∃ k others, 0 < k ∧ k ≤ n ∧ rest (s.drop k) = some others ∧ found = s.take k :: others := by
  induction n with
  | zero => cases h
  | succ n ih =>
    rw [longest] at h
    cases hr : rest (s.drop (n+1)) with
    | some others =>
      rw [hr] at h
      exact ⟨n+1,others,by omega,le_refl _,hr,(Option.some.inj h).symm⟩
    | none =>
      rw [hr] at h
      obtain ⟨k,others,hp,hle,ho,hf⟩ := ih h
      exact ⟨k,others,hp,by omega,ho,hf⟩

variable [DecidableEq α] {p : α → Bool} {c : α} {pieces : List (Piece α)} {s : List α}
  {found : List (List α)}

lemma groups_many_one_iff (hc : p c = false) : groups (.many p :: .one c :: pieces) s = some found ↔
      ∃ w rest others, s = w ++ c :: rest ∧ w ≠ [] ∧ (∀ x ∈ w, p x = true) ∧
        groups pieces rest = some others ∧ found = w :: others := by
  constructor
  · intro h
    obtain ⟨k,others,hp,hle,hr,hf⟩ := longest_some h
    have hk := hle.trans ( takeWhile_prefix p).length_le
    cases hd : s.drop k with
    | nil => simp [hd,groups] at hr
    | cons x rest =>
      rw [hd,groups] at hr
      split at hr
      · next hx =>
        subst hx
        refine ⟨s.take k,rest,others,by rw [← hd,take_append_drop],?_,?_,hr,hf⟩
        · exact ne_nil_of_length_pos (by rw [length_take]; omega)
        · intro y hy
          have ht : s.take k <+: s.takeWhile p := by
            rw [prefix_iff_eq_take.mp ( takeWhile_prefix p (l := s))]
            exact take_prefix_take_left hle
          exact mem_takeWhile_imp (ht.subset hy)
      · cases hr
  · rintro ⟨w,rest,others,rfl,hne,hw,hr,rfl⟩
    have ht : (w ++ c :: rest).takeWhile p = w := by
      rw [takeWhile_append_of_pos hw,takeWhile_cons_of_neg (by simp [hc]),append_nil]
    obtain ⟨n,hn⟩ := Nat.exists_eq_succ_of_ne_zero (mt length_eq_zero_iff.mp hne)
    have hd : (w ++ c :: rest).drop (n+1) = c :: rest := drop_left' hn
    have hfr : (w ++ c :: rest).take (n+1) = w := take_left' hn
    rw [groups,ht,hn,longest,hd,hfr]
    simp [groups,hr]

lemma groups_many_iff :
    groups [.many p] s = some found ↔ s.takeWhile p ≠ [] ∧ found = [s.takeWhile p] := by
  have ht : s.take (s.takeWhile p).length = s.takeWhile p :=
    (prefix_iff_eq_take.mp ( takeWhile_prefix p)).symm
  rw [groups]
  cases hl : (s.takeWhile p).length with
  | zero => simp [longest,length_eq_zero_iff.mp hl]
  | succ n =>
    have hne : s.takeWhile p ≠ [] := ne_nil_of_length_pos (by omega)
    rw [hl] at ht
    simp [longest,groups,ht,hne,eq_comm]

end Pattern
