import Mathlib.Algebra.Order.Ring.Int

/-! Half-open intervals that follow one another, each given by its start and its
length. -/

namespace Tiling

def Tiles : Int → List (Int × Int) → Int → Prop
  | a, [], b => a = b
  | a, t :: ts, b => t.1 = a ∧ 0 ≤ t.2 ∧ Tiles (a+t.2) ts b

def Inside (t : Int × Int) (x : Int) : Prop := t.1 ≤ x ∧ x < t.1+t.2

lemma tiles_append {a b : Int} {ts us : List (Int × Int)} :
    Tiles a (ts ++ us) b ↔ ∃ m, Tiles a ts m ∧ Tiles m us b := by
  induction ts generalizing a with
  | nil => simp [Tiles]
  | cons t ts ih => simp [Tiles,ih,and_assoc]

variable {ts : List (Int × Int)}

variable {a b : Int} (h : Tiles a ts b)
include h

lemma Tiles.le : a ≤ b := by
  induction ts generalizing a with
  | nil => exact le_of_eq h
  | cons t ts ih =>
    have := ih h.2.2
    have := h.2.1
    omega

lemma Tiles.within : ∀ t ∈ ts, a ≤ t.1 ∧ 0 ≤ t.2 ∧ t.1+t.2 ≤ b := by
  induction ts generalizing a with
  | nil => simp
  | cons t ts ih =>
    intro u hu
    have hl := h.2.1
    have he := h.2.2.le
    rcases List.mem_cons.mp hu with rfl | hu
    · exact ⟨h.1.ge,hl,h.1 ▸ he⟩
    · obtain ⟨hs,hr⟩ := ih h.2.2 u hu
      exact ⟨by omega,hr⟩

lemma Tiles.pairwise : ts.Pairwise fun t u => t.1+t.2 ≤ u.1 := by
  induction ts generalizing a with
  | nil => exact .nil
  | cons t ts ih =>
    refine .cons (fun u hu => ?_) (ih h.2.2)
    rw [h.1]
    exact (h.2.2.within u hu).1

lemma Tiles.cover (x : Int) : (∃ t ∈ ts, Inside t x) ↔ a ≤ x ∧ x < b := by
  induction ts generalizing a with
  | nil =>
    have hab : a = b := h
    simp only [List.not_mem_nil,false_and,exists_false,false_iff]
    omega
  | cons t ts ih =>
    have hs := h.1
    have hl := h.2.1
    have he := h.2.2.le
    simp only [List.mem_cons,exists_eq_or_imp,ih h.2.2]
    rw [Inside]
    omega

end Tiling
