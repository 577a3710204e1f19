import Mathlib.Data.List.Sort

/-! Sorting by a key with a stable sort, and when the order of the input shows
in what is printed of the sorted list. -/

namespace StableSort

universe u v w

open List

variable {α : Type u} {β : Type v} {γ : Type w}

section

variable [LE β] [DecidableLE β]

def sortBy (key : α → β) (l : List α) : List α := l.insertionSort fun a b => key a ≤ key b

variable (key : α → β)

lemma sortBy_perm (l : List α) : (sortBy key l).Perm l := perm_insertionSort _ l

lemma sortBy_of_pairwise {l : List α} (h : l.Pairwise fun a b => key a ≤ key b) :
    sortBy key l = l :=
  h.insertionSort_eq

lemma sortBy_map {δ : Type u} (f : δ → α) (l : List δ) :
    sortBy key (l.map f) = (sortBy (fun d => key (f d)) l).map f :=
  (map_insertionSort _ _ f l fun _ _ _ _ => Iff.rfl).symm

end

variable (key : α → β)

variable {l l' : List α}

lemma map_eq_of_keys (line : α → γ) (hk : l'.map key = l.map key)
    (h : ∀ a ∈ l', ∀ b ∈ l, key a = key b → line a = line b) : l'.map line = l.map line := by
  induction l generalizing l' with
  | nil =>
    rw [map_eq_nil_iff.mp hk]
  | cons b l ih =>
    cases l' with
    | nil => cases hk
    | cons a l' =>
      simp only [map_cons,cons.injEq] at hk ⊢
      exact ⟨h a (by simp) b (by simp) hk.1,
        ih hk.2 fun a ha b hb => h a (by simp [ha]) b (by simp [hb])⟩

lemma lines_of_key [DecidableEq β] {line : α → γ} (k : β)
    (hky : l'.map key = l.map key) (hl : l'.map line = l.map line) :
    (l'.filter fun a => key a = k).map line = (l.filter fun a => key a = k).map line := by
  induction l generalizing l' with
  | nil => rw [map_eq_nil_iff.mp hky]
  | cons b l ih =>
    cases l' with
    | nil => cases hky
    | cons a l' =>
      simp only [map_cons,cons.injEq] at hky hl
      have hr := ih hky.2 hl.2
      by_cases hk : key b = k
      · simp [hky.1,hk,hl.1,hr]
      · simp [hky.1,hk,hr]

variable [LE β] [DecidableLE β] [Std.IsLinearOrder β]

lemma sortBy_pairwise (l : List α) : (sortBy key l).Pairwise fun a b => key a ≤ key b := by
  exact pairwise_insertionSort _ l

lemma keys_sortBy (h : l'.Perm l) : (sortBy key l').map key = (sortBy key l).map key := by
  have hp : (sortBy key l').Perm (sortBy key l) :=
    (sortBy_perm key l').trans (h.trans (sortBy_perm key l).symm)
  have hs (l : List α) : ((sortBy key l).map key).Pairwise (· ≤ ·) :=
    pairwise_map.mpr (sortBy_pairwise key l)
  exact (hp.map key).eq_of_pairwise (fun _ _ _ _ => Std.le_antisymm) (hs l') (hs l)

lemma filter_sortBy [DecidableEq β] (k : β) (l : List α) :
    (sortBy key l).filter (fun a => key a = k) = l.filter fun a => key a = k := by
  have ht : (l.filter fun a => key a = k).Pairwise fun a b => key a ≤ key b := by
    refine pairwise_of_forall_mem_list fun a ha b hb => ?_
    have ha := of_decide_eq_true (mem_filter.mp ha).2
    have hb := of_decide_eq_true (mem_filter.mp hb).2
    exact ha ▸ hb ▸ Std.le_refl k
  have hs := (sublist_insertionSort ht filter_sublist).filter fun a => key a = k
  rw [filter_filter] at hs
  simp only [Bool.and_self] at hs
  exact (hs.eq_of_length ((sortBy_perm key l).filter _).length_eq.symm).symm

/-- What is printed does not depend on the order of the input exactly when the
key determines it. -/
lemma map_sortBy_iff [DecidableEq β] (line : α → γ) (l : List α) :
    (∀ l', l'.Perm l → (sortBy key l').map line = (sortBy key l).map line) ↔
      ∀ a ∈ l, ∀ b ∈ l, key a = key b → line a = line b := by
  constructor
  · intro h a ha b hb hk
    by_cases hab : a = b
    · rw [hab]
    -- the two elements are moved to the front, in both orders
    obtain ⟨front,back,rfl⟩ := append_of_mem ha
    have hb : b ∈ front ++ back := by
      rcases mem_append.mp hb with hb | hb
      · exact mem_append.mpr (.inl hb)
      · exact mem_append.mpr (.inr ((mem_cons.mp hb).resolve_left (Ne.symm hab)))
    obtain ⟨front',back',hs⟩ := append_of_mem hb
    have hr : (b :: (front' ++ back')).Perm (front ++ back) := by
      rw [hs]
      exact perm_middle.symm
    have hp := (hr.cons a).trans perm_middle.symm
    have hl : (sortBy key (a :: b :: (front' ++ back'))).map line =
        (sortBy key (b :: a :: (front' ++ back'))).map line :=
      (h _ hp).trans (h _ ((List.Perm.swap a b _).trans hp)).symm
    have ht := lines_of_key key (key b)
      (keys_sortBy key (List.Perm.swap b a (front' ++ back'))) hl
    simp only [filter_sortBy,filter_cons,hk,decide_true,if_true,map_cons,cons.injEq] at ht
    exact ht.1
  · intro h l' hp
    refine map_eq_of_keys key line (keys_sortBy key hp) fun a ha b hb => ?_
    exact h a (hp.mem_iff.mp ((sortBy_perm key l').mem_iff.mp ha)) b
      ((sortBy_perm key l).mem_iff.mp hb)

end StableSort
