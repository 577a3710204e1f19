import Mathlib.Data.List.Induction
import Mathlib.Data.List.Perm.Basic

/-! The elements of a list that are named by their positions. -/

namespace Positions

open List

variable {α β : Type}

variable {f : α → Option β} {l : List α}

lemma mapM_eq_filterMap (h : ∀ a ∈ l, ∃ b, f a = some b) : l.mapM f = some (l.filterMap f) := by
  induction l with
  | nil => rfl
  | cons a l ih =>
    obtain ⟨b,hb⟩ := h a mem_cons_self
    have hr := ih fun c hc => h c (mem_cons_of_mem a hc)
    rw [mapM_cons,hb,hr,filterMap_cons_some hb]
    rfl

lemma mapM_eq_some {g : α → β} (h : ∀ a ∈ l, f a = some (g a)) : l.mapM f = some (l.map g) := by
  induction l with
  | nil => rfl
  | cons a l ih =>
    rw [mapM_cons,h a mem_cons_self,ih fun b hb => h b (mem_cons_of_mem a hb)]
    rfl

lemma exists_of_mapM {m : List β} (h : l.mapM f = some m) : ∀ a ∈ l, ∃ b, f a = some b := by
  induction l generalizing m with
  | nil => simp
  | cons a l ih =>
    rw [mapM_cons] at h
    obtain ⟨b,hb,h⟩ := Option.bind_eq_some_iff.mp h
    obtain ⟨rest,hr,_⟩ := Option.bind_eq_some_iff.mp h
    intro c hc
    rcases mem_cons.mp hc with rfl | hc
    · exact ⟨b,hb⟩
    · exact ih hr c hc

lemma filterMap_range (l : List α) : (range l.length).filterMap (fun i => l[i]?) = l := by
  induction l using reverseRecOn with
  | nil => rfl
  | append_singleton l a ih =>
    have hf : (range l.length).filterMap (fun i => (l ++ [a])[i]?) = l := by
      refine Eq.trans (filterMap_congr fun i hi => ?_) ih
      rw [getElem?_append_left (mem_range.mp hi)]
    rw [length_append,length_singleton,range_succ,filterMap_append,hf]
    simp

/-- The positions of the elements that satisfy `p`, each once and in any order, give these
elements. -/
lemma picks_perm {p : α → Bool} {order : List Nat} (hn : order.Nodup)
    (hm : ∀ i, i ∈ order ↔ ∃ a, l[i]? = some a ∧ p a = true) :
    ∃ picked, order.mapM (fun i => l[i]?) = some picked ∧ picked.Perm (l.filter p) := by
  have hpr : order.Perm ((List.range l.length).filter fun i => (l[i]?).any p) := by
    refine (List.perm_ext_iff_of_nodup hn (List.nodup_range.filter _)).mpr fun i => ?_
    rw [hm,List.mem_filter,List.mem_range,Option.any_eq_true]
    exact ⟨fun ⟨a,ha,hp⟩ => ⟨(List.getElem?_eq_some_iff.mp ha).1,a,ha,hp⟩,fun h => h.2⟩
  have hpc := mapM_eq_filterMap fun i hi => ((hm i).mp hi).imp fun _ ha => ha.1
  refine ⟨_,hpc,(hpr.filterMap _).trans (List.Perm.of_eq ?_)⟩
  calc ((List.range l.length).filter fun i => (l[i]?).any p).filterMap (fun i => l[i]?)
      = (List.range l.length).filterMap fun i => (l[i]?).filter p := by
        rw [List.filterMap_filter]
        refine List.filterMap_congr fun i _ => ?_
        cases l[i]? with
        | none => simp
        | some a => cases hp : p a <;> simp [hp,Option.filter]
    _ = l.filter p := by rw [← List.filter_filterMap,filterMap_range]

end Positions
