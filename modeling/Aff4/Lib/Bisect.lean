import Mathlib.Data.List.Basic
import Mathlib.Order.Lattice

/-! Sorted lists that are searched by position. A list may hold a key more than once; the
positions are those of the first key not below, and the first key above, the one searched. -/

namespace Bisect

open List

variable {K : Type} [LinearOrder K]

def bisectLeft (l : List K) (x : K) : Nat := (l.takeWhile (· < x)).length

def bisectRight (l : List K) (x : K) : Nat := (l.takeWhile (· ≤ x)).length

def insort (l : List K) (x : K) : List K :=
  match l[bisectLeft l x]? with
  | none => l ++ [x]
  | some y => if y ≠ x then l.insertIdx (bisectLeft l x) x else l

variable {l : List K}

section

variable (hl : l.Pairwise (· ≤ ·)) (x : K)
include hl x

lemma takeWhile_lt :
    l.takeWhile (· < x) = l.filter (· < x) ∧ l.dropWhile (· < x) = l.filter (x ≤ ·) := by
  induction l with
  | nil => exact ⟨rfl,rfl⟩
  | cons a l ih =>
    obtain ⟨ha,hl⟩ := pairwise_cons.mp hl
    by_cases hax : a < x
    · simp [hax,ih hl]
    · have hal : ∀ b ∈ l, x ≤ b := fun b hb => (not_lt.mp hax).trans (ha b hb)
      have hlw : l.filter (· < x) = [] := by simpa using hal
      have hup : l.filter (x ≤ ·) = l := by simpa using hal
      simp [hax,hlw,hup,not_lt.mp hax]

lemma takeWhile_le :
    l.takeWhile (· ≤ x) = l.filter (· ≤ x) ∧ l.dropWhile (· ≤ x) = l.filter (x < ·) := by
  induction l with
  | nil => exact ⟨rfl,rfl⟩
  | cons a l ih =>
    obtain ⟨ha,hl⟩ := pairwise_cons.mp hl
    by_cases hax : a ≤ x
    · simp [hax,ih hl]
    · have hal : ∀ b ∈ l, x < b := fun b hb => (not_le.mp hax).trans_le (ha b hb)
      have hlw : l.filter (· ≤ x) = [] := by simpa using hal
      have hup : l.filter (x < ·) = l := by simpa using hal
      simp [hax,hlw,hup,not_le.mp hax]

lemma filter_lt_append : l.filter (· < x) ++ l.filter (x ≤ ·) = l := by
  rw [← (takeWhile_lt hl x).1,← (takeWhile_lt hl x).2,takeWhile_append_dropWhile]

lemma filter_le_append : l.filter (· ≤ x) ++ l.filter (x < ·) = l := by
  rw [← (takeWhile_le hl x).1,← (takeWhile_le hl x).2,takeWhile_append_dropWhile]

lemma bisectLeft_eq : bisectLeft l x = (l.filter (· < x)).length := by
  rw [bisectLeft,(takeWhile_lt hl x).1]

lemma bisectRight_eq : bisectRight l x = (l.filter (· ≤ x)).length := by
  rw [bisectRight,(takeWhile_le hl x).1]

end

lemma insertIdx_append {α : Type} (xs ys : List α) (a : α) :
    (xs ++ ys).insertIdx xs.length a = xs ++ a :: ys := by
  induction xs with
  | nil => rfl
  | cons x xs ih => simp [ih]

section

variable (hl : l.Pairwise (· ≤ ·))
include hl

/-- A list with one more entry has it behind the keys below it and in front of the others, of
which one goes if the key was there. -/
lemma insort_eq (x : K) : insort l x = l.filter (· < x) ++ x :: (l.filter (x ≤ ·)).erase x := by
  have hs := filter_lt_append hl x
  have hg : l[bisectLeft l x]? = (l.filter (x ≤ ·))[0]? := by
    have h := congrArg (·[bisectLeft l x]?) hs
    rw [← h,bisectLeft_eq hl,getElem?_append_right (Nat.le_refl _),Nat.sub_self]
  rw [insort,hg,bisectLeft_eq hl]
  have hup := hl.filter (x ≤ ·)
  have hm : ∀ b ∈ l.filter (x ≤ ·), x ≤ b := fun b hb => by simpa using (mem_filter.mp hb).2
  revert hs hup hm
  generalize l.filter (· < x) = low
  cases l.filter (x ≤ ·) with
  | nil =>
    intro hs _ _
    simpa using hs.symm
  | cons y up =>
    intro hs hup hm
    by_cases hyx : y = x
    · subst hyx
      simpa using hs.symm
    · have hn : x ∉ up := by
        intro hx
        exact hyx (le_antisymm ((pairwise_cons.mp hup).1 x hx) (hm y mem_cons_self))
      rw [← hs]
      simp [hyx,erase_cons_tail,erase_of_not_mem hn,insertIdx_append]

lemma mem_insort {x q : K} : q ∈ insort l x ↔ q = x ∨ q ∈ l := by
  have hi : q ∈ l ↔ q ∈ l.filter (· < x) ∨ q ∈ l.filter (x ≤ ·) := by
    rw [← mem_append,filter_lt_append hl]
  rw [insort_eq hl,mem_append,mem_cons,hi]
  by_cases hqx : q = x
  · simp [hqx]
  · rw [mem_erase_of_ne hqx]
    tauto

lemma insort_sorted (x : K) : (insort l x).Pairwise (· ≤ ·) := by
  rw [insort_eq hl]
  have hlw : ∀ b ∈ l.filter (· < x), b < x := fun b hb => by simpa using (mem_filter.mp hb).2
  have hup : ∀ b ∈ (l.filter (x ≤ ·)).erase x, x ≤ b := fun b hb => by
    simpa using (mem_filter.mp (mem_of_mem_erase hb)).2
  refine pairwise_append.mpr ⟨hl.filter _,pairwise_cons.mpr ⟨hup,?_⟩,fun a ha b hb => ?_⟩
  · exact (hl.filter _).sublist erase_sublist
  · rcases mem_cons.mp hb with rfl | hb
    · exact (hlw a ha).le
    · exact (hlw a ha).le.trans (hup b hb)

end

lemma filter_erase (f : K → Bool) (l : List K) (x : K) :
    (l.erase x).filter f = if f x then (l.filter f).erase x else l.filter f := by
  induction l with
  | nil => simp
  | cons a l ih =>
    by_cases hax : a = x
    · subst hax
      by_cases hf : f a <;> simp [hf]
    · rw [erase_cons_tail (by simpa using hax)]
      by_cases hf : f a
      · rw [filter_cons_of_pos hf,filter_cons_of_pos hf,erase_cons_tail (by simpa using hax),ih]
        split <;> rfl
      · rw [filter_cons_of_neg hf,filter_cons_of_neg hf,ih]

section

variable {p e : K}

def between (l : List K) (p e : K) : List K := (l.filter fun q => p ≤ q ∧ q < e).erase p

def splice (l : List K) (p e : K) : List K :=
  l.filter (· < p) ++ p :: e :: (l.filter (e ≤ ·)).erase e

lemma mem_between_lt {q : K} (hq : q ∈ between l p e) : q ∈ l ∧ p ≤ q ∧ q < e := by
  simpa [and_assoc] using mem_filter.mp (mem_of_mem_erase hq)

lemma between_self (l : List K) (p : K) : between l p p = [] := by
  have hn : (l.filter fun q => p ≤ q ∧ q < p) = [] := by simp
  rw [between,hn,erase_nil]

lemma insort_of_mem (hl : l.Pairwise (· ≤ ·)) (hp : p ∈ l) : insort l p = l := by
  have hm : p ∈ l.filter (p ≤ ·) := mem_filter.mpr ⟨hp,by simp⟩
  have hs := filter_lt_append hl p
  have hup := hl.filter (p ≤ ·)
  have hle : ∀ b ∈ l.filter (p ≤ ·), p ≤ b := fun b hb => by simpa using (mem_filter.mp hb).2
  rw [insort_eq hl]
  cases hls : l.filter (p ≤ ·) with
  | nil => simp [hls] at hm
  | cons y up =>
    rw [hls] at hm hup hle hs
    have hyp : y = p := by
      rcases mem_cons.mp hm with h | h
      · exact h.symm
      · exact le_antisymm ((pairwise_cons.mp hup).1 p h) (hle y mem_cons_self)
    subst hyp
    simpa using hs

lemma insort_strict (hl : l.Pairwise (· < ·)) (x : K) : (insort l x).Pairwise (· < ·) := by
  have hle : l.Pairwise (· ≤ ·) := hl.imp fun h => h.le
  by_cases hx : x ∈ l
  · rwa [insort_of_mem hle hx]
  · rw [insort_eq hle,erase_of_not_mem fun h => hx (mem_filter.mp h).1]
    have hup : ∀ b ∈ l.filter (x ≤ ·), x < b := by
      intro b hb
      have hxb : x ≤ b := by simpa using (mem_filter.mp hb).2
      exact lt_of_le_of_ne hxb fun h => hx (h ▸ (mem_filter.mp hb).1)
    refine pairwise_append.mpr
      ⟨hl.filter _,pairwise_cons.mpr ⟨hup,hl.filter _⟩,fun a ha b hb => ?_⟩
    have hax : a < x := by simpa using (mem_filter.mp ha).2
    rcases mem_cons.mp hb with rfl | hb
    · exact hax
    · exact hax.trans (hup b hb)

lemma insort_insort (hl : l.Pairwise (· ≤ ·)) (hpe : p < e) : insort (insort l p) e =
        l.filter (· < p) ++ p :: (between l p e ++ e :: (l.filter (e ≤ ·)).erase e) ∧
      bisectLeft (insort l p) e = (l.filter (· < p)).length+1+(between l p e).length := by
  have hl' := insort_sorted hl p
  have hlw : (insort l p).filter (· < e) = l.filter (· < p) ++ p :: between l p e := by
    rw [insort_eq hl,filter_append,filter_cons_of_pos (by simpa using hpe),filter_erase,
      if_pos (by simpa using hpe),filter_filter,filter_filter,between]
    have hb : (l.filter fun q => decide (q < e) && decide (q < p)) = l.filter (· < p) := by
      refine filter_congr fun q _ => ?_
      by_cases h : q < p
      · simp [h,h.trans hpe]
      · simp [h]
    have hm : (l.filter fun q => decide (q < e) && decide (p ≤ q)) =
        l.filter fun q => p ≤ q ∧ q < e :=
      filter_congr fun q _ => by rw [Bool.and_comm,Bool.decide_and]
    rw [hb,hm]
  have hup : (insort l p).filter (e ≤ ·) = l.filter (e ≤ ·) := by
    rw [insort_eq hl,filter_append,filter_cons_of_neg (by simpa using hpe),filter_erase,
      if_neg (by simpa using hpe),filter_filter,filter_filter]
    have hn : (l.filter fun q => decide (e ≤ q) && decide (q < p)) = [] := by
      simp only [filter_eq_nil_iff,Bool.and_eq_true,decide_eq_true_eq,not_and,not_lt]
      exact fun q _ hq => hpe.le.trans hq
    rw [hn,nil_append]
    refine filter_congr fun q _ => ?_
    by_cases h : e ≤ q
    · simp [h,hpe.le.trans h]
    · simp [h]
  constructor
  · rw [insort_eq hl',hlw,hup]
    simp
  · rw [bisectLeft_eq hl',hlw]
    simp only [length_append,length_cons]
    omega

lemma take_append_drop_middle {α : Type} (xs ys zs : List α) :
    (xs ++ (ys ++ zs)).take xs.length ++ (xs ++ (ys ++ zs)).drop (xs.length+ys.length) = xs ++ zs ∧
      ((xs ++ (ys ++ zs)).take (xs.length+ys.length)).drop xs.length = ys := by
  refine ⟨?_,by simp [← append_assoc,← length_append]⟩
  rw [take_left,drop_append,drop_eq_nil_of_le (by omega),nil_append,
    Nat.add_sub_cancel_left,drop_left]

lemma take_append_drop_insort (hl : l.Pairwise (· ≤ ·)) (hpe : p ≤ e) :
    (insort (insort l p) e).take (bisectLeft l p+1) ++
        (insort (insort l p) e).drop (bisectLeft (insort l p) e) = splice l p e ∧
      ((insort (insort l p) e).take (bisectLeft (insort l p) e)).drop (bisectLeft l p+1) =
        between l p e := by
  rcases hpe.eq_or_lt with rfl | hpe
  · have hm : p ∈ insort l p := (mem_insort hl).mpr (.inl rfl)
    have hlf : bisectLeft (insort l p) p = bisectLeft l p := by
      rw [bisectLeft_eq (insort_sorted hl p),bisectLeft_eq hl,insort_eq hl,filter_append,
        filter_cons_of_neg (by simp),filter_erase,if_neg (by simp),filter_filter,
        filter_filter]
      simp
    rw [insort_of_mem (insort_sorted hl p) hm,hlf,between_self,bisectLeft_eq hl,insort_eq hl,
      splice]
    generalize l.filter (· < p) = low
    simp [take_append,take_of_length_le (Nat.le_succ low.length)]
  · obtain ⟨hi,hr⟩ := insort_insort hl hpe
    rw [hi,hr,bisectLeft_eq hl,splice]
    simpa using take_append_drop_middle (l.filter (· < p) ++ [p]) (between l p e)
      (e :: (l.filter (e ≤ ·)).erase e)

lemma splice_sorted (hl : l.Pairwise (· ≤ ·)) (hpe : p ≤ e) : (splice l p e).Pairwise (· ≤ ·) := by
  have hup : ∀ b ∈ (l.filter (e ≤ ·)).erase e, e ≤ b := fun b hb => by
    simpa using (mem_filter.mp (mem_of_mem_erase hb)).2
  have hs : (e :: (l.filter (e ≤ ·)).erase e).Pairwise (· ≤ ·) :=
    pairwise_cons.mpr ⟨hup,(hl.filter _).sublist erase_sublist⟩
  have hge : ∀ b ∈ e :: (l.filter (e ≤ ·)).erase e, p ≤ b := by
    intro b hb
    rcases mem_cons.mp hb with rfl | hb
    · exact hpe
    · exact hpe.trans (hup b hb)
  refine pairwise_append.mpr
    ⟨hl.filter _,pairwise_cons.mpr ⟨hge,hs⟩,fun a ha b hb => ?_⟩
  have hap : a < p := by simpa using (mem_filter.mp ha).2
  rcases mem_cons.mp hb with rfl | hb
  · exact hap.le
  · exact hap.le.trans (hge b hb)

lemma mem_splice {q : K} : q ∈ splice l p e ↔ q = p ∨ q = e ∨ q ∈ l ∧ (q < p ∨ e < q) := by
  by_cases hqe : q = e
  · simp [splice,hqe]
  · have hle : e ≤ q ↔ e < q := ⟨fun h => lt_of_le_of_ne h (Ne.symm hqe),le_of_lt⟩
    simp only [splice,mem_append,mem_cons,mem_erase_of_ne hqe,mem_filter,decide_eq_true_eq,hqe,hle]
    tauto

end

variable (hl : l.Pairwise (· ≤ ·))
include hl

lemma get_bisectRight {x : K} (hx : ∃ q ∈ l, q ≤ x) :
    ∃ g, 0 < bisectRight l x ∧ l[bisectRight l x-1]? = some g ∧ g ∈ l ∧ g ≤ x ∧
      ∀ q ∈ l, q ≤ x → q ≤ g := by
  obtain ⟨q,hq,hqx⟩ := hx
  have hne : l.filter (· ≤ x) ≠ [] := by
    refine ne_nil_of_mem (mem_filter.mpr ⟨hq,?_⟩)
    simpa using hqx
  have hp := length_pos_iff.mpr hne
  have hg : l[(l.filter (· ≤ x)).length-1]? = some ((l.filter (· ≤ x)).getLast hne) := by
    have h := congrArg (·[(l.filter (· ≤ x)).length-1]?) (filter_le_append hl x)
    rw [← h,getElem?_append_left (by omega),← getLast?_eq_getElem?,getLast?_eq_some_getLast hne]
  have hla := mem_filter.mp (getLast_mem hne)
  refine ⟨_,by rwa [bisectRight_eq hl],by rw [bisectRight_eq hl,hg],hla.1,
    by simpa using hla.2,fun q hq hqx => ?_⟩
  have hm : q ∈ l.filter (· ≤ x) := mem_filter.mpr ⟨hq,by simpa using hqx⟩
  have hs := hl.filter (· ≤ x)
  rw [← dropLast_append_getLast hne] at hm hs
  rcases mem_append.mp hm with hm | hm
  · exact (pairwise_append.mp hs).2.2 q hm _ mem_cons_self
  · exact (mem_singleton.mp hm).le

lemma lt_of_get_bisectRight {x n : K} (h : l[bisectRight l x]? = some n) : x < n := by
  have hs := congrArg (·[bisectRight l x]?) (filter_le_append hl x)
  rw [← hs,bisectRight_eq hl,getElem?_append_right (le_refl _)] at h
  simpa using (mem_filter.mp (mem_of_getElem? h)).2

lemma le_of_get_bisectRight {x n q : K}
    (h : l[bisectRight l x]? = some n) (hq : q ∈ l) (hxq : x < q) : n ≤ q := by
  have hsp := congrArg (·[bisectRight l x]?) (filter_le_append hl x)
  rw [← hsp,bisectRight_eq hl,getElem?_append_right (Nat.le_refl _),Nat.sub_self] at h
  have hm : q ∈ l.filter (x < ·) := mem_filter.mpr ⟨hq,by simpa using hxq⟩
  cases hr : l.filter (x < ·) with
  | nil => simp [hr] at hm
  | cons m rest =>
    have hs := hl.filter (x < ·)
    rw [hr] at h hm hs
    obtain rfl : m = n := by simpa using h
    rcases mem_cons.mp hm with rfl | hm
    · exact le_rfl
    · exact (pairwise_cons.mp hs).1 q hm

lemma le_of_length_le_bisectRight {x q : K}
    (h : l.length ≤ bisectRight l x) (hq : q ∈ l) : q ≤ x := by
  by_contra hlt
  have hm : q ∈ l.filter (x < ·) := mem_filter.mpr ⟨hq,by simpa using hlt⟩
  have hln := congrArg length (filter_le_append hl x)
  have hp := length_pos_of_mem hm
  rw [bisectRight_eq hl] at h
  rw [length_append] at hln
  omega

end Bisect
