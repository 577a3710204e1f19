import Mathlib.Data.List.Sort

/-! Records of three words written with a separator between the words and a
terminator after each record, and for which alphabets they can be read back. -/

namespace Separators

universe u

open List

variable {α : Type u}

abbrev Words (α : Type u) := List α × List α × List α

def line (sep : α) (w : Words α) : List α := w.1 ++ sep :: (w.2.1 ++ sep :: w.2.2)

def spell (sep stop : α) (ws : List (Words α)) : List α := ws.flatMap fun w => line sep w ++ [stop]

def key (w : Words α) : List α := w.1 ++ (w.2.1 ++ w.2.2)

def Over (S P O : Set α) (w : Words α) : Prop :=
  (∀ c ∈ w.1, c ∈ S) ∧ (∀ c ∈ w.2.1, c ∈ P) ∧ ∀ c ∈ w.2.2, c ∈ O

@[simp] lemma spell_nil (sep stop : α) : spell sep stop [] = [] := rfl

@[simp] lemma spell_cons (sep stop : α) (w : Words α) (ws : List (Words α)) :
    spell sep stop (w :: ws) = line sep w ++ stop :: spell sep stop ws := by simp [spell]

lemma line_length (sep : α) (w : Words α) : (line sep w).length = (key w).length+2 := by
  simp only [line,key,length_append,length_cons]
  omega

variable {c : α} {u u' v v' : List α}

lemma split_at (hu : c ∉ u) (hu' : c ∉ u') (h : u ++ c :: v = u' ++ c :: v') : u = u' ∧ v = v' := by
  induction u generalizing u' with
  | nil =>
    cases u' with
    | nil => simpa using h
    | cons d u' =>
      simp only [nil_append,cons_append,cons.injEq] at h
      exact absurd (by simp [h.1]) hu'
  | cons d u ih =>
    cases u' with
    | nil =>
      simp only [nil_append,cons_append,cons.injEq] at h
      exact absurd (by simp [h.1]) hu
    | cons e u' =>
      simp only [cons_append,cons.injEq,mem_cons,not_or] at h hu hu' ⊢
      obtain ⟨hr,ht⟩ := ih hu.2 hu'.2 h.2
      exact ⟨⟨h.1,hr⟩,ht⟩

lemma split_at_last (hv : c ∉ v) (hv' : c ∉ v')
    (h : u ++ c :: v = u' ++ c :: v') : u = u' ∧ v = v' := by
  have hr := congrArg reverse h
  simp only [reverse_append,reverse_cons,append_assoc,singleton_append]
    at hr
  obtain ⟨hs,hf⟩ := split_at (by simpa using hv) (by simpa using hv') hr
  exact ⟨reverse_injective hf,reverse_injective hs⟩

structure Forward (sep stop : α) (S P O : Set α) : Prop where
  subject : sep ∉ S
  object : stop ∉ O
  predicate : sep ∉ P ∨ sep ∉ O ∧ stop ∉ P

section

variable {sep stop : α} {S P O : Set α}

lemma Forward.line_inj (hf : Forward sep stop S P O) (hne : sep ≠ stop) {w w' : Words α}
    (hw : Over S P O w) (hw' : Over S P O w') {rest rest' : List α}
    (h : line sep w ++ stop :: rest = line sep w' ++ stop :: rest') : w = w' ∧ rest = rest' := by
  obtain ⟨s,p,o⟩ := w
  obtain ⟨s',p',o'⟩ := w'
  obtain ⟨hs,hp,ho⟩ := hw
  obtain ⟨hs',hp',ho'⟩ := hw'
  simp only [line,append_assoc,cons_append] at h
  obtain ⟨rfl,hpo⟩ := split_at (fun hc => hf.subject (hs _ hc)) (fun hc => hf.subject (hs' _ hc)) h
  have hst : stop ∉ o := fun hc => hf.object (ho _ hc)
  have hst' : stop ∉ o' := fun hc => hf.object (ho' _ hc)
  rcases hf.predicate with hsp | ⟨hsp,hcm⟩
  · obtain ⟨rfl,hrs⟩ := split_at (fun hc => hsp (hp _ hc)) (fun hc => hsp (hp' _ hc)) hpo
    obtain ⟨rfl,rfl⟩ := split_at hst hst' hrs
    exact ⟨rfl,rfl⟩
  · have hfr {q r : List α} (hq : ∀ c ∈ q, c ∈ P) (hr : stop ∉ r) : stop ∉ q ++ sep :: r := by
      simp only [mem_append,mem_cons,not_or]
      exact ⟨fun hc => hcm (hq _ hc),hne.symm,hr⟩
    obtain ⟨hwd,rfl⟩ := split_at (hfr hp hst) (hfr hp' hst') (by simpa using hpo)
    obtain ⟨rfl,rfl⟩ := split_at_last (fun hc => hsp (ho _ hc)) (fun hc => hsp (ho' _ hc)) hwd
    exact ⟨rfl,rfl⟩

lemma Forward.spell_inj (hf : Forward sep stop S P O) (hne : sep ≠ stop)
    {ws ws' : List (Words α)} (hw : ∀ w ∈ ws, Over S P O w) (hw' : ∀ w ∈ ws', Over S P O w)
    (h : spell sep stop ws = spell sep stop ws') : ws = ws' := by
  induction ws generalizing ws' with
  | nil =>
    cases ws' with
    | nil => rfl
    | cons w' ws' => simp [line] at h
  | cons w ws ih =>
    cases ws' with
    | nil => simp [line] at h
    | cons w' ws' =>
      rw [spell_cons,spell_cons] at h
      obtain ⟨rfl,hr⟩ := hf.line_inj hne (hw _ (by simp)) (hw' _ (by simp)) h
      rw [ih (fun w hw₀ => hw w (by simp [hw₀])) (fun w hw₀ => hw' w (by simp [hw₀])) hr]

end

def mirror (w : Words α) : Words α := (w.2.2.reverse,w.2.1.reverse,w.1.reverse)

lemma line_mirror (sep : α) (w : Words α) : line sep (mirror w) = (line sep w).reverse := by
  simp [line,mirror]

lemma mirror_injective : Function.Injective (mirror : Words α → Words α) := by
  intro w w' h
  simp only [mirror,Prod.mk.injEq,reverse_inj] at h
  exact Prod.ext h.2.2 (Prod.ext h.2.1 h.1)

lemma Over.mirror {S P O : Set α} {w : Words α} (h : Over S P O w) : Over O P S (mirror w) := by
  simp only [Over,Separators.mirror,mem_reverse]
  exact ⟨h.2.2,h.2.1,h.1⟩

lemma spell_mirror (sep stop : α) (ws : List (Words α)) :
    stop :: spell sep stop (ws.map mirror).reverse = (spell sep stop ws).reverse ++ [stop] := by
  induction ws with
  | nil => rfl
  | cons w ws ih =>
    have ha (us : List (Words α)) (w : Words α) :
        spell sep stop (us ++ [w]) = spell sep stop us ++ (line sep w ++ [stop]) := by simp [spell]
    rw [map_cons,reverse_cons,ha,← cons_append,ih,line_mirror]
    simp

/-- At most one word may hold the separator, no word both the separator and the
terminator, and the first and the last word not both the terminator. -/
structure Separated (sep stop : α) (S P O : Set α) : Prop where
  subject_predicate : ¬ (sep ∈ S ∧ sep ∈ P)
  subject_object : ¬ (sep ∈ S ∧ sep ∈ O)
  predicate_object : ¬ (sep ∈ P ∧ sep ∈ O)
  subject : ¬ (sep ∈ S ∧ stop ∈ S)
  predicate : ¬ (sep ∈ P ∧ stop ∈ P)
  object : ¬ (sep ∈ O ∧ stop ∈ O)
  ends : ¬ (stop ∈ S ∧ stop ∈ O)

variable {sep stop : α} {S P O : Set α}

lemma Separated.direction (h : Separated sep stop S P O) :
    Forward sep stop S P O ∨ Forward sep stop O P S := by
  by_cases hS : sep ∈ S
  · exact .inr ⟨fun hO => h.subject_object ⟨hS,hO⟩,fun hc => h.subject ⟨hS,hc⟩,
      .inl fun hP => h.subject_predicate ⟨hS,hP⟩⟩
  by_cases hc : stop ∈ O
  · have hO : sep ∉ O := fun hO => h.object ⟨hO,hc⟩
    refine .inr ⟨hO,fun hc' => h.ends ⟨hc',hc⟩,?_⟩
    by_cases hP : sep ∈ P
    · exact .inr ⟨hS,fun hc' => h.predicate ⟨hP,hc'⟩⟩
    · exact .inl hP
  · refine .inl ⟨hS,hc,?_⟩
    by_cases hP : sep ∈ P
    · exact .inr ⟨fun hO => h.predicate_object ⟨hP,hO⟩,fun hc' => h.predicate ⟨hP,hc'⟩⟩
    · exact .inl hP

lemma Separated.spell_inj (h : Separated sep stop S P O) (hne : sep ≠ stop)
    {ws ws' : List (Words α)} (hw : ∀ w ∈ ws, Over S P O w) (hw' : ∀ w ∈ ws', Over S P O w)
    (heq : spell sep stop ws = spell sep stop ws') : ws = ws' := by
  rcases h.direction with hf | hf
  · exact hf.spell_inj hne hw hw' heq
  · have hm : spell sep stop (ws.map mirror).reverse = spell sep stop (ws'.map mirror).reverse := by
      have hc := (spell_mirror sep stop ws).trans (heq ▸ (spell_mirror sep stop ws').symm)
      exact (cons.inj hc).2
    have ho {us : List (Words α)} (hu : ∀ w ∈ us, Over S P O w) :
        ∀ w ∈ (us.map mirror).reverse, Over O P S w := by
      intro w hw₀
      obtain ⟨w₀,hmm,rfl⟩ := mem_map.mp (mem_reverse.mp hw₀)
      exact (hu w₀ hmm).mirror
    have hwd := hf.spell_inj hne (ho hw) (ho hw') hm
    exact map_injective_iff.mpr mirror_injective (reverse_injective hwd)

/-- Two different collections of records with one text. Both are in the order of
their keys, and the words in the middle are short. -/
structure Collision [LT α] (sep stop : α) (S P O : Set α) (ws ws' : List (Words α)) : Prop where
  admitted : ∀ w ∈ ws ++ ws', Over S P O w ∧ w.2.1.length ≤ 3
  sorted : ws.Pairwise fun w w' => key w ≤ key w'
  sorted' : ws'.Pairwise fun w w' => key w ≤ key w'
  differ : ¬ ws.Perm ws'
  text : spell sep stop ws = spell sep stop ws'

variable [LT α]

lemma Collision.of_single (w : Words α) (ws : List (Words α))
    (hw : Over S P O w ∧ w.2.1.length ≤ 3) (hws : ∀ w' ∈ ws, Over S P O w' ∧ w'.2.1.length ≤ 3)
    (hs : ws.Pairwise fun w w' => key w ≤ key w')
    (hd : [w] ≠ ws) (ht : spell sep stop [w] = spell sep stop ws) :
    Collision sep stop S P O [w] ws where
  admitted := by
    intro w' hw'
    rcases mem_append.mp hw' with hw' | hw'
    · rwa [mem_singleton.mp hw']
    · exact hws w' hw'
  sorted := pairwise_singleton _ _
  sorted' := hs
  differ := fun h => hd (singleton_perm.mp h)
  text := ht

lemma exists_collision [Std.Irrefl fun a b : α => a < b] (h : ¬ Separated sep stop S P O) :
    ∃ ws ws', Collision sep stop S P O ws ws' := by
  have hs (w : Words α) : [w].Pairwise fun w w' => key w ≤ key w' := pairwise_singleton _ _
  have he : [(([],[],[]) : Words α),([],[],[])].Pairwise fun w w' => key w ≤ key w' := by
    simp [key]
  by_contra hn
  have hno (ws ws' : List (Words α)) : ¬ Collision sep stop S P O ws ws' := fun hc => hn ⟨ws,ws',hc⟩
  refine h ⟨?_,?_,?_,?_,?_,?_,?_⟩
  · intro ⟨hS,hP⟩
    exact hno _ _ (.of_single ([sep],[],[]) [([],[sep],[])] (by simpa [Over] using hS)
      (by simpa [Over] using hP) (hs _) (by simp) rfl)
  · intro ⟨hS,hO⟩
    exact hno _ _ (.of_single ([sep],[],[]) [([],[],[sep])] (by simpa [Over] using hS)
      (by simpa [Over] using hO) (hs _) (by simp) rfl)
  · intro ⟨hP,hO⟩
    exact hno _ _ (.of_single ([],[sep],[]) [([],[],[sep])] (by simpa [Over] using hP)
      (by simpa [Over] using hO) (hs _) (by simp) rfl)
  · intro ⟨hS,hc⟩
    exact hno _ _ (.of_single ([sep,sep,stop],[],[]) [([],[],[]),([],[],[])]
      (by simp [Over,hS,hc]) (by simp [Over]) he (by simp) rfl)
  · intro ⟨hP,hc⟩
    exact hno _ _ (.of_single ([],[sep,stop,sep],[]) [([],[],[]),([],[],[])]
      (by simp [Over,hP,hc]) (by simp [Over]) he (by simp) rfl)
  · intro ⟨hO,hc⟩
    exact hno _ _ (.of_single ([],[],[stop,sep,sep]) [([],[],[]),([],[],[])]
      (by simp [Over,hO,hc]) (by simp [Over]) he (by simp) rfl)
  · intro ⟨hS,hO⟩
    refine hno [([],[],[stop]),([stop],[],[])] [([],[],[]),([stop,stop],[],[])]
      ⟨by simp [Over,hS,hO],by simp [key],by simp [key],?_,rfl⟩
    intro hp
    have hm : (([],[],[]) : Words α) ∈ [([],[],[stop]),([stop],[],[])] := hp.mem_iff.mpr (by simp)
    simp at hm

end Separators
