import Aff4.Lib.Transition

/-! Processes that take turns on one state. Where each of them acts as it would alone, the
order of the turns does not matter. -/

namespace Transition

variable {S T E F ι L : Type}

variable {α β : Type} {r : α → β → Prop} {x : Option α} {y : Option β} (h : Option.Rel r x y)

variable {γ δ : Type} {step : S → E → Option S} {s : S} {es fs : List E}

include h in
lemma rel_bind {q : γ → δ → Prop} {f : α → Option γ} {g : β → Option δ}
    (hf : ∀ a b, r a b → Option.Rel q (f a) (g b)) : Option.Rel q (x.bind f) (y.bind g) := by
  cases h with
  | none => exact .none
  | some hab => exact hf _ _ hab

include h in
lemma rel_map {q : γ → δ → Prop} {f : α → γ} {g : β → δ}
    (hf : ∀ a b, x = some a → r a b → q (f a) (g b)) : Option.Rel q (x.map f) (y.map g) := by
  cases h with
  | none => exact .none
  | some hab => exact .some (hf _ _ rfl hab)

include h in
lemma rel_map_left {q : γ → β → Prop} {f : α → γ}
    (hf : ∀ a b, x = some a → r a b → q (f a) b) : Option.Rel q (x.map f) y := by
  have := rel_map (g := fun b => b) h hf
  rwa [Option.map_id'] at this

include h in
lemma rel_map_right {q : α → δ → Prop} {g : β → δ}
    (hg : ∀ a b, x = some a → r a b → q a (g b)) : Option.Rel q x (y.map g) := by
  have := rel_map (f := fun a => a) h hg
  rwa [Option.map_id'] at this

include h in
lemma rel_mono {q : α → β → Prop} (hq : ∀ a b, x = some a → r a b → q a b) : Option.Rel q x y := by
  have := rel_map_right (g := fun b => b) h hq
  rwa [Option.map_id'] at this

lemma rel_some_left {α β : Type} {r : α → β → Prop} {a : α} {y : Option β}
    (h : Option.Rel r (some a) y) : ∃ b, y = some b ∧ r a b := by
  cases h with
  | some hab => exact ⟨_,rfl,hab⟩

lemma rel_some_right {α β : Type} {r : α → β → Prop} {x : Option α} {b : β}
    (h : Option.Rel r x (some b)) : ∃ a, x = some a ∧ r a b := by
  cases h with
  | some hab => exact ⟨_,rfl,hab⟩

lemma run_rel {spec : T → F → Option T} {R : S → T → Prop} {f : E → F}
    (hs : ∀ s t e, R s t → Option.Rel R (step s e) (spec t (f e))) {t : T}
    (h : R s t) (es : List E) : Option.Rel R (run step s es) (run spec t (es.map f)) := by
  induction es generalizing s t with
  | nil => exact .some h
  | cons e es ih => exact rel_bind (hs s t e h) fun s' t' hr => ih hr

lemma run_perm
    (hc : ∀ s d e, ((step s d).bind fun t => step t e) = (step s e).bind fun t => step t d)
    (h : es.Perm fs) (s : S) : run step s es = run step s fs := by
  induction h generalizing s with
  | nil => rfl
  | cons e _ ih => simp only [run,ih]
  | swap d e es =>
    simp only [run,← Option.bind_assoc]
    rw [hc]
  | trans _ _ ih ih' => rw [ih,ih']

variable [DecidableEq ι] {move : ι → L → Option L}

/-- Every process has a state of its own, and only the one whose turn it is moves. -/
def turn (move : ι → L → Option L) (states : ι → L) (i : ι) : Option (ι → L) :=
  (move i (states i)).map (Function.update states i)

lemma turn_comm (states : ι → L) (i j : ι) : ((turn move states i).bind fun t => turn move t j) =
      (turn move states j).bind fun t => turn move t i := by
  by_cases hij : i = j
  · rw [hij]
  · cases hi : move i (states i) <;> cases hj : move j (states j) <;>
      simp [turn,hi,hj,hij,Ne.symm hij,Function.update_comm hij]

/-- A system that behaves like processes with states of their own comes to the same end in
whatever order they take their turns. -/
lemma run_interleaved {R : S → (ι → L) → Prop} {f : E → ι}
    (hs : ∀ s states e, R s states → Option.Rel R (step s e) (turn move states (f e)))
    {states : ι → L} (h : R s states) (hp : (es.map f).Perm (fs.map f)) :
    Option.Rel (fun t u => ∃ states', R t states' ∧ R u states') (run step s es)
      (run step s fs) := by
  have hes := run_rel hs h es
  have hfs := run_rel hs h fs
  rw [run_perm turn_comm hp] at hes
  generalize run (turn move) states (fs.map f) = last at hes hfs
  generalize run step s es = t at hes ⊢
  generalize run step s fs = u at hfs ⊢
  cases hes with
  | none =>
    cases hfs
    exact .none
  | some ht =>
    cases hfs with
    | some hu => exact .some ⟨_,ht,hu⟩

end Transition
