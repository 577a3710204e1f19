import Mathlib.Data.List.Induction

/-! Runs of a system given by a partial step function. A step that is not
enabled, or whose behaviour is undefined, has no successor. -/

namespace Transition

open List Option

variable {S E : Type}

def run (step : S → E → Option S) : S → List E → Option S
  | s, [] => some s
  | s, e :: es => (step s e).bind fun t => run step t es

/-- Every step of the run satisfies `P` in the state it is taken from. -/
def Along (step : S → E → Option S) (P : S → E → Prop) : S → List E → Prop
  | _, [] => True
  | s, e :: es => P s e ∧ ∀ t, step s e = some t → Along step P t es

instance Along.decidable {step : S → E → Option S} {P : S → E → Prop}
    [∀ s e, Decidable (P s e)] : (s : S) → (es : List E) → Decidable (Along step P s es)
  | _, [] => isTrue trivial
  | s, e :: es =>
    have : ∀ t, Decidable (Along step P t es) := fun t => Along.decidable t es
    inferInstanceAs (Decidable (P s e ∧ ∀ t ∈ step s e, Along step P t es))

variable {step : S → E → Option S}

lemma along_of_forall {P : S → E → Prop} (h : ∀ s e, P s e) (s : S) (es : List E) :
    Along step P s es := by
  induction es generalizing s with
  | nil => trivial
  | cons e es ih => exact ⟨h s e,fun t _ => ih t⟩

lemma Along.imp {P Q : S → E → Prop} (hi : ∀ s e, P s e → Q s e) {s : S} {es : List E}
    (h : Along step P s es) : Along step Q s es := by
  induction es generalizing s with
  | nil => trivial
  | cons e es ih => exact ⟨hi s e h.1,fun t ht => ih (h.2 t ht)⟩

lemma run_cons {s u : S} {e : E} {es : List E} (h : run step s (e :: es) = some u) :
    ∃ t, step s e = some t ∧ run step t es = some u := by simpa [run,bind_eq_some_iff] using h

lemma run_append {s u : S} {es fs : List E} (h : run step s (es ++ fs) = some u) :
    ∃ t, run step s es = some t ∧ run step t fs = some u := by
  induction es generalizing s with
  | nil => exact ⟨s,rfl,h⟩
  | cons e es ih =>
    obtain ⟨v,hv,hr⟩ := run_cons h
    obtain ⟨t,ht,hu⟩ := ih hr
    exact ⟨t,by simp [run,hv,ht],hu⟩

lemma run_snoc (s : S) (es : List E) (e : E) :
    run step s (es ++ [e]) = (run step s es).bind fun t => step t e := by
  induction es generalizing s with
  | nil => simp [run]
  | cons f es ih => simp [run,ih,bind_assoc]

/-- When a run has a result, by its last step: `I` says what is true after the events so far,
`P` what is known of each event, and `C` is the condition on them all. -/
lemma run_returns_iff {P : E → Prop} {I : List E → S → Prop} {C : List E → Prop} {s : S}
    (hst : I [] s) (hn : C []) (hi : ∀ es e, C (es ++ [e]) → C es)
    (hs : ∀ es e t, P e → I es t → C es → ((∃ u, step t e = some u) ↔ C (es ++ [e])))
    (hk : ∀ es e t u, P e → I es t → step t e = some u → I (es ++ [e]) u)
    {es : List E} (hp : ∀ e ∈ es, P e) :
    ((∃ t, run step s es = some t) ↔ C es) ∧ ∀ t, run step s es = some t → I es t := by
  induction es using reverseRecOn with
  | nil =>
    refine ⟨iff_of_true ⟨s,rfl⟩ hn,fun t ht => ?_⟩
    exact some.inj ht ▸ hst
  | append_singleton es e ih =>
    obtain ⟨hif,hin⟩ := ih fun e he => hp e (mem_append_left _ he)
    have he := hp e (mem_append_right _ mem_cons_self)
    simp only [run_snoc,bind_eq_some_iff]
    refine ⟨⟨?_,fun hc => ?_⟩,?_⟩
    · rintro ⟨u,t,ht,hu⟩
      exact (hs es e t he (hin t ht) (hif.mp ⟨t,ht⟩)).mp ⟨u,hu⟩
    · obtain ⟨t,ht⟩ := hif.mpr (hi es e hc)
      obtain ⟨u,hu⟩ := (hs es e t he (hin t ht) (hi es e hc)).mpr hc
      exact ⟨u,t,ht,hu⟩
    · rintro u ⟨t,ht,hu⟩
      exact hk es e t u he (hin t ht) hu

/-- Every part of a run up to some event has a result that is `G` for the events so far,
exactly when every step meets `C` in the state it is taken from. -/
lemma prefixes_iff {P : List E → E → Prop} {I G : List E → S → Prop}
    {C : List E → S → E → Prop} {s : S} (hst : I [] s) (hgd : G [] s)
    (hk : ∀ es e t u, P es e → I es t → step t e = some u → I (es ++ [e]) u)
    (hs : ∀ es e t, P es e → I es t → G es t →
      ((∃ u, step t e = some u ∧ G (es ++ [e]) u) ↔ C es t e))
    {es : List E} (hp : ∀ front e, front ++ [e] <+: es → P front e) :
    (∀ front, front <+: es → ∃ t, run step s front = some t ∧ G front t) ↔
      ∀ front e, front ++ [e] <+: es → ∀ t, run step s front = some t → C front t e := by
  have hi : ∀ front : List E, front <+: es → ∀ t, run step s front = some t → I front t := by
    intro front
    induction front using reverseRecOn with
    | nil =>
      intro _ t ht
      exact some.inj ht ▸ hst
    | append_singleton front e ih =>
      intro hf u hu
      rw [run_snoc,bind_eq_some_iff] at hu
      obtain ⟨t,ht,hu⟩ := hu
      exact hk front e t u (hp front e hf)
        (ih ((prefix_append _ _).trans hf) t ht) hu
  constructor
  · intro h front e hfe t ht
    have hf : front <+: es := (prefix_append _ _).trans hfe
    obtain ⟨t',ht',hg⟩ := h front hf
    rw [ht,some.injEq] at ht'
    subst ht'
    obtain ⟨u,hu,hgu⟩ := h _ hfe
    rw [run_snoc,ht,bind_some] at hu
    exact (hs front e t (hp front e hfe) (hi front hf t ht) hg).mp ⟨u,hu,hgu⟩
  · intro h front hf
    induction front using reverseRecOn with
    | nil => exact ⟨s,rfl,hgd⟩
    | append_singleton front e ih =>
      have hpr : front <+: es := (prefix_append _ _).trans hf
      obtain ⟨t,ht,hg⟩ := ih hpr
      obtain ⟨u,hu,hgu⟩ := (hs front e t (hp front e hf) (hi front hpr t ht) hg).mpr
        (h front e hf t ht)
      exact ⟨u,by rw [run_snoc,ht,bind_some,hu],hgu⟩

lemma run_invariant {I : S → Prop} (hs : ∀ s e t, I s → step s e = some t → I t)
    {s t : S} {es : List E} (h : run step s es = some t) (hi : I s) : I t := by
  induction es generalizing s with
  | nil =>
    simp only [run,some.injEq] at h
    exact h ▸ hi
  | cons e es ih =>
    obtain ⟨u,hu,hr⟩ := run_cons h
    exact ih hr (hs s e u hi hu)

lemma run_total {I : S → Prop} {P : E → Prop}
    (hs : ∀ s e, P e → I s → ∃ t, step s e = some t ∧ I t) {s : S} {es : List E}
    (hp : ∀ e ∈ es, P e) (hi : I s) : ∃ t, run step s es = some t ∧ I t := by
  induction es generalizing s with
  | nil => exact ⟨s,rfl,hi⟩
  | cons e es ih =>
    obtain ⟨u,hu,hiu⟩ := hs s e (hp e mem_cons_self) hi
    obtain ⟨t,ht,hit⟩ := ih (fun e he => hp e (mem_cons_of_mem _ he)) hiu
    exact ⟨t,by rw [run,hu,bind_some,ht],hit⟩

lemma run_invariant_along {I : S → Prop} {P : S → E → Prop}
    (hs : ∀ s e t, I s → P s e → step s e = some t → I t)
    {s t : S} {es : List E} (h : run step s es = some t)
    (hp : Along step P s es) (hi : I s) : I t := by
  induction es generalizing s with
  | nil =>
    simp only [run,some.injEq] at h
    exact h ▸ hi
  | cons e es ih =>
    obtain ⟨u,hu,hr⟩ := run_cons h
    exact ih hr (hp.2 u hu) (hs s e u hi hp.1 hu)

/-- A run has a result exactly when every step meets `C` in the state it is taken from. -/
lemma run_returns_along {I : S → Prop} {P : E → Prop} {C : S → E → Prop}
    (hs : ∀ s e, P e → I s → ((∃ t, step s e = some t) ↔ C s e))
    (hk : ∀ s e t, P e → I s → step s e = some t → I t) {s : S} {es : List E}
    (hp : ∀ e ∈ es, P e) (hi : I s) :
    ((∃ t, run step s es = some t) ↔ Along step C s es) ∧ ∀ t, run step s es = some t → I t := by
  induction es generalizing s with
  | nil => exact ⟨iff_of_true ⟨s,rfl⟩ trivial,fun t ht => some.inj ht ▸ hi⟩
  | cons e es ih =>
    have he := hp e mem_cons_self
    rw [run,Along,← hs s e he hi]
    cases hu : step s e with
    | none => simp
    | some u =>
      obtain ⟨hif,hin⟩ := ih (fun e he => hp e (mem_cons_of_mem _ he)) (hk s e u he hi hu)
      simp only [bind_some,some.injEq,exists_eq',true_and,forall_eq']
      exact ⟨hif,hin⟩

/-- A run goes the same way after a change of the states and events that its steps commute with. -/
lemma run_map {T F : Type} {step' : T → F → Option T} {f : S → T} {g : E → F} {I : S → Prop}
    {C : S → E → Prop} (hs : ∀ s e, I s → C s e → step' (f s) (g e) = (step s e).map f)
    (hk : ∀ s e t, I s → step s e = some t → I t) {s : S} {es : List E} (hi : I s)
    (hc : Along step C s es) : run step' (f s) (es.map g) = (run step s es).map f := by
  induction es generalizing s with
  | nil => rfl
  | cons e es ih =>
    rw [map_cons,run,run,hs s e hi hc.1]
    cases ht : step s e with
    | none => rfl
    | some t =>
      rw [map_some,bind_some,bind_some]
      exact ih (hk s e t hi ht) (hc.2 t ht)

/-- A run that does not satisfy `P` all along reaches a state in which a step
violating `P` is taken. -/
lemma exists_step_of_not_along {P : S → E → Prop} {s t : S} {es : List E}
    (h : run step s es = some t) (hp : ¬ Along step P s es) :
    ∃ (before after : List E) (e : E) (u v : S), run step s before = some u ∧
      ¬ P u e ∧ step u e = some v ∧ run step v after = some t := by
  induction es generalizing s with
  | nil => simp [Along] at hp
  | cons e es ih =>
    obtain ⟨u,hu,hr⟩ := run_cons h
    by_cases hpe : P s e
    · have hn : ¬ Along step P u es := by
        intro ha
        refine hp ⟨hpe,fun w hw => ?_⟩
        rw [hu,some.injEq] at hw
        exact hw ▸ ha
      obtain ⟨before,after,e',u',v',hb,hbd,hs,haf⟩ := ih hr hn
      exact ⟨e :: before,after,e',u',v',by simp [run,hu,hb],hbd,hs,haf⟩
    · exact ⟨[],es,e,s,u,rfl,hpe,hu,hr⟩

/-- `G` holds in every state of a run exactly when every step meets `P` in the state it is
taken from. -/
lemma always_iff {I G : S → Prop} {P : S → E → Prop}
    (hk : ∀ s e t, I s → step s e = some t → I t)
    (hs : ∀ s e t, I s → G s → step s e = some t → (G t ↔ P s e))
    (hn : ∀ s e, step s e = none → P s e) {s : S} {es : List E} (hi : I s) (hg : G s) :
    (∀ front, front <+: es → ∀ t, run step s front = some t → G t) ↔ Along step P s es := by
  induction es generalizing s with
  | nil =>
    refine iff_of_true (fun front hf t ht => ?_) trivial
    obtain rfl := prefix_nil.mp hf
    exact some.inj ht ▸ hg
  | cons e es ih =>
    constructor
    · intro h
      have hrn : ∀ t, step s e = some t → G t := by
        intro t ht
        exact h [e] (prefix_append [e] es) t (by simp [run,ht])
      refine ⟨?_,fun t ht => ?_⟩
      · cases ht : step s e with
        | none => exact hn s e ht
        | some t => exact (hs s e t hi hg ht).mp (hrn t ht)
      · refine (ih (hk s e t hi ht) (hrn t ht)).mp fun front hf u hu => ?_
        exact h (e :: front) (cons_prefix_cons.mpr ⟨rfl,hf⟩) u (by simp [run,ht,hu])
    · rintro ⟨hp,hrs⟩ front hf u hu
      cases front with
      | nil => exact some.inj hu ▸ hg
      | cons f front =>
        obtain ⟨rfl,hr⟩ := cons_prefix_cons.mp hf
        obtain ⟨t,ht,hu⟩ := run_cons hu
        have hgt := (hs s f t hi hg ht).mpr hp
        exact (ih (hk s f t hi ht) hgt).mpr (hrs t ht) front hr u hu

variable {O A : Type}

def trace (step : S → E → Option (O × S)) : S → List E → Option (List O × S)
  | s, [] => some ([],s)
  | s, e :: es => (step s e).bind fun r => (trace step r.2 es).map fun q => (r.1 :: q.1,q.2)

def post (step : S → E → Option (O × S)) (s : S) (e : E) : Option S := (step s e).map Prod.snd

lemma trace_cons {step : S → E → Option (O × S)} {s u : S} {e : E} {es : List E}
    {os : List O} (h : trace step s (e :: es) = some (os,u)) :
    ∃ o t os', step s e = some (o,t) ∧ trace step t es = some (os',u) ∧ os = o :: os' := by
  simp only [trace,bind_eq_some_iff,map_eq_some_iff,Prod.mk.injEq] at h
  obtain ⟨⟨o,t⟩,hs,⟨os',u'⟩,hr,ho,hu⟩ := h
  exact ⟨o,t,os',hs,hu ▸ hr,ho.symm⟩

lemma trace_invariant {step : S → E → Option (O × S)} {I : S → Prop}
    (hst : ∀ s e o t, I s → step s e = some (o,t) → I t) {s u : S} {es : List E} {os : List O}
    (hs : I s) (h : trace step s es = some (os,u)) : I u := by
  induction es generalizing s os with
  | nil => exact (Prod.mk.inj (some.inj h)).2 ▸ hs
  | cons e es ih =>
    obtain ⟨o,t,os',ht,hr,-⟩ := trace_cons h
    exact ih (hst s e o t hs ht) hr

section

variable {step : S → E → Option (O × S)} {spec : A → E → Option (O × A)} {R : S → A → Prop}
  {Bad : A → E → Prop}
  (hgd : ∀ s a e o b, R s a → spec a e = some (o,b) → ¬ Bad a e → ∃ t, step s e = some (o,t) ∧ R t b)
include hgd

/-- Runs of an implementation and of its specification give the same outputs
exactly when no step of the specification's run is one of the `Bad` ones, if a
bad step does not give the output of the specification and every other step is simulated. -/
lemma trace_agrees_iff
    (hbd : ∀ s a e o b t, R s a → spec a e = some (o,b) → Bad a e → step s e ≠ some (o,t))
    {s : S} {a b : A} {es : List E} {os : List O} (hr : R s a) (h : trace spec a es = some (os,b)) :
    (∃ t, trace step s es = some (os,t)) ↔ Along (post spec) (fun a e => ¬ Bad a e) a es := by
  induction es generalizing s a os with
  | nil =>
    simp only [trace,some.injEq,Prod.mk.injEq] at h
    exact ⟨fun _ => trivial,fun _ => ⟨s,by rw [trace,h.1]⟩⟩
  | cons e es ih =>
    obtain ⟨o,a',os',hsp,hrs,rfl⟩ := trace_cons h
    have hp : post spec a e = some a' := by simp [post,hsp]
    by_cases hb : Bad a e
    · constructor
      · rintro ⟨u,hu⟩
        obtain ⟨o₂,t₂,os₂,hs₂,-,he⟩ := trace_cons hu
        obtain rfl := (cons.inj he).1
        exact absurd hs₂ (hbd s a e o a' t₂ hr hsp hb)
      · intro hal
        exact absurd hb hal.1
    · obtain ⟨t,hs,hr'⟩ := hgd s a e o a' hr hsp hb
      constructor
      · rintro ⟨u,hu⟩
        obtain ⟨o₂,t₂,os₂,hs₂,hrs₂,he⟩ := trace_cons hu
        rw [hs,some.injEq,Prod.mk.injEq] at hs₂
        obtain ⟨rfl,rfl⟩ := hs₂
        obtain rfl : os' = os₂ := (cons.inj he).2
        refine ⟨hb,fun a₂ ha₂ => ?_⟩
        rw [hp,some.injEq] at ha₂
        exact ha₂ ▸ (ih hr' hrs).mp ⟨u,hrs₂⟩
      · intro hal
        obtain ⟨u,hu⟩ := (ih hr' hrs).mpr (hal.2 a' hp)
        exact ⟨u,by simp [trace,hs,hu]⟩

variable (hbd : ∀ s a e o b, R s a → spec a e = some (o,b) → Bad a e → step s e = none)

include hbd

lemma trace_refines_iff {s : S} {a b : A} {es : List E} {os : List O} (hr : R s a)
    (h : trace spec a es = some (os,b)) : (∃ t, trace step s es = some (os,t)) ↔
      Along (post spec) (fun a e => ¬ Bad a e) a es := by
  refine trace_agrees_iff hgd (fun s a e o b t hr hs hb => ?_) hr h
  simp [hbd s a e o b hr hs hb]

lemma trace_related {s t : S} {a b : A} {es : List E} {os os' : List O} (hr : R s a)
    (h : trace spec a es = some (os,b)) (h' : trace step s es = some (os',t)) : R t b := by
  induction es generalizing s a os os' with
  | nil =>
    simp only [trace,some.injEq,Prod.mk.injEq] at h h'
    exact h.2 ▸ h'.2 ▸ hr
  | cons e es ih =>
    obtain ⟨o,a',_,hs,hrs,_⟩ := trace_cons h
    obtain ⟨o',s',_,hst,hrs',_⟩ := trace_cons h'
    by_cases hb : Bad a e
    · simp [hbd s a e o a' hr hs hb] at hst
    · obtain ⟨u,hu,hru⟩ := hgd s a e o a' hr hs hb
      rw [hst,some.injEq,Prod.mk.injEq] at hu
      exact ih (hu.2 ▸ hru) hrs hrs'

end

variable {P : Type}

/-- Beside every run of the specification there is one of the implementation: the states of both
stay related, and every output fits that of the specification. -/
def Mirrors (step : S → E → Option (O × S)) (spec : A → E → Option (P × A))
    (R : S → A → Prop) (Q : O → P → Prop) : S → A → List E → Prop
  | s, a, [] => R s a
  | s, a, e :: es => R s a ∧ ∀ p b, spec a e = some (p,b) →
      ∃ o t, step s e = some (o,t) ∧ Q o p ∧ Mirrors step spec R Q t b es

variable {step : S → E → Option (O × S)} {spec : A → E → Option (P × A)} {R : S → A → Prop}
  {Q : O → P → Prop} {s : S} {a b : A} {es : List E} {ps : List P}

lemma Mirrors.start (h : Mirrors step spec R Q s a es) : R s a := by
  cases es with
  | nil => exact h
  | cons e es => exact h.1

lemma Mirrors.trace (hm : Mirrors step spec R Q s a es) (h : trace spec a es = some (ps,b)) : ∃ os t, trace step s es = some (os,t) := by
  induction es generalizing s a ps with
  | nil => exact ⟨[],s,rfl⟩
  | cons e es ih =>
    obtain ⟨p,a',ps',hs,hr,rfl⟩ := trace_cons h
    obtain ⟨o,t,hst,-,hn⟩ := hm.2 p a' hs
    obtain ⟨os,u,hu⟩ := ih hn hr
    exact ⟨o :: os,u,by simp [Transition.trace,hst,hu]⟩

/-- A run is mirrored exactly when every step of it is one of the `Good` ones, if these are
simulated and no other step leads to a related state. -/
lemma mirrors_iff {Good : S → E → Prop}
    (hgd : ∀ s a e p b, R s a → spec a e = some (p,b) → Good s e →
      ∃ o t, step s e = some (o,t) ∧ Q o p ∧ R t b)
    (hbd : ∀ s a e p b o t, R s a → spec a e = some (p,b) → ¬ Good s e →
      step s e = some (o,t) → ¬ R t b)
    (hr : R s a) (h : trace spec a es = some (ps,b)) :
    Mirrors step spec R Q s a es ↔ Along (post step) Good s es := by
  induction es generalizing s a ps with
  | nil => exact ⟨fun _ => trivial,fun _ => hr⟩
  | cons e es ih =>
    obtain ⟨p,a',ps',hs,hrs,rfl⟩ := trace_cons h
    constructor
    · rintro ⟨-,hm⟩
      obtain ⟨o,t,hst,-,hn⟩ := hm p a' hs
      have hg : Good s e := by
        by_contra hg
        exact hbd s a e p a' o t hr hs hg hst hn.start
      refine ⟨hg,fun u hu => ?_⟩
      simp only [post,hst,map_some,some.injEq] at hu
      exact hu ▸ (ih hn.start hrs).mp hn
    · rintro ⟨hg,ha⟩
      obtain ⟨o,t,hst,hq,hrt⟩ := hgd s a e p a' hr hs hg
      refine ⟨hr,fun p' b' hs' => ?_⟩
      rw [hs,some.injEq,Prod.mk.injEq] at hs'
      obtain ⟨rfl,rfl⟩ := hs'
      exact ⟨o,t,hst,hq,(ih hrt hrs).mpr (ha t (by simp [post,hst]))⟩

end Transition
