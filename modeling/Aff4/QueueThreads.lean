import Mathlib.Algebra.GroupWithZero.Nat
import Aff4.Queue

/-! Any number of threads that call `get` and `put` on one queue. A step is what a thread does until
it gives up the global lock. -/

namespace Aff4

open List Option

/-- Where a thread waits on a condition. The data of a put may be NULL, which is `none`. -/
inductive QueueWait (α : Type) where
  | outside
  | notEmpty
  | notFull (data : Option α)
  deriving DecidableEq, Repr

/-- The last three fields are history: the data whose put returned 1 and the data that was taken
out, in the order of the critical sections, and all that `get` returned. -/
structure QueueThreads (ι α : Type) where
  queue : Queue (Option α)
  waits : ι → QueueWait α
  accepted : List (Option α)
  taken : List (Option α)
  results : List (Option α)

namespace QueueThreads

variable {ι α : Type}

def con (maxsize : Nat) : QueueThreads ι α := ⟨.con maxsize,fun _ => .outside,[],[],[]⟩

/-- A wait that is signalled or ends spuriously returns 0; one that times out, or cannot begin,
does not. -/
inductive Event (α : Type) where
  | get
  | put (data : Option α)
  | signalled
  | timedOut
  deriving DecidableEq, Repr

variable [DecidableEq ι]

def waitAt (self : QueueThreads ι α) (i : ι) (wait : QueueWait α) : QueueThreads ι α :=
  {self with waits := Function.update self.waits i wait}

def tryGet (self : QueueThreads ι α) (i : ι) : Option (QueueThreads ι α) :=
  self.queue.get.map fun
    | (none,_) => self.waitAt i .notEmpty
    | (some data,queue) => {self.waitAt i .outside with
        queue := queue
        taken := self.taken ++ [data]
        results := self.results ++ [data]}

def insert (self : QueueThreads ι α) (i : ι) (data : Option α) : QueueThreads ι α :=
  {self.waitAt i .outside with
    queue := self.queue.put data
    accepted := self.accepted ++ [data]}

def step (self : QueueThreads ι α) : ι × Event α → Option (QueueThreads ι α)
  | (i,.get) => if self.waits i matches .outside then self.tryGet i else none
  | (i,.put data) =>
      if self.waits i matches .outside then
        some (if self.queue.full then self.waitAt i (.notFull data) else self.insert i data)
      else none
  | (i,.signalled) =>
      match self.waits i with
      | .outside => none
      | .notEmpty => self.tryGet i
      | .notFull data => some (self.insert i data)
  | (i,.timedOut) =>
      match self.waits i with
      | .outside => none
      | .notEmpty => some {self.waitAt i .outside with results := self.results ++ [none]}
      | .notFull _ => some (self.waitAt i .outside)

/-- All that a step can do to the queue and the history. -/
inductive Step (self : QueueThreads ι α) (e : ι × Event α) : QueueThreads ι α → Prop where
  | wait (w : QueueWait α) : Step self e (self.waitAt e.1 w)
  | giveUp : Step self e {self.waitAt e.1 .outside with results := self.results ++ [none]}
  | take (data : Option α) (rest : List (Option α)) (h : self.queue.items = data :: rest) :
      Step self e {self.waitAt e.1 .outside with
        queue := {self.queue with items := rest, queueSize := self.queue.queueSize-1}
        taken := self.taken ++ [data]
        results := self.results ++ [data]}
  | insert (data : Option α)
      (h : self.queue.full = true → e.2 = .signalled ∧ self.waits e.1 = .notFull data) :
      Step self e (self.insert e.1 data)

variable {s t : QueueThreads ι α} {e : ι × Event α}

lemma tryGet_sound (h : s.tryGet e.1 = some t) : Step s e t := by
  obtain ⟨⟨r,q⟩,hg,rfl⟩ := map_eq_some_iff.mp h
  obtain ⟨-,rfl,rfl⟩ | ⟨data,rest,hi,rfl,rfl⟩ := Queue.get_cases hg
  · exact .wait .notEmpty
  · exact .take data rest hi

lemma step_sound (h : s.step e = some t) : Step s e t := by
  obtain ⟨i,event⟩ := e
  cases event with
  | get =>
    simp only [step] at h
    split at h
    · exact tryGet_sound (e := (i,.get)) h
    · cases h
  | put data =>
    simp only [step] at h
    split at h
    · cases h
      split
      · exact .wait (.notFull data)
      · next hf => exact .insert data fun h => absurd h hf
    · cases h
  | signalled =>
    simp only [step] at h
    split at h
    · cases h
    · exact tryGet_sound (e := (i,.signalled)) h
    · next data hw =>
      cases h
      exact .insert data fun _ => ⟨rfl,hw⟩
  | timedOut =>
    simp only [step] at h
    split at h
    · cases h
    · cases h
      exact .giveUp
    · cases h
      exact .wait .outside

/-- What was accepted was taken or is still there, and `get` returned what it took. -/
structure Inv (s : QueueThreads ι α) : Prop where
  counted : s.queue.Counted
  kept : s.accepted = s.taken ++ s.queue.items
  returned : s.results.filterMap id = s.taken.filterMap id

omit [DecidableEq ι] in
lemma con_inv (maxsize : Nat) : (con maxsize : QueueThreads ι α).Inv :=
  ⟨Queue.con_counted maxsize,rfl,rfl⟩

lemma step_inv (s : QueueThreads ι α) (e : ι × Event α) (t : QueueThreads ι α)
    (hs : s.Inv) (h : s.step e = some t) : t.Inv := by
  cases step_sound h with
  | wait w => exact ⟨hs.counted,hs.kept,hs.returned⟩
  | giveUp => exact ⟨hs.counted,hs.kept,by simpa [waitAt] using hs.returned⟩
  | take data rest hi =>
    refine ⟨?_,?_,?_⟩
    · have hc := hs.counted
      simp only [Queue.Counted,hi,length_cons] at hc ⊢
      omega
    · simp [waitAt,hs.kept,hi]
    · rw [filterMap_append,filterMap_append,hs.returned]
  | insert data hf =>
    refine ⟨Queue.put_counted hs.counted data,?_,hs.returned⟩
    simp [insert,waitAt,Queue.put,hs.kept]

/-- In every run the data that `get` returned is a front part of the data whose put returned 1,
the rest of which is in the list, and `get` finds the list as long as its counter says. -/
theorem results_fifo {maxsize : Nat} {events : List (ι × Event α)} {s : QueueThreads ι α}
    (h : Transition.run step (con maxsize) events = some s) :
    s.accepted = s.taken ++ s.queue.items ∧
    s.results.filterMap id = s.taken.filterMap id ∧
    s.results.filterMap id <+: s.accepted.filterMap id ∧
    (s.queue.queueSize ≠ 0 → s.queue.items ≠ []) := by
  have hs : s.Inv := Transition.run_invariant step_inv h (con_inv maxsize)
  refine ⟨hs.kept,hs.returned,?_,fun hsz hi => hsz ?_⟩
  · rw [hs.returned,hs.kept,filterMap_append]
    exact prefix_append _ _
  · rw [hs.counted,hi]
    rfl

lemma run_queueSize_le {events : List (ι × Event α)} (h : Transition.run step s events = some t) :
    t.queue.queueSize ≤ s.queue.queueSize+events.length := by
  induction events generalizing s with
  | nil =>
    cases h
    exact Nat.le_refl _
  | cons e events ih =>
    obtain ⟨u,hu,hr⟩ := Transition.run_cons h
    have hs : u.queue.queueSize ≤ s.queue.queueSize+1 := by
      cases step_sound hu with
      | wait w => exact Nat.le_succ _
      | giveUp => exact Nat.le_succ _
      | take data rest hi => exact Nat.le_trans (Nat.sub_le _ _) (Nat.le_succ _)
      | insert data hf => exact Nat.le_refl _
    have := ih hr
    rw [length_cons]
    omega

/-- `queue_size` is an `int`, which is wide enough for a run of less than `2^31` steps. -/
lemma queueSize_fits {maxsize : Nat} {events : List (ι × Event α)} {s : QueueThreads ι α}
    (h : Transition.run step (con maxsize) events = some s) (hl : events.length < 2^31) :
    s.queue.queueSize < 2^31 := by
  have := run_queueSize_le h
  have hz : (con maxsize : QueueThreads ι α).queue.queueSize = 0 := rfl
  omega

def twoPuts : List (Fin 3 × Event Nat) :=
  [(2,.get),(0,.put (some 7)),(1,.put (some 8)),(2,.signalled),(1,.timedOut)]

theorem results_fifo_twoPuts :
    ∃ s, Transition.run step (con 1) twoPuts = some s ∧
      s.results.filterMap id <+: s.accepted.filterMap id := by
  have hsm : (Transition.run step (con 1) twoPuts).isSome = true := by decide
  obtain ⟨s,hs⟩ := isSome_iff_exists.mp hsm
  exact ⟨s,hs,(results_fifo hs).2.2.1⟩

def Overfills (s : QueueThreads ι α) (e : ι × Event α) : Prop :=
  e.2 = .signalled ∧ (∃ data, s.waits e.1 = .notFull data) ∧ s.queue.full = true

lemma step_full (h : s.step e = some t) (hb : s.Overfills e) : ∃ data, t = s.insert e.1 data := by
  obtain ⟨i,event⟩ := e
  obtain ⟨rfl,⟨data,hw⟩,-⟩ := hb
  simp only [step,hw] at h
  exact ⟨data,(some.inj h).symm⟩

lemma step_maxsize (s : QueueThreads ι α) (e : ι × Event α) (t : QueueThreads ι α)
    (h : s.step e = some t) : t.queue.maxsize = s.queue.maxsize := by
  cases step_sound h <;> rfl

lemma step_bound_iff (hs : s.Inv)
    (hl : s.queue.items.length ≤ s.queue.maxsize) (h : s.step e = some t) :
    t.queue.items.length ≤ s.queue.maxsize ↔ ¬ s.Overfills e := by
  have hc : s.queue.queueSize = s.queue.items.length := hs.counted
  constructor
  · intro hb hbd
    obtain ⟨data,rfl⟩ := step_full h hbd
    have hfu : s.queue.maxsize ≤ s.queue.queueSize := by simpa [Queue.full] using hbd.2.2
    simp only [insert,Queue.put,length_append,length_singleton] at hb
    omega
  · intro hok
    cases step_sound h with
    | wait w => exact hl
    | giveUp => exact hl
    | take data rest hi =>
      simp only [hi,length_cons] at hl ⊢
      omega
    | insert data hfu =>
      have hr : ¬ s.queue.full = true := by
        intro hf
        exact hok ⟨(hfu hf).1,⟨data,(hfu hf).2⟩,hf⟩
      simp only [Queue.full,decide_eq_true_eq] at hr
      simp only [insert,Queue.put,length_append,length_singleton]
      omega

/-- The number of queued items stays within the bound exactly in the runs in which no put goes
on after its wait while the queue is full. -/
theorem bounded_iff {maxsize : Nat} {events : List (ι × Event α)} :
    (∀ front, front <+: events → ∀ s : QueueThreads ι α,
      Transition.run step (con maxsize) front = some s → s.queue.items.length ≤ maxsize) ↔
    Transition.Along step (fun s e => ¬ s.Overfills e) (con maxsize) events := by
  refine Transition.always_iff (I := fun s => s.Inv ∧ s.queue.maxsize = maxsize)
    (fun s e t hs h => ⟨step_inv s e t hs.1 h,(step_maxsize s e t h).trans hs.2⟩) ?_ ?_
    ⟨con_inv maxsize,rfl⟩ (Nat.zero_le _)
  · rintro s e t ⟨hs,rfl⟩ hl h
    exact step_bound_iff hs hl h
  · rintro s ⟨i,event⟩ hn ⟨rfl,⟨data,hw⟩,-⟩
    simp [step,hw] at hn

/-- A put waits for room. The room that a get makes is used by another put before the first one
has the lock again. -/
def lateWaiter : List (Bool × Event Nat) :=
  [(false,.put (some 1)),(true,.put (some 2)),(false,.get),(false,.put (some 3)),(true,.signalled)]

theorem bounded_lateWaiter_fails :
    ¬ ∀ front, front <+: lateWaiter → ∀ s : QueueThreads Bool Nat,
      Transition.run step (con 1) front = some s → s.queue.items.length ≤ 1 := by
  intro h
  have hl : (Transition.run step (con 1) lateWaiter).map (fun s => s.queue.items.length) =
      some 2 := by decide
  obtain ⟨s,hs,hln⟩ := map_eq_some_iff.mp hl
  have := h lateWaiter (prefix_refl _) s hs
  omega

end QueueThreads

end Aff4
