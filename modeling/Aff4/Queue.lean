import Aff4.Lib.Transition

/-! The bounded queue of queue.c. A caller holds the global lock except inside a
condition wait, so each definition below is one critical section. -/

namespace Aff4

structure Queue (α : Type) where
  items : List α
  maxsize : Nat
  queueSize : Nat

namespace Queue

variable {α : Type}

def con (maxsize : Nat) : Queue α := ⟨[],maxsize,0⟩

/-- The test of the loop in `Queue_get` and what follows it: without an item the caller waits on
`not_empty`. There is no result when `queue_size` is positive and the list is empty, since
`list_next` then makes an item of the list head. -/
def get (q : Queue α) : Option (Option α × Queue α) :=
  if q.queueSize = 0 then some (none,q)
  else match q.items with
    | [] => none
    | x :: xs => some (some x,{q with items := xs, queueSize := q.queueSize-1})

/-- `Queue_put` waits on `not_full` once, and does not test again afterwards. -/
def full (q : Queue α) : Bool := decide (q.maxsize ≤ q.queueSize)

def put (q : Queue α) (x : α) : Queue α :=
  {q with items := q.items ++ [x], queueSize := q.queueSize+1}

/-- `Queue_remove` unlinks the first item with the data and leaves `queue_size` as it is. -/
def remove [DecidableEq α] (q : Queue α) (x : α) : Option α × Queue α :=
  if x ∈ q.items then (some x,{q with items := q.items.erase x}) else (none,q)

inductive Op (α : Type)
  | put (x : α) (woken : Bool)
  | get
  | remove (x : α)

/-- A `put` that finds the queue full is refused unless its wait is woken. -/
def step [DecidableEq α] (q : Queue α) : Op α → Option (Queue α)
  | .put x woken => some (if q.full && !woken then q else q.put x)
  | .get => q.get.map Prod.snd
  | .remove x => some (q.remove x).2

def Counted (q : Queue α) : Prop := q.queueSize = q.items.length

lemma con_counted (maxsize : Nat) : (con maxsize : Queue α).Counted := rfl

variable {q : Queue α}

lemma put_counted (h : q.Counted) (x : α) : (q.put x).Counted := by
  simp only [Counted,put,List.length_append,List.length_singleton] at *
  omega

lemma get_cases {q q' : Queue α} {r : Option α} (h : q.get = some (r,q')) :
    (q.queueSize = 0 ∧ r = none ∧ q' = q) ∨ ∃ x xs, q.items = x :: xs ∧ r = some x ∧
        q' = {q with items := xs, queueSize := q.queueSize-1} := by
  unfold get at h
  split at h
  · simp only [Option.some.injEq,Prod.mk.injEq] at h
    exact .inl ⟨‹_›,h.1.symm,h.2.symm⟩
  · split at h
    · cases h
    · rename_i x xs hi
      simp only [Option.some.injEq,Prod.mk.injEq] at h
      exact .inr ⟨x,xs,hi,h.1.symm,h.2.symm⟩

lemma get_of_counted (h : q.Counted) : ∃ r q', q.get = some (r,q') := by
  unfold get
  split
  · exact ⟨_,_,rfl⟩
  · rename_i hz
    cases hi : q.items with
    | nil => exact absurd (by rw [h,hi]; rfl) hz
    | cons x xs => exact ⟨_,_,rfl⟩

lemma get_counted {q q' : Queue α} {r : Option α} (hq : q.Counted)
    (h : q.get = some (r,q')) : q'.Counted := by
  obtain ⟨_,_,rfl⟩ | ⟨x,xs,hi,_,rfl⟩ := get_cases h
  · exact hq
  · simp only [Counted,hi,List.length_cons] at *
    omega

structure Consistent (q : Queue α) : Prop where
  counted : q.Counted
  gets : ∃ r q', q.get = some (r,q')
  room : q.full = true → q.maxsize ≤ q.items.length

lemma Counted.consistent (h : q.Counted) : q.Consistent :=
  ⟨h,get_of_counted h,fun hf => h ▸ of_decide_eq_true hf⟩

variable [DecidableEq α]

lemma remove_counted_iff (h : q.Counted) (x : α) : (q.remove x).2.Counted ↔ x ∉ q.items := by
  by_cases hx : x ∈ q.items
  · have hp := List.length_pos_of_mem hx
    rw [remove,if_pos hx,Counted,List.length_erase_of_mem hx,h]
    exact iff_of_false (by omega) (not_not_intro hx)
  · simpa [remove,hx] using h

lemma step_counted_iff (h : q.Counted) (op : Op α) :
    (∃ next, q.step op = some next ∧ next.Counted) ↔ ∀ x, op = .remove x → x ∉ q.items := by
  cases op with
  | put x woken =>
    refine iff_of_true ⟨_,rfl,?_⟩ (by simp)
    split
    · exact h
    · exact put_counted h x
  | get =>
    obtain ⟨r,next,hg⟩ := get_of_counted h
    exact iff_of_true ⟨next,by simp [step,hg],get_counted h hg⟩ (by simp)
  | remove x => simpa [step] using remove_counted_iff h x

open Transition in
/-- The size is that of the list all along exactly when no call of `remove` finds its data. -/
theorem consistent_iff (maxsize : Nat) (ops : List (Op α)) :
    (∀ front, front <+: ops → ∃ q, run step (con maxsize) front = some q ∧ q.Consistent) ↔
      ∀ front x, front ++ [.remove x] <+: ops → ∀ q, run step (con maxsize) front = some q →
        x ∉ q.items := by
  have hi : (∀ front, front <+: ops → ∃ q, run step (con maxsize) front = some q ∧
      q.Consistent) ↔ ∀ front op, front ++ [op] <+: ops → ∀ q,
        run step (con maxsize) front = some q → ∀ x, op = .remove x → x ∉ q.items := by
    refine prefixes_iff (P := fun _ _ => True) (I := fun _ _ => True) trivial
      (con_counted maxsize).consistent (fun _ _ _ _ _ _ _ => trivial) ?_ fun _ _ _ => trivial
    intro front op q _ _ hq
    rw [← step_counted_iff hq.counted op]
    exact exists_congr fun next => and_congr_right fun _ => ⟨Consistent.counted,Counted.consistent⟩
  rw [hi]
  constructor
  · intro h front x hf q hq
    exact h front _ hf q hq x rfl
  · rintro h front op hf q hq x rfl
    exact h front x hf q hq

open Transition in
theorem remove_miscounts : ∃ q, run step (con 1) [.put 7 false,.remove 7] = some q ∧
    q.items = [] ∧ q.queueSize = 1 ∧ q.get = none ∧ q.step (.put 8 false) = some q ∧
      ¬ q.Consistent := by
  refine ⟨_,rfl,by decide,rfl,rfl,rfl,fun h => ?_⟩
  exact absurd h.counted (show (1 : Nat) ≠ 0 by decide)

end Queue

end Aff4
