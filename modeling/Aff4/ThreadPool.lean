import Aff4.Queue

/-! The thread pool of aff4_utils.c: workers that take jobs from a queue, `schedule()` and `join()`.
A step is what one thread does until it gives up the global lock. -/

namespace Aff4

open List Option

/-- A job together with the number of the `schedule()` call that offered it. -/
abbrev Scheduled (J : Type) := Nat × J

/-- A `ready` worker is about to call `get` at the head of its loop. -/
inductive Worker (J : Type) where
  | ready
  | waiting
  | running (item : Scheduled J)
  | exited
  deriving DecidableEq, Repr

@[simp] def Worker.runs {J : Type} (call : Nat) : Worker J → Bool
  | .running item => item.1 == call
  | _ => false

/-- `putters` are the `schedule()` calls waiting for room, `joined` counts the
workers that `join()` has already waited for. The last two fields are history:
the calls that returned 1 before `join()`, and the jobs whose `run` returned. -/
structure ThreadPool (J : Type) where
  jobs : Queue (Scheduled J)
  threads : List (Worker J)
  active : Bool
  putters : List (Scheduled J)
  calls : Nat
  joined : Option Nat
  early : List (Scheduled J)
  completed : List (Scheduled J)

namespace ThreadPool

variable {J : Type}

def con (number : Nat) : ThreadPool J := ⟨.con number,replicate number .ready,true,[],0,none,[],[]⟩

inductive Event (J : Type) where
  | schedule (job : J)
  | putSignalled (call : Nat)
  | putTimedOut (call : Nat)
  | start (k : Nat)
  | getSignalled (k : Nat)
  | getTimedOut (k : Nat)
  | jobDone (k : Nat)
  | join
  | joinThread
  deriving DecidableEq, Repr

def setWorker (s : ThreadPool J) (k : Nat) (w : Worker J) : ThreadPool J :=
  {s with threads := s.threads.set k w}

/-- Worker `k` tests the queue inside `Queue_get` and takes a job or waits. -/
def getJob (s : ThreadPool J) (k : Nat) : Option (ThreadPool J) :=
  match s.jobs.get with
  | none => none
  | some (none,_) => some (s.setWorker k .waiting)
  | some (some item,q) => some {s.setWorker k (.running item) with jobs := q}

def accept (s : ThreadPool J) (item : Scheduled J) : ThreadPool J :=
  {s with
    jobs := s.jobs.put item
    early := if s.joined.isNone then s.early ++ [item] else s.early}

def withdraw (s : ThreadPool J) (item : Scheduled J) : ThreadPool J :=
  {s with putters := s.putters.filter fun it => it.1 != item.1}

def step (s : ThreadPool J) : Event J → Option (ThreadPool J)
  | .schedule job =>
      let item := (s.calls,job)
      let s := {s with calls := s.calls+1}
      if s.jobs.full then some {s with putters := s.putters ++ [item]}
      else some (s.accept item)
  | .putSignalled call =>
      (s.putters.find? fun it => it.1 == call).map fun item => (s.withdraw item).accept item
  | .putTimedOut call =>
      (s.putters.find? fun it => it.1 == call).map fun item => s.withdraw item
  | .start k =>
      match s.threads[k]? with
      | some .ready => s.getJob k
      | _ => none
  | .getSignalled k =>
      match s.threads[k]? with
      | some .waiting => s.getJob k
      | _ => none
  | .getTimedOut k =>
      match s.threads[k]? with
      | some .waiting =>
          -- get returns NULL here even when a job arrived before the timeout
          if s.active then s.getJob k else some (s.setWorker k .exited)
      | _ => none
  | .jobDone k =>
      match s.threads[k]? with
      | some (.running item) =>
          ({s with completed := s.completed ++ [item]}.setWorker k .ready).getJob k
      | _ => none
  | .join =>
      match s.joined with
      | none => some {s with active := false, joined := some 0}
      | some _ => none
  | .joinThread =>
      match s.joined with
      | none => none
      | some i =>
          match s.threads[i]? with
          | some .exited => some {s with joined := some (i+1)}
          | _ => none

def joinReturned (s : ThreadPool J) : Prop := s.joined = some s.threads.length

variable {k : Nat}

variable {l : List (Worker J)} {w v : Worker J} {t : ThreadPool J}

lemma countP_setWorker
    (h : l[k]? = some w) (p : Worker J → Bool) : (l.set k v).countP p+(if p w then 1 else 0) =
      l.countP p+(if p v then 1 else 0) := by
  obtain ⟨hk,rfl⟩ := List.getElem?_eq_some_iff.mp h
  have hps : p l[k] = true → 0 < l.countP p := fun hp =>
    countP_pos_iff.mpr ⟨_,getElem_mem hk,hp⟩
  rw [countP_set hk]
  split
  · have := hps ‹_›
    omega
  · omega

lemma mem_setWorker {u : Worker J} (h : l[k]? = some w) (hu : u ∈ l) : u ∈ l.set k v ∨ u = w := by
  obtain ⟨j,hj⟩ := mem_iff_getElem?.mp hu
  by_cases hjk : k = j
  · subst hjk
    rw [h,some.injEq] at hj
    exact .inr hj.symm
  · exact .inl (mem_iff_getElem?.mpr ⟨j,by rw [getElem?_set_ne hjk,hj]⟩)

lemma getJob_cases {s : ThreadPool J} (h : s.getJob k = some t) :
    (s.jobs.queueSize = 0 ∧ t = s.setWorker k .waiting) ∨ ∃ item xs, s.jobs.items = item :: xs ∧
        t = {s.setWorker k (.running item) with
          jobs := {s.jobs with items := xs, queueSize := s.jobs.queueSize-1}} := by
  unfold getJob at h
  split at h
  · cases h
  · rename_i q hq
    obtain ⟨hz,_,_⟩ | ⟨_,_,_,hne,_⟩ := Queue.get_cases hq
    · exact .inl ⟨hz,by simpa using h.symm⟩
    · cases hne
  · rename_i item q hq
    obtain ⟨_,hne,_⟩ | ⟨x,xs,hi,hx,rfl⟩ := Queue.get_cases hq
    · cases hne
    · simp only [some.injEq] at hx
      subst hx
      exact .inr ⟨item,xs,hi,by simpa using h.symm⟩

/-- How often a `schedule()` call occurs among the waiting calls, the queue, the
running jobs and the finished ones. -/
def tally (s : ThreadPool J) (call : Nat) : Nat :=
  s.putters.countP (fun it => it.1 == call) + s.jobs.items.countP (fun it => it.1 == call) +
    s.threads.countP (Worker.runs call) + s.completed.countP (fun it => it.1 == call)

structure Inv (s : ThreadPool J) : Prop where
  once : ∀ call, s.tally call ≤ 1
  fresh : ∀ call, s.calls ≤ call → s.tally call = 0
  kept : ∀ item ∈ s.early,
    item ∈ s.jobs.items ∨ Worker.running item ∈ s.threads ∨ item ∈ s.completed
  switched : s.active = s.joined.isNone
  behind : ∀ i, s.joined = some i → ∀ j < i, s.threads[j]? = some .exited
  serving : s.active = true → Worker.exited ∉ s.threads

lemma con_inv (number : Nat) : (con number : ThreadPool J).Inv where
  once call := by simp [tally,con,Queue.con,countP_replicate]
  fresh call _ := by simp [tally,con,Queue.con,countP_replicate]
  kept item h := by simp [con] at h
  switched := rfl
  behind i h := by simp [con] at h
  serving _ h := by simp [con] at h

lemma tally_accept (s : ThreadPool J) (item : Scheduled J) (call : Nat) :
    (s.accept item).tally call = s.tally call+if item.1 == call then 1 else 0 := by
  simp only [tally,accept,Queue.put,countP_append,countP_singleton]
  omega

lemma countP_withdrawn (l : List (Scheduled J)) (a call : Nat) :
    (l.filter fun it => it.1 != a).countP (fun it => it.1 == call) =
      if call = a then 0 else l.countP fun it => it.1 == call := by
  induction l with
  | nil => simp
  | cons it l ih =>
    by_cases h : it.1 = a
    · by_cases hc : call = a
      · simp [h,hc] at ih ⊢
      · have hac : ¬ a = call := fun e => hc e.symm
        simpa [filter_cons,h,hc,hac] using ih
    · by_cases hc : call = a
      · simp only [filter_cons,bne_iff_ne,ne_eq,h,not_false_eq_true,if_true,countP_cons,hc]
        simp [h]
      · simp only [filter_cons,bne_iff_ne,ne_eq,h,not_false_eq_true,if_true,
          countP_cons,ih,hc,if_false]

variable {item : Scheduled J}

lemma countP_of_mem {l : List (Scheduled J)} (h : item ∈ l) :
    0 < l.countP fun it => it.1 == item.1 :=
  countP_pos_iff.mpr ⟨item,h,by simp⟩

variable {s : ThreadPool J}

lemma tally_withdraw (hi : s.Inv) (h : item ∈ s.putters) (call : Nat) :
    (s.withdraw item).tally call = if call = item.1 then 0 else s.tally call := by
  have hp := countP_of_mem h
  have ho := hi.once item.1
  simp only [tally,withdraw,countP_withdrawn] at ho ⊢
  split
  · subst call
    omega
  · rfl

lemma lt_calls (hi : s.Inv) {call : Nat} (h : 0 < s.tally call) : call < s.calls := by
  by_contra hge
  have := hi.fresh call (by omega)
  omega

lemma accept_inv (hi : s.Inv)
    (hn : s.tally item.1 = 0) (hlt : item.1 < s.calls) : (s.accept item).Inv where
  once call := by
    have h := hi.once call
    rw [tally_accept]
    split
    · simp_all
    · omega
  fresh call hc := by
    have h := hi.fresh call hc
    have hne : ¬ item.1 = call := by simp only [accept] at hc; omega
    simp [tally_accept,h,hne]
  kept it h := by
    have hs : it ∈ s.early ∨ it = item := by
      simp only [accept] at h
      split at h
      · simpa using h
      · exact .inl h
    rcases hs with h | rfl
    · rcases hi.kept it h with h | h
      · exact .inl (by simp [accept,Queue.put,h])
      · exact .inr h
    · exact .inl (by simp [accept,Queue.put])
  switched := hi.switched
  behind := hi.behind
  serving := hi.serving

lemma withdraw_inv (hi : s.Inv) (h : item ∈ s.putters) : (s.withdraw item).Inv where
  once call := by
    have ho := hi.once call
    rw [tally_withdraw hi h]
    split <;> omega
  fresh call hc := by
    have hf := hi.fresh call hc
    rw [tally_withdraw hi h,hf]
    split <;> rfl
  kept := hi.kept
  switched := hi.switched
  behind := hi.behind
  serving := hi.serving

lemma setWorker_tally (h : s.threads[k]? = some w) (call : Nat) :
    (s.setWorker k v).tally call+(if w.runs call then 1 else 0) =
      s.tally call+if v.runs call then 1 else 0 := by
  have hc := countP_setWorker (v := v) h (Worker.runs call)
  simp only [tally,setWorker]
  omega

lemma Inv.behind_set (hi : s.Inv)
    (hw : s.threads[k]? = some w) (hne : w ≠ .exited) (v : Worker J) (i : Nat)
    (hj : s.joined = some i) (j : Nat) (hlt : j < i) : (s.threads.set k v)[j]? = some .exited := by
  have hx := hi.behind i hj j hlt
  have hkj : k ≠ j := by
    rintro rfl
    rw [hw,some.injEq] at hx
    exact hne hx
  rw [getElem?_set_ne hkj,hx]

lemma Inv.serving_set (hi : s.Inv) (k : Nat)
    (hv : v ≠ .exited) (ha : s.active = true) : Worker.exited ∉ s.threads.set k v := by
  intro hm
  rcases mem_or_eq_of_mem_set hm with hm | hm
  · exact hi.serving ha hm
  · exact hv hm.symm

lemma Inv.set_idle (hi : s.Inv) (hw : s.threads[k]? = some w) (hid : w = .ready ∨ w = .waiting)
    (hv : v ≠ .exited) {q : Queue (Scheduled J)}
    (ht : ∀ call, ({s.setWorker k v with jobs := q} : ThreadPool J).tally call = s.tally call)
    (hq : ∀ it ∈ s.jobs.items, it ∈ q.items ∨ v = .running it) :
    ({s.setWorker k v with jobs := q} : ThreadPool J).Inv := by
  have hne : w ≠ .exited := by
    rcases hid with rfl | rfl <;> simp
  refine ⟨fun c => ht c ▸ hi.once c,fun c hc => (ht c).trans (hi.fresh c hc),fun it hit => ?_,
    hi.switched,hi.behind_set hw hne _,hi.serving_set k hv⟩
  rcases hi.kept it hit with hm | hm | hm
  · refine (hq it hm).imp id fun hr => .inl ?_
    exact hr ▸ mem_set (List.getElem?_eq_some_iff.mp hw).1 _
  · rcases mem_setWorker (v := v) hw hm with hm | rfl
    · exact .inr (.inl hm)
    · rcases hid with h | h <;> cases h
  · exact .inr (.inr hm)

lemma getJob_inv {s : ThreadPool J} (hi : s.Inv)
    (hw : s.threads[k]? = some w) (hid : w = .ready ∨ w = .waiting)
    (h : s.getJob k = some t) : t.Inv := by
  have hc (v) (call) := countP_setWorker (v := v) hw (Worker.runs call)
  have hrn : ∀ call, w.runs call = false := by
    rcases hid with rfl | rfl <;> simp
  simp only [hrn] at hc
  obtain ⟨_,rfl⟩ | ⟨item,xs,hitm,rfl⟩ := getJob_cases h
  · refine hi.set_idle hw hid (by simp) (fun call => ?_) fun _ => .inl
    simpa [tally,setWorker] using hc .waiting call
  · refine hi.set_idle hw hid (by simp) (fun call => ?_) fun it hm => ?_
    · have := hc (.running item) call
      simp only [tally,setWorker,hitm,countP_cons]
      by_cases hcl : item.1 = call <;> simp [hcl] at this ⊢ <;> omega
    · rw [hitm,mem_cons] at hm
      exact hm.symm.imp id fun (h : it = item) => h ▸ rfl

inductive Step (s : ThreadPool J) : Event J → ThreadPool J → Prop where
  | blocked (job : J) : Step s (.schedule job)
      {s with calls := s.calls+1, putters := s.putters ++ [(s.calls,job)]}
  | scheduled (job : J) : Step s (.schedule job)
      ({s with calls := s.calls+1}.accept (s.calls,job))
  | late (item : Scheduled J) (h : item ∈ s.putters) : Step s (.putSignalled item.1)
      ((s.withdraw item).accept item)
  | refused (item : Scheduled J) (h : item ∈ s.putters) : Step s (.putTimedOut item.1)
      (s.withdraw item)
  | visit (e : Event J) (k : Nat) (w : Worker J) (t : ThreadPool J)
      (hw : s.threads[k]? = some w) (hidle : w = .ready ∨ w = .waiting)
      (ht : s.getJob k = some t) : Step s e t
  | leave (k : Nat) (hw : s.threads[k]? = some .waiting) (ha : s.active = false) :
      Step s (.getTimedOut k) (s.setWorker k .exited)
  | finish (k : Nat) (item : Scheduled J) (t : ThreadPool J)
      (hw : s.threads[k]? = some (.running item))
      (ht : ({s with completed := s.completed ++ [item]}.setWorker k .ready).getJob k = some t) :
      Step s (.jobDone k) t
  | join (hj : s.joined = none) : Step s .join {s with active := false, joined := some 0}
  | joinThread (i : Nat) (hj : s.joined = some i) (hw : s.threads[i]? = some .exited) :
      Step s .joinThread {s with joined := some (i+1)}

variable {e : Event J}

lemma step_sound {s : ThreadPool J} (h : s.step e = some t) : Step s e t := by
  cases e with
  | schedule job =>
    simp only [step] at h
    split at h
    · rw [← some.inj h]
      exact .blocked job
    · rw [← some.inj h]
      exact .scheduled job
  | putSignalled call =>
    simp only [step,map_eq_some_iff] at h
    obtain ⟨item,hf,rfl⟩ := h
    have hc : item.1 = call := by simpa using find?_some hf
    exact hc ▸ .late item (mem_of_find?_eq_some hf)
  | putTimedOut call =>
    simp only [step,map_eq_some_iff] at h
    obtain ⟨item,hf,rfl⟩ := h
    have hc : item.1 = call := by simpa using find?_some hf
    exact hc ▸ .refused item (mem_of_find?_eq_some hf)
  | start k =>
    simp only [step] at h
    split at h
    · exact .visit _ k _ t ‹_› (.inl rfl) h
    · cases h
  | getSignalled k =>
    simp only [step] at h
    split at h
    · exact .visit _ k _ t ‹_› (.inr rfl) h
    · cases h
  | getTimedOut k =>
    simp only [step] at h
    split at h
    · split at h
      · exact .visit _ k _ t ‹_› (.inr rfl) h
      · rw [← some.inj h]
        exact .leave k ‹_› (by simpa using ‹¬ s.active = true›)
    · cases h
  | jobDone k =>
    simp only [step] at h
    split at h
    · exact .finish k _ t ‹_› h
    · cases h
  | join =>
    simp only [step] at h
    split at h
    · rw [← some.inj h]
      exact .join ‹_›
    · cases h
  | joinThread =>
    simp only [step] at h
    split at h
    · cases h
    · split at h
      · rw [← some.inj h]
        exact .joinThread _ ‹_› ‹_›
      · cases h

lemma call_inv (hi : s.Inv) : {s with calls := s.calls+1}.Inv where
  once := hi.once
  fresh call hc := hi.fresh call (Nat.le_of_succ_le hc)
  kept := hi.kept
  switched := hi.switched
  behind := hi.behind
  serving := hi.serving

lemma blocked_inv (hi : s.Inv) (job : J) :
    {s with calls := s.calls+1, putters := s.putters ++ [(s.calls,job)]}.Inv := by
  have ht : ∀ call, ({s with calls := s.calls+1, putters := s.putters ++ [(s.calls,job)]} :
      ThreadPool J).tally call = s.tally call+if s.calls == call then 1 else 0 := by
    simp only [tally,countP_append,countP_singleton]
    omega
  refine ⟨fun call => ?_,fun call hc => ?_,hi.kept,hi.switched,hi.behind,hi.serving⟩
  · have ho := hi.once call
    rw [ht]
    split
    · rename_i he
      have hf := hi.fresh call (by simp at he; omega)
      omega
    · omega
  · have hf := hi.fresh call (Nat.le_of_succ_le hc)
    have hne : ¬ s.calls = call := by dsimp only at hc; omega
    simp [ht,hf,hne]

lemma leave_inv (hi : s.Inv) (hw : s.threads[k]? = some .waiting) (ha : s.active = false) :
    (s.setWorker k .exited).Inv := by
  have ht : ∀ call, (s.setWorker k .exited).tally call = s.tally call := by
    intro call
    have := setWorker_tally (v := .exited) hw call
    simpa using this
  refine ⟨fun c => ht c ▸ hi.once c,fun c hc => (ht c).trans (hi.fresh c hc),?_,
    hi.switched,hi.behind_set hw (by simp) _,fun h => ?_⟩
  · intro it hit
    rcases hi.kept it hit with hm | hm | hm
    · exact .inl hm
    · rcases mem_setWorker (v := .exited) hw hm with hm | hm
      · exact .inr (.inl hm)
      · cases hm
    · exact .inr (.inr hm)
  · simp [setWorker,ha] at h

lemma finish_inv (hi : s.Inv) (hw : s.threads[k]? = some (.running item)) :
    ({s with completed := s.completed ++ [item]}.setWorker k .ready).Inv := by
  have ht : ∀ call, ({s with completed := s.completed ++ [item]}.setWorker k .ready).tally call =
      s.tally call := by
    intro call
    have hc := countP_setWorker (v := .ready) hw (Worker.runs call)
    simp only [tally,setWorker,countP_append,countP_singleton]
    by_cases hcl : item.1 = call <;> simp [hcl] at hc ⊢ <;> omega
  refine ⟨fun c => ht c ▸ hi.once c,fun c hc => (ht c).trans (hi.fresh c hc),?_,
    hi.switched,hi.behind_set hw (by simp) _,hi.serving_set k (by simp)⟩
  · intro it hit
    rcases hi.kept it hit with hm | hm | hm
    · exact .inl hm
    · rcases mem_setWorker (v := .ready) hw hm with hm | hm
      · exact .inr (.inl hm)
      · cases hm
        exact .inr (.inr (by simp [setWorker]))
    · exact .inr (.inr (by simp [setWorker,hm]))

lemma step_inv {s : ThreadPool J} (hi : s.Inv) (h : s.step e = some t) : t.Inv := by
  cases step_sound h with
  | blocked job => exact blocked_inv hi job
  | scheduled job =>
    exact accept_inv (call_inv hi) (hi.fresh s.calls (Nat.le_refl _)) (Nat.lt_succ_self _)
  | late item hm =>
    have hp : 0 < s.tally item.1 := by
      have := countP_of_mem hm
      simp only [tally]
      omega
    refine accept_inv (withdraw_inv hi hm) ?_ (lt_calls hi hp)
    simp [tally_withdraw hi hm]
  | refused item hm => exact withdraw_inv hi hm
  | visit _ k w _ hw hid ht => exact getJob_inv hi hw hid ht
  | leave k hw ha => exact leave_inv hi hw ha
  | finish k item _ hw ht =>
    have hk := (List.getElem?_eq_some_iff.mp hw).1
    refine getJob_inv (w := .ready) (finish_inv hi hw) ?_ (.inl rfl) ht
    simp [setWorker,getElem?_set_self hk]
  | join hj =>
    exact ⟨hi.once,hi.fresh,hi.kept,rfl,by simp,by simp⟩
  | joinThread i hj hw =>
    refine ⟨hi.once,hi.fresh,hi.kept,?_,?_,hi.serving⟩
    · simpa [hj] using hi.switched
    · intro i' he j hlt
      simp only [some.injEq] at he
      by_cases hji : j = i
      · exact hji ▸ hw
      · exact hi.behind i hj j (by omega)

/-- The last worker quits on a timeout although a job that was accepted before
`join()` is in the queue. -/
def Abandons (s : ThreadPool J) : Event J → Prop
  | .getTimedOut k =>
      s.threads[k]? = some .waiting ∧ s.active = false ∧
        (∀ j, j ≠ k → j < s.threads.length → s.threads[j]? = some .exited) ∧
        ∃ item ∈ s.jobs.items, item ∈ s.early
  | _ => False

lemma tally_pos (hi : s.Inv) (h : item ∈ s.early) : 0 < s.tally item.1 := by
  rcases hi.kept item h with hm | hm | hm
  · have := countP_of_mem hm
    simp only [tally]
    omega
  · have : 0 < s.threads.countP (Worker.runs item.1) := countP_pos_iff.mpr ⟨_,hm,by simp⟩
    simp only [tally]
    omega
  · have := countP_of_mem hm
    simp only [tally]
    omega

/-- There are workers; and one of them is left, or no job accepted before
`join()` is in the queue. -/
structure Drained (s : ThreadPool J) : Prop where
  staffed : s.threads ≠ []
  served : (∃ w ∈ s.threads, w ≠ .exited) ∨ ∀ item ∈ s.jobs.items, item ∉ s.early

lemma con_drained {number : Nat} (h : 0 < number) : (con number : ThreadPool J).Drained where
  staffed := by simp [con]; omega
  served := .inl ⟨.ready,by simp [con]; omega,by simp⟩

lemma getJob_drained {s : ThreadPool J}
    (hw : s.threads[k]? = some w) (h : s.getJob k = some t) : t.Drained := by
  have hk := (List.getElem?_eq_some_iff.mp hw).1
  have hs : ∀ v : Worker J, v ∈ s.threads.set k v := fun v => mem_set hk v
  obtain ⟨_,rfl⟩ | ⟨item,xs,_,rfl⟩ := getJob_cases h
  · exact ⟨ne_nil_of_mem (hs _),.inl ⟨.waiting,hs _,by simp⟩⟩
  · exact ⟨ne_nil_of_mem (hs _),.inl ⟨.running item,hs _,by simp⟩⟩

lemma accept_drained (hi : s.Inv) (hd : s.Drained)
    (hnw : s.tally item.1 = 0) : (s.accept item).Drained := by
  refine ⟨hd.staffed,?_⟩
  by_cases ha : s.active = true
  · obtain ⟨w,hw⟩ := exists_mem_of_ne_nil _ hd.staffed
    exact .inl ⟨w,hw,fun he => hi.serving ha (he ▸ hw)⟩
  · rcases hd.served with hl | hn
    · exact .inl hl
    · refine .inr fun it hit => ?_
      have hj : s.joined.isNone = false := by rw [← hi.switched]; simpa using ha
      have her : (s.accept item).early = s.early := by simp [accept,hj]
      simp only [accept,Queue.put,mem_append,mem_singleton] at hit
      rw [her]
      rcases hit with hit | rfl
      · exact hn it hit
      · intro he
        have := tally_pos hi he
        omega

lemma step_drained {s : ThreadPool J} (hi : s.Inv) (hd : s.Drained)
    (hn : ¬ s.Abandons e) (h : s.step e = some t) : t.Drained := by
  cases step_sound h with
  | blocked job => exact ⟨hd.staffed,hd.served⟩
  | scheduled job =>
    exact accept_drained (s := {s with calls := s.calls+1}) (call_inv hi)
      ⟨hd.staffed,hd.served⟩ (hi.fresh s.calls (Nat.le_refl _))
  | late item hm =>
    refine accept_drained (withdraw_inv hi hm) ⟨hd.staffed,hd.served⟩ ?_
    simp [tally_withdraw hi hm]
  | refused item hm => exact ⟨hd.staffed,hd.served⟩
  | visit _ k w _ hw hid ht => exact getJob_drained hw ht
  | leave k hw ha =>
    have hk := (List.getElem?_eq_some_iff.mp hw).1
    refine ⟨ne_nil_of_mem (mem_set hk .exited),?_⟩
    by_cases ho : ∀ j, j ≠ k → j < s.threads.length → s.threads[j]? = some .exited
    · refine .inr fun item hitm her => hn ⟨hw,ha,ho,item,hitm,her⟩
    · push Not at ho
      obtain ⟨j,hjk,hlt,hne⟩ := ho
      refine .inl ⟨s.threads[j],?_,fun he => hne ?_⟩
      · refine mem_iff_getElem?.mpr ⟨j,?_⟩
        rw [setWorker,getElem?_set_ne (Ne.symm hjk),getElem?_eq_getElem hlt]
      · rw [getElem?_eq_getElem hlt,he]
  | finish k item _ hw ht =>
    have hk := (List.getElem?_eq_some_iff.mp hw).1
    refine getJob_drained (w := .ready) ?_ ht
    simp [setWorker,getElem?_set_self hk]
  | join hj => exact ⟨hd.staffed,hd.served⟩
  | joinThread i hj hw => exact ⟨hd.staffed,hd.served⟩

lemma exited_of_joinReturned (hi : s.Inv) (hj : s.joinReturned) : ∀ w ∈ s.threads, w = .exited := by
  intro w hw
  obtain ⟨k,hk⟩ := mem_iff_getElem?.mp hw
  have hx := hi.behind _ hj k (List.getElem?_eq_some_iff.mp hk).1
  rw [hk,some.injEq] at hx
  exact hx

lemma completed_once (hi : s.Inv)
    (h : item ∈ s.completed) : s.completed.filter (fun it => it.1 == item.1) = [item] := by
  have hm : item ∈ s.completed.filter (fun it => it.1 == item.1) := by simp [h]
  have hln : (s.completed.filter fun it => it.1 == item.1).length ≤ 1 := by
    have := hi.once item.1
    simp only [tally] at this
    rw [← countP_eq_length_filter]
    omega
  match hl : s.completed.filter (fun it => it.1 == item.1) with
  | [] => simp [hl] at hm
  | [x] =>
    rw [hl,mem_singleton] at hm
    rw [hl,hm]
  | _ :: _ :: _ => simp [hl] at hln

structure Stuck (item : Scheduled J) (s : ThreadPool J) : Prop where
  gone : ∀ w ∈ s.threads, w = .exited
  queued : item ∈ s.jobs.items
  early : item ∈ s.early

lemma step_stuck {s : ThreadPool J} (hs : s.Stuck item) (h : s.step e = some t) : t.Stuck item := by
  have hno : ∀ {k : Nat} {w : Worker J}, s.threads[k]? = some w → w ≠ .exited → False :=
    fun hw hne => hne (hs.gone _ (mem_of_getElem? hw))
  have hac : ∀ (u : ThreadPool J) it, u.Stuck item → (u.accept it).Stuck item := by
    intro u it hu
    refine ⟨hu.gone,by simp [accept,Queue.put,hu.queued],?_⟩
    simp only [accept]
    split
    · simp [hu.early]
    · exact hu.early
  cases step_sound h with
  | blocked job => exact ⟨hs.gone,hs.queued,hs.early⟩
  | scheduled job => exact hac _ _ ⟨hs.gone,hs.queued,hs.early⟩
  | late it hm => exact hac _ _ ⟨hs.gone,hs.queued,hs.early⟩
  | refused it hm => exact ⟨hs.gone,hs.queued,hs.early⟩
  | visit _ k w _ hw hi ht =>
    rcases hi with rfl | rfl
    · exact (hno hw (by simp)).elim
    · exact (hno hw (by simp)).elim
  | leave k hw ha => exact (hno hw (by simp)).elim
  | finish k it _ hw ht => exact (hno hw (by simp)).elim
  | join hj => exact ⟨hs.gone,hs.queued,hs.early⟩
  | joinThread i hj hw => exact ⟨hs.gone,hs.queued,hs.early⟩

lemma abandons_stuck {s : ThreadPool J} (hab : s.Abandons e)
    (h : s.step e = some t) : ∃ item, t.Stuck item := by
  cases e with
  | getTimedOut k =>
    obtain ⟨hw,ha,ho,item,hq,he⟩ := hab
    have ht : s.setWorker k .exited = t := by simpa [step,hw,ha] using h
    refine ⟨item,ht ▸ ⟨fun w hm => ?_,hq,he⟩⟩
    obtain ⟨j,hj⟩ := mem_iff_getElem?.mp hm
    by_cases hkj : k = j
    · subst hkj
      have hk := (List.getElem?_eq_some_iff.mp hw).1
      simpa [setWorker,getElem?_set_self hk] using hj.symm
    · rw [setWorker,getElem?_set_ne hkj] at hj
      rw [ho j (Ne.symm hkj) (List.getElem?_eq_some_iff.mp hj).1,some.injEq] at hj
      exact hj.symm
  | _ => exact hab.elim

/-- Every job accepted before `join()` has run exactly once when `join()` returns,
in exactly those runs in which the last worker never quits on a timeout with such
a job in the queue. -/
theorem join_complete_iff {number : Nat} {es : List (Event J)} {s : ThreadPool J}
    (hnm : 0 < number) (hr : Transition.run step (con number) es = some s)
    (hj : s.joinReturned) :
    (∀ item ∈ s.early, s.completed.filter (fun it => it.1 == item.1) = [item]) ↔
      Transition.Along step (fun u e => ¬ u.Abandons e) (con number) es := by
  have hin : ∀ {fs : List (Event J)} {u v : ThreadPool J}, u.Inv →
      Transition.run step u fs = some v → v.Inv :=
    fun hu h => Transition.run_invariant (fun _ _ _ hi hs => step_inv hi hs) h hu
  have hi : s.Inv := hin (con_inv number) hr
  have hg := exited_of_joinReturned hi hj
  constructor
  · intro hall
    by_contra hnt
    obtain ⟨before,after,e,u,v,_,hab,hstp,ha⟩ := Transition.exists_step_of_not_along hr hnt
    obtain ⟨item,hst⟩ := abandons_stuck (not_not.mp hab) hstp
    have hen : s.Stuck item := Transition.run_invariant (fun _ _ _ hs h => step_stuck hs h) ha hst
    have hq := countP_of_mem hen.queued
    have ho := hi.once item.1
    have hc := congrArg length (hall item hen.early)
    rw [← countP_eq_length_filter,length_singleton] at hc
    simp only [tally] at ho
    omega
  · intro hal item he
    have hb : s.Inv ∧ s.Drained :=
      Transition.run_invariant_along (I := fun s : ThreadPool J => s.Inv ∧ s.Drained)
        (fun _ _ _ hu hp h => ⟨step_inv hu.1 h,step_drained hu.1 hu.2 hp h⟩)
        hr hal ⟨con_inv number,con_drained hnm⟩
    rcases hi.kept item he with hm | hm | hm
    · rcases hb.2.served with ⟨w,hw,hne⟩ | hn
      · exact absurd (hg w hw) hne
      · exact absurd he (hn item hm)
    · cases hg _ hm
    · exact completed_once hi hm

theorem join_complete_one_job :
    Transition.Along step (fun u e => ¬ u.Abandons e) (con 1 : ThreadPool String)
      [.schedule "job",.start 0,.join,.jobDone 0,.getTimedOut 0,.joinThread] := by
  refine (join_complete_iff (by decide) (s := ⟨⟨[],1,0⟩,[.exited],false,[],1,some 1,
    [(0,"job")],[(0,"job")]⟩) rfl rfl).mp ?_
  decide

/-- The only worker waits before the job arrives; its wait times out after
`join()` cleared `active`, and the accepted job is never run. -/
theorem join_loses_job :
    ¬ ∀ s : ThreadPool String,
      Transition.run step (con 1)
        [.start 0,.schedule "job",.join,.getTimedOut 0,.joinThread] = some s →
      s.joinReturned →
      ∀ item ∈ s.early, s.completed.filter (fun it => it.1 == item.1) = [item] := by
  intro h
  have := h ⟨⟨[(0,"job")],1,1⟩,[.exited],false,[],1,some 1,[(0,"job")],[]⟩ rfl rfl
  exact absurd this (by decide)

/-- Also in the runs that lose a job, none is run twice or drops out of the pool. -/
theorem reachable_once {number : Nat} {es : List (Event J)} {s : ThreadPool J}
    (hr : Transition.run step (con number) es = some s) : (∀ call, s.tally call ≤ 1) ∧
      ∀ item ∈ s.early, item ∈ s.jobs.items ∨ .running item ∈ s.threads ∨ item ∈ s.completed :=
  have hi := Transition.run_invariant (fun _ _ _ hi h => step_inv hi h) hr (con_inv number)
  ⟨hi.once,hi.kept⟩

theorem reachable_once_lost : ∃ s : ThreadPool String, Transition.run step (con 1)
    [.start 0,.schedule "job",.join,.getTimedOut 0] = some s ∧ ∀ call, s.tally call ≤ 1 :=
  .imp (fun _ h => ⟨h,(reachable_once h).1⟩) (isSome_iff_exists.mp rfl)

end ThreadPool

end Aff4
