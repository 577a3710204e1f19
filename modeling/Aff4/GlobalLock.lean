import Mathlib.Data.Fintype.Basic
import Aff4.Lib.Transition
import Aff4.Memory

/-! The global lock of aff4_utils.c: a recursive mutex, the counter `depth` beside it, and the
deadline of a timed wait. A step is one call into pthread or one change of the counter. -/

namespace Aff4

open Option Function Nat

/-- Where `unlock` goes on. `depth` is the local variable of `timedwait` or `allow_threads`;
`before` is history, the recursion count with which the thread came in. -/
inductive LockReturn where
  | caller
  | timedwait (depth : Int) (before : Nat)
  | allowThreads (depth : Int) (before : Nat)
  deriving DecidableEq, Repr

/-- Where a thread is in the code of the lock. In `locked`, `lowered`, `sleeping` and `woken` it
is between a pthread call and the change of the counter that belongs to it. -/
inductive LockPlace where
  | outside
  | locking (todo : Nat) (before : Option Nat)
  | locked (todo : Nat) (before : Option Nat)
  | unlock (number : Int) (ret : LockReturn)
  | unlocking (todo : Nat) (ret : LockReturn)
  | lowered (todo : Nat) (ret : LockReturn)
  | released (depth : Int) (before : Nat)
  | sleeping (depth : Int) (before : Nat)
  | waiting (depth : Int) (before : Nat)
  | woken (depth : Int) (before : Nat)
  deriving DecidableEq, Repr

/-- `sections` are the allow-threads sections that the thread is in, the innermost first: the
variable `_depth` of each, and the recursion count before it. -/
structure LockThread where
  place : LockPlace
  sections : List (Int × Nat)
  deriving DecidableEq, Repr

/-- `holds` is the mutex: how often each thread has locked it. -/
structure AFF4GlobalLock (ι : Type) where
  depth : Int
  holds : ι → Nat
  threads : ι → LockThread

namespace AFF4GlobalLock

variable {ι : Type}

def con : AFF4GlobalLock ι := ⟨0,fun _ => 0,fun _ => ⟨.outside,[]⟩⟩

/-- A thread calls a method, or goes on with the one it is in. A timed wait that is `refused`
returns an error with the mutex still locked. -/
inductive Event where
  | lock (number : Int)
  | unlock (number : Int)
  | timedwait
  | beginAllowThreads
  | endAllowThreads
  | goOn
  | refused
  deriving DecidableEq, Repr

variable [DecidableEq ι]

def setThread (self : AFF4GlobalLock ι) (i : ι) (thread : LockThread) : AFF4GlobalLock ι :=
  {self with threads := update self.threads i thread}

def moveTo (self : AFF4GlobalLock ι) (i : ι) (place : LockPlace) : AFF4GlobalLock ι :=
  self.setThread i {self.threads i with place := place}

def addDepth (self : AFF4GlobalLock ι) (i : ι) (change : Int) (place : LockPlace) :
    Option (AFF4GlobalLock ι) :=
  (toInt (self.depth+change)).map fun depth => {self.moveTo i place with depth := depth}

def setHolds (self : AFF4GlobalLock ι) (i : ι) (count : Nat) (place : LockPlace) :
    AFF4GlobalLock ι :=
  {self.moveTo i place with holds := update self.holds i count}

/-- The mutex is given to a thread only while no other one has it. -/
def acquire [Fintype ι] (self : AFF4GlobalLock ι) (i : ι) (place : LockPlace) :
    Option (AFF4GlobalLock ι) :=
  if ∀ j, j ≠ i → self.holds j = 0 then some (self.setHolds i (self.holds i+1) place) else none

/-- `pthread_mutex_unlock`, which is refused to a thread that does not have the mutex. -/
def release (self : AFF4GlobalLock ι) (i : ι) (place : LockPlace) : AFF4GlobalLock ι :=
  self.setHolds i (self.holds i-1) place

def unlocked (self : AFF4GlobalLock ι) (i : ι) : LockReturn → AFF4GlobalLock ι
  | .caller => self.moveTo i .outside
  | .timedwait depth before => self.moveTo i (.released depth before)
  | .allowThreads depth before =>
      self.setThread i ⟨.outside,(depth,before) :: (self.threads i).sections⟩

/-- The next step of a thread in the code of the lock. Waiting on a condition with a mutex
that is not locked exactly once has no result. -/
def goOn [Fintype ι] (self : AFF4GlobalLock ι) (i : ι) : LockPlace → Option (AFF4GlobalLock ι)
  | .outside => none
  | .locking 0 _ => some (self.moveTo i .outside)
  | .locking (todo+1) before => self.acquire i (.locked todo before)
  | .locked todo before => self.addDepth i 1 (.locking todo before)
  | .unlock number ret => some (self.moveTo i (.unlocking (min number self.depth).toNat ret))
  | .unlocking 0 ret => some (self.unlocked i ret)
  | .unlocking (todo+1) ret => self.addDepth i (-1) (.lowered todo ret)
  | .lowered todo ret => some (self.release i (.unlocking todo ret))
  | .released depth before => self.addDepth i (-1) (.sleeping depth before)
  | .sleeping depth before =>
      if self.holds i = 1 then some (self.release i (.waiting depth before)) else none
  | .waiting depth before => self.acquire i (.woken depth before)
  | .woken depth before => self.addDepth i 1 (.locking (depth-1).toNat (some before))

/-- What a thread may call if it keeps to the nesting: it gives back no more than it has, it waits
and allows threads while it has the mutex, and it ends a section when it has given back all it took
inside. -/
def call (self : AFF4GlobalLock ι) (i : ι) : Event → Option (AFF4GlobalLock ι)
  | .lock number => some (self.moveTo i (.locking number.toNat none))
  | .unlock number =>
      if number ≤ self.holds i then some (self.moveTo i (.unlock number .caller)) else none
  | .timedwait =>
      if 0 < self.holds i then
        some (self.moveTo i (.unlock (self.depth-1) (.timedwait self.depth (self.holds i))))
      else none
  | .beginAllowThreads =>
      if 0 < self.holds i then
        some (self.moveTo i (.unlock self.depth (.allowThreads self.depth (self.holds i))))
      else none
  | .endAllowThreads =>
      match (self.threads i).sections with
      | [] => none
      | (depth,before) :: rest =>
          if self.holds i = 0 then
            some (self.setThread i ⟨.locking depth.toNat (some before),rest⟩)
          else none
  | _ => none

def step [Fintype ι] (self : AFF4GlobalLock ι) : ι × Event → Option (AFF4GlobalLock ι)
  | (i,.goOn) => self.goOn i (self.threads i).place
  | (i,.refused) =>
      match (self.threads i).place with
      | .sleeping depth before => some (self.moveTo i (.woken depth before))
      | _ => none
  | (i,event) => if (self.threads i).place = .outside then self.call i event else none

end AFF4GlobalLock

def LockPlace.lag : LockPlace → Nat
  | .locked _ _ | .lowered _ _ | .sleeping _ _ | .woken _ _ => 1
  | _ => 0

/-- The recursion count of a thread that has still to unlock the mutex `todo` times. -/
def LockReturn.Fits (todo holds : Nat) : LockReturn → Prop
  | .caller => todo ≤ holds
  | .timedwait depth before => holds = todo+1 ∧ depth = before ∧ 0 < before
  | .allowThreads depth before => holds = todo ∧ depth = before ∧ 0 < before

def LockPlace.Fits (holds : Nat) : LockPlace → Prop
  | .outside => True
  | .locking todo before => ∀ b ∈ before, holds+todo = b ∧ 0 < b
  | .locked todo before => 0 < holds ∧ ∀ b ∈ before, holds+todo = b ∧ 0 < b
  | .unlock number ret => number ≤ holds ∧ ret.Fits number.toNat holds
  | .unlocking todo ret => ret.Fits todo holds
  | .lowered todo ret => ret.Fits (todo+1) holds
  | .waiting depth before => holds = 0 ∧ depth = before ∧ 0 < before
  | .released depth before | .sleeping depth before | .woken depth before =>
      holds = 1 ∧ depth = before ∧ 0 < before

variable {ret : LockReturn} {todo holds : Nat}

lemma LockReturn.Fits.pos (h : ret.Fits (todo+1) holds) : 0 < holds := by
  cases ret with
  | caller => exact lt_of_lt_of_le (succ_pos todo) h
  | timedwait depth before => exact h.1 ▸ succ_pos _
  | allowThreads depth before => exact h.1 ▸ succ_pos _

lemma LockReturn.Fits.release (h : ret.Fits (todo+1) holds) : ret.Fits todo (holds-1) := by
  cases ret with
  | caller =>
    simp only [LockReturn.Fits] at h ⊢
    omega
  | timedwait depth before =>
    obtain ⟨hh,hr⟩ := h
    exact ⟨by omega,hr⟩
  | allowThreads depth before =>
    obtain ⟨hh,hr⟩ := h
    exact ⟨by omega,hr⟩

namespace AFF4GlobalLock

variable {ι : Type}

structure Inv (s : AFF4GlobalLock ι) : Prop where
  alone : ∀ i j, 0 < s.holds i → 0 < s.holds j → i = j
  free : (∀ i, s.holds i = 0) → s.depth = 0
  counted : ∀ i, 0 < s.holds i → s.depth+((s.threads i).place.lag : Nat) = s.holds i
  fits : ∀ i, (s.threads i).place.Fits (s.holds i)
  sections : ∀ i, ∀ p ∈ (s.threads i).sections, p.1 = p.2 ∧ 0 < p.2

lemma con_inv : (con : AFF4GlobalLock ι).Inv where
  alone _ _ h := absurd h (lt_irrefl 0)
  free _ := rfl
  counted _ h := absurd h (lt_irrefl 0)
  fits _ := trivial
  sections _ _ h := absurd h List.not_mem_nil

variable {s : AFF4GlobalLock ι} {i : ι}

lemma Inv.others (hs : s.Inv) (h : 0 < s.holds i) (j : ι) (hj : j ≠ i) : s.holds j = 0 := by
  by_contra hne
  exact hj (hs.alone j i (pos_of_ne_zero hne) h)

variable [DecidableEq ι]

lemma Inv.setThread (hs : s.Inv) {thread : LockThread}
    (hl : thread.place.lag = (s.threads i).place.lag) (hf : thread.place.Fits (s.holds i))
    (hsc : ∀ p ∈ thread.sections, p.1 = p.2 ∧ 0 < p.2) : (s.setThread i thread).Inv where
  alone := hs.alone
  free := hs.free
  counted := (forall_update_iff s.threads fun j thread =>
      0 < s.holds j → s.depth+(thread.place.lag : Nat) = s.holds j).mpr
    ⟨fun ho => by rw [hl]; exact hs.counted i ho,fun j _ => hs.counted j⟩
  fits := (forall_update_iff s.threads fun j thread =>
    thread.place.Fits (s.holds j)).mpr ⟨hf,fun j _ => hs.fits j⟩
  sections := (forall_update_iff s.threads fun _ thread =>
    ∀ p ∈ thread.sections, p.1 = p.2 ∧ 0 < p.2).mpr ⟨hsc,fun j _ => hs.sections j⟩

variable {place : LockPlace}

lemma Inv.moveTo (hs : s.Inv)
    (hl : place.lag = (s.threads i).place.lag) (hf : place.Fits (s.holds i)) :
    (s.moveTo i place).Inv :=
  hs.setThread hl hf (hs.sections i)

lemma Inv.change (hs : s.Inv) {depth : Int} {count : Nat} (ho : ∀ j, j ≠ i → s.holds j = 0)
    (hc : depth+(if 0 < count then place.lag else 0 : Nat) = count)
    (hf : place.Fits count) : ({s.setHolds i count place with depth := depth}).Inv where
  alone j k hj hk := by
    have hown : ∀ j, 0 < update s.holds i count j → j = i := by
      intro j hj
      by_contra hne
      rw [update_of_ne hne,ho j hne] at hj
      exact absurd hj (lt_irrefl 0)
    rw [hown j hj,hown k hk]
  free h := by
    have hz : count = 0 := by simpa [setHolds] using h i
    simpa [hz] using hc
  counted j hj := by
    by_cases hji : j = i
    · subst hji
      simp only [setHolds,update_self] at hj
      simp only [setHolds,AFF4GlobalLock.moveTo,AFF4GlobalLock.setThread,update_self]
      simpa [hj] using hc
    · simp only [setHolds,update_of_ne hji,ho j hji] at hj
      exact absurd hj (lt_irrefl 0)
  fits j := by
    by_cases hji : j = i
    · subst hji
      simpa only [setHolds,AFF4GlobalLock.moveTo,AFF4GlobalLock.setThread,update_self] using hf
    · simpa only [setHolds,AFF4GlobalLock.moveTo,AFF4GlobalLock.setThread,
        update_of_ne hji] using hs.fits j
  sections := (forall_update_iff s.threads fun _ thread =>
    ∀ p ∈ thread.sections, p.1 = p.2 ∧ 0 < p.2).mpr ⟨hs.sections i,fun j _ => hs.sections j⟩

variable {t : AFF4GlobalLock ι}

lemma Inv.addDepth {s : AFF4GlobalLock ι} (hs : s.Inv) {change : Int}
    (h : s.addDepth i change place = some t) (ho : 0 < s.holds i)
    (hl : change+(place.lag : Nat) = ((s.threads i).place.lag : Nat))
    (hf : place.Fits (s.holds i)) : t.Inv := by
  obtain ⟨depth,hd,rfl⟩ := map_eq_some_iff.mp h
  obtain ⟨rfl,-,-⟩ := toInt_eq_some hd
  have hcn := hs.counted i ho
  have hsa : s.setHolds i (s.holds i) place = s.moveTo i place := by
    simp [setHolds,AFF4GlobalLock.moveTo,AFF4GlobalLock.setThread]
  have hc : s.depth+change+(if 0 < s.holds i then place.lag else 0 : Nat) =
      s.holds i := by
    rw [if_pos ho]
    omega
  have hi := hs.change (hs.others ho) hc hf
  rwa [hsa] at hi

lemma Inv.acquire [Fintype ι] {s : AFF4GlobalLock ι} (hs : s.Inv)
    (h : s.acquire i place = some t) (hl : (s.threads i).place.lag = 0) (hp : place.lag = 1)
    (hf : place.Fits (s.holds i+1)) : t.Inv := by
  rw [AFF4GlobalLock.acquire] at h
  split at h
  · next ho =>
    cases h
    have hd : s.depth = s.holds i := by
      by_cases hown : 0 < s.holds i
      · simpa [hl] using hs.counted i hown
      · have hz : s.holds i = 0 := Nat.eq_zero_of_not_pos hown
        have hfr : ∀ j, s.holds j = 0 := by
          intro j
          by_cases hji : j = i
          · exact hji ▸ hz
          · exact ho j hji
        rw [hs.free hfr,hz]
        rfl
    refine hs.change ho ?_ hf
    change s.depth+_ = _
    rw [if_pos (succ_pos _),hp,hd]
    rfl
  · cases h

lemma Inv.release (hs : s.Inv)
    (ho : 0 < s.holds i) (hl : (s.threads i).place.lag = 1) (hp : place.lag = 0)
    (hf : place.Fits (s.holds i-1)) : (s.release i place).Inv := by
  have hc := hs.counted i ho
  refine hs.change (hs.others ho) ?_ hf
  change s.depth+_ = _
  rw [hp,ite_self]
  omega

lemma call_inv {s : AFF4GlobalLock ι} (hs : s.Inv) {event : Event}
    (hp : (s.threads i).place = .outside) (h : s.call i event = some t) : t.Inv := by
  have hl : (s.threads i).place.lag = 0 := by rw [hp]; rfl
  -- The counter is exact for a thread that has the mutex and is not in the code of the lock.
  have hd : 0 < s.holds i → s.depth = s.holds i := by
    intro ho
    simpa [hl] using hs.counted i ho
  cases event with
  | lock number =>
    cases h
    exact hs.moveTo hl.symm fun b hb => absurd hb (not_mem_none b)
  | unlock number =>
    simp only [call] at h
    split at h
    · next hle =>
      cases h
      refine hs.moveTo hl.symm ⟨hle,?_⟩
      simp only [LockReturn.Fits]
      omega
    · cases h
  | timedwait | beginAllowThreads =>
    simp only [call] at h
    split at h
    · next ho =>
      cases h
      have := hd ho
      exact hs.moveTo hl.symm ⟨by omega,by omega,this,ho⟩
    · cases h
  | endAllowThreads =>
    simp only [call] at h
    split at h
    · cases h
    · next depth before rest hsc =>
      have ha := hs.sections i
      rw [hsc] at ha
      obtain ⟨⟨hsa,hps⟩,hr⟩ := List.forall_mem_cons.mp ha
      split at h
      · next hz =>
        cases h
        refine hs.setThread hl.symm ?_ hr
        intro b hb
        obtain rfl := mem_some.mp hb
        exact ⟨by omega,hps⟩
      · cases h
  | goOn => cases h
  | refused => cases h

lemma unlocked_inv (hs : s.Inv) {ret : LockReturn}
    (hp : (s.threads i).place = .unlocking 0 ret) : (s.unlocked i ret).Inv := by
  have hl : (s.threads i).place.lag = 0 := by rw [hp]; rfl
  have hf := hs.fits i
  rw [hp] at hf
  cases ret with
  | caller => exact hs.moveTo hl.symm trivial
  | timedwait depth before => exact hs.moveTo hl.symm hf
  | allowThreads depth before =>
    exact hs.setThread hl.symm trivial (List.forall_mem_cons.mpr ⟨hf.2,hs.sections i⟩)

lemma goOn_inv [Fintype ι] {s : AFF4GlobalLock ι} (hs : s.Inv)
    (hp : (s.threads i).place = place) (h : s.goOn i place = some t) : t.Inv := by
  have hl : (s.threads i).place.lag = place.lag := by rw [hp]
  have hf := hs.fits i
  rw [hp] at hf
  cases place with
  | outside => cases h
  | locking todo before =>
    cases todo with
    | zero =>
      cases h
      exact hs.moveTo hl.symm trivial
    | succ todo =>
      refine hs.acquire h hl rfl ⟨succ_pos _,fun b hb => ?_⟩
      obtain ⟨hcn,hps⟩ := hf b hb
      exact ⟨by omega,hps⟩
  | locked todo before =>
    exact hs.addDepth h hf.1 (by rw [hl]; rfl) hf.2
  | unlock number ret =>
    cases h
    obtain ⟨hle,hf⟩ := hf
    have hm : (min number s.depth).toNat = number.toNat := by
      by_cases hown : 0 < s.holds i
      · have hc := hs.counted i hown
        rw [hl] at hc
        simp only [LockPlace.lag] at hc
        omega
      · omega
    refine hs.moveTo hl.symm ?_
    rw [hm]
    exact hf
  | unlocking todo ret =>
    cases todo with
    | zero =>
      cases h
      exact unlocked_inv hs hp
    | succ todo =>
      exact hs.addDepth h (LockReturn.Fits.pos hf) (by rw [hl]; rfl) hf
  | lowered todo ret =>
    cases h
    exact hs.release (LockReturn.Fits.pos hf) hl rfl (LockReturn.Fits.release hf)
  | released depth before =>
    exact hs.addDepth h (hf.1 ▸ one_pos) (by rw [hl]; rfl) hf
  | sleeping depth before =>
    rw [goOn,if_pos hf.1] at h
    cases h
    exact hs.release (hf.1 ▸ one_pos) hl rfl ⟨by rw [hf.1],hf.2⟩
  | waiting depth before =>
    exact hs.acquire h hl rfl ⟨by rw [hf.1],hf.2⟩
  | woken depth before =>
    obtain ⟨ho,hsa,hps⟩ := hf
    refine hs.addDepth h (ho ▸ one_pos) (by rw [hl]; rfl) fun b hb => ?_
    obtain rfl := mem_some.mp hb
    exact ⟨by omega,hps⟩

lemma step_inv [Fintype ι] (s : AFF4GlobalLock ι) (e : ι × Event) (t : AFF4GlobalLock ι)
    (hs : s.Inv) (h : s.step e = some t) : t.Inv := by
  obtain ⟨i,event⟩ := e
  cases event with
  | goOn => exact goOn_inv hs rfl h
  | refused =>
    simp only [step] at h
    split at h
    · next depth before hp =>
      cases h
      have hf := hs.fits i
      rw [hp] at hf
      exact hs.moveTo (by rw [hp]; rfl) hf
    · cases h
  | lock number | unlock number | timedwait | beginAllowThreads | endAllowThreads =>
    simp only [step] at h
    split at h
    · next hp => exact call_inv hs hp h
    · cases h

/-- In every reachable state at most one thread has the mutex, and the counter is its recursion
count, up to the change it is in the middle of. A timed wait and an allow-threads section end with
the count from before. -/
theorem depth_reachable [Fintype ι] {events : List (ι × Event)} {s : AFF4GlobalLock ι}
    (h : Transition.run step con events = some s) :
    (∀ i j, 0 < s.holds i → 0 < s.holds j → i = j) ∧
    ((∀ i, s.holds i = 0) → s.depth = 0) ∧
    (∀ i, 0 < s.holds i → s.depth+((s.threads i).place.lag : Nat) = s.holds i) ∧
    ∀ i before t, (s.threads i).place = .locking 0 (some before) → s.step (i,.goOn) = some t →
      (t.threads i).place = .outside ∧ t.holds i = before ∧ 0 < t.holds i := by
  have hs : s.Inv := Transition.run_invariant step_inv h con_inv
  refine ⟨hs.alone,hs.free,hs.counted,fun i before t hp ht => ?_⟩
  have hf := hs.fits i
  rw [hp] at hf
  obtain ⟨hc,hps⟩ := hf before rfl
  rw [step,hp] at ht
  cases ht
  refine ⟨by simp [moveTo,setThread],hc,?_⟩
  exact lt_of_lt_of_eq hps hc.symm

def handOver : List (Fin 2 × Event) :=
  (0,.lock 2) :: List.replicate 5 (0,.goOn) ++ (0,.timedwait) :: List.replicate 6 (0,.goOn) ++
    (1,.lock 1) :: List.replicate 3 (1,.goOn) ++ (1,.unlock 1) :: List.replicate 4 (1,.goOn) ++
    List.replicate 4 (0,.goOn)

theorem depth_reachable_handOver :
    ∃ s t, Transition.run step con handOver = some s ∧ s.step (0,.goOn) = some t ∧
      (t.threads 0).place = .outside ∧ t.holds 0 = 2 ∧ 0 < t.holds 0 := by
  have hp : (Transition.run step con handOver).map (fun s => (s.threads 0).place) =
      some (.locking 0 (some 2)) := by decide +kernel
  obtain ⟨s,hs,hp⟩ := map_eq_some_iff.mp hp
  have ht : s.step (0,.goOn) = some (s.moveTo 0 .outside) := by rw [step,hp]; rfl
  exact ⟨s,_,hs,ht,(depth_reachable hs).2.2.2 0 2 _ hp ht⟩

end AFF4GlobalLock

/-! ### The deadline of a timed wait -/

structure Timeval where
  tvSec : Int
  tvUsec : Int
  deriving DecidableEq, Repr

structure Timespec where
  tvSec : Int
  tvNsec : Int
  deriving DecidableEq, Repr

def Timeval.nanoseconds (t : Timeval) : Int := t.tvSec*10^9+t.tvUsec*1000

def Timespec.nanoseconds (t : Timespec) : Int := t.tvSec*10^9+t.tvNsec

/-- A `time_t` that holds the time and less than a second beside it. -/
structure Timeval.Proper (t : Timeval) : Prop where
  secLow : -2^63 ≤ t.tvSec
  secHigh : t.tvSec < 2^63
  usecLow : 0 ≤ t.tvUsec
  usecHigh : t.tvUsec < 10^6

def Timespec.Valid (t : Timespec) : Prop := 0 ≤ t.tvNsec ∧ t.tvNsec < 10^9

namespace AFF4GlobalLock

def deadline (now : Timeval) (timeout : Int) : Option Timespec :=
  (toLong (now.tvSec+timeout.tdiv 1000000)).bind fun sec =>
    (toLong ((now.tvUsec+timeout.tmod 1000000)*1000)).map fun nsec => ⟨sec,nsec⟩

/-- When `pthread_cond_timedwait` may return an error: at once for a deadline that is not
valid, and otherwise when the deadline has passed. -/
def MayGiveUp (deadline : Timespec) (finish : Int) : Prop :=
  ¬ deadline.Valid ∨ deadline.nanoseconds ≤ finish

/-- The deadline is valid and exact, and a call that began at `called` and waits from `now` on
does not give up before its timeout has elapsed. -/
def WaitsOut (now : Timeval) (timeout : Int) : Prop :=
  ∃ d, deadline now timeout = some d ∧ d.Valid ∧ d.nanoseconds = now.nanoseconds+timeout*1000 ∧
    ∀ called finish, called ≤ now.nanoseconds → now.nanoseconds ≤ finish → MayGiveUp d finish →
      called+timeout*1000 ≤ finish

variable {now : Timeval} {timeout : Int}

lemma deadline_eq (hn : now.Proper) (h0 : 0 ≤ timeout) (hs : now.tvSec+timeout/10^6 < 2^63) :
    deadline now timeout = some ⟨now.tvSec+timeout/10^6,(now.tvUsec+timeout%10^6)*1000⟩ := by
  have hl := hn.secLow
  have hu := hn.usecLow
  have hu' := hn.usecHigh
  have hd : timeout.tdiv 1000000 = timeout/10^6 := Int.tdiv_eq_ediv_of_nonneg h0
  have hm : timeout.tmod 1000000 = timeout%10^6 := Int.tmod_eq_emod_of_nonneg h0
  rw [deadline,hd,hm,toLong,if_pos (by omega),bind_some,toLong,if_pos (by omega)]
  rfl

lemma deadline_none (h0 : 0 ≤ timeout)
    (hs : ¬ now.tvSec+timeout/10^6 < 2^63) : deadline now timeout = none := by
  have hd : timeout.tdiv 1000000 = timeout/10^6 := Int.tdiv_eq_ediv_of_nonneg h0
  rw [deadline,hd,toLong,if_neg (by omega)]
  rfl

/-- The microseconds must not add up to a second, since no carry is made. -/
theorem waitsOut_iff {now : Timeval} (hn : now.Proper) {timeout : Int} (h0 : 0 ≤ timeout) :
    WaitsOut now timeout ↔
      now.tvUsec+timeout%10^6 < 10^6 ∧ now.tvSec+timeout/10^6 < 2^63 := by
  by_cases hs : now.tvSec+timeout/10^6 < 2^63
  · have hd := deadline_eq hn h0 hs
    have hu := hn.usecLow
    have he : (now.tvSec+timeout/10^6)*10^9+(now.tvUsec+timeout%10^6)*1000 =
        now.nanoseconds+timeout*1000 := by
      rw [Timeval.nanoseconds]
      omega
    constructor
    · rintro ⟨d,hd',hv,-⟩
      rw [hd,some.injEq] at hd'
      subst hd'
      have := hv.2
      simp only at this
      exact ⟨by omega,hs⟩
    · rintro ⟨hcr,-⟩
      have hv : (⟨now.tvSec+timeout/10^6,(now.tvUsec+timeout%10^6)*1000⟩ : Timespec).Valid :=
        ⟨by simp only; omega,by simp only; omega⟩
      refine ⟨_,hd,hv,he,fun called finish hc hf hg => ?_⟩
      rcases hg with hi | hp
      · exact absurd hv hi
      · rw [Timespec.nanoseconds,he] at hp
        omega
  · have hd := deadline_none h0 hs
    constructor
    · rintro ⟨d,hd',-⟩
      rw [hd] at hd'
      cases hd'
    · rintro ⟨-,hlt⟩
      exact absurd hlt hs

theorem waitsOut_tenth : WaitsOut ⟨1700000000,0⟩ 100000 :=
  (waitsOut_iff ⟨by decide,by decide,by decide,by decide⟩ (by decide)).mpr
    ⟨by decide,by decide⟩

/-- The same timeout in the last tenth of a second. -/
theorem waitsOut_fails :
    (⟨1700000000,950000⟩ : Timeval).Proper ∧ ¬ WaitsOut ⟨1700000000,950000⟩ 100000 := by
  refine ⟨⟨by decide,by decide,by decide,by decide⟩,?_⟩
  rintro ⟨d,hd,hv,-⟩
  have hd' : deadline ⟨1700000000,950000⟩ 100000 = some ⟨1700000000,1050000000⟩ := by decide
  rw [hd',some.injEq] at hd
  subst hd
  exact absurd hv.2 (by decide)

end AFF4GlobalLock

end Aff4
