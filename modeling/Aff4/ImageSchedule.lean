import Mathlib.Data.List.Chain
import Aff4.ImagePartition
import Aff4.ThreadPool

/-! The caller of an image and its thread pool. `AFF4Image_write` and `AFF4Image_close` do not look
at what `schedule()` returns, which is 0 when the queue has no room for 60 seconds. -/

namespace Aff4

open LittleEndian Loop Transition List Option

namespace AFF4Image

lemma fillTurn_numbers {buffer : Bytes} {offset : Int} {u : AFF4Image}
    {outcome : Turn (Int × AFF4Image) AFF4Image} (h : fillTurn buffer (offset,u) = some outcome) :
    outcome = .done u ∨ ∃ offset' next, outcome = .next (offset',next) ∧
      next.segmentCount = u.segmentCount ∧
      next.current.segmentCount = u.current.segmentCount := by
  rw [fillTurn] at h
  split at h
  · exact .inl (some.inj h).symm
  · obtain ⟨bevy,-,h⟩ := bind_eq_some_iff.mp h
    obtain ⟨offset',-,h⟩ := bind_eq_some_iff.mp h
    exact .inr ⟨offset',_,(some.inj h).symm,rfl,rfl⟩

def replace (self : AFF4Image) (taken : Bool) : Option AFF4Image :=
  self.flush.map fun next => if taken then next else {next with scheduled := self.scheduled}

end AFF4Image

/-- What the caller is doing: nothing, at the head of the loop in `AFF4Image_write`, waiting in
`schedule()`, or waiting for the threads. -/
inductive Phase where
  | idle
  | writing (buffer : Bytes) (offset : Int)
  | waiting (buffer : Bytes) (offset : Int) (ticket : Nat)
  | closing (ticket : Nat)
  | joining
  deriving DecidableEq

/-- A `schedule()` that returned: which call made it, for which bevy, from where, and whether the
pool took the bevy. -/
structure Attempt where
  call : Nat
  bevy : Nat
  closing : Bool
  taken : Bool
  deriving DecidableEq

/-- The jobs in the pool are named by the numbers of their bevies. The last two fields are
history: the attempts so far, and the calls that reported success. -/
structure ImageSession where
  image : AFF4Image
  pool : ThreadPool Nat
  phase : Phase
  calls : Nat
  attempts : List Attempt
  reports : List Nat

namespace ImageSession

inductive Event where
  | write (buffer : Bytes)
  | close
  | turn
  | signalled
  | timedOut
  | joined
  | worker (e : ThreadPool.Event Nat)

def ofThread : ThreadPool.Event Nat → Bool
  | .start _ | .getSignalled _ | .getTimedOut _ | .jobDone _ | .joinThread => true
  | _ => false

def start (image : AFF4Image) (threads : Nat) : ImageSession := ⟨image,.con threads,.idle,0,[],[]⟩

def began (self : ImageSession) : ImageSession := {self with calls := self.calls+1}

/-- `write` returns the length and `close` returns 1. -/
def report (self : ImageSession) : ImageSession :=
  {self with phase := .idle, reports := self.reports ++ [self.calls]}

def answered (self : ImageSession) (closing taken : Bool) : ImageSession :=
  {self with attempts := self.attempts ++
    [⟨self.calls,self.image.current.segmentCount,closing,taken⟩]}

def nextBevy (self : ImageSession) (buffer : Bytes) (offset : Int) (taken : Bool) :
    Option ImageSession :=
  (self.image.replace taken).map fun image =>
    {self.answered false taken with image := image, phase := .writing buffer offset}

/-- `AFF4Image_close` after `schedule()`. The current bevy stays where it is. -/
def awaitThreads (self : ImageSession) (taken : Bool) : Option ImageSession :=
  (self.pool.step .join).map fun pool => {self.answered true taken with
    pool := pool
    phase := .joining
    image := {self.image with scheduled :=
      if taken then self.image.scheduled ++ [self.image.current] else self.image.scheduled}}

/-- `schedule()` either waits or goes on at once. -/
def schedule (self : ImageSession) (wait : Nat → Phase)
    (go : ImageSession → Bool → Option ImageSession) : Option ImageSession :=
  (self.pool.step (.schedule self.image.current.segmentCount)).bind fun pool =>
    if self.pool.jobs.full then some {self with pool := pool, phase := wait self.pool.calls}
    else go {self with pool := pool} true

def takeTurn (self : ImageSession) (buffer : Bytes) (offset : Int) : Option ImageSession :=
  (AFF4Image.fillTurn buffer (offset,self.image)).bind fun
    | .done image => some {self with image := image}.report
    | .next (offset,image) =>
      let self := {self with image := image, phase := .writing buffer offset}
      if image.bevySize ≤ image.current.bevy.data.length then
        self.schedule (.waiting buffer offset) fun self taken => self.nextBevy buffer offset taken
      else some self

def wake (self : ImageSession) (taken : Bool) : Option ImageSession :=
  let event : Nat → ThreadPool.Event Nat := if taken then .putSignalled else .putTimedOut
  match self.phase with
  | .waiting buffer offset ticket => (self.pool.step (event ticket)).bind fun pool =>
      {self with pool := pool}.nextBevy buffer offset taken
  | .closing ticket => (self.pool.step (event ticket)).bind fun pool =>
      {self with pool := pool}.awaitThreads taken
  | _ => none

def step (self : ImageSession) : Event → Option ImageSession
  | .write buffer =>
    if self.phase = .idle then some {self.began with phase := .writing buffer 0} else none
  | .close =>
    if self.phase = .idle then
      self.began.schedule .closing fun self taken => self.awaitThreads taken
    else none
  | .turn =>
    match self.phase with
    | .writing buffer offset => self.takeTurn buffer offset
    | _ => none
  | .signalled => self.wake true
  | .timedOut => self.wake false
  | .joined =>
    if self.phase = .joining ∧ self.pool.joined = some self.pool.threads.length then
      some self.report
    else none
  | .worker e =>
    match self.phase with
    | .writing _ _ => none
    | _ => if ofThread e then (self.pool.step e).map fun pool => {self with pool := pool} else none

def Lossy (self : ImageSession) (e : Event) : Prop :=
  e = .timedOut ∧ ∃ buffer offset ticket, self.phase = .waiting buffer offset ticket

structure Keeps (s t : ImageSession) : Prop where
  attempts : t.attempts = s.attempts
  count : t.image.segmentCount = s.image.segmentCount
  current : t.image.current.segmentCount = s.image.current.segmentCount

structure Quiet (s t : ImageSession) : Prop extends Keeps s t where
  reports : t.reports = s.reports
  calls : s.phase ≠ .idle → t.phase ≠ .idle ∧ t.calls = s.calls

structure Reports (s t : ImageSession) : Prop extends Keeps s t where
  reports : t.reports = s.reports ++ [s.calls]

/-- An attempt ends. Only `close` keeps its bevy. -/
structure Answers (s t : ImageSession) (closing taken : Bool) : Prop where
  attempts : t.attempts = s.attempts ++ [⟨t.calls,s.image.current.segmentCount,closing,taken⟩]
  reports : t.reports = s.reports
  kept : closing = true → t.image.segmentCount = s.image.segmentCount ∧
    t.image.current.segmentCount = s.image.current.segmentCount
  replaced : closing = false → t.image.segmentCount = s.image.segmentCount+1 ∧
    t.image.current.segmentCount = s.image.segmentCount+1
  calls : t.phase ≠ .idle ∧ (s.phase ≠ .idle → t.calls = s.calls)

variable {taken : Bool}

variable {image writer : AFF4Image} {buffer : Bytes} {offset : Int} {e : Event}

lemma replace_numbers {next : AFF4Image}
    (h : image.replace taken = some next) : next.segmentCount = image.segmentCount+1 ∧
      next.current.segmentCount = image.segmentCount+1 := by
  obtain ⟨flushed,hf,rfl⟩ := map_eq_some_iff.mp h
  obtain ⟨_,-,rfl⟩ := map_eq_some_iff.mp hf
  cases taken <;> exact ⟨rfl,rfl⟩

variable {s t : ImageSession}

lemma nextBevy_answers (h : s.nextBevy buffer offset taken = some t) : Answers s t false taken := by
  obtain ⟨image,hi,rfl⟩ := map_eq_some_iff.mp h
  exact ⟨rfl,rfl,fun h => (by cases h),fun _ => replace_numbers hi,
    fun h => (by cases h),fun _ => rfl⟩

lemma awaitThreads_answers (h : s.awaitThreads taken = some t) : Answers s t true taken := by
  obtain ⟨pool,-,rfl⟩ := map_eq_some_iff.mp h
  exact ⟨rfl,rfl,fun _ => ⟨rfl,rfl⟩,fun h => (by cases h),fun h => (by cases h),fun _ => rfl⟩

lemma schedule_cases {wait : Nat → Phase}
    {go : ImageSession → Bool → Option ImageSession} (h : s.schedule wait go = some t) :
    ∃ pool, t = {s with pool := pool, phase := wait s.pool.calls} ∨
      go {s with pool := pool} true = some t := by
  obtain ⟨pool,-,h⟩ := bind_eq_some_iff.mp h
  refine ⟨pool,?_⟩
  split at h
  · exact .inl (some.inj h).symm
  · exact .inr h

lemma takeTurn_cases (h : s.takeTurn buffer offset = some t) :
    s.Quiet t ∨ s.Reports t ∨ s.Answers t false true := by
  obtain ⟨outcome,hf,h⟩ := bind_eq_some_iff.mp h
  obtain rfl | ⟨offset',image,rfl,hcn,hc⟩ := AFF4Image.fillTurn_numbers hf
  · cases h
    exact .inr (.inl ⟨⟨rfl,rfl,rfl⟩,rfl⟩)
  · simp only at h
    split at h
    · obtain ⟨pool,rfl | hgo⟩ := schedule_cases h
      · exact .inl ⟨⟨rfl,hcn,hc⟩,rfl,fun _ => ⟨fun h => (by cases h),rfl⟩⟩
      · have ha := nextBevy_answers hgo
        refine .inr (.inr ⟨?_,ha.reports,fun h => (by cases h),fun _ => ?_,ha.calls.1,fun _ =>
          ha.calls.2 fun h => (by cases h)⟩)
        · rw [ha.attempts,hc]
        · rw [← hcn]
          exact ha.replaced rfl
    · cases h
      exact .inl ⟨⟨rfl,hcn,hc⟩,rfl,fun _ => ⟨fun h => (by cases h),rfl⟩⟩

lemma wake_answers (h : s.wake taken = some t) :
    (∃ buffer offset ticket, s.phase = .waiting buffer offset ticket) ∧ s.Answers t false taken ∨
      (∃ ticket, s.phase = .closing ticket) ∧ s.Answers t true taken := by
  rw [wake] at h
  split at h
  · next buffer offset ticket hp =>
    obtain ⟨pool,-,h⟩ := bind_eq_some_iff.mp h
    have ha := nextBevy_answers h
    exact .inl ⟨⟨_,_,_,hp⟩,ha.attempts,ha.reports,ha.kept,ha.replaced,ha.calls⟩
  · next ticket hp =>
    obtain ⟨pool,-,h⟩ := bind_eq_some_iff.mp h
    have ha := awaitThreads_answers h
    exact .inr ⟨⟨_,hp⟩,ha.attempts,ha.reports,ha.kept,ha.replaced,ha.calls⟩
  · cases h

lemma step_cases (h : s.step e = some t) : (¬ s.Lossy e ∧ (s.Quiet t ∨ s.Reports t)) ∨
      ∃ closing taken, s.Answers t closing taken ∧
        (s.Lossy e ↔ closing = false ∧ taken = false) := by
  cases e with
  | write buffer =>
    rw [step] at h
    split at h
    · next hi =>
      cases h
      exact .inl ⟨fun hl => (by cases hl.1),.inl ⟨⟨rfl,rfl,rfl⟩,rfl,fun hne => absurd hi hne⟩⟩
    · cases h
  | close =>
    rw [step] at h
    split at h
    · next hi =>
      obtain ⟨pool,rfl | hgo⟩ := schedule_cases h
      · exact .inl ⟨fun hl => (by cases hl.1),.inl ⟨⟨rfl,rfl,rfl⟩,rfl,fun hne => absurd hi hne⟩⟩
      · have ha := awaitThreads_answers hgo
        refine .inr ⟨true,true,⟨ha.attempts,ha.reports,ha.kept,ha.replaced,ha.calls.1,
          fun hne => absurd hi hne⟩,?_⟩
        exact iff_of_false (fun hl => (by cases hl.1)) (by simp)
    · cases h
  | turn =>
    rw [step] at h
    split at h
    · have hn : ¬ s.Lossy .turn := fun hl => (by cases hl.1)
      obtain hq | hr | ha := takeTurn_cases h
      · exact .inl ⟨hn,.inl hq⟩
      · exact .inl ⟨hn,.inr hr⟩
      · exact .inr ⟨false,true,ha,iff_of_false hn (by simp)⟩
    · cases h
  | signalled =>
    have hn : ¬ s.Lossy .signalled := fun hl => (by cases hl.1)
    obtain ⟨-,ha⟩ | ⟨-,ha⟩ := wake_answers h
    · exact .inr ⟨false,true,ha,iff_of_false hn (by simp)⟩
    · exact .inr ⟨true,true,ha,iff_of_false hn (by simp)⟩
  | timedOut =>
    obtain ⟨hp,ha⟩ | ⟨⟨ticket,hp⟩,ha⟩ := wake_answers h
    · exact .inr ⟨false,false,ha,iff_of_true ⟨rfl,hp⟩ ⟨rfl,rfl⟩⟩
    · refine .inr ⟨true,false,ha,iff_of_false ?_ (by simp)⟩
      rintro ⟨-,buffer,offset,ticket',hw⟩
      rw [hp] at hw
      cases hw
  | joined =>
    rw [step] at h
    split at h
    · cases h
      exact .inl ⟨fun hl => (by cases hl.1),.inr ⟨⟨rfl,rfl,rfl⟩,rfl⟩⟩
    · cases h
  | worker e =>
    rw [step] at h
    split at h
    · cases h
    · split at h
      · obtain ⟨pool,-,rfl⟩ := map_eq_some_iff.mp h
        exact .inl ⟨fun hl => (by cases hl.1),.inl ⟨⟨rfl,rfl,rfl⟩,rfl,fun hne => ⟨hne,rfl⟩⟩⟩
      · cases h

/-- A bevy that `write` had to give up has a smaller number than all that come after it. The one
of a `close` is also that of the next attempt. -/
structure Inv (s : ImageSession) : Prop where
  number : s.image.current.segmentCount = s.image.segmentCount
  below : ∀ a ∈ s.attempts, a.bevy ≤ s.image.segmentCount ∧
    (a.closing = false → a.bevy < s.image.segmentCount)
  later : s.attempts.Pairwise fun a b => a.closing = false → a.bevy < b.bevy
  next : s.attempts.IsChain fun a b => a.closing = true → b.bevy = a.bevy
  kept : ∀ a ∈ s.attempts.getLast?, a.closing = true → a.bevy = s.image.segmentCount
  call : ∀ a ∈ s.attempts, a.call ∈ s.reports ∨ a.call = s.calls ∧ s.phase ≠ .idle

lemma Keeps.inv (h : s.Keeps t) (hs : s.Inv)
    (hc : ∀ a ∈ s.attempts, a.call ∈ t.reports ∨ a.call = t.calls ∧ t.phase ≠ .idle) : t.Inv := by
  refine ⟨?_,?_,h.attempts ▸ hs.later,h.attempts ▸ hs.next,?_,h.attempts ▸ hc⟩
  · rw [h.current,h.count,hs.number]
  · rw [h.attempts,h.count]
    exact hs.below
  · rw [h.attempts,h.count]
    exact hs.kept

lemma Quiet.inv (h : s.Quiet t) (hs : s.Inv) : t.Inv := by
  refine h.toKeeps.inv hs fun a ha => ?_
  rw [h.reports]
  rcases hs.call a ha with hm | ⟨hc,hp⟩
  · exact .inl hm
  · exact .inr ⟨hc.trans (h.calls hp).2.symm,(h.calls hp).1⟩

lemma Reports.inv (h : s.Reports t) (hs : s.Inv) : t.Inv := by
  refine h.toKeeps.inv hs fun a ha => ?_
  rw [h.reports]
  rcases hs.call a ha with hm | ⟨hc,-⟩
  · exact .inl (mem_append_left _ hm)
  · exact .inl (mem_append_right _ (hc ▸ mem_singleton_self _))

lemma Answers.inv {closing taken : Bool} (h : s.Answers t closing taken) (hs : s.Inv) : t.Inv := by
  have hcn : s.image.segmentCount ≤ t.image.segmentCount ∧
      (closing = false → s.image.segmentCount < t.image.segmentCount) := by
    cases closing with
    | true => exact ⟨(h.kept rfl).1.ge,fun h => (by cases h)⟩
    | false =>
      have := (h.replaced rfl).1
      exact ⟨by omega,fun _ => (by omega)⟩
  refine ⟨?_,?_,?_,?_,?_,?_⟩
  · cases closing with
    | true => rw [(h.kept rfl).1,(h.kept rfl).2,hs.number]
    | false => rw [(h.replaced rfl).1,(h.replaced rfl).2]
  · rw [h.attempts]
    intro a ha
    rcases mem_append.mp ha with ha | ha
    · obtain ⟨hle,hlt⟩ := hs.below a ha
      exact ⟨hle.trans hcn.1,fun hc => (hlt hc).trans_le hcn.1⟩
    · obtain rfl := mem_singleton.mp ha
      exact ⟨hs.number.le.trans hcn.1,fun hc => hs.number.trans_lt (hcn.2 hc)⟩
  · rw [h.attempts,pairwise_append]
    refine ⟨hs.later,pairwise_singleton _ _,fun a ha b hb hc => ?_⟩
    obtain rfl := mem_singleton.mp hb
    exact ((hs.below a ha).2 hc).trans_eq hs.number.symm
  · rw [h.attempts,isChain_append]
    refine ⟨hs.next,isChain_singleton _,fun a ha b hb hc => ?_⟩
    cases hb
    exact hs.number.trans (hs.kept a ha hc).symm
  · rw [h.attempts,getLast?_concat]
    rintro a ⟨⟩ hc
    exact hs.number.trans (h.kept hc).1.symm
  · rw [h.attempts,h.reports]
    intro a ha
    rcases mem_append.mp ha with ha | ha
    · rcases hs.call a ha with hm | ⟨hcl,hp⟩
      · exact .inl hm
      · exact .inr ⟨hcl.trans (h.calls.2 hp).symm,h.calls.1⟩
    · obtain rfl := mem_singleton.mp ha
      exact .inr ⟨rfl,h.calls.1⟩

lemma step_inv (hs : s.Inv) (h : s.step e = some t) : t.Inv := by
  obtain ⟨-,hq | hr⟩ | ⟨closing,taken,ha,-⟩ := step_cases h
  · exact hq.inv hs
  · exact hr.inv hs
  · exact ha.inv hs

lemma step_attempts (h : s.step e = some t) : s.attempts <+: t.attempts := by
  obtain ⟨-,hq | hr⟩ | ⟨closing,taken,ha,-⟩ := step_cases h
  · exact hq.attempts ▸ prefix_refl _
  · exact hr.attempts ▸ prefix_refl _
  · exact ha.attempts ▸ prefix_append _ _

lemma writes_taken_iff {threads : Nat} {es : List Event} {s : ImageSession}
    (h : run step (start writer threads) es = some s) :
    Along step (fun s e => ¬ s.Lossy e) (start writer threads) es ↔
      ∀ a ∈ s.attempts, a.closing = false → a.taken = true := by
  constructor
  · intro hal
    refine run_invariant_along (I := fun x => ∀ a ∈ x.attempts, a.closing = false →
      a.taken = true) (fun u e v hu hn hs => ?_) h hal (by simp [start])
    obtain ⟨-,hq | hr⟩ | ⟨closing,taken,ha,hi⟩ := step_cases hs
    · exact hq.attempts ▸ hu
    · exact hr.attempts ▸ hu
    · rw [ha.attempts]
      intro x hx hc
      rcases mem_append.mp hx with hx | hx
      · exact hu x hx hc
      · obtain rfl := mem_singleton.mp hx
        cases taken with
        | true => rfl
        | false => exact absurd (hi.mpr ⟨hc,rfl⟩) hn
  · intro hall
    by_contra hal
    obtain ⟨_,after,e,u,v,-,hl,hs,haf⟩ := exists_step_of_not_along h hal
    obtain ⟨hn,-⟩ | ⟨closing,taken,ha,hi⟩ := step_cases hs
    · exact hl hn
    · obtain ⟨rfl,rfl⟩ := hi.mp (Classical.not_not.mp hl)
      have hg : v.attempts <+: s.attempts := run_invariant
        (I := fun x => v.attempts <+: x.attempts)
        (fun _ _ _ hx h => hx.trans (step_attempts h)) haf (prefix_refl _)
      rw [ha.attempts] at hg
      have ht := hall _ (hg.subset (mem_append_right _ (mem_singleton_self _)))
        rfl
      cases ht

def TakenLater (a : Attempt) (later : List Attempt) : Prop :=
  ∃ b ∈ later, b.bevy = a.bevy ∧ b.taken = true

/-- Where the pool did not take a bevy, the call did not report success or the bevy was taken
later. -/
def NoSilentLoss (s : ImageSession) : Prop :=
  ∀ before a later, s.attempts = before ++ a :: later → a.taken = false →
    a.call ∉ s.reports ∨ TakenLater a later

/-- The pool took what was last handed to it. -/
def LastTaken (s : ImageSession) : Prop := ∀ a ∈ s.attempts.getLast?, a.taken = true

lemma Inv.not_takenLater {s : ImageSession} (hs : s.Inv) {before later : List Attempt}
    {a : Attempt} (hsp : s.attempts = before ++ a :: later) (ha : a.closing = false) :
    ¬ TakenLater a later := by
  rintro ⟨b,hb,hbv,-⟩
  have hp := hs.later
  rw [hsp,pairwise_append,pairwise_cons] at hp
  exact absurd hbv (ne_of_gt (hp.2.1.1 b hb ha))

/-- The attempts that follow one of `close` are for its bevy, up to the first that is taken. -/
lemma takenLater_of_last {a : Attempt} {later : List Attempt}
    (hn : (a :: later).IsChain fun a b => a.closing = true → b.bevy = a.bevy)
    (hw : ∀ b ∈ a :: later, b.closing = false → b.taken = true)
    (hl : ∀ b ∈ (a :: later).getLast?, b.taken = true) (ha : a.taken = false) :
    TakenLater a later := by
  induction later generalizing a with
  | nil =>
    rw [hl a rfl] at ha
    cases ha
  | cons b later ih =>
    obtain ⟨hb,hn⟩ := isChain_cons_cons.mp hn
    have hc : a.closing = true := by
      by_contra hc
      rw [hw a mem_cons_self (Bool.not_eq_true _ ▸ hc)] at ha
      cases ha
    cases ht : b.taken with
    | true => exact ⟨b,mem_cons_self,hb hc,ht⟩
    | false =>
      obtain ⟨d,hd,hbv,htd⟩ := ih hn (fun d hd => hw d (mem_cons_of_mem _ hd)) hl ht
      exact ⟨d,mem_cons_of_mem _ hd,hbv.trans (hb hc),htd⟩

lemma start_inv (hf : image.finish .w = some (true,writer))
    (threads : Nat) : (start writer threads).Inv := by
  obtain ⟨_,-,hw⟩ := map_eq_some_iff.mp hf
  cases hw
  exact ⟨rfl,by simp [start],by simp [start],by simp [start],by simp [start],by simp [start]⟩

/-- Both functions report success whatever `schedule()` returned, and `AFF4Image_write` drops the
bevy. -/
theorem noSilentLoss_iff {image writer : AFF4Image} (hf : image.finish .w = some (true,writer))
    {threads : Nat} {es : List Event} {s : ImageSession}
    (h : run step (start writer threads) es = some s) (hi : s.phase = .idle) :
    s.NoSilentLoss ↔
      Along step (fun s e => ¬ s.Lossy e) (start writer threads) es ∧ s.LastTaken := by
  have hin : s.Inv := run_invariant (fun _ _ _ hs h => step_inv hs h) h
    (start_inv hf threads)
  have hr : ∀ a ∈ s.attempts, a.call ∈ s.reports := fun a ha =>
    (hin.call a ha).resolve_right fun hca => hca.2 hi
  rw [writes_taken_iff h]
  constructor
  · intro hls
    have hl : ∀ before a later, s.attempts = before ++ a :: later → a.taken = false →
        TakenLater a later := fun before a later hsp ht =>
      (hls before a later hsp ht).resolve_left
        (not_not_intro (hr a (by simp [hsp])))
    refine ⟨fun a ha hc => ?_,fun a ha => ?_⟩
    · obtain ⟨before,later,hsp⟩ := append_of_mem ha
      cases ht : a.taken with
      | true => rfl
      | false =>
        exact absurd (hl before a later hsp ht) (hin.not_takenLater hsp hc)
    · obtain ⟨before,hsp⟩ := getLast?_eq_some_iff.mp ha
      cases ht : a.taken with
      | true => rfl
      | false =>
        obtain ⟨b,hb,-⟩ := hl before a [] hsp ht
        cases hb
  · rintro ⟨hw,hls⟩ before a later hsp ht
    have hn := hin.next
    rw [hsp,isChain_append] at hn
    rw [LastTaken,hsp,getLast?_append_cons] at hls
    exact .inr (takenLater_of_last hn.2.1 (fun b hb => hw b (hsp ▸ mem_append_right _ hb)) hls ht)

def tinyImage : AFF4Image := {AFF4Image.newImage 1 with chunkSize := 1}

def tinyWriter : AFF4Image := {tinyImage with bevySize := 1}

lemma tinyImage_finish : tinyImage.finish .w = some (true,tinyWriter) := by
  rw [AFF4Image.finish,toInt,if_pos (by decide)]
  rfl

theorem noSilentLoss_two_threads : ∃ s, run step (start tinyWriter 2)
      [.write (chars ['a','b']),.turn,.turn,.turn] = some s ∧ s.NoSilentLoss := by
  have hch : (run step (start tinyWriter 2) [.write (chars ['a','b']),.turn,.turn,.turn]).map
      (fun s => (s.phase,s.attempts)) =
      some (.idle,[⟨1,0,false,true⟩,⟨1,1,false,true⟩]) := by decide +kernel
  obtain ⟨s,hs,heq⟩ := map_eq_some_iff.mp hch
  obtain ⟨hi,ha⟩ := Prod.mk.inj heq
  refine ⟨s,hs,(noSilentLoss_iff tinyImage_finish hs hi).mpr ⟨?_,?_⟩⟩
  · rw [writes_taken_iff hs,ha]
    simp
  · simp [LastTaken,ha]

/-- The one thread of the pool is busy for a minute. -/
theorem full_queue_loses_bevy : ∃ s, run step (start tinyWriter 1)
      [.write (chars ['a','b']),.turn,.turn,.timedOut,.turn] = some s ∧ s.phase = .idle ∧
    ¬ s.NoSilentLoss := by
  have hc : (run step (start tinyWriter 1)
      [.write (chars ['a','b']),.turn,.turn,.timedOut,.turn]).map
      (fun s => (s.phase,s.attempts,s.reports)) =
      some (.idle,[⟨1,0,false,true⟩,⟨1,1,false,false⟩],[1]) := by decide +kernel
  obtain ⟨s,hs,heq⟩ := map_eq_some_iff.mp hc
  simp only [Prod.mk.injEq] at heq
  obtain ⟨hi,ha,hr⟩ := heq
  refine ⟨s,hs,hi,fun hl => ?_⟩
  obtain hn | ⟨b,hb,-⟩ := hl [⟨1,0,false,true⟩] ⟨1,1,false,false⟩ [] ha rfl
  · exact hn (by simp [hr])
  · cases hb

end ImageSession

end Aff4
