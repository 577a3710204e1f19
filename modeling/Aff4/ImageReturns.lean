import Aff4.ImagePartition

/-! Which writes end. The size of a bevy is computed before the defaults are set, so an image that
relies on a default has bevies of no bytes. -/

namespace Aff4.AFF4Image

open LittleEndian Loop Transition List Option

def Returns (self : AFF4Image) (buffer : Bytes) (next : AFF4Image) : Prop :=
  ∃ turns, loop (writeTurn buffer) turns (0,self) = some next

inductive AllReturn : AFF4Image → List Bytes → AFF4Image → Prop where
  | nil (self : AFF4Image) : AllReturn self [] self
  | cons {self mid next : AFF4Image} {buffer : Bytes} {writes : List Bytes}
      (first : self.Returns buffer mid) (rest : AllReturn mid writes next) :
      AllReturn self (buffer :: writes) next

/-- A buffer of which nothing is written: an `int` cannot hold the length of a long one. -/
def Passed (buffer : Bytes) : Prop := buffer = [] ∨ 2^31 ≤ buffer.length

instance (buffer : Bytes) : Decidable (Passed buffer) :=
  inferInstanceAs (Decidable (buffer = [] ∨ 2^31 ≤ buffer.length))

variable {buffer : Bytes}

lemma writeTurn_passed (h : Passed buffer) (hln : buffer.length < 2^32)
    (s : AFF4Image) : writeTurn buffer (0,s) = some (.done s) := by
  have hn : ((buffer.length : Int)-0).bmod (2^32) ≤ 0 := by
    rcases h with rfl | hl
    · decide
    · rw [Int.bmod_def]
      split <;> omega
  have hf : fillTurn buffer (0,s) = some (.done s) := by
    rw [fillTurn]
    exact if_pos hn
  rw [writeTurn,hf]
  rfl

lemma returns_passed (h : Passed buffer) (hl : buffer.length < 2^32)
    {s next : AFF4Image} : s.Returns buffer next ↔ next = s := by
  constructor
  · rintro ⟨turns,ht⟩
    obtain ⟨_,-,hd | ⟨_,hn,-⟩⟩ := loop_cases ht
    · rw [writeTurn_passed h hl] at hd
      exact (Turn.done.inj (some.inj hd)).symm
    · rw [writeTurn_passed h hl] at hn
      cases hn
  · rintro rfl
    exact ⟨1,loop_done (writeTurn_passed h hl next)⟩

structure Idling (image : AFF4Image) : Prop where
  size : image.bevySize = 0
  empty : image.current.bevy.data = []

lemma Idling.turn {s : AFF4Image} (hs : s.Idling) (h : ¬ Passed buffer)
    {outcome : Turn (Int × AFF4Image) AFF4Image} (ht : writeTurn buffer (0,s) = some outcome) :
    ∃ next, outcome = .next (0,next) ∧ next.Idling := by
  have hp : 0 < buffer.length := length_pos_iff.mpr fun he => h (.inl he)
  have hsh : buffer.length < 2^31 := Nat.lt_of_not_le fun hle => h (.inr hle)
  obtain ⟨hle,-⟩ | ⟨-,bevy,image,-,-,hf,rfl⟩ := writeTurn_cases hsh (by decide : 0 < 2^31) ht
  · exact absurd hle (not_le.mpr hp)
  · refine ⟨image,by simp [hs.size,hs.empty],?_⟩
    rw [flushFull,if_pos (hs.size ▸ Nat.zero_le _)] at hf
    obtain ⟨_,-,rfl⟩ := map_eq_some_iff.mp hf
    exact ⟨hs.size,rfl⟩

lemma Idling.not_returns {s : AFF4Image} (hs : s.Idling)
    (h : ¬ Passed buffer) (next : AFF4Image) : ¬ s.Returns buffer next := by
  rintro ⟨turns,htr⟩
  refine loop_rule (fun state => state.1 = 0 ∧ state.2.Idling) (fun _ => False) ?_ ?_ ⟨rfl,hs⟩ htr
  · rintro ⟨offset,image⟩ t ⟨rfl,hi⟩ ht
    obtain ⟨image',he,hi'⟩ := hi.turn h ht
    cases he
    exact ⟨rfl,hi'⟩
  · rintro ⟨offset,image⟩ r ⟨rfl,hi⟩ ht
    obtain ⟨_,he,-⟩ := hi.turn h ht
    cases he

variable {writer : AFF4Image}

lemma finish_idling {image : AFF4Image} (hzr : image.chunkSize = 0 ∨ image.chunksInSegment = 0)
    (h : image.finish .w = some (true,writer)) : writer.Idling := by
  obtain ⟨bevySize,hs,h⟩ := map_eq_some_iff.mp h
  cases h
  obtain ⟨rfl,-⟩ := toInt_eq_some hs
  refine ⟨?_,rfl⟩
  rcases hzr with hz | hz <;> simp [hz]

lemma Idling.allReturn_iff {s : AFF4Image} (hs : s.Idling) {writes : List Bytes}
    (hl : ∀ buffer ∈ writes, buffer.length < 2^32) :
    (∃ next, AllReturn s writes next) ↔ ∀ buffer ∈ writes, Passed buffer := by
  induction writes with
  | nil => exact iff_of_true ⟨s,.nil s⟩ (by simp)
  | cons buffer writes ih =>
    have hr := ih fun b hb => hl b (mem_cons_of_mem _ hb)
    have hf := hl buffer mem_cons_self
    rw [forall_mem_cons]
    constructor
    · rintro ⟨next,ha⟩
      cases ha with
      | cons first rest =>
        have hp : Passed buffer := Classical.byContradiction fun h =>
          hs.not_returns h _ first
        obtain rfl := (returns_passed hp hf).mp first
        exact ⟨hp,hr.mp ⟨next,rest⟩⟩
    · rintro ⟨hp,ho⟩
      obtain ⟨next,ha⟩ := hr.mpr ho
      exact ⟨next,.cons ((returns_passed hp hf).mpr rfl) ha⟩

section

variable {bevySize : Nat} {writes : List Bytes} {s next : AFF4Image}

def taken (writes : List Bytes) : List Bytes := writes.filter fun buffer => buffer.length < 2^31

lemma Filled.returns_iff (hf : Filled bevySize writes s) {buffer : Bytes}
    (hl : buffer.length < 2^31) : s.Returns buffer next ↔ s.write buffer = some next :=
  ⟨fun ⟨_,h⟩ => write_enough hl hf.written (hf.size ▸ hf.room) h,fun h => ⟨_,h⟩⟩

lemma taken_snoc_short {buffer : Bytes} (h : buffer.length < 2^31) :
    taken (writes ++ [buffer]) = taken writes ++ [buffer] := by
  rw [taken,filter_append,filter_cons_of_pos (by rw [decide_eq_true_eq]; exact h)]
  rfl

lemma taken_snoc_long {buffer : Bytes} (h : ¬ buffer.length < 2^31) :
    taken (writes ++ [buffer]) = taken writes := by
  rw [taken,filter_append,filter_cons_of_neg (by rw [decide_eq_true_eq]; exact h)]
  exact append_nil _

end

lemma allReturn_snoc {s next : AFF4Image} {writes : List Bytes} :
    AllReturn s (writes ++ [buffer]) next ↔
      ∃ mid, AllReturn s writes mid ∧ mid.Returns buffer next := by
  induction writes generalizing s with
  | nil =>
    constructor
    · intro h
      cases h with
      | cons first rest =>
        cases rest
        exact ⟨s,.nil s,first⟩
    · rintro ⟨mid,ha,hl⟩
      cases ha
      exact .cons hl (.nil next)
  | cons first writes ih =>
    constructor
    · intro h
      cases h with
      | cons hf rest =>
        obtain ⟨mid,hm,hl⟩ := ih.mp rest
        exact ⟨mid,.cons hf hm,hl⟩
    · rintro ⟨mid,ha,hl⟩
      cases ha with
      | cons hf rest => exact .cons hf (ih.mpr ⟨mid,rest,hl⟩)

lemma Filled.allReturn_iff {bevySize : Nat} (hsm : bevySize < 2^31)
    (hf : Filled bevySize [] writer) {writes : List Bytes}
    (hln : ∀ buffer ∈ writes, buffer.length < 2^32) :
    ((∃ next, AllReturn writer writes next) ↔ Takes bevySize (taken writes)) ∧
      ∀ next, AllReturn writer writes next → Filled bevySize (taken writes) next := by
  induction writes using reverseRecOn with
  | nil =>
    refine ⟨iff_of_true ⟨writer,.nil writer⟩ Takes.nil,fun next h => ?_⟩
    cases h
    exact hf
  | append_singleton writes buffer ih =>
    obtain ⟨hi,hfl⟩ := ih fun b hb => hln b (mem_append_left _ hb)
    simp only [allReturn_snoc]
    by_cases hs : buffer.length < 2^31
    · rw [taken_snoc_short hs,takes_snoc,← hi]
      refine ⟨⟨?_,?_⟩,?_⟩
      · rintro ⟨next,mid,hm,hl⟩
        have hf' := hfl mid hm
        exact ⟨⟨mid,hm⟩,(hf'.write_iff hsm hs).mp ⟨next,(hf'.returns_iff hs).mp hl⟩⟩
      · rintro ⟨⟨mid,hm⟩,hn⟩
        have hf' := hfl mid hm
        obtain ⟨next,hw⟩ := (hf'.write_iff hsm hs).mpr hn
        exact ⟨next,mid,hm,(hf'.returns_iff hs).mpr hw⟩
      · rintro next ⟨mid,hm,hl⟩
        have hf' := hfl mid hm
        exact hf'.write hs ((hf'.returns_iff hs).mp hl)
    · have hp : Passed buffer := .inr (Nat.le_of_not_lt hs)
      have hl : buffer.length < 2^32 := hln buffer (by simp)
      simp only [taken_snoc_long hs,returns_passed hp hl,exists_eq_right']
      exact ⟨hi,hfl⟩

def Unset (image : AFF4Image) : Prop := image.chunkSize = 0 ∨ image.chunksInSegment = 0

instance (image : AFF4Image) : Decidable image.Unset :=
  inferInstanceAs (Decidable (image.chunkSize = 0 ∨ image.chunksInSegment = 0))

theorem writes_return_iff {image writer : AFF4Image} (h : image.finish .w = some (true,writer))
    {writes : List Bytes} (hl : ∀ buffer ∈ writes, buffer.length < 2^32) :
    (∃ next, AllReturn writer writes next) ↔ image.Unset ∧ (∀ buffer ∈ writes, Passed buffer) ∨
      ¬ image.Unset ∧ Takes (image.chunkSize*image.chunksInSegment) (taken writes) := by
  by_cases hu : image.Unset
  · simp only [hu,true_and,not_true,false_and,or_false]
    exact (finish_idling hu h).allReturn_iff hl
  · simp only [hu,false_and,not_false_iff,true_and,false_or]
    have hc : 0 < image.chunkSize := Nat.pos_of_ne_zero fun hz => hu (.inl hz)
    have hcn : 0 < image.chunksInSegment := Nat.pos_of_ne_zero fun hz => hu (.inr hz)
    have hp : image.chunkSize*image.chunksInSegment < 2^31 := by
      obtain ⟨bevySize,hs,-⟩ := map_eq_some_iff.mp h
      exact_mod_cast (toInt_eq_some hs).2.2
    exact ((Filled.start hc hcn h).allReturn_iff hp hl).1

theorem writes_return_default_size : ∃ writer next, (newImage 1024).finish .w = some (true,writer) ∧
    AllReturn writer [chars ['a'],chars ['b','c']] next := by
  obtain ⟨writer,hf⟩ := @finish_accepted (newImage 1024) (by decide)
  obtain ⟨next,hn⟩ := (@writes_return_iff _ writer hf [chars ['a'],chars ['b','c']]
    (by decide)).mpr (.inr ⟨by decide,.of_small (by decide) (by decide) (by decide) (by decide)⟩)
  exact ⟨writer,next,hf,hn⟩

/-- The number of chunks is left to the default. -/
theorem write_with_default_loops : ∃ writer, (newImage 0).finish .w = some (true,writer) ∧
    ¬ ∃ next, writer.Returns (chars ['a']) next := by
  obtain ⟨writer,hf⟩ := @finish_accepted (newImage 0) (by decide)
  refine ⟨writer,hf,?_⟩
  rintro ⟨next,hn⟩
  exact (finish_idling (.inr rfl) hf).not_returns (by decide) next hn

end Aff4.AFF4Image
