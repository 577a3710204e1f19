import Aff4.JavaStreamWriter

/-! What a stream writer of the Java library leaves in the volume after any
sequence of calls, and when that is the data it was given. -/

namespace Aff4.Java

open LittleEndian Chunks Transition List Option StreamWriter

def valid (ops : List StreamWriter.Op) : Bytes :=
  ops.flatMap fun
    | .write data => data.valid
    | .flush => []

/-- The stream can be read back: the bevies are numbered from 0 and inflate to the data, the size is
that of the data, and only the last bevy may be short. -/
def Lossless (deflater : Deflater) (count : Int) (ops : List StreamWriter.Op) : Prop :=
  ∃ start self final contents size, StreamWriter.new count = some start ∧
    run (StreamWriter.step deflater) start ops = some self ∧ self.close deflater = some final ∧
    final.bevvies.map Bevvy.number = range final.bevvies.length ∧
    final.bevvies.mapM (Bevvy.inflated deflater) = some contents ∧ final.size = some size ∧
    contents.flatten.take size = valid ops ∧ size = (valid ops).length ∧
    ∀ content ∈ contents.dropLast, content.length = start.bevySize

namespace StreamWriter

variable {deflater : Deflater} {s : StreamWriter}

/-- What the calls alone say of a writer: the bytes it took, whether it has
stored them, and whether a `flush` stored a bevy that was not full. -/
structure Progress where
  taken : Bytes
  flushed : Bool
  isCut : Bool

namespace Progress

def start : Progress := ⟨[],false,false⟩

def next (b : Nat) (self : Progress) : Op → Progress
  | .write data =>
    let n := min (b-self.taken.length%b) data.array.length
    {self with
      taken := self.taken ++ data.array.take n, flushed := self.taken.length%b+n == b}
  | .flush => if self.flushed then self else {self with flushed := true, isCut := true}

def after (b : Nat) (self : Progress) (ops : List Op) : Progress := ops.foldl (next b) self

/-- No `write` comes after a `flush` that stored a bevy. -/
def Orderly (b : Nat) : Progress → List Op → Prop
  | _, [] => True
  | self, .write data :: ops => self.isCut = false ∧ Orderly b (self.next b (.write data)) ops
  | self, .flush :: ops => Orderly b (self.next b .flush) ops

lemma exists_taken_after (b : Nat) (s : Progress) (ops : List Op) :
    ∃ more, (s.after b ops).taken = s.taken ++ more := by
  induction ops generalizing s with
  | nil => exact ⟨[],by simp [after]⟩
  | cons op ops ih =>
    obtain ⟨more,hm⟩ := ih (s.next b op)
    rw [after,foldl_cons,← after,hm]
    cases op with
    | write data => exact ⟨_,append_assoc _ _ _⟩
    | flush =>
      refine ⟨more,?_⟩
      rw [next]
      split <;> rfl

lemma Orderly.of_cut {b : Nat} {s : Progress} {ops : List Op} (hc : s.isCut = true)
    (hf : s.flushed = true) (h : s.Orderly b ops) :
    (∀ op ∈ ops, op = .flush) ∧ s.after b ops = s := by
  induction ops with
  | nil => exact ⟨fun op hop => absurd hop not_mem_nil,rfl⟩
  | cons op ops ih =>
    cases op with
    | write data => exact absurd hc (by rw [h.1]; decide)
    | flush =>
      have hn : s.next b .flush = s := by rw [next,if_pos hf]
      rw [Orderly,hn] at h
      obtain ⟨hal,ha⟩ := ih h
      refine ⟨fun op hop => ?_,by rw [after,foldl_cons,hn]; exact ha⟩
      rcases mem_cons.mp hop with rfl | hop
      · rfl
      · exact hal op hop

end Progress

structure Follows (deflater : Deflater) (writer : StreamWriter) (progress : Progress)
    (full : List Bytes) (rest : Bytes) : Prop extends Writing deflater writer full rest where
  uncut : progress.isCut = false
  flushed : writer.flushed = progress.flushed
  taken : progress.taken = full.flatten ++ rest
  stored_all : progress.flushed = true → rest = []

def finish (deflater : Deflater) (self : StreamWriter) (ops : List Op) : Option StreamWriter :=
  (run (step deflater) self ops).bind fun next => next.close deflater

lemma finish_cons (deflater : Deflater) (s : StreamWriter) (op : Op) (ops : List Op) :
    s.finish deflater (op :: ops) =
    (s.step deflater op).bind fun next => next.finish deflater ops := by
  rw [finish,run,bind_assoc]
  rfl

section

variable {full : List Bytes} {rest : Bytes} {progress : Progress}

lemma Follows.taken_mod (h : Follows deflater s progress full rest) :
    progress.taken.length%s.bevySize = rest.length := by rw [h.taken,length_append,h.writeptr_mod]

lemma Fits.nil (b : Nat) : Fits deflater b [] := ⟨by simp [pieces],Nat.zero_le b⟩

section

variable (h : Writing deflater s full rest)
include h

lemma Writing.all_fit (hb : 0 < s.bevySize) :
    (∀ content ∈ chunks s.bevySize (full.flatten ++ rest), Fits deflater s.bevySize content) ↔
      Fits deflater s.bevySize rest := by
  rw [chunks_flatten h.full_length hb]
  by_cases hr : rest = []
  · subst hr
    rw [chunks_nil,append_nil]
    exact iff_of_true h.fits (Fits.nil _)
  · rw [chunks_short hr h.rest_le]
    constructor
    · intro ha
      exact ha rest (by simp)
    · intro hf content hc
      rcases mem_append.mp hc with hc | hc
      · exact h.fits content hc
      · rw [mem_singleton.mp hc]
        exact hf

lemma Writing.taken_nil (hb : s.bevySize = 0) : full.flatten ++ rest = [] := by
  have hl := flatten_length h.full_length
  have hle := h.rest_le
  rw [hb,Nat.mul_zero] at hl
  refine length_eq_zero_iff.mp ?_
  rw [length_append]
  omega

lemma Writing.fit_of (hf : Fits deflater s.bevySize rest) :
    ∀ content ∈ chunks s.bevySize (full.flatten ++ rest),
      Fits deflater s.bevySize content := by
  rcases Nat.eq_zero_or_pos s.bevySize with hb | hb
  · rw [h.taken_nil hb,chunks_nil]
    intro content hc
    cases hc
  · exact (h.all_fit hb).mpr hf

end

/-- What the calls must be for the writer to get to the end, and what it then leaves. -/
structure Finished (deflater : Deflater) (writer : StreamWriter) (progress : Progress)
    (ops : List Op) : Prop where
  returns : (∃ final, writer.finish deflater ops = some final) ↔
    (writer.bevySize = 0 → progress.flushed = true ∨ ∃ data rest, ops = .write data :: rest) ∧
      ∀ content ∈ chunks writer.bevySize (progress.after writer.bevySize ops).taken,
        Fits deflater writer.bevySize content
  ended : ∀ final, writer.finish deflater ops = some final → final.bevySize = writer.bevySize ∧
    ∃ contents, Ended deflater final contents ∧
      contents.flatten = (progress.after writer.bevySize ops).taken

variable {ops : List Op}

lemma Complete.finish {contents : List Bytes} (h : Complete deflater s contents)
    (ho : ∀ op ∈ ops, op = .flush) :
    ∃ final, s.finish deflater ops = some final ∧ final.bevySize = s.bevySize ∧
      Ended deflater final contents := by
  induction ops with
  | nil =>
    refine ⟨{s with flushed := true, size := some s.writeptr, closed := true},?_,rfl,
      h.bevvies,h.fits,congrArg some h.writeptr,h.front⟩
    simp [StreamWriter.finish,run,StreamWriter.close,h.flushed,h.opened]
  | cons op ops ih =>
    rw [finish_cons,ho op mem_cons_self,step,h.flush,bind_some]
    exact ih fun op hop => ho op (mem_cons_of_mem _ hop)

lemma Follows.flush_last (h : Follows deflater s progress full rest)
    (hfls : progress.flushed = false) (ho : ∀ op ∈ ops, op = .flush)
    (hb : 0 < s.bevySize) :
    ((∃ final, (s.flush deflater).bind (fun next => next.finish deflater ops) = some final) ↔
        ∀ content ∈ chunks s.bevySize progress.taken, Fits deflater s.bevySize content) ∧
      ∀ final, (s.flush deflater).bind (fun next => next.finish deflater ops) = some final →
        final.bevySize = s.bevySize ∧
          ∃ contents, Ended deflater final contents ∧ contents.flatten = progress.taken := by
  obtain ⟨hi,hn⟩ := h.toWriting.flush (h.flushed.trans hfls) hb
  rw [h.taken,h.toWriting.all_fit hb,← hi]
  have ha {next : StreamWriter} (hfl : s.flush deflater = some next) :
      ∃ final, next.finish deflater ops = some final ∧ final.bevySize = s.bevySize ∧
        Ended deflater final (full ++ [rest]) := by
    obtain ⟨hst,hc⟩ := hn next hfl
    obtain ⟨final,hf,hs,he⟩ := hc.finish ho
    exact ⟨final,hf,hs.trans (hst ▸ rfl),he⟩
  constructor
  · constructor
    · intro ⟨final,hf⟩
      obtain ⟨next,hfl,_⟩ := bind_eq_some_iff.mp hf
      exact ⟨next,hfl⟩
    · intro ⟨next,hfl⟩
      obtain ⟨final,hf,_⟩ := ha hfl
      exact ⟨final,by rw [hfl,bind_some,hf]⟩
  · intro final hf
    obtain ⟨next,hfl,hf⟩ := bind_eq_some_iff.mp hf
    obtain ⟨final',hf',hs,he⟩ := ha hfl
    obtain rfl := some.inj (hf.symm.trans hf')
    exact ⟨hs,_,he,by simp⟩

lemma finish_nil : s.finish deflater [] = s.close deflater := rfl

lemma close_eq_flush (hfl : s.flushed = false) (ho : s.closed = false)
    (hn : ∀ next, s.flush deflater = some next → next.flushed = true) :
    s.close deflater = (s.flush deflater).bind fun next => next.finish deflater [] := by
  cases hf : s.flush deflater with
  | none => simp [close,hfl,ho,hf]
  | some next => simp [close,finish_nil,hfl,ho,hf,hn next hf]

section

variable (h : Follows deflater s progress full rest)
include h

lemma Follows.finished_nil : Finished deflater s progress [] := by
  cases hf : progress.flushed with
  | true =>
    have hr := h.stored_all hf
    subst hr
    obtain ⟨final,hfi,hsz,he⟩ :=
      (h.toWriting.complete (h.flushed.trans hf)).finish fun op hop => absurd hop not_mem_nil
    constructor
    · refine iff_of_true ⟨final,hfi⟩ ⟨fun _ => .inl hf,?_⟩
      rw [Progress.after,foldl_nil,h.taken]
      exact h.toWriting.fit_of (Fits.nil _)
    · intro final' hfi'
      obtain rfl := some.inj (hfi'.symm.trans hfi)
      exact ⟨hsz,full,he,by rw [Progress.after,foldl_nil,h.taken,append_nil]⟩
  | false =>
    have hs := h.flushed.trans hf
    rcases Nat.eq_zero_or_pos s.bevySize with hb | hb
    · have hn : s.finish deflater [] = none := by simp [finish_nil,close,flush,hs,h.opened,hb]
      constructor
      · refine iff_of_false (by simp [hn]) fun hg => ?_
        simpa [hf] using hg.1 hb
      · intro final hfi
        rw [hn] at hfi
        cases hfi
    · have hc : s.finish deflater [] =
          (s.flush deflater).bind fun next => next.finish deflater [] :=
        close_eq_flush hs h.opened fun next hnx =>
          ((h.toWriting.flush hs hb).2 next hnx).2.flushed
      have hl := h.flush_last hf (fun op hop => absurd hop not_mem_nil) hb
      rw [← hc] at hl
      refine ⟨hl.1.trans ?_,hl.2⟩
      exact ⟨fun ha => ⟨fun hz => absurd hz (by omega),ha⟩,fun hg => hg.2⟩

lemma Follows.finished_flush (hf : progress.flushed = false)
    (ho : progress.Orderly s.bevySize (.flush :: ops)) :
    Finished deflater s progress (.flush :: ops) := by
  have hs := h.flushed.trans hf
  have hn : progress.next s.bevySize .flush = {progress with flushed := true, isCut := true} := by
    rw [Progress.next,if_neg (by simp [hf])]
  rw [Progress.Orderly,hn] at ho
  obtain ⟨hops,ha⟩ := ho.of_cut rfl rfl
  have ht : (progress.after s.bevySize (.flush :: ops)).taken = progress.taken := by
    rw [Progress.after,foldl_cons,← Progress.after,hn,ha]
  have hfn := finish_cons deflater s .flush ops
  rcases Nat.eq_zero_or_pos s.bevySize with hb | hb
  · have hno : s.finish deflater (.flush :: ops) = none := by simp [hfn,step,flush,hs,hb]
    constructor
    · refine iff_of_false (by simp [hno]) fun hg => ?_
      simpa [hf] using hg.1 hb
    · intro final hfi
      rw [hno] at hfi
      cases hfi
  · have hl := h.flush_last hf hops hb
    constructor
    · rw [hfn,ht]
      refine hl.1.trans ⟨fun hal => ⟨fun hz => absurd hz (by omega),hal⟩,fun hg => hg.2⟩
    · rw [hfn,ht]
      exact hl.2

lemma Follows.next_taken (data : ByteBuffer) : (progress.next s.bevySize (.write data)).taken =
      full.flatten ++ (rest ++ data.array.take (room s.bevySize rest data)) := by
  have hn : min (s.bevySize-progress.taken.length%s.bevySize) data.array.length =
      room s.bevySize rest data := by rw [h.taken_mod,room]
  simp only [Progress.next,hn]
  rw [h.taken,append_assoc]

lemma Follows.next_flushed (data : ByteBuffer) :
    (progress.next s.bevySize (.write data)).flushed =
      decide (rest.length+room s.bevySize rest data = s.bevySize) := by
  simp only [Progress.next,h.taken_mod]
  rfl

end

lemma Writing.room_zero (h : Writing deflater s full rest) (hb : s.bevySize = 0)
    (data : ByteBuffer) : rest.length+room s.bevySize rest data = s.bevySize := by
  have hl := h.rest_le
  rw [room,hb]
  omega

section

variable (h : Follows deflater s progress full rest)
variable {data : ByteBuffer}

include h

lemma Follows.write {next : StreamWriter} (hwr : s.write deflater data = some next) :
    next.bevySize = s.bevySize ∧
      ∃ full' rest', Follows deflater next (progress.next s.bevySize (.write data)) full' rest'
    := by
  have ht := h.next_taken data
  have hfl := h.next_flushed data
  by_cases hfu : rest.length+room s.bevySize rest data = s.bevySize
  · obtain ⟨hw,hf,hsz⟩ := (h.toWriting.write_full rfl hfu).2 next hwr
    refine ⟨hsz,_,_,hw,h.uncut,?_,?_,fun _ => rfl⟩
    · rw [hf,hfl,decide_eq_true hfu]
    · rw [ht]
      simp
  · obtain ⟨hs,hw⟩ := h.toWriting.write_short rfl hfu
    obtain rfl := some.inj (hwr.symm.trans hs)
    refine ⟨rfl,_,_,hw,h.uncut,?_,ht,?_⟩
    · rw [hfl,decide_eq_false hfu]
      rfl
    · intro hf
      rw [hfl] at hf
      exact absurd (of_decide_eq_true hf) hfu

lemma Follows.write_none (hw : s.write deflater data = none) (ops : List Op) :
    ∃ content ∈ chunks s.bevySize (progress.after s.bevySize (.write data :: ops)).taken,
      ¬ Fits deflater s.bevySize content := by
  by_cases hfu : rest.length+room s.bevySize rest data = s.bevySize
  · have hf : ¬ Fits deflater s.bevySize
        (rest ++ data.array.take (room s.bevySize rest data)) := by
      intro hf
      obtain ⟨next,hn⟩ := (h.toWriting.write_full rfl hfu).1.mpr hf
      rw [hw] at hn
      cases hn
    have hb : 0 < s.bevySize := by
      refine Nat.pos_of_ne_zero fun hb => hf ?_
      have hnl : rest ++ data.array.take (room s.bevySize rest data) = [] := by
        refine length_eq_zero_iff.mp ?_
        rw [length_append,take_room rfl,hfu,hb]
      rw [hnl]
      exact Fits.nil _
    obtain ⟨more,hm⟩ := Progress.exists_taken_after s.bevySize
      (progress.next s.bevySize (.write data)) ops
    have hs : (progress.after s.bevySize (.write data :: ops)).taken =
        (full ++ [rest ++ data.array.take (room s.bevySize rest data)]).flatten ++ more := by
      rw [Progress.after,foldl_cons,← Progress.after,hm,h.next_taken]
      simp
    have hwh : ∀ content ∈ full ++ [rest ++ data.array.take (room s.bevySize rest data)],
        content.length = s.bevySize := by
      intro content hc
      rcases mem_append.mp hc with hc | hc
      · exact h.full_length content hc
      · rw [mem_singleton.mp hc,length_append,take_room rfl,hfu]
    refine ⟨_,?_,hf⟩
    rw [hs,chunks_flatten hwh hb]
    simp
  · rw [(h.toWriting.write_short rfl hfu).1] at hw
    cases hw

lemma Follows.finished_write (data : ByteBuffer)
    (hr : ∀ next full' rest', next.bevySize = s.bevySize →
      Follows deflater next (progress.next s.bevySize (.write data)) full' rest' →
        Finished deflater next (progress.next s.bevySize (.write data)) ops) :
    Finished deflater s progress (.write data :: ops) := by
  cases hw : s.write deflater data with
  | none =>
    have hn : s.finish deflater (.write data :: ops) = none := by
      rw [finish_cons,step,hw,bind_none]
    obtain ⟨content,hc,hft⟩ := h.write_none hw ops
    constructor
    · exact iff_of_false (by simp [hn]) fun hg => hft (hg.2 content hc)
    · intro final hfi
      rw [hn] at hfi
      cases hfi
  | some next =>
    obtain ⟨hs,full',rest',hfl⟩ := h.write hw
    have hf := hr next full' rest' hs hfl
    have hfn : s.finish deflater (.write data :: ops) = next.finish deflater ops := by
      rw [finish_cons,step,hw,bind_some]
    have hz : s.bevySize = 0 → (progress.next s.bevySize (.write data)).flushed = true := by
      intro hb
      rw [h.next_flushed,decide_eq_true (h.toWriting.room_zero hb data)]
    constructor
    · rw [hfn,hf.returns,hs]
      exact ⟨fun hg => ⟨fun _ => .inr ⟨data,ops,rfl⟩,hg.2⟩,fun hg => ⟨fun hb => .inl (hz hb),hg.2⟩⟩
    · rw [hfn,← hs]
      exact hs ▸ hf.ended

lemma Follows.finished (ho : progress.Orderly s.bevySize ops) :
    Finished deflater s progress ops := by
  induction ops generalizing s progress full rest with
  | nil => exact h.finished_nil
  | cons op ops ih =>
    cases op with
    | write data =>
      refine h.finished_write data fun next full' rest' hs hn => ih hn ?_
      rw [hs]
      exact ho.2
    | flush =>
      cases hf : progress.flushed with
      | false => exact h.finished_flush hf ho
      | true =>
        have hn : progress.next s.bevySize .flush = progress := by
          rw [Progress.next,if_pos hf]
        have hfl : s.flush deflater = some s := by rw [flush,if_pos (h.flushed.trans hf)]
        rw [Progress.Orderly,hn] at ho
        have hr := ih h ho
        have hfn : s.finish deflater (.flush :: ops) = s.finish deflater ops := by
          rw [finish_cons,step,hfl,bind_some]
        have ha : progress.after s.bevySize (.flush :: ops) =
            progress.after s.bevySize ops := by rw [Progress.after,foldl_cons,hn,Progress.after]
        constructor
        · rw [hfn,ha,hr.returns]
          exact ⟨fun hg => ⟨fun _ => .inl hf,hg.2⟩, fun hg => ⟨fun _ => .inl hf,hg.2⟩⟩
        · rw [hfn,ha]
          exact hr.ended

end

structure Adds (writer next : StreamWriter) : Prop where
  bevvies : ∃ bevvy, next.bevvies = writer.bevvies ++ [bevvy]
  flushed : next.flushed = true
  closed : next.closed = writer.closed

lemma writeBevvy_adds {limit : Nat} {next : StreamWriter}
    (h : s.writeBevvy deflater limit = some next) : Adds s next := by
  obtain ⟨_,_,h⟩ := bind_eq_some_iff.mp h
  obtain ⟨⟨bevvy,_⟩,_,h⟩ := bind_eq_some_iff.mp h
  obtain ⟨index,_,h⟩ := bind_eq_some_iff.mp h
  cases h
  exact ⟨⟨_,rfl⟩,rfl,rfl⟩

lemma write_cases {data : ByteBuffer} {next : StreamWriter}
    (h : s.write deflater data = some next) :
    next.flushed = false ∧ next.bevvies = s.bevvies ∧ next.closed = s.closed ∨
      Adds s next := by
  by_cases hf : s.position+min (s.bevySize-s.position) data.array.length = s.bevySize
  · rw [write_of_full rfl hf] at h
    have ha := writeBevvy_adds h
    exact .inr ⟨ha.bevvies,ha.flushed,ha.closed⟩
  · rw [write_of_short rfl hf] at h
    cases h
    exact .inl ⟨rfl,rfl,rfl⟩

lemma flush_cases {next : StreamWriter} (h : s.flush deflater = some next) :
    s.flushed = true ∧ next = s ∨ s.flushed = false ∧ Adds s next := by
  cases hf : s.flushed with
  | true =>
    rw [flush,if_pos hf] at h
    exact .inl ⟨rfl,(some.inj h).symm⟩
  | false =>
    rw [flush,if_neg (by simp [hf])] at h
    split at h
    · cases h
    · exact .inr ⟨rfl,writeBevvy_adds h⟩

lemma close_cases {next : StreamWriter} (ho : s.closed = false)
    (h : s.close deflater = some next) :
    s.flushed = true ∧ next.bevvies = s.bevvies ∨
      s.flushed = false ∧ ∃ bevvy, next.bevvies = s.bevvies ++ [bevvy] := by
  cases hf : s.flushed with
  | true =>
    simp [close,hf,ho] at h
    exact .inl ⟨rfl,by rw [← h]⟩
  | false =>
    simp only [close,hf,ho] at h
    obtain ⟨flushed,hfl,h⟩ := bind_eq_some_iff.mp h
    obtain ⟨hbd,_⟩ | ⟨_,ha⟩ := flush_cases hfl
    · rw [hf] at hbd
      cases hbd
    · obtain ⟨bevvy,hb⟩ := ha.bevvies
      have hn : next.bevvies = flushed.bevvies := by
        cases h
        split <;> rfl
      exact .inr ⟨rfl,bevvy,hn.trans hb⟩

structure Short (deflater : Deflater) (b : Nat) (writer : StreamWriter) (back : List Bevvy) :
    Prop where
  bevvies : ∃ front bevvy content, writer.bevvies = front ++ bevvy :: back ∧
    bevvy.inflated deflater = some content ∧ content.length ≠ b
  opened : writer.closed = false

section

variable {b : Nat} {back : List Bevvy} {next : StreamWriter}

lemma Short.adds (h : Short deflater b s back) (ha : Adds s next) :
    ∃ back', back' ≠ [] ∧ Short deflater b next back' := by
  obtain ⟨front,bevvy,content,hb,hs⟩ := h.bevvies
  obtain ⟨added,hadd⟩ := ha.bevvies
  refine ⟨back ++ [added],by simp,⟨front,bevvy,content,?_,hs⟩,ha.closed.trans h.opened⟩
  rw [hadd,hb]
  simp

def Broken (deflater : Deflater) (b : Nat) (writer : StreamWriter) : Prop :=
  ∃ back, Short deflater b writer back ∧ (back ≠ [] ∨ writer.flushed = false)

lemma Short.write (h : Short deflater b s back) {data : ByteBuffer}
    (hw : s.write deflater data = some next) : Broken deflater b next := by
  obtain ⟨hf,hb,hc⟩ | ha := write_cases hw
  · exact ⟨back,⟨hb ▸ h.bevvies,hc.trans h.opened⟩,.inr hf⟩
  · obtain ⟨back',hne,hs⟩ := h.adds ha
    exact ⟨back',hs,.inl hne⟩

lemma Broken.step (h : Broken deflater b s) {op : Op}
    (hst : s.step deflater op = some next) : Broken deflater b next := by
  obtain ⟨back,hs,hf⟩ := h
  cases op with
  | write data => exact hs.write hst
  | flush =>
    obtain ⟨_,rfl⟩ | ⟨_,ha⟩ := flush_cases hst
    · exact ⟨back,hs,hf⟩
    · obtain ⟨back',hne,hs⟩ := hs.adds ha
      exact ⟨back',hs,.inl hne⟩

/-- A bevy in front of another one that does not inflate to `b` bytes. -/
def Misplaced (deflater : Deflater) (b : Nat) (bevvies : List Bevvy) : Prop :=
  ∃ front bevvy content back, bevvies = front ++ bevvy :: back ∧ back ≠ [] ∧
    bevvy.inflated deflater = some content ∧ content.length ≠ b

variable {final : StreamWriter}

lemma Broken.finish (h : Broken deflater b s) {ops : List Op}
    (hf : s.finish deflater ops = some final) : Misplaced deflater b final.bevvies := by
  induction ops generalizing s with
  | nil =>
    obtain ⟨back,hs,hfl⟩ := h
    obtain ⟨front,bevvy,content,hb,hc⟩ := hs.bevvies
    obtain ⟨hfls,hsa⟩ | ⟨_,added,ha⟩ := close_cases hs.opened hf
    · exact ⟨front,bevvy,content,back,hsa.trans hb,hfl.resolve_right (by simp [hfls]),hc⟩
    · refine ⟨front,bevvy,content,back ++ [added],?_,by simp,hc⟩
      rw [ha,hb]
      simp
  | cons op ops ih =>
    rw [finish_cons] at hf
    obtain ⟨next,hst,hf⟩ := bind_eq_some_iff.mp hf
    exact ih (h.step hst) hf

lemma Short.finish (h : Short deflater b s back) (hfl : s.flushed = true)
    {progress : Progress} (hst : progress.flushed = true) {ops : List Op}
    (ho : ¬ progress.Orderly b ops)
    (hf : s.finish deflater ops = some final) : Misplaced deflater b final.bevvies := by
  induction ops with
  | nil => exact absurd trivial ho
  | cons op ops ih =>
    rw [finish_cons] at hf
    obtain ⟨next,hs,hr⟩ := bind_eq_some_iff.mp hf
    cases op with
    | write data => exact (h.write hs).finish hr
    | flush =>
      rw [step,flush,if_pos hfl] at hs
      cases hs
      rw [Progress.Orderly,Progress.next,if_pos hst] at ho
      exact ih ho hr

end

lemma Follows.misplaced (hz : deflater.Inverse) (h : Follows deflater s progress full rest)
    (ho : ¬ progress.Orderly s.bevySize ops) {final : StreamWriter}
    (hfi : s.finish deflater ops = some final) :
    Misplaced deflater s.bevySize final.bevvies := by
  induction ops generalizing s progress full rest with
  | nil => exact absurd trivial ho
  | cons op ops ih =>
    rw [finish_cons] at hfi
    obtain ⟨next,hs,hr⟩ := bind_eq_some_iff.mp hfi
    cases op with
    | write data =>
      obtain ⟨hsz,full',rest',hn⟩ := h.write hs
      have hm := ih hn
        (by rw [hsz]; exact fun hnt => ho ⟨h.uncut,hnt⟩) hr
      rwa [hsz] at hm
    | flush =>
      rw [Progress.Orderly,Progress.next] at ho
      cases hf : progress.flushed with
      | true =>
        rw [step,flush,if_pos (h.flushed.trans hf)] at hs
        cases hs
        rw [if_pos hf] at ho
        exact ih h ho hr
      | false =>
        rw [if_neg (by simp [hf])] at ho
        have hb : 0 < s.bevySize := by
          refine Nat.pos_of_ne_zero fun hb => ?_
          simp [step,flush,h.flushed,hf,hb] at hs
        obtain ⟨hi,hst⟩ := h.toWriting.flush (h.flushed.trans hf) hb
        obtain ⟨rfl,hc⟩ := hst next hs
        have hft := hi.mp ⟨_,hs⟩
        have hl : rest.length ≠ s.bevySize := by
          rcases h.short with hnl | hlt
          · rw [hnl,length_nil]
            omega
          · omega
        have hsh : Short deflater s.bevySize (s.storing deflater rest) [] :=
          ⟨⟨s.bevvies,_,rest,rfl,stored_inflated hz _
            (lt_trans h.allocated.small (by decide)) hft,hl⟩,hc.opened⟩
        exact hsh.finish rfl rfl ho hr

end

lemma setChunksInSegment_eq (count : Int) : s.setChunksInSegment count =
    if 0 ≤ toInt (chunkSize*count) ∧ 0 ≤ toInt (toInt (count+2)*4) then some {s with
      bevySize := (toInt (chunkSize*count)).toNat
      indexCapacity := (toInt (toInt (count+2)*4)).toNat
      buf := replicate (toInt (chunkSize*count)).toNat 0, position := 0} else none := by
  rw [setChunksInSegment]
  by_cases hb : toInt (chunkSize*count) < 0
  · simp [allocate,hb]
  · by_cases hi : toInt (toInt (count+2)*4) < 0
    · simp [allocate,hb,hi]
    · simp [allocate,hb,hi]

lemma new_eq (count : Int) : new count =
    if 0 ≤ toInt (chunkSize*count) ∧ 0 ≤ toInt (toInt (count+2)*4) then some {
      bevySize := (toInt (chunkSize*count)).toNat
      indexCapacity := (toInt (toInt (count+2)*4)).toNat
      buf := replicate (toInt (chunkSize*count)).toNat 0
      position := 0, writeptr := 0, bevvyNumber := 0, flushed := false, closed := false
      bevvies := [], size := none} else none := by
  rw [new,con,setChunksInSegment_eq,if_pos (by decide),bind_some,setChunksInSegment_eq]

variable {count : Int}

lemma toInt_sizes (hbf : 0 ≤ toInt (chunkSize*count)) (hid : 0 ≤ toInt (toInt (count+2)*4)) :
    (toInt (chunkSize*count)).toNat < 2^31 ∧ (toInt (chunkSize*count)).toNat%chunkSize = 0 ∧
      4*((toInt (chunkSize*count)).toNat/chunkSize+2) ≤ (toInt (toInt (count+2)*4)).toNat := by
  have hb : toInt (chunkSize*count) < 2^31 ∧ toInt (chunkSize*count)%2^32 = 2^15*count%2^32 := by
    simp only [toInt,chunkSize,Int.bmod]
    omega
  have hi : toInt (toInt (count+2)*4)%2^32 = (count+2)*4%2^32 := by
    simp only [toInt,Int.bmod]
    omega
  have hc : chunkSize = 2^15 := rfl
  rw [hc]
  rw [hc] at hb hbf
  omega

lemma new_follows (deflater : Deflater) {start : StreamWriter} (h : new count = some start) :
    start.bevySize = (toInt (chunkSize*count)).toNat ∧
      Follows deflater start .start [] [] := by
  rw [new_eq] at h
  split at h
  · next hs =>
    cases h
    obtain ⟨hsm,hw,hi⟩ := toInt_sizes hs.1 hs.2
    exact ⟨rfl,⟨⟨⟨rfl,rfl,by simp,rfl⟩,⟨length_replicate,hsm,hi,hw⟩,by simp,.inl rfl,
      rfl,rfl,rfl⟩,rfl,rfl,rfl,fun _ => rfl⟩⟩
  · cases h

end StreamWriter

/-- The calls for which a writer of bevies of `b` bytes loses nothing: no `write`
after a `flush` that stored a bevy, the bytes that are taken are those that
are valid, and the deflated bevies fit. -/
structure Kept (deflater : Deflater) (b : Nat) (ops : List StreamWriter.Op) : Prop where
  orderly : StreamWriter.Progress.start.Orderly b ops
  begins : b = 0 → ∃ data rest, ops = .write data :: rest
  taken : (StreamWriter.Progress.start.after b ops).taken = valid ops
  fits : ∀ content ∈ chunks b (valid ops), Fits deflater b content

section

variable {deflater : Deflater}

lemma mapM_stored (hz : deflater.Inverse) {b : Nat} (hb : b < 2^32) {contents : List Bytes}
    (h : ∀ content ∈ contents, Fits deflater b content) :
    (contents.mapIdx (stored deflater)).mapM (Bevvy.inflated deflater) = some contents := by
  induction contents using reverseRecOn with
  | nil => rfl
  | append_singleton contents content ih =>
    have hl := stored_inflated hz contents.length hb (h content (by simp))
    rw [mapIdx_concat,mapM_append,ih fun c hc => h c (by simp [hc])]
    simp [hl]

lemma mapIdx_stored_number (contents : List Bytes) :
    (contents.mapIdx (stored deflater)).map Bevvy.number =
      range (contents.mapIdx (stored deflater)).length := by
  refine ext_getElem (by simp) fun n hn hn' => ?_
  simp [stored]

lemma mapM_middle {α β : Type} {f : α → Option β} {front back : List α} {x : α} {ys : List β}
    (h : (front ++ x :: back).mapM f = some ys) (hb : back ≠ []) :
    ∃ y ∈ ys.dropLast, f x = some y := by
  rw [mapM_append,mapM_cons] at h
  obtain ⟨ys₁,_,h⟩ := bind_eq_some_iff.mp h
  obtain ⟨ys₂,h₂,h⟩ := bind_eq_some_iff.mp h
  obtain ⟨y,hy,h₂⟩ := bind_eq_some_iff.mp h₂
  obtain ⟨ys₃,h₃,h₂⟩ := bind_eq_some_iff.mp h₂
  cases h₂
  cases h
  have hne : ys₃ ≠ [] := by
    rintro rfl
    cases back with
    | nil => exact hb rfl
    | cons b back =>
      rw [mapM_cons] at h₃
      obtain ⟨_,_,h₃⟩ := bind_eq_some_iff.mp h₃
      obtain ⟨_,_,h₃⟩ := bind_eq_some_iff.mp h₃
      cases h₃
  refine ⟨y,?_,hy⟩
  rw [dropLast_append_of_ne_nil (by simp),dropLast_cons_of_ne_nil hne]
  simp

variable {count : Int}

lemma Lossless.kept (hz : deflater.Inverse) {ops : List StreamWriter.Op}
    (h : Lossless deflater count ops) :
    (0 ≤ toInt (chunkSize*count) ∧ 0 ≤ toInt (toInt (count+2)*4)) ∧
      Kept deflater (toInt (chunkSize*count)).toNat ops := by
  obtain ⟨start,s,final,contents,size,hn,hr,hcl,_,hi,hsz,hd,hl,hfr⟩ := h
  have ha : 0 ≤ toInt (chunkSize*count) ∧ 0 ≤ toInt (toInt (count+2)*4) := by
    by_contra hnt
    rw [new_eq,if_neg hnt] at hn
    cases hn
  obtain ⟨hb,hf⟩ := new_follows deflater hn
  refine ⟨ha,hb ▸ ?_⟩
  have hfi : start.finish deflater ops = some final := by rw [finish,hr,bind_some,hcl]
  have ho : StreamWriter.Progress.start.Orderly start.bevySize ops := by
    by_contra hnt
    obtain ⟨front,bevvy,content,back,hbv,hbk,hc,hs⟩ := hf.misplaced hz hnt hfi
    obtain ⟨content',hm,hc'⟩ := mapM_middle (hbv ▸ hi) hbk
    obtain rfl := some.inj (hc.symm.trans hc')
    exact hs (hfr content hm)
  have hfn := hf.finished ho
  obtain ⟨hbg,hft⟩ := hfn.returns.mp ⟨final,hfi⟩
  obtain ⟨hsa,contents',he,ht⟩ := hfn.ended final hfi
  have hsm : final.bevySize < 2^32 := by
    have := hf.allocated.small
    omega
  rw [he.bevvies,mapM_stored hz hsm he.fits] at hi
  cases hi
  have htt := some.inj (he.size.symm.trans hsz)
  rw [← htt,take_length,ht] at hd
  refine ⟨ho,?_,hd,hd ▸ hft⟩
  intro hzr
  exact (hbg hzr).resolve_left (by simp [StreamWriter.Progress.start])

lemma Kept.lossless (hz : deflater.Inverse) {ops : List StreamWriter.Op}
    (ha : 0 ≤ toInt (chunkSize*count) ∧ 0 ≤ toInt (toInt (count+2)*4))
    (hk : Kept deflater (toInt (chunkSize*count)).toNat ops) :
    Lossless deflater count ops := by
  obtain ⟨start,hn⟩ : ∃ start, new count = some start := ⟨_,by rw [new_eq,if_pos ha]⟩
  obtain ⟨hb,hfl⟩ := new_follows deflater hn
  rw [← hb] at hk
  have hf := hfl.finished hk.orderly
  obtain ⟨final,hfi⟩ := hf.returns.mpr
    ⟨fun hzr => .inr (hk.begins hzr),hk.taken ▸ hk.fits⟩
  obtain ⟨hsa,contents,he,ht⟩ := hf.ended final hfi
  obtain ⟨s,hr,hc⟩ := bind_eq_some_iff.mp hfi
  have hs : final.bevySize < 2^32 := by
    have := hfl.allocated.small
    omega
  rw [hk.taken] at ht
  refine ⟨start,s,final,contents,_,hn,hr,hc,?_,?_,he.size,?_,?_,?_⟩
  · rw [he.bevvies,mapIdx_stored_number]
  · rw [he.bevvies,mapM_stored hz hs he.fits]
  · rw [take_length,ht]
  · rw [ht]
  · rw [← hsa]
    exact he.front

theorem lossless_iff (hz : deflater.Inverse) (count : Int) (ops : List StreamWriter.Op) :
    Lossless deflater count ops ↔
      (0 ≤ toInt (chunkSize*count) ∧ 0 ≤ toInt (toInt (count+2)*4)) ∧
        Kept deflater (toInt (chunkSize*count)).toNat ops :=
  ⟨fun h => h.kept hz,fun h => h.2.lossless hz h.1⟩

end

def wholeBuffer (data : Bytes) : ByteBuffer := ⟨data,data.length,Nat.le_refl _⟩

theorem lossless_one_buffer :
    Lossless plainDeflater 1 [.write (wholeBuffer [1,2,3]),.flush] := by
  refine (lossless_iff (fun _ => rfl) 1 _).mpr ⟨by decide,?_,fun h => absurd h (by decide),rfl,?_⟩
  · exact ⟨rfl,trivial⟩
  · intro content hc
    rw [show chunks (toInt (chunkSize*1)).toNat (valid [.write (wholeBuffer [1,2,3]),.flush]) =
      [[1,2,3]] from rfl,mem_singleton] at hc
    subst hc
    exact ⟨by decide,by decide⟩

lemma wholeBuffer_valid (data : Bytes) : valid [.write (wholeBuffer data)] = data := by
  simp [valid,wholeBuffer,ByteBuffer.valid]

lemma StreamWriter.Progress.after_write_length (b : Nat) (data : ByteBuffer) :
    (Progress.start.after b [.write data]).taken.length = min b data.array.length := by
  simp [Progress.after,Progress.next,Progress.start]

def straddling : ByteBuffer := wholeBuffer (replicate (chunkSize+1) 0)

theorem straddling_loses_byte : ¬ Lossless plainDeflater 1 [.write straddling] := by
  intro h
  have ht := congrArg length (h.kept fun _ => rfl).2.taken
  have hs : (toInt (chunkSize*1)).toNat = chunkSize := by decide
  rw [StreamWriter.Progress.after_write_length,hs,straddling,wholeBuffer_valid] at ht
  simp only [wholeBuffer,length_replicate] at ht
  omega

end Aff4.Java
