import Aff4.Lib.Buffer
import Aff4.Lib.Loop
import Aff4.Lib.Transition
import Aff4.Memory

/-! The buffer of RDFSerializer in rdf.c, which raptor fills through two callbacks. -/

namespace Aff4

open LittleEndian Buffer Loop Transition List

/-- `written` are the calls of `write` on the file object. The array has room for twice
`BUFF_SIZE` bytes. -/
structure SerializerBuffer where
  buff : Bytes
  i : Nat
  written : List Bytes
  deriving DecidableEq, Repr

namespace SerializerBuffer

/-- The object is a copy of the class, in which the fields are zero. -/
def con : SerializerBuffer := ⟨replicate (buffSize*2) 0,0,[]⟩

def flush (self : SerializerBuffer) : SerializerBuffer :=
  {self with i := 0, written := self.written ++ [self.buff.take self.i]}

def iostreamWriteByte (self : SerializerBuffer) (byte : UInt8) : Option SerializerBuffer :=
  (writeAt self.buff self.i [byte]).map fun buff =>
    let self := {self with buff := buff, i := self.i+1}
    if buffSize ≤ self.i then self.flush else self

/-- A turn of the loop in `iostream_write_bytes`, with what is left of the source. -/
def writeBytesTurn : Bytes × SerializerBuffer →
    Option (Turn (Bytes × SerializerBuffer) SerializerBuffer)
  | (src,self) =>
    if src = [] then some (.done self)
    else
      let available := min src.length (buffSize-self.i)
      if available = 0 then some (.next (src,self.flush))
      else (writeAt self.buff self.i (src.take available)).map fun buff =>
        .next (src.drop available,{self with buff := buff, i := self.i+available})

/-- The length is an `unsigned int`. An index beyond the limit aborts the program. -/
def iostreamWriteBytes (self : SerializerBuffer) (ptr : Bytes) : Option SerializerBuffer :=
  if buffSize < self.i then none
  else
    let src := ptr.take (ptr.length%2^32)
    loop writeBytesTurn (2*src.length+2) (src,self)

/-- All that `RDFSerializer_close` has passed to the file object in the end. -/
def close (self : SerializerBuffer) : List Bytes := self.flush.written

inductive Call where
  | writeByte (byte : UInt8)
  | writeBytes (ptr : Bytes)
  deriving DecidableEq, Repr

def Call.bytes : Call → Bytes
  | .writeByte byte => [byte]
  | .writeBytes ptr => ptr

def step (self : SerializerBuffer) : Call → Option SerializerBuffer
  | .writeByte byte => self.iostreamWriteByte byte
  | .writeBytes ptr => self.iostreamWriteBytes ptr

/-- The bytes that were passed in so far: those written, and those in the buffer. -/
structure Holds (s : SerializerBuffer) (content : Bytes) : Prop where
  length : s.buff.length = buffSize*2
  index : s.i ≤ buffSize
  content : s.written.flatten ++ s.buff.take s.i = content

lemma con_holds : con.Holds [] := ⟨length_replicate,Nat.zero_le _,rfl⟩

variable {s : SerializerBuffer} {content : Bytes}

lemma Holds.flush (hl : s.buff.length = buffSize*2)
    (hc : s.written.flatten ++ s.buff.take s.i = content) : s.flush.Holds content := by
  refine ⟨hl,Nat.zero_le _,?_⟩
  simpa [SerializerBuffer.flush] using hc

lemma Holds.append {content xs buff : Bytes} (hs : s.Holds content)
    (h : writeAt s.buff s.i xs = some buff) : buff.length = buffSize*2 ∧
      s.written.flatten ++ buff.take (s.i+xs.length) = content ++ xs := by
  refine ⟨(writeAt_length h).1.trans hs.length,?_⟩
  rw [writeAt_take h,← append_assoc,hs.content]

lemma writeByte_holds (hs : s.Holds content)
    (byte : UInt8) : ∃ t, s.iostreamWriteByte byte = some t ∧ t.Holds (content ++ [byte]) := by
  have hf : s.i+[byte].length ≤ s.buff.length := by
    have hi := hs.index
    rw [hs.length,length_singleton]
    simp only [buffSize] at hi ⊢
    omega
  obtain ⟨buff,hw⟩ : ∃ buff, writeAt s.buff s.i [byte] = some buff := ⟨_,writeAt_of_le hf⟩
  obtain ⟨hl,hc⟩ := hs.append hw
  rw [iostreamWriteByte,hw]
  refine ⟨_,rfl,?_⟩
  dsimp only
  split
  · exact Holds.flush hl hc
  · next hls => exact ⟨hl,le_of_lt (Nat.not_le.mp hls),hc⟩

def Copying (content : Bytes) (state : Bytes × SerializerBuffer) : Prop :=
  ∃ front, state.2.Holds front ∧ front ++ state.1 = content

def turnsLeft (state : Bytes × SerializerBuffer) : Nat :=
  2*state.1.length+(if state.2.i = buffSize then 1 else 0)

lemma writeBytesTurn_cases {state : Bytes × SerializerBuffer} (hs : Copying content state) :
    (state.1 = [] ∧ writeBytesTurn state = some (.done state.2)) ∨
      ∃ next, writeBytesTurn state = some (.next next) ∧ Copying content next ∧
        turnsLeft next < turnsLeft state := by
  obtain ⟨src,s⟩ := state
  obtain ⟨front,hf,hsp⟩ := hs
  simp only at hf hsp
  have hi := hf.index
  by_cases hsr : src = []
  · exact .inl ⟨hsr,by simp [writeBytesTurn,hsr]⟩
  · have hp : 0 < src.length := length_pos_iff.mpr hsr
    refine .inr ?_
    by_cases hfu : s.i = buffSize
    · refine ⟨(src,s.flush),by simp [writeBytesTurn,hsr,hfu],
        ⟨front,.flush hf.length hf.content,hsp⟩,?_⟩
      have he : ¬ s.flush.i = buffSize := by simp [SerializerBuffer.flush,buffSize]
      simp only [turnsLeft,if_pos hfu,if_neg he]
      omega
    · have ha : min src.length (buffSize-s.i) ≠ 0 := by omega
      have hl : (src.take (min src.length (buffSize-s.i))).length =
          min src.length (buffSize-s.i) := by
        rw [length_take]
        omega
      have hft : s.i+(src.take (min src.length (buffSize-s.i))).length ≤ s.buff.length := by
        rw [hl,hf.length]
        omega
      obtain ⟨buff,hw⟩ : ∃ buff, writeAt s.buff s.i
          (src.take (min src.length (buffSize-s.i))) = some buff := ⟨_,writeAt_of_le hft⟩
      obtain ⟨hb,hc⟩ := hf.append hw
      rw [hl] at hc
      have ht : writeBytesTurn (src,s) = some (.next (src.drop (min src.length (buffSize-s.i)),
          {s with buff := buff, i := s.i+min src.length (buffSize-s.i)})) := by
        simp only [writeBytesTurn,if_neg hsr,if_neg ha,hw]
        rfl
      refine ⟨_,ht,⟨_,⟨hb,?_,hc⟩,?_⟩,?_⟩
      · simp only
        omega
      · rw [append_assoc,take_append_drop]
        exact hsp
      · simp only [turnsLeft,length_drop,if_neg hfu]
        split <;> omega

lemma writeBytes_holds {content ptr : Bytes} (hs : s.Holds content) (hp : ptr.length < 2^32) :
    ∃ t, s.iostreamWriteBytes ptr = some t ∧ t.Holds (content ++ ptr) := by
  have ha : ptr.take (ptr.length%2^32) = ptr := by rw [Nat.mod_eq_of_lt hp,take_length]
  have hst : Copying (content ++ ptr) (ptr,s) := ⟨content,hs,rfl⟩
  have hfu : turnsLeft (ptr,s) < 2*ptr.length+2 := by
    simp only [turnsLeft]
    split <;> omega
  obtain ⟨t,ht⟩ : ∃ t, loop writeBytesTurn (2*ptr.length+2) (ptr,s) = some t := by
    refine (loop_returns_iff (Copying (content ++ ptr)) (fun _ => True) turnsLeft
      (fun state hsta => ?_) hst hfu).mpr trivial
    obtain ⟨-,hd⟩ | ⟨next,hn,hc,hl⟩ := writeBytesTurn_cases hsta
    · exact .inl ⟨_,hd,trivial⟩
    · exact .inr (.inr ⟨next,hn,hc,hl,Iff.rfl⟩)
  refine ⟨t,?_,?_⟩
  · rw [iostreamWriteBytes,if_neg (Nat.not_lt.mpr hs.index)]
    simp only [ha]
    exact ht
  · refine loop_rule (Copying (content ++ ptr)) (fun t => t.Holds (content ++ ptr))
      (fun state next hsta h => ?_) (fun state r hsta h => ?_) hst ht
    · obtain ⟨-,hd⟩ | ⟨next',hn,hc,-⟩ := writeBytesTurn_cases hsta
      · rw [hd] at h
        cases h
      · rw [hn] at h
        cases h
        exact hc
    · obtain ⟨hsr,hd⟩ | ⟨next',hn,-⟩ := writeBytesTurn_cases hsta
      · rw [hd] at h
        cases h
        obtain ⟨front,hf,hsp⟩ := hsta
        rw [hsr,append_nil] at hsp
        exact hsp ▸ hf
      · rw [hn] at h
        cases h

lemma step_holds (hs : s.Holds content) (call : Call) (hc : call.bytes.length < 2^32) :
    ∃ t, s.step call = some t ∧ t.Holds (content ++ call.bytes) := by
  cases call with
  | writeByte byte => exact writeByte_holds hs byte
  | writeBytes ptr => exact writeBytes_holds hs hc

lemma run_holds (hs : s.Holds content)
    {calls : List Call} (hc : ∀ call ∈ calls, call.bytes.length < 2^32) :
    ∃ t, run step s calls = some t ∧ t.Holds (content ++ calls.flatMap Call.bytes) := by
  induction calls generalizing s content with
  | nil => exact ⟨s,rfl,by simpa using hs⟩
  | cons call calls ih =>
    obtain ⟨hcl,hc⟩ := forall_mem_cons.mp hc
    obtain ⟨t,ht,hh⟩ := step_holds hs call hcl
    obtain ⟨u,hu,hh⟩ := ih hh hc
    exact ⟨u,by simp [run,ht,hu],by simpa using hh⟩

/-- Whatever raptor writes arrives at the file object in order, and the index stays within the
buffer. -/
theorem close_complete {calls : List Call}
    (hc : ∀ call ∈ calls, call.bytes.length < 2^32) :
    ∃ s, run step con calls = some s ∧ s.i ≤ buffSize ∧ buffSize < s.buff.length ∧
      s.close.flatten = calls.flatMap Call.bytes := by
  obtain ⟨s,hs,hh⟩ := run_holds con_holds hc
  refine ⟨s,hs,hh.index,by rw [hh.length]; decide,?_⟩
  simpa [close,flush] using hh.content

theorem close_complete_full :
    ∃ s, run step con [.writeBytes (replicate buffSize 65),.writeByte 10] = some s ∧
      s.i ≤ buffSize ∧ buffSize < s.buff.length ∧
      s.close.flatten = [Call.writeBytes (replicate buffSize 65),.writeByte 10].flatMap
        Call.bytes := by
  refine close_complete (forall_mem_cons.mpr ⟨?_,forall_mem_singleton.mpr ?_⟩)
  · rw [Call.bytes,length_replicate]
    decide
  · decide

end SerializerBuffer

end Aff4
