import Aff4.Lib.Loop
import Aff4.Lib.Transition
import Aff4.ZipSegment

/-! Writing an image stream: `AFF4Image_write` cuts the data into bevies and `ImageWorker_run`
cuts a bevy into chunks, which it stores with an index in two members of the volume. -/

namespace Aff4

open LittleEndian Loop Transition List Option Nat

def hex8 (n : Nat) : Bytes := (range 8).reverse.map fun i => hexDigit (n/16^i%16)

/-- The one-shot calls of zlib. `uncompress` gets the room that the caller says there is. -/
structure ChunkZlib where
  compress2 : Bytes → Option Bytes
  uncompress : Bytes → Nat → Option Bytes

structure ImageWorker where
  segmentCount : Nat
  bevy : StringIO

def ImageWorker.con (segmentCount : Nat) : ImageWorker := ⟨segmentCount,.con⟩

structure ImageParameters where
  urn : RDFURN
  chunkSize : Nat
  compression : Nat
  chunksInSegment : Nat
  bevySize : Nat

structure AFF4Image extends ImageParameters where
  segmentCount : Nat
  current : ImageWorker
  /-- The jobs that went to the thread pool. -/
  scheduled : List ImageWorker

namespace AFF4Image

/-- `AFF4Image_finish`: whether it succeeds, and the image afterwards. The size of a bevy is
set before the defaults. -/
def finish (self : AFF4Image) (mode : Mode) : Option (Bool × AFF4Image) :=
  (toInt (self.chunkSize*self.chunksInSegment)).map fun bevySize =>
    let self := {self with bevySize := bevySize.toNat}
    match mode with
    | .r => (false,self)
    | .w => (true,{self with
        chunkSize := if self.chunkSize = 0 then 32*1024 else self.chunkSize
        chunksInSegment := if self.chunksInSegment = 0 then 1024 else self.chunksInSegment
        segmentCount := 0
        current := .con 0
        scheduled := []})

def flush (self : AFF4Image) : Option AFF4Image :=
  (toInt (self.segmentCount+1)).map fun _ =>
    {self with
      scheduled := self.scheduled ++ [self.current]
      segmentCount := self.segmentCount+1
      current := .con (self.segmentCount+1)}

def flushFull (self : AFF4Image) : Option AFF4Image :=
  if self.bevySize ≤ self.current.bevy.data.length then self.flush else some self

def fillTurn (buffer : Bytes) : Int × AFF4Image → Option (Turn (Int × AFF4Image) AFF4Image)
  | (offset,self) => do
    let needToWrite := ((buffer.length : Int)-offset).bmod (2^32)
    let availableToWrite : Int := (self.bevySize : Int)-self.current.bevy.data.length
    if needToWrite ≤ 0 then some (.done self)
    else
      let bevy ← self.current.bevy.write
        (slice buffer offset.toNat (min needToWrite availableToWrite).toNat)
      let offset ← toInt (offset+availableToWrite)
      some (.next (offset,{self with current := {self.current with bevy := bevy}}))

def writeTurn (buffer : Bytes) (state : Int × AFF4Image) :
    Option (Turn (Int × AFF4Image) AFF4Image) :=
  (fillTurn buffer state).bind fun
    | .done self => some (.done self)
    | .next (offset,self) => self.flushFull.bind fun self => some (.next (offset,self))

/-- `AFF4Image_write`. The bound on the turns is one that `write_enough` justifies. -/
def write (self : AFF4Image) (buffer : Bytes) : Option AFF4Image :=
  loop (writeTurn buffer) (buffer.length+1) (0,self)

def close (self : AFF4Image) : List ImageWorker := self.scheduled ++ [self.current]

end AFF4Image

namespace ImageParameters

def bevyUrn (self : ImageParameters) (segmentNumber : Nat) : RDFURN :=
  (RDFURN.set self.urn.value).add (hex8 segmentNumber)

def indexUrn (self : ImageParameters) (segmentNumber : Nat) : RDFURN :=
  (self.bevyUrn segmentNumber).add (chars ['i','d','x'])

def packed (self : ImageParameters) (zlib : ChunkZlib) (buffer : Bytes) : Option Bytes :=
  if self.compression = zipStored.toNat then some buffer else zlib.compress2 buffer

end ImageParameters

namespace AFF4Image

/-- The image has taken in `content`: whole bevies are scheduled in order and the rest is in
the current one. -/
structure Written (image : AFF4Image) (content : Bytes) : Prop where
  atEnd : image.current.bevy.readptr = image.current.bevy.data.length
  count : image.segmentCount < 2^31
  number : image.current.segmentCount = image.segmentCount
  numbers : image.scheduled.map ImageWorker.segmentCount = range image.segmentCount
  full : ∀ job ∈ image.scheduled, job.bevy.data.length = image.bevySize
  content : content = (image.scheduled.map fun job => job.bevy.data).flatten ++
    image.current.bevy.data

lemma Written.take {s : AFF4Image} {content piece : Bytes} {bevy : StringIO}
    (hs : s.Written content) (h : s.current.bevy.write piece = some bevy) :
    {s with current := {s.current with bevy := bevy}}.Written (content ++ piece) ∧
      bevy.data.length = s.current.bevy.data.length+piece.length := by
  obtain ⟨hd,hp⟩ := StringIO.write_end hs.atEnd h
  refine ⟨⟨hp,hs.count,hs.number,hs.numbers,hs.full,?_⟩,?_⟩
  · simp [hs.content,hd]
  · rw [hd,length_append]

lemma Written.flush {s next : AFF4Image} {content : Bytes} (hs : s.Written content)
    (hf : s.current.bevy.data.length = s.bevySize) (h : s.flush = some next) :
    next.Written content ∧ next.current.bevy.data = [] := by
  obtain ⟨_,hc,rfl⟩ := map_eq_some_iff.mp h
  obtain ⟨-,-,hc⟩ := toInt_eq_some hc
  have hc : s.segmentCount+1 < 2^31 := by omega
  refine ⟨⟨rfl,hc,rfl,?_,?_,?_⟩,rfl⟩
  · simp only [map_append,hs.numbers,map_cons,map_nil,hs.number,range_succ]
  · intro job hj
    rcases mem_append.mp hj with hj | hj
    · exact hs.full job hj
    · rw [mem_singleton.mp hj]
      exact hf
  · simp [hs.content,ImageWorker.con, StringIO.con]

variable {offset : Nat}

lemma fillTurn_eq {s : AFF4Image} {buffer : Bytes} (hl : buffer.length < 2^31)
    (ho : offset < 2^31) : fillTurn buffer (offset,s) =
      if buffer.length ≤ offset then some (.done s)
      else (s.current.bevy.write (slice buffer offset (min ((buffer.length : Int)-offset)
          ((s.bevySize : Int)-s.current.bevy.data.length)).toNat)).bind fun bevy =>
        (toInt (offset+((s.bevySize : Int)-s.current.bevy.data.length))).bind fun offset =>
          some (.next (offset,{s with current := {s.current with bevy := bevy}})) := by
  have hn : ((buffer.length : Int)-offset).bmod (2^32) = (buffer.length : Int)-offset :=
    Int.bmod_eq_of_le (by omega) (by omega)
  have hle : (buffer.length : Int)-offset ≤ 0 ↔ buffer.length ≤ offset := by omega
  rw [fillTurn]
  simp only [hn,hle,Int.toNat_natCast,bind_eq_bind]

lemma writeTurn_cases {s : AFF4Image} {buffer : Bytes}
    {outcome : Turn (Int × AFF4Image) AFF4Image} (hl : buffer.length < 2^31)
    (hof : offset < 2^31) (h : writeTurn buffer (offset,s) = some outcome) :
    buffer.length ≤ offset ∧ outcome = .done s ∨ offset < buffer.length ∧ ∃ bevy next,
      s.current.bevy.write (slice buffer offset (min ((buffer.length : Int)-offset)
        ((s.bevySize : Int)-s.current.bevy.data.length)).toNat) = some bevy ∧
      offset+((s.bevySize : Int)-s.current.bevy.data.length) < 2^31 ∧
      {s with current := {s.current with bevy := bevy}}.flushFull = some next ∧
      outcome = .next (offset+((s.bevySize : Int)-s.current.bevy.data.length),next) := by
  rw [writeTurn,fillTurn_eq hl hof] at h
  by_cases hle : buffer.length ≤ offset
  · rw [if_pos hle] at h
    exact .inl ⟨hle,(some.inj h).symm⟩
  · simp only [if_neg hle,bind_assoc,bind_some,bind_eq_some_iff] at h
    obtain ⟨bevy,hb,offset',ho,next,hn,h⟩ := h
    obtain ⟨rfl,-,hlt⟩ := toInt_eq_some ho
    exact .inr ⟨not_le.mp hle,bevy,next,hb,hlt,hn,(some.inj h).symm⟩

/-- In the middle of a write: what has been taken in and what is left of the buffer make up
the content in the end. -/
structure Taking (params : ImageParameters) (whole buffer : Bytes) (state : Int × AFF4Image) :
    Prop where
  parameters : state.2.toImageParameters = params
  room : state.2.current.bevy.data.length < state.2.bevySize
  offset : ∃ offset : Nat, state.1 = offset ∧ offset < 2^31
  taken : ∃ taken, state.2.Written taken ∧ whole = taken ++ buffer.drop state.1.toNat

section

variable {params : ImageParameters} {whole buffer : Bytes} {state : Int × AFF4Image}
  (hl : buffer.length < 2^31) (hs : Taking params whole buffer state)

include hl hs

lemma Taking.next {state' : Int × AFF4Image} (h : writeTurn buffer state = some (.next state')) :
    Taking params whole buffer state' ∧
      buffer.length-state'.1.toNat < buffer.length-state.1.toNat := by
  obtain ⟨_,s⟩ := state
  obtain ⟨hp,hrm,⟨offset,rfl,hof⟩,taken,hwr,hwh⟩ := hs
  simp only at hp hrm hwr
  obtain ⟨-,he⟩ | ⟨hm,bevy,next,hbv,hlt,hn,he⟩ := writeTurn_cases hl hof h
  · cases he
  · cases he
    obtain ⟨room,hrm'⟩ : ∃ room, s.bevySize = s.current.bevy.data.length+room :=
      Nat.exists_eq_add_of_le (le_of_lt hrm)
    have ho : (offset : Int)+((s.bevySize : Int)-s.current.bevy.data.length) =
        (offset+room : Nat) := by omega
    have hpc : slice buffer offset (min ((buffer.length : Int)-offset)
        ((s.bevySize : Int)-s.current.bevy.data.length)).toNat =
        (buffer.drop offset).take room := by
      rw [slice,take_eq_take_iff,length_drop]
      omega
    have hle : ((buffer.drop offset).take room).length ≤ room := length_take_le _ _
    rw [hpc] at hbv
    rw [ho] at hlt ⊢
    obtain ⟨hw,hsz⟩ := hwr.take hbv
    have ha : whole = taken ++ (buffer.drop offset).take room ++ buffer.drop (offset+room) := by
      rw [hwh,Int.toNat_natCast,← drop_drop,append_assoc,take_append_drop]
    refine ⟨?_,by simp only [Int.toNat_natCast]; omega⟩
    rw [flushFull] at hn
    split at hn
    · next hf =>
      simp only at hf
      have heq : bevy.data.length = s.bevySize := by omega
      obtain ⟨hfl,hem⟩ := hw.flush heq hn
      have hsa : next.toImageParameters = s.toImageParameters := by
        obtain ⟨_,-,rfl⟩ := map_eq_some_iff.mp hn
        rfl
      have hb : next.bevySize = s.bevySize := congrArg ImageParameters.bevySize hsa
      refine ⟨hsa.trans hp,?_,⟨_,rfl,by omega⟩,_,hfl,ha⟩
      simp only [hem,hb,length_nil]
      omega
    · next hf =>
      cases hn
      exact ⟨hp,not_le.mp hf,⟨_,rfl,by omega⟩,_,hw,ha⟩

lemma Taking.done {next : AFF4Image} (h : writeTurn buffer state = some (.done next)) :
    next.Written whole ∧ next.current.bevy.data.length < next.bevySize ∧
      next.toImageParameters = params := by
  obtain ⟨_,s⟩ := state
  obtain ⟨hp,hrm,⟨offset,rfl,ho⟩,taken,hw,rfl⟩ := hs
  obtain ⟨hle,he⟩ | ⟨-,_,_,-,-,-,he⟩ := writeTurn_cases hl ho h
  · cases he
    rw [Int.toNat_natCast,drop_eq_nil_of_le hle,append_nil]
    exact ⟨hw,hrm,hp⟩
  · cases he

end

section

variable {s next : AFF4Image} {content buffer : Bytes} (hl : buffer.length < 2^31)
  (hs : s.Written content) (hrm : s.current.bevy.data.length < s.bevySize)

include hs hrm in
lemma Written.taking (buffer : Bytes) :
    Taking s.toImageParameters (content ++ buffer) buffer (0,s) :=
  ⟨rfl,hrm,⟨0,rfl,by decide⟩,content,hs,rfl⟩

include hl hs hrm

lemma write_enough {fuel : Nat} (h : loop (writeTurn buffer) fuel (0,s) = some next) :
    s.write buffer = some next :=
  loop_enough (Taking s.toImageParameters (content ++ buffer) buffer)
    (fun state => buffer.length-state.1.toNat) (fun _ _ hi ht => Taking.next hl hi ht)
    (hs.taking hrm buffer) h (lt_succ_self _)

lemma write_written (h : s.write buffer = some next) :
    next.Written (content ++ buffer) ∧ next.current.bevy.data.length < next.bevySize ∧
      next.toImageParameters = s.toImageParameters :=
  loop_rule (Taking s.toImageParameters (content ++ buffer) buffer)
    (fun z => z.Written (content ++ buffer) ∧ z.current.bevy.data.length < z.bevySize ∧
      z.toImageParameters = s.toImageParameters) (fun _ _ hi ht => (Taking.next hl hi ht).1)
    (fun _ _ hi ht => Taking.done hl hi ht) (hs.taking hrm buffer) h

end

lemma run_write_written {writes : List Bytes} (hl : ∀ buffer ∈ writes, buffer.length < 2^31)
    {s next : AFF4Image} {content : Bytes} (hs : s.Written content)
    (hrm : s.current.bevy.data.length < s.bevySize) (h : run write s writes = some next) :
    next.Written (content ++ writes.flatten) ∧ next.current.bevy.data.length < next.bevySize ∧
      next.toImageParameters = s.toImageParameters := by
  induction writes generalizing s content with
  | nil =>
    cases h
    exact ⟨by simpa using hs,hrm,rfl⟩
  | cons buffer writes ih =>
    obtain ⟨mid,hm,h⟩ := run_cons h
    obtain ⟨hw,hr,hp⟩ := write_written (hl buffer mem_cons_self) hs hrm hm
    obtain ⟨hw',hr',hp'⟩ := ih (fun b hb => hl b (mem_cons_of_mem _ hb)) hw hr h
    refine ⟨?_,hr',hp'.trans hp⟩
    rwa [append_assoc,← flatten_cons] at hw'

variable {s : AFF4Image} {content : Bytes} (hs : s.Written content)
include hs

lemma Written.scheduled_length : s.scheduled.length = s.segmentCount := by
  simpa using congrArg length hs.numbers

lemma Written.blocks_full :
    ∀ block ∈ s.scheduled.map fun job => job.bevy.data, block.length = s.bevySize := by
  intro block hb
  obtain ⟨job,hj,rfl⟩ := mem_map.mp hb
  exact hs.full job hj

lemma Written.jobs (hrm : s.current.bevy.data.length < s.bevySize) :
    content.length < (s.segmentCount+1)*s.bevySize ∧
    ∀ k ≤ s.segmentCount, ∃ job ∈ s.close, job.segmentCount = k ∧
      job.bevy.data = slice content (k*s.bevySize) s.bevySize := by
  have hc := hs.scheduled_length
  have hf := hs.blocks_full
  constructor
  · rw [hs.content,length_append,blocks_length hf,length_map,hc,succ_mul]
    omega
  · intro k hk
    have hlt : k < s.close.length := by
      rw [close,length_append,hc]
      exact lt_succ_of_le hk
    have hn : s.close.map ImageWorker.segmentCount = range (s.segmentCount+1) := by
      simp [close,hs.numbers,hs.number,range_succ]
    refine ⟨s.close.get ⟨k,hlt⟩,get_mem _ _,?_,?_⟩
    · have := congrArg (fun l => l[k]?) hn
      simpa [hlt,lt_succ_of_le hk] using this
    · rw [hs.content]
      refine (slice_blocks hf (le_of_lt hrm) ?_).symm
      have hb : (s.scheduled.map fun job => job.bevy.data) ++ [s.current.bevy.data] =
          s.close.map fun job => job.bevy.data := by simp [close]
      rw [hb]
      simp [hlt]

end AFF4Image

namespace ImageParameters

def sized (self : ImageParameters) : ImageParameters :=
  {self with bevySize := self.chunkSize*self.chunksInSegment}

end ImageParameters

namespace AFF4Image

/-- The parameters that both sides work with. A reader is refused, with the size of a bevy
already set. -/
lemma finish_cases {s next : AFF4Image} {mode : Mode} {ok : Bool}
    (hc : 0 < s.chunkSize) (hcn : 0 < s.chunksInSegment)
    (h : s.finish mode = some (ok,next)) :
    s.chunkSize*s.chunksInSegment < 2^31 ∧ next.toImageParameters = s.sized ∧
      (ok = true ↔ mode = .w) ∧ (mode = .w → next.Written [] ∧ next.current.bevy.data = []) := by
  obtain ⟨bevySize,hsz,h⟩ := map_eq_some_iff.mp h
  obtain ⟨rfl,-,hlt⟩ := toInt_eq_some hsz
  have hn : ((s.chunkSize : Int)*s.chunksInSegment).toNat =
      s.chunkSize*s.chunksInSegment := by rw [← Int.natCast_mul,Int.toNat_natCast]
  refine ⟨by exact_mod_cast hlt,?_⟩
  cases mode with
  | r =>
    cases h
    simp [ImageParameters.sized,hn]
  | w =>
    cases h
    refine ⟨?_,by simp,fun _ => ⟨⟨rfl,Nat.two_pow_pos 31,rfl,rfl,by simp,rfl⟩,rfl⟩⟩
    simp [ImageParameters.sized,hn,ne_of_gt hc,ne_of_gt hcn]

end AFF4Image

end Aff4
