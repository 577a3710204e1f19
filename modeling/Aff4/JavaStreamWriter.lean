import Aff4.Lib.Chunks
import Aff4.Lib.LittleEndian
import Aff4.Lib.Transition

/-! The stream writer of the Java library (StreamWriter.java). It collects the data of one bevy and
stores it as deflated chunks with an index. An exception has no result. -/

namespace Aff4.Java

open LittleEndian Chunks Transition List Option

def toInt (n : Int) : Int := n.bmod (2^32)

structure Deflater where
  deflate : Bytes → Bytes
  inflate : Bytes → Option Bytes

def Deflater.Inverse (deflater : Deflater) : Prop :=
  ∀ data, deflater.inflate (deflater.deflate data) = some data

def plainDeflater : Deflater := ⟨id,some⟩

/-- A buffer that is passed to `write`. The array is as long as its capacity. -/
structure ByteBuffer where
  array : Bytes
  limit : Nat
  limit_le : limit ≤ array.length

def ByteBuffer.valid (self : ByteBuffer) : Bytes := self.array.take self.limit

structure Bevvy where
  number : Nat
  data : Bytes
  index : Bytes
  deriving DecidableEq, Repr

def chunkSize : Nat := 32*1024

/-- `bevvies` and `size` are what the volume was given. -/
structure StreamWriter where
  bevySize : Nat
  indexCapacity : Nat
  buf : Bytes
  position : Nat
  writeptr : Nat
  bevvyNumber : Nat
  flushed : Bool
  closed : Bool
  bevvies : List Bevvy
  size : Option Nat

def allocate (capacity : Int) : Option Bytes :=
  if capacity < 0 then none else some (replicate capacity.toNat 0)

def put (capacity : Nat) (buffer piece : Bytes) : Option Bytes :=
  if buffer.length+piece.length ≤ capacity then some (buffer ++ piece) else none

namespace StreamWriter

def setChunksInSegment (self : StreamWriter) (count : Int) : Option StreamWriter := do
  let bevySize := toInt (chunkSize*count)
  let buf ← allocate bevySize
  let bevvyIndex ← allocate (toInt (toInt (count+2)*4))
  return {self with
    bevySize := bevySize.toNat, indexCapacity := bevvyIndex.length, buf := buf, position := 0}

/-- The constructor, with `chunks_in_segment` 2048. -/
def con : Option StreamWriter := setChunksInSegment ⟨0,0,[],0,0,0,false,false,[],none⟩ 2048

def new (count : Int) : Option StreamWriter := con.bind fun self => self.setChunksInSegment count

def chunkLoop (deflater : Deflater) (self : StreamWriter) (limit : Nat) :
    Nat → Nat → Nat → Bytes → Bytes → Option (Bytes × Bytes)
  | 0, _, _, _, _ => none
  | fuel+1, pos, offsetEnd, bevvy, bevvyIndex =>
    if pos < limit then
      let outBuf := deflater.deflate (slice self.buf pos (min chunkSize (limit-pos)))
      if outBuf.length ≤ chunkSize*2 then do
        let bevvy ← put self.bevySize bevvy outBuf
        let bevvyIndex ← put self.indexCapacity bevvyIndex (leBytes 4 (offsetEnd+outBuf.length))
        chunkLoop deflater self limit fuel (pos+chunkSize) (offsetEnd+outBuf.length) bevvy
          bevvyIndex
      else none
    else some (bevvy,bevvyIndex)

def terminator : Bytes := [255,255,255,255]

def writeBevvy (deflater : Deflater) (self : StreamWriter) (limit : Nat) : Option StreamWriter := do
  let bevvyIndex ← put self.indexCapacity [] (leBytes 4 0)
  let (bevvy,bevvyIndex) ← chunkLoop deflater self limit (limit+1) 0 0 [] bevvyIndex
  let bevvyIndex ← put self.indexCapacity bevvyIndex terminator
  return {self with
    bevvies := self.bevvies ++ [⟨self.bevvyNumber,bevvy,bevvyIndex⟩]
    bevvyNumber := self.bevvyNumber+1, position := 0, flushed := true}

def write (deflater : Deflater) (self : StreamWriter) (data : ByteBuffer) : Option StreamWriter :=
  let availableToRead := min (self.bevySize-self.position) data.array.length
  let self := {self with
    buf := self.buf.take self.position ++ data.array.take availableToRead ++
      self.buf.drop (self.position+availableToRead)
    position := self.position+availableToRead
    writeptr := self.writeptr+availableToRead}
  if self.position = self.bevySize then writeBevvy deflater {self with position := 0} self.bevySize
  else some {self with flushed := false}

/-- The remainder by a bevy size of 0 throws. -/
def flush (deflater : Deflater) (self : StreamWriter) : Option StreamWriter :=
  if self.flushed then some self
  else if self.bevySize = 0 then none
  else writeBevvy deflater self (self.writeptr % self.bevySize)

def close (deflater : Deflater) (self : StreamWriter) : Option StreamWriter := do
  let self ← if !self.flushed && !self.closed then self.flush deflater else some self
  return if self.closed then self
    else {self with flushed := true, size := some self.writeptr, closed := true}

inductive Op where
  | write (data : ByteBuffer)
  | flush

def step (deflater : Deflater) (self : StreamWriter) : Op → Option StreamWriter
  | .write data => self.write deflater data
  | .flush => self.flush deflater

end StreamWriter

def words (bevvyIndex : Bytes) : List Nat := (chunks 4 bevvyIndex).map leNat

def Bevvy.inflated (deflater : Deflater) (self : Bevvy) : Option Bytes :=
  ((cut self.data (words self.index).dropLast).mapM deflater.inflate).map flatten

section

variable (deflater : Deflater)

def pieces (content : Bytes) : List Bytes := (chunks chunkSize content).map deflater.deflate

def stored (number : Nat) (content : Bytes) : Bevvy where
  number := number
  data := (pieces deflater content).flatten
  index := (offsets 0 (pieces deflater content)).flatMap (leBytes 4) ++ StreamWriter.terminator

structure Fits (bevySize : Nat) (content : Bytes) : Prop where
  chunk : ∀ piece ∈ pieces deflater content, piece.length ≤ chunkSize*2
  bevvy : (pieces deflater content).flatten.length ≤ bevySize

end

lemma words_leBytes (ns : List Nat) (hns : ∀ n ∈ ns, n < 2^32) (rest : Bytes)
    (hr : rest.length = 4) : words (ns.flatMap (leBytes 4) ++ rest) = ns ++ [leNat rest] := by
  have hc : chunks 4 (ns.flatMap (leBytes 4) ++ rest) = ns.map (leBytes 4) ++ [rest] := by
    rw [List.flatMap_def,chunks_flatten (by simp) (by decide),
      chunks_short (List.ne_nil_of_length_pos (by omega)) (by omega)]
  have hv : ∀ n ∈ ns, leNat (leBytes 4 n) = n := by
    intro n hn
    rw [leNat_leBytes]
    exact Nat.mod_eq_of_lt (hns n hn)
  rw [words,hc,List.map_append,List.map_map]
  congr 1
  exact (List.map_congr_left hv).trans (List.map_id' ns)

lemma mapM_inflate {deflater : Deflater} (hz : deflater.Inverse) (xs : List Bytes) :
    (xs.map deflater.deflate).mapM deflater.inflate = some xs := by
  induction xs with
  | nil => rfl
  | cons x xs ih => simp [hz x,ih]

lemma stored_inflated {deflater : Deflater} (hz : deflater.Inverse) (number : Nat)
    {bevySize : Nat} (hs : bevySize < 2^32) {content : Bytes}
    (h : Fits deflater bevySize content) :
    (stored deflater number content).inflated deflater = some content := by
  have ho : ∀ n ∈ offsets 0 (pieces deflater content), n < 2^32 := by
    intro n hn
    have := le_of_mem_offsets hn
    have := h.bevvy
    omega
  rw [Bevvy.inflated,stored,words_leBytes _ ho _ rfl,dropLast_concat]
  have hc := cut_offsets ([] : Bytes) (pieces deflater content)
  rw [nil_append] at hc
  rw [show offsets 0 (pieces deflater content) =
    offsets ([] : Bytes).length (pieces deflater content) from rfl,hc,pieces,mapM_inflate hz,
    map_some,flatten_chunks (by decide)]

variable {capacity : Nat} {buffer piece : Bytes}

lemma put_of_le (h : buffer.length+piece.length ≤ capacity) :
    put capacity buffer piece = some (buffer ++ piece) :=
  if_pos h

lemma put_of_lt (h : capacity < buffer.length+piece.length) : put capacity buffer piece = none :=
  if_neg (by omega)

def entries (before : List Bytes) : Bytes := (offsets 0 before).flatMap (leBytes 4)

lemma entries_length (before : List Bytes) : (entries before).length = 4*(before.length+1) := by
  simp [entries,mul_comm]

lemma entries_append (before : List Bytes) (piece : Bytes) : entries (before ++ [piece]) =
      entries before ++ leBytes 4 (before.flatten.length+piece.length) := by
  simp [entries,offsets_append]

namespace StreamWriter

variable {deflater : Deflater} {s : StreamWriter}

lemma chunkLoop_eq {limit : Nat} (fuel pos : Nat) (before : List Bytes)
    (hbf : limit ≤ s.buf.length) (hfu : limit-pos < fuel)
    (hr : 4*(before.length+(chunks chunkSize ((s.buf.take limit).drop pos)).length+1) ≤
      s.indexCapacity)
    (hb : before.flatten.length ≤ s.bevySize) :
    chunkLoop deflater s limit fuel pos before.flatten.length before.flatten (entries before) =
      let rest := pieces deflater ((s.buf.take limit).drop pos)
      if (∀ piece ∈ rest, piece.length ≤ chunkSize*2) ∧
          (before ++ rest).flatten.length ≤ s.bevySize then
        some ((before ++ rest).flatten,entries (before ++ rest))
      else none := by
  induction fuel generalizing pos before with
  | zero => omega
  | succ fuel ih =>
    rw [chunkLoop]
    by_cases hp : pos < limit
    · have hne : (s.buf.take limit).drop pos ≠ [] :=
        ne_nil_of_length_pos (by rw [length_drop,length_take]; omega)
      have hch : slice s.buf pos (min chunkSize (limit-pos)) =
          ((s.buf.take limit).drop pos).take chunkSize := by rw [slice,drop_take,take_take]
      have hs : 0 < chunkSize := by decide
      have hc := chunks_of_ne_nil hs hne
      rw [drop_drop] at hc
      rw [hc,length_cons] at hr
      simp only [if_pos hp,hch,pieces,hc,map_cons]
      generalize deflater.deflate (((s.buf.take limit).drop pos).take chunkSize) = outBuf
      by_cases ho : outBuf.length ≤ chunkSize*2
      · by_cases hft : before.flatten.length+outBuf.length ≤ s.bevySize
        · have hf : before.flatten ++ outBuf = (before ++ [outBuf]).flatten := by simp
          have hln : before.flatten.length+outBuf.length =
              (before ++ [outBuf]).flatten.length := by simp
          have hnx := ih (pos+chunkSize) (before ++ [outBuf]) (by omega)
            (by rw [length_append,length_singleton]; omega) (by omega)
          rw [if_pos ho,put_of_le hft,bind_eq_bind,bind_some,
            put_of_le (by rw [entries_length,leBytes_length]; omega),bind_some,
            ← entries_append,hf,hln,hnx]
          simp [pieces,forall_eq_or_imp,ho]
        · have hnt : ¬ (before ++ outBuf :: (chunks chunkSize ((s.buf.take limit).drop
              (pos+chunkSize))).map deflater.deflate).flatten.length ≤ s.bevySize := by
            simp only [flatten_append,flatten_cons,length_append]
            omega
          rw [if_pos ho,put_of_lt (by omega),if_neg fun h => hnt h.2]
          rfl
      · rw [if_neg ho,if_neg fun h => ho (h.1 _ mem_cons_self)]
    · have hnl : (s.buf.take limit).drop pos = [] := drop_of_length_le (by rw [length_take]; omega)
      rw [if_neg hp,hnl]
      simp only [pieces,chunks_nil,map_nil,append_nil,not_mem_nil,false_imp_iff,
        implies_true,true_and,if_pos hb]

structure Allocated (writer : StreamWriter) : Prop where
  buf : writer.buf.length = writer.bevySize
  small : writer.bevySize < 2^31
  index : 4*(writer.bevySize/chunkSize+2) ≤ writer.indexCapacity
  whole : writer.bevySize % chunkSize = 0

variable {content : Bytes} {contents : List Bytes} {b : Nat}

lemma Allocated.room (h : s.Allocated) (hc : content.length ≤ s.bevySize) :
    4*((chunks chunkSize content).length+2) ≤ s.indexCapacity := by
  have hi := h.index
  have hw := h.whole
  have hln := chunks_length (show 0 < chunkSize by decide) content
  simp only [chunkSize] at *
  omega

def storing (deflater : Deflater) (self : StreamWriter) (content : Bytes) : StreamWriter :=
  {self with
    bevvies := self.bevvies ++ [stored deflater self.bevvyNumber content]
    bevvyNumber := self.bevvyNumber+1, position := 0, flushed := true}

section

variable (h : s.Allocated) {limit : Nat} (hl : limit ≤ s.bevySize)
include h hl

lemma Allocated.loop_eq : chunkLoop deflater s limit (limit+1) 0 0 [] (entries []) =
      let rest := pieces deflater (s.buf.take limit)
      if (∀ piece ∈ rest, piece.length ≤ chunkSize*2) ∧ rest.flatten.length ≤ s.bevySize then
        some (rest.flatten,entries rest)
      else none := by
  have hr : 4*((chunks chunkSize (s.buf.take limit)).length+2) ≤ s.indexCapacity :=
    h.room (by rw [length_take]; omega)
  exact chunkLoop_eq (limit+1) 0 [] (by rw [h.buf]; exact hl) (by omega)
    (by rw [drop_zero,length_nil]; omega) (Nat.zero_le _)

lemma Allocated.writeBevvy_fits (hf : Fits deflater s.bevySize (s.buf.take limit)) :
    s.writeBevvy deflater limit = some (s.storing deflater (s.buf.take limit)) := by
  have hr : 4*((chunks chunkSize (s.buf.take limit)).length+2) ≤ s.indexCapacity :=
    h.room (by rw [length_take]; omega)
  have hs : put s.indexCapacity [] (leBytes 4 0) = some (entries []) := by
    rw [put_of_le (by rw [leBytes_length,length_nil]; omega)]
    rfl
  have he : (entries (pieces deflater (s.buf.take limit))).length+terminator.length ≤
      s.indexCapacity := by
    rw [entries_length,pieces,length_map,show terminator.length = 4 from rfl]
    omega
  rw [writeBevvy,hs,bind_eq_bind,bind_some,h.loop_eq hl]
  simp only [if_pos (And.intro hf.chunk hf.bevvy),bind_eq_bind,bind_some,put_of_le he]
  rfl

lemma Allocated.writeBevvy_iff : (∃ next, s.writeBevvy deflater limit = some next) ↔
      Fits deflater s.bevySize (s.buf.take limit) := by
  constructor
  · intro ⟨next,hnx⟩
    obtain ⟨index,hi,hnx⟩ := bind_eq_some_iff.mp hnx
    have hs : index = entries [] := by
      rw [put] at hi
      split at hi
      · exact (some.inj hi).symm
      · cases hi
    obtain ⟨result,hr,_⟩ := bind_eq_some_iff.mp hnx
    rw [hs,h.loop_eq hl] at hr
    simp only at hr
    split at hr
    · next hf => exact ⟨hf.1,hf.2⟩
    · cases hr
  · intro hf
    exact ⟨_,h.writeBevvy_fits hl hf⟩

end

structure Stored (deflater : Deflater) (writer : StreamWriter) (contents : List Bytes) : Prop where
  bevvies : writer.bevvies = contents.mapIdx (stored deflater)
  number : writer.bevvyNumber = contents.length
  fits : ∀ content ∈ contents, Fits deflater writer.bevySize content
  opened : writer.closed = false

structure Writing (deflater : Deflater) (writer : StreamWriter) (full : List Bytes) (rest : Bytes) :
    Prop extends Stored deflater writer full where
  allocated : writer.Allocated
  full_length : ∀ content ∈ full, content.length = writer.bevySize
  short : rest = [] ∨ rest.length < writer.bevySize
  position : writer.position = rest.length
  content : writer.buf.take rest.length = rest
  writeptr : writer.writeptr = full.flatten.length+rest.length

lemma Stored.storing (h : Stored deflater s contents) (hf : Fits deflater s.bevySize content) :
    Stored deflater (s.storing deflater content) (contents ++ [content]) where
  bevvies := by simp [StreamWriter.storing,h.bevvies,h.number]
  number := by simp [StreamWriter.storing,h.number]
  fits := by
    intro c hc
    rcases mem_append.mp hc with hc | hc
    · exact h.fits c hc
    · rw [mem_singleton.mp hc]
      exact hf
  opened := h.opened

variable {full : List Bytes} {rest : Bytes}

lemma flatten_length {full : List Bytes} (h : ∀ content ∈ full, content.length = b) :
    full.flatten.length = full.length*b := by
  induction full with
  | nil => simp
  | cons x full ih =>
    rw [flatten_cons,length_append,h x mem_cons_self,
      ih fun y hy => h y (mem_cons_of_mem _ hy),length_cons,Nat.succ_mul,add_comm]

variable (h : Writing deflater s full rest)

include h in
lemma Writing.rest_le : rest.length ≤ s.bevySize := by
  rcases h.short with hnl | hlt
  · simp [hnl]
  · omega

include h in
lemma Writing.writeptr_mod : (full.flatten.length+rest.length)%s.bevySize = rest.length := by
  rw [flatten_length h.full_length,mul_comm,Nat.mul_add_mod]
  rcases h.short with hnl | hlt
  · simp [hnl]
  · exact Nat.mod_eq_of_lt hlt

def room (b : Nat) (rest : Bytes) (data : ByteBuffer) : Nat := min (b-rest.length) data.array.length

variable {data : ByteBuffer}

lemma take_room {n : Nat} (hn : n = room b rest data) : (data.array.take n).length = n := by
  rw [length_take,hn,room]
  omega

def filled (self : StreamWriter) (data : ByteBuffer) (n : Nat) : StreamWriter :=
  {self with
    buf := self.buf.take self.position ++ data.array.take n ++ self.buf.drop (self.position+n)
    position := self.position+n, writeptr := self.writeptr+n}

def rewound (self : StreamWriter) : StreamWriter := {self with position := 0}

def unflushed (self : StreamWriter) : StreamWriter := {self with flushed := false}

lemma write_of_full {n : Nat} (hn : min (s.bevySize-s.position) data.array.length = n)
    (hf : s.position+n = s.bevySize) :
    s.write deflater data = writeBevvy deflater (s.filled data n).rewound s.bevySize := by
  subst hn
  exact if_pos hf

lemma write_of_short {n : Nat} (hn : min (s.bevySize-s.position) data.array.length = n)
    (hs : s.position+n ≠ s.bevySize) :
    s.write deflater data = some (s.filled data n).unflushed := by
  subst hn
  exact if_neg hs

section

variable (h : Writing deflater s full rest)
include h

variable {n : Nat} (hn : n = room s.bevySize rest data)

include hn in
lemma Writing.filled : (s.filled data n).buf.length = s.bevySize ∧
      (s.filled data n).buf.take (rest.length+n) = rest ++ data.array.take n := by
  have hle := h.rest_le
  have hb := h.allocated.buf
  have ht := take_room hn
  have hf : (s.buf.take s.position ++ data.array.take n).length = rest.length+n := by
    rw [length_append,length_take,ht,h.position]
    omega
  constructor
  · rw [StreamWriter.filled,length_append,hf,length_drop,h.position]
    rw [room] at hn
    omega
  · rw [StreamWriter.filled,take_left' hf,h.position,h.content]

lemma Writing.room_eq (data : ByteBuffer) :
    min (s.bevySize-s.position) data.array.length = room s.bevySize rest data := by
  rw [h.position,room]

include hn

lemma Writing.write_full (hf : rest.length+n = s.bevySize) :
    ((∃ next, s.write deflater data = some next) ↔
        Fits deflater s.bevySize (rest ++ data.array.take n)) ∧
      ∀ next, s.write deflater data = some next →
        Writing deflater next (full ++ [rest ++ data.array.take n]) [] ∧ next.flushed = true ∧
          next.bevySize = s.bevySize := by
  obtain ⟨hln,ht⟩ := h.filled hn
  have ha : (s.filled data n).rewound.Allocated :=
    ⟨hln,h.allocated.small,h.allocated.index,h.allocated.whole⟩
  have hcn : (s.filled data n).rewound.buf.take s.bevySize = rest ++ data.array.take n := hf ▸ ht
  have hi : (∃ next, writeBevvy deflater (s.filled data n).rewound s.bevySize = some next) ↔
      Fits deflater s.bevySize (rest ++ data.array.take n) :=
    hcn ▸ ha.writeBevvy_iff (le_refl _)
  rw [write_of_full ((h.room_eq data).trans hn.symm) (h.position ▸ hf)]
  refine ⟨hi,fun next hnx => ?_⟩
  have hft := hi.mp ⟨next,hnx⟩
  have hs := ha.writeBevvy_fits (le_refl _) (hcn.symm ▸ hft)
  rw [show (s.filled data n).rewound.bevySize = s.bevySize from rfl,hnx,hcn]
    at hs
  cases hs
  have hst : Stored deflater (s.filled data n).rewound full := ⟨h.bevvies,h.number,h.fits,h.opened⟩
  have hw : (rest ++ data.array.take n).length = s.bevySize := by
    rw [length_append,take_room hn,hf]
  refine ⟨⟨hst.storing hft,⟨hln,h.allocated.small,h.allocated.index,h.allocated.whole⟩,
    ?_,.inl rfl,rfl,rfl,?_⟩,rfl,rfl⟩
  · intro content hc
    rcases mem_append.mp hc with hc | hc
    · exact h.full_length content hc
    · rw [mem_singleton.mp hc]
      exact hw
  · have hwr := h.writeptr
    simp only [storing,rewound,StreamWriter.filled,flatten_append,flatten_singleton,
      length_append,take_room hn,length_nil]
    omega

lemma Writing.write_short (hs : rest.length+n ≠ s.bevySize) :
    s.write deflater data = some (s.filled data n).unflushed ∧
      Writing deflater (s.filled data n).unflushed full (rest ++ data.array.take n) := by
  obtain ⟨hln,ht⟩ := h.filled hn
  have hle := h.rest_le
  have hw := h.writeptr
  have hsm : (rest ++ data.array.take n).length = rest.length+n := by
    rw [length_append,take_room hn]
  refine ⟨write_of_short ((h.room_eq data).trans hn.symm) (h.position ▸ hs),
    ⟨⟨h.bevvies,h.number,h.fits,h.opened⟩,
      ⟨hln,h.allocated.small,h.allocated.index,h.allocated.whole⟩,h.full_length,.inr ?_,?_,?_,?_⟩⟩
  · rw [hsm]
    show rest.length+n < s.bevySize
    rw [room] at hn
    omega
  · rw [hsm]
    show s.position+n = rest.length+n
    rw [h.position]
  · rw [hsm]
    exact ht
  · rw [hsm]
    show s.writeptr+n = full.flatten.length+(rest.length+n)
    omega

end

structure Complete (deflater : Deflater) (writer : StreamWriter) (contents : List Bytes) : Prop
    extends Stored deflater writer contents where
  flushed : writer.flushed = true
  writeptr : writer.writeptr = contents.flatten.length
  front : ∀ content ∈ contents.dropLast, content.length = writer.bevySize

lemma Writing.complete (h : Writing deflater s full []) (hf : s.flushed = true) :
    Complete deflater s full where
  toStored := h.toStored
  flushed := hf
  writeptr := h.writeptr
  front := fun content hc => h.full_length content ((dropLast_sublist full).subset hc)

include h in
lemma Writing.flush (hf : s.flushed = false) (hb : 0 < s.bevySize) :
    ((∃ next, s.flush deflater = some next) ↔ Fits deflater s.bevySize rest) ∧
      ∀ next, s.flush deflater = some next →
        next = s.storing deflater rest ∧ Complete deflater next (full ++ [rest]) := by
  have hle := h.rest_le
  have hfl : s.flush deflater = s.writeBevvy deflater rest.length := by
    rw [StreamWriter.flush,hf,if_neg Bool.false_ne_true,if_neg (by omega),h.writeptr,h.writeptr_mod]
  rw [hfl]
  have hi : (∃ next, s.writeBevvy deflater rest.length = some next) ↔
      Fits deflater s.bevySize rest := by rw [h.allocated.writeBevvy_iff hle,h.content]
  refine ⟨hi,fun next hnx => ?_⟩
  have hft := hi.mp ⟨next,hnx⟩
  have hs := h.allocated.writeBevvy_fits hle (h.content.symm ▸ hft)
  rw [hnx,h.content] at hs
  cases hs
  refine ⟨rfl,h.toStored.storing hft,rfl,?_,?_⟩
  · show s.writeptr = _
    rw [h.writeptr,flatten_append,flatten_singleton,length_append]
  · rw [dropLast_concat]
    exact h.full_length

lemma Complete.flush (h : Complete deflater s contents) :
    s.flush deflater = some s := by rw [StreamWriter.flush,if_pos h.flushed]

structure Ended (deflater : Deflater) (writer : StreamWriter) (contents : List Bytes) : Prop where
  bevvies : writer.bevvies = contents.mapIdx (stored deflater)
  fits : ∀ content ∈ contents, Fits deflater writer.bevySize content
  size : writer.size = some contents.flatten.length
  front : ∀ content ∈ contents.dropLast, content.length = writer.bevySize

end StreamWriter

end Aff4.Java
