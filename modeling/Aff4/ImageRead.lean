import Aff4.ImageIndex
import Aff4.ZipRead

/-! Reading an image stream out of the volume into which its bevies were stored: `_partial_read`
takes one chunk and `AFF4Image_read` calls it until it has what the caller asked for. -/

namespace Aff4

open LittleEndian Loop Transition List Option Nat ImageParameters

variable {σ : Type}

abbrev Times := (UInt16 × UInt16) × (UInt16 × UInt16)

/-- The local arrays of one call before anything was stored in them, the room that
`uncompress` is told, and the memory that a buffer grows into. -/
structure Frame where
  offsets : Junk
  compressed : Junk
  uncompressed : Junk
  destLen : Nat
  heap : Junk

/-- How a call of `_partial_read` ends: with -1, or with some bytes in the caller's buffer. -/
inductive PartialRead where
  | failed
  | copied (bytes : Bytes)
  deriving DecidableEq

namespace ZipFile

/-- A member that the volume does not have yet is opened for writing. -/
def create (zlib : Zlib σ) (self : ZipFile σ) (member : RDFURN) (time : UInt16 × UInt16) :
    Option (ZipFile σ × Nat) :=
  (self.openMember zlib member .w zipStored.toNat time.1 time.2).bind fun r =>
    if r.2 = some self.members.length then some (r.1,self.members.length) else none

/-- The place of a member that is opened for reading, if the volume has it. -/
def openRead (zlib : Zlib σ) (self : ZipFile σ) (member : RDFURN) : Option Nat :=
  (self.openMember zlib member .r 0 0 0).bind Prod.snd

def seekSegment (self : ZipFile σ) (k offset : Nat) : Option (ZipFile σ) :=
  self.members[k]?.bind fun s => (s.seek (Int64.ofNat offset) .set).map fun s =>
    {self with members := self.members.set k s}

end ZipFile

namespace ImageParameters

section

variable (self : ImageParameters) (chunkZlib : ChunkZlib) (zlib : Zlib σ)

/-- `ImageWorker_run` at a volume that does not have the members of the bevy yet. When a chunk
cannot be compressed they stay open. -/
def runWorker (volume : ZipFile σ) (job : ImageWorker × Times) : Option (ZipFile σ) := do
  let (volume,k) ← volume.create zlib (self.bevyUrn job.1.segmentCount) job.2.1
  let (volume,l) ← volume.create zlib (self.indexUrn job.1.segmentCount) job.2.2
  let (segment,index) ← self.storeBevy chunkZlib zlib job.1.bevy.data
    (← volume.members[k]?) (← volume.members[l]?)
  run (ZipFile.step zlib) {volume with members := (volume.members.set k segment).set l index}
    [.close k,.close l]

/-- What `uncompressed_buffer` gets of a chunk, and the length that goes with it, if the chunk
can be decompressed. The variable that is passed for the room was never set. -/
def unpacked (frame : Frame) (data : Option Bytes) : Option (Option (Int × Bytes)) :=
  if self.compression = zipDeflate.toNat then
    match chunkZlib.uncompress (overlay frame.compressed self.chunkSize (data.getD []))
      frame.destLen with
    | none => some none
    | some out => if out.length ≤ self.chunkSize then some (some (out.length,out)) else none
  else some (some (data.elim (-1) fun bytes => bytes.length,data.getD []))

/-- The chunk under the read pointer, and the volume afterwards. When a member is missing the
function returns a variable that was never set. -/
def chunkAt (frame : Frame) (volume : ZipFile σ) (readptr : Nat) :
    Option (Option (Int × Bytes) × ZipFile σ) :=
  if self.bevySize = 0 ∨ volume.mode ≠ .r then none
  else do
    let segmentNumber := readptr/self.bevySize%2^32
    let segmentOffset := readptr%self.bevySize
    let segment ← volume.openRead zlib (self.bevyUrn segmentNumber)
    let index ← volume.openRead zlib (self.indexUrn segmentNumber)
    let chunkNumber := segmentOffset/self.chunkSize
    let (entries,volume) ← volume.readSegment zlib frame.heap index
      (UInt32.ofNat (4*self.chunksInSegment))
    let chunkDataOffsets := overlay frame.offsets (4*self.chunksInSegment) (entries.getD [])
    let volume ← volume.seekSegment segment (leNat (slice chunkDataOffsets (4*chunkNumber) 4))
    let (data,volume) ← volume.readSegment zlib frame.heap segment (UInt32.ofNat self.chunkSize)
    let chunk ← self.unpacked chunkZlib frame data
    some (chunk,volume)

/-- `_partial_read`. Copying a negative number of bytes, or from beyond the end of the local
array, has no result. -/
def partialRead (frame : Frame) (volume : ZipFile σ) (readptr : Nat) (length : Int) :
    Option (PartialRead × ZipFile σ) :=
  (self.chunkAt chunkZlib zlib frame volume readptr).bind fun
    | (none,volume) => some (.failed,volume)
    | (some (readLength,chunk),volume) =>
      let chunkOffset := readptr%self.bevySize%self.chunkSize
      let availableToRead := max (readLength-chunkOffset) length
      if 0 ≤ availableToRead ∧ chunkOffset+availableToRead ≤ self.chunkSize then
        some (.copied (slice (overlay frame.uncompressed self.chunkSize chunk) chunkOffset
          availableToRead.toNat),volume)
      else none

end

end ImageParameters

/-- An image that is read. Once two members were used they are freed, but the volume still
has them in its list. -/
structure Reader (σ : Type) where
  image : ImageParameters
  volume : ZipFile σ
  readptr : Nat
  freed : Bool

/-- What a read returns, and the bytes it stored relative to the start of the caller's
buffer. -/
structure ReadResult where
  value : Int
  writes : List (Int × Bytes)

/-- In the middle of a read: the number of the turn, how far the offset into the caller's
buffer is, what is still asked for and what has been stored. -/
structure Reading (σ : Type) where
  reader : Reader σ
  turn : Nat
  offset : Int
  length : UInt32
  writes : List (Int × Bytes)

namespace Reader

/-- A turn of the loop in `AFF4Image_read`. A search through a list with freed members in it
has no result. -/
def readTurn (chunkZlib : ChunkZlib) (zlib : Zlib σ) (frames : Nat → Frame) (state : Reading σ) :
    Option (Turn (Reading σ) (ReadResult × Reader σ)) :=
  if state.length = 0 then some (.done (⟨state.offset,state.writes⟩,state.reader))
  else if state.reader.freed then none
  else (state.reader.image.partialRead chunkZlib zlib (frames state.turn) state.reader.volume
      state.reader.readptr ((state.length.toNat : Int).bmod (2^32))).bind fun
    | (.failed,volume) => (toInt (state.offset-1)).map fun offset => .next {state with
        reader := {state.reader with volume := volume}
        turn := state.turn+1
        offset := offset
        length := state.length+1}
    | (.copied [],volume) => some (.done (⟨state.offset,state.writes⟩,
        {state.reader with volume := volume, freed := true}))
    | (.copied bytes,volume) => (toInt (state.offset+bytes.length)).map fun offset => .next {
        reader := {state.reader with volume := volume, freed := true}
        turn := state.turn+1
        offset := offset
        length := state.length-UInt32.ofNat bytes.length
        writes := state.writes ++ [(state.offset,bytes)]}

/-- `AFF4Image_read`, for at most `fuel` turns. It does not move the read pointer. -/
def read (chunkZlib : ChunkZlib) (zlib : Zlib σ) (frames : Nat → Frame) (fuel : Nat)
    (self : Reader σ) (length : UInt32) : Option (ReadResult × Reader σ) :=
  loop (readTurn chunkZlib zlib frames) fuel ⟨self,0,0,length,[]⟩

end Reader

namespace ReadResult

def byteAt (writes : List (Int × Bytes)) (i : Int) : Option UInt8 :=
  writes.foldl (fun byte w => if w.1 ≤ i ∧ i < w.1+w.2.length then w.2[(i-w.1).toNat]? else byte)
    none

/-- A read of at most `n` bytes gave exactly `out` and stayed inside the caller's buffer. -/
structure Delivers (result : ReadResult) (n : Nat) (out : Bytes) : Prop where
  value : result.value = out.length
  inside : ∀ w ∈ result.writes, 0 ≤ w.1 ∧ w.1+w.2.length ≤ n
  bytes : ∀ i < out.length, byteAt result.writes i = out[i]?

lemma byteAt_single (bytes : Bytes) (i : Nat) : byteAt [(0,bytes)] i = bytes[i]? := by
  by_cases hi : i < bytes.length
  · simp [byteAt,hi]
  · simp [byteAt,not_lt.mp hi]

end ReadResult

/-- From `cursor` on the reader is a stream of `content`: whatever memory holds, each read returns
and gives what comes next. -/
def Streams (chunkZlib : ChunkZlib) (zlib : Zlib σ) (content : Bytes) :
    Reader σ → Nat → List UInt32 → Prop
  | _, _, [] => True
  | reader, cursor, n :: rest => ∀ frames, ∃ fuel result next,
    reader.read chunkZlib zlib frames fuel n = some (result,next) ∧
    result.Delivers n.toNat (slice content cursor n.toNat) ∧
    Streams chunkZlib zlib content next (cursor+(slice content cursor n.toNat).length) rest

namespace ImageParameters

variable {s : ImageParameters} {chunkZlib : ChunkZlib} {zlib : Zlib σ} {frame : Frame}
  {volume next : ZipFile σ} {readptr : Nat} {length : Int} {bytes : Bytes}

lemma partialRead_copied
    (h : s.partialRead chunkZlib zlib frame volume readptr length = some (.copied bytes,next)) :
    ∃ readLength chunk,
      s.chunkAt chunkZlib zlib frame volume readptr = some (some (readLength,chunk),next) ∧
      (bytes.length : Int) = max (readLength-(readptr%s.bevySize%s.chunkSize : Nat)) length ∧
      readptr%s.bevySize%s.chunkSize+bytes.length ≤ s.chunkSize ∧
      bytes = slice (overlay frame.uncompressed s.chunkSize chunk)
        (readptr%s.bevySize%s.chunkSize) bytes.length := by
  obtain ⟨⟨chunk,volume'⟩,hch,h⟩ := bind_eq_some_iff.mp h
  cases chunk with
  | none => cases h
  | some chunk =>
    obtain ⟨readLength,chunk⟩ := chunk
    simp only at h
    split at h
    · next hft =>
      have hl : (overlay frame.uncompressed s.chunkSize chunk).length =
          max s.chunkSize chunk.length := by
        simp [overlay]
        omega
      obtain ⟨hb,rfl⟩ := Prod.mk.inj (some.inj h)
      have hb := PartialRead.copied.inj hb
      have hcn := congrArg List.length hb
      rw [slice_length,hl] at hcn
      refine ⟨readLength,chunk,hch,by omega,by omega,?_⟩
      rw [← hcn,← hb]
      congr 1
      omega
    · cases h

lemma partialRead_failed
    (h : s.partialRead chunkZlib zlib frame volume readptr length = some (.failed,next)) :
    s.chunkAt chunkZlib zlib frame volume readptr = some (none,next) := by
  obtain ⟨⟨chunk,volume'⟩,hch,h⟩ := bind_eq_some_iff.mp h
  cases chunk with
  | none =>
    cases h
    exact hch
  | some chunk =>
    simp only at h
    split at h
    · cases h
    · cases h

end ImageParameters

lemma bmod_small {n : Nat} (h : n < 2^31) : (n : Int).bmod (2^32) = n :=
  Int.bmod_eq_of_le (by omega) (by omega)

lemma toNat_ofNat_small {n : Nat} (h : n < 2^31) : (UInt32.ofNat n).toNat = n :=
  UInt32.toNat_ofNat_of_lt' (lt_trans h (by decide))

namespace Reader

variable {chunkZlib : ChunkZlib} {zlib : Zlib σ} {frames : Nat → Frame} {state : Reading σ}
  {fuel : Nat} {s next : Reader σ} {result : ReadResult}

lemma readTurn_zero (h : state.length = 0) : readTurn chunkZlib zlib frames state =
    some (.done (⟨state.offset,state.writes⟩,state.reader)) := if_pos h

lemma read_zero : s.read chunkZlib zlib frames (fuel+1) 0 = some (⟨0,[]⟩,s) :=
  loop_done (readTurn_zero rfl)

lemma loop_freed (hf : state.reader.freed = true)
    (h : loop (readTurn chunkZlib zlib frames) fuel state = some (result,next)) :
    state.length = 0 ∧ result = ⟨state.offset,state.writes⟩ ∧ next = state.reader := by
  by_cases hz : state.length = 0
  · obtain ⟨rest,rfl,-⟩ := loop_cases h
    rw [loop_done (readTurn_zero hz)] at h
    cases h
    exact ⟨hz,rfl,rfl⟩
  · have hn : readTurn chunkZlib zlib frames state = none := by
      rw [readTurn,if_neg hz,if_pos hf]
    obtain ⟨_,-,ht | ⟨_,ht,-⟩⟩ := loop_cases h
    · rw [hn] at ht
      cases ht
    · rw [hn] at ht
      cases ht

variable (hf : state.reader.freed = false)
include hf

lemma readLoop_cases (hl : state.length ≠ 0)
    (h : loop (readTurn chunkZlib zlib frames) fuel state = some (result,next)) : ∃ volume,
    (state.reader.image.chunkAt chunkZlib zlib (frames state.turn) state.reader.volume
        state.reader.readptr = some (none,volume) ∧ -2^31 ≤ state.offset-1 ∧ ∃ rest, fuel = rest+1 ∧
      loop (readTurn chunkZlib zlib frames) rest {state with
        reader := {state.reader with volume := volume}
        turn := state.turn+1
        offset := state.offset-1
        length := state.length+1} = some (result,next)) ∨
    ∃ bytes, state.reader.image.partialRead chunkZlib zlib (frames state.turn) state.reader.volume
        state.reader.readptr ((state.length.toNat : Int).bmod (2^32)) =
          some (.copied bytes,volume) ∧ next.freed = true ∧
      (bytes = [] ∧ result = ⟨state.offset,state.writes⟩ ∨
        bytes ≠ [] ∧ state.length = UInt32.ofNat bytes.length ∧
          result = ⟨state.offset+bytes.length,state.writes ++ [(state.offset,bytes)]⟩) := by
  obtain ⟨rest,rfl,ht⟩ := loop_cases h
  have hs : readTurn chunkZlib zlib frames state = _ := (if_neg hl).trans (if_neg (by simp [hf]))
  cases hp : state.reader.image.partialRead chunkZlib zlib (frames state.turn)
      state.reader.volume state.reader.readptr ((state.length.toNat : Int).bmod (2^32)) with
  | none =>
    rw [hs,hp] at ht
    rcases ht with ht | ⟨t,ht,-⟩
    · cases ht
    · cases ht
  | some outcome =>
    obtain ⟨outcome,volume⟩ := outcome
    rw [hs,hp,bind_some] at ht
    refine ⟨volume,?_⟩
    cases outcome with
    | failed =>
      rcases ht with ht | ⟨t,ht,hr⟩
      · obtain ⟨_,-,he⟩ := map_eq_some_iff.mp ht
        cases he
      · obtain ⟨offset,ho,he⟩ := map_eq_some_iff.mp ht
        cases he
        obtain ⟨rfl,hle,-⟩ := toInt_eq_some ho
        exact .inl ⟨partialRead_failed hp,hle,rest,rfl,hr⟩
    | copied bytes =>
      refine .inr ⟨bytes,rfl,?_⟩
      cases bytes with
      | nil =>
        rcases ht with ht | ⟨t,ht,-⟩
        · obtain ⟨rfl,rfl⟩ := Prod.mk.inj (Turn.done.inj (some.inj ht))
          exact ⟨rfl,.inl ⟨rfl,rfl⟩⟩
        · cases ht
      | cons b bytes =>
        rcases ht with ht | ⟨t,ht,hr⟩
        · obtain ⟨_,-,he⟩ := map_eq_some_iff.mp ht
          cases he
        · obtain ⟨offset,ho,he⟩ := map_eq_some_iff.mp ht
          cases he
          obtain ⟨rfl,-,-⟩ := toInt_eq_some ho
          obtain ⟨hz,rfl,rfl⟩ := loop_freed rfl hr
          have hla : state.length = UInt32.ofNat (b :: bytes).length := by
            rw [← UInt32.sub_add_cancel state.length (UInt32.ofNat (b :: bytes).length)]
            simp only at hz
            rw [hz,UInt32.zero_add]
          exact ⟨rfl,.inr ⟨by simp,hla,rfl⟩⟩

/-- A read of less than 2 GiB that returns does not return 0, whatever there is to read. The
number of failed turns is `j`. -/
lemma readLoop_value_ne_zero (hch : state.reader.image.chunkSize < 2^31) {n j : Nat}
    (hn : 0 < n) (hn' : n < 2^31)
    (hj : j ≤ 2^31) (ho : state.offset = -j) (hl : state.length.toNat = n+j)
    (h : loop (readTurn chunkZlib zlib frames) fuel state = some (result,next)) :
    result.value ≠ 0 := by
  induction fuel generalizing state j with
  | zero => cases h
  | succ fuel ih =>
    have hne : state.length ≠ 0 := by
      intro hz
      rw [hz] at hl
      have : (0 : UInt32).toNat = 0 := rfl
      omega
    obtain ⟨volume,⟨-,hle,rest,hr,h⟩ | ⟨bytes,hc,-,h⟩⟩ := readLoop_cases hf hne h
    · obtain rfl := succ.inj hr
      have hnx : (state.length+1).toNat = n+(j+1) := by
        rw [UInt32.toNat_add,hl]
        have : (1 : UInt32).toNat = 1 := rfl
        omega
      refine ih (j := j+1) ?_ ?_ (by omega) ?_ hnx h
      · exact hf
      · exact hch
      · simp only
        omega
    · obtain ⟨readLength,chunk,-,hm,hft,-⟩ := partialRead_copied hc
      rcases h with ⟨rfl,rfl⟩ | ⟨-,hla,rfl⟩
      · -- Nothing was copied, so the length had become negative by then.
        by_cases hz : j = 0
        · have hs : ((state.length.toNat : Int)).bmod (2^32) = n := by
            rw [hl,hz]
            exact bmod_small hn'
          rw [hs] at hm
          simp at hm
          omega
        · simp only
          omega
      · have hln : bytes.length = n+j := by rw [← hl,hla,toNat_ofNat_small (by omega)]
        simp only
        omega

/-- Once a turn has failed, the read returns a negative number or stores in front of the buffer. -/
lemma readLoop_behind (hn : state.offset < 0)
    (h : loop (readTurn chunkZlib zlib frames) fuel state = some (result,next)) :
    result.value < 0 ∨ ∃ w ∈ result.writes, w.1 < 0 := by
  induction fuel generalizing state with
  | zero => cases h
  | succ fuel ih =>
    by_cases hne : state.length = 0
    · rw [loop_done (readTurn_zero hne)] at h
      cases h
      exact .inl hn
    · obtain ⟨volume,⟨-,-,rest,hr,h⟩ | ⟨bytes,-,-,hc⟩⟩ := readLoop_cases hf hne h
      · obtain rfl := succ.inj hr
        refine ih ?_ ?_ h
        · exact hf
        · exact Int.sub_lt_of_sub_lt (by omega)
      · rcases hc with ⟨-,rfl⟩ | ⟨-,-,rfl⟩
        · exact .inl hn
        · exact .inr ⟨_,mem_append_right _ (mem_singleton_self _),hn⟩

end Reader

lemma leNat_index {index : Bytes} {n c x : Nat} (junk : Junk) (hx : x < 2^32) (hc : c < n)
    (h : slice index (4*c) 4 = le32 (UInt32.ofNat x)) :
    leNat (slice (overlay junk (4*n) (slice index 0 (4*n))) (4*c) 4) = x := by
  have hl := congrArg length h
  rw [slice_length,le32_length] at hl
  have ht : slice (slice index 0 (4*n)) (4*c) 4 = slice index (4*c) 4 := by
    simpa using slice_slice index 0 (show 4*c+4 ≤ 4*n by omega)
  rw [overlay,slice_append_left _ _ _ _ (by rw [slice_length]; omega),ht,h,le32,
    leNat_leBytes,UInt32.toNat_ofNat_of_lt' hx]
  exact mod_eq_of_lt hx

variable {d : Bytes} {k : Nat}

lemma ZipSegment.Loads.readCall {zlib : Zlib σ} {zip : Option FileBackedObject}
    {s : ZipSegment σ} (hs : s.Loads zlib zip d) (hp : s.readptr ≤ d.length)
    {n : UInt32} (hn : s.readptr+n.toNat < 2^32) (junk : Junk) :
    ∃ t, s.readCall zlib junk zip n = some (some (slice d s.readptr n.toNat),t) := by
  obtain ⟨io,hio,rfl⟩ := hs.2 junk
  have hsk : io.seek junk s.readptr = some {io with readptr := s.readptr} := if_neg (not_lt.mpr hp)
  have hr : ({io with readptr := s.readptr} : StringIO).readCall n =
      some (slice io.data s.readptr n.toNat,_) := if_neg (by simp only; omega)
  rw [readCall_unbuffered hs.1,hio,bind_some,if_pos rfl,readBuffer,bind_some,hsk,bind_some,hr]
  exact ⟨_,rfl⟩

lemma ZipFile.readSegment_loads {zlib : Zlib σ} {volume : ZipFile σ} {s : ZipSegment σ}
    (hg : volume.members[k]? = some s) (hs : s.Loads zlib (volume.own .r) d)
    (hp : s.readptr ≤ d.length) {n : UInt32} (hn : s.readptr+n.toNat < 2^32) (junk : Junk) :
    ∃ t, volume.readSegment zlib junk k n =
      some (some (slice d s.readptr n.toNat),{volume with members := volume.members.set k t}) := by
  obtain ⟨t,ht⟩ := hs.readCall hp hn junk
  rw [readSegment,hg,bind_some,ht]
  exact ⟨t,rfl⟩

lemma ZipFile.readAt_loads {zlib : Zlib σ} {volume : ZipFile σ} {s : ZipSegment σ}
    (hg : volume.members[k]? = some s) (hs : s.Loads zlib (volume.own .r) d)
    {offset : Nat} (hp : offset ≤ d.length) {n : UInt32} (hn : offset+n.toNat < 2^32)
    (junk : Junk) : ∃ mid t, volume.seekSegment k offset = some mid ∧
      mid.readSegment zlib junk k n = some (some (slice d offset n.toNat),t) := by
  have hsk : volume.seekSegment k offset =
      some {volume with members := volume.members.set k {s with readptr := offset}} := by
    rw [seekSegment,hg,bind_some,ZipSegment.seek,Int64.toInt_ofNat_of_lt (by omega)]
    rfl
  have hm : ({volume with members := volume.members.set k {s with readptr := offset}} :
      ZipFile σ).members[k]? = some {s with readptr := offset} := getElem?_set_self (List.getElem?_eq_some_iff.mp hg).1
  obtain ⟨t,ht⟩ := readSegment_loads hm (hs.at offset) hp hn junk
  exact ⟨_,_,hsk,ht⟩

namespace ImageParameters

variable {s : ImageParameters} {chunkZlib : ChunkZlib} {bevy : Bytes}

lemma storedChunks_flatten (hs : s.compression = zipStored.toNat) (n : Nat) :
    (s.storedChunks chunkZlib bevy n).flatten = bevy.take (n*s.chunkSize) := by
  induction n with
  | zero => simp [storedChunks]
  | succ n ih =>
    rw [storedChunks_succ,flatten_append,ih,flatten_singleton,storedChunk,packed,if_pos hs,
      succ_mul,take_add]
    rfl

lemma storedChunks_whole (hs : s.compression = zipStored.toNat) (hch : 0 < s.chunkSize) :
    (s.storedChunks chunkZlib bevy (s.chunkCount bevy)).flatten = bevy := by
  rw [storedChunks_flatten hs,take_of_length_le]
  exact not_lt.mp fun h => lt_irrefl _ ((lt_chunkCount hch).mpr h)

lemma chunkStart_stored (hs : s.compression = zipStored.toNat) {c : Nat}
    (hc : c*s.chunkSize ≤ bevy.length) : s.chunkStart chunkZlib bevy c = c*s.chunkSize := by
  rw [chunkStart,← length_flatten,storedChunks_flatten hs,length_take,min_eq_left hc]

lemma chunkAt_packed (hs : s.compression = zipStored.toNat)
    (hsz : s.bevySize = s.chunkSize*s.chunksInSegment) (hlm : s.bevySize < 2^31)
    (hch : s.chunkSize < 2^31) (hcn : s.chunksInSegment < 2^30) (chunkZlib : ChunkZlib)
    {zlib : Zlib σ} {volume : ZipFile σ} (hm : volume.mode = .r) {k r : Nat} (hk : k < 2^31)
    (hr : r < s.bevySize) (hlt : r < bevy.length) {e e' : Nat} (hne : e ≠ e')
    {segment index : ZipSegment σ} (ho : volume.openRead zlib (s.bevyUrn k) = some e)
    (ho' : volume.openRead zlib (s.indexUrn k) = some e')
    (hg : volume.members[e]? = some segment) (hg' : volume.members[e']? = some index)
    (hl : segment.Loads zlib (volume.own .r) bevy)
    (hl' : index.Loads zlib (volume.own .r)
      (s.entries chunkZlib bevy (s.chunkCount bevy)).flatten)
    (hpt : index.readptr = 0) (frame : Frame) : ∃ next,
    s.chunkAt chunkZlib zlib frame volume (k*s.bevySize+r) =
      some (some (((slice bevy (r/s.chunkSize*s.chunkSize) s.chunkSize).length : Int),
        slice bevy (r/s.chunkSize*s.chunkSize) s.chunkSize),next) := by
  have hp : 0 < s.bevySize := zero_lt_of_lt hr
  have hd : (k*s.bevySize+r)/s.bevySize%2^32 = k := by
    rw [mul_comm,mul_add_div hp,div_eq_of_lt hr,add_zero]
    exact mod_eq_of_lt (by omega)
  have hmd : (k*s.bevySize+r)%s.bevySize = r := by rw [mul_comm,mul_add_mod,mod_eq_of_lt hr]
  have hle : r/s.chunkSize*s.chunkSize ≤ r := div_mul_le_self r _
  have hc : r/s.chunkSize < s.chunksInSegment := Nat.div_lt_of_lt_mul (hsz ▸ hr)
  have he : slice (s.entries chunkZlib bevy (s.chunkCount bevy)).flatten
      (4*(r/s.chunkSize)) 4 = le32 (UInt32.ofNat (r/s.chunkSize*s.chunkSize)) := by
    have hz : 0 < s.chunkSize := Nat.pos_of_mul_pos_right (hsz ▸ hp)
    rw [slice_entries ((lt_chunkCount hz).mpr (by omega)),chunkStart_stored hs (by omega)]
  have hn : ¬ s.compression = zipDeflate.toNat := by
    rw [hs]
    decide
  have hw : (UInt32.ofNat (4*s.chunksInSegment)).toNat = 4*s.chunksInSegment :=
    UInt32.toNat_ofNat_of_lt' (by rw [UInt32.size]; omega)
  obtain ⟨t,ht⟩ := ZipFile.readSegment_loads hg' hl' (by omega)
    (by rw [hpt,hw]; omega) frame.heap
  have hkp : ({volume with members := volume.members.set e' t} : ZipFile σ).members[e]? =
      some segment := (getElem?_set_ne hne.symm).trans hg
  have hen : r/s.chunkSize*s.chunkSize+(UInt32.ofNat s.chunkSize).toNat < 2^32 := by
    rw [toNat_ofNat_small hch]
    omega
  obtain ⟨mid,next,hsk,hrd⟩ := ZipFile.readAt_loads hkp hl (by omega) hen frame.heap
  rw [chunkAt,if_neg (by simp [hm]; omega)]
  simp only [hd,hmd,ho,ho',bind_eq_bind,bind_some,ht,hpt,hw,getD_some]
  rw [leNat_index frame.offsets (by omega) hc he,hsk,bind_some,hrd,bind_some,unpacked,
    if_neg hn,toNat_ofNat_small hch]
  exact ⟨next,rfl⟩

end ImageParameters

namespace ZipSegment

variable {zlib : Zlib σ} {s t : ZipSegment σ} {member : RDFURN}

lemma write_keeps_writing {data : Bytes} {n : Int} (hs : ∃ inputs io, s.Writing zlib member inputs io)
    (h : s.write zlib data = some (n,t)) : ∃ inputs io, t.Writing zlib member inputs io := by
  obtain ⟨inputs,io,hs⟩ := hs
  by_cases hne : data = []
  · rw [write,if_pos hne] at h
    cases h
    exact ⟨inputs,io,hs⟩
  · obtain ⟨io',ht⟩ := write_writing hs hne h
    exact ⟨_,io',ht⟩

lemma Writing.flatten_eq {inputs pieces : List Bytes} {io : StringIO}
    (hs : s.Writing zlib member inputs io) (hc : s.Collecting pieces) :
    inputs.flatten = pieces.flatten := by
  obtain ⟨io',hio,hold⟩ := hc.buffer
  obtain rfl := some.inj (hs.buffer.symm.trans hio)
  rcases hs.content with ⟨hm,-⟩ | ⟨-,hd⟩
  · rw [hc.method] at hm
    exact absurd hm (by decide)
  · rw [← hd,hold.data]

end ZipSegment

lemma ZipFile.create_cases {zlib : Zlib σ} {volume next : ZipFile σ} {member : RDFURN}
    {time : UInt16 × UInt16} (h : volume.create zlib member time = some (next,k)) :
    k = volume.members.length ∧ ∃ s, next = {volume with members := volume.members ++ [s]} ∧
      s.Collecting [] ∧ s.Writing zlib member [] .con := by
  obtain ⟨⟨next',place⟩,ho,h⟩ := bind_eq_some_iff.mp h
  split at h
  · next hp =>
    cases h
    obtain ⟨-,hlt⟩ | ⟨segment,s,filename,-,-,rfl,hfn,rfl⟩ := openMember_cases ho
    · exact absurd (hlt _ hp) (lt_irrefl _)
    · exact ⟨rfl,s,rfl,ZipSegment.finish_collecting rfl hfn,
        ZipSegment.finish_writing rfl rfl rfl rfl hfn⟩
  · cases h

namespace ImageParameters

variable {self : ImageParameters} {chunkZlib : ChunkZlib} {zlib : Zlib σ} {bevy : Bytes}

lemma storeBevy_writing {segment index segment' index' : ZipSegment σ} {member member' : RDFURN}
    (hs : ∃ inputs io, segment.Writing zlib member inputs io)
    (hi : ∃ inputs io, index.Writing zlib member' inputs io)
    (h : self.storeBevy chunkZlib zlib bevy segment index = some (segment',index')) :
    (∃ inputs io, segment'.Writing zlib member inputs io) ∧
      ∃ inputs io, index'.Writing zlib member' inputs io := by
  refine loop_rule (fun state => (∃ inputs io, state.segment.Writing zlib member inputs io) ∧
      ∃ inputs io, state.index.Writing zlib member' inputs io)
    (fun r => (∃ inputs io, r.1.Writing zlib member inputs io) ∧
      ∃ inputs io, r.2.Writing zlib member' inputs io) ?_ ?_ ⟨hs,hi⟩ h
  · rintro state state' ⟨hs,hi⟩ ht
    rw [storeTurn] at ht
    split at ht
    · obtain ⟨cbuffer,-,ht⟩ := bind_eq_some_iff.mp ht
      obtain ⟨⟨_,index⟩,hid,ht⟩ := bind_eq_some_iff.mp ht
      obtain ⟨⟨_,segment⟩,hsg,ht⟩ := bind_eq_some_iff.mp ht
      cases ht
      exact ⟨ZipSegment.write_keeps_writing hs hsg,ZipSegment.write_keeps_writing hi hid⟩
    · cases ht
  · rintro state r ⟨hs,hi⟩ ht
    rw [storeTurn] at ht
    split at ht
    · simp [bind_eq_some_iff] at ht
    · cases ht
      exact ⟨hs,hi⟩

/-- The two members of a bevy are at places next to each other. -/
def StoresBevy (self : ImageParameters) (chunkZlib : ChunkZlib) (zlib : Zlib σ)
    (volume : ZipFile σ) (job : ImageWorker) : Prop :=
  ∃ k segment index, volume.StoredAt zlib k (self.bevyUrn job.segmentCount) segment ∧
    volume.StoredAt zlib (k+1) (self.indexUrn job.segmentCount) index ∧
    segment.flatten = (self.storedChunks chunkZlib job.bevy.data
      (self.chunkCount job.bevy.data)).flatten ∧
    index.flatten = (self.entries chunkZlib job.bevy.data (self.chunkCount job.bevy.data)).flatten

lemma runWorker_stored (hch : 0 < self.chunkSize) (hzl : chunkZlib.Inverse)
    {volume next : ZipFile σ} {job : ImageWorker × Times} (hw : volume.mode = .w)
    (h : self.runWorker chunkZlib zlib volume job = some next) : next.mode = .w ∧
      (∀ k member inputs, volume.StoredAt zlib k member inputs →
        next.StoredAt zlib k member inputs) ∧ self.StoresBevy chunkZlib zlib next job.1 := by
  simp only [runWorker,bind_eq_bind,bind_eq_some_iff,Prod.exists] at h
  obtain ⟨_,k,hcr,_,l,hcr',s,hs,t,ht,s',t',hsto,h⟩ := h
  obtain ⟨rfl,s₀,rfl,hc,hwr⟩ := ZipFile.create_cases hcr
  obtain ⟨rfl,t₀,rfl,hc',hwr'⟩ := ZipFile.create_cases hcr'
  obtain rfl : s₀ = s := by simpa using hs
  obtain rfl : t₀ = t := by simpa using ht
  obtain ⟨⟨inputs,io,hsg⟩,inputs',io',hi⟩ := storeBevy_writing ⟨_,_,hwr⟩ ⟨_,_,hwr'⟩ hsto
  obtain ⟨hp,he⟩ := storeBevy_collecting hch hzl hc hc' hsto
  have hm : ((volume.members ++ [s₀] ++ [t₀]).set volume.members.length s').set
      (volume.members.length+1) t' = volume.members ++ [s',t'] := by simp
  simp only [length_append,length_singleton,hm] at h
  have hs' : ({volume with members := volume.members ++ [s',t']} : ZipFile σ).WritingAt zlib
      volume.members.length (self.bevyUrn job.1.segmentCount) inputs := ⟨s',io,by simp,hsg⟩
  have ht' : ({volume with members := volume.members ++ [s',t']} : ZipFile σ).WritingAt zlib
      (volume.members.length+1) (self.indexUrn job.1.segmentCount) inputs' :=
    ⟨t',io',by simp,hi⟩
  obtain ⟨u,hu,h⟩ := run_cons h
  obtain ⟨v,hv,h⟩ := run_cons h
  cases h
  have hmd : u.mode = .w := (ZipFile.step_preserved hu).mode.trans hw
  have hcl := ZipFile.step_close_stored hs' hw hu
  have ho := ZipFile.step_writing ht' (by simp) hu
  simp only [ZipFile.Op.inputs,append_nil] at ho
  refine ⟨(ZipFile.step_preserved hv).mode.trans hmd,fun k member data hk => ?_,
    _,inputs,inputs',ZipFile.step_stored _ _ _ hcl hv,ZipFile.step_close_stored ho hmd hv,
    hsg.flatten_eq hp,hi.flatten_eq he⟩
  obtain ⟨x,hx,hst⟩ := hk
  have hg : ({volume with members := volume.members ++ [s',t']} : ZipFile σ).StoredAt zlib
      k member data :=
    ⟨x,(getElem?_append_left (List.getElem?_eq_some_iff.mp hx).1).trans hx,hst⟩
  exact ZipFile.step_stored _ _ _ (ZipFile.step_stored _ _ _ hg hu) hv

lemma run_runWorker (hch : 0 < self.chunkSize) (hzl : chunkZlib.Inverse)
    {volume next : ZipFile σ} {order : List (ImageWorker × Times)} (hw : volume.mode = .w)
    (h : run (self.runWorker chunkZlib zlib) volume order = some next) : next.mode = .w ∧
      (∀ k member inputs, volume.StoredAt zlib k member inputs →
        next.StoredAt zlib k member inputs) ∧
      ∀ job ∈ order.map Prod.fst, self.StoresBevy chunkZlib zlib next job := by
  induction order generalizing volume with
  | nil =>
    cases h
    exact ⟨hw,fun _ _ _ hk => hk,by simp⟩
  | cons first order ih =>
    obtain ⟨mid,hmd,hr⟩ := run_cons h
    obtain ⟨hm,hkp,k,segment,index,hs,hi,hfl⟩ := runWorker_stored hch hzl hw hmd
    obtain ⟨hm',hkp',ha⟩ := ih hm hr
    refine ⟨hm',fun _ _ _ hk => hkp' _ _ _ (hkp _ _ _ hk),?_⟩
    rw [map_cons,forall_mem_cons]
    exact ⟨⟨k,segment,index,hkp' _ _ _ hs,hkp' _ _ _ hi,hfl⟩,ha⟩

end ImageParameters

namespace AFF4Image

/-- Some data were written to a new image, it was closed, and all its bevies were stored, in
the order in which the threads came to them. -/
def Recorded (chunkZlib : ChunkZlib) (zlib : Zlib σ) (image : AFF4Image) (writes : List Bytes)
    (volume : ZipFile σ) : Prop :=
  ∃ writer written order start, image.finish .w = some (true,writer) ∧
    run write writer writes = some written ∧ (order.map Prod.fst).Perm written.close ∧
    start.mode = .w ∧ run (written.runWorker chunkZlib zlib) start order = some volume

end AFF4Image

/-- Each member that was stored under this URN can be found and read again. -/
def ZipFile.Offers (zlib : Zlib σ) (volume : ZipFile σ) (member : RDFURN) : Prop :=
  ∀ k inputs, volume.StoredAt zlib k member inputs → volume.Findable k member inputs.flatten

/-- When a reader gets the bevy at `p` as it was written: no write was too long for an `int`, the
length of an index fits into an `unsigned int`, and the volume offers both members of the bevy. -/
structure Served (zlib : Zlib σ) (image : AFF4Image) (writes : List Bytes) (volume : ZipFile σ)
    (p : Nat) : Prop where
  writes : ∀ buffer ∈ writes, buffer.length < 2^31
  count : image.chunksInSegment < 2^30
  segment : volume.Offers zlib (image.sized.bevyUrn (p/image.sized.bevySize))
  index : volume.Offers zlib (image.sized.indexUrn (p/image.sized.bevySize))

section

variable {chunkZlib : ChunkZlib} {zlib : Zlib σ} {image : AFF4Image} {writes : List Bytes}
  {volume : ZipFile σ} (hchn : chunkZlib.Inverse) (hzl : zlib.Inverse)
  (hrc : image.Recorded chunkZlib zlib writes volume) (hch : 0 < image.chunkSize)
  (hcn : 0 < image.chunksInSegment)

include hrc hch hcn in
lemma bevySize_lt : image.chunkSize*image.chunksInSegment < 2^31 ∧ image.chunkSize < 2^31 := by
  obtain ⟨writer,-,-,-,hfn,-⟩ := hrc
  obtain ⟨hlt,-⟩ := AFF4Image.finish_cases hch hcn hfn
  exact ⟨hlt,lt_of_le_of_lt (Nat.le_mul_of_pos_right _ hcn) hlt⟩

include hchn hrc hch hcn in
lemma AFF4Image.Recorded.bevy (hl : ∀ buffer ∈ writes, buffer.length < 2^31) {p : Nat}
    (hp : p < writes.flatten.length) : volume.mode = .w ∧ p/image.sized.bevySize < 2^31 ∧
      ∃ job, job.segmentCount = p/image.sized.bevySize ∧
        job.bevy.data = slice writes.flatten (p/image.sized.bevySize*image.sized.bevySize)
          image.sized.bevySize ∧ image.sized.StoresBevy chunkZlib zlib volume job := by
  obtain ⟨writer,written,order,start,hfn,hwr,ho,hw,hr⟩ := hrc
  obtain ⟨-,hpr,-,hstr⟩ := AFF4Image.finish_cases hch hcn hfn
  obtain ⟨hfr,he⟩ := hstr rfl
  have hps : 0 < image.sized.bevySize := mul_pos hch hcn
  have hrm : writer.current.bevy.data.length < writer.bevySize := by
    rw [he,show writer.bevySize = _ from congrArg ImageParameters.bevySize hpr]
    exact hps
  obtain ⟨hwrt,hrm,hs⟩ := AFF4Image.run_write_written hl hfr hrm hwr
  rw [hpr] at hs
  rw [hs] at hr
  obtain ⟨hb,hj⟩ := hwrt.jobs hrm
  rw [show written.bevySize = _ from congrArg ImageParameters.bevySize hs,nil_append]
    at hb hj
  have hk : p/image.sized.bevySize ≤ written.segmentCount :=
    le_of_lt_succ ((div_lt_iff_lt_mul hps).mpr (lt_trans hp hb))
  obtain ⟨job,hjb,hn,hd⟩ := hj _ hk
  have hch' : 0 < image.sized.chunkSize := hch
  obtain ⟨hm,-,hst⟩ := run_runWorker hch' hchn hw hr
  exact ⟨hm,lt_of_le_of_lt hk hwrt.count,job,hn,hd,hst job (ho.mem_iff.mpr hjb)⟩

include hzl in
lemma ZipFile.Offers.reads {member : RDFURN} (ho : volume.Offers zlib member)
    (hw : volume.mode = .w) {k : Nat} {inputs : List Bytes}
    (hk : volume.StoredAt zlib k member inputs) (junk : Junk) (urn : RDFURN) :
    (volume.reopened junk urn).openRead zlib member = some (volume.entryOf k) ∧
      ∃ s, (volume.reopened junk urn).members[volume.entryOf k]? = some s ∧ s.readptr = 0 ∧
        s.Loads zlib ((volume.reopened junk urn).own .r) inputs.flatten := by
  have hfi := ho k inputs hk
  obtain ⟨s,hmm,hs⟩ := hk
  obtain ⟨⟨hn,hsh,hpr⟩,hg,hopn⟩ := hfi.reopen hw hmm hs junk urn
  obtain ⟨hm,hd⟩ := volume.reopened_keeps junk urn
  have hlt : volume.backingStore.data.length < maxTallocSize :=
    lt_of_le_of_lt (le_trans (volume.startOfCd_le_closedSize hw) hfi.size) (by decide)
  have hown : (volume.reopened junk urn).own .r = some (volume.reopened junk urn).backingStore :=
    if_pos hm
  refine ⟨?_,s.reloaded,hg,rfl,?_⟩
  · obtain ⟨r,hr,hp⟩ := map_eq_some_iff.mp (hopn 0 0 0)
    exact bind_eq_some_iff.mpr ⟨r,hr,hp⟩
  · rw [hown]
    exact ZipSegment.reloaded_loads hzl hs hn hsh hpr hlt
      (hd.trans (volume.close_data hw)) hfi.small

include hchn hzl hrc hch hcn in
lemma chunkAt_stored (hst : image.compression = zipStored.toNat) {p : Nat}
    (hp : p < writes.flatten.length) (hs : Served zlib image writes volume p) (junk : Junk)
    (urn : RDFURN) (frame : Frame) : ∃ next,
    image.sized.chunkAt chunkZlib zlib frame (volume.reopened junk urn) p =
      some (some (((slice writes.flatten (p-p%image.chunkSize) image.chunkSize).length : Int),
        slice writes.flatten (p-p%image.chunkSize) image.chunkSize),next) := by
  obtain ⟨hb,hchu⟩ := bevySize_lt hrc hch hcn
  obtain ⟨hw,hk,job,hn,hd,k,segment,index,hsg,hi,hpc,he⟩ := hrc.bevy hchn hch hcn hs.writes hp
  have hst' : image.sized.compression = zipStored.toNat := hst
  rw [storedChunks_whole hst' hch] at hpc
  rw [hn] at hsg hi
  obtain ⟨ho,s,hg,-,hl⟩ := hs.segment.reads hzl hw hsg junk urn
  obtain ⟨ho',s',hg',hpt,hl'⟩ := hs.index.reads hzl hw hi junk urn
  rw [hpc] at hl
  rw [he] at hl'
  have hne : volume.entryOf k ≠ volume.entryOf (k+1) := by
    obtain ⟨x,hm,hx⟩ := hsg
    rw [ZipFile.entryOf,ZipFile.entryOf,ZipFile.listedBefore_succ hm hx.closed]
    simp
  have hps : 0 < image.sized.bevySize := Nat.mul_pos hch hcn
  have hr := Nat.mod_lt p hps
  have hpl : p/image.sized.bevySize*image.sized.bevySize+p%image.sized.bevySize = p := by
    rw [Nat.mul_comm]
    exact Nat.div_add_mod p _
  obtain ⟨next,hat⟩ := chunkAt_packed hst' rfl hb hchu hs.count chunkZlib
    (volume.reopened_keeps junk urn).1 hk hr (by rw [hd,slice_length]; omega) hne ho
    ho' hg hg' hl hl' hpt frame
  have hof : p%image.sized.bevySize%image.chunkSize = p%image.chunkSize :=
    Nat.mod_mod_of_dvd p ⟨image.chunksInSegment,rfl⟩
  have hin : p%image.sized.bevySize/image.chunkSize*image.chunkSize+
      p%image.sized.bevySize%image.chunkSize = p%image.sized.bevySize := by
    rw [Nat.mul_comm]
    exact Nat.div_add_mod _ _
  have hnx : p%image.sized.bevySize/image.chunkSize*image.chunkSize+image.chunkSize ≤
      image.sized.bevySize := by
    have hc : p%image.sized.bevySize/image.chunkSize < image.chunksInSegment :=
      Nat.div_lt_of_lt_mul hr
    rw [← Nat.succ_mul,Nat.mul_comm]
    exact Nat.mul_le_mul_left _ hc
  have hsl : slice job.bevy.data (p%image.sized.bevySize/image.sized.chunkSize*
      image.sized.chunkSize) image.sized.chunkSize =
      slice writes.flatten (p-p%image.chunkSize) image.chunkSize := by
    change slice _ (p%image.sized.bevySize/image.chunkSize*image.chunkSize) image.chunkSize = _
    rw [hd,slice_slice _ _ hnx,
      show p/image.sized.bevySize*image.sized.bevySize+p%image.sized.bevySize/image.chunkSize*
        image.chunkSize = p-p%image.chunkSize by omega]
  rw [hpl,hsl] at hat
  exact ⟨next,hat⟩

variable {size co total : Nat}

lemma chunk_rest {p : Nat} (hco : co < size) (hle : co ≤ p) (hp : p < total) :
    (min size (total-(p-co)) : Nat)-(co : Int) = (min (size-co) (total-p) : Nat) ∧
      0 < min (size-co) (total-p) := by omega

lemma length_of_max {p n : Nat}
    (hm : (n : Int) = max ((min (size-co) (total-p) : Nat) : Int) n) (hft : co+n ≤ size)
    (hv : (n : Int) = (min n (total-p) : Nat)) : n = min (size-co) (total-p) := by omega

def readerAt (image : AFF4Image) (volume : ZipFile σ) (junk : Junk) (urn : RDFURN) (p : Nat) :
    Reader σ :=
  ⟨image.sized,volume.reopened junk urn,p,false⟩

def ImageParameters.remaining (self : ImageParameters) (p total : Nat) : Nat :=
  min (self.chunkSize-p%self.chunkSize) (total-p)

include hchn hzl hrc hch hcn

lemma read_stored_exact (hst : image.compression = zipStored.toNat) {p : Nat}
    (hp : p < writes.flatten.length) (hsr : Served zlib image writes volume p) {junk : Junk}
    {urn : RDFURN} {frames : Nat → Frame} {fuel : Nat} {n : UInt32} (hn : n ≠ 0)
    {result : ReadResult} {next : Reader σ}
    (h : (readerAt image volume junk urn p).read chunkZlib zlib frames fuel n = some (result,next))
    (hd : result.Delivers n.toNat (slice writes.flatten p n.toNat)) :
    n.toNat = image.remaining p writes.flatten.length ∧ next.freed = true := by
  obtain ⟨-,hchu⟩ := bevySize_lt hrc hch hcn
  obtain ⟨after,hat⟩ := chunkAt_stored hchn hzl hrc hch hcn hst hp hsr junk urn (frames 0)
  obtain ⟨hr,hps⟩ := chunk_rest (mod_lt p hch) (mod_le p _) hp
  have ho : p%image.sized.bevySize%image.sized.chunkSize = p%image.chunkSize :=
    mod_mod_of_dvd p ⟨image.chunksInSegment,rfl⟩
  obtain ⟨after',⟨hfl,-⟩ | ⟨bytes,hcp,hf,hcs⟩⟩ := Reader.readLoop_cases rfl hn h
  · rw [readerAt] at hfl
    simp only [hat] at hfl
    cases hfl
  · refine ⟨?_,hf⟩
    obtain ⟨readLength,chunk,hc,hm,hft,-⟩ := partialRead_copied hcp
    rw [readerAt] at hc hm hft
    simp only [hat,some.injEq,Prod.mk.injEq] at hc
    obtain ⟨⟨rfl,rfl⟩,rfl⟩ := hc
    rw [ho] at hm
    rw [ho,show image.sized.chunkSize = image.chunkSize from rfl] at hft
    rw [slice_length,hr] at hm
    rw [remaining]
    have hs : bytes.length < 2^31 := lt_of_le_of_lt (le_trans (le_add_left _ _) hft) hchu
    rcases hcs with ⟨rfl,-⟩ | ⟨-,rfl,rfl⟩
    · have hle := le_of_le_of_eq (Int.le_max_left _ _) hm.symm
      exact absurd hps (not_lt.mpr (Int.ofNat_le.mp hle))
    · have hv := hd.value
      rw [toNat_ofNat_small hs] at hv hm ⊢
      rw [slice_length] at hv
      rw [bmod_small hs] at hm
      exact length_of_max hm hft (by simpa using hv)

lemma read_stored (hst : image.compression = zipStored.toNat) {p : Nat}
    (hp : p < writes.flatten.length) (hs : Served zlib image writes volume p) (junk : Junk)
    (urn : RDFURN) (frames : Nat → Frame) {n : UInt32}
    (hn : n.toNat = image.remaining p writes.flatten.length) : ∃ next,
    (readerAt image volume junk urn p).read chunkZlib zlib frames 2 n =
      some (⟨n.toNat,[(0,slice writes.flatten p n.toNat)]⟩,next) ∧ next.freed = true := by
  obtain ⟨-,hc⟩ := bevySize_lt hrc hch hcn
  obtain ⟨after,hat⟩ := chunkAt_stored hchn hzl hrc hch hcn hst hp hs junk urn (frames 0)
  obtain ⟨hr,hps⟩ := chunk_rest (Nat.mod_lt p hch) (Nat.mod_le p _) hp
  have ho : p%image.sized.bevySize%image.sized.chunkSize = p%image.chunkSize :=
    Nat.mod_mod_of_dvd p ⟨image.chunksInSegment,rfl⟩
  rw [remaining] at hn
  have hft : p%image.chunkSize+n.toNat ≤ image.chunkSize := by omega
  have hsm : n.toNat < 2^31 := by omega
  have hpr : image.sized.partialRead chunkZlib zlib (frames 0) (volume.reopened junk urn) p
      ((n.toNat : Int).bmod (2^32)) = some (.copied (slice writes.flatten p n.toNat),after) := by
    rw [partialRead,hat,bmod_small hsm,bind_some]
    simp only [ho,slice_length,hr,← hn,max_self,Int.toNat_natCast]
    rw [if_pos ⟨Int.natCast_nonneg _,by exact_mod_cast hft⟩,overlay,
      slice_append_left _ _ _ _ (by rw [slice_length]; omega),slice_slice _ _ hft,
      Nat.sub_add_cancel (Nat.mod_le p _)]
  have hne : n ≠ 0 := by
    rintro rfl
    rw [← hn] at hps
    exact Nat.lt_irrefl 0 hps
  have hl : (slice writes.flatten p n.toNat).length = n.toNat := by
    rw [slice_length]
    omega
  have ht : Reader.readTurn chunkZlib zlib frames
      ⟨readerAt image volume junk urn p,0,0,n,[]⟩ =
      some (.next ⟨{readerAt image volume junk urn p with volume := after, freed := true},1,n.toNat,
        0,[(0,slice writes.flatten p n.toNat)]⟩) := by
    rw [Reader.readTurn,if_neg hne]
    simp only [readerAt,Bool.false_eq_true,if_false,hpr,bind_some]
    cases hb : slice writes.flatten p n.toNat with
    | nil =>
      rw [hb] at hl
      exact absurd (UInt32.toNat_inj.mp hl.symm) hne
    | cons b bytes =>
      have hint : toInt (0+((b :: bytes).length : Int)) = some (n.toNat : Int) := by
        rw [← hb,hl,Int.zero_add]
        exact if_pos ⟨by omega,by omega⟩
      simp only [hint,map_some,nil_append,Nat.zero_add]
      rw [← hb,hl,UInt32.ofNat_toNat,UInt32.sub_self]
  refine ⟨{readerAt image volume junk urn p with volume := after, freed := true},?_,rfl⟩
  rw [Reader.read,loop_next ht]
  exact loop_done (Reader.readTurn_zero rfl)

end

def ChunkZlib.Bounded (zlib : ChunkZlib) : Prop :=
  ∀ source room out, zlib.uncompress source room = some out → out.length ≤ room

lemma ImageParameters.chunkAt_deflate {s : ImageParameters} {chunkZlib : ChunkZlib}
    {zlib : Zlib σ} {frame : Frame} {volume next : ZipFile σ} {readptr : Nat} {readLength : Int}
    {chunk : Bytes} (hd : s.compression = zipDeflate.toNat)
    (h : s.chunkAt chunkZlib zlib frame volume readptr = some (some (readLength,chunk),next)) :
    ∃ source, chunkZlib.uncompress source frame.destLen = some chunk := by
  rw [chunkAt] at h
  split at h
  · cases h
  · simp only [bind_eq_bind,bind_eq_some_iff,unpacked,hd,if_true,Prod.exists] at h
    obtain ⟨segment,-,index,-,entries,mid,-,mid',-,data,mid'',-,found,h,he⟩ := h
    cases he
    split at h
    · cases h
    · next out ho =>
      split at h
      · obtain ⟨-,rfl⟩ := Prod.mk.inj (some.inj (some.inj h))
        exact ⟨_,ho⟩
      · cases h

/-- Uninitialised memory that holds one byte everywhere, and no room for `uncompress`. -/
def Frame.filled (byte : UInt8) : Frame := ⟨fun _ => 0,fun _ => 0,fun _ => byte,0,fun _ => 0⟩

namespace Reader

variable {chunkZlib : ChunkZlib} {zlib : Zlib σ} {s next : Reader σ} {fuel : Nat} {n : UInt32}
  {result : ReadResult} {content : Bytes}

/-- A compressed stream is not read when `uncompress` finds no room: the call fails, so that what
follows is stored in front of the buffer, or it copies memory that was never set. -/
lemma read_deflate (hzl : chunkZlib.Bounded) (hf : s.freed = false)
    (hch : 0 < s.image.chunkSize)
    (hdf : s.image.compression = zipDeflate.toNat) {x : UInt8}
    (hx : content[s.readptr]? = some x) (hn : n ≠ 0)
    (h : s.read chunkZlib zlib (fun _ => .filled (x+1)) fuel n = some (result,next)) :
    ¬ result.Delivers n.toNat (slice content s.readptr n.toNat) := by
  intro hd
  have hn' : 0 < n.toNat := pos_of_ne_zero fun hz => hn (UInt32.toNat_inj.mp hz)
  have hlt := (List.getElem?_eq_some_iff.mp hx).1
  have hp : 0 < (slice content s.readptr n.toNat).length := by
    rw [slice_length]
    omega
  have hv := hd.value
  obtain ⟨volume,⟨-,-,rest,-,hr⟩ | ⟨bytes,hcp,-,hcs⟩⟩ := readLoop_cases hf hn h
  · rcases readLoop_behind (by exact hf) (by simp) hr with hng | ⟨w,hw,hng⟩
    · omega
    · exact absurd (hd.inside w hw).1 (Int.not_le.mpr hng)
  · rcases hcs with ⟨rfl,rfl⟩ | ⟨hne,-,rfl⟩
    · simp only at hv
      omega
    · obtain ⟨readLength,chunk,hc,-,hft,hbs⟩ := partialRead_copied hcp
      obtain ⟨source,hsr⟩ := chunkAt_deflate hdf hc
      obtain rfl : chunk = [] := eq_nil_of_length_eq_zero
        (le_zero.mp (hzl _ _ _ hsr))
      -- The first byte is that of the local array.
      have hb := hd.bytes 0 hp
      have hfs : bytes[0]? = some (x+1) := by
        have hl : 0 < bytes.length := length_pos_iff.mpr hne
        rw [hbs,slice,getElem?_take_of_lt hl,getElem?_drop,overlay]
        simp [Frame.filled,mod_lt _ hch]
      have hs : (slice content s.readptr n.toNat)[0]? = some x := by
        rw [slice,getElem?_take_of_lt hn',getElem?_drop]
        exact hx
      rw [nil_append,ReadResult.byteAt_single,hfs,hs] at hb
      simp at hb

end Reader

section

variable {chunkZlib : ChunkZlib} {zlib : Zlib σ} {content : Bytes} {reader : Reader σ}
  {cursor : Nat} {lengths : List UInt32}

lemma streams_zero : Streams chunkZlib zlib content reader cursor (0 :: lengths) ↔
    Streams chunkZlib zlib content reader cursor lengths := by
  have hn : slice content cursor (0 : UInt32).toNat = [] := by simp [slice]
  rw [Streams]
  simp only [hn,length_nil,add_zero]
  constructor
  · intro h
    obtain ⟨fuel,result,next,hr,-,hrs⟩ := h fun _ => .filled 0
    obtain ⟨fuel,rfl,-⟩ := loop_cases hr
    cases hr
    exact hrs
  · intro h frames
    exact ⟨1,⟨0,[]⟩,reader,Reader.read_zero,⟨rfl,by simp,by simp⟩,h⟩

lemma streams_freed (hf : reader.freed = true) :
    Streams chunkZlib zlib content reader cursor lengths ↔ ∀ n ∈ lengths, n = 0 := by
  induction lengths with
  | nil => simp [Streams]
  | cons n lengths ih =>
    rw [forall_mem_cons]
    by_cases hn : n = 0
    · rw [hn,streams_zero,ih]
      simp
    · simp only [hn,false_and,iff_false]
      intro h
      obtain ⟨fuel,result,next,hr,-⟩ := h fun _ => .filled 0
      exact hn (Reader.loop_freed hf hr).1

end

/-- At most one of the reads is for any bytes, and that one for what is left at `p` of a chunk that
was stored without compression and that the reader is served. -/
def ReadsRest (zlib : Zlib σ) (image : AFF4Image) (writes : List Bytes) (volume : ZipFile σ)
    (p : Nat) (lengths : List UInt32) : Prop :=
  (∀ n ∈ lengths, n = 0) ∨
    image.compression = zipStored.toNat ∧ p < writes.flatten.length ∧
      lengths.filter (fun n => n ≠ 0) = [UInt32.ofNat (image.remaining p writes.flatten.length)] ∧
      Served zlib image writes volume p

section

variable {chunkZlib : ChunkZlib} {zlib : Zlib σ} {image opened : AFF4Image} {writes : List Bytes}
  {volume : ZipFile σ} {ok : Bool} {p : Nat} (hchn : chunkZlib.Inverse)
  (hrm : chunkZlib.Bounded) (hzl : zlib.Inverse)
  (hrc : image.Recorded chunkZlib zlib writes volume) (hch : 0 < image.chunkSize)
  (hcn : 0 < image.chunksInSegment)
  (hmt : image.compression = zipStored.toNat ∨ image.compression = zipDeflate.toNat)
  (junk : Junk) (urn : RDFURN)

include hrm hrc hch hcn hmt in
lemma first_read {n : UInt32} (hn : n ≠ 0)
    (hb : p < writes.flatten.length ∨ n.toNat < 2^31)
    (h : ∀ frames, ∃ fuel result next,
      (readerAt image volume junk urn p).read chunkZlib zlib frames fuel n = some (result,next) ∧
      result.Delivers n.toNat (slice writes.flatten p n.toNat)) :
    image.compression = zipStored.toNat ∧ p < writes.flatten.length := by
  obtain ⟨-,hc⟩ := bevySize_lt hrc hch hcn
  have hps : 0 < n.toNat := pos_of_ne_zero fun hz => hn (UInt32.toNat_inj.mp hz)
  by_cases hp : p < writes.flatten.length
  · rcases hmt with hs | hdf
    · exact ⟨hs,hp⟩
    · obtain ⟨fuel,result,next,hr,hd⟩ := h fun _ => .filled (writes.flatten[p]+1)
      exact absurd hd (Reader.read_deflate hrm rfl hch hdf
        (getElem?_eq_getElem hp) hn hr)
  · -- Behind the end nothing is to be returned, but something always is.
    obtain ⟨fuel,result,next,hr,hd⟩ := h fun _ => .filled 0
    have hv := hd.value
    rw [slice_length,Nat.sub_eq_zero_of_le (not_lt.mp hp),min_zero] at hv
    exact absurd hv (Reader.readLoop_value_ne_zero (j := 0) rfl hc hps
      (hb.resolve_left hp) (zero_le _) rfl rfl hr)

include hchn hzl hrc hch hcn in
lemma streams_of_rest {lengths : List UInt32}
    (h : ReadsRest zlib image writes volume p lengths) :
    Streams chunkZlib zlib writes.flatten (readerAt image volume junk urn p) p lengths := by
  obtain ⟨-,hc⟩ := bevySize_lt hrc hch hcn
  have he := toNat_ofNat_small (lt_of_le_of_lt
    (le_trans (min_le_left _ _) (sub_le _ _)) hc : image.remaining p writes.flatten.length < 2^31)
  induction lengths with
  | nil => trivial
  | cons n lengths ih =>
    by_cases hn : n = 0
    · subst hn
      rw [streams_zero]
      exact ih (by simpa [ReadsRest] using h)
    · obtain hz | ⟨hst,hp,hfl,hs⟩ := h
      · exact absurd (hz n mem_cons_self) hn
      · rw [filter_cons_of_pos (by simpa using hn),cons.injEq,filter_eq_nil_iff] at hfl
        obtain ⟨rfl,hz⟩ := hfl
        intro frames
        obtain ⟨next,hr,hf⟩ := read_stored hchn hzl hrc hch hcn hst hp
          hs junk urn frames he
        refine ⟨2,_,next,hr,?_,(streams_freed hf).mpr (by simpa using hz)⟩
        have hwh : (slice writes.flatten p
            (UInt32.ofNat (image.remaining p writes.flatten.length)).toNat).length =
            (UInt32.ofNat (image.remaining p writes.flatten.length)).toNat := by
          rw [slice_length,he]
          exact min_eq_left (min_le_right _ _)
        refine ⟨by rw [hwh],?_,fun i _ => ReadResult.byteAt_single _ i⟩
        intro w hw
        rw [mem_singleton.mp hw,hwh]
        simp

include hchn hrm hzl hrc hch hcn hmt in
lemma rest_of_streams (hsr : image.compression = zipStored.toNat →
      p < writes.flatten.length → Served zlib image writes volume p) {lengths : List UInt32}
    (hb : p < writes.flatten.length ∨ ∀ n ∈ lengths, n.toNat < 2^31)
    (h : Streams chunkZlib zlib writes.flatten (readerAt image volume junk urn p) p lengths) :
    ReadsRest zlib image writes volume p lengths := by
  induction lengths with
  | nil => exact .inl (by simp)
  | cons n lengths ih =>
    by_cases hn : n = 0
    · subst hn
      have := ih (hb.imp_right fun h m hm => h m (mem_cons_of_mem _ hm)) (streams_zero.mp h)
      simpa [ReadsRest] using this
    · obtain ⟨hs,hp⟩ := first_read hrm hrc hch hcn hmt junk urn hn
        (hb.imp_right fun h => h n mem_cons_self) fun frames => by
          obtain ⟨fuel,result,next,hr,hd,-⟩ := h frames
          exact ⟨fuel,result,next,hr,hd⟩
      obtain ⟨fuel,result,next,hr,hd,hl⟩ := h fun _ => .filled 0
      obtain ⟨he,hf⟩ := read_stored_exact hchn hzl hrc hch hcn hs hp
        (hsr hs hp) hn hr hd
      refine .inr ⟨hs,hp,?_,hsr hs hp⟩
      rw [filter_cons_of_pos (by simpa using hn),cons.injEq,filter_eq_nil_iff,← he,
        UInt32.ofNat_toNat]
      exact ⟨rfl,by simpa using (streams_freed hf).mp hl⟩

include hchn hrm hzl hrc hch hcn hmt in
/-- A recorded image is read back as a stream when at most one of the reads is for any bytes, and
that one for what is left at `p` of a chunk stored without compression, and only then, unless the
volume does not serve the bevy at `p`. -/
theorem streams_iff (ho : image.finish .r = some (ok,opened)) (lengths : List UInt32) :
    (ReadsRest zlib image writes volume p lengths → Streams chunkZlib zlib writes.flatten
      ⟨opened.toImageParameters,volume.reopened junk urn,p,false⟩ p lengths) ∧
    ((image.compression = zipStored.toNat → p < writes.flatten.length →
        Served zlib image writes volume p) →
      (p < writes.flatten.length ∨ ∀ n ∈ lengths, n.toNat < 2^31) →
      Streams chunkZlib zlib writes.flatten
        ⟨opened.toImageParameters,volume.reopened junk urn,p,false⟩ p lengths →
      ReadsRest zlib image writes volume p lengths) := by
  obtain ⟨-,hp,-⟩ := AFF4Image.finish_cases hch hcn ho
  rw [hp]
  exact ⟨streams_of_rest hchn hzl hrc hch hcn junk urn,
    fun hs hb h => rest_of_streams hchn hrm hzl hrc hch hcn hmt junk
      urn hs hb h⟩

end

lemma plainChunkZlib_bounded : plainChunkZlib.Bounded := by
  intro source room out h
  simp only [plainChunkZlib] at h
  split at h
  · next hle => exact some.inj h ▸ hle
  · cases h

/-- A volume offers what the members of that name are findable by. -/
lemma ZipFile.offers_of_findable {zlib : Zlib σ} {volume : ZipFile σ} {member : RDFURN}
    (hrc : volume.Recognised member) (hdt : volume.backingStore.data.length < maxTallocSize)
    (hn : ∀ k < volume.members.length, ∀ s ∈ volume.members[k]?,
      s.filename = zstring (member.relativeName volume.urn) →
      s.cd.compressionMethod = zipStored ∧ ∀ t ∈ volume.listedBefore k, t.Near ∧
        cstring t.reloaded.filename ≠ member.relativeName volume.urn) :
    volume.Offers zlib member := by
  rintro k inputs ⟨s,hm,hs⟩
  obtain ⟨name,hnm,hfl⟩ := hs.name
  obtain rfl := escapeFilename_plain hnm hrc.plain
  obtain ⟨hmt,hb⟩ := hn k (List.getElem?_eq_some_iff.mp hm).1 s hm hfl
  refine ⟨hrc,fun t ht => (hb t ht).1,fun t ht => (hb t ht).2,?_⟩
  obtain ⟨pre,payload,post,hsp,-,-,hp⟩ := hs.content
  rcases hp with ⟨hd,-⟩ | ⟨-,rfl⟩
  · rw [hmt] at hd
    exact absurd hd (by decide)
  · have hl := congrArg List.length hsp
    simp only [length_append] at hl
    omega

def smallImage : AFF4Image where
  urn := .set (fqn ++ chars ['v','/','i'])
  chunkSize := 4
  compression := 0
  chunksInSegment := 2
  bevySize := 0
  segmentCount := 0
  current := .con 0
  scheduled := []

def smallWriter : AFF4Image := {smallImage with bevySize := 8}

lemma smallImage_finish (mode : Mode) :
    smallImage.finish mode = some (decide (mode = .w),smallWriter) := by
  have hs : toInt (smallImage.chunkSize*smallImage.chunksInSegment) = some 8 := by decide
  cases mode with
  | r => rw [AFF4Image.finish,hs]; rfl
  | w => rw [AFF4Image.finish,hs]; rfl

def smallWrites : List Bytes := [chars ['h','e','l','l','o'],chars [' ','w','o','r','l']]

def smallWritten : AFF4Image :=
  (run AFF4Image.write smallWriter smallWrites).get (by decide +kernel)

def smallVolume : ZipFile Unit :=
  (run (smallWritten.runWorker plainChunkZlib ZipFile.plainZlib) ZipFile.newVolume
    (smallWritten.close.map fun job => (job,0,0))).get (by decide +kernel)

lemma smallImage_recorded :
    smallImage.Recorded plainChunkZlib ZipFile.plainZlib smallWrites smallVolume :=
  ⟨smallWriter,smallWritten,_,ZipFile.newVolume,smallImage_finish .w,(some_get _).symm,
    by simp [Function.comp_def],rfl,(some_get _).symm⟩

lemma smallVolume_serves {p : Nat} (hp : p/8 = 0) :
    Served ZipFile.plainZlib smallImage smallWrites smallVolume p := by
  have hn : p/smallImage.sized.bevySize = 0 := hp
  refine ⟨by decide,by decide,?_,?_⟩
  all_goals
    rw [hn]
    exact ZipFile.offers_of_findable ⟨by decide +kernel,by decide +kernel,by decide +kernel,
      by decide +kernel,by decide +kernel,by decide +kernel⟩ (by decide +kernel) (by decide +kernel)

theorem streams_rest_of_chunk : Streams plainChunkZlib ZipFile.plainZlib smallWrites.flatten
    ⟨smallWriter.toImageParameters,smallVolume.reopened (fun _ => 0) (.set fqn),5,false⟩ 5 [0,3,0] :=
  (streams_iff plainChunkZlib_inverse plainChunkZlib_bounded ZipFile.plainZlib_inverse
    smallImage_recorded (by decide) (by decide) (.inl rfl) _ _ (smallImage_finish .r) [0,3,0]).1
    (.inr ⟨rfl,by decide,by decide,smallVolume_serves rfl⟩)

/-- Two bytes are asked for and four are copied. -/
theorem streams_two_bytes_fails :
    smallImage.Recorded plainChunkZlib ZipFile.plainZlib smallWrites smallVolume ∧
    (smallImage.sized.partialRead plainChunkZlib ZipFile.plainZlib (.filled 0)
      (smallVolume.reopened (fun _ => 0) (.set fqn)) 0 2).map Prod.fst =
      some (.copied (chars ['h','e','l','l'])) ∧
    ¬ Streams plainChunkZlib ZipFile.plainZlib smallWrites.flatten
      ⟨smallWriter.toImageParameters,smallVolume.reopened (fun _ => 0) (.set fqn),0,false⟩ 0 [2] := by
  refine ⟨smallImage_recorded,by decide +kernel,fun h => ?_⟩
  obtain ⟨fuel,result,next,hr,hd,-⟩ := h fun _ => .filled 0
  have he := (read_stored_exact plainChunkZlib_inverse ZipFile.plainZlib_inverse
    smallImage_recorded (by decide) (by decide) rfl (by decide) (smallVolume_serves rfl) (by decide)
    hr hd).1
  exact absurd he (by decide)

end Aff4
