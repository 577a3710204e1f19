import Aff4.JavaBuffer
import Aff4.JavaStreamWriter

/-! The stream reader of the Java library (StreamReader.java) on the bevies of a volume. An
exception that `partial_read` does not catch has no result. -/

namespace Aff4.Java

open LittleEndian List Option Int

def member (volume : List Bevvy) (number : Int) : Option Bevvy :=
  volume.find? fun b => (b.number : Int) = number

def byteAt (bytes : Bytes) (i : Nat) : Nat := (bytes.getD i 0).toNat

def bytesIntoUInt (bytes : Bytes) (offset : Nat) : Nat :=
  byteAt bytes offset ||| byteAt bytes (offset+1) <<< 8 ||| byteAt bytes (offset+2) <<< 16 |||
    byteAt bytes (offset+3) <<< 24

structure StreamReader where
  chunkSize : Int
  chunksInSegment : Int
  compression : Int
  size : Int
  readptr : Int
  bevvyOffsets : List Nat
  bevvy : Int

namespace StreamReader

def literal (value : Option Int) (default : Int) : Int :=
  match value with
  | some n => toInt n
  | none => default

lemma literal_some (n default : Int) : literal (some n) default = toInt n := rfl

def con (chunkSize chunksInSegment size compression : Option Int) : StreamReader where
  chunkSize := literal chunkSize (32*1024)
  chunksInSegment := literal chunksInSegment 2048
  compression := literal compression 8
  size := literal size 0
  readptr := 0
  bevvyOffsets := []
  bevvy := -1

def offsets (index : Bytes) : List Nat :=
  (List.range (index.length/4)).map fun i => bytesIntoUInt index (i*4)

def loadOffsets (volume : List Bevvy) (self : StreamReader) (thisBevvy : Int) :
    Option StreamReader :=
  if thisBevvy = self.bevvy then some self
  else (member volume thisBevvy).bind fun b =>
    let offsetsCount := toInt b.index.length
    if offsetsCount < 0 then none
    else some {self with
      bevvyOffsets := offsets (fill offsetsCount.toNat b.index), bevvy := thisBevvy}

def getOffset (self : StreamReader) (i : Int) : Option Nat :=
  if i < 0 then none else self.bevvyOffsets[i.toNat]?

def copyChunk (deflater : Deflater) (volume : List Bevvy) (self : StreamReader)
    (thisBevvy chunkInBevy chunkOffset available : Int) (buf : ReadBuffer) :
    Option (Int × ReadBuffer) :=
  (self.getOffset chunkInBevy).bind fun offset =>
  (self.getOffset (chunkInBevy+1)).bind fun offsetEnd =>
  (member volume thisBevvy).bind fun b =>
    if self.compression ≠ 0 then
      let count := toInt ((offsetEnd : Int)-offset)
      if count < 0 then none
      else
        (deflater.inflate (fill count.toNat (b.data.drop offset))).bind fun result =>
        (buf.put (fill self.chunkSize.toNat result) chunkOffset available).map fun buf =>
          (available,buf)
    else
      -- The chunk is put into the buffer that it was read to, not into the caller's.
      let chunk := fill self.chunkSize.toNat (b.data.drop offset)
      ((ReadBuffer.wrap chunk).bind fun b => b.put chunk 0 self.chunkSize).map fun _ =>
        (self.chunkSize,buf)

/-- A negative array size and a division by zero are not caught. -/
def partialRead (deflater : Deflater) (volume : List Bevvy) (self : StreamReader)
    (buf : ReadBuffer) : Option (Int × StreamReader × ReadBuffer) :=
  if self.readptr = self.size then some (-1,self,buf)
  else if self.chunkSize ≤ 0 ∨ self.chunksInSegment = 0 then none
  else
    let length := toInt (min (self.size-self.readptr) (buf.limit-buf.position))
    let chunkId := toInt (self.readptr.tdiv self.chunkSize)
    let chunkOffset := toInt (self.readptr.tmod self.chunkSize)
    let available := min (self.chunkSize-chunkOffset) length
    let thisBevvy := chunkId.tdiv self.chunksInSegment
    let chunkInBevy := chunkId.tmod self.chunksInSegment
    match loadOffsets volume self thisBevvy with
    | none => some (-1,self,buf)
    | some self =>
      match copyChunk deflater volume self thisBevvy chunkInBevy chunkOffset available buf with
      | none => some (-1,self,buf)
      | some r => some (r.1,self,r.2)

def readLoop (deflater : Deflater) (volume : List Bevvy) (startPosition : Nat) :
    Nat → Int → Int → StreamReader → ReadBuffer → Option (Int × StreamReader × ReadBuffer)
  | 0, _, _, _, _ => none
  | fuel+1, length, readCount, self, buf =>
    if 0 < length then
      (partialRead deflater volume self buf).bind fun r =>
        if r.1 = -1 then
          if readCount = 0 then some r
          else
            (r.2.2.setLimit r.2.2.position).bind fun buf =>
            (buf.setPosition startPosition).map fun buf => (readCount,r.2.1,buf)
        else readLoop deflater volume startPosition fuel (length-r.1) (readCount+r.1)
          {r.2.1 with readptr := r.2.1.readptr+r.1} r.2.2
    else
      (buf.setPosition startPosition).bind fun buf =>
      (buf.setLimit readCount).map fun buf => (readCount,self,buf)

def read (deflater : Deflater) (volume : List Bevvy) (self : StreamReader) (buf : ReadBuffer) :
    Option (Int × StreamReader × ReadBuffer) :=
  if self.size-self.readptr = 0 then some (-1,self,buf)
  else
    let length := toInt (min (self.size-self.readptr) (buf.limit-buf.position))
    readLoop deflater volume buf.position (length.toNat+1) length 0 self buf

def seek (self : StreamReader) (offset : Int) : StreamReader := {self with readptr := offset}

end StreamReader

def indexWord (index : Bytes) (i : Nat) : Nat := leNat (slice index (i*4) 4)

/-- The bevies of a stream: every chunk of the content is where the index of its bevy says. -/
structure Stored (deflater : Deflater) (volume : List Bevvy) (chunkSize chunksInSegment : Nat)
    (content : Bytes) : Prop where
  chunkSize_pos : 0 < chunkSize
  chunkSize_lt : chunkSize < 2^31
  segment_pos : 0 < chunksInSegment
  segment_lt : chunksInSegment < 2^31
  chunk : ∀ i, i*chunkSize < content.length →
    ∃ b, member volume (i/chunksInSegment : Nat) = some b ∧ b.index.length < 2^31 ∧
      (i%chunksInSegment+2)*4 ≤ b.index.length ∧
      indexWord b.index (i%chunksInSegment) ≤ indexWord b.index (i%chunksInSegment+1) ∧
      indexWord b.index (i%chunksInSegment+1) ≤ b.data.length ∧
      deflater.inflate (slice b.data (indexWord b.index (i%chunksInSegment))
        (indexWord b.index (i%chunksInSegment+1)-indexWord b.index (i%chunksInSegment))) =
          some (slice content (i*chunkSize) chunkSize) ∧
      b.data.length < 2^31

/-- A reader that was opened on a stored stream. The offsets it keeps are those of the bevy it
read last. -/
structure Opened (volume : List Bevvy) (chunkSize chunksInSegment size : Nat)
    (reader : StreamReader) : Prop where
  chunkSize : reader.chunkSize = chunkSize
  chunksInSegment : reader.chunksInSegment = chunksInSegment
  compression : reader.compression ≠ 0
  size : reader.size = toInt size
  kept : reader.bevvy = -1 ∨ ∃ b, member volume reader.bevvy = some b ∧
    reader.bevvyOffsets = StreamReader.offsets b.index

/-- What a read should do: return how much it read, put it to the buffer's position and leave the
buffer around it. -/
def Delivers (deflater : Deflater) (volume : List Bevvy) (content : Bytes) (self : StreamReader)
    (p : Nat) (buf : ReadBuffer) : Prop :=
  let m := min (buf.limit-buf.position) (content.length-p)
  ∃ self' buf', (self.seek p).read deflater volume buf = some ((m : Int),self',buf') ∧
    buf'.array = buf.stored (slice content p m) ∧ buf'.position = buf.position ∧
    buf'.limit = buf.position+m ∧ self'.readptr = (p+m : Nat)

lemma toInt_of_lt {n : Int} (hle : -2^31 ≤ n) (hlt : n < 2^31) : toInt n = n := by
  unfold toInt bmod
  dsimp only
  split <;> omega

lemma toInt_natCast {n : Nat} (h : n < 2^31) : toInt n = n := toInt_of_lt (by omega) (by omega)

lemma toInt_le (n : Nat) : toInt n ≤ n := by
  unfold toInt bmod
  dsimp only
  split <;> omega

lemma toInt_bounds (n : Int) : -2^31 ≤ toInt n ∧ toInt n < 2^31 := by
  unfold toInt bmod
  dsimp only
  split <;> omega

variable {a b : Nat}

lemma min_sub_natCast (h : b ≤ a) (n : Nat) : min ((a : Int)-b) n = (min (a-b) n : Nat) := by omega

lemma or_shiftLeft {i : Nat} (h : a < 2^i) : a ||| b <<< i = a+b*2^i := by
  rw [Nat.or_comm,← Nat.shiftLeft_add_eq_or_of_lt h,Nat.shiftLeft_eq,add_comm]

lemma byteAt_lt (bytes : Bytes) (i : Nat) : byteAt bytes i < 2^8 := UInt8.toNat_lt _

lemma bytesIntoUInt_eq (bytes : Bytes) (offset : Nat) :
    bytesIntoUInt bytes offset = byteAt bytes offset+byteAt bytes (offset+1)*2^8+
      byteAt bytes (offset+2)*2^16+byteAt bytes (offset+3)*2^24 := by
  have h0 := byteAt_lt bytes offset
  have h1 := byteAt_lt bytes (offset+1)
  have h2 := byteAt_lt bytes (offset+2)
  have h01 : byteAt bytes offset+byteAt bytes (offset+1)*2^8 < 2^16 := by omega
  have h012 : byteAt bytes offset+byteAt bytes (offset+1)*2^8+byteAt bytes (offset+2)*2^16 < 2^24 := by
    omega
  rw [bytesIntoUInt,or_shiftLeft h0,or_shiftLeft h01,or_shiftLeft h012]

lemma bytesIntoUInt_eq_leNat {bytes : Bytes} {offset : Nat} (h : offset+4 ≤ bytes.length) :
    bytesIntoUInt bytes offset = leNat (slice bytes offset 4) := by
  have hg : ∀ j, byteAt bytes (offset+j) = ((bytes.drop offset).getD j 0).toNat := by
    intro j
    rw [byteAt,getD_eq_getElem?_getD,getD_eq_getElem?_getD,getElem?_drop]
  have hl : 4 ≤ (bytes.drop offset).length := by rw [length_drop]; omega
  rw [bytesIntoUInt_eq,slice,hg 1,hg 2,hg 3,show byteAt bytes offset = _ from hg 0]
  generalize bytes.drop offset = rest at hl ⊢
  rcases rest with _ | ⟨b0,_ | ⟨b1,_ | ⟨b2,_ | ⟨b3,rest⟩⟩⟩⟩
  iterate 4 · simp at hl
  simp [leNat]
  omega

namespace StreamReader

variable {index : Bytes} {i size number a : Nat} {b : Bevvy}

lemma offsets_get (h : (i+1)*4 ≤ index.length) :
    (offsets index)[i]? = some (indexWord index i) := by
  have hi : i < index.length/4 := by omega
  rw [offsets,getElem?_map,getElem?_range hi,map_some,bytesIntoUInt_eq_leNat (by omega),indexWord]

variable {deflater : Deflater} {volume : List Bevvy} {c k : Nat} {content : Bytes}
  {self : StreamReader}

lemma loadOffsets_spec (ho : Opened volume c k size self)
    (hb : member volume number = some b) (hi : b.index.length < 2^31) :
    ∃ self', loadOffsets volume self number = some self' ∧
      Opened volume c k size self' ∧ self'.readptr = self.readptr ∧
      self'.bevvyOffsets = offsets b.index := by
  rw [loadOffsets]
  by_cases hk : (number : Int) = self.bevvy
  · refine ⟨self,if_pos hk,ho,rfl,?_⟩
    rcases ho.kept with hn | ⟨b',hb',hof⟩
    · omega
    · rw [← hk,hb] at hb'
      cases hb'
      exact hof
  · have hc : toInt b.index.length = b.index.length := toInt_natCast hi
    have hf : fill b.index.length b.index = b.index := by rw [fill_of_le (le_refl _),take_length]
    rw [if_neg hk,hb,bind_some,hc,if_neg (by omega),toNat_natCast,hf]
    exact ⟨_,rfl,⟨ho.chunkSize,ho.chunksInSegment,ho.compression,ho.size,.inr ⟨b,hb,rfl⟩⟩,rfl,rfl⟩

lemma getOffset_eq (h : self.bevvyOffsets = offsets index)
    (hi : (i+1)*4 ≤ index.length) : self.getOffset i = some (indexWord index i) := by
  rw [getOffset,if_neg (by omega),toNat_natCast,h,offsets_get hi]

lemma copyChunk_spec (ho : Opened volume c k size self)
    (hb : member volume number = some b) (hk : self.bevvyOffsets = offsets b.index)
    (hid : (i+2)*4 ≤ b.index.length) (hle : indexWord b.index i ≤ indexWord b.index (i+1))
    (hd : indexWord b.index (i+1) ≤ b.data.length) (hsm : b.data.length < 2^31)
    {chunk : Bytes} (hi : deflater.inflate (slice b.data (indexWord b.index i)
      (indexWord b.index (i+1)-indexWord b.index i)) = some chunk) (hc : chunk.length ≤ c)
    {o : Nat} (ha : o+a ≤ chunk.length) {buf : ReadBuffer} (hr : buf.position+a ≤ buf.limit) :
    copyChunk deflater volume self number i o a buf = some ((a : Int),
      buf.store (slice chunk o a) (by rw [slice_length]; omega)) := by
  have hn : (i : Int)+1 = (i+1 : Nat) := rfl
  have hcn : toInt ((indexWord b.index (i+1) : Int)-indexWord b.index i) =
      (indexWord b.index (i+1)-indexWord b.index i : Nat) := by
    rw [toInt_of_lt (by omega) (by omega)]
    omega
  have hf : fill (indexWord b.index (i+1)-indexWord b.index i)
      (b.data.drop (indexWord b.index i)) =
      slice b.data (indexWord b.index i) (indexWord b.index (i+1)-indexWord b.index i) :=
    fill_of_le (by rw [length_drop]; omega)
  have hp := buf.put_of_le (fill c chunk) (by rw [fill_length]; omega : o+a ≤ _) hr
  rw [copyChunk,getOffset_eq hk (by omega),bind_some,hn,getOffset_eq hk hid,
    bind_some,hb,bind_some,if_pos ho.compression,hcn,if_neg (by omega),
    toNat_natCast,hf,hi,bind_some,ho.chunkSize,toNat_natCast,hp,
    map_some]
  simp only [slice_fill hc ha]

section

variable (hs : Stored deflater volume c k content) {n : Nat} (hn : toInt size = n)
  (hle : n ≤ content.length)
variable {q L : Nat} {buf : ReadBuffer}

include hs hn hle

lemma partialRead_spec (ho : Opened volume c k size self)
    (hq : self.readptr = q) (hlt : q < n)
    (hL : L = min (n-q) (buf.limit-buf.position)) (hps : 0 < L) :
    ∃ (a : Nat) (self' : StreamReader) (buf' : ReadBuffer), 0 < a ∧ a ≤ L ∧
      partialRead deflater volume self buf = some ((a : Int),self',buf') ∧
      buf'.array = buf.stored (slice content q a) ∧ buf'.position = buf.position+a ∧
      buf'.limit = buf.limit ∧ Opened volume c k size self' ∧ self'.readptr = q := by
  have hb := toInt_bounds size
  have hc := hs.chunkSize_pos
  have hk := hs.segment_pos
  have hm := Nat.mod_lt q hc
  have hdv := Nat.div_add_mod' q c
  have hi : q/c*c < content.length := by omega
  have hid : q/c < 2^31 := lt_of_le_of_lt (Nat.div_le_self q c) (by omega)
  obtain ⟨b,hbv,hidx,hw,hwl,hd,hin,hsm⟩ := hs.chunk (q/c) hi
  obtain ⟨self',hld,ho',hpt,hkp⟩ := loadOffsets_spec ho hbv hidx
  have hchn : (slice content (q/c*c) c).length = min c (content.length-q/c*c) :=
    slice_length content (q/c*c) c
  have ha : q%c+min (c-q%c) L ≤ (slice content (q/c*c) c).length := by omega
  have hr : buf.position+min (c-q%c) L ≤ buf.limit := by omega
  have hcp := copyChunk_spec ho' hbv hkp hw hwl hd hsm hin (by omega) ha hr
  have hp : slice (slice content (q/c*c) c) (q%c) (min (c-q%c) L) =
      slice content q (min (c-q%c) L) := by rw [slice_slice content (q/c*c) (by omega),hdv]
  have hf : buf.position+(slice content q (min (c-q%c) L)).length ≤ buf.limit := by
    rw [slice_length]
    omega
  simp only [hp] at hcp
  refine ⟨min (c-q%c) L,self',buf.store (slice content q (min (c-q%c) L)) hf,by omega,
    min_le_right _ _,?_,rfl,?_,rfl,ho',hpt.trans hq⟩
  · have hsz : self.size = n := by rw [ho.size,hn]
    have hl : toInt (min (self.size-self.readptr) (buf.limit-buf.position)) = (L : Int) := by
      rw [hsz,hq,toInt_of_lt (by omega) (by omega)]
      omega
    have hch : toInt ((q : Int).tdiv c) = (q/c : Nat) := by rw [← ofNat_tdiv,toInt_natCast hid]
    have hof : toInt ((q : Int).tmod c) = (q%c : Nat) := by
      rw [← ofNat_tmod,toInt_natCast (by omega)]
    have hav := min_sub_natCast (le_of_lt hm) L
    rw [partialRead,if_neg (by omega),if_neg (by rw [ho.chunkSize,ho.chunksInSegment]; omega)]
    simp only [hl]
    rw [hq,ho.chunkSize,ho.chunksInSegment,hch,hof,← ofNat_tdiv,← ofNat_tmod,hav,hld]
    simp only [hcp]
  · change buf.position+(slice content q (min (c-q%c) L)).length = _
    rw [slice_length]
    omega

lemma readLoop_spec (start : Nat) {fuel : Nat} (hfu : L < fuel) (count : Int)
    (ho : Opened volume c k size self) (hq : self.readptr = q)
    (hL : L = min (n-q) (buf.limit-buf.position)) :
    ∃ (self' : StreamReader) (buf' : ReadBuffer),
      readLoop deflater volume start fuel L count self buf = ((buf'.setPosition start).bind fun b =>
          (b.setLimit (count+L)).map fun b => (count+L,self',b)) ∧
      buf'.array = buf.stored (slice content q L) ∧ buf'.position = buf.position+L ∧
      buf'.limit = buf.limit ∧ Opened volume c k size self' ∧
      self'.readptr = (q+L : Nat) := by
  induction fuel generalizing L count self buf q with
  | zero => omega
  | succ fuel ih =>
    rw [readLoop]
    by_cases hps : 0 < L
    · obtain ⟨a,next,buf',ha,hal,hr,har,hp,hl,hopd,hpt⟩ :=
        partialRead_spec hs hn hle ho hq (by omega) hL hps
      have hln : (slice content q a).length = a := by
        rw [slice_length]
        omega
      have hopd' : Opened volume c k size {next with readptr := next.readptr+a} :=
        ⟨hopd.chunkSize,hopd.chunksInSegment,hopd.compression,hopd.size,hopd.kept⟩
      have hpt' : next.readptr+a = (q+a : Nat) := by rw [hpt]; rfl
      have hL' : L-a = min (n-(q+a)) (buf'.limit-buf'.position) := by omega
      obtain ⟨self',final,hlp,hfnl,hfi,hfn,hf,hfin⟩ := ih (by omega) (count+a) hopd' hpt' hL'
      have hrs : (L : Int)-a = (L-a : Nat) := by omega
      have hc : count+(a : Int)+(L-a : Nat) = count+L := by omega
      have hsl : slice content q a ++ slice content (q+a) (L-a) = slice content q L := by
        rw [slice,slice,slice,← drop_drop,← take_add,Nat.add_sub_cancel' hal]
      refine ⟨self',final,?_,?_,by omega,hfn.trans hl,hf,?_⟩
      · rw [if_pos (by omega),hr,bind_some,if_neg (by omega)]
        simp only [hrs]
        rw [hlp,hc]
      · rw [hfnl,ReadBuffer.stored_append (by omega) har (by omega),hsl]
      · omega
    · have hz : L = 0 := by omega
      subst hz
      refine ⟨self,buf,?_,?_,rfl,rfl,ho,?_⟩
      · simp
      · rw [slice,take_zero,ReadBuffer.stored_nil]
      · rw [hq]
        rfl

/-- A whole read of a stream of `n` bytes, or as many as the size says. The limit is what was read,
not where it ends. -/
lemma read_spec (ho : Opened volume c k size self) {p : Nat} (hp : p < n) (buf : ReadBuffer)
    {m : Nat} (hm : m = min (buf.limit-buf.position) (n-p)) :
    ∃ (self' : StreamReader) (buf' : ReadBuffer),
      (self.seek p).read deflater volume buf = some ((m : Int),self',buf') ∧
      buf'.array = buf.stored (slice content p m) ∧ buf'.position = min buf.position m ∧
      buf'.limit = m ∧ Opened volume c k size self' ∧ self'.readptr = (p+m : Nat) := by
  have hsz : (self.seek p).size = n := by rw [seek,ho.size,hn]
  have hpt : (self.seek p).readptr = p := rfl
  have hopd : Opened volume c k size (self.seek p) :=
    ⟨ho.chunkSize,ho.chunksInSegment,ho.compression,ho.size,ho.kept⟩
  have hb := toInt_bounds size
  have hlm := buf.limit_le
  have hps := buf.position_le
  have hl : toInt (min ((n : Int)-p) (buf.limit-buf.position)) = (m : Int) := by
    rw [toInt_of_lt (by omega) (by omega)]
    omega
  have hm' : m = min (n-p) (buf.limit-buf.position) := by omega
  obtain ⟨self',full,hlp,ha,hf,hfl,hopd',hpt'⟩ :=
    readLoop_spec hs hn hle buf.position (Nat.lt_succ_self m) 0 hopd hpt hm'
  have hr : (slice content p m).length = m := by
    rw [slice_length]
    omega
  have hfu : full.array.length = buf.array.length := by
    rw [ha,ReadBuffer.stored_length (by omega)]
  rw [read,hsz,hpt,if_neg (by omega)]
  simp only [hl,toNat_natCast]
  rw [hlp,zero_add,ReadBuffer.setPosition_setLimit (by omega) (by omega)]
  exact ⟨self',_,rfl,ha,rfl,rfl,hopd',hpt'⟩

end

lemma read_end (deflater : Deflater) (volume : List Bevvy) (h : self.size = self.readptr)
    (buf : ReadBuffer) : self.read deflater volume buf = some (-1,self,buf) := by
  rw [read,if_pos (by omega)]

lemma read_past (deflater : Deflater) (volume : List Bevvy) (h : self.size < self.readptr)
    (hle : self.readptr-2^31 ≤ self.size) (buf : ReadBuffer) :
    ∃ buf', self.read deflater volume buf = some (0,self,buf') ∧ buf'.array = buf.array ∧
      buf'.position = 0 ∧ buf'.limit = 0 := by
  have hp := buf.position_le
  have hn : toInt (min (self.size-self.readptr) (buf.limit-buf.position)) < 0 := by
    rw [toInt_of_lt (by omega) (by omega)]
    omega
  rw [read,if_neg (by omega)]
  rw [readLoop,if_neg (not_lt.mpr (le_of_lt hn))]
  exact ⟨_,ReadBuffer.setPosition_setLimit (m := 0) hp (Nat.zero_le _) _,rfl,Nat.min_zero _,rfl⟩

lemma copyChunk_negative (deflater : Deflater) (hc : self.compression ≠ 0)
    {thisBevvy chunkInBevy chunkOffset available : Int}
    (h : thisBevvy < 0 ∨ chunkInBevy < 0 ∨ chunkOffset < 0) (buf : ReadBuffer) :
    copyChunk deflater volume self thisBevvy chunkInBevy chunkOffset available buf = none := by
  refine bind_eq_none_iff.mpr fun offset ho => bind_eq_none_iff.mpr fun offsetEnd _ =>
    bind_eq_none_iff.mpr fun b hb => ?_
  have hn : (b.number : Int) = thisBevvy := by simpa using find?_some hb
  have hin : ¬ chunkInBevy < 0 := by
    intro hng
    rw [getOffset,if_pos hng] at ho
    cases ho
  have hp : ∀ bytes, buf.put bytes chunkOffset available = none := fun bytes => if_neg (by omega)
  simp [hc,hp]

/-- There is no chunk before the start, and the exception is caught. -/
lemma partialRead_before {c k : Nat} (ho : Opened volume c k size self) (hc : 0 < c)
    (hk : 0 < k) (ha : 0 < a) (hle : a ≤ 2^31) (hp : self.readptr = -a) (hsi : 0 ≤ self.size)
    (deflater : Deflater) (buf : ReadBuffer) :
    ∃ self', partialRead deflater volume self buf = some (-1,self',buf) := by
  have hint : ∀ n : Nat, n ≤ a → toInt (-(n : Int)) = -n :=
    fun n hn => toInt_of_lt (by omega) (by omega)
  have hid : toInt (self.readptr.tdiv c) = -((a/c : Nat) : Int) := by
    rw [hp,Int.neg_tdiv,← Int.ofNat_tdiv,hint _ (Nat.div_le_self a c)]
  have hof : toInt (self.readptr.tmod c) = -((a%c : Nat) : Int) := by
    rw [hp,Int.neg_tmod,← Int.ofNat_tmod,hint _ (Nat.mod_le a c)]
  have hng : -((a/c/k : Nat) : Int) < 0 ∨ -((a/c%k : Nat) : Int) < 0 ∨
      -((a%c : Nat) : Int) < 0 := by
    simp only [neg_lt_zero,natCast_pos]
    by_contra hz
    simp only [not_or,Nat.not_lt,Nat.le_zero] at hz
    have hch := Nat.div_add_mod (a/c) k
    rw [hz.1,hz.2.1,Nat.mul_zero] at hch
    have hsm := Nat.div_add_mod a c
    rw [← hch,hz.2.2,Nat.mul_zero] at hsm
    omega
  rw [partialRead,if_neg (by omega),ho.chunkSize,ho.chunksInSegment,if_neg (by omega)]
  simp only [hid,hof,Int.neg_tdiv,Int.neg_tmod,← Int.ofNat_tdiv,← Int.ofNat_tmod]
  cases hl : loadOffsets volume self (-((a/c/k : Nat) : Int)) with
  | none => exact ⟨_,rfl⟩
  | some loaded =>
    have hcm : loaded.compression ≠ 0 := by
      rw [loadOffsets] at hl
      split at hl
      · exact some.inj hl ▸ ho.compression
      · obtain ⟨b,-,hl⟩ := bind_eq_some_iff.mp hl
        dsimp only at hl
        split at hl
        · cases hl
        · exact some.inj hl ▸ ho.compression
    simp only [copyChunk_negative deflater hcm hng]
    exact ⟨_,rfl⟩

lemma read_before {c k : Nat} (ho : Opened volume c k size self) (hc : 0 < c)
    (hk : 0 < k) (ha : 0 < a) (hle : a ≤ 2^31) (hpt : self.readptr = -a) (hsi : 0 ≤ self.size)
    (deflater : Deflater) (buf : ReadBuffer) :
    ∃ n self' buf', self.read deflater volume buf = some (n,self',buf') ∧ (n = -1 ∨ n = 0) := by
  obtain ⟨self',hp⟩ := partialRead_before ho hc hk ha hle hpt hsi deflater buf
  rw [read,if_neg (by omega)]
  dsimp only
  rw [readLoop]
  split
  · rw [hp]
    exact ⟨-1,self',buf,rfl,.inl rfl⟩
  · exact ⟨0,self,_,ReadBuffer.setPosition_setLimit (m := 0) buf.position_le (Nat.zero_le _) _,
      .inr rfl⟩

end StreamReader

lemma opened_con (volume : List Bevvy) {c k : Nat} (hc : c < 2^31) (hk : k < 2^31) (size : Nat) :
    Opened volume c k size (.con (some c) (some k) (some size) (some 8)) := by
  have hcm : toInt 8 = 8 := toInt_of_lt (by omega) (by omega)
  constructor
  · simp only [StreamReader.con,StreamReader.literal_some,toInt_natCast hc]
  · simp only [StreamReader.con,StreamReader.literal_some,toInt_natCast hk]
  · simp only [StreamReader.con,StreamReader.literal_some,hcm]
    decide
  · simp only [StreamReader.con,StreamReader.literal_some]
  · exact .inl rfl

def oneByte : ReadBuffer := ⟨[0],0,1,by decide,by decide,by decide⟩

section

variable {deflater : Deflater} {volume : List Bevvy} {c k : Nat} {content : Bytes}
  {self : StreamReader}

/-- A read at most `2^31` behind the size is right if the buffer is at its start and what is read
ends before the size, or if nothing is asked for and the position is not the size. -/
lemma delivers_iff (hs : Stored deflater volume c k content)
    (ho : Opened volume c k content.length self) {p : Nat} (hlt : p < content.length)
    (hn : (p : Int)-2^31 ≤ toInt content.length) (buf : ReadBuffer) :
    Delivers deflater volume content self p buf ↔ buf.position = 0 ∧
      p ≠ toInt content.length ∧ (buf.limit = 0 ∨
        (p+min buf.limit (content.length-p) : Nat) ≤ toInt content.length) := by
  have hle := toInt_le content.length
  have hps := buf.position_le
  rcases lt_trichotomy (p : Int) (toInt content.length) with hlt | heq | hgt
  · obtain ⟨n,hsz⟩ := eq_ofNat_of_zero_le (show 0 ≤ toInt content.length by omega)
    obtain ⟨self',buf',hr,ha,hp,hl,-,hpt⟩ :=
      StreamReader.read_spec hs hsz (by omega) ho (by omega : p < n) buf rfl
    constructor
    · rintro ⟨self₂,buf₂,hr₂,-,-,hl₂,-⟩
      simp only [hr,Option.some.injEq,Prod.mk.injEq] at hr₂
      obtain ⟨hm,-,rfl⟩ := hr₂
      omega
    · rintro ⟨hz,-,h⟩
      have hm : min (buf.limit-buf.position) (n-p) =
          min (buf.limit-buf.position) (content.length-p) := by omega
      rw [hm] at hr ha hl hpt
      exact ⟨self',buf',hr,ha,by omega,by omega,hpt⟩
  · refine iff_of_false ?_ fun h => h.2.1 heq
    rintro ⟨self',buf',hr,-⟩
    rw [StreamReader.read_end deflater volume (show (self.seek p).size = p from
      ho.size.trans heq.symm)] at hr
    cases hr
  · obtain ⟨buf',hr,ha,hp,hl⟩ := StreamReader.read_past deflater volume
      (show (self.seek p).size < p from ho.size.trans_lt hgt) (le_of_le_of_eq hn ho.size.symm) buf
    constructor
    · rintro ⟨self₂,buf₂,hr₂,-,-,hl₂,-⟩
      simp only [hr,Option.some.injEq,Prod.mk.injEq] at hr₂
      obtain ⟨hm,-,rfl⟩ := hr₂
      omega
    · rintro ⟨hz,-,h⟩
      have hm : min (buf.limit-buf.position) (content.length-p) = 0 := by omega
      refine ⟨_,buf',by rw [hm]; exact hr,?_,by omega,by omega,by rw [hm]; rfl⟩
      rw [hm,ha,slice,take_zero,ReadBuffer.stored,append_nil,length_nil,Nat.add_zero,
        take_append_drop]

theorem read_delivers_iff (hs : Stored deflater volume c k content)
    (ho : Opened volume c k content.length self) :
    (content.length < 2^31 → ∀ p < content.length, ∀ buf,
      (Delivers deflater volume content self p buf ↔ buf.position = 0)) ∧
    ((∀ p < content.length, ∀ buf : ReadBuffer, buf.position = 0 →
      Delivers deflater volume content self p buf) ↔ content.length < 2^31) ∧
    ∀ p < content.length, (p : Int)-2^31 ≤ toInt content.length → ∀ buf,
      (Delivers deflater volume content self p buf ↔ buf.position = 0 ∧
        p ≠ toInt content.length ∧ (buf.limit = 0 ∨
          (p+min buf.limit (content.length-p) : Nat) ≤ toInt content.length)) := by
  have hshort (hsi : content.length < 2^31) (p) (hp : p < content.length) (buf) :
      Delivers deflater volume content self p buf ↔ buf.position = 0 := by
    have hn := toInt_natCast hsi
    rw [delivers_iff hs ho hp (by omega)]
    omega
  refine ⟨hshort,⟨fun ha => ?_,fun hsi p hp buf => (hshort hsi p hp buf).mpr⟩,
    fun p => delivers_iff hs ho⟩
  by_contra hl
  have hb := toInt_bounds content.length
  -- One byte where the size of the reader ends, or at the start if that is negative.
  have hp : (toInt content.length).toNat < content.length := by omega
  have h := (delivers_iff hs ho hp (by omega) _).mp (ha _ hp oneByte rfl)
  have hlm : oneByte.limit = 1 := rfl
  omega

end

def lettersVolume : List Bevvy := [⟨0,[65,66,67],[0,0,0,0,3,0,0,0,255,255,255,255]⟩]

lemma letters_stored : Stored plainDeflater lettersVolume 4 2 [65,66,67] := by
  refine ⟨by decide,by decide,by decide,by decide,fun i hi => ?_⟩
  have hz : i = 0 := by
    simp only [length_cons,length_nil] at hi
    omega
  subst hz
  exact ⟨_,rfl,by decide,by decide,by decide,by decide,rfl,by decide⟩

theorem read_delivers_iff_letters : Stored plainDeflater lettersVolume 4 2 [65,66,67] ∧
    ∀ p < 3, ∀ buf : ReadBuffer, buf.position = 0 → Delivers plainDeflater lettersVolume [65,66,67]
      (.con (some 4) (some 2) (some 3) (some 8)) p buf :=
  ⟨letters_stored,(read_delivers_iff letters_stored
    (opened_con lettersVolume (by decide) (by decide) 3)).2.1.mpr (by decide)⟩

/-- Two bytes are read to the second place of a buffer, which is then limited to two. -/
theorem read_second_place :
    ∃ self' buf', (StreamReader.seek (.con (some 4) (some 2) (some 3) (some 8)) 0).read
        plainDeflater lettersVolume ⟨[0,0,0],1,3,by decide,by decide,by decide⟩ =
          some (2,self',buf') ∧
      buf'.array = [0,65,66] ∧ buf'.position = 1 ∧ buf'.limit = 2 := by
  obtain ⟨self',buf',hr,ha,hp,hl,-⟩ := StreamReader.read_spec letters_stored
    (n := 3) (by decide) (by decide) (opened_con lettersVolume (by decide) (by decide) 3) (by decide : 0 < 3)
    ⟨[0,0,0],1,3,by decide,by decide,by decide⟩ rfl
  exact ⟨self',buf',hr,ha,hp,hl⟩

end Aff4.Java
