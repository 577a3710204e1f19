import Aff4.PacketStruct

/-! The dissection of IP packets with a TCP or UDP payload in pyflag (network.c and packet.c).
The input holds the `size` bytes of its buffer; a copy from outside of them has no result. -/

namespace Aff4.Pyflag

open LittleEndian Buffer List Function Nat

def numberStore : Code → Option (Bytes → Slot)
  | .char => some storeChar
  | .short => some storeShort
  | .shortLE => some storeShortLE
  | .int => some storeInt
  | .intLE => some storeIntLE
  | _ => none

def blank : List Code → Nat → Struct
  | [], _ => fun _ => none
  | code :: format, o => update (blank format (o+structSize code)) o
      ((numberStore code).map fun store => store [])

def ipFormat : List Code := [.char,.char,.short,.short,.short,.char,.char,.short,.int,.int]

def tcpFormat : List Code := [.short,.short,.int,.int,.char,.char,.short,.short]

def udpFormat : List Code := [.short,.short,.short,.short]

structure Header where
  result : Int
  start : Nat
  struct : Struct

def packetRead (format : List Code) (input : StringIO) : Option (Header × StringIO) :=
  (unpack format input (blank format 0)).map fun r => (⟨r.result,input.readptr,r.output⟩,r.input)

def Header.char (header : Header) (o : Nat) : Option UInt8 :=
  match header.struct o with
  | some (.byte b) => some b
  | _ => none

def Header.short (header : Header) (o : Nat) : Option UInt16 :=
  match header.struct o with
  | some (.half n) => some n
  | _ => none

def Header.int (header : Header) (o : Nat) : Option UInt32 :=
  match header.struct o with
  | some (.word n) => some n
  | _ => none

/-- `StringIO_seek` from the start. A position past the end makes the input as long; what this
adds may be anything, or not be there at all, and lies before the read pointer. -/
def seekSet (junk : Junk) (self : StringIO) (offset : Nat) : StringIO :=
  if self.data.length < offset then
    {self with data := overlay junk offset self.data, readptr := offset}
  else {self with readptr := offset}

def truncate (self : StringIO) (len : Nat) : StringIO :=
  {self with data := self.data.take len, readptr := min self.readptr len}

def cutTo (self : StringIO) (last : Nat) : StringIO :=
  if last < self.data.length then truncate self last else self

/-- `talloc_memdup` from the read pointer on. A negative length is a large one. -/
def memdupHere (self : StringIO) (len : Int) : Option (Option Bytes) :=
  let size := (len%2^64).toNat
  if tallocNamedConst size then (readAt self.data self.readptr size).map some else some none

structure Payload where
  result : Int
  dataOffset : Nat
  dataLen : Int
  data : Option Bytes
  input : StringIO

def maxPacketSize : Nat := 64*1024

def tcpRead (junk : Junk) (input : StringIO) : Option Payload :=
  (packetRead tcpFormat input).bind fun r => (r.1.char 12).bind fun b =>
    let size : Nat := r.2.data.length
    let doff := b.toNat/16
    let dataOffset := r.1.start+doff*4
    if size ≤ dataOffset then some ⟨size-r.1.start,dataOffset,0,none,r.2⟩
    else
      let input := seekSet junk r.2 dataOffset
      let dataLen : Int := min (input.data.length-input.readptr) maxPacketSize
      (memdupHere input dataLen).map fun data =>
        ⟨input.data.length-r.1.start,dataOffset,dataLen,data,input⟩

def udpRead (input : StringIO) : Option Payload :=
  (packetRead udpFormat input).bind fun r => (r.1.short 4).bind fun length =>
    let dataLen := min (length.toNat : Int) r.2.data.length-r.1.result
    (memdupHere r.2 dataLen).map fun data => ⟨length.toNat,r.1.start+8,dataLen,data,r.2⟩

structure IPPacket where
  result : Int
  src : UInt32
  dest : UInt32
  payload : Option Payload

def nextLayer (junk : Junk) (protocol : UInt8) : Option ( StringIO → Option Payload) :=
  if protocol = 0x6 then some (tcpRead junk)
  else if protocol = 0x11 then some udpRead
  else none

/-- The end of `IP_Read`: the payload is read from where the header says that it starts. -/
def payloadRead (junk : Junk) (header : Header) (src dest : UInt32) (input : StringIO)
    (read : StringIO → Option Payload) : Option IPPacket :=
  (header.char 0).bind fun b =>
  (addSize header.start (b.toNat%16*4)).bind fun first =>
  (read (seekSet junk input first)).map fun payload =>
    ⟨payload.input.readptr-header.start,src,dest,some payload⟩

/-- `IP_Read`. The sums with the start of the packet are of type `int`. -/
def ipRead (junk : Junk) (input : StringIO) : Option IPPacket :=
  (packetRead ipFormat input).bind fun r =>
  (r.1.int 12).bind fun src =>
  (r.1.int 16).bind fun dest =>
  (r.1.short 2).bind fun totLen =>
  (addSize r.1.start totLen.toNat).bind fun last =>
  (r.1.char 9).bind fun protocol =>
    match nextLayer junk protocol with
    | none => some ⟨r.1.result,src,dest,none⟩
    | some read => payloadRead junk r.1 src dest (cutTo r.2 last) read

def fieldBytes (bytes : Bytes) (o size : Nat) : Bytes :=
  if o+size ≤ bytes.length then slice bytes o size else []

section

variable {store : Bytes → Slot}

lemma unpackField_number {code : Code} (h : numberStore code = some store) :
    unpackField code = unpackNumber (structSize code) store := by
  cases code <;> cases h <;> rfl

lemma structSize_lt (code : Code) : structSize code < 2^32 := by
  cases code <;> decide

variable {format : List Code} {io : StringIO}

lemma unpackLoop_numbers (hn : ∀ code ∈ format, (numberStore code).isSome) (h : Ready io)
    (offset : Nat) (hsz : offset+totalSize format < 2^31) (before : Struct) :
    ∃ back, unpackLoop format offset io before = some back ∧
      back.input = advance io (min (totalSize format) (rest io).length) ∧
      (back.result = if totalSize format ≤ (rest io).length then (offset+totalSize format : Int)
        else -1) ∧
      (∀ i < offset, back.output i = before i) ∧
      ∀ {pre post : List Code} {code : Code} {store : Bytes → Slot},
        format = pre ++ code :: post → numberStore code = some store →
        back.output (offset+totalSize pre) =
          if totalSize pre+structSize code ≤ (rest io).length then
            some (store (slice (rest io) (totalSize pre) (structSize code)))
          else before (offset+totalSize pre) := by
  induction format generalizing io offset before with
  | nil =>
    refine ⟨_,rfl,rfl,?_,fun _ _ => rfl,?_⟩
    · simp [totalSize]
    · intro pre post code store hnl
      cases pre <;> cases hnl
  | cons code format ih =>
    obtain ⟨store,hs⟩ := Option.isSome_iff_exists.mp (hn code mem_cons_self)
    rw [totalSize_cons] at hsz ⊢
    rw [unpackLoop,unpackField_number hs]
    by_cases hle : structSize code ≤ (rest io).length
    · rw [unpackNumber_eq h (structSize_lt code) hle,Option.bind_some,if_neg (by simp),
        Int.toNat_natCast,addSize_eq_some (by omega),Option.bind_some]
      obtain ⟨back,hb,hinp,hr,hfr,hfls⟩ :=
        ih (fun c hc => hn c (mem_cons_of_mem code hc)) (h.advance hle)
          (offset+structSize code) (by omega)
          (update before offset (some (store ((rest io).take (structSize code)))))
      rw [rest_advance,length_drop] at hinp hr
      refine ⟨back,hb,?_,?_,?_,?_⟩
      · rw [hinp,advance,advance,advance,add_assoc]
        congr 2
        omega
      · rw [hr]
        split <;> split <;> omega
      · intro i hi
        rw [hfr i (by omega),update_of_ne (by omega)]
      · intro pre post code' store' hf hs'
        cases pre with
        | nil =>
          obtain ⟨rfl,rfl⟩ := cons.inj hf
          rw [hs] at hs'
          cases hs'
          rw [totalSize,map_nil,sum_nil,add_zero,hfr _ (by
            have := structSize_pos code; omega),update_self,zero_add,if_pos hle,slice,drop_zero]
        | cons first pre =>
          obtain ⟨rfl,ht⟩ := cons.inj hf
          have hfl := hfls ht hs'
          rw [rest_advance,length_drop,slice,drop_drop] at hfl
          rw [totalSize_cons,← add_assoc,hfl,update_of_ne (by
            have := structSize_pos code; omega),slice]
          by_cases hin : structSize code+totalSize pre+structSize code' ≤ (rest io).length
          · rw [if_pos hin,if_pos (by omega)]
          · rw [if_neg hin,if_neg (by omega)]
    · have hsh := not_le.mp hle
      rw [unpackNumber_short h (structSize_lt code) hsh,Option.bind_some,
        if_pos (show (-1 : Int) < 0 by decide)]
      refine ⟨_,rfl,?_,?_,fun _ _ => rfl,?_⟩
      · rw [min_eq_right (by omega)]
      · rw [if_neg (by omega)]
      · intro pre post code' store' hf hs'
        cases pre with
        | nil =>
          obtain ⟨rfl,rfl⟩ := cons.inj hf
          rw [totalSize,map_nil,sum_nil,zero_add,if_neg hle]
        | cons first pre =>
          obtain ⟨rfl,-⟩ := cons.inj hf
          rw [totalSize_cons,if_neg (by omega)]

lemma blank_field (pre post : List Code) (code : Code) (o : Nat) :
    blank (pre ++ code :: post) o (o+totalSize pre) =
      (numberStore code).map fun store => store [] := by
  induction pre generalizing o with
  | nil => exact update_self ..
  | cons first pre ih =>
    have hp := structSize_pos first
    rw [cons_append,blank,totalSize_cons,update_of_ne (by omega),← add_assoc]
    exact ih _

lemma packetRead_numbers (hn : ∀ code ∈ format, (numberStore code).isSome) (h : Ready io)
    (hsz : totalSize format < 2^31) : ∃ header : Header, packetRead format io = some
        (header,advance io (min (totalSize format) (rest io).length)) ∧
      header.start = io.readptr ∧
      (header.result = if totalSize format ≤ (rest io).length then (totalSize format : Int)
        else -1) ∧
      ∀ (pre post : List Code) {code : Code} {store : Bytes → Slot},
        format = pre ++ code :: post → numberStore code = some store →
        header.struct (totalSize pre) =
          some (store (fieldBytes (rest io) (totalSize pre) (structSize code))) := by
  obtain ⟨back,hbk,hi,hr,-,hfls⟩ := unpackLoop_numbers hn h 0 (by omega) (blank format 0)
  refine ⟨⟨back.result,io.readptr,back.output⟩,?_,rfl,?_,?_⟩
  · rw [packetRead,unpack,hbk,Option.map_some,hi]
  · simpa using hr
  · intro pre post code store hf hs
    have hfl := hfls hf hs
    rw [zero_add] at hfl
    refine hfl.trans ?_
    rw [fieldBytes]
    split
    · rfl
    · have hb := blank_field pre post code 0
      rw [hs,← hf,zero_add] at hb
      exact hb

end

def charField (bytes : Bytes) (o : Nat) : UInt8 := UInt8.ofNat (leNat (fieldBytes bytes o 1))

def shortField (bytes : Bytes) (o : Nat) : UInt16 :=
  UInt16.ofNat (leNat (fieldBytes bytes o 2).reverse)

def intField (bytes : Bytes) (o : Nat) : UInt32 :=
  UInt32.ofNat (leNat (fieldBytes bytes o 4).reverse)

/-- The length lies inside the input after the header, and what was copied stands there. -/
def Contained (p : Payload) : Prop :=
  0 ≤ p.dataLen ∧ p.dataLen ≤ (p.input.data.length-p.dataOffset : Nat) ∧
    ∀ bytes, p.data = some bytes →
      bytes = slice p.input.data p.dataOffset p.dataLen.toNat ∧
        p.dataOffset+p.dataLen ≤ p.input.data.length

/-- The datagram holds its header and as many bytes as its length field says, or all of an input
of `size` bytes. -/
def UDPFits (datagram : Bytes) (size : Nat) : Prop :=
  8 ≤ datagram.length ∧ 8 ≤ (shortField datagram 4).toNat ∧
    min (shortField datagram 4).toNat size ≤ datagram.length

variable {header : Header} {bytes : Bytes}

variable {o : Nat}

lemma Header.char_eq (h : header.struct o = some (storeChar bytes)) :
    header.char o = some (UInt8.ofNat (leNat bytes)) := by
  rw [Header.char,h]
  rfl

lemma Header.short_eq (h : header.struct o = some (storeShort bytes)) :
    header.short o = some (UInt16.ofNat (leNat bytes.reverse)) := by
  rw [Header.short,h]
  rfl

lemma Header.int_eq (h : header.struct o = some (storeInt bytes)) :
    header.int o = some (UInt32.ofNat (leNat bytes.reverse)) := by
  rw [Header.int,h]
  rfl

section

variable {io : StringIO}

variable {len : Nat}

lemma memdupHere_eq (io : StringIO) (hl : len < maxTallocSize) :
    memdupHere io len = (readAt io.data io.readptr len).map some := by
  have hm : ((len : Int)%2^64).toNat = len := by
    have hs : len < 2^28 := hl
    rw [Int.emod_eq_of_lt (by omega) (by omega)]
    rfl
  simp only [memdupHere,hm]
  rw [if_pos (by simpa [tallocNamedConst] using hl)]

lemma memdupHere_of_le (hl : len < maxTallocSize) (hle : io.readptr+len ≤ io.data.length) :
    memdupHere io len = some (some (slice io.data io.readptr len)) := by
  rw [memdupHere_eq io hl,readAt_of_le hle]
  rfl

lemma memdupHere_of_lt (io : StringIO) (hl : len < maxTallocSize)
    (hlt : io.data.length < io.readptr+len) : memdupHere io len = none := by
  rw [memdupHere_eq io hl,readAt,if_neg (by omega)]
  rfl

lemma seekSet_of_le (junk : Junk) {offset : Nat} (h : offset ≤ io.data.length) :
    seekSet junk io offset = {io with readptr := offset} := if_neg (not_lt.mpr h)

lemma tcpHeader (h : Ready io) : ∃ header : Header,
    packetRead tcpFormat io = some (header,advance io (min 18 (rest io).length)) ∧
      header.start = io.readptr ∧ header.char 12 = some (charField (rest io) 12) := by
  have hn : ∀ code ∈ tcpFormat, (numberStore code).isSome := by decide
  obtain ⟨header,hr,hs,-,hf⟩ := packetRead_numbers hn h (by decide)
  exact ⟨header,hr,hs,Header.char_eq (hf [.short,.short,.int,.int] [.char,.short,.short] rfl rfl)⟩

lemma udpHeader (h : Ready io) : ∃ header : Header,
    packetRead udpFormat io = some (header,advance io (min 8 (rest io).length)) ∧
      header.start = io.readptr ∧ (header.result = if 8 ≤ (rest io).length then 8 else -1) ∧
      header.short 4 = some (shortField (rest io) 4) := by
  have hn : ∀ code ∈ udpFormat, (numberStore code).isSome := by decide
  obtain ⟨header,hrd,hs,hr,hf⟩ := packetRead_numbers hn h (by decide)
  exact ⟨header,hrd,hs,hr,Header.short_eq (hf [.short,.short] [.short] rfl rfl)⟩

lemma ipHeader (h : Ready io) : ∃ header : Header,
    packetRead ipFormat io = some (header,advance io (min 20 (rest io).length)) ∧
      header.start = io.readptr ∧ header.char 0 = some (charField (rest io) 0) ∧
      header.short 2 = some (shortField (rest io) 2) ∧
      header.char 9 = some (charField (rest io) 9) ∧ header.int 12 = some (intField (rest io) 12) ∧
      header.int 16 = some (intField (rest io) 16) := by
  have hn : ∀ code ∈ ipFormat, (numberStore code).isSome := by decide
  obtain ⟨header,hr,hs,-,hf⟩ := packetRead_numbers hn h (by decide)
  exact ⟨header,hr,hs,Header.char_eq (hf [] _ rfl rfl),Header.short_eq (hf [.char,.char] _ rfl rfl),
    Header.char_eq (hf [.char,.char,.short,.short,.short,.char] _ rfl rfl),
    Header.int_eq (hf [.char,.char,.short,.short,.short,.char,.char,.short] _ rfl rfl),
    Header.int_eq (hf [.char,.char,.short,.short,.short,.char,.char,.short,.int] _ rfl rfl)⟩

lemma tcpRead_contained (junk : Junk) (h : Ready io) :
    ∃ p, tcpRead junk io = some p ∧ Contained p := by
  obtain ⟨header,hr,hst,hc⟩ := tcpHeader h
  have hd : (advance io (min 18 (rest io).length)).data = io.data := rfl
  rw [tcpRead,hr,Option.bind_some,hc,Option.bind_some]
  simp only [hd]
  generalize header.start+(charField (rest io) 12).toNat/16*4 = dataOffset
  by_cases hle : io.data.length ≤ dataOffset
  · rw [if_pos hle]
    exact ⟨_,rfl,Int.le_refl 0,Int.natCast_nonneg _,fun bytes hb => by cases hb⟩
  · have hlt := not_le.mp hle
    have hl : min ((io.data.length : Int)-dataOffset) maxPacketSize =
        (min (io.data.length-dataOffset) maxPacketSize : Nat) := by omega
    have hm : min (io.data.length-dataOffset) maxPacketSize < maxTallocSize :=
      lt_of_le_of_lt (min_le_right _ _) (by decide)
    have hs : seekSet junk (advance io (min 18 (rest io).length)) dataOffset =
        {io with readptr := dataOffset} := seekSet_of_le junk (le_of_lt hlt)
    rw [if_neg hle,hs]
    simp only [hl]
    rw [memdupHere_of_le hm (show dataOffset+_ ≤ io.data.length by omega)]
    refine ⟨_,rfl,Int.natCast_nonneg _,Int.ofNat_le.mpr (min_le_left _ _),?_⟩
    intro bytes hb
    cases hb
    refine ⟨rfl,?_⟩
    simp only
    omega

lemma udpRead_short (h : Ready io) (hs : (rest io).length < 8) : udpRead io = none := by
  obtain ⟨header,hrd,hst,hr,hl⟩ := udpHeader h
  have hrs := rest_length io
  have hsm := (shortField (rest io) 4).toNat_lt
  have hm : (2 : Nat)^16+1 < maxTallocSize := by decide
  rw [udpRead,hrd,Option.bind_some,hl,Option.bind_some,hr,if_neg (by omega),
    min_eq_right (le_of_lt hs)]
  generalize (shortField (rest io) 4).toNat = length at hsm ⊢
  have hln : min (length : Int) (advance io (rest io).length).data.length-(-1) =
      (min length (advance io (rest io).length).data.length+1 : Nat) := by omega
  have hn := memdupHere_of_lt (advance io (rest io).length)
    (show min length (advance io (rest io).length).data.length+1 < _ by omega)
    (show io.data.length < io.readptr+(rest io).length+_ by omega)
  rw [hln]
  exact congrArg (Option.map _) hn

lemma udpRead_contained_iff (h : Ready io) :
    (∃ p, udpRead io = some p ∧ Contained p) ↔ UDPFits (rest io) io.data.length := by
  by_cases hh : 8 ≤ (rest io).length
  case neg =>
    refine iff_of_false ?_ fun h => hh h.1
    rw [udpRead_short h (not_le.mp hh)]
    rintro ⟨p,hp,-⟩
    cases hp
  obtain ⟨header,hrd,hst,hr,hs⟩ := udpHeader h
  have hd : (advance io (min 8 (rest io).length)).data = io.data := rfl
  have hl := rest_length io
  have hsm := (shortField (rest io) 4).toNat_lt
  rw [udpRead,hrd,Option.bind_some,hs,Option.bind_some,hst,hr,UDPFits]
  simp only [hd]
  generalize (shortField (rest io) 4).toNat = length at hsm ⊢
  have hm : (2 : Nat)^16 < maxTallocSize := by decide
  rw [if_pos hh,min_eq_left hh]
  by_cases hps : 8 ≤ length
  · have hln : min (length : Int) io.data.length-8 = (min length io.data.length-8 : Nat) := by
      omega
    rw [hln]
    by_cases hf : min length io.data.length ≤ (rest io).length
    · refine iff_of_true ?_ ⟨hh,hps,hf⟩
      rw [memdupHere_of_le (by omega) (show io.readptr+8+_ ≤ io.data.length by omega)]
      refine ⟨_,rfl,Int.natCast_nonneg _,Int.ofNat_le.mpr ?_,?_⟩
      · change _ ≤ io.data.length-(io.readptr+8)
        omega
      · intro bytes hb
        cases hb
        refine ⟨rfl,?_⟩
        change ((io.readptr+8 : Nat) : Int)+(min length io.data.length-8 : Nat) ≤ io.data.length
        omega
    · refine iff_of_false ?_ fun h => hf h.2.2
      rw [memdupHere_of_lt (advance io 8) (by omega) (show io.data.length < io.readptr+8+_ by omega)]
      rintro ⟨p,hp,-⟩
      cases hp
  · refine iff_of_false ?_ fun h => hps h.2.1
    rintro ⟨p,hp,hle,-⟩
    obtain ⟨data,-,rfl⟩ := Option.map_eq_some_iff.mp hp
    simp only at hle
    omega

end

/-- The packet ends where an `int` can say it does, its payload starts so too, and a UDP payload
has a header and the length that this gives. -/
def Sized (io : StringIO) : Prop :=
  let protocol := charField (rest io) 9
  let last := io.readptr+(shortField (rest io) 2).toNat
  let first := io.readptr+(charField (rest io) 0).toNat%16*4
  last < 2^31 ∧ (protocol = 6 ∨ protocol = 0x11 → first < 2^31) ∧
    (protocol = 0x11 → UDPFits ((io.data.take last).drop first) (min io.data.length last))

section

variable {io : StringIO}

lemma cutTo_data (io : StringIO) (last : Nat) : (cutTo io last).data = io.data.take last := by
  rw [cutTo]
  split
  · rfl
  · next hle => rw [take_of_length_le (not_lt.mp hle)]

lemma seekSet_data (junk : Junk) (io : StringIO) (offset : Nat) : (seekSet junk io offset).data =
      if io.data.length < offset then overlay junk offset io.data else io.data := by
  rw [seekSet]
  split <;> rfl

lemma seekSet_readptr (junk : Junk) (io : StringIO) (offset : Nat) :
    (seekSet junk io offset).readptr = offset := by
  rw [seekSet]
  split <;> rfl

variable {junk : Junk} {protocol : UInt8}

lemma overlay_length {size : Nat} {data : Bytes} (h : data.length ≤ size) :
    (overlay junk size data).length = size := by
  rw [overlay,length_append,length_map,length_range]
  omega

lemma seekSet_ready (junk : Junk) (h : io.data.length < 2^31) {offset : Nat}
    (ho : offset < 2^31) : Ready (seekSet junk io offset) := by
  constructor
  · rw [seekSet_readptr,seekSet_data]
    split
    · next hlt => rw [overlay_length (le_of_lt hlt)]
    · next hle => exact not_lt.mp hle
  · rw [seekSet_data]
    split
    · next hlt => rwa [overlay_length (le_of_lt hlt)]
    · exact h

lemma seekSet_rest (junk : Junk) (io : StringIO) (offset : Nat) :
    rest (seekSet junk io offset) = io.data.drop offset := by
  rw [rest,seekSet_readptr,seekSet_data]
  split
  · next hlt =>
    rw [drop_eq_nil_of_le (by rw [overlay_length (le_of_lt hlt)]),drop_eq_nil_of_le (le_of_lt hlt)]
  · rfl

lemma udpFits_seekSet (junk : Junk) (io : StringIO) (offset : Nat) :
    UDPFits (rest (seekSet junk io offset)) (seekSet junk io offset).data.length ↔
      UDPFits (io.data.drop offset) io.data.length := by
  rw [seekSet_rest,seekSet_data]
  by_cases hlt : io.data.length < offset
  · rw [drop_eq_nil_of_le (le_of_lt hlt)]
    exact iff_of_false (fun h => absurd h.1 (by decide)) fun h => absurd h.1 (by decide)
  · rw [if_neg hlt]

lemma nextLayer_cases {read : StringIO → Option Payload}
    (h : nextLayer junk protocol = some read) :
    protocol = 0x6 ∧ read = tcpRead junk ∨ protocol = 0x11 ∧ read = udpRead := by
  rw [nextLayer] at h
  split at h
  · next ht => exact .inl ⟨ht,(Option.some.inj h).symm⟩
  · split at h
    · next hu => exact .inr ⟨hu,(Option.some.inj h).symm⟩
    · cases h

lemma nextLayer_none (h : nextLayer junk protocol = none) :
    protocol ≠ 0x6 ∧ protocol ≠ 0x11 := by
  rw [nextLayer] at h
  split at h
  · cases h
  · next ht =>
    split at h
    · cases h
    · next hu => exact ⟨ht,hu⟩

lemma payloadRead_contained_iff (junk : Junk) {header : Header} (src dest : UInt32)
    (input : StringIO) (read : StringIO → Option Payload) {b : UInt8}
    (hi : header.char 0 = some b) : (∃ ip, payloadRead junk header src dest input read = some ip ∧
      ∀ p, ip.payload = some p → Contained p) ↔
    header.start+b.toNat%16*4 < 2^31 ∧
      ∃ p, read (seekSet junk input (header.start+b.toNat%16*4)) = some p ∧ Contained p := by
  rw [payloadRead,hi,Option.bind_some]
  by_cases hf : header.start+b.toNat%16*4 < 2^31
  · rw [addSize_eq_some hf,Option.bind_some]
    constructor
    · rintro ⟨ip,hip,hc⟩
      obtain ⟨p,hp,rfl⟩ := Option.map_eq_some_iff.mp hip
      exact ⟨hf,p,hp,hc p rfl⟩
    · rintro ⟨-,p,hp,hc⟩
      refine ⟨_,by rw [hp]; rfl,?_⟩
      intro p' hp'
      cases hp'
      exact hc
  · rw [addSize_eq_none (not_lt.mp hf)]
    refine iff_of_false ?_ fun hr => hf hr.1
    rintro ⟨ip,hip,-⟩
    cases hip

/-- When the payload of an IP packet is taken from inside the input. -/
theorem ipRead_contained_iff (junk : Junk) (io : StringIO) (h : Ready io) :
    (∃ ip, ipRead junk io = some ip ∧ ∀ p, ip.payload = some p → Contained p) ↔ Sized io := by
  obtain ⟨header,hre,hs,hi,ht,hpr,hsr,hd⟩ := ipHeader h
  have hc : ∀ last, (cutTo (advance io (min 20 (rest io).length)) last).data =
      io.data.take last := fun last => cutTo_data _ last
  have hrd : ∀ last first, first < 2^31 →
      Ready (seekSet junk (cutTo (advance io (min 20 (rest io).length)) last) first) := by
    intro last first hf
    refine seekSet_ready junk ?_ hf
    rw [hc,length_take]
    exact lt_of_le_of_lt (min_le_right _ _) h.size
  rw [ipRead,hre,Option.bind_some,hsr,Option.bind_some,hd,Option.bind_some,ht,
    Option.bind_some,hs,Sized]
  by_cases hint : io.readptr+(shortField (rest io) 2).toNat < 2^31
  · rw [addSize_eq_some hint,Option.bind_some,hpr,Option.bind_some]
    generalize io.readptr+(shortField (rest io) 2).toNat = last at hint ⊢
    generalize charField (rest io) 9 = protocol
    cases hly : nextLayer junk protocol with
    | none =>
      obtain ⟨htc,hu⟩ := nextLayer_none hly
      refine iff_of_true ⟨_,rfl,fun p hp => by cases hp⟩ ⟨hint,?_,fun h' => absurd h' hu⟩
      rintro (h' | h')
      · exact absurd h' htc
      · exact absurd h' hu
    | some read =>
      refine (payloadRead_contained_iff junk _ _ _ read hi).trans ?_
      rw [hs]
      generalize io.readptr+(charField (rest io) 0).toNat%16*4 = first
      rcases nextLayer_cases hly with ⟨rfl,rfl⟩ | ⟨rfl,rfl⟩
      · constructor
        · exact fun hl => ⟨hint,fun _ => hl.1,fun hu => absurd hu (by decide)⟩
        · intro hr
          have hf := hr.2.1 (.inl rfl)
          exact ⟨hf,tcpRead_contained junk (hrd last first hf)⟩
      · have hu : first < 2^31 → ((∃ p, udpRead (seekSet junk
            (cutTo (advance io (min 20 (rest io).length)) last) first) = some p ∧ Contained p) ↔
            UDPFits ((io.data.take last).drop first) (min io.data.length last)) := by
          intro hf
          rw [udpRead_contained_iff (hrd last first hf),udpFits_seekSet,hc,length_take,min_comm]
        constructor
        · exact fun hl => ⟨hint,fun _ => hl.1,fun _ => (hu hl.1).mp hl.2⟩
        · intro hr
          have hf := hr.2.1 (.inr rfl)
          exact ⟨hf,(hu hf).mpr (hr.2.2 rfl)⟩
  · rw [addSize_eq_none (not_lt.mp hint)]
    refine iff_of_false ?_ fun hsz => hint hsz.1
    rintro ⟨ip,hip,-⟩
    cases hip

end

def bareHeader (protocol totLen : UInt8) : Bytes :=
  [0x45,0,0,totLen,0,0,0,0,64,protocol,0,0,10,0,0,1,10,0,0,2]

/-- A UDP packet of three bytes. -/
def datagram : Bytes := bareHeader 0x11 31 ++ [0,53,0,53,0,11,0,0] ++ [1,2,3]

theorem ipRead_contained_iff_udp : Ready (ofBytes datagram) ∧
    (∀ junk, ∃ ip, ipRead junk (ofBytes datagram) = some ip ∧
      ∀ p, ip.payload = some p → Contained p) ∧
    ((ipRead (fun _ => 0) (ofBytes datagram)).bind fun ip => ip.payload.bind Payload.data) =
      some [1,2,3] := by
  have h : Ready (ofBytes datagram) := ⟨by decide,by decide⟩
  refine ⟨h,fun junk => (ipRead_contained_iff junk _ h).mpr ⟨?_,fun _ => ?_,fun _ => ?_⟩,?_⟩
  · decide +kernel
  · decide +kernel
  · rw [UDPFits]
    decide +kernel
  · decide +kernel

/-- A UDP packet without its header. -/
theorem ipRead_bareHeader_udp :
    Ready (ofBytes (bareHeader 0x11 20)) ∧
      ∀ junk, ipRead junk (ofBytes (bareHeader 0x11 20)) = none := by
  have h : Ready (ofBytes (bareHeader 0x11 20)) := ⟨by decide,by decide⟩
  refine ⟨h,fun junk => ?_⟩
  obtain ⟨header,hr,hs,hi,ht,hp,hsr,hd⟩ := ipHeader h
  have hl : nextLayer junk 0x11 = some udpRead := rfl
  have hf : (shortField (rest (ofBytes (bareHeader 0x11 20))) 2).toNat = 20 ∧
      charField (rest (ofBytes (bareHeader 0x11 20))) 9 = 0x11 ∧
      charField (rest (ofBytes (bareHeader 0x11 20))) 0 = 0x45 := by decide +kernel
  rw [ipRead,hr,Option.bind_some,hsr,Option.bind_some,hd,Option.bind_some,ht,
    Option.bind_some,hs,hf.1,addSize_eq_some (by decide),Option.bind_some,hp,
    hf.2.1,Option.bind_some,hl]
  change payloadRead _ _ _ _ _ udpRead = none
  rw [payloadRead,hi,hf.2.2,Option.bind_some,hs,addSize_eq_some (by decide),
    Option.bind_some,udpRead_short]
  · rfl
  · refine seekSet_ready junk ?_ (by decide)
    exact (by decide : ((bareHeader 0x11 20).take 20).length < 2^31)
  · exact (by decide : (((bareHeader 0x11 20).take 20).drop 20).length < 8)

end Aff4.Pyflag
