import Aff4.File
import Aff4.Lib.Buffer

/-! The packing of structures by a format string in pyflag (struct.c), on a little-endian host with
64-bit pointers. Access to memory that is not there has no result. -/

namespace Aff4.Pyflag

open LittleEndian Buffer List Function Nat

inductive Code where
  | char | short | int | stringNullTerm | stringAndLength | argvArray
  | stringAndLength32 | stringAndLengthLE32 | shortLE | intLE
  deriving DecidableEq, Repr

def structSize : Code → Nat
  | .char => 1
  | .short | .shortLE => 2
  | .int | .intLE => 4
  | .stringNullTerm => 8
  | .stringAndLength | .argvArray => 2+8
  | .stringAndLength32 | .stringAndLengthLE32 => 4+8

def addSize (total size : Nat) : Option Nat := (toInt (total+size)).map Int.toNat

def calcsize (format : List Code) : Option Nat :=
  format.foldlM (fun total code => addSize total (structSize code)) 0

/-- What stands at an offset of a structure. A pointer gives the bytes behind it, an array of
strings its pointers, of which NULL is none. -/
inductive Slot where
  | byte (b : UInt8)
  | half (n : UInt16)
  | word (n : UInt32)
  | pointer (block : Bytes)
  | array (entries : List (Option Bytes))
  deriving DecidableEq, Repr

abbrev Struct := Nat → Option Slot

def stringz (block : Bytes) : Option Bytes :=
  if 0 ∈ block then some (zstring (cstring block)) else none

/-- `Char_pack`, `Short_pack` and the like: the field is written as its bytes. -/
def packNumber (load : Slot → Option Bytes) (input : Struct) (o : Nat) (output : StringIO) :
    Option (Nat × StringIO) :=
  ((input o).bind load).bind fun bytes => (output.write bytes).map fun io => (bytes.length,io)

def loadChar : Slot → Option Bytes
  | .byte b => some [b]
  | _ => none

def loadShort : Slot → Option Bytes
  | .half n => some (le16 n).reverse
  | _ => none

def loadShortLE : Slot → Option Bytes
  | .half n => some (le16 n)
  | _ => none

def loadInt : Slot → Option Bytes
  | .word n => some (le32 n).reverse
  | _ => none

def loadIntLE : Slot → Option Bytes
  | .word n => some (le32 n)
  | _ => none

def loadBlock : Slot → Option Bytes
  | .pointer block => some block
  | _ => none

def loadArray : Slot → Option (List (Option Bytes))
  | .array entries => some entries
  | _ => none

def nullStringPack (input : Struct) (o : Nat) (output : StringIO) : Option (Nat × StringIO) :=
  (((input o).bind loadBlock).bind stringz).bind fun string =>
    (output.write string).map fun io => (8,io)

def Slot.length : Slot → Nat
  | .half n => n.toNat
  | .word n => n.toNat
  | _ => 0

def sizeStringPack (load : Slot → Option Bytes) (input : Struct) (o : Nat) (output : StringIO) :
    Option (Nat × StringIO) := do
  let slot ← input o
  let bytes ← load slot
  let output ← output.write bytes
  let block ← (input (o+bytes.length)).bind loadBlock
  let string ← readAt block 0 slot.length
  let output ← output.write string
  return (bytes.length+8,output)

def argvPackLoop : Nat → List (Option Bytes) → StringIO → Option StringIO
  | 0, _, output => some output
  | n+1, some block :: entries, output =>
    (stringz block).bind fun string => (output.write string).bind fun output =>
      argvPackLoop n entries output
  | _+1, _, _ => none

def argvArrayPack (input : Struct) (o : Nat) (output : StringIO) : Option (Nat × StringIO) := do
  let slot ← input o
  let bytes ← loadShort slot
  let output ← output.write bytes
  let entries ← (input (o+2)).bind loadArray
  let output ← argvPackLoop slot.length entries output
  return (2+8,output)

def packField : Code → Struct → Nat → StringIO → Option (Nat × StringIO)
  | .char => packNumber loadChar
  | .short => packNumber loadShort
  | .shortLE => packNumber loadShortLE
  | .int => packNumber loadInt
  | .intLE => packNumber loadIntLE
  | .stringNullTerm => nullStringPack
  | .stringAndLength => sizeStringPack loadShort
  | .stringAndLength32 => sizeStringPack loadInt
  | .stringAndLengthLE32 => sizeStringPack loadIntLE
  | .argvArray => argvArrayPack

def packLoop (input : Struct) : List Code → Nat → StringIO → Option (Nat × StringIO)
  | [], offset, output => some (offset,output)
  | code :: format, offset, output =>
    (packField code input offset output).bind fun r => (addSize offset r.1).bind fun offset =>
      packLoop input format offset r.2

def pack (format : List Code) (input : Struct) (output : StringIO) : Option (Nat × StringIO) :=
  packLoop input format 0 output

/-- `StringIO_read`. The sum with the read pointer is one of 64 bits. -/
def readInto (self : StringIO) (len : Int) : Option (Bytes × StringIO) :=
  let len := if (self.data.length : Int) < (self.readptr+len) % 2^64 then
    (self.data.length : Int)-self.readptr else len
  if 0 ≤ len then
    some (slice self.data self.readptr len.toNat,{self with readptr := self.readptr+len.toNat})
  else none

structure Unpacked where
  result : Int
  output : Struct
  input : StringIO

def unpackNumber (size : Nat) (store : Bytes → Slot) (input : StringIO) (output : Struct)
    (o : Nat) : Option Unpacked :=
  (readInto input size).map fun r =>
    if r.1.length < size then ⟨-1,output,r.2⟩
    else ⟨size,update output o (some (store r.1)),r.2⟩

def storeChar (bytes : Bytes) : Slot := .byte (UInt8.ofNat (leNat bytes))
def storeShortLE (bytes : Bytes) : Slot := .half (UInt16.ofNat (leNat bytes))
def storeShort (bytes : Bytes) : Slot := storeShortLE bytes.reverse
def storeIntLE (bytes : Bytes) : Slot := .word (UInt32.ofNat (leNat bytes))
def storeInt (bytes : Bytes) : Slot := storeIntLE bytes.reverse

def nullLoop : Nat → StringIO → StringIO → Option (Option Bytes × StringIO)
  | 0, _, _ => none
  | fuel+1, input, temp =>
    (readInto input 1).bind fun r =>
      match r.1 with
      | [] => some (none,r.2)
      | c :: _ => (temp.write [c]).bind fun temp =>
        if c = 0 then some (some temp.data,r.2) else nullLoop fuel r.2 temp

def nullStringUnpack (input : StringIO) (output : Struct) (o : Nat) : Option Unpacked :=
  (nullLoop (input.data.length+1) input .con).map fun r =>
    match r.1 with
    | some string => ⟨8,update output o (some (.pointer string)),r.2⟩
    | none => ⟨-1,output,r.2⟩

/-- The string is read to the block that was allocated for it. Nothing can be copied to NULL. -/
def copyString (size length : Nat) (len : Int) (null : Bool) (input : StringIO) (output : Struct)
    (o : Nat) : Option Unpacked :=
  (readInto input len).bind fun r =>
    if null ∧ r.1 ≠ [] then none
    else
      let output := update output (o+size) (some (.pointer r.1))
      some ⟨if r.1.length < length then -1 else (size+8 : Nat),output,r.2⟩

/-- `SizeString_unpack` and its variants. The length is read as an `int`. One of the three does
not look at what `talloc_size` returned. -/
def sizeStringUnpack (size : Nat) (store : Bytes → Slot) (checked : Bool) (input : StringIO)
    (output : Struct) (o : Nat) : Option Unpacked :=
  (readInto input size).bind fun r =>
    if r.1.length < size then some ⟨-1,output,r.2⟩
    else
      let output := update output o (some (store r.1))
      let length := (store r.1).length
      let null := !tallocNamedConst length
      if null && checked then some ⟨-1,output,r.2⟩
      else copyString size length (wrapInt length) null r.2 output o

/-- The loop of `ArgvArray_unpack`. A string that does not end in the input is read past it. -/
def argvUnpackLoop : Nat → StringIO → List (Option Bytes) → Option (List (Option Bytes) × StringIO)
  | 0, input, array => some (array ++ [none],input)
  | n+1, input, array =>
    (stringz (input.data.drop input.readptr)).bind fun string =>
      (tallocMemdup string).bind fun copy =>
        argvUnpackLoop n {input with readptr := input.readptr+string.length} (array ++ [some copy])

def argvArrayUnpack (input : StringIO) (output : Struct) (o : Nat) : Option Unpacked :=
  (readInto input 2).bind fun r =>
    if r.1.length < 2 then some ⟨-1,output,r.2⟩
    else
      let output := update output o (some (storeShort r.1))
      (argvUnpackLoop (storeShort r.1).length r.2 []).map fun a =>
        ⟨2+8,update output (o+2) (some (.array a.1)),a.2⟩

def unpackField : Code → StringIO → Struct → Nat → Option Unpacked
  | .char => unpackNumber 1 storeChar
  | .short => unpackNumber 2 storeShort
  | .shortLE => unpackNumber 2 storeShortLE
  | .int => unpackNumber 4 storeInt
  | .intLE => unpackNumber 4 storeIntLE
  | .stringNullTerm => nullStringUnpack
  | .stringAndLength => sizeStringUnpack 2 storeShort true
  | .stringAndLength32 => sizeStringUnpack 4 storeInt false
  | .stringAndLengthLE32 => sizeStringUnpack 4 storeIntLE true
  | .argvArray => argvArrayUnpack

def unpackLoop : List Code → Nat → StringIO → Struct → Option Unpacked
  | [], offset, input, output => some ⟨offset,output,input⟩
  | code :: format, offset, input, output =>
    (unpackField code input output offset).bind fun r =>
      if r.result < 0 then some {r with result := -1}
      else (addSize offset r.result.toNat).bind fun offset =>
        unpackLoop format offset r.input r.output

def unpack (format : List Code) (input : StringIO) (output : Struct) : Option Unpacked :=
  unpackLoop format 0 input output

variable {total : Nat}

lemma addSize_eq_some {size : Nat} (h : total+size < 2^31) :
    addSize total size = some (total+size) := by
  rw [addSize,toInt,if_pos (by omega)]
  rfl

lemma addSize_eq_none {size : Nat} (h : 2^31 ≤ total+size) : addSize total size = none := by
  rw [addSize,toInt,if_neg (by omega)]
  rfl

def totalSize (format : List Code) : Nat := (format.map structSize).sum

lemma totalSize_cons (code : Code) (format : List Code) :
    totalSize (code :: format) = structSize code+totalSize format := rfl

lemma calcsize_eq {format : List Code} (h : totalSize format < 2^31) :
    calcsize format = some (totalSize format) := by
  have hf : ∀ (format : List Code) (total : Nat), total+totalSize format < 2^31 →
      format.foldlM (fun total code => addSize total (structSize code)) total =
        some (total+totalSize format) := by
    intro format
    induction format with
    | nil => exact fun total _ => rfl
    | cons code format ih =>
      intro total hlt
      rw [totalSize_cons] at hlt ⊢
      rw [foldlM_cons,addSize_eq_some (by omega),← add_assoc]
      exact ih _ (by omega)
  rw [calcsize,hf format 0 (by omega),zero_add]

section

open StringIO (growth grow growth_snoc)

lemma growth_ones (n : Nat) : ∃ j, growth (replicate n 1) = 2^(10+j) ∧ n < 2^(10+j) ∧
    (j = 0 ∨ 2^(10+j) ≤ 2*n) := by
  induction n with
  | zero => exact ⟨0,rfl,by decide,.inl rfl⟩
  | succ n ih =>
    obtain ⟨j,hg,hlt,hle⟩ := ih
    have hs : (replicate n 1).sum = n := by simp
    rw [replicate_succ',growth_snoc,hg,hs,grow]
    by_cases hr : n+1 < 2^(10+j)
    · exact ⟨j,if_pos hr,hr,by omega⟩
    · refine ⟨j+1,?_,?_,.inr ?_⟩
      · rw [if_neg hr,← add_assoc 10 j 1,pow_succ]
        omega
      · rw [← add_assoc,pow_succ]
        omega
      · rw [← add_assoc,pow_succ]
        omega

lemma growth_ones_lt_iff (n : Nat) : growth (replicate n 1) < maxTallocSize ↔ n < 2^27 := by
  obtain ⟨j,hg,hlt,hle⟩ := growth_ones n
  have hm : maxTallocSize = 2^28 := by decide
  rw [hg,hm]
  constructor
  · intro h
    have hj : 10+j < 28 := (Nat.pow_lt_pow_iff_right (by decide)).mp h
    exact lt_of_lt_of_le hlt (Nat.pow_le_pow_right (by decide) (by omega))
  · intro h
    rcases hle with rfl | hle
    · decide
    · omega

end

def rest (io : StringIO) : Bytes := io.data.drop io.readptr

def advance (io : StringIO) (n : Nat) : StringIO := {io with readptr := io.readptr+n}

structure Ready (io : StringIO) : Prop where
  inside : io.readptr ≤ io.data.length
  size : io.data.length < 2^31

def ofBytes (bytes : Bytes) : StringIO := ⟨bytes,0,bytes.length+1⟩

section

variable {io : StringIO}

lemma rest_length (io : StringIO) : (rest io).length = io.data.length-io.readptr := by
  rw [rest,length_drop]

lemma rest_advance (io : StringIO) (n : Nat) : rest (advance io n) = (rest io).drop n := by
  rw [rest,rest,advance,drop_drop]

variable {n : Nat} {piece more : Bytes}

lemma Ready.advance (h : Ready io) (hn : n ≤ (rest io).length) :
    Ready (advance io n) := by
  have hi := h.inside
  rw [rest_length] at hn
  refine ⟨?_,h.size⟩
  simp only [Pyflag.advance]
  omega

lemma readInto_eq (h : Ready io) (hn : n < 2^32) : readInto io n =
    some ((rest io).take n,advance io (min n (rest io).length)) := by
  have hi := h.inside
  have hs := h.size
  have hm : ((io.readptr : Int)+n)%2^64 = io.readptr+n := Int.emod_eq_of_lt (by omega) (by omega)
  rw [readInto,hm,rest_length]
  by_cases hle : (io.data.length : Int) < io.readptr+n
  · have hl : ((io.data.length : Int)-io.readptr).toNat = io.data.length-io.readptr := by omega
    have ht : (rest io).take n = slice io.data io.readptr (io.data.length-io.readptr) := by
      rw [rest,slice,take_of_length_le (by rw [length_drop]; omega),
        take_of_length_le (by rw [length_drop])]
    simp only [if_pos hle,hl,ht,advance,min_eq_right (show io.data.length-io.readptr ≤ n by
      omega)]
    rw [if_pos (by omega)]
  · simp only [if_neg hle,Int.toNat_natCast,advance,min_eq_left (show n ≤
      io.data.length-io.readptr by omega)]
    rfl

lemma readInto_piece (h : Ready io) (hr : rest io = piece ++ more)
    (hn : piece.length < 2^32) : readInto io piece.length = some (piece,advance io piece.length)
    := by
  rw [readInto_eq h hn,hr,take_left,length_append,min_eq_left (by omega)]

lemma rest_advance_append (hr : rest io = piece ++ more) :
    rest (advance io piece.length) = more := by rw [rest_advance,hr,drop_left]

end

section

variable {io : StringIO} {output : Struct} {o : Nat}

section

variable (h : Ready io)
include h

variable {size : Nat}

lemma unpackNumber_short (hs : size < 2^32)
    (hlt : (rest io).length < size) (store : Bytes → Slot) :
    unpackNumber size store io output o = some ⟨-1,output,advance io (rest io).length⟩ := by
  rw [unpackNumber,readInto_eq h hs,Option.map_some,if_pos (by rw [length_take]; omega),
    min_eq_right (le_of_lt hlt)]

lemma unpackNumber_eq (hs : size < 2^32)
    (hle : size ≤ (rest io).length) (store : Bytes → Slot) : unpackNumber size store io output o =
      some ⟨size,update output o (some (store ((rest io).take size))), advance io size⟩ := by
  rw [unpackNumber,readInto_eq h hs,Option.map_some,if_neg (by rw [length_take]; omega),
    min_eq_left hle]

lemma copyString_eq {size length : Nat} (hl : length < 2^31) :
    copyString size length (wrapInt length) false io output o =
      some ⟨if (rest io).length < length then -1 else (size+8 : Nat),
        update output (o+size) (some (.pointer ((rest io).take length))),
        advance io (min length (rest io).length)⟩ := by
  have hm : (min length (rest io).length < length) = ((rest io).length < length) := by
    simp only [eq_iff_iff]
    omega
  rw [copyString,wrapInt_of_bounds (by omega) (by omega),readInto_eq h (by omega)]
  simp [hm]

lemma sizeStringUnpack_short (hs : size < 2^32)
    (hlt : (rest io).length < size) (store : Bytes → Slot) (checked : Bool) :
    sizeStringUnpack size store checked io output o =
      some ⟨-1,output,advance io (rest io).length⟩ := by
  rw [sizeStringUnpack,readInto_eq h hs,Option.bind_some,
    if_pos (by rw [length_take]; omega),min_eq_right (le_of_lt hlt)]

lemma sizeStringUnpack_eq (hs : size < 2^32)
    (hle : size ≤ (rest io).length) (store : Bytes → Slot) (checked : Bool)
    (hl : (store ((rest io).take size)).length < maxTallocSize) :
    sizeStringUnpack size store checked io output o =
      copyString size (store ((rest io).take size)).length
        (wrapInt (store ((rest io).take size)).length) false (advance io size)
        (update output o (some (store ((rest io).take size)))) o := by
  rw [sizeStringUnpack,readInto_eq h hs,Option.bind_some,
    if_neg (by rw [length_take]; omega),min_eq_left hle]
  simp [tallocNamedConst,hl]

end

def taken : Bytes → Nat
  | [] => 0
  | c :: bytes => if c = 0 then 1 else taken bytes+1

lemma taken_le (bytes : Bytes) : taken bytes ≤ bytes.length := by
  induction bytes with
  | nil => exact le_refl 0
  | cons c bytes ih =>
    rw [taken,length_cons]
    split <;> omega

lemma readInto_one_nil (h : Ready io) (hrs : rest io = []) : readInto io 1 = some ([],io) := by
  have hr : readInto io 1 = _ := readInto_eq (n := 1) h (by decide)
  rw [hr,hrs]
  rfl

variable {bytes : Bytes}

lemma readInto_one_cons (h : Ready io) {c : UInt8} (hr : rest io = c :: bytes) :
    readInto io 1 = some ([c],advance io 1) := by
  have hp : rest io = [c] ++ bytes := hr
  exact readInto_piece h hp (by simp)

lemma nullLoop_eq {temp : StringIO} {ps : List Bytes} (h : Ready io) (ht : temp.Holding ps)
    (hr : rest io = bytes) {fuel : Nat} (hf : bytes.length < fuel) :
    nullLoop fuel io temp =
      if StringIO.growth (ps.map length ++ replicate (taken bytes) 1) < maxTallocSize
      then some (if 0 ∈ bytes then some (ps.flatten ++ bytes.take (taken bytes)) else none,
        advance io (taken bytes))
      else none := by
  induction bytes generalizing io temp ps fuel with
  | nil =>
    obtain ⟨fuel,rfl⟩ := exists_eq_succ_of_ne_zero (ne_of_gt hf)
    have hs := ht.appending.small
    rw [ht.alloc] at hs
    rw [nullLoop,readInto_one_nil h hr,taken,replicate_zero,append_nil,if_pos hs]
    rfl
  | cons c bytes ih =>
    obtain ⟨fuel,rfl⟩ := exists_eq_succ_of_ne_zero (ne_of_gt (zero_lt_of_lt hf))
    have hsp : ∀ n, ps.map length ++ replicate (n+1) 1 =
        (ps ++ [[c]]).map length ++ replicate n 1 := by
      intro n
      simp [replicate_succ]
    have htk : ∃ n, taken (c :: bytes) = n+1 := by
      rw [taken]
      split
      · exact ⟨0,rfl⟩
      · exact ⟨_,rfl⟩
    rw [nullLoop,readInto_one_cons h hr,Option.bind_some]
    simp only
    cases hw : temp.write [c] with
    | none =>
      obtain ⟨n,hn⟩ := htk
      have hb : ¬ StringIO.growth ((ps ++ [[c]]).map length) < maxTallocSize := by
        intro hlt
        obtain ⟨io',hio'⟩ := (ht.write_iff [c]).mpr hlt
        rw [hw] at hio'
        cases hio'
      have hle := StringIO.growth_prefix (prefix_append ((ps ++ [[c]]).map length) (replicate n 1))
      rw [hn,hsp,if_neg (by omega)]
      rfl
    | some temp' =>
      have hh := ht.write hw
      rw [Option.bind_some]
      by_cases hc : c = 0
      · have hs := hh.appending.small
        rw [hh.alloc] at hs
        rw [if_pos hc,taken,if_pos hc,hsp,replicate_zero,append_nil,if_pos hs,
          if_pos (by simp [hc]),hh.data]
        simp
      · have ha : rest (advance io 1) = bytes := by rw [rest_advance,hr]; rfl
        have ho : 1 ≤ (rest io).length := by rw [hr]; exact succ_pos _
        rw [if_neg hc,ih (h.advance ho) hh ha (lt_of_succ_lt_succ hf),taken,if_neg hc,hsp]
        have hm : 0 ∈ c :: bytes ↔ 0 ∈ bytes := by simp [Ne.symm hc]
        simp [hm,advance,add_assoc,add_comm 1]

lemma nullStringUnpack_eq (h : Ready io) : nullStringUnpack io output o =
    if taken (rest io) < 2^27 then
      some (if 0 ∈ rest io then
        ⟨8,update output o (some (.pointer ((rest io).take (taken (rest io))))),
          advance io (taken (rest io))⟩
      else ⟨-1,output,advance io (taken (rest io))⟩)
    else none := by
  have hf : (rest io).length < io.data.length+1 := by
    rw [rest_length]
    omega
  have ho := growth_ones_lt_iff (taken (rest io))
  rw [nullStringUnpack,nullLoop_eq h StringIO.con_holding rfl hf,map_nil,nil_append]
  by_cases hlt : taken (rest io) < 2^27
  · rw [if_pos (ho.mpr hlt),if_pos hlt]
    by_cases hm : 0 ∈ rest io
    · simp [hm]
    · simp [hm]
  · rw [if_neg (fun hlt' => hlt (ho.mp hlt')),if_neg hlt]
    rfl

end

lemma structSize_pos (code : Code) : 0 < structSize code := by
  cases code <;> decide

/-- Two structures differ only in the `size` bytes at `o`. -/
def Agree (o size : Nat) (before after : Struct) : Prop :=
  ∀ i, i < o ∨ o+size ≤ i → after i = before i

lemma Agree.refl (o size : Nat) (struct : Struct) : Agree o size struct struct := fun _ _ => rfl

lemma Agree.update {o size k : Nat} {before after : Struct} (h : Agree o size before after)
    (hk : k < size) (slot : Option Slot) : Agree o size before (update after (o+k) slot) := by
  intro i hi
  rw [update_of_ne (by omega)]
  exact h i hi

end Aff4.Pyflag
