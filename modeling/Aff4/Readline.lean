import Aff4.File
import Aff4.Lib.Text

/-! Reading a file line by line (file.c): `readline` reads a whole block, looks for the end of
the first line in it and puts the read pointer back. -/

namespace Aff4

open LittleEndian Text List

def readLimit : Nat := 0x7ffff000

/-- A terminator in a block: where it starts and whether it is a carriage return with its
newline. -/
structure Terminator where
  start : Nat
  crlf : Bool
  deriving DecidableEq, Repr

/-- The loop over `i<result-1`: the last byte of the block is only ever looked at as the second
byte of a pair. -/
def findTerminator : Nat → Bytes → Option Terminator
  | i, c :: d :: rest =>
      if c = carriageReturn ∧ d = newline then some ⟨i,true⟩
      else if c = newline then some ⟨i,false⟩
      else findTerminator (i+1) (d :: rest)
  | _, _ => none

structure Readline where
  result : Nat
  buffer : Bytes
  fd : FileBackedObject
  deriving DecidableEq, Repr

namespace Readline

def line (r : Readline) : Bytes := r.buffer.take r.result

end Readline

namespace FileBackedObject

def readline (self : FileBackedObject) (length : UInt32) : Readline :=
  let (buffer,fd) := self.read (min length.toNat readLimit)
  match findTerminator 0 buffer with
  | some t =>
      ⟨t.start,buffer.set t.start 0,
        {fd with readptr := self.readptr+(if t.crlf then 1 else 0)+t.start+1}⟩
  | none => ⟨buffer.length,buffer,fd⟩

def readlines (length : UInt32) : Nat → FileBackedObject → List (Bytes × Nat)
  | 0, _ => []
  | count+1, self =>
      let r := self.readline length
      (r.line,r.fd.readptr) :: readlines length count r.fd

end FileBackedObject

structure TextLine where
  text : Bytes
  crlf : Bool
  nonempty : text ≠ []
  clean : ∀ c ∈ text, c ≠ 0 ∧ c ≠ carriageReturn ∧ c ≠ newline

namespace TextLine

def terminator (line : TextLine) : Bytes :=
  if line.crlf then [carriageReturn,newline] else [newline]

def bytes (line : TextLine) : Bytes := line.text ++ line.terminator

def splitFrom : Nat → List TextLine → List (Bytes × Nat)
  | _, [] => []
  | pos, line :: rest =>
      (line.text,pos+line.bytes.length) :: splitFrom (pos+line.bytes.length) rest

/-- The end of a line is found in a block of `block` bytes that starts at the line. -/
def Found (line : TextLine) (block : Nat) : Prop :=
  if line.crlf then line.bytes.length ≤ block else line.bytes.length < block

end TextLine

open TextLine

def Splits (length : UInt32) (lines : List TextLine) : Prop :=
  FileBackedObject.readlines length lines.length ⟨lines.flatMap bytes,0⟩ = splitFrom 0 lines

instance (length : UInt32) (lines : List TextLine) : Decidable (Splits length lines) :=
  inferInstanceAs (Decidable (_ = _))

/-- No line without a carriage return is the last one, or fills the block that is read. -/
def Splittable (length : UInt32) : List TextLine → Prop
  | [] => True
  | line :: rest =>
      (if line.crlf then line.bytes.length ≤ readLimit
        else rest ≠ [] ∧ line.bytes.length < min length.toNat readLimit) ∧
      Splittable length rest

section

lemma findTerminator_short {i : Nat} {block : Bytes} (h : block.length ≤ 1) :
    findTerminator i block = none := by
  match block, h with
  | [], _ => rfl
  | [_], _ => rfl

variable {text : Bytes} (clean : ∀ c ∈ text, c ≠ 0 ∧ c ≠ carriageReturn ∧ c ≠ newline)

include clean

lemma findTerminator_text (i : Nat) (rest : Bytes) :
    findTerminator i (text ++ rest) = findTerminator (i+text.length) rest := by
  induction text generalizing i with
  | nil => rfl
  | cons c text ih =>
    obtain ⟨-,hcr,hlf⟩ := clean c mem_cons_self
    have hs : findTerminator i (c :: (text ++ rest)) = findTerminator (i+1) (text ++ rest) := by
      cases text ++ rest with
      | nil => rfl
      | cons d more => simp [findTerminator,hcr,hlf]
    rw [cons_append,hs,ih (fun c hc => clean c (mem_cons_of_mem _ hc)),
      length_cons,add_assoc,add_comm 1]

lemma findTerminator_clean (i : Nat) : findTerminator i text = none := by
  have h := findTerminator_text clean i []
  rw [append_nil] at h
  rw [h,findTerminator_short (by simp)]

end

namespace TextLine

variable (line : TextLine)

lemma length_bytes : line.bytes.length = line.text.length+line.terminator.length := length_append

lemma bytes_ne_nil : line.bytes ≠ [] := by simp [bytes,line.nonempty]

lemma take_block (rest : Bytes) (block : Nat) : (line.bytes ++ rest).take block =
      line.text.take block ++ (line.terminator ++ rest).take (block-line.text.length) := by
  rw [bytes,append_assoc,take_append]

variable {block : Nat}

lemma findTerminator_found {rest : Bytes}
    (h : line.Found (min block (line.bytes ++ rest).length)) :
    findTerminator 0 ((line.bytes ++ rest).take block) = some ⟨line.text.length,line.crlf⟩ := by
  have hl := line.length_bytes
  rw [Found,length_append] at h
  have hb : line.text.length+2 ≤ block := by
    cases hc : line.crlf <;> simp [terminator,hc] at hl h <;> omega
  obtain ⟨n,hn⟩ : ∃ n, block-line.text.length = n+2 := ⟨block-line.text.length-2,by omega⟩
  rw [take_block,take_of_length_le (by omega),findTerminator_text line.clean,hn]
  cases hc : line.crlf with
  | true =>
    have ht : line.terminator = [carriageReturn,newline] := by simp [terminator,hc]
    simp [ht,findTerminator]
  | false =>
    have ht : line.terminator = [newline] := by simp [terminator,hc]
    rw [ht] at hl
    simp only [hc,hl,length_cons,length_nil,Bool.false_eq_true,↓reduceIte] at h
    cases rest with
    | nil =>
      rw [length_nil] at h
      omega
    | cons d more => simp [ht,findTerminator,newline,carriageReturn]

/-- A block that ends before the second byte after the start of the terminator is returned
whole. -/
lemma findTerminator_notFound {rest : Bytes}
    (h : ¬line.Found (min block (line.bytes ++ rest).length)) :
    findTerminator 0 ((line.bytes ++ rest).take block) = none := by
  have hl := line.length_bytes
  rw [Found,length_append] at h
  have hs : ((line.terminator ++ rest).take (block-line.text.length)).length ≤ 1 := by
    rw [length_take,length_append]
    cases hc : line.crlf with
    | true =>
      have ht : line.terminator.length = 2 := by simp [terminator,hc]
      simp only [hc,↓reduceIte] at h
      omega
    | false =>
      have ht : line.terminator.length = 1 := by simp [terminator,hc]
      simp only [hc,Bool.false_eq_true,↓reduceIte] at h
      omega
  rw [take_block]
  by_cases hb : line.text.length ≤ block
  · rw [take_of_length_le hb,findTerminator_text line.clean,findTerminator_short hs]
  · have hz : block-line.text.length = 0 := by omega
    rw [hz,take_zero,append_nil]
    exact findTerminator_clean (fun c hc => line.clean c (mem_of_mem_take hc)) _

end TextLine

namespace FileBackedObject

variable {s : FileBackedObject} {line : TextLine} {rest : Bytes} {length : UInt32}

lemma readline_data (s : FileBackedObject) (length : UInt32) :
    (s.readline length).fd.data = s.data := by
  simp only [readline]
  split <;> simp

/-- Where the end of the line is found, the caller gets the line, and the next call starts at
the line after it. -/
lemma readline_found (hr : s.rest = line.bytes ++ rest)
    (h : line.Found (min (min length.toNat readLimit) (line.bytes ++ rest).length)) :
    (s.readline length).line = line.text ∧
      (s.readline length).fd.readptr = s.readptr+line.bytes.length := by
  have hf := line.findTerminator_found h
  simp only [readline,read_fst,hr,hf,Readline.line]
  constructor
  · rw [Found] at h
    have hl := line.length_bytes
    have hb : line.text.length ≤ min length.toNat readLimit := by split at h <;> omega
    rw [take_block,take_of_length_le hb]
    simp
  · rw [length_bytes,terminator]
    cases line.crlf <;> simp <;> omega

/-- Otherwise the caller gets the whole block, which is not the line, or the next call does not
start at the line after it. -/
lemma readline_notFound (hr : s.rest = line.bytes ++ rest)
    (h : ¬line.Found (min (min length.toNat readLimit) (line.bytes ++ rest).length)) :
    ¬((s.readline length).line = line.text ∧
      (s.readline length).fd.readptr = s.readptr+line.bytes.length) := by
  have hf := line.findTerminator_notFound h
  have hrd : (s.read (min length.toNat readLimit)).2.readptr =
      s.readptr+((line.bytes ++ rest).take (min length.toNat readLimit)).length := by
    rw [← hr]
    rfl
  simp only [readline,read_fst,hr,hf,Readline.line,hrd]
  rintro ⟨hl,hpt⟩
  have hb : ((line.bytes ++ rest).take (min length.toNat readLimit)).length =
      line.text.length := by rw [← hl,take_length]
  have hp : line.terminator ≠ [] := by
    rw [terminator]
    split <;> simp
  have := length_pos_iff.mpr hp
  have := line.length_bytes
  omega

lemma readline_iff (length : UInt32) (hr : s.rest = line.bytes ++ rest) :
    ((s.readline length).line = line.text ∧
      (s.readline length).fd.readptr = s.readptr+line.bytes.length) ↔
    line.Found (min (min length.toNat readLimit) (line.bytes ++ rest).length) :=
  ⟨fun h => Classical.byContradiction fun hn => readline_notFound hr hn h,readline_found hr⟩

end FileBackedObject

lemma TextLine.found_iff (line : TextLine) (lines : List TextLine) {length : UInt32}
    (h : line.bytes.length ≤ length.toNat) :
    line.Found (min (min length.toNat readLimit) (line.bytes ++ lines.flatMap bytes).length) ↔
      if line.crlf then line.bytes.length ≤ readLimit
      else lines ≠ [] ∧ line.bytes.length < min length.toNat readLimit := by
  have hm : lines ≠ [] ↔ 0 < (lines.flatMap bytes).length := by
    cases lines with
    | nil => simp
    | cons next rest =>
      have := length_pos_iff.mpr next.bytes_ne_nil
      simp
      omega
  rw [Found,length_append,hm]
  cases line.crlf
  · simp only [Bool.false_eq_true,↓reduceIte]
    omega
  · simp only [↓reduceIte]
    omega

lemma readlines_iff {length : UInt32} {lines : List TextLine}
    (h : ∀ line ∈ lines, line.bytes.length ≤ length.toNat) {s : FileBackedObject}
    (hr : s.rest = lines.flatMap bytes) :
    s.readlines length lines.length = splitFrom s.readptr lines ↔ Splittable length lines := by
  induction lines generalizing s with
  | nil => simp [FileBackedObject.readlines,splitFrom,Splittable]
  | cons line rest ih =>
    rw [flatMap_cons] at hr
    have hf := FileBackedObject.readline_iff length hr
    rw [line.found_iff rest (h line mem_cons_self)] at hf
    rw [Splittable,← hf]
    simp only [length_cons,FileBackedObject.readlines,splitFrom,cons.injEq,Prod.mk.injEq]
    refine and_congr_right fun hl => ?_
    have hn : (s.readline length).fd.rest = rest.flatMap bytes := by
      rw [FileBackedObject.rest,hl.2,FileBackedObject.readline_data,← drop_drop]
      change s.rest.drop _ = _
      rw [hr,drop_left]
    rw [← hl.2]
    exact ih (fun line hln => h line (mem_cons_of_mem _ hln)) hn

theorem splits_iff (length : UInt32) (lines : List TextLine)
    (h : ∀ line ∈ lines, line.bytes.length ≤ length.toNat) :
    Splits length lines ↔ Splittable length lines :=
  readlines_iff h rfl

def lineAb : TextLine := ⟨[97,98],false,by decide,by decide +kernel⟩
def lineC : TextLine := ⟨[99],true,by decide,by decide +kernel⟩

theorem splits_two_endings : Splits 4 [lineAb,lineC] :=
  (splits_iff _ _ (by decide)).mpr ⟨by decide,by decide,trivial⟩

/-- A file that is one line with its newline: the newline is returned with the line. -/
theorem splits_last_newline_fails : ¬ Splits 10 [lineAb] := by
  decide +kernel

end Aff4
