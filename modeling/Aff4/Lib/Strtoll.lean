import Mathlib.Data.List.Basic
import Mathlib.Data.List.TakeWhile
import Aff4.Lib.Text

/-! `strtoll` of C99 with base 0, and what it makes of a decimal number; the conversions of `sscanf` for
numbers and words, which give a value and what comes after it. -/

namespace Text

open LittleEndian

def isSpace (c : UInt8) : Bool := c = 32 || (9 ≤ c && c ≤ 13)

def digitValue (c : UInt8) : Option Nat :=
  if 48 ≤ c && c ≤ 57 then some (c.toNat-48)
  else if 97 ≤ c && c ≤ 122 then some (c.toNat-87)
  else if 65 ≤ c && c ≤ 90 then some (c.toNat-55)
  else none

def inBase (base : Nat) (c : UInt8) : Bool := (digitValue c).any (· < base)

def numeralIn (base : Nat) (bs : Bytes) : Nat :=
  bs.foldl (fun v c => base*v+(digitValue c).getD 0) 0

def takeSign : Bytes → Bool × Bytes
  | 43 :: text => (false,text)
  | 45 :: text => (true,text)
  | text => (false,text)

/-- The base that the first characters show, and what comes after the letter x. -/
def detectBase : Bytes → Nat × Bytes
  | 48 :: x :: d :: text =>
      if (x = 120 || x = 88) && inBase 16 d then (16,d :: text) else (8,48 :: x :: d :: text)
  | 48 :: text => (8,48 :: text)
  | text => (10,text)

/-- A number that does not fit is replaced by the nearest one that does. -/
def saturate (n : Int) : Int := max (-2^63) (min (2^63-1) n)

def strtoll (text : Bytes) : Int :=
  let (negative,text) := takeSign (text.dropWhile isSpace)
  let (base,text) := detectBase text
  let value : Int := numeralIn base (text.takeWhile (inBase base))
  saturate (if negative then -value else value)

section

variable {c : UInt8}

section

variable (h : isDigit c = true)
include h

lemma digitValue_digit : digitValue c = some (c.toNat-48) := by exact if_pos h

lemma inBase_digit : inBase 10 c = true := by
  have hle : c.toNat ≤ 57 := by
    simp only [isDigit,Bool.and_eq_true,decide_eq_true_eq,UInt8.le_iff_toNat_le] at h
    exact h.2
  simp only [inBase,digitValue_digit h,Option.any_some,decide_eq_true_eq]
  omega

lemma not_isSpace_digit : isSpace c = false := by
  have hge : 48 ≤ c.toNat := by
    simp only [isDigit,Bool.and_eq_true,decide_eq_true_eq,UInt8.le_iff_toNat_le] at h
    exact h.1
  have h32 : c ≠ 32 := by
    intro hc
    subst hc
    exact absurd hge (by decide)
  have h13 : ¬ c ≤ 13 := by
    change ¬ c.toNat ≤ 13
    omega
  simp [isSpace,h32,h13]

lemma takeSign_digit (text : Bytes) : takeSign (c :: text) = (false,c :: text) := by
  rw [takeSign]
  · intro rest heq
    obtain rfl := (List.cons.inj heq).1
    exact absurd h (by decide)
  · intro rest heq
    obtain rfl := (List.cons.inj heq).1
    exact absurd h (by decide)

end

lemma detectBase_decimal (h : c ≠ 48) (text : Bytes) : detectBase (c :: text) = (10,c :: text) := by
  rw [detectBase]
  · intro x d rest heq
    exact h (List.cons.inj heq).1
  · intro rest heq
    exact h (List.cons.inj heq).1

end

lemma numeralIn_digits {ds : Bytes} (h : ∀ c ∈ ds, isDigit c = true) :
    numeralIn 10 ds = numeral ds := by
  refine List.foldl_ext _ _ 0 fun v c hc => ?_
  rw [digitValue_digit (h c hc),Option.getD_some]

lemma digit_ne_zero {d : Nat} (h : d < 10) (hd : d ≠ 0) : digit d ≠ 48 := by
  intro heq
  have hv := digit_toNat h
  rw [heq] at hv
  change 48 = 48+d at hv
  omega

variable {n : Nat}

lemma decimalFrom_head {fuel : Nat} (h : n < fuel) (hn : n ≠ 0) :
    ∃ c rest, decimalFrom fuel n = c :: rest ∧ c ≠ 48 := by
  induction fuel generalizing n with
  | zero => omega
  | succ fuel ih =>
    rw [decimalFrom]
    split
    · next hlt => exact ⟨digit n,[],rfl,digit_ne_zero hlt hn⟩
    · next hge =>
      obtain ⟨c,rest,heq,hc⟩ := ih (show n/10 < fuel by omega) (by omega)
      rw [heq]
      exact ⟨c,rest ++ [digit (n%10)],rfl,hc⟩

lemma strtoll_decimal (n : Nat) : strtoll (decimal n) = saturate n := by
  by_cases hn : n = 0
  · subst hn
    decide
  · obtain ⟨c,rest,heq,hc⟩ := decimalFrom_head n.lt_succ_self hn
    have ht : decimal n = c :: rest := heq
    have hd := decimal_digits n
    have hv : numeralIn 10 (decimal n) = n := by rw [numeralIn_digits hd,numeral_decimal]
    have ha : (decimal n).takeWhile (inBase 10) = decimal n :=
      List.takeWhile_eq_self_iff.mpr fun c hc => inBase_digit (hd c hc)
    rw [ht] at hd hv ha ⊢
    have hf := hd c List.mem_cons_self
    have hs : (c :: rest).dropWhile isSpace = c :: rest := by
      rw [List.dropWhile_cons,not_isSpace_digit hf]
      rfl
    simp only [strtoll,hs,takeSign_digit hf,detectBase_decimal hc,ha,hv]
    rfl

def scanLong (text : Bytes) : Option (Int × Bytes) :=
  let (negative,text) := takeSign (text.dropWhile isSpace)
  let digits := text.takeWhile isDigit
  if digits = [] then none
  else
    let value : Int := numeral digits
    some (saturate (if negative then -value else value),text.dropWhile isDigit)

/-- A character of the format that is neither a space nor part of a conversion. -/
def scanChar (c : UInt8) : Bytes → Option Bytes
  | [] => none
  | x :: text => if x = c then some text else none

def scanWord (width : Nat) (text : Bytes) : Option (Bytes × Bytes) :=
  let text := text.dropWhile isSpace
  let word := (text.takeWhile fun c => !isSpace c).take width
  if word = [] then none else some (word,text.drop word.length)

lemma saturate_of_lt (h : n < 2^63) : saturate n = n := by
  rw [saturate]
  omega

lemma scanLong_decimal (hn : n < 2^63) {rest : Bytes}
    (hr : ∀ c ∈ rest.head?, isDigit c = false) :
    scanLong (decimal n ++ rest) = some ((n : Int),rest) := by
  obtain ⟨ht,hdr⟩ := takeWhile_digits (decimal_digits n) hr
  cases hdc : decimal n with
  | nil => exact absurd hdc (decimal_ne_nil n)
  | cons d ds =>
    have hd : isDigit d = true := decimal_digits n d (by simp [hdc])
    have hs : (decimal n ++ rest).dropWhile isSpace = decimal n ++ rest := by
      rw [hdc,List.cons_append,List.dropWhile_cons,not_isSpace_digit hd]
      rfl
    have hsg : takeSign (decimal n ++ rest) = (false,decimal n ++ rest) := by
      rw [hdc,List.cons_append,takeSign_digit hd]
    rw [← hdc,scanLong,hs,hsg]
    simp [ht,hdr,decimal_ne_nil,numeral_decimal,saturate_of_lt hn]

@[simp] lemma scanChar_cons (c : UInt8) (text : Bytes) : scanChar c (c :: text) = some text :=
  if_pos rfl

lemma scanWord_word {width : Nat} {word : Bytes} (hne : word ≠ [])
    (hw : ∀ c ∈ word, isSpace c = false) (hl : word.length ≤ width) :
    scanWord width word = some (word,[]) := by
  have ht : (word.takeWhile fun c => !isSpace c) = word :=
    List.takeWhile_eq_self_iff.mpr fun c hc => by simp [hw c hc]
  have hd : word.dropWhile isSpace = word := by
    cases word with
    | nil => rfl
    | cons c rest => rw [List.dropWhile_cons,hw c List.mem_cons_self]; rfl
  rw [scanWord,hd]
  simp only [ht,List.take_of_length_le hl,if_neg hne,List.drop_length]

end Text
