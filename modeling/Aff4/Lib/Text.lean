import Aff4.Lib.LittleEndian

/-! Decimal numbers and lines in a text of bytes, and how they are read back. -/

namespace Text

open LittleEndian List

def newline : UInt8 := 10
def carriageReturn : UInt8 := 13

def digit (d : Nat) : UInt8 := UInt8.ofNat (48+d)

def isDigit (c : UInt8) : Bool := 48 ≤ c && c ≤ 57

def decimalFrom : Nat → Nat → Bytes
  | 0, _ => []
  | fuel+1, n => if n < 10 then [digit n] else decimalFrom fuel (n/10) ++ [digit (n%10)]

def decimal (n : Nat) : Bytes := decimalFrom (n+1) n

def printInt (n : Int) : Bytes := if n < 0 then 45 :: decimal n.natAbs else decimal n.natAbs

def numeral (bs : Bytes) : Nat := bs.foldl (fun v c => 10*v + (c.toNat-48)) 0

variable {d fuel n k : Nat} {text : Bytes}

lemma digit_toNat (h : d < 10) : (digit d).toNat = 48+d := by
  rw [digit,UInt8.toNat_ofNat']
  omega

lemma isDigit_digit (h : d < 10) : isDigit (digit d) = true := by
  have hv := digit_toNat h
  simp only [isDigit,Bool.and_eq_true,decide_eq_true_eq,UInt8.le_iff_toNat_le,hv]
  exact ⟨Nat.le_add_right 48 d,show 48+d ≤ 57 by omega⟩

lemma decimalFrom_spec (h : n < fuel) :
    numeral (decimalFrom fuel n) = n ∧ decimalFrom fuel n ≠ [] ∧
      ∀ c ∈ decimalFrom fuel n, isDigit c = true := by
  induction fuel generalizing n with
  | zero => omega
  | succ fuel ih =>
    rw [decimalFrom]
    split
    · next hn =>
      refine ⟨?_,by simp,fun c hc => ?_⟩
      · simp [numeral,digit_toNat hn]
      · rw [mem_singleton.mp hc]
        exact isDigit_digit hn
    · next hn =>
      obtain ⟨hv,_,hd⟩ := ih (show n/10 < fuel by omega)
      have hl : n%10 < 10 := Nat.mod_lt n (by decide)
      refine ⟨?_,by simp,fun c hc => ?_⟩
      · rw [numeral] at hv ⊢
        rw [foldl_append,hv,foldl_cons,foldl_nil,digit_toNat hl]
        omega
      · rcases mem_append.mp hc with hc | hc
        · exact hd c hc
        · rw [mem_singleton.mp hc]
          exact isDigit_digit hl

lemma numeral_decimal (n : Nat) : numeral (decimal n) = n := (decimalFrom_spec n.lt_succ_self).1

lemma decimal_ne_nil (n : Nat) : decimal n ≠ [] := (decimalFrom_spec n.lt_succ_self).2.1

lemma decimal_digits (n : Nat) : ∀ c ∈ decimal n, isDigit c = true :=
  (decimalFrom_spec n.lt_succ_self).2.2

lemma decimalFrom_length_le (h : n < 10^(k+1)) :
    (decimalFrom fuel n).length ≤ k+1 := by
  induction fuel generalizing n k with
  | zero => simp [decimalFrom]
  | succ fuel ih =>
    rw [decimalFrom]
    split
    · simp
    · next hge =>
      cases k with
      | zero => omega
      | succ k =>
        have := ih (n := n/10) (k := k) (by rw [Nat.pow_succ] at h; omega)
        simp only [length_append,length_singleton]
        omega

lemma decimal_length_le (h : n < 10^(k+1)) : (decimal n).length ≤ k+1 := decimalFrom_length_le h

lemma takeWhile_digits {ds rest : Bytes} (hds : ∀ c ∈ ds, isDigit c = true)
    (hr : ∀ c ∈ rest.head?, isDigit c = false) :
    (ds ++ rest).takeWhile isDigit = ds ∧ (ds ++ rest).dropWhile isDigit = rest := by
  rw [takeWhile_append_of_pos hds,dropWhile_append_of_pos hds]
  cases rest with
  | nil => simp
  | cons c rest => simp [hr c rfl]

/-- A line ends at a newline, a carriage return or both; `cr` says that the last line ended at
a carriage return. -/
def splitLinesFrom : Bool → Bytes → Bytes → List Bytes
  | _, line, [] => if line = [] then [] else [line]
  | cr, line, c :: rest =>
      if c = newline then
        if cr then splitLinesFrom false line rest else line :: splitLinesFrom false [] rest
      else if c = carriageReturn then line :: splitLinesFrom true [] rest
      else splitLinesFrom false (line ++ [c]) rest

def splitLines (text : Bytes) : List Bytes := splitLinesFrom false [] text

def SingleLine (line : Bytes) : Prop := ∀ c ∈ line, c ≠ newline ∧ c ≠ carriageReturn

instance (line : Bytes) : Decidable (SingleLine line) :=
  inferInstanceAs (Decidable (∀ c ∈ line, c ≠ newline ∧ c ≠ carriageReturn))

lemma splitLinesFrom_line {line : Bytes} (hl : SingleLine line) (front rest : Bytes) :
    splitLinesFrom false front (line ++ newline :: rest) =
      (front ++ line) :: splitLinesFrom false [] rest := by
  induction line generalizing front with
  | nil => simp [splitLinesFrom]
  | cons c line ih =>
    obtain ⟨hc,hl⟩ := forall_mem_cons.mp hl
    rw [cons_append,splitLinesFrom,if_neg hc.1,if_neg hc.2,ih hl]
    simp

lemma splitLines_flatMap {lines : List Bytes} (hl : ∀ line ∈ lines, SingleLine line) :
    splitLines (lines.flatMap fun line => line ++ [newline]) = lines := by
  induction lines with
  | nil => rfl
  | cons line lines ih =>
    obtain ⟨hln,hl⟩ := forall_mem_cons.mp hl
    rw [flatMap_cons,append_assoc,splitLines,singleton_append,splitLinesFrom_line hln,nil_append]
    exact congrArg (line :: ·) (ih hl)

/-! ### Escaped text -/

def backslash : UInt8 := 92

def lowerHex (n : Nat) : UInt8 := UInt8.ofNat (if n < 10 then 48+n else 87+n)

def hexNibble (c : UInt8) : Option Nat :=
  if 48 ≤ c ∧ c ≤ 57 then some (c.toNat-48)
  else if 65 ≤ c ∧ c ≤ 70 then some (c.toNat-55)
  else if 97 ≤ c ∧ c ≤ 102 then some (c.toNat-87)
  else none

def escapeByte (c : UInt8) : Bytes :=
  if c = backslash ∨ c = 39 then [backslash,c]
  else if c = 9 then [backslash,116]
  else if c = newline then [backslash,110]
  else if c = carriageReturn then [backslash,114]
  else if c < 32 ∨ 127 ≤ c then [backslash,120,lowerHex (c.toNat/16),lowerHex (c.toNat%16)]
  else [c]

/-- The codec `string_escape`: quotes, backslashes and what cannot be printed. -/
def stringEscape (text : Bytes) : Bytes := text.flatMap escapeByte

def controlLetters : List (UInt8 × UInt8) :=
  [(98,8),(102,12),(116,9),(110,10),(114,13),(118,11),(97,7)]

def unescapeByte : Bytes → Option (Bytes × Bytes)
  | [] => none
  | c :: rest =>
      if c = newline then some ([],rest)
      else if c = backslash ∨ c = 39 ∨ c = 34 then some ([c],rest)
      else if c = 120 then
        match rest with
        | h :: l :: rest => do
            let high ← hexNibble h
            let low ← hexNibble l
            some ([UInt8.ofNat (16*high+low)],rest)
        | _ => none
      else if 48 ≤ c ∧ c ≤ 55 then
        let octal := ((c :: rest).take 3).takeWhile fun d => 48 ≤ d && d ≤ 55
        some ([UInt8.ofNat (octal.foldl (fun v d => 8*v + (d.toNat-48)) 0)],
          (c :: rest).drop octal.length)
      else
        match controlLetters.lookup c with
        | some d => some ([d],rest)
        | none => some ([backslash,c],rest)

def stringUnescapeFrom : Nat → Bytes → Option Bytes
  | _, [] => some []
  | 0, _ :: _ => none
  | fuel+1, c :: rest =>
      if c = backslash then do
        let (front,rest) ← unescapeByte rest
        let tail ← stringUnescapeFrom fuel rest
        some (front ++ tail)
      else (stringUnescapeFrom fuel rest).map (c :: ·)

def stringUnescape (text : Bytes) : Option Bytes := stringUnescapeFrom text.length text

lemma hexNibble_lowerHex (h : n < 16) : hexNibble (lowerHex n) = some n := by
  have ha : ∀ n < 16, hexNibble (lowerHex n) = some n := by decide +kernel
  exact ha n h

lemma unescapeByte_hex (c : UInt8) (rest : Bytes) :
    unescapeByte (120 :: lowerHex (c.toNat/16) :: lowerHex (c.toNat%16) :: rest) =
      some ([c],rest) := by
  have hc := c.toNat_lt
  have hb : UInt8.ofNat (16*(c.toNat/16)+c.toNat%16) = c := by
    rw [Nat.div_add_mod,UInt8.ofNat_toNat]
  rw [unescapeByte,if_neg (by decide),if_neg (by decide),if_pos rfl,
    hexNibble_lowerHex (show c.toNat/16 < 16 by omega),
    hexNibble_lowerHex (show c.toNat%16 < 16 by omega)]
  simp only [Option.bind_eq_bind,Option.bind_some,hb]

lemma unescapeFrom_escapeByte (fuel : Nat) (c : UInt8) (rest : Bytes) :
    stringUnescapeFrom (fuel+1) (escapeByte c ++ rest) =
      (stringUnescapeFrom fuel rest).map (c :: ·) := by
  have he : ∀ code, unescapeByte (code ++ rest) = some ([c],rest) →
      stringUnescapeFrom (fuel+1) (backslash :: code ++ rest) =
        (stringUnescapeFrom fuel rest).map (c :: ·) := by
    intro code hc
    rw [cons_append,stringUnescapeFrom,if_pos rfl,hc,Option.bind_eq_bind,Option.bind_some,
      Option.map_eq_bind]
    rfl
  unfold escapeByte
  split_ifs with hq ht hn hr hh
  · refine he [c] ?_
    rcases hq with rfl | rfl <;> rfl
  · subst ht
    exact he [116] rfl
  · subst hn
    exact he [110] rfl
  · subst hr
    exact he [114] rfl
  · exact he _ (unescapeByte_hex c rest)
  · rw [singleton_append,stringUnescapeFrom,if_neg fun h => hq (.inl h)]

lemma escapeByte_ne_nil (c : UInt8) : escapeByte c ≠ [] := by
  unfold escapeByte
  split_ifs <;> simp

lemma unescapeFrom_stringEscape (h : text.length ≤ fuel) :
    stringUnescapeFrom fuel (stringEscape text) = some text := by
  induction text generalizing fuel with
  | nil => cases fuel <;> rfl
  | cons c text ih =>
    obtain ⟨fuel,rfl⟩ : ∃ k, fuel = k+1 := ⟨fuel-1,by simp only [length_cons] at h; omega⟩
    have hs := unescapeFrom_escapeByte fuel c (stringEscape text)
    rw [ih (by simpa using h)] at hs
    simpa [stringEscape] using hs

lemma stringUnescape_stringEscape (text : Bytes) :
    stringUnescape (stringEscape text) = some text := by
  refine unescapeFrom_stringEscape ?_
  induction text with
  | nil => exact le_refl 0
  | cons c text ih =>
    have hp := length_pos_iff.mpr (escapeByte_ne_nil c)
    simp only [stringEscape,flatMap_cons,length_append,length_cons] at ih ⊢
    omega

lemma stringEscape_ne_nil (h : text ≠ []) : stringEscape text ≠ [] := by
  cases text with
  | nil => exact absurd rfl h
  | cons c text => simp [stringEscape,escapeByte_ne_nil]

end Text
