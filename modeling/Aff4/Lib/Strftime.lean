import Aff4.Lib.Calendar
import Aff4.Lib.Strtoll

/-! Dates as text: `strftime` and `strptime` with the conversions of numbers, and the time zone of
a process. -/

namespace Calendar

open LittleEndian Text List

inductive Field where
  | year
  | mon
  | mday
  | hour
  | min
  | sec
  deriving DecidableEq, Repr

inductive Conv where
  | field (f : Field)
  | literal (c : UInt8)
  deriving DecidableEq, Repr

def twoDigits (n : Nat) : Bytes := if n < 10 then 48 :: decimal n else decimal n

def Field.print (tm : Tm) : Field → Bytes
  | .year => printInt tm.year
  | .mon => twoDigits (tm.mon+1)
  | .mday => twoDigits tm.mday
  | .hour => twoDigits tm.hour
  | .min => twoDigits tm.min
  | .sec => twoDigits tm.sec

def Conv.print (tm : Tm) : Conv → Bytes
  | .field f => f.print tm
  | .literal c => [c]

def strftime (format : List Conv) (tm : Tm) : Bytes := format.flatMap (Conv.print tm)

/-- The least number of a conversion, the largest one, and how many digits are read. -/
def Field.bounds : Field → Nat × Nat × Nat
  | .year => (0,9999,4)
  | .mon => (1,12,2)
  | .mday => (1,31,2)
  | .hour => (0,23,2)
  | .min => (0,59,2)
  | .sec => (0,61,2)

def Field.set (n : Nat) (tm : Tm) : Field → Tm
  | .year => {tm with year := n}
  | .mon => {tm with mon := n-1}
  | .mday => {tm with mday := n}
  | .hour => {tm with hour := n}
  | .min => {tm with min := n}
  | .sec => {tm with sec := n}

/-- Digits are read as long as another one may still give a number within the bound. -/
def scanDigits (high : Nat) : Nat → Nat → Bytes → Nat × Bytes
  | width+1, value, c :: text =>
      if isDigit c && value*10 ≤ high then
        scanDigits high width (10*value+(c.toNat-48)) text
      else (value,c :: text)
  | _, value, text => (value,text)

def getNumber : Nat × Nat × Nat → Bytes → Option (Nat × Bytes)
  | (low,high,width), text =>
    let text := text.dropWhile isSpace
    if text.head?.any isDigit then
      let r := scanDigits high width 0 text
      if low ≤ r.1 ∧ r.1 ≤ high then some r else none
    else none

/-- What is filled in before the text does not match any more stays filled in. -/
def strptime : List Conv → Bytes → Tm → Tm
  | [], _, tm => tm
  | .field f :: format, text, tm =>
      match getNumber f.bounds text with
      | some (n,rest) => strptime format rest (f.set n tm)
      | none => tm
  | .literal _ :: _, [], tm => tm
  | .literal c :: format, d :: text, tm => if d = c then strptime format text tm else tm

section

variable {n k high : Nat}

lemma decimalFrom_length {fuel : Nat} (h : n < fuel) (hl : k = 0 ∨ 10^k ≤ n)
    (hh : n < 10^(k+1)) : (decimalFrom fuel n).length = k+1 := by
  induction fuel generalizing n k with
  | zero => omega
  | succ fuel ih =>
    rw [decimalFrom]
    split
    · next hlt =>
      cases k with
      | zero => rfl
      | succ k =>
        omega
    · next hge =>
      cases k with
      | zero => omega
      | succ k =>
        have hl' : 10^k ≤ n/10 := by omega
        have hh' : n/10 < 10^(k+1) := by omega
        rw [length_append,ih (by omega) (.inr hl') hh',length_singleton]

lemma decimal_length (hl : k = 0 ∨ 10^k ≤ n) (hh : n < 10^(k+1)) :
    (decimal n).length = k+1 := decimalFrom_length n.lt_succ_self hl hh

structure Prints (text : Bytes) (width n : Nat) : Prop where
  digits : ∀ c ∈ text, isDigit c = true
  length : text.length = width
  value : numeral text = n

lemma decimal_prints (hl : k = 0 ∨ 10^k ≤ n) (hh : n < 10^(k+1)) : Prints (decimal n) (k+1) n :=
  ⟨decimal_digits n,decimal_length hl hh,numeral_decimal n⟩

lemma twoDigits_prints (h : n < 100) : Prints (twoDigits n) 2 n := by
  rw [twoDigits]
  split
  · next hlt =>
    obtain ⟨hd,hl,hv⟩ := decimal_prints (k := 0) (.inl rfl) hlt
    refine ⟨?_,by rw [length_cons,hl],?_⟩
    · exact forall_mem_cons.mpr ⟨by decide,hd⟩
    · exact hv
  · next hge => exact decimal_prints (k := 1) (.inr (by omega)) h

lemma scanDigits_append {digits : Bytes} (hd : ∀ c ∈ digits, isDigit c = true) {value : Nat}
    (hh : digits.foldl (fun v c => 10*v+(c.toNat-48)) value ≤ high) (rest : Bytes) :
    scanDigits high digits.length value (digits ++ rest) =
      (digits.foldl (fun v c => 10*v+(c.toNat-48)) value,rest) := by
  induction digits generalizing value with
  | nil => rfl
  | cons c digits ih =>
    obtain ⟨hc,hd⟩ := forall_mem_cons.mp hd
    rw [foldl_cons] at hh ⊢
    have hg : ∀ (ds : Bytes) (v : Nat), v ≤ ds.foldl (fun v c => 10*v+(c.toNat-48)) v := by
      intro ds
      induction ds with
      | nil => exact fun v => le_refl v
      | cons d ds ihd => exact fun v => le_trans (by omega) (ihd (10*v+(d.toNat-48)))
    have hle := le_trans (hg digits _) hh
    have hgo : (isDigit c && decide (value*10 ≤ high)) = true := by
      rw [hc,Bool.true_and,decide_eq_true_eq]
      omega
    rw [length_cons,cons_append,scanDigits,if_pos hgo,ih hd hh]

lemma getNumber_prints {text : Bytes} {low width : Nat} (h : Prints text (width+1) n)
    (hlw : low ≤ n) (hh : n ≤ high) (rest : Bytes) :
    getNumber (low,high,width+1) (text ++ rest) = some (n,rest) := by
  obtain ⟨hd,hl,rfl⟩ := h
  have hs : scanDigits high text.length 0 (text ++ rest) = (numeral text,rest) :=
    scanDigits_append hd hh rest
  rw [hl] at hs
  cases text with
  | nil => cases hl
  | cons c text =>
    have hc := hd c mem_cons_self
    simp only [cons_append] at hs ⊢
    simp only [getNumber,dropWhile_cons,not_isSpace_digit hc,Bool.false_eq_true,↓reduceIte,
      head?_cons,Option.any_some,hc,hs]
    exact if_pos ⟨hlw,hh⟩

end

def Field.get (tm : Tm) : Field → Nat
  | .year => tm.year.toNat
  | .mon => tm.mon+1
  | .mday => tm.mday
  | .hour => tm.hour
  | .min => tm.min
  | .sec => tm.sec

/-- What a conversion does to the broken-down time when it reads what was printed. -/
def Conv.copy (tm acc : Tm) : Conv → Tm
  | .field f => f.set (f.get tm) acc
  | .literal _ => acc

section

variable {tm : Tm}

lemma getNumber_print (hv : tm.Valid) (hl : 1000 ≤ tm.year) (hh : tm.year ≤ 9999)
    (f : Field) (rest : Bytes) : getNumber f.bounds (f.print tm ++ rest) = some (f.get tm,rest) := by
  obtain ⟨hmo,hm,hhr,hmn,hs⟩ := hv
  cases f with
  | year =>
    have hp : printInt tm.year = decimal tm.year.toNat := by
      rw [printInt,if_neg (by omega)]
      congr 1
      omega
    rw [Field.print,hp]
    refine getNumber_prints (decimal_prints (k := 3) (.inr ?_) ?_) (Nat.zero_le _) ?_ rest
    all_goals omega
  | mon | mday | hour | min | sec =>
    exact getNumber_prints (twoDigits_prints (by omega)) (by omega) (by omega) rest

lemma strptime_strftime (hv : tm.Valid) (hl : 1000 ≤ tm.year) (hh : tm.year ≤ 9999)
    (format : List Conv) (rest : Bytes) (acc : Tm) :
    strptime format (strftime format tm ++ rest) acc = format.foldl (Conv.copy tm) acc := by
  induction format generalizing acc with
  | nil => rfl
  | cons conv format ih =>
    rw [strftime,flatMap_cons,append_assoc,foldl_cons,← ih]
    cases conv with
    | field f =>
      rw [Conv.print,strptime,getNumber_print hv hl hh]
      rfl
    | literal c =>
      rw [Conv.print,singleton_append,strptime,if_pos rfl]
      rfl

end

structure Zone where
  offset : Int → Int

def Zone.localtime (zone : Zone) (t : Int) : Tm := gmtime (t+zone.offset t)

/-- What `mktime` may return when `tm_isdst` is negative: an instant with this local time, if
there is one. -/
def Zone.Mktime (zone : Zone) (tm : Tm) (t : Int) : Prop :=
  (∃ u, zone.localtime u = tm) → zone.localtime t = tm

lemma Zone.mktime_gmtime (zone : Zone) (s t : Int) : zone.Mktime (gmtime s) t ↔
    ((∃ u, u+zone.offset u = s) → t+zone.offset t = s) := by
  have hl : ∀ u, zone.localtime u = gmtime s ↔ u+zone.offset u = s := fun u =>
    ⟨gmtime_injective,fun h => congrArg gmtime h⟩
  simp only [Mktime,hl]

end Calendar
