import Aff4.Names
import Aff4.Resolver

/-! Which names survive escaping, and where `escape_filename` and `unescape_filename` leave the
memory they were given. -/

namespace Aff4

open LittleEndian List Nat

lemma forall_split_cons {P : Bytes → UInt8 → Prop} {x : UInt8} {rest : Bytes} :
    (∀ before y after, x :: rest = before ++ y :: after → P before y) ↔
      P [] x ∧ ∀ before y after, rest = before ++ y :: after → P (x :: before) y := by
  constructor
  · intro h
    refine ⟨h [] x rest rfl,fun before y after he => h (x :: before) y after ?_⟩
    rw [he]
    rfl
  · rintro ⟨hx,hr⟩ before y after he
    cases before with
    | nil =>
      obtain ⟨rfl,-⟩ := cons.inj he
      exact hx
    | cons z before =>
      obtain ⟨rfl,ht⟩ := cons.inj he
      exact hr before y after ht

def width (x : UInt8) : Nat := if escaped x then 3 else 1

def escapedLength (name : Bytes) : Nat := (name.map width).sum

def escapedText (x : UInt8) : Bytes := if escaped x then escape x else [x]

@[simp] lemma escapedLength_nil : escapedLength [] = 0 := rfl

@[simp] lemma escapedLength_cons (x : UInt8) (name : Bytes) :
    escapedLength (x :: name) = width x+escapedLength name := by simp [escapedLength]

lemma width_le (x : UInt8) : 1 ≤ width x ∧ width x ≤ 3 := by
  rw [width]
  split <;> decide

lemma escapedLength_le (name : Bytes) : escapedLength name ≤ 3*name.length := by
  induction name with
  | nil => simp
  | cons x name ih =>
    have := (width_le x).2
    simp only [escapedLength_cons,length_cons]
    omega

lemma lt_of_not_escaped {x : UInt8} (h : escaped x = false) : x < 128 ∧ x ≠ percent := by
  refine ⟨?_,?_⟩
  · by_contra hx
    have hh : 128 ≤ x := UInt8.not_lt.mp hx
    simp [escaped,hh] at h
  · rintro rfl
    exact absurd h (by decide)

lemma escaped_of_high {x : UInt8} (h : 128 ≤ x) : escaped x = true := by simp [escaped,h]

def reached : Nat → Bytes → Bytes
  | _, [] => []
  | j, x :: rest => if escaped x ∧ buffSize-10 < j+3 then [x] else x :: reached (j+width x) rest

lemma reached_stop {j : Nat} {x : UInt8} (hx : escaped x = true) (h : buffSize-10 < j+3)
    (rest : Bytes) : reached j (x :: rest) = [x] := if_pos ⟨hx,h⟩

lemma reached_cons {j : Nat} {x : UInt8} (h : ¬ (escaped x = true ∧ buffSize-10 < j+3))
    (rest : Bytes) : reached j (x :: rest) = x :: reached (j+width x) rest := if_neg h

lemma reached_all {j : Nat} {name : Bytes} (h : j+3*name.length ≤ buffSize-10) :
    reached j name = name := by
  induction name generalizing j with
  | nil => rfl
  | cons x rest ih =>
    have hw := (width_le x).2
    rw [length_cons] at h
    rw [reached_cons (fun hs => by omega),ih (by omega)]

/-- Each byte that is reached is escaped or kept, if there is room for the ten bytes that
`sprintf` writes for one from 128 on. -/
lemma escapeFrom_iff {size j : Nat} {name out : Bytes} (hsz : j+3*name.length < size) :
    escapeFrom size j name = some out ↔
      (∀ before x after, reached j name = before ++ x :: after → 128 ≤ x →
        j+escapedLength before+10 ≤ size) ∧ out = (reached j name).flatMap escapedText := by
  induction name generalizing j out with
  | nil => simp [escapeFrom,reached,eq_comm]
  | cons x rest ih =>
    rw [length_cons] at hsz
    have hsp := @forall_split_cons
      (fun before y => 128 ≤ y → j+escapedLength before+10 ≤ size) x
    have hrs : (escapeFrom size (j+width x) rest).map (escapedText x ++ ·) = some out ↔
        (∀ before y after, reached (j+width x) rest = before ++ y :: after → 128 ≤ y →
          j+escapedLength (x :: before)+10 ≤ size) ∧
        out = (x :: reached (j+width x) rest).flatMap escapedText := by
      have hw := (width_le x).2
      have htl := fun out => @ih (j+width x) out (by omega)
      simp only [Option.map_eq_some_iff,htl,escapedLength_cons,← add_assoc,flatMap_cons]
      constructor
      · rintro ⟨_,⟨hf,rfl⟩,rfl⟩
        exact ⟨hf,rfl⟩
      · rintro ⟨hf,rfl⟩
        exact ⟨_,⟨hf,rfl⟩,rfl⟩
    by_cases hx : escaped x = true
    · have hp : ¬ size < j+printed x ↔ (128 ≤ x → j+10 ≤ size) := by
        rw [printed]
        by_cases hl : x < 128
        · simp only [hl,if_true,UInt8.not_le.mpr hl,false_implies,iff_true]
          omega
        · simp [hl,UInt8.not_lt.mp hl]
      have hwd : width x = 3 := if_pos hx
      have ht : escapedText x = escape x := if_pos hx
      rw [escapeFrom,if_pos hx]
      by_cases hs : buffSize-10 < j+3
      · rw [reached_stop hx hs,hsp,if_pos hs]
        by_cases hr : size < j+printed x
        · simp [hr,← hp]
        · simp [hr,← hp,ht,eq_comm]
      · rw [reached_cons (fun h => hs h.2),hsp,if_neg hs,and_assoc,← hrs,hwd,ht]
        by_cases hr : size < j+printed x
        · simp [hr,← hp]
        · simp [hr,← hp]
    · have hl : ¬ 128 ≤ x := fun h => hx (escaped_of_high h)
      have hwd : width x = 1 := if_neg hx
      have ht : escapedText x = [x] := if_neg hx
      rw [escapeFrom,if_neg hx,reached_cons (fun h => hx h.1),hsp,and_assoc,← hrs,hwd,ht]
      simp [hl]

lemma hexNibble_hexDigit : ∀ n < 16, Text.hexNibble (hexDigit n) = some n := by decide

def readBack (x : UInt8) : UInt8 := if x < 128 then x else 255

lemma readBack_eq_iff (x : UInt8) : readBack x = x ↔ (128 ≤ x → x = 255) := by
  rw [readBack]
  by_cases hx : x < 128
  · simp [hx,UInt8.not_le.mpr hx]
  · simp [hx,UInt8.not_lt.mp hx,eq_comm]

lemma parseHex_digits {h l : Nat} (hh : h < 16) (hl : l < 16) (rest : Bytes) :
    parseHex (hexDigit h :: hexDigit l :: rest) = UInt8.ofNat (16*h+l) := by
  simp [parseHex,hexNibble_hexDigit h hh,hexNibble_hexDigit l hl]

lemma unescapeFrom_escapedText (budget : Nat) (x : UInt8) (rest : Bytes) :
    unescapeFrom (budget+width x) 0 (escapedText x ++ rest) =
      readBack x :: unescapeFrom budget 0 rest := by
  by_cases hx : escaped x = true
  · have hd : ∃ h l, escape x = [percent,hexDigit h,hexDigit l] ∧ h < 16 ∧ l < 16 ∧
        UInt8.ofNat (16*h+l) = readBack x := by
      by_cases hlw : x < 128
      · have hlt : x.toNat < 128 := hlw
        refine ⟨x.toNat/16,x.toNat%16,by rw [escape,if_pos hlw],by omega,by omega,?_⟩
        rw [readBack,if_pos hlw,div_add_mod,UInt8.ofNat_toNat]
      · exact ⟨15,15,by rw [escape,if_neg hlw],by decide,by decide,by rw [readBack,if_neg hlw]; rfl⟩
    obtain ⟨h,l,he,hh,hl,hb⟩ := hd
    rw [escapedText,width,if_pos hx,if_pos hx,he]
    simp [unescapeFrom,parseHex_digits hh hl,hb]
  · obtain ⟨hlw,hne⟩ := lt_of_not_escaped (Bool.eq_false_iff.mpr hx)
    rw [escapedText,width,if_neg hx,if_neg hx,singleton_append,unescapeFrom,if_neg hne,
      readBack,if_pos hlw]

lemma unescapeFrom_flatMap (budget : Nat) (name : Bytes) :
    unescapeFrom (budget+escapedLength name) 0 (name.flatMap escapedText) = name.map readBack := by
  induction name with
  | nil => cases budget <;> rfl
  | cons x name ih =>
    rw [escapedLength_cons,add_comm (width x),← add_assoc,flatMap_cons,
      unescapeFrom_escapedText,ih,map_cons]

/-- The names that come back: their bytes from 128 on are all 255, and `sprintf` has room for
ten bytes at each of them. -/
def Keeps (name : Bytes) : Prop :=
  ∀ before x after, name = before ++ x :: after → 128 ≤ x →
    x = 255 ∧ escapedLength before+10 ≤ 3*name.length+1

lemma keeps_of_low {name : Bytes} (h : ∀ x ∈ name, x < 128) : Keeps name := by
  intro before x after he hx
  exact absurd (h x (by simp [he])) (UInt8.not_lt.mpr hx)

section

variable {name : Bytes} (hln : 3*name.length ≤ buffSize-10)

include hln

lemma escapeFilename_iff {out : Bytes} : escapeFilename name = some out ↔
    (∀ before x after, name = before ++ x :: after → 128 ≤ x →
      escapedLength before+10 ≤ 3*name.length+1) ∧ out = name.flatMap escapedText := by
  have hs : name.length*3+1 < maxTallocSize := by
    simp only [buffSize,maxTallocSize] at hln ⊢
    omega
  have hi := @escapeFrom_iff (name.length*3+1) 0 name out (by omega)
  have ha : reached 0 name = name := reached_all (by omega)
  simp only [zero_add,mul_comm name.length,ha] at hi
  rw [escapeFilename,tallocNamedConst,decide_eq_true hs,if_pos rfl,mul_comm,hi]

lemma unescapeFilename_escaped : unescapeFilename (name.flatMap escapedText) =
    name.map readBack := by
  have hle := escapedLength_le name
  have hb : buffSize-10 = buffSize-10-escapedLength name+escapedLength name := by omega
  rw [unescapeFilename,hb]
  exact unescapeFrom_flatMap _ name

lemma unescape_escape_iff :
    (∃ out, escapeFilename name = some out ∧ unescapeFilename out = name) ↔ Keeps name := by
  have hb : name.map readBack = name ↔ ∀ x ∈ name, 128 ≤ x → x = 255 := by
    have hsl : name.map readBack = name ↔ name.map readBack = name.map id := by simp
    rw [hsl,map_inj_left]
    simp only [id,readBack_eq_iff]
  simp only [escapeFilename_iff hln]
  constructor
  · rintro ⟨_,⟨hf,rfl⟩,hs⟩ before x after he hx
    rw [unescapeFilename_escaped hln,hb] at hs
    exact ⟨hs x (by simp [he]) hx,hf before x after he hx⟩
  · intro h
    refine ⟨_,⟨fun before x after he hx => (h before x after he hx).2,rfl⟩,?_⟩
    rw [unescapeFilename_escaped hln,hb]
    intro x hx hh
    obtain ⟨before,after,he⟩ := append_of_mem hx
    exact (h before x after he hh).1

end

namespace XSDString

def serialise (self : XSDString) : Option Bytes := escapeFilename self.value

lemma unescapeFilename_fits (text : Bytes) : (unescapeFilename text).length+1 < maxTallocSize := by
  have hle := (unescapeFilename_length_le text).1
  simp only [buffSize,maxTallocSize] at hle ⊢
  omega

def parse (serialised : Bytes) : XSDString where
  value := unescapeFilename (cstring serialised)
  fits := unescapeFilename_fits _

def clone (self : XSDString) : Option XSDString :=
  self.serialise.map fun text => parse (zstring text)

lemma parse_serialise {s : XSDString} {text : Bytes} (h : s.serialise = some text) :
    (parse (zstring text)).value = unescapeFilename text :=
  congrArg unescapeFilename (cstring_zstring fun c hc => (escapeFilename_printable h c hc).ne_zero)

end XSDString

/-- Escaping keeps exactly the names in `Keeps`, as plain names and as RDF strings, and no two of
them are stored under one name. -/
theorem escaping_keeps_iff {self : XSDString} (hln : 3*self.value.length ≤ 40950) :
    ((∃ out, escapeFilename self.value = some out ∧ unescapeFilename out = self.value ∧
        self.serialise = some out ∧ (XSDString.parse (zstring out)).value = self.value ∧
        self.clone.map XSDString.value = some self.value) ↔ Keeps self.value) ∧
    ∀ other : Bytes, 3*other.length ≤ 40950 → Keeps self.value → Keeps other →
      escapeFilename other = escapeFilename self.value → other = self.value := by
  constructor
  · rw [← unescape_escape_iff hln]
    constructor
    · rintro ⟨out,hou,hb,-⟩
      exact ⟨out,hou,hb⟩
    · rintro ⟨out,hou,hb⟩
      have hs : self.serialise = some out := hou
      have hp : (XSDString.parse (zstring out)).value = self.value := by
        rw [XSDString.parse_serialise hs,hb]
      have hc : self.clone.map XSDString.value = some self.value := by
        rw [XSDString.clone,hs,Option.map_some,Option.map_some,hp]
      exact ⟨out,hou,hb,hs,hp,hc⟩
  · intro other ho hk hk' he
    obtain ⟨out,hou,hb⟩ := (unescape_escape_iff hln).mpr hk
    obtain ⟨out',hou',hb'⟩ := (unescape_escape_iff ho).mpr hk'
    obtain rfl := Option.some.inj (hou'.symm.trans (he.trans hou))
    exact hb'.symm.trans hb

def lowString : XSDString := ⟨chars ['a','%','/'] ++ [0],by decide⟩

theorem escaping_keeps_low : ∃ out, escapeFilename lowString.value = some out ∧
    unescapeFilename out = lowString.value ∧ lowString.serialise = some out ∧
    (XSDString.parse (zstring out)).value = lowString.value ∧
    lowString.clone.map XSDString.value = some lowString.value :=
  (@escaping_keeps_iff lowString (by decide)).1.mpr (keeps_of_low (by decide +kernel))

def highString (x : UInt8) : XSDString := ⟨x :: chars ['a','a','a'],by simp [chars,maxTallocSize]⟩

/-- The byte 128 is stored as `%FF`, which is also what 129 becomes, and 255 comes back. -/
theorem escaping_high_byte_fails :
    escapeFilename (highString 128).value = some (chars ['%','F','F','a','a','a']) ∧
    escapeFilename (highString 129).value = some (chars ['%','F','F','a','a','a']) ∧
    unescapeFilename (chars ['%','F','F','a','a','a']) = (highString 255).value ∧
    (highString 128).clone.map XSDString.value ≠ some (highString 128).value := by
  decide +kernel

section

/-- An access to memory: to the table of illegal characters, to the string that is read, or to the
buffer that is filled. -/
inductive Access where
  | table (index : Int)
  | read (offset count : Nat)
  | write (offset count : Nat)
  deriving DecidableEq, Repr

/-- The access stays inside a table of 128 entries, a string of `input` bytes and a buffer of
`output` bytes. -/
def Access.Within (input output : Nat) : Access → Prop
  | .table index => 0 ≤ index ∧ index < 128
  | .read offset n => offset+n ≤ input
  | .write offset n => offset+n ≤ output

instance (input output : Nat) (a : Access) : Decidable (a.Within input output) :=
  match a with
  | .table _ => inferInstanceAs (Decidable (_ ∧ _))
  | .read _ _ => inferInstanceAs (Decidable (_ ≤ _))
  | .write _ _ => inferInstanceAs (Decidable (_ ≤ _))

@[simp] lemma Access.within_read {input output offset count : Nat} :
    (Access.read offset count).Within input output ↔ offset+count ≤ input := Iff.rfl

@[simp] lemma Access.within_write {input output offset count : Nat} :
    (Access.write offset count).Within input output ↔ offset+count ≤ output := Iff.rfl

/-- The accesses of `escape_filename` from byte `i` and character `j` on. The table is looked at
only for a `char` that is not below 32. -/
def escapeTrace : Nat → Nat → Bytes → List Access
  | _, j, [] => [.write j 1]
  | i, j, x :: rest =>
      .read i 1 :: ((if x.toInt8.toInt < 32 then [] else [.table x.toInt8.toInt]) ++
        if escaped x then .write j (printed x) ::
          if buffSize-10 < j+3 then [.write (j+3) 1] else escapeTrace (i+1) (j+3) rest
        else .write j 1 :: escapeTrace (i+1) (j+1) rest)

/-- How many bytes the buffer has. The size is computed as an `unsigned int`, and a buffer that
could not be allocated has none. -/
def escapeBlock (length : Nat) : Nat :=
  if tallocNamedConst ((3*length+1)%2^32) then (3*length+1)%2^32 else 0

/-- The bytes that `escape_filename` works on. Without a length it takes that of the C string, as
an `unsigned int`. -/
def escapeInput (filename : Bytes) (length : UInt32) : Bytes :=
  if length = 0 then filename.take ((cstring filename).length%2^32)
  else filename.take length.toNat

structure EscapeFits (name : Bytes) (size : Nat) : Prop where
  output : escapedLength (reached 0 name) < size
  high : ∀ before x after, reached 0 name = before ++ x :: after → 128 ≤ x →
    escapedLength before+10 ≤ size

lemma toInt8_of_low {x : UInt8} (h : x < 128) : x.toInt8.toInt = x.toNat := by
  have hlt : x.toNat < 128 := h
  exact BitVec.toInt_eq_toNat_of_lt (by change 2*x.toNat < 2^8; omega)

lemma toInt8_of_high {x : UInt8} (h : 128 ≤ x) : x.toInt8.toInt < 0 := by
  have hle : 128 ≤ x.toNat := h
  exact BitVec.toInt_neg_iff.mpr (by change 2^8 ≤ 2*x.toNat; omega)

lemma table_within (x : UInt8) (input output : Nat) :
    ∀ a ∈ (if x.toInt8.toInt < 32 then [] else [Access.table x.toInt8.toInt]),
      a.Within input output := by
  split
  · simp
  · next hge =>
    intro a ha
    rw [mem_singleton.mp ha]
    have hl : x < 128 := by
      by_contra hx
      have := toInt8_of_high (UInt8.not_lt.mp hx)
      omega
    have hlt : x.toNat < 128 := hl
    rw [Access.Within,toInt8_of_low hl]
    omega

lemma escapeTrace_within_iff {input size i j : Nat} {name : Bytes}
    (hrd : i+name.length ≤ input) : (∀ a ∈ escapeTrace i j name, a.Within input size) ↔
      j+escapedLength (reached j name) < size ∧
      ∀ before x after, reached j name = before ++ x :: after → 128 ≤ x →
        j+escapedLength before+10 ≤ size := by
  induction name generalizing i j with
  | nil => simp [escapeTrace,reached,Access.Within,succ_le_iff]
  | cons x rest ih =>
    rw [length_cons] at hrd
    have ho : i+1 ≤ input := by omega
    have ht := table_within x input size
    have hsp := @forall_split_cons
      (fun before y => 128 ≤ y → j+escapedLength before+10 ≤ size) x
    by_cases hx : escaped x = true
    · have hp : j+printed x ≤ size ↔ j+4 ≤ size ∧ (128 ≤ x → j+10 ≤ size) := by
        rw [printed]
        by_cases hlw : x < 128
        · simp [hlw,UInt8.not_le.mpr hlw]
        · simp only [hlw,if_false,UInt8.not_lt.mp hlw,true_implies]
          omega
      have hw : width x = 3 := if_pos hx
      by_cases hs : buffSize-10 < j+3
      · rw [reached_stop hx hs,hsp]
        simp only [escapeTrace,hx,hs,if_true,forall_mem_cons,forall_mem_append,
          Access.within_read,Access.within_write,ho,hp,true_and,escapedLength_cons,
          escapedLength_nil,hw]
        constructor
        · rintro ⟨-,⟨-,hh⟩,hl,-⟩
          exact ⟨by omega,hh,by simp⟩
        · rintro ⟨hl,hh,-⟩
          exact ⟨ht,⟨by omega,hh⟩,by omega,by simp⟩
      · rw [reached_cons (fun h => hs h.2),hsp]
        simp only [escapeTrace,hx,hs,if_true,if_false,forall_mem_cons,
          forall_mem_append,Access.within_read,Access.within_write,ho,hp,true_and,
          escapedLength_cons,escapedLength_nil,hw,← add_assoc,@ih (i+1) (j+3) (by omega)]
        constructor
        · rintro ⟨-,⟨-,hh⟩,hl,hr⟩
          exact ⟨hl,hh,hr⟩
        · rintro ⟨hl,hh,hr⟩
          exact ⟨ht,⟨by omega,hh⟩,hl,hr⟩
    · have hlw : ¬ 128 ≤ x := fun h => hx (escaped_of_high h)
      have hw : width x = 1 := if_neg hx
      rw [reached_cons (fun h => hx h.1),hsp]
      simp only [escapeTrace,if_neg hx,forall_mem_cons,forall_mem_append,
        Access.within_read,Access.within_write,ho,
        true_and,escapedLength_cons,hlw,false_implies,hw,← add_assoc,
        @ih (i+1) (j+1) (by omega)]
      constructor
      · rintro ⟨-,-,hr⟩
        exact hr
      · rintro ⟨hl,hr⟩
        exact ⟨ht,by omega,hl,hr⟩

/-- The accesses of `unescape_filename` from character `i` and byte `j` on, with the number of
characters that belong to an escape already read. -/
def unescapeTrace : Nat → Nat → Nat → Bytes → List Access
  | _, _, _, [] => []
  | skip+1, i, j, _ :: rest => unescapeTrace skip (i+1) j rest
  | 0, i, j, c :: rest =>
      if buffSize-10 ≤ i then []
      else .read i 1 ::
        if c = percent then .read i 3 :: .write j 1 :: unescapeTrace 2 (i+1) (j+1) rest
        else .write j 1 :: unescapeTrace 0 (i+1) (j+1) rest

/-- One character that stands for itself, or an escape with both its digits. -/
def Token (t : Bytes) : Prop := (∃ c, c ≠ percent ∧ t = [c]) ∨ ∃ c d, t = [percent,c,d]

def EndsCut (s : Bytes) : Prop :=
  ∃ tokens : List Bytes, (∀ t ∈ tokens, Token t) ∧ s = tokens.flatten ++ [percent]

lemma not_endsCut_nil : ¬ EndsCut [] := by
  rintro ⟨tokens,-,h⟩
  simp at h

lemma endsCut_percent : EndsCut [percent] := ⟨[],by simp,rfl⟩

lemma endsCut_append {t s : Bytes} (ht : Token t) : EndsCut s → EndsCut (t ++ s) := by
  rintro ⟨tokens,htk,rfl⟩
  refine ⟨t :: tokens,?_,by simp⟩
  intro x hx
  rcases mem_cons.mp hx with rfl | hx
  · exact ht
  · exact htk x hx

lemma EndsCut.cases {s : Bytes} (h : EndsCut s) :
    s = [percent] ∨ ∃ t rest, Token t ∧ s = t ++ rest ∧ EndsCut rest := by
  obtain ⟨tokens,ht,rfl⟩ := h
  cases tokens with
  | nil => exact .inl rfl
  | cons t tokens =>
    refine .inr ⟨t,tokens.flatten ++ [percent],ht t mem_cons_self,by simp,tokens,?_,rfl⟩
    exact fun x hx => ht x (mem_cons_of_mem _ hx)

lemma endsCut_plain {c : UInt8} (hc : c ≠ percent) {rest : Bytes} :
    EndsCut (c :: rest) ↔ EndsCut rest := by
  refine ⟨fun h => ?_,endsCut_append (.inl ⟨c,hc,rfl⟩)⟩
  obtain he | ⟨t,more,⟨d,-,rfl⟩ | ⟨d,e,rfl⟩,he,hm⟩ := h.cases
  · exact absurd (cons.inj he).1 hc
  · exact (cons.inj he).2 ▸ hm
  · exact absurd (cons.inj he).1 hc

lemma endsCut_escape {c d : UInt8} {rest : Bytes} :
    EndsCut (percent :: c :: d :: rest) ↔ EndsCut rest := by
  refine ⟨fun h => ?_,endsCut_append (.inr ⟨c,d,rfl⟩)⟩
  obtain he | ⟨t,more,⟨x,hx,rfl⟩ | ⟨x,y,rfl⟩,he,hm⟩ := h.cases
  · simp at he
  · exact absurd (cons.inj he).1.symm hx
  · obtain ⟨-,-,rfl⟩ : c = x ∧ d = y ∧ rest = more := by simpa using he
    exact hm

lemma not_endsCut_short (c : UInt8) : ¬ EndsCut [percent,c] := by
  intro h
  obtain he | ⟨t,more,⟨x,hx,rfl⟩ | ⟨x,y,rfl⟩,he,hm⟩ := h.cases
  · simp at he
  · exact absurd (cons.inj he).1.symm hx
  · simp at he

lemma unescapeTrace_within_iff {size : Nat} (n : Nat) : ∀ {i j : Nat} {rest : Bytes},
    rest.length = n → i+n = size → j ≤ i →
    ((∀ a ∈ unescapeTrace 0 i j rest, a.Within (size+1) buffSize) ↔
      ¬ (size ≤ buffSize-10 ∧ EndsCut rest)) := by
  -- An escape is taken in one turn, so the induction is on the number of characters left.
  induction n using Nat.strongRecOn with
  | ind n ih =>
    intro i j rest hn hs hj
    match rest with
    | [] => exact iff_of_true (by simp [unescapeTrace]) fun h => not_endsCut_nil h.2
    | c :: rest =>
      rw [length_cons] at hn
      by_cases hi : buffSize-10 ≤ i
      · rw [unescapeTrace,if_pos hi]
        exact iff_of_true (by simp) fun h => by omega
      · have hw : j+1 ≤ buffSize := by omega
        have hr : i+1 ≤ size+1 := by omega
        by_cases hc : c = percent
        · subst hc
          match rest with
          | [] =>
            have hl : ¬ i+3 ≤ size+1 := by
              simp only [length_nil] at hn
              omega
            simp only [unescapeTrace,if_neg hi,if_true,forall_mem_cons,Access.within_read,
              hl,false_and,and_false,false_iff,not_not]
            exact ⟨by simp only [length_nil] at hn; omega,endsCut_percent⟩
          | [d] =>
            have hl : i+3 ≤ size+1 := by
              simp only [length_cons,length_nil] at hn
              omega
            simp [unescapeTrace,hi,hl,hw,hr,not_endsCut_short]
          | d :: e :: more =>
            simp only [length_cons] at hn
            have hth : i+3 ≤ size+1 := by omega
            have ht := @ih more.length (by omega) (i+1+2) (j+1) more rfl (by omega) (by omega)
            rw [endsCut_escape,← ht]
            simp [unescapeTrace,hi,hth,hw,hr]
        · have ht := @ih rest.length (by omega) (i+1) (j+1) rest rfl (by omega) (by omega)
          rw [endsCut_plain hc,← ht]
          simp [unescapeTrace,hi,hc,hw,hr]

end

/-- Where `escape_filename` stays inside its buffer and its table, and where `unescape_filename`
stays inside the string and its buffer. -/
theorem escaping_accesses_iff (filename : Bytes) (length : UInt32) (string : Bytes) :
    ((∀ a ∈ escapeTrace 0 0 (escapeInput filename length),
        a.Within filename.length (escapeBlock (escapeInput filename length).length)) ↔
      EscapeFits (escapeInput filename length)
        (escapeBlock (escapeInput filename length).length)) ∧
    ((∀ a ∈ unescapeTrace 0 0 0 (cstring string), a.Within ((cstring string).length+1) buffSize) ↔
      ¬ ((cstring string).length ≤ buffSize-10 ∧ EndsCut (cstring string))) := by
  constructor
  · have hr : 0+(escapeInput filename length).length ≤ filename.length := by
      rw [escapeInput,zero_add]
      split
      · exact ( take_prefix _ _).length_le
      · exact ( take_prefix _ _).length_le
    rw [escapeTrace_within_iff hr]
    simp only [zero_add]
    exact ⟨fun h => ⟨h.1,h.2⟩,fun h => ⟨h.output,h.high⟩⟩
  · exact unescapeTrace_within_iff _ rfl (zero_add _) (le_refl _)

/-- One byte from 128 on: ten bytes are written into a buffer of four. A `%` at the end: the byte
after the NUL is read. -/
theorem escaping_accesses_fail :
    ¬ (∀ a ∈ escapeTrace 0 0 (escapeInput [128,0] 1),
      a.Within 2 (escapeBlock (escapeInput [128,0] 1).length)) ∧
    ¬ (∀ a ∈ unescapeTrace 0 0 0 (cstring (zstring (chars ['%']))),
      a.Within ((cstring (zstring (chars ['%']))).length+1) buffSize) := by
  decide +kernel

end Aff4
