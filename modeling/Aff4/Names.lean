import Aff4.Lib.Text
import Aff4.Urn

/-! `escape_filename` and `unescape_filename` of misc.c: the names that go into a volume pass
through the first, and those of its directory through the second. -/

namespace Aff4

open LittleEndian List Option

def percent : UInt8 := 0x25

def illegalFilenameChars : Bytes :=
  chars ['|','?','[',']','\\','+','<','>',':','%',';','&','\'','"',',','*','#']

/-- A `char` is signed, so the bytes from 128 on are below 32 as well. -/
def escaped (x : UInt8) : Bool := x < 32 || 128 ≤ x || illegalFilenameChars.contains x

def hexDigit (n : Nat) : UInt8 := UInt8.ofNat (if n < 10 then 48+n else 55+n)

/-- The three characters that are kept of what `sprintf` writes for one byte. A
negative `char` is printed with all the digits of an `int`. -/
def escape (x : UInt8) : Bytes :=
  if x < 128 then [percent,hexDigit (x.toNat/16),hexDigit (x.toNat%16)]
  else [percent,hexDigit 15,hexDigit 15]

def printed (x : UInt8) : Nat := if x < 128 then 4 else 10

/-- The loop of `escape_filename` with `j` characters in the buffer. Writing past
the end of the buffer has no result. -/
def escapeFrom (size : Nat) : Nat → Bytes → Option Bytes
  | _, [] => some []
  | j, x :: rest =>
      if escaped x then
        if size < j+printed x then none
        else if buffSize-10 < j+3 then some (escape x)
        else (escapeFrom size (j+3) rest).map (escape x ++ ·)
      else (escapeFrom size (j+1) rest).map (x :: ·)

def escapeFilename (filename : Bytes) : Option Bytes :=
  if tallocNamedConst (filename.length*3+1) then
    escapeFrom (filename.length*3+1) 0 filename
  else none

/-- The letters after which `parse_int` multiplies by a multiple of 256. -/
def unitLetters : Bytes := chars ['s','K','k','m','M','g','G']

/-- The low byte of `parse_int` on `0x` and the next two characters. -/
def parseHex : Bytes → UInt8
  | [] => 0
  | c :: rest =>
    match Text.hexNibble c, rest with
    | none, _ => 0
    | some h, [] => UInt8.ofNat h
    | some h, d :: _ =>
      match Text.hexNibble d with
      | some l => UInt8.ofNat (16*h+l)
      | none => if unitLetters.contains d then 0 else UInt8.ofNat h

/-- The loop of `unescape_filename`, with the number of positions left and the number of characters
that belong to an escape already read. -/
def unescapeFrom : Nat → Nat → Bytes → Bytes
  | 0, _, _ => []
  | _+1, _, [] => []
  | budget+1, skip+1, _ :: rest => unescapeFrom budget skip rest
  | budget+1, 0, c :: rest =>
      if c = percent then parseHex rest :: unescapeFrom budget 2 rest
      else c :: unescapeFrom budget 0 rest

def unescapeFilename (filename : Bytes) : Bytes := unescapeFrom (buffSize-10) 0 filename

def Printable (c : UInt8) : Prop := c = percent ∨ escaped c = false

lemma hexDigit_plain : ∀ n < 16, escaped (hexDigit n) = false := by decide

lemma escape_cases (x : UInt8) :
    ∃ a b, escape x = [percent,a,b] ∧ escaped a = false ∧ escaped b = false := by
  by_cases hx : x < 128
  · have hlt : x.toNat < 128 := hx
    exact ⟨_,_,by rw [escape,if_pos hx],hexDigit_plain _ (by omega),hexDigit_plain _ (by omega)⟩
  · exact ⟨_,_,by rw [escape,if_neg hx],hexDigit_plain _ (by omega),hexDigit_plain _ (by omega)⟩

@[simp] lemma escape_length (x : UInt8) : (escape x).length = 3 := by
  obtain ⟨a,b,he,-,-⟩ := escape_cases x
  rw [he]
  rfl

lemma escape_printable (x : UInt8) : ∀ c ∈ escape x, Printable c := by
  obtain ⟨a,b,he,ha,hb⟩ := escape_cases x
  rw [he]
  intro c hc
  simp only [mem_cons,not_mem_nil,or_false] at hc
  rcases hc with rfl | rfl | rfl
  · exact .inl rfl
  · exact .inr ha
  · exact .inr hb

variable {size j : Nat}

variable {x c y : UInt8} {rest : Bytes}

lemma escapeFrom_cons {out : Bytes} (h : escapeFrom size j (x :: rest) = some out) :
    (escaped x = true ∧ buffSize-10 < j+3 ∧ out = escape x) ∨
    (escaped x = true ∧ ∃ more, escapeFrom size (j+3) rest = some more ∧ out = escape x ++ more) ∨
    (escaped x = false ∧ ∃ more, escapeFrom size (j+1) rest = some more ∧ out = x :: more) := by
  rw [escapeFrom] at h
  by_cases hx : escaped x = true
  · rw [if_pos hx] at h
    by_cases hr : size < j+printed x
    · simp [hr] at h
    · rw [if_neg hr] at h
      by_cases hst : buffSize-10 < j+3
      · rw [if_pos hst] at h
        exact .inl ⟨hx,hst,(some.inj h).symm⟩
      · rw [if_neg hst] at h
        obtain ⟨more,hm,ho⟩ := map_eq_some_iff.mp h
        exact .inr (.inl ⟨hx,more,hm,ho.symm⟩)
  · rw [if_neg hx] at h
    obtain ⟨more,hm,ho⟩ := map_eq_some_iff.mp h
    exact .inr (.inr ⟨by simpa using hx,more,hm,ho.symm⟩)

lemma escapeFrom_printable {name out : Bytes}
    (h : escapeFrom size j name = some out) : ∀ c ∈ out, Printable c := by
  induction name generalizing j out with
  | nil =>
    cases h
    simp
  | cons x rest ih =>
    obtain ⟨-,-,rfl⟩ | ⟨-,more,hm,rfl⟩ | ⟨hx,more,hm,rfl⟩ := escapeFrom_cons h
    · exact escape_printable x
    · intro c hc
      rcases mem_append.mp hc with hc | hc
      · exact escape_printable x c hc
      · exact ih hm c hc
    · intro c hc
      rcases mem_cons.mp hc with rfl | hc
      · exact .inr hx
      · exact ih hm c hc

lemma escapeFrom_length {name out : Bytes} (h : escapeFrom size j name = some out) :
    min (j+name.length) (buffSize-9) ≤ j+out.length := by
  induction name generalizing j out with
  | nil =>
    simp
  | cons x rest ih =>
    obtain ⟨-,hst,rfl⟩ | ⟨-,more,hm,rfl⟩ | ⟨-,more,hm,rfl⟩ := escapeFrom_cons h
    · rw [escape_length]
      omega
    · have := ih hm
      simp only [length_append,escape_length,length_cons]
      omega
    · have := ih hm
      simp only [length_cons]
      omega

lemma unescapeFrom_length (budget skip : Nat) (name : Bytes) :
    (unescapeFrom budget skip name).length ≤ min budget (name.length-skip) := by
  induction budget generalizing skip name with
  | zero => simp [unescapeFrom]
  | succ budget ih =>
    match skip, name with
    | _, [] => simp [unescapeFrom]
    | skip+1, c :: rest =>
      have := ih skip rest
      simp only [unescapeFrom,length_cons]
      omega
    | 0, c :: rest =>
      rw [unescapeFrom]
      split
      · have := ih 2 rest
        simp only [length_cons]
        omega
      · have := ih 0 rest
        simp only [length_cons]
        omega

lemma unescapeFrom_escape (budget : Nat) (x : UInt8) (rest : Bytes) :
    (unescapeFrom budget 0 (escape x ++ rest)).length ≤
      1+(unescapeFrom (budget-3) 0 rest).length := by
  obtain ⟨a,b,he,-,-⟩ := escape_cases x
  rw [he]
  match budget with
  | 0 => simp [unescapeFrom]
  | 1 => simp [unescapeFrom]
  | 2 => simp [unescapeFrom]
  | budget+3 =>
    simp only [cons_append,nil_append,unescapeFrom,if_true,length_cons,Nat.add_sub_cancel]
    omega

lemma unescapeFrom_escape_last (budget : Nat) (x : UInt8) :
    (unescapeFrom budget 0 (escape x)).length ≤ 1 := by
  have h1 := unescapeFrom_escape budget x []
  have h2 := unescapeFrom_length (budget-3) 0 []
  simp only [append_nil,length_nil] at h1 h2
  omega

lemma ne_percent_of_plain (h : escaped x = false) : x ≠ percent := by
  rintro rfl
  exact absurd h (by decide)

lemma unescapeFrom_escapeFrom_length {name out : Bytes}
    (h : escapeFrom size j name = some out) (budget : Nat) :
    (unescapeFrom budget 0 out).length ≤ name.length := by
  induction name generalizing j out budget with
  | nil =>
    cases h
    exact le_trans (unescapeFrom_length budget 0 []) (by simp)
  | cons x rest ih =>
    obtain ⟨-,-,rfl⟩ | ⟨-,more,hm,rfl⟩ | ⟨hx,more,hm,rfl⟩ := escapeFrom_cons h
    · have h1 := unescapeFrom_escape_last budget x
      simp only [length_cons]
      omega
    · have h1 := unescapeFrom_escape budget x more
      have h2 := ih hm (budget-3)
      simp only [length_cons]
      omega
    · cases budget with
      | zero => simp [unescapeFrom]
      | succ budget =>
        have hne := ne_percent_of_plain hx
        have h2 := ih hm budget
        simp only [unescapeFrom,if_neg hne,length_cons]
        omega

lemma unescapeFrom_escapeFrom_shorter {name out : Bytes}
    (h : escapeFrom size j name = some out) (he : ∃ x ∈ name, escaped x = true)
    (budget : Nat) : (unescapeFrom budget 0 out).length < out.length := by
  induction name generalizing j out budget with
  | nil => simp at he
  | cons x rest ih =>
    obtain ⟨-,-,rfl⟩ | ⟨-,more,hm,rfl⟩ | ⟨hx,more,hm,rfl⟩ := escapeFrom_cons h
    · have h1 := unescapeFrom_escape_last budget x
      rw [escape_length]
      omega
    · have h1 := unescapeFrom_escape budget x more
      have h2 := unescapeFrom_length (budget-3) 0 more
      simp only [length_append,escape_length]
      omega
    · cases budget with
      | zero => simp [unescapeFrom]
      | succ budget =>
        have hne := ne_percent_of_plain hx
        obtain ⟨y,hy,hys⟩ := he
        have hr : ∃ x ∈ rest, escaped x = true := by
          rcases mem_cons.mp hy with rfl | hy
          · rw [hx] at hys
            exact absurd hys (by decide)
          · exact ⟨y,hy,hys⟩
        have h2 := ih hm hr budget
        simp only [unescapeFrom,if_neg hne,length_cons]
        omega

lemma escapeFrom_plain {name : Bytes} (h : ∀ x ∈ name, escaped x = false) (size j : Nat)
    (rest : Bytes) : escapeFrom size j (name ++ rest) =
      (escapeFrom size (j+name.length) rest).map (name ++ ·) := by
  induction name generalizing j with
  | nil => simp
  | cons x name ih =>
    have hx : ¬ escaped x = true := by simp [h x]
    rw [cons_append,escapeFrom,if_neg hx,ih fun y hy => h y (mem_cons_of_mem x hy),
      Option.map_map,length_cons,add_assoc,add_comm 1]
    rfl

lemma unescapeFrom_plain {name : Bytes} (h : ∀ x ∈ name, escaped x = false) (budget : Nat)
    (rest : Bytes) : unescapeFrom (budget+name.length) 0 (name ++ rest) =
      name ++ unescapeFrom budget 0 rest := by
  induction name with
  | nil => rfl
  | cons x name ih =>
    have hne := ne_percent_of_plain (h x mem_cons_self)
    rw [length_cons,← add_assoc,cons_append,unescapeFrom,if_neg hne,
      ih fun y hy => h y (mem_cons_of_mem x hy)]
    rfl

instance (c : UInt8) : Decidable (Printable c) := inferInstanceAs (Decidable (_ ∨ _))

lemma Printable.ne_zero (h : Printable c) : c ≠ 0 := by
  rintro rfl
  exact absurd h (by decide)

lemma Printable.ne_colon (h : Printable c) : c ≠ colon := by
  rintro rfl
  exact absurd h (by decide)

section

variable {name out : Bytes} (h : escapeFilename name = some out)
include h

lemma escapeFrom_of_escapeFilename : escapeFrom (name.length*3+1) 0 name = some out := by
  rw [escapeFilename] at h
  split at h
  · exact h
  · cases h

lemma escapeFilename_printable :
    ∀ c ∈ out, Printable c := escapeFrom_printable (escapeFrom_of_escapeFilename h)

lemma escapeFilename_length : min name.length (buffSize-9) ≤ out.length := by
  have := escapeFrom_length (escapeFrom_of_escapeFilename h)
  simpa using this

lemma escapeFilename_plain (hp : ∀ x ∈ name, escaped x = false) : out = name := by
  have hr := escapeFrom_of_escapeFilename h
  have ha := escapeFrom_plain hp (name.length*3+1) 0 []
  rw [append_nil,hr] at ha
  simpa [escapeFrom] using ha

end

lemma unescapeFilename_plain {name : Bytes} (hp : ∀ x ∈ name, escaped x = false)
    (hl : name.length ≤ buffSize-10) : unescapeFilename name = name := by
  have ha := unescapeFrom_plain hp (buffSize-10-name.length) []
  have hn : unescapeFrom (buffSize-10-name.length) 0 [] = [] := by
    cases buffSize-10-name.length <;> rfl
  rwa [Nat.sub_add_cancel hl,hn,append_nil] at ha

lemma unescapeFilename_length_le (name : Bytes) :
    (unescapeFilename name).length ≤ buffSize-10 ∧ (unescapeFilename name).length ≤ name.length := by
  have := unescapeFrom_length (buffSize-10) 0 name
  simp only [unescapeFilename]
  omega

variable {name out : Bytes} (h : escapeFilename name = some out)

include h in
lemma unescapeFilename_escapeFilename_length : (unescapeFilename out).length ≤ name.length :=
  unescapeFrom_escapeFrom_length (escapeFrom_of_escapeFilename h) _

include h in
lemma unescapeFilename_escapeFilename_shorter (he : ∃ x ∈ name, escaped x = true) :
    (unescapeFilename out).length < out.length :=
  unescapeFrom_escapeFrom_shorter (escapeFrom_of_escapeFilename h) he _

lemma scheme_unescapeFilename {r out : Bytes} (h : escapeFilename (fqn ++ r) = some out) :
    chars ['a','f','f','4',':'] <+: unescapeFilename out := by
  have hp : ∀ x ∈ chars ['a','f','f','4'], escaped x = false := by decide +kernel
  have hr := escapeFrom_of_escapeFilename h
  have hsp : fqn ++ r = chars ['a','f','f','4'] ++ colon :: (chars ['/','/'] ++ r) := rfl
  rw [hsp,escapeFrom_plain hp] at hr
  obtain ⟨tail,ht,rfl⟩ := map_eq_some_iff.mp hr
  have hc : ∃ more, tail = escape colon ++ more := by
    obtain ⟨-,-,rfl⟩ | ⟨-,more,-,rfl⟩ | ⟨hx,-⟩ := escapeFrom_cons ht
    · exact ⟨[],rfl⟩
    · exact ⟨more,rfl⟩
    · exact absurd hx (by decide)
  obtain ⟨more,rfl⟩ := hc
  exact ⟨_,rfl⟩

def loadedName (stored : Bytes) : Bytes := cstring (unescapeFilename stored)

lemma loadedName_length_le (stored : Bytes) :
    (loadedName stored).length ≤ (unescapeFilename stored).length :=
  ( takeWhile_prefix _).length_le

section

variable {name stored name' stored' : Bytes} (hs : escapeFilename name = some stored)
  (hs' : escapeFilename name' = some stored')

include hs hs' in
lemma loadedName_ne_of_longer (h : name.length < name'.length) : loadedName stored ≠ stored' := by
  intro he
  have h1 := loadedName_length_le stored
  have h2 := unescapeFilename_escapeFilename_length hs
  have h3 := (unescapeFilename_length_le stored).1
  have h4 := escapeFilename_length hs'
  have h5 := congrArg length he
  have h6 : buffSize-10 < buffSize-9 := by decide
  omega

include hs in
lemma loadedName_ne_of_escaped (h : ∃ x ∈ name, escaped x = true) : loadedName stored ≠ stored := by
  intro he
  have h1 := loadedName_length_le stored
  have h2 := unescapeFilename_escapeFilename_shorter hs h
  have h3 := congrArg length he
  omega

include hs' in
lemma loadedName_ne_of_fqn {r : Bytes} (h : escapeFilename (fqn ++ r) = some stored) :
    loadedName stored ≠ stored' := by
  intro he
  obtain ⟨rest,hr⟩ := scheme_unescapeFilename h
  have hm : colon ∈ loadedName stored := by
    rw [loadedName,← hr,cstring_append (by decide +kernel)]
    exact mem_append_left _ (by decide)
  rw [he] at hm
  exact (escapeFilename_printable hs' _ hm).ne_colon rfl

end

/-! Two names that are not cut off are escaped to the same text only if they differ in nothing
but their bytes from 128 on. -/

def shown (x : UInt8) : UInt8 := if x < 128 then x else 255

def letter (x : UInt8) : Bytes := if escaped x then escape x else [x]

lemma escapeFrom_letters {name out : Bytes} (h : escapeFrom size j name = some out) :
    out = name.flatMap letter ∨ buffSize-9 ≤ j+out.length := by
  induction name generalizing j out with
  | nil =>
    cases h
    exact .inl rfl
  | cons x rest ih =>
    rw [flatMap_cons]
    obtain ⟨-,hst,rfl⟩ | ⟨hx,more,hm,rfl⟩ | ⟨hx,more,hm,rfl⟩ := escapeFrom_cons h
    · rw [escape_length]
      omega
    · rcases ih hm with rfl | hl
      · exact .inl (by rw [letter,if_pos hx])
      · refine .inr ?_
        rw [length_append,escape_length]
        omega
    · rcases ih hm with rfl | hl
      · refine .inl ?_
        rw [letter,if_neg (by simp [hx])]
        rfl
      · refine .inr ?_
        rw [length_cons]
        omega

lemma hexDigit_injective : ∀ n < 16, ∀ m < 16, hexDigit n = hexDigit m → n = m := by decide

lemma escape_shown (x : UInt8) :
    escape x = [percent,hexDigit ((shown x).toNat/16),hexDigit ((shown x).toNat%16)] := by
  rw [escape,shown]
  split <;> rfl

lemma escape_injective (h : escape x = escape y) : shown x = shown y := by
  rw [escape_shown,escape_shown] at h
  obtain ⟨-,ht⟩ := cons.inj h
  obtain ⟨hh,ht⟩ := cons.inj ht
  have hx := (shown x).toNat_lt
  have hy := (shown y).toNat_lt
  have h₁ := hexDigit_injective _ (by omega) _ (by omega) hh
  have h₂ := hexDigit_injective _ (by omega) _ (by omega) (cons.inj ht).1
  refine UInt8.toNat_inj.mp ?_
  omega

lemma percent_escaped : escaped percent = true := by decide

lemma letter_append_injective {rest' : Bytes}
    (h : letter x ++ rest = letter y ++ rest') : shown x = shown y ∧ rest = rest' := by
  rw [letter,letter] at h
  split at h <;> split at h
  · obtain ⟨hxy,hr⟩ := append_inj h (by rw [escape_length,escape_length])
    exact ⟨escape_injective hxy,hr⟩
  · next _ hy =>
    rw [escape_shown] at h
    exact absurd ((cons.inj h).1 ▸ percent_escaped) hy
  · next hx _ =>
    rw [escape_shown] at h
    exact absurd ((cons.inj h).1 ▸ percent_escaped) hx
  · obtain ⟨rfl,hr⟩ := cons.inj h
    exact ⟨rfl,hr⟩

lemma letter_ne_nil (x : UInt8) : letter x ≠ [] := by
  rw [letter]
  split
  · simp [escape_shown]
  · simp

lemma letters_injective {name name' : Bytes}
    (h : name.flatMap letter = name'.flatMap letter) : name.map shown = name'.map shown := by
  induction name generalizing name' with
  | nil =>
    cases name' with
    | nil => rfl
    | cons y name' => simp [letter_ne_nil] at h
  | cons x name ih =>
    cases name' with
    | nil => simp [letter_ne_nil] at h
    | cons y name' =>
      obtain ⟨hxy,hr⟩ := letter_append_injective h
      rw [map_cons,map_cons,hxy,ih hr]

include h in
lemma escapeFilename_injective {name' : Bytes} (h' : escapeFilename name' = some out)
    (hln : out.length < buffSize-9) : name.map shown = name'.map shown := by
  have hf : ∀ {n : Bytes}, escapeFilename n = some out → out = n.flatMap letter := by
    intro n hn
    rcases escapeFrom_letters (escapeFrom_of_escapeFilename hn) with ho | hl
    · exact ho
    · omega
  exact letters_injective ((hf h).symm.trans (hf h'))

end Aff4
