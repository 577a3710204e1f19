import Aff4.PacketStruct

/-! What `pack` writes of a structure is read back by `unpack`, where the buffers fit. -/

namespace Aff4.Pyflag

open LittleEndian Buffer List Option Function Nat UInt16

abbrev Text := {s : Bytes // (∀ c ∈ s, c ≠ 0) ∧ s.length < 2^31}

inductive Field where
  | char (b : UInt8)
  | short (n : UInt16)
  | shortLE (n : UInt16)
  | int (n : UInt32)
  | intLE (n : UInt32)
  | stringNullTerm (s : Text)
  | stringAndLength (s : {s : Bytes // s.length < 2^16})
  | stringAndLength32 (s : {s : Bytes // s.length < 2^31})
  | stringAndLengthLE32 (s : {s : Bytes // s.length < 2^31})
  | argvArray (l : {l : List Text // l.length < 2^16})

def Field.code : Field → Code
  | .char _ => .char
  | .short _ => .short
  | .shortLE _ => .shortLE
  | .int _ => .int
  | .intLE _ => .intLE
  | .stringNullTerm _ => .stringNullTerm
  | .stringAndLength _ => .stringAndLength
  | .stringAndLength32 _ => .stringAndLength32
  | .stringAndLengthLE32 _ => .stringAndLengthLE32
  | .argvArray _ => .argvArray

def HoldsString (struct : Struct) (o size : Nat) (length : Slot) (string : Bytes) : Prop :=
  struct o = some length ∧ ∃ more, struct (o+size) = some (.pointer (string ++ more))

def HoldsTexts : List (Option Bytes) → List Text → Prop
  | _, [] => True
  | some block :: entries, text :: texts =>
    (∃ more, block = text.1 ++ 0 :: more) ∧ HoldsTexts entries texts
  | _, _ :: _ => False

def Holds (struct : Struct) (o : Nat) : Field → Prop
  | .char b => struct o = some (.byte b)
  | .short n | .shortLE n => struct o = some (.half n)
  | .int n | .intLE n => struct o = some (.word n)
  | .stringNullTerm s => ∃ more, struct o = some (.pointer (s.1 ++ 0 :: more))
  | .stringAndLength s => HoldsString struct o 2 (.half (UInt16.ofNat s.1.length)) s.1
  | .stringAndLength32 s | .stringAndLengthLE32 s =>
      HoldsString struct o 4 (.word (UInt32.ofNat s.1.length)) s.1
  | .argvArray l => struct o = some (.half (UInt16.ofNat l.1.length)) ∧
      ∃ entries, struct (o+2) = some (.array entries) ∧ HoldsTexts entries l.1

def Represents (struct : Struct) : Nat → List Field → Prop
  | _, [] => True
  | o, field :: fields => Holds struct o field ∧ Represents struct (o+structSize field.code) fields

def pieces : Field → List Bytes
  | .char b => [[b]]
  | .short n => [(le16 n).reverse]
  | .shortLE n => [le16 n]
  | .int n => [(le32 n).reverse]
  | .intLE n => [le32 n]
  | .stringNullTerm s => [zstring s.1]
  | .stringAndLength s => [(le16 (UInt16.ofNat s.1.length)).reverse,s.1]
  | .stringAndLength32 s => [(le32 (UInt32.ofNat s.1.length)).reverse,s.1]
  | .stringAndLengthLE32 s => [le32 (UInt32.ofNat s.1.length),s.1]
  | .argvArray l => (le16 (UInt16.ofNat l.1.length)).reverse :: l.1.map fun s => zstring s.1

def writeAll (io : StringIO) (ps : List Bytes) : Option StringIO := ps.foldlM StringIO.write io

lemma writeAll_cons (io : StringIO) (p : Bytes) (ps : List Bytes) :
    writeAll io (p :: ps) = (io.write p).bind fun io => writeAll io ps := rfl

lemma writeAll_append (io : StringIO) (ps qs : List Bytes) :
    writeAll io (ps ++ qs) = (writeAll io ps).bind fun io => writeAll io qs :=
  foldlM_append

variable {s bytes : Bytes} {slot : Slot} {texts : List Text} {n : Nat} {field : Field}

lemma stringz_append (hs : ∀ c ∈ s, c ≠ 0) (more : Bytes) :
    stringz (s ++ 0 :: more) = some (zstring s) := by
  rw [stringz,if_pos (by simp),cstring_append hs]
  simp [cstring]

variable {input : Struct}

variable {load : Slot → Option Bytes}

lemma packNumber_eq {o : Nat} (ho : input o = some slot) (hl : load slot = some bytes)
    (output : StringIO) : packNumber load input o output =
      (writeAll output [bytes]).map fun io => (bytes.length,io) := by
  rw [packNumber,ho,bind_some,hl,bind_some]
  cases h : output.write bytes <;> simp [writeAll,h]

lemma sizeStringPack_eq {o size : Nat} {string : Bytes} (h : HoldsString input o size slot string)
    (hl : slot.length = string.length) (hld : load slot = some bytes)
    (hsz : bytes.length = size) (output : StringIO) : sizeStringPack load input o output =
      (writeAll output [bytes,string]).map fun io => (size+8,io) := by
  obtain ⟨ho,more,hs⟩ := h
  have hr : readAt (string ++ more) 0 string.length = some string := by
    rw [readAt_of_le (by simp)]
    simp
  simp only [sizeStringPack,ho,hld,bind_eq_bind,bind_some,hsz,hs,loadBlock,hl,hr,writeAll_cons]
  cases h : output.write bytes with
  | none => rfl
  | some io => cases h' : io.write string <;> simp [h',writeAll]

variable {entries : List (Option Bytes)}

lemma argvPackLoop_eq (h : HoldsTexts entries texts) (output : StringIO) :
    argvPackLoop texts.length entries output =
      writeAll output (texts.map fun s => zstring s.1) := by
  induction texts generalizing entries output with
  | nil => rfl
  | cons text texts ih =>
    cases entries with
    | nil => exact h.elim
    | cons entry entries =>
      cases entry with
      | none => exact h.elim
      | some block =>
        obtain ⟨⟨more,rfl⟩,hr⟩ := h
        rw [length_cons,argvPackLoop,stringz_append text.2.1,bind_some,map_cons,writeAll_cons]
        simp only [ih hr]

lemma argvArrayPack_eq {o : Nat} (hl : texts.length < 2^16)
    (ho : input o = some (.half (ofNat texts.length)))
    (ha : input (o+2) = some (.array entries)) (h : HoldsTexts entries texts)
    (output : StringIO) : argvArrayPack input o output =
      (writeAll output ((le16 (ofNat texts.length)).reverse ::
        texts.map fun s => zstring s.1)).map fun io => (2+8,io) := by
  have hln : (Slot.half (ofNat texts.length)).length = texts.length := toNat_ofNat_of_lt' hl
  simp only [argvArrayPack,ho,ha,loadShort,loadArray,bind_eq_bind,bind_some,
    hln,argvPackLoop_eq h,writeAll_cons]
  cases output.write (le16 (ofNat texts.length)).reverse with
  | none => rfl
  | some io =>
    rw [bind_some,bind_some]
    cases writeAll io (texts.map fun s => zstring s.1) <;> rfl

lemma length_half (h : n < 2^16) : (Slot.half (ofNat n)).length = n := toNat_ofNat_of_lt' h

lemma length_word (h : n < 2^31) : (Slot.word (UInt32.ofNat n)).length = n :=
  UInt32.toNat_ofNat_of_lt' (lt_trans h (by decide))

lemma packField_eq {o : Nat} (h : Holds input o field)
    (output : StringIO) : packField field.code input o output =
      (writeAll output (pieces field)).map fun io => (structSize field.code,io) := by
  cases field with
  | char b => exact packNumber_eq h rfl output
  | short n => exact packNumber_eq h rfl output
  | shortLE n => exact packNumber_eq h rfl output
  | int n => exact packNumber_eq h rfl output
  | intLE n => exact packNumber_eq h rfl output
  | stringNullTerm s =>
    obtain ⟨more,ho⟩ := h
    simp only [Field.code,packField,nullStringPack,ho,bind_some,loadBlock,stringz_append s.2.1]
    cases h' : output.write (zstring s.1) <;> simp [pieces,writeAll,h',structSize]
  | stringAndLength s => exact sizeStringPack_eq h (length_half s.2) rfl rfl output
  | stringAndLength32 s => exact sizeStringPack_eq h (length_word s.2) rfl rfl output
  | stringAndLengthLE32 s => exact sizeStringPack_eq h (length_word s.2) rfl rfl output
  | argvArray l =>
    obtain ⟨ho,entries,ha,ht⟩ := h
    exact argvArrayPack_eq l.2 ho ha ht output

def formatOf (fields : List Field) : List Code := fields.map Field.code

variable {fields : List Field} {o : Nat} (h : Represents input o fields)

include h in
lemma packLoop_some (hs : o+totalSize (formatOf fields) < 2^31) (output : StringIO) :
    packLoop input (formatOf fields) o output =
      (writeAll output (fields.flatMap pieces)).map fun io =>
        (o+totalSize (formatOf fields),io) := by
  induction fields generalizing o output with
  | nil => rfl
  | cons field fields ih =>
    obtain ⟨hf,hr⟩ := h
    have ht : totalSize (formatOf (field :: fields)) =
        structSize field.code+totalSize (formatOf fields) := rfl
    rw [ht,← add_assoc] at hs ⊢
    rw [formatOf,map_cons,packLoop,packField_eq hf,flatMap_cons,writeAll_append]
    cases writeAll output (pieces field) with
    | none => rfl
    | some io =>
      rw [map_some,bind_some,bind_some,addSize_eq_some (by omega)]
      exact ih hr hs io

include h in
lemma packLoop_none {output : StringIO} (hn : writeAll output (fields.flatMap pieces) = none) :
    packLoop input (formatOf fields) o output = none := by
  induction fields generalizing o output with
  | nil => cases hn
  | cons field fields ih =>
    obtain ⟨hf,hr⟩ := h
    rw [flatMap_cons,writeAll_append] at hn
    rw [formatOf,map_cons,packLoop,packField_eq hf]
    cases hfs : writeAll output (pieces field) with
    | none => rfl
    | some io =>
      rw [hfs,bind_some] at hn
      rw [map_some,bind_some]
      by_cases hs : o+structSize field.code < 2^31
      · rw [addSize_eq_some hs]
        exact ih hr hn
      · rw [addSize_eq_none (not_lt.mp hs)]
        rfl

lemma structSize_le (field : Field) : structSize field.code ≤ 8*(pieces field).flatten.length := by
  cases field <;> simp [Field.code,structSize,pieces] <;> omega

lemma totalSize_le (fields : List Field) :
    totalSize (formatOf fields) ≤ 8*(fields.flatMap pieces).flatten.length := by
  induction fields with
  | nil => exact le_refl 0
  | cons field fields ih =>
    have hf := structSize_le field
    have ht : totalSize (formatOf (field :: fields)) =
        structSize field.code+totalSize (formatOf fields) := rfl
    rw [ht,flatMap_cons,flatten_append,length_append]
    omega

section

open StringIO (growth growth_prefix)

variable {io : StringIO} {ps : List Bytes}

lemma writeAll_some (hs : io.Holding ps) (qs : List Bytes)
    (h : growth ((ps ++ qs).map length) < maxTallocSize) :
    ∃ io', writeAll io qs = some io' ∧ io'.Holding (ps ++ qs) := by
  induction qs generalizing io ps with
  | nil => exact ⟨io,rfl,by rwa [append_nil]⟩
  | cons q qs ih =>
    have ha : ps ++ q :: qs = ps ++ [q] ++ qs := by simp
    rw [ha] at h ⊢
    have hle : growth ((ps ++ [q]).map length) ≤ growth ((ps ++ [q] ++ qs).map length) :=
      growth_prefix ⟨qs.map length,by simp⟩
    obtain ⟨mid,hm⟩ := (hs.write_iff q).mpr (lt_of_le_of_lt hle h)
    obtain ⟨io',hio',hh⟩ := ih (hs.write hm) h
    exact ⟨io',by rw [writeAll_cons,hm,bind_some,hio'],hh⟩

lemma writeAll_none (hs : io.Holding ps) (qs : List Bytes)
    (h : maxTallocSize ≤ growth ((ps ++ qs).map length)) : writeAll io qs = none := by
  induction qs generalizing io ps with
  | nil =>
    rw [append_nil,← hs.alloc] at h
    exact absurd hs.appending.small (not_lt.mpr h)
  | cons q qs ih =>
    have ha : ps ++ q :: qs = ps ++ [q] ++ qs := by simp
    rw [ha] at h
    rw [writeAll_cons]
    cases hm : io.write q with
    | none => rfl
    | some mid => exact ih (hs.write hm) h

end

lemma taken_zstring (hs : ∀ c ∈ s, c ≠ 0) (more : Bytes) :
    taken (zstring s ++ more) = s.length+1 := by
  induction s with
  | nil => rfl
  | cons c s ih =>
    have hr := ih fun d hd => hs d (mem_cons_of_mem c hd)
    rw [zstring,cons_append,cons_append,taken,if_neg (hs c mem_cons_self)]
    rw [zstring] at hr
    rw [hr,length_cons]

lemma leNat_le16 (n : UInt16) : leNat (le16 n) = n.toNat := by
  rw [le16,leNat_leBytes]
  exact mod_eq_of_lt n.toNat_lt

lemma leNat_le32 (n : UInt32) : leNat (le32 n) = n.toNat := by
  rw [le32,leNat_leBytes]
  exact mod_eq_of_lt n.toNat_lt

lemma storeShortLE_le16 (n : UInt16) : storeShortLE (le16 n) = .half n := by
  rw [storeShortLE,leNat_le16,UInt16.ofNat_toNat]

lemma storeIntLE_le32 (n : UInt32) : storeIntLE (le32 n) = .word n := by
  rw [storeIntLE,leNat_le32,UInt32.ofNat_toNat]

lemma storeShort_le16 (n : UInt16) : storeShort (le16 n).reverse = .half n := by
  rw [storeShort,reverse_reverse,storeShortLE_le16]

lemma storeInt_le32 (n : UInt32) : storeInt (le32 n).reverse = .word n := by
  rw [storeInt,reverse_reverse,storeIntLE_le32]

lemma Holds.congr {before after : Struct} {o : Nat}
    (h : ∀ i, o ≤ i → i < o+structSize field.code → after i = before i)
    (hf : Holds before o field) : Holds after o field := by
  cases field <;>
    simp only [Holds,HoldsString,Field.code,structSize] at hf h ⊢ <;>
    first
    | rwa [h o (by omega) (by omega)]
    | rwa [h o (by omega) (by omega),h (o+2) (by omega) (by omega)]
    | rwa [h o (by omega) (by omega),h (o+4) (by omega) (by omega)]

section

variable {io : StringIO} (output : Struct) (o : Nat) {more : Bytes}

variable {size : Nat} {store : Bytes → Slot} {bytes : Bytes} {slot : Slot}

lemma unpackNumber_piece (h : Ready io)
    (hr : rest io = bytes ++ more) (hl : bytes.length = size)
    (hsz : size < 2^32) (hs : store bytes = slot) : unpackNumber size store io output o =
      some ⟨size,update output o (some slot),advance io bytes.length⟩ := by
  subst hl hs
  rw [unpackNumber_eq h hsz (by rw [hr,length_append]; omega),hr,take_left]

lemma sizeStringUnpack_piece (h : Ready io) {string : Bytes} (checked : Bool)
    (hr : rest io = [bytes,string].flatten ++ more) (hb : bytes.length = size)
    (hsz : size < 2^32) (hst : store bytes = slot) (hl : slot.length = string.length)
    (hs : string.length < maxTallocSize) : sizeStringUnpack size store checked io output o =
      some ⟨(size+8 : Nat), update (update output o (some slot)) (o+size) (some (.pointer string)),
        advance io [bytes,string].flatten.length⟩ := by
  subst hb hst
  have hf : [bytes,string].flatten = bytes ++ string := by simp
  rw [hf,append_assoc] at hr
  have hle : bytes.length ≤ (rest io).length := by rw [hr,length_append]; omega
  have ht : (rest io).take bytes.length = bytes := by rw [hr,take_left]
  have ha := rest_advance_append hr
  have hint : string.length < 2^31 := lt_trans hs (by decide)
  have hw : ¬ (string ++ more).length < string.length := by rw [length_append]; omega
  rw [sizeStringUnpack_eq h hsz hle store checked (by rwa [ht,hl]),ht,hl,
    copyString_eq (h.advance hle) hint,ha,if_neg hw,take_left,length_append,
    min_eq_left (le_add_right _ _),advance,advance,add_assoc,hf,length_append]
  rfl

lemma argvUnpackLoop_texts (texts : List Text) (h : Ready io)
    (hr : rest io = (texts.map fun s => zstring s.1).flatten ++ more)
    (hsm : io.data.length < maxTallocSize) (array : List (Option Bytes)) :
    argvUnpackLoop texts.length io array =
      some (array ++ texts.map (fun s => some (zstring s.1)) ++ [none],
        advance io (texts.map fun s => zstring s.1).flatten.length) := by
  induction texts generalizing io array with
  | nil => simp [argvUnpackLoop,advance]
  | cons text texts ih =>
    rw [map_cons,flatten_cons,append_assoc] at hr
    have hs : stringz (rest io) = some (zstring text.1) := by
      rw [hr,zstring,append_assoc]
      exact stringz_append text.2.1 _
    have hle : (zstring text.1).length ≤ (rest io).length := by
      rw [hr,length_append]
      omega
    have hd : tallocMemdup (zstring text.1) = some (zstring text.1) := by
      apply tallocMemdup_eq_some
      rw [rest_length] at hle
      omega
    have hn := ih (h.advance hle) (rest_advance_append hr) hsm
      (array ++ [some (zstring text.1)])
    rw [rest] at hs
    rw [length_cons,argvUnpackLoop,hs,bind_some,hd,bind_some]
    refine hn.trans ?_
    simp [advance,add_assoc]

lemma holdsTexts_map (texts : List Text) (tail : List (Option Bytes)) :
    HoldsTexts (texts.map (fun s => some (zstring s.1)) ++ tail) texts := by
  induction texts with
  | nil => simp [HoldsTexts]
  | cons text texts ih => exact ⟨⟨[],rfl⟩,ih⟩

/-- The byte by byte copy of a string that is not too long succeeds. -/
def Fits : Field → Prop
  | .stringNullTerm s => s.1.length+1 < 2^27
  | _ => True

lemma nullStringUnpack_piece (h : Ready io) (s : Text) (hr : rest io = zstring s.1 ++ more) :
    nullStringUnpack io output o = if s.1.length+1 < 2^27 then
        some ⟨8,update output o (some (.pointer (zstring s.1))), advance io (zstring s.1).length⟩
      else none := by
  have ht : (zstring s.1 ++ more).take (s.1.length+1) = zstring s.1 := by
    rw [← zstring_length,take_left]
  have hm : 0 ∈ zstring s.1 ++ more := by simp [zstring]
  rw [nullStringUnpack_eq h,hr,taken_zstring s.2.1,ht,zstring_length]
  simp only [if_pos hm]

lemma argvArrayUnpack_piece (h : Ready io) (texts : List Text) (hl : texts.length < 2^16)
    (hr : rest io = ((le16 (ofNat texts.length)).reverse ::
      texts.map fun s => zstring s.1).flatten ++ more)
    (hs : io.data.length < maxTallocSize) : argvArrayUnpack io output o = some ⟨2+8,
        update (update output o (some (.half (ofNat texts.length)))) (o+2)
          (some (.array (texts.map (fun s => some (zstring s.1)) ++ [none]))),
        advance io ((le16 (ofNat texts.length)).reverse ::
          texts.map fun s => zstring s.1).flatten.length⟩ := by
  rw [flatten_cons,append_assoc] at hr
  have ht : (le16 (ofNat texts.length)).reverse.length = 2 := by simp
  have hrd := readInto_piece h hr (by rw [ht]; decide)
  have hle : 2 ≤ (rest io).length := by
    rw [hr,length_append,ht]
    omega
  have ha := rest_advance_append hr
  have hlp := argvUnpackLoop_texts texts (h.advance hle) ha hs []
  have hrd' : readInto io 2 = some ((le16 (ofNat texts.length)).reverse,advance io 2) := hrd
  rw [argvArrayUnpack,hrd',bind_some,if_neg (by rw [ht]; decide),storeShort_le16,
    length_half hl,hlp,flatten_cons,length_append,ht]
  simp [advance,add_assoc]

lemma storeChar_singleton (b : UInt8) : storeChar [b] = .byte b := by simp [storeChar,leNat]

lemma unpackField_piece (h : Ready io) (hsm : io.data.length < maxTallocSize) {field : Field}
    (hr : rest io = (pieces field).flatten ++ more) (hft : Fits field) :
    ∃ after, unpackField field.code io output o =
        some ⟨structSize field.code,after,advance io (pieces field).flatten.length⟩ ∧
      Holds after o field ∧ Agree o (structSize field.code) output after := by
  have ho : ∀ slot : Slot, Agree o (structSize field.code) output (update output o (some slot)) :=
    fun slot => (Agree.refl o _ output).update (structSize_pos field.code) (some slot)
  have ht : ∀ {k : Nat} (slot slot' : Slot), k < structSize field.code →
      Agree o (structSize field.code) output
        (update (update output o (some slot)) (o+k) (some slot')) :=
    fun slot slot' hk => (ho slot).update hk (some slot')
  have hs : ∀ bytes string : Bytes, rest io = [bytes,string].flatten ++ more →
      string.length < maxTallocSize := by
    intro bytes string hf
    have hl := congrArg length hf
    rw [rest_length] at hl
    simp only [flatten_cons,length_append] at hl
    omega
  have hh : ∀ (size : Nat) (slot : Slot) (string : Bytes), 0 < size →
      HoldsString (update (update output o (some slot)) (o+size)
        (some (.pointer string))) o size slot string := by
    intro size slot string hp
    refine ⟨?_,[],?_⟩
    · rw [update_of_ne (by omega),update_self]
    · rw [update_self,append_nil]
  cases field with
  | char b =>
    exact ⟨_,unpackNumber_piece output o h hr rfl (by decide) (storeChar_singleton b),
      update_self ..,ho _⟩
  | short n =>
    exact ⟨_,unpackNumber_piece output o h hr rfl (by decide) (storeShort_le16 n),
      update_self ..,ho _⟩
  | shortLE n =>
    exact ⟨_,unpackNumber_piece output o h hr rfl (by decide) (storeShortLE_le16 n),
      update_self ..,ho _⟩
  | int n =>
    exact ⟨_,unpackNumber_piece output o h hr rfl (by decide) (storeInt_le32 n),
      update_self ..,ho _⟩
  | intLE n =>
    exact ⟨_,unpackNumber_piece output o h hr rfl (by decide) (storeIntLE_le32 n),
      update_self ..,ho _⟩
  | stringNullTerm s =>
    have hf : (pieces (.stringNullTerm s)).flatten = zstring s.1 := by simp [pieces]
    rw [hf] at hr ⊢
    exact ⟨_,(nullStringUnpack_piece output o h s hr).trans (if_pos hft),⟨[],update_self ..⟩,ho _⟩
  | stringAndLength s =>
    exact ⟨_,sizeStringUnpack_piece output o h true hr rfl (by decide) (storeShort_le16 _)
      (length_half s.2) (hs _ _ hr),hh 2 _ _ (by decide),ht _ _ (show 2 < 10 by decide)⟩
  | stringAndLength32 s =>
    exact ⟨_,sizeStringUnpack_piece output o h false hr rfl (by decide) (storeInt_le32 _)
      (length_word s.2) (hs _ _ hr),hh 4 _ _ (by decide),ht _ _ (show 4 < 12 by decide)⟩
  | stringAndLengthLE32 s =>
    exact ⟨_,sizeStringUnpack_piece output o h true hr rfl (by decide) (storeIntLE_le32 _)
      (length_word s.2) (hs _ _ hr),hh 4 _ _ (by decide),ht _ _ (show 4 < 12 by decide)⟩
  | argvArray l =>
    refine ⟨_,argvArrayUnpack_piece output o h l.1 l.2 hr hsm,⟨?_,_,update_self ..,
      holdsTexts_map l.1 [none]⟩,ht _ _ (show 2 < 10 by decide)⟩
    rw [update_of_ne (by omega),update_self]

lemma unpackLoop_pieces {fields : List Field} (h : Ready io)
    (hs : io.data.length < maxTallocSize)
    (hr : rest io = (fields.flatMap pieces).flatten ++ more) (hft : ∀ f ∈ fields, Fits f)
    (hsz : o+totalSize (formatOf fields) < 2^31) :
    ∃ after, unpackLoop (formatOf fields) o io output =
        some ⟨(o+totalSize (formatOf fields) : Nat),after,
          advance io (fields.flatMap pieces).flatten.length⟩ ∧
      Represents after o fields ∧ Agree o (totalSize (formatOf fields)) output after := by
  induction fields generalizing io output o with
  | nil => exact ⟨output,rfl,trivial,Agree.refl o 0 output⟩
  | cons field fields ih =>
    rw [flatMap_cons,flatten_append,append_assoc] at hr
    have hle : (pieces field).flatten.length ≤ (rest io).length := by
      rw [hr,length_append]
      omega
    have ht : totalSize (formatOf (field :: fields)) =
        structSize field.code+totalSize (formatOf fields) := rfl
    rw [ht,← add_assoc] at hsz
    obtain ⟨mid,hm,hh,ha⟩ := unpackField_piece output o h hs hr
      (hft field mem_cons_self)
    obtain ⟨after,haf,hrp,ha'⟩ := ih mid (o+structSize field.code)
      (h.advance hle) hs (rest_advance_append hr)
      (fun f hf => hft f (mem_cons_of_mem field hf)) hsz
    refine ⟨after,?_,⟨?_,hrp⟩,?_⟩
    · rw [ht,formatOf,map_cons,unpackLoop,hm,bind_some,if_neg (by simp),
        Int.toNat_natCast,addSize_eq_some (by omega),bind_some]
      refine haf.trans ?_
      simp [advance,add_assoc]
    · refine hh.congr fun i _ hi => ha' i (.inl hi)
    · intro i hi
      rw [ha' i (by omega),ha i (by omega)]

lemma unpackLoop_none {fields : List Field} (h : Ready io) (hs : io.data.length < maxTallocSize)
    (hr : rest io = (fields.flatMap pieces).flatten ++ more) (hft : ¬ ∀ f ∈ fields, Fits f) :
    unpackLoop (formatOf fields) o io output = none := by
  induction fields generalizing io output o with
  | nil => exact absurd (fun f hf => absurd hf not_mem_nil) hft
  | cons field fields ih =>
    rw [flatMap_cons,flatten_append,append_assoc] at hr
    have hle : (pieces field).flatten.length ≤ (rest io).length := by
      rw [hr,length_append]
      omega
    by_cases hfld : Fits field
    · obtain ⟨mid,hm,-⟩ := unpackField_piece output o h hs hr hfld
      have ho : ¬ ∀ f ∈ fields, Fits f := fun ha => hft (forall_mem_cons.mpr ⟨hfld,ha⟩)
      rw [formatOf,map_cons,unpackLoop,hm,bind_some,if_neg (by simp),Int.toNat_natCast]
      by_cases hsz : o+structSize field.code < 2^31
      · rw [addSize_eq_some hsz]
        exact ih mid _ (h.advance hle) hs (rest_advance_append hr) ho
      · rw [addSize_eq_none (not_lt.mp hsz)]
        rfl
    · cases field with
      | stringNullTerm s =>
        have hfl : (pieces (.stringNullTerm s)).flatten = zstring s.1 := by simp [pieces]
        rw [hfl] at hr
        have hn := (nullStringUnpack_piece output o h s hr).trans
          (if_neg hfld)
        rw [formatOf,map_cons,unpackLoop,Field.code,unpackField,hn]
        rfl
      | _ => exact absurd trivial hfld

lemma ready_rewound {ps : List Bytes} (h : io.Holding ps) :
    Ready {io with readptr := 0} ∧ io.data.length < maxTallocSize ∧
      rest {io with readptr := 0} = ps.flatten ++ [] := by
  have hlt : io.data.length < maxTallocSize := lt_trans h.appending.room h.appending.small
  refine ⟨⟨zero_le _,lt_trans hlt (by decide)⟩,hlt,?_⟩
  rw [rest,drop_zero,append_nil,h.data]

/-- A packed structure is unpacked to the same values, by as many bytes, when the output of `pack`
and the copies of `NullString_unpack` can be allocated. -/
theorem unpack_pack_iff (fields : List Field) (input before : Struct)
    (h : Represents input 0 fields) :
    (∃ size io back, calcsize (formatOf fields) = some size ∧
      pack (formatOf fields) input .con = some (size,io) ∧
      unpack (formatOf fields) {io with readptr := 0} before = some back ∧
      back.result = size ∧ back.input.readptr = io.data.length ∧
      Represents back.output 0 fields) ↔
    StringIO.growth ((fields.flatMap pieces).map length) < maxTallocSize ∧
      ∀ field ∈ fields, Fits field := by
  have hw : StringIO.growth ((fields.flatMap pieces).map length) < maxTallocSize →
      ∃ io, pack (formatOf fields) input .con = some (totalSize (formatOf fields),io) ∧
        io.Holding (fields.flatMap pieces) ∧ totalSize (formatOf fields) < 2^31 := by
    intro hg
    obtain ⟨io,hio,hh⟩ := writeAll_some StringIO.con_holding (fields.flatMap pieces) hg
    have hlt : io.data.length < 2^28 := lt_trans hh.appending.room hh.appending.small
    have hd : io.data = (fields.flatMap pieces).flatten := hh.data
    have ht : totalSize (formatOf fields) < 2^31 := by
      have hle := totalSize_le fields
      rw [← hd] at hle
      omega
    refine ⟨io,?_,hh,ht⟩
    rw [pack,packLoop_some h (by omega),hio,map_some,zero_add]
  constructor
  · rintro ⟨size,io,back,-,hio,hb,-⟩
    have hg : StringIO.growth ((fields.flatMap pieces).map length) < maxTallocSize := by
      by_contra hbg
      have hn := writeAll_none StringIO.con_holding (fields.flatMap pieces) (not_lt.mp hbg)
      rw [pack,packLoop_none h hn] at hio
      cases hio
    obtain ⟨io',hio',hh,-⟩ := hw hg
    rw [hio',some.injEq,Prod.mk.injEq] at hio
    obtain ⟨-,rfl⟩ := hio
    refine ⟨hg,?_⟩
    by_contra hf
    obtain ⟨hr,hlt,hrs⟩ := ready_rewound hh
    rw [unpack,unpackLoop_none before 0 hr hlt hrs hf] at hb
    cases hb
  · rintro ⟨hg,hf⟩
    obtain ⟨io,hio,hh,ht⟩ := hw hg
    obtain ⟨hr,hlt,hrs⟩ := ready_rewound hh
    obtain ⟨after,ha,hrp,-⟩ := unpackLoop_pieces before 0 hr hlt hrs hf (by omega)
    refine ⟨_,io,_,calcsize_eq ht,hio,ha,?_,?_,hrp⟩
    · rw [zero_add]
    · simp [advance,hh.data]

end

def tagged : Struct := update (update (fun _ => none) 0 (some (.byte 1))) 1 (some (.pointer [65,0]))

theorem unpack_pack_iff_tagged : Represents tagged 0 [.char 1,.stringNullTerm ⟨[65],by simp⟩] ∧
    ∃ size io back, calcsize [.char,.stringNullTerm] = some size ∧
      pack [.char,.stringNullTerm] tagged .con = some (size,io) ∧
      unpack [.char,.stringNullTerm] {io with readptr := 0} (fun _ => none) = some back ∧
      back.result = size ∧ back.input.readptr = io.data.length ∧
      Represents back.output 0 [.char 1,.stringNullTerm ⟨[65],by simp⟩] := by
  have h : Represents tagged 0 [.char 1,.stringNullTerm ⟨[65],by simp⟩] := ⟨rfl,⟨[],rfl⟩,trivial⟩
  refine ⟨h,(unpack_pack_iff _ tagged (fun _ => none) h).mpr ⟨by decide,?_⟩⟩
  intro field hf
  rcases mem_cons.mp hf with rfl | hf
  · trivial
  · rw [mem_singleton.mp hf]
    show 2 < 2^27
    decide

def longText : Text :=
  ⟨replicate (2^27-1) 65,fun c hc => by rw [eq_of_mem_replicate hc]; decide,
    by rw [length_replicate]; decide⟩

theorem unpack_longText :
    ∃ io, pack [.stringNullTerm] (fun _ => some (.pointer (zstring longText.1))) .con =
        some (8,io) ∧
      ∀ before, unpack [.stringNullTerm] {io with readptr := 0} before = none := by
  have h : Represents (fun _ => some (.pointer (zstring longText.1))) 0 [.stringNullTerm longText] :=
    ⟨⟨[],rfl⟩,trivial⟩
  have hl : longText.1.length = 2^27-1 := length_replicate
  have hg : StringIO.growth (([Field.stringNullTerm longText].flatMap pieces).map length) <
      maxTallocSize := by
    have hp : ([Field.stringNullTerm longText].flatMap pieces).map length = [2^27] := by
      simp [pieces,hl]
    rw [hp]
    decide
  have hf : ¬ ∀ f ∈ [Field.stringNullTerm longText], Fits f := by
    intro ha
    have hlt : longText.1.length+1 < 2^27 := ha _ mem_cons_self
    omega
  obtain ⟨io,hio,hh⟩ := writeAll_some StringIO.con_holding
    ([Field.stringNullTerm longText].flatMap pieces) hg
  obtain ⟨hr,hlt,hrs⟩ := ready_rewound hh
  refine ⟨io,?_,?_⟩
  · refine (packLoop_some h (by decide) .con).trans ?_
    rw [hio]
    rfl
  · intro before
    exact unpackLoop_none before 0 hr hlt hrs hf

end Aff4.Pyflag
