import Aff4.JavaCanonical

/-! The URIs of slices in the Java library (Node.java, SliceResource.java). A
slice of a stream is written `urn[offset:length]`. An exception has no result. -/

namespace Aff4.Java

open Text List

def indexOf (s : JavaString) (c : UInt16) (start : Int) : Int :=
  match (s.drop start.toNat).findIdx? fun d => d == c with
  | some i => start.toNat+i
  | none => -1

def substring (s : JavaString) (first last : Int) : Option JavaString :=
  if 0 ≤ first ∧ first ≤ last ∧ last ≤ s.length then
    some ((s.drop first.toNat).take (last-first).toNat)
  else none

def openBracket : UInt16 := 91
def closeBracket : UInt16 := 93
def colon : UInt16 := 58
def hash : UInt16 := 35
def minus : UInt16 := 45
def plus : UInt16 := 43

def longToString (n : Int) : JavaString := (printInt n).map UInt8.toUInt16

def isDigit16 (c : UInt16) : Bool := 48 ≤ c && c ≤ 57

def numeral16 (s : JavaString) : Nat := s.foldl (fun v c => 10*v + (c.toNat-48)) 0

def parseLong (s : JavaString) : Option Int :=
  let negative := s.head? == some minus
  let digits := if negative || s.head? == some plus then s.tail else s
  let value : Int := if negative then -numeral16 digits else numeral16 digits
  if digits ≠ [] ∧ digits.all isDigit16 ∧ -2^63 ≤ value ∧ value < 2^63 then some value else none

namespace Resource

def ofSlice (uri : JavaString) (offset length : Int) : Option Resource := do
  let _ ← substring uri 0 (indexOf uri hash 0)
  return ⟨none,none,some uri,some (offset,length)⟩

def parseSlice (res : JavaString) : Option Resource := do
  let startBracket := indexOf res openBracket 0
  let comma := indexOf res colon (startBracket+1)
  let endBracket := indexOf res closeBracket (comma+1)
  let _ ← substring res 0 startBracket
  let offset ← substring res (startBracket+1) comma
  let length ← substring res (comma+1) endBracket
  let off ← parseLong offset
  let len ← parseLong length
  ofSlice res off len

def parse (res : JavaString) : Option Resource :=
  let startBracket := indexOf res openBracket 0
  let comma := indexOf res colon (startBracket+1)
  let endBracket := indexOf res closeBracket (comma+1)
  if 0 < startBracket ∧ startBracket < endBracket then parseSlice res else some (ofURI res)

def createURI (uri : JavaString) : Option Resource := parse uri

end Resource

/-- `urn + "[" + offset + ":" + length + "]"`. -/
def sliceURI (urn : JavaString) (offset length : Int) : JavaString :=
  urn ++ [openBracket] ++ longToString offset ++ [colon] ++ longToString length ++ [closeBracket]

lemma indexOf_append {pre mid post : JavaString} {c : UInt16} (h : c ∉ mid) :
    indexOf (pre ++ mid ++ c :: post) c pre.length = pre.length+mid.length := by
  have hf : (mid ++ c :: post).findIdx? (fun d => d == c) = some mid.length := by
    rw [findIdx?_append,findIdx?_eq_none_iff.mpr fun d hd => ?_]
    · simp [findIdx?_cons]
    · simp only [beq_eq_false_iff_ne]
      exact fun heq => h (heq ▸ hd)
  simp [indexOf,append_assoc,hf]

lemma indexOf_of_not_mem {s : JavaString} {c : UInt16} (h : c ∉ s) (start : Int) :
    indexOf s c start = -1 := by
  rw [indexOf,findIdx?_eq_none_iff.mpr fun d hd => ?_]
  simp only [beq_eq_false_iff_ne]
  exact fun heq => h (heq ▸ mem_of_mem_drop hd)

lemma indexOf_range {s : JavaString} {c : UInt16} (h : c ∈ s) :
    0 ≤ indexOf s c 0 ∧ indexOf s c 0 ≤ s.length := by
  rw [indexOf]
  cases hf : (s.drop (0 : Int).toNat).findIdx? fun d => d == c with
  | none =>
    have ha := findIdx?_eq_none_iff.mp hf c h
    simp at ha
  | some i =>
    obtain ⟨hi,-⟩ := findIdx?_eq_some_iff_getElem.mp hf
    simp at hi ⊢
    omega

lemma substring_append (pre mid post : JavaString) :
    substring (pre ++ mid ++ post) pre.length (pre.length+mid.length) = some mid := by
  rw [substring,if_pos ⟨by omega,by omega,by simp⟩]
  simp [append_assoc]

variable {n : Int}

lemma longToString_nonneg (h : 0 ≤ n) : longToString n = (decimal n.toNat).map UInt8.toUInt16 := by
  have ha : n.natAbs = n.toNat := by omega
  rw [longToString,printInt,if_neg (by omega),ha]

lemma isDigit16_toUInt16 {c : UInt8} (h : isDigit c = true) : isDigit16 c.toUInt16 = true := by
  simp only [isDigit,isDigit16,Bool.and_eq_true,decide_eq_true_eq,UInt8.le_iff_toNat_le,
    UInt16.le_iff_toNat_le] at h ⊢
  simpa using h

section

variable (h : 0 ≤ n)
include h

lemma longToString_digits : ∀ c ∈ longToString n, isDigit16 c = true := by
  intro c hc
  rw [longToString_nonneg h] at hc
  obtain ⟨d,hd,rfl⟩ := mem_map.mp hc
  exact isDigit16_toUInt16 (decimal_digits _ d hd)

lemma not_mem_longToString {c : UInt16} (hc : isDigit16 c = false) : c ∉ longToString n := by
  intro hm
  rw [longToString_digits h c hm] at hc
  exact absurd hc (by simp)

lemma numeral16_longToString : numeral16 (longToString n) = n.toNat := by
  have hv := numeral_decimal n.toNat
  rw [longToString_nonneg h,numeral16,foldl_map]
  simpa [numeral] using hv

lemma longToString_ne_nil : longToString n ≠ [] := by
  rw [longToString_nonneg h]
  simpa using decimal_ne_nil n.toNat

lemma head_longToString {c : UInt16} (hc : isDigit16 c = false) :
    ((longToString n).head? == some c) = false := by
  rw [beq_eq_false_iff_ne]
  exact fun heq => not_mem_longToString h hc (mem_of_head? heq)

lemma parseLong_longToString (hl : n < 2^63) : parseLong (longToString n) = some n := by
  have hm := head_longToString h (show isDigit16 minus = false by decide)
  have hp := head_longToString h (show isDigit16 plus = false by decide)
  have hv : ((numeral16 (longToString n) : Nat) : Int) = n := by
    rw [numeral16_longToString h]
    omega
  rw [parseLong]
  simp only [hm,hp,Bool.or_self,Bool.false_eq_true,if_false,hv]
  rw [if_pos ⟨longToString_ne_nil h,all_eq_true.mpr (longToString_digits h),by omega,hl⟩]

end

structure Plain (urn : JavaString) : Prop where
  ne_nil : urn ≠ []
  not_mem : openBracket ∉ urn

lemma cuts_sliceURI {urn : JavaString} (hu : Plain urn) {offset length : Int}
    (ho : 0 ≤ offset) (hl : 0 ≤ length) : let res := sliceURI urn offset length
    let comma : Int := urn.length+1+(longToString offset).length
    let last := comma+1+(longToString length).length
    (indexOf res openBracket 0 = urn.length ∧ indexOf res colon (urn.length+1) = comma ∧
      indexOf res closeBracket (comma+1) = last) ∧ substring res 0 urn.length = some urn ∧
      substring res (urn.length+1) comma = some (longToString offset) ∧
      substring res (comma+1) last = some (longToString length) := by
  have hcl := not_mem_longToString ho (show isDigit16 colon = false by decide)
  have hc := not_mem_longToString hl (show isDigit16 closeBracket = false by decide)
  have h1 := @indexOf_append [] urn
    (longToString offset ++ [colon] ++ longToString length ++ [closeBracket]) _ hu.not_mem
  have h2 := @indexOf_append (urn ++ [openBracket]) _ (longToString length ++ [closeBracket]) _ hcl
  have h3 := @indexOf_append (urn ++ [openBracket] ++ longToString offset ++ [colon]) _ [] _ hc
  have s1 := substring_append [] urn
    ([openBracket] ++ longToString offset ++ [colon] ++ longToString length ++ [closeBracket])
  have s2 := substring_append (urn ++ [openBracket]) (longToString offset)
    ([colon] ++ longToString length ++ [closeBracket])
  have s3 := substring_append (urn ++ [openBracket] ++ longToString offset ++ [colon])
    (longToString length) [closeBracket]
  have hb : ((urn ++ [openBracket]).length : Int) = urn.length+1 := by simp
  have ht : ((urn ++ [openBracket] ++ longToString offset ++ [colon]).length : Int) =
      urn.length+1+(longToString offset).length+1 := by
    simp only [length_append,length_singleton]
    omega
  rw [hb] at h2 s2
  rw [ht] at h3 s3
  simp only [append_assoc,nil_append,singleton_append,length_nil,Nat.cast_zero,zero_add]
    at h1 h2 h3 s1 s2 s3
  simp only [sliceURI,append_assoc,singleton_append]
  exact ⟨⟨h1,h2,h3⟩,s1,s2,s3⟩

lemma hash_mem_sliceURI {urn : JavaString} {offset length : Int} (ho : 0 ≤ offset)
    (hl : 0 ≤ length) : hash ∈ sliceURI urn offset length ↔ hash ∈ urn := by
  have h1 := not_mem_longToString ho (show isDigit16 hash = false by decide)
  have h2 := not_mem_longToString hl (show isDigit16 hash = false by decide)
  have h3 : hash ≠ openBracket ∧ hash ≠ colon ∧ hash ≠ closeBracket := by decide
  simp [sliceURI,h1,h2,h3]

namespace Resource

lemma ofSlice_eq (uri : JavaString) (offset length : Int) : ofSlice uri offset length =
      if hash ∈ uri then some ⟨none,none,some uri,some (offset,length)⟩ else none := by
  by_cases h : hash ∈ uri
  · have hr := indexOf_range h
    simp [ofSlice,substring,h,hr]
  · simp [ofSlice,indexOf_of_not_mem h,substring,h]

lemma createURI_sliceURI {urn : JavaString} (hu : Plain urn) {offset length : Int}
    (ho : 0 ≤ offset ∧ offset < 2^63) (hl : 0 ≤ length ∧ length < 2^63) :
    createURI (sliceURI urn offset length) =
      if hash ∈ urn then some ⟨none,none,some (sliceURI urn offset length),some (offset,length)⟩
      else none := by
  obtain ⟨⟨hopn,hcl,hc⟩,hb,hf,hs⟩ := cuts_sliceURI hu ho.1 hl.1
  have hp := length_pos_iff.mpr hu.ne_nil
  rw [createURI,parse,hopn,hcl,hc,if_pos (by omega),parseSlice,hopn,hcl,hc,hb,hf,hs]
  simp [parseLong_longToString ho.1 ho.2,parseLong_longToString hl.1 hl.2,ofSlice_eq,
    hash_mem_sliceURI ho.1 hl.1]

lemma createURI_plain {urn : JavaString} (h : openBracket ∉ urn) :
    createURI urn = some (ofURI urn) := by
  rw [createURI,parse,indexOf_of_not_mem h]
  exact if_neg fun hs => absurd hs.1 (by decide)

end Resource

end Aff4.Java
