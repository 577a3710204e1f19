import Mathlib.Data.Finset.Max
import Mathlib.Data.List.AList
import Aff4.Lib.Pattern
import Aff4.Lib.Text
import Aff4.PyMap

/-! Properties of objects in aff4.py: the text to which an object is exported and how the resolver
parses it. -/

namespace Aff4.Python

open LittleEndian Text Pattern List

def space : UInt8 := 32
def equals : UInt8 := 61

def volatileNs : Bytes := chars ['a','f','f','4','v','o','l','a','t','i','l','e',':']

inductive Value where
  | str (s : Bytes)
  | int (n : Int)
  deriving DecidableEq, Repr

def Value.text : Value → Bytes
  | .str s => s
  | .int n => printInt n

structure Fact where
  urn : Urn
  attr : Bytes
  value : Value
  deriving DecidableEq, Repr

/-- The entries are in the order in which Python iterates over the dictionary. -/
structure URNObject where
  urn : Urn
  properties : AList fun _ : Bytes => List Value

namespace URNObject

def init (urn : Urn) : URNObject := ⟨urn,∅⟩

def getitem (self : URNObject) (attr : Bytes) : List Value := (self.properties.lookup attr).getD []

def add (self : URNObject) (attr : Bytes) (value : Value) : URNObject :=
  let old := self.getitem attr
  let properties := if value ∈ old then old else old ++ [value]
  { self with properties := self.properties.insert attr properties }

def set (self : URNObject) (attr : Bytes) (value : Value) : URNObject :=
  { self with properties := self.properties.insert attr [value] }

def exportText (self : URNObject) (start : Bytes) : Bytes :=
  self.properties.entries.flatMap fun ⟨attr,v⟩ =>
    if volatileNs.isPrefixOf attr then []
    else v.flatMap fun value => start ++ (attr ++ equals :: value.text ++ [newline])

def exported (self : URNObject) : List Fact :=
  self.properties.entries.flatMap fun ⟨attr,v⟩ =>
    if volatileNs.isPrefixOf attr then []
    else v.map fun value => ⟨self.urn,attr,value⟩

end URNObject

/-- An object that is not there is made when it is asked for. -/
structure Resolver where
  urn : Urn → URNObject

namespace Resolver

def init : Resolver := ⟨URNObject.init⟩

def add (self : Resolver) (uri : Urn) (attr : Bytes) (value : Value) : Resolver :=
  ⟨Function.update self.urn uri ((self.urn uri).add attr value)⟩

def set (self : Resolver) (uri : Urn) (attr : Bytes) (value : Value) : Resolver :=
  ⟨Function.update self.urn uri ((self.urn uri).set attr value)⟩

def resolveList (self : Resolver) (uri : Urn) (attr : Bytes) : List Value :=
  (self.urn uri).getitem attr

def resolve (self : Resolver) (uri : Urn) (attr : Bytes) : Option Value :=
  (self.resolveList uri attr).head?

/-- The regular expression `([^ ]+) ([^=]+)=(.+)`. -/
def fullPropsRe : List (Piece UInt8) :=
  [.many (· != space),.one space,.many (· != equals),.one equals,.many (· != newline)]

/-- The regular expression `([^=]+)=(.+)`. -/
def relativePropsRe : List (Piece UInt8) := [.many (· != equals),.one equals,.many (· != newline)]

def parseLine (context : Urn) (line : Bytes) : Option Fact :=
  match groups fullPropsRe line with
  | some [subject,attr,value] => some ⟨subject,attr,.str value⟩
  | _ =>
      match groups relativePropsRe line with
      | some [attr,value] => some ⟨context,attr,.str value⟩
      | _ => none

def parseProperties (self : Resolver) (data : Bytes) (context : Urn) : Resolver :=
  ((splitLines data).filterMap (parseLine context)).foldl
    (fun self fact => self.add fact.urn fact.attr fact.value) self

end Resolver

/-! ### What a line is read as -/

/-- A text that reads as `.. attribute=value` after its first space. -/
def Qualified (s : Bytes) : Prop :=
  ∃ front attr value, s = front ++ space :: (attr ++ equals :: value) ∧
    space ∉ front ∧ attr ≠ [] ∧ equals ∉ attr ∧ value ≠ []

lemma space_ne_equals : space ≠ equals := by decide

lemma forall_bne_iff {c : UInt8} {w : Bytes} : (∀ x ∈ w, (x != c) = true) ↔ c ∉ w := by
  simp only [bne_iff_ne,ne_eq]
  exact ⟨fun h hc => h c hc rfl,fun h x hx hxc => h (hxc ▸ hx)⟩

lemma takeWhile_newline {line : Bytes} (h : SingleLine line) :
    line.takeWhile (· != newline) = line :=
  takeWhile_eq_self_iff.mpr fun c hc => by simpa using (h c hc).1

lemma relative_iff {line : Bytes} (hl : SingleLine line) {found : List Bytes} :
    groups Resolver.relativePropsRe line = some found ↔
      ∃ attr value, line = attr ++ equals :: value ∧ attr ≠ [] ∧
        equals ∉ attr ∧ value ≠ [] ∧ found = [attr,value] := by
  rw [Resolver.relativePropsRe,groups_many_one_iff (by simp)]
  simp only [forall_bne_iff,groups_many_iff]
  constructor
  · rintro ⟨w,rest,-,rfl,hne,hw,⟨hr,rfl⟩,rfl⟩
    have hs : SingleLine rest := fun c hc => hl c (by simp [hc])
    rw [takeWhile_newline hs] at hr ⊢
    exact ⟨w,rest,rfl,hne,hw,hr,rfl⟩
  · rintro ⟨attr,value,rfl,hne,ha,hv,rfl⟩
    have hs : SingleLine value := fun c hc => hl c (by simp [hc])
    have hwh := takeWhile_newline hs
    exact ⟨attr,value,_,rfl,hne,ha,⟨by rwa [hwh],rfl⟩,by rw [hwh]⟩

lemma full_iff {line : Bytes} (hl : SingleLine line) {found : List Bytes} :
    groups Resolver.fullPropsRe line = some found ↔
      ∃ subject attr value, line = subject ++ space :: (attr ++ equals :: value) ∧
        subject ≠ [] ∧ space ∉ subject ∧ attr ≠ [] ∧ equals ∉ attr ∧ value ≠ [] ∧
        found = [subject,attr,value] := by
  rw [Resolver.fullPropsRe,groups_many_one_iff (by simp)]
  simp only [forall_bne_iff]
  constructor
  · rintro ⟨subject,rest,others,rfl,hne,hs,ho,rfl⟩
    have hr : SingleLine rest := fun c hc => hl c (by simp [hc])
    obtain ⟨attr,value,rfl,hne',ha,hv,rfl⟩ := (relative_iff hr).mp ho
    exact ⟨subject,attr,value,rfl,hne,hs,hne',ha,hv,rfl⟩
  · rintro ⟨subject,attr,value,rfl,hne,hs,hne',ha,hv,rfl⟩
    have hr : SingleLine (attr ++ equals :: value) :=
      fun c hc => hl c (mem_append_right _ (mem_cons_of_mem _ hc))
    exact ⟨subject,_,_,rfl,hne,hs,(relative_iff hr).mpr ⟨attr,value,rfl,hne',ha,hv,rfl⟩,rfl⟩

lemma split_space {attr value subject rest : Bytes} (ha : space ∉ attr)
    (hs : space ∉ subject) (h : attr ++ equals :: value = subject ++ space :: rest) :
    ∃ front, subject = attr ++ equals :: front ∧ value = front ++ space :: rest := by
  rcases append_eq_append_iff.mp h with ⟨front,rfl,hr⟩ | ⟨front,rfl,hr⟩
  · cases front with
    | nil => exact absurd (cons.inj hr).1.symm space_ne_equals
    | cons c front =>
      obtain ⟨rfl,rfl⟩ := cons.inj hr
      exact ⟨front,rfl,rfl⟩
  · cases front with
    | nil => exact absurd (cons.inj hr).1 space_ne_equals
    | cons c front =>
      obtain ⟨rfl,-⟩ := cons.inj hr
      simp at ha

def Fact.line (fact : Fact) : Bytes := fact.attr ++ equals :: fact.value.text

@[mk_iff]
structure Fact.Plain (fact : Fact) : Prop where
  attr_single : SingleLine fact.attr
  attr_space : space ∉ fact.attr
  attr_equals : equals ∉ fact.attr
  value_string : fact.value = .str fact.value.text
  value_ne : fact.value.text ≠ []
  value_single : SingleLine fact.value.text

instance (fact : Fact) : Decidable fact.Plain := decidable_of_iff' _ (Fact.plain_iff fact)

def Fact.Safe (fact : Fact) : Prop := fact.attr ≠ [] ∧ ¬ Qualified fact.value.text

section

variable {fact : Fact} (h : fact.Plain)
include h

lemma Fact.Plain.line_single : SingleLine fact.line := by
  intro c hc
  rcases mem_append.mp hc with hc | hc
  · exact h.attr_single c hc
  · rcases mem_cons.mp hc with rfl | hc
    · decide
    · exact h.value_single c hc

lemma Fact.Plain.full_iff :
    (∃ found, groups Resolver.fullPropsRe fact.line = some found) ↔ Qualified fact.value.text := by
  simp only [Python.full_iff h.line_single]
  constructor
  · rintro ⟨-,subject,attr,value,hl,-,hs,hne,ha,hv,-⟩
    obtain ⟨front,rfl,ht⟩ := split_space h.attr_space hs hl
    refine ⟨front,attr,value,ht,fun hf => hs ?_,hne,ha,hv⟩
    exact mem_append_right _ (mem_cons_of_mem _ hf)
  · rintro ⟨front,attr,value,ht,hf,hne,ha,hv⟩
    refine ⟨_,fact.attr ++ equals :: front,attr,value,by simp [Fact.line,ht],by simp,?_,hne,ha,
      hv,rfl⟩
    simp [h.attr_space,hf,space_ne_equals]

lemma Fact.Plain.parseLine_of_safe (hs : fact.Safe) :
    Resolver.parseLine fact.urn fact.line = some fact := by
  have hf : groups Resolver.fullPropsRe fact.line = none := by
    by_contra hne
    exact hs.2 (h.full_iff.mp (Option.ne_none_iff_exists'.mp hne))
  have hr := (relative_iff h.line_single).mpr
    ⟨fact.attr,fact.value.text,rfl,hs.1,h.attr_equals,h.value_ne,rfl⟩
  simp only [Resolver.parseLine,hf,hr]
  rw [← h.value_string]

end

lemma parseLine_some {context : Urn} {line : Bytes} {fact : Fact} (hl : SingleLine line)
    (h : Resolver.parseLine context line = some fact) :
    (∃ found, groups Resolver.fullPropsRe line = some found) ∧
        line = fact.urn ++ space :: fact.line ∨
      groups Resolver.fullPropsRe line = none ∧ line = fact.line ∧ fact.attr ≠ [] := by
  rw [Resolver.parseLine] at h
  cases hf : groups Resolver.fullPropsRe line with
  | some found =>
    obtain ⟨subject,attr,value,rfl,-,-,-,-,-,rfl⟩ := (full_iff hl).mp hf
    rw [hf] at h
    cases h
    exact .inl ⟨⟨_,rfl⟩,rfl⟩
  | none =>
    rw [hf] at h
    cases hr : groups Resolver.relativePropsRe line with
    | none =>
      rw [hr] at h
      cases h
    | some found =>
      obtain ⟨attr,value,rfl,hne,-,-,rfl⟩ := (relative_iff hl).mp hr
      rw [hr] at h
      cases h
      exact .inr ⟨rfl,rfl,hne⟩

/-! ### What the resolver holds after parsing -/

namespace Resolver

lemma resolveList_add (s : Resolver) (uri uri' : Urn) (attr attr' : Bytes) (value : Value) :
    (s.add uri attr value).resolveList uri' attr' =
      if uri' = uri ∧ attr' = attr ∧ value ∉ s.resolveList uri attr then
        s.resolveList uri' attr' ++ [value]
      else s.resolveList uri' attr' := by
  simp only [resolveList,add]
  by_cases hu : uri' = uri
  · subst hu
    by_cases ha : attr' = attr
    · subst ha
      by_cases hm : value ∈ (s.urn uri').getitem attr' <;>
        simp [URNObject.add,URNObject.getitem] at hm ⊢ <;> simp [hm]
    · simp [URNObject.add,URNObject.getitem,AList.lookup_insert_ne ha,ha]
  · simp [hu]

def Holds (self : Resolver) (fact : Fact) : Prop := fact.value ∈ self.resolveList fact.urn fact.attr

instance (self : Resolver) (fact : Fact) : Decidable (self.Holds fact) :=
  inferInstanceAs (Decidable (fact.value ∈ self.resolveList fact.urn fact.attr))

lemma not_holds_init (fact : Fact) : ¬ init.Holds fact := by
  simp [Holds,resolveList,init,URNObject.init,URNObject.getitem]

lemma holds_add (s : Resolver) (new fact : Fact) :
    (s.add new.urn new.attr new.value).Holds fact ↔ s.Holds fact ∨ fact = new := by
  obtain ⟨urn,attr,value⟩ := new
  obtain ⟨urn',attr',value'⟩ := fact
  simp only [Holds,resolveList_add,Fact.mk.injEq]
  split
  · next h =>
    obtain ⟨rfl,rfl,-⟩ := h
    simp
  · next h =>
    refine ⟨.inl,?_⟩
    rintro (hold | ⟨rfl,rfl,rfl⟩)
    · exact hold
    · simpa using h

lemma holds_parse (s : Resolver) (data : Bytes) (context : Urn) (fact : Fact) :
    (s.parseProperties data context).Holds fact ↔
      s.Holds fact ∨ fact ∈ (splitLines data).filterMap (parseLine context) := by
  rw [parseProperties]
  generalize (splitLines data).filterMap (parseLine context) = facts
  induction facts generalizing s with
  | nil => simp
  | cons new facts ih => rw [foldl_cons,ih,holds_add,mem_cons,or_assoc]

end Resolver

namespace URNObject

variable {obj : URNObject}

lemma exportText_eq (obj : URNObject) :
    obj.exportText [] = (obj.exported.map Fact.line).flatMap fun line => line ++ [newline] := by
  rw [exportText,exported,map_flatMap,flatMap_assoc]
  refine flatMap_congr ?_
  rintro ⟨attr,v⟩ -
  dsimp only
  split
  · rfl
  · simp [flatMap_map,Fact.line]

lemma exported_urn {fact : Fact} (h : fact ∈ obj.exported) : fact.urn = obj.urn := by
  obtain ⟨⟨attr,v⟩,-,hp⟩ := mem_flatMap.mp h
  dsimp only at hp
  split at hp
  · cases hp
  · obtain ⟨value,-,rfl⟩ := mem_map.mp hp
    rfl

section

variable (h : ∀ fact ∈ obj.exported, fact.Plain)
include h

lemma splitLines_exportText : splitLines (obj.exportText []) = obj.exported.map Fact.line := by
  rw [exportText_eq]
  refine splitLines_flatMap fun line hl => ?_
  obtain ⟨fact,hf,rfl⟩ := mem_map.mp hl
  exact (h fact hf).line_single

lemma parsed_of_safe (hs : ∀ fact ∈ obj.exported, fact.Safe) :
    (splitLines (obj.exportText [])).filterMap (Resolver.parseLine obj.urn) = obj.exported := by
  rw [splitLines_exportText h,filterMap_map]
  refine (filterMap_congr fun fact hf => ?_).trans filterMap_some
  rw [Function.comp_apply,← exported_urn hf,(h fact hf).parseLine_of_safe (hs fact hf)]

/-- If an unsafe fact is read back all the same, then from a longer line that is not read as it
was meant. -/
lemma exists_longer {fact : Fact} (hfc : fact ∈ obj.exported) (hm : ¬ fact.Safe)
    (hr : fact ∈ (splitLines (obj.exportText [])).filterMap (Resolver.parseLine obj.urn)) :
    ∃ other ∈ obj.exported, ¬ other.Safe ∧ fact.line.length < other.line.length := by
  rw [splitLines_exportText h,filterMap_map,mem_filterMap] at hr
  obtain ⟨other,ho,hpr⟩ := hr
  have hp := h other ho
  rcases parseLine_some hp.line_single hpr with ⟨hf,hl⟩ | ⟨hf,hl,hne⟩
  · refine ⟨other,ho,fun hs => hs.2 (hp.full_iff.mp hf),?_⟩
    rw [hl,length_append,length_cons]
    omega
  · refine absurd ⟨hne,fun hq => ?_⟩ hm
    obtain ⟨found,hfd⟩ := (h fact hfc).full_iff.mpr hq
    rw [← hl,hf] at hfd
    cases hfd

end

/-- Reading back an export adds the exported facts and no others, exactly when no line has an empty
attribute or a value that looks like a qualified line. -/
theorem parse_export_iff (obj : URNObject) (h : ∀ fact ∈ obj.exported, fact.Plain) :
    (∀ (self : Resolver) (fact : Fact),
      (self.parseProperties (obj.exportText []) obj.urn).Holds fact ↔
        self.Holds fact ∨ fact ∈ obj.exported) ↔
      ∀ fact ∈ obj.exported, fact.Safe := by
  simp only [Resolver.holds_parse]
  constructor
  · intro hr
    have hr (fact : Fact) (hf : fact ∈ obj.exported) :=
      ((hr Resolver.init fact).mpr (.inr hf)).resolve_left (Resolver.not_holds_init fact)
    by_contra hm
    simp only [not_forall,exists_prop] at hm
    -- the longest line that is not read as it was meant
    classical
    obtain ⟨first,hfs,hb⟩ := hm
    obtain ⟨fact,hmm,hmx⟩ := (obj.exported.toFinset.filter fun fact => ¬ fact.Safe).exists_max_image
      (fun fact => fact.line.length) ⟨first,by simp [hfs,hb]⟩
    obtain ⟨hf,hb⟩ : fact ∈ obj.exported ∧ ¬ fact.Safe := by simpa using hmm
    obtain ⟨other,ho,hb',hlt⟩ := exists_longer h hf hb (hr fact hf)
    have := hmx other (by simp [ho,hb'])
    omega
  · intro hs self fact
    rw [parsed_of_safe h hs]

def segment : URNObject :=
  let obj := (init (fqn ++ chars ['a'])).add (chars ['s','i','z','e']) (.str (chars ['1','0']))
  let obj := obj.add (chars ['t','y','p','e']) (.str (chars ['b','i','g',' ','o','n','e']))
  obj.add (volatileNs ++ chars ['c','r','c']) (.int 7)

theorem parse_export_segment : (∀ fact ∈ segment.exported, fact.Plain) ∧
    ∀ (self : Resolver) (fact : Fact),
      (self.parseProperties (segment.exportText []) segment.urn).Holds fact ↔
        self.Holds fact ∨ fact ∈ segment.exported := by
  have hp : ∀ fact ∈ segment.exported, fact.Plain := by decide +kernel
  refine ⟨hp,(parse_export_iff segment hp).mpr fun fact hf => ⟨?_,?_⟩⟩
  · revert fact
    decide +kernel
  · rintro ⟨front,attr,value,ht,-⟩
    have he : equals ∈ fact.value.text := by simp [ht]
    clear ht
    revert fact
    decide +kernel

/-- A value that looks like a qualified line becomes a fact about another object. -/
def comment : URNObject :=
  (init (fqn ++ chars ['a'])).add (chars ['n','o','t','e']) (.str (chars ['a',' ','b','=','c']))

theorem parse_export_fails : (∀ fact ∈ comment.exported, fact.Plain) ∧
    ¬ ∀ (self : Resolver) (fact : Fact),
      (self.parseProperties (comment.exportText []) comment.urn).Holds fact ↔
        self.Holds fact ∨ fact ∈ comment.exported := by
  refine ⟨by decide +kernel,fun h => ?_⟩
  have hh := (h Resolver.init ⟨fqn ++ chars ['a'],chars ['n','o','t','e'],
    .str (chars ['a',' ','b','=','c'])⟩).mpr (.inr (by decide +kernel))
  revert hh
  decide +kernel

end URNObject

end Aff4.Python
