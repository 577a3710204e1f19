import Aff4.Lib.StableSort
import Aff4.Lib.Separators
import Aff4.Lib.Text

/-! The canonical form of a graph that the Java library signs
(GraphCanonicalizer.java, CanonicalTriple.java, Literal.java, Resource.java). -/

namespace Aff4.Java

open StableSort Separators List

abbrev JavaString := List UInt16

def ascii (l : List Char) : JavaString := l.map fun c => UInt16.ofNat c.toNat

def shown (s : Option JavaString) : JavaString := s.getD (ascii ['n','u','l','l'])

def space : UInt16 := 32
def comma : UInt16 := 44

/-- `slice` holds the offset and the length of a SliceResource. -/
structure Resource where
  nameSpace : Option JavaString
  localName : Option JavaString
  uri : Option JavaString
  slice : Option (Int × Int)
  deriving DecidableEq, Repr

namespace Resource

def ofURI (uri : JavaString) : Resource := ⟨none,none,some uri,none⟩

def getURI (self : Resource) : Option JavaString :=
  match self.nameSpace, self.localName with
  | some nameSpace, some localName => some (nameSpace ++ ascii [':'] ++ localName)
  | _, _ => self.uri

/-- `equals` with a Resource of the given URI that is not a SliceResource. A null
URI throws. -/
def equals (self : Resource) (uri : JavaString) : Option Bool :=
  match self.slice with
  | some _ => some false
  | none => self.uri.map fun own => own == uri

end Resource

def baseURI : JavaString := ascii "http://aff.org/2009/aff4#".toList

def signature : JavaString := baseURI ++ ascii "signature".toList

inductive DataType where
  | integer | sha256 | md5 | canonicalSha256 | canonicalSha256Rsa
  deriving DecidableEq, Repr

def DataType.getURI : DataType → Resource
  | .integer => .ofURI (ascii "http://www.w3.org/2001/XMLSchema#integer".toList)
  | .sha256 => .ofURI (baseURI ++ ascii "sha256".toList)
  | .md5 => .ofURI (baseURI ++ ascii "md5".toList)
  | .canonicalSha256 => .ofURI (baseURI ++ ascii "canonical-sha256".toList)
  | .canonicalSha256Rsa => .ofURI (baseURI ++ ascii "canonical-sha256-rsa".toList)

inductive Value where
  | string (s : JavaString)
  | long (n : Int)
  deriving DecidableEq, Repr

def Value.toString : Value → JavaString
  | .string s => s
  | .long n => (Text.printInt n).map UInt8.toUInt16

structure Literal where
  dataType : Option DataType
  value : Value
  deriving DecidableEq, Repr

namespace Literal

/-- `toLexicalForm` of every data type is `toString` of the value. -/
def getLexicalForm (self : Literal) : JavaString := self.value.toString

def getURI (self : Literal) : JavaString :=
  match self.dataType with
  | none => self.value.toString
  | some dataType =>
    ascii ['"'] ++ self.getLexicalForm ++ ascii ['"','^','^'] ++ shown dataType.getURI.getURI

end Literal

inductive Node where
  | resource (r : Resource)
  | literal (l : Literal)
  deriving DecidableEq, Repr

def Node.getURI : Node → Option JavaString
  | .resource r => r.getURI
  | .literal l => some l.getURI

structure Quad where
  graph : Resource
  subject : Resource
  predicate : Resource
  object : Node
  deriving DecidableEq, Repr

structure CanonicalTriple where
  subject : Node
  predicate : Node
  object : Node
  deriving DecidableEq, Repr

namespace CanonicalTriple

def ofQuad (q : Quad) : CanonicalTriple := ⟨.resource q.subject,.resource q.predicate,q.object⟩

def key (self : CanonicalTriple) : JavaString :=
  shown self.subject.getURI ++ (shown self.predicate.getURI ++ shown self.object.getURI)

def createTripleString (self : CanonicalTriple) : JavaString :=
  shown self.subject.getURI ++ space ::
    (shown self.predicate.getURI ++ space :: shown self.object.getURI)

def words (self : CanonicalTriple) : Words UInt16 :=
  (shown self.subject.getURI,shown self.predicate.getURI,shown self.object.getURI)

lemma key_eq (s : CanonicalTriple) : s.key = Separators.key s.words := rfl

lemma createTripleString_eq (s : CanonicalTriple) : s.createTripleString = line space s.words := rfl

end CanonicalTriple

def unsigned : List Quad → Option (List CanonicalTriple)
  | [] => some []
  | tmp :: rest => do
    let signed ← tmp.predicate.equals signature
    let am ← unsigned rest
    return if signed then am else .ofQuad tmp :: am

/-- `Collections.sort` is stable. -/
def toCanonicalTriples (a : List Quad) : Option (List CanonicalTriple) :=
  (unsigned a).map (sortBy CanonicalTriple.key)

def getCanonicalStringsArray (quads : List Quad) : Option (List JavaString) :=
  (toCanonicalTriples quads).map (map CanonicalTriple.createTripleString)

def joined (lines : List JavaString) : JavaString := lines.flatMap fun line => line ++ [comma]

def getCanonicalString (quads : List Quad) : Option JavaString :=
  (getCanonicalStringsArray quads).map joined

lemma getCanonicalString_eq {quads : List Quad} {am : List CanonicalTriple}
    (h : unsigned quads = some am) : getCanonicalString quads =
      some (joined ((sortBy CanonicalTriple.key am).map CanonicalTriple.createTripleString)) := by
  simp [getCanonicalString,getCanonicalStringsArray,toCanonicalTriples,h]

lemma getCanonicalString_none {quads : List Quad} (h : unsigned quads = none) :
    getCanonicalString quads = none := by
  simp [getCanonicalString,getCanonicalStringsArray,toCanonicalTriples,h]

lemma joined_words (l : List CanonicalTriple) : joined (l.map CanonicalTriple.createTripleString) =
      spell space comma (l.map CanonicalTriple.words) := by
  simp [joined,spell,flatMap_map,CanonicalTriple.createTripleString_eq]

def unsignedQuads (quads : List Quad) : List Quad :=
  quads.filter fun q => q.predicate.equals signature == some false

lemma unsignedQuads_cons {q : Quad} {signed : Bool} (quads : List Quad)
    (h : q.predicate.equals signature = some signed) : unsignedQuads (q :: quads) =
      if signed then unsignedQuads quads else q :: unsignedQuads quads := by
  cases signed <;> simp [unsignedQuads,h]

/-- No predicate throws when it is compared with the signature. -/
def Comparable (quads : List Quad) : Prop := ∀ q ∈ quads, (q.predicate.equals signature).isSome

lemma Comparable.unsigned_eq {quads : List Quad} (h : Comparable quads) :
    unsigned quads = some ((unsignedQuads quads).map .ofQuad) := by
  induction quads with
  | nil => rfl
  | cons q quads ih =>
    have hr := ih fun q hq => h q (mem_cons_of_mem _ hq)
    obtain ⟨signed,hq⟩ := Option.isSome_iff_exists.mp (h q mem_cons_self)
    rw [unsigned,hq,hr,unsignedQuads_cons quads hq]
    cases signed <;> rfl

lemma unsigned_throws {quads : List Quad} (h : ¬ Comparable quads) : unsigned quads = none := by
  induction quads with
  | nil => exact absurd (fun q hq => absurd hq not_mem_nil) h
  | cons q quads ih =>
    cases hq : q.predicate.equals signature with
    | none => rw [unsigned,hq]; rfl
    | some signed =>
      have hr : ¬ Comparable quads := by
        intro ha
        refine h fun q' hq' => ?_
        rcases mem_cons.mp hq' with rfl | hq'
        · rw [hq]; rfl
        · exact ha q' hq'
      rw [unsigned,hq,ih hr]; rfl

lemma unsigned_eq_some_iff {quads : List Quad} {am : List CanonicalTriple} :
    unsigned quads = some am ↔ Comparable quads ∧ am = (unsignedQuads quads).map .ofQuad := by
  constructor
  · intro ham
    by_cases h : Comparable quads
    · rw [h.unsigned_eq] at ham
      exact ⟨h,(Option.some.inj ham).symm⟩
    · rw [unsigned_throws h] at ham
      cases ham
  · intro ⟨h,ham⟩
    rw [ham,h.unsigned_eq]

section

variable {quads : List Quad}

def lineOf (q : Quad) : JavaString := (CanonicalTriple.ofQuad q).createTripleString

def keyOf (q : Quad) : JavaString := (CanonicalTriple.ofQuad q).key

lemma lineOf_length (q : Quad) : (lineOf q).length = (keyOf q).length+2 := by
  rw [lineOf,keyOf,CanonicalTriple.createTripleString_eq,CanonicalTriple.key_eq,line_length]

lemma joined_inj {l l' : List Quad} (hk : l'.map keyOf = l.map keyOf)
    (h : joined (l'.map lineOf) = joined (l.map lineOf)) : l'.map lineOf = l.map lineOf := by
  induction l generalizing l' with
  | nil => rw [map_eq_nil_iff.mp hk]
  | cons q l ih =>
    cases l' with
    | nil => cases hk
    | cons q' l' =>
      simp only [map_cons,cons.injEq,joined,flatMap_cons] at hk h ⊢
      have hl : (lineOf q' ++ [comma]).length = (lineOf q ++ [comma]).length := by
        simp [lineOf_length,hk.1]
      obtain ⟨hln,hr⟩ := append_inj h hl
      exact ⟨append_cancel_right hln,ih hk.2 hr⟩

lemma Comparable.perm {other : List Quad} (h : Comparable quads) (hp : other.Perm quads) :
    Comparable other :=
  fun q hq => h q (hp.mem_iff.mp hq)

lemma Comparable.getCanonicalString (h : Comparable quads) : Java.getCanonicalString quads =
      some (joined ((sortBy keyOf (unsignedQuads quads)).map lineOf)) := by
  rw [getCanonicalString_eq h.unsigned_eq,sortBy_map,map_map]
  rfl

lemma exists_unsignedQuads {l : List Quad} (h : l.Perm (unsignedQuads quads)) :
    ∃ other, other.Perm quads ∧ unsignedQuads other = l := by
  have hl : ∀ q ∈ l, (q.predicate.equals signature == some false) = true :=
    fun q hq => (mem_filter.mp (h.mem_iff.mp hq)).2
  refine ⟨l ++ quads.filter fun q => !(q.predicate.equals signature == some false),?_,?_⟩
  · exact (h.append_right _).trans (filter_append_perm _ quads)
  · rw [unsignedQuads,filter_append,filter_eq_self.mpr hl,filter_filter]
    simp

/-- The canonical string does not depend on the order of the graph exactly when
quads that are sorted as equal also print the same line. -/
theorem getCanonicalString_perm_iff (quads : List Quad) :
    (∀ other, other.Perm quads → getCanonicalString other = getCanonicalString quads) ↔
      ∀ am, unsigned quads = some am → ∀ t ∈ am, ∀ t' ∈ am,
        t.key = t'.key → t.createTripleString = t'.createTripleString := by
  by_cases hok : Comparable quads
  · have hln : (∀ other, other.Perm quads → getCanonicalString other = getCanonicalString quads) ↔
        ∀ l, l.Perm (unsignedQuads quads) →
          (sortBy keyOf l).map lineOf = (sortBy keyOf (unsignedQuads quads)).map lineOf := by
      constructor
      · intro h l hl
        obtain ⟨other,hp,rfl⟩ := exists_unsignedQuads hl
        have hs := h other hp
        rw [(hok.perm hp).getCanonicalString,hok.getCanonicalString] at hs
        exact joined_inj (keys_sortBy keyOf hl) (Option.some.inj hs)
      · intro h other hp
        rw [(hok.perm hp).getCanonicalString,hok.getCanonicalString,
          h (unsignedQuads other) (hp.filter _)]
    rw [hln,map_sortBy_iff]
    constructor
    · intro h am ham t ht t' ht' hk
      obtain ⟨_,rfl⟩ := unsigned_eq_some_iff.mp ham
      obtain ⟨q,hq,rfl⟩ := mem_map.mp ht
      obtain ⟨q',hq',rfl⟩ := mem_map.mp ht'
      exact h q hq q' hq' hk
    · intro h q hq q' hq' hk
      exact h _ hok.unsigned_eq _ (mem_map_of_mem hq) _ (mem_map_of_mem hq') hk
  · -- some predicate throws, in every order
    have hn {other : List Quad} (hp : other.Perm quads) : getCanonicalString other = none :=
      getCanonicalString_none (unsigned_throws fun h => hok (h.perm hp.symm))
    constructor
    · intro _ am ham
      exact absurd (unsigned_eq_some_iff.mp ham).1 hok
    · intro _ other hp
      rw [hn hp,hn (List.Perm.refl quads)]

end

def plainQuad (s p o : List Char) : Quad :=
  ⟨.ofURI [],.ofURI (ascii s),.ofURI (ascii p),.literal ⟨none,.string (ascii o)⟩⟩

def orderedGraph : List Quad := [plainQuad ['a'] ['b'] ['c'],plainQuad ['a'] ['b'] ['d']]

theorem orderedGraph_any_order : ∀ other, other.Perm orderedGraph →
    getCanonicalString other = getCanonicalString orderedGraph := by
  refine (getCanonicalString_perm_iff orderedGraph).mpr fun am ham => ?_
  obtain ⟨_,rfl⟩ := unsigned_eq_some_iff.mp ham
  decide

def tiedGraph : List Quad := [plainQuad ['a','b'] ['c'] ['d'],plainQuad ['a'] ['b','c'] ['d']]

theorem tiedGraph_reverse_differs : tiedGraph.reverse.Perm tiedGraph ∧
    getCanonicalString tiedGraph.reverse ≠ getCanonicalString tiedGraph :=
  ⟨reverse_perm tiedGraph,by decide⟩

structure Vocabulary where
  subjects : Set Resource
  predicates : Set Resource
  objects : Set Node

namespace Vocabulary

def text (n : Node) : JavaString := shown n.getURI

/-- The texts of the nodes are all the strings over three alphabets. Predicates
are not signatures. -/
structure Spells (vocabulary : Vocabulary) (S P O : Set UInt16) : Prop where
  subjects : Set.image (fun r => text (.resource r)) vocabulary.subjects = {w | ∀ c ∈ w, c ∈ S}
  predicates : Set.image (fun r => text (.resource r)) vocabulary.predicates =
    {w | (∀ c ∈ w, c ∈ P) ∧ w ≠ signature}
  objects : Set.image text vocabulary.objects = {w | ∀ c ∈ w, c ∈ O}
  plain : ∀ r ∈ vocabulary.predicates, r.equals signature = some false

def Has (vocabulary : Vocabulary) (q : Quad) : Prop :=
  q.subject ∈ vocabulary.subjects ∧ q.predicate ∈ vocabulary.predicates ∧
    q.object ∈ vocabulary.objects

def Holds (vocabulary : Vocabulary) (quads : List Quad) : Prop :=
  ∀ q ∈ quads, q.predicate.equals signature = some true ∨ vocabulary.Has q

structure Distinct (vocabulary : Vocabulary) : Prop where
  subjects : Set.InjOn (fun r => text (.resource r)) vocabulary.subjects
  predicates : Set.InjOn (fun r => text (.resource r)) vocabulary.predicates
  objects : Set.InjOn text vocabulary.objects

/-- Graphs of the vocabulary with different triples have different canonical strings. -/
def Unambiguous (vocabulary : Vocabulary) : Prop :=
  ∀ quads quads' am am', vocabulary.Holds quads → vocabulary.Holds quads' →
    unsigned quads = some am → unsigned quads' = some am' → ¬ am.Perm am' →
      getCanonicalString quads ≠ getCanonicalString quads'

variable {vocabulary : Vocabulary} {S P O : Set UInt16} {q q' : Quad} {quads : List Quad}
  {am : List CanonicalTriple}

lemma Holds.triple (h : vocabulary.Holds quads) (ham : unsigned quads = some am)
    {t : CanonicalTriple} (ht : t ∈ sortBy CanonicalTriple.key am) :
    ∃ q, vocabulary.Has q ∧ t = .ofQuad q := by
  obtain ⟨_,rfl⟩ := unsigned_eq_some_iff.mp ham
  obtain ⟨q,hq,rfl⟩ := mem_map.mp ((sortBy_perm _ _).mem_iff.mp ht)
  obtain ⟨hm,hu⟩ := mem_filter.mp hq
  rcases h q hm with hs | hh
  · rw [hs] at hu
    cases hu
  · exact ⟨q,hh,rfl⟩

lemma Spells.words_over (hv : vocabulary.Spells S P O) (hq : vocabulary.Has q) :
    Over S P O (CanonicalTriple.ofQuad q).words := by
  have hs := hv.subjects.subset (Set.mem_image_of_mem _ hq.1)
  have hp := hv.predicates.subset (Set.mem_image_of_mem _ hq.2.1)
  have ho := hv.objects.subset (Set.mem_image_of_mem _ hq.2.2)
  exact ⟨hs,hp.1,ho⟩

lemma Distinct.ofQuad_inj (hd : vocabulary.Distinct) (hq : vocabulary.Has q)
    (hq' : vocabulary.Has q')
    (h : (CanonicalTriple.ofQuad q).words = (CanonicalTriple.ofQuad q').words) :
    CanonicalTriple.ofQuad q = .ofQuad q' := by
  simp only [CanonicalTriple.words,Prod.mk.injEq] at h
  have hs := hd.subjects hq.1 hq'.1 h.1
  have hp := hd.predicates hq.2.1 hq'.2.1 h.2.1
  have ho := hd.objects hq.2.2 hq'.2.2 h.2.2
  simp only [CanonicalTriple.ofQuad,hs,hp,ho]

section

variable (hv : vocabulary.Spells S P O)
include hv

lemma Spells.unambiguous (hs : Separated space comma S P O)
    (hd : vocabulary.Distinct) : vocabulary.Unambiguous := by
  intro quads quads' am am' hq hq' ham ham' hne heq
  rw [getCanonicalString_eq ham,getCanonicalString_eq ham',Option.some.injEq,joined_words,
    joined_words] at heq
  have ho {quads : List Quad} {am : List CanonicalTriple} (hq : vocabulary.Holds quads)
      (ham : unsigned quads = some am) :
      ∀ w ∈ (sortBy CanonicalTriple.key am).map CanonicalTriple.words, Over S P O w := by
    intro w hw
    obtain ⟨t,ht,rfl⟩ := mem_map.mp hw
    obtain ⟨q,hh,rfl⟩ := hq.triple ham ht
    exact hv.words_over hh
  have hwd := hs.spell_inj (by decide) (ho hq ham) (ho hq' ham') heq
  have hsr := map_eq_of_keys CanonicalTriple.words id hwd fun t ht t' ht' hw => by
    obtain ⟨q,hh,rfl⟩ := hq.triple ham ht
    obtain ⟨q',hh',rfl⟩ := hq'.triple ham' ht'
    exact hd.ofQuad_inj hh hh' hw
  rw [map_id,map_id] at hsr
  exact hne ((sortBy_perm _ am).symm.trans (hsr ▸ sortBy_perm _ am'))

lemma Spells.exists_quads {ws : List (Words UInt16)}
    (hws : ∀ w ∈ ws, Over S P O w ∧ w.2.1.length ≤ 3) :
    ∃ quads : List Quad, vocabulary.Holds quads ∧ unsigned quads = some (quads.map .ofQuad) ∧
      (quads.map CanonicalTriple.ofQuad).map CanonicalTriple.words = ws := by
  induction ws with
  | nil => exact ⟨[],fun q hq => absurd hq not_mem_nil,rfl,rfl⟩
  | cons w ws ih =>
    obtain ⟨quads,hh,hu,hwd⟩ := ih fun w hw => hws w (mem_cons_of_mem _ hw)
    obtain ⟨⟨hs,hp,ho⟩,hsh⟩ := hws w mem_cons_self
    have hne : w.2.1 ≠ signature := by
      intro h
      rw [h] at hsh
      exact absurd hsh (by decide)
    obtain ⟨s,hs,hst⟩ := hv.subjects.superset hs
    obtain ⟨p,hp,hpt⟩ := hv.predicates.superset ⟨hp,hne⟩
    obtain ⟨o,ho,hotx⟩ := hv.objects.superset ho
    refine ⟨⟨.ofURI [],s,p,o⟩ :: quads,?_,?_,?_⟩
    · intro q hq
      rcases mem_cons.mp hq with rfl | hq
      · exact .inr ⟨hs,hp,ho⟩
      · exact hh q hq
    · rw [unsigned,hv.plain p hp,hu]
      rfl
    · rw [map_cons,map_cons,hwd]
      congr 1
      exact Prod.ext hst (Prod.ext hpt hotx)

lemma Spells.separated (h : vocabulary.Unambiguous) : Separated space comma S P O := by
  by_contra hn
  obtain ⟨ws,ws',hc⟩ := exists_collision hn
  obtain ⟨quads,hh,hu,hwd⟩ := hv.exists_quads fun w hw => hc.admitted w (mem_append.mpr (.inl hw))
  obtain ⟨quads',hh',hu',hwd'⟩ :=
    hv.exists_quads fun w hw => hc.admitted w (mem_append.mpr (.inr hw))
  have hs {l : List CanonicalTriple}
      (hl : (l.map CanonicalTriple.words).Pairwise fun w w' => key w ≤ key w') :
      sortBy CanonicalTriple.key l = l := by
    rw [pairwise_map] at hl
    exact sortBy_of_pairwise _ hl
  refine h quads quads' _ _ hh hh' hu hu' ?_ ?_
  · intro hp
    exact hc.differ (hwd ▸ hwd' ▸ hp.map CanonicalTriple.words)
  · rw [getCanonicalString_eq hu,getCanonicalString_eq hu',
      hs (hwd ▸ hc.sorted),hs (hwd' ▸ hc.sorted'),joined_words,joined_words,
      hwd,hwd',hc.text]

lemma Spells.ofQuad_inj (h : vocabulary.Unambiguous)
    (q q' : Quad) (hq : vocabulary.Has q) (hq' : vocabulary.Has q')
    (hw : (CanonicalTriple.ofQuad q).words = (CanonicalTriple.ofQuad q').words) :
    CanonicalTriple.ofQuad q = .ofQuad q' := by
  by_contra hne
  have ho {q : Quad} (hq : vocabulary.Has q) : unsigned [q] = some [.ofQuad q] := by
    rw [unsigned,hv.plain _ hq.2.1]
    rfl
  have hh {q : Quad} (hq : vocabulary.Has q) : vocabulary.Holds [q] := by
    intro q₀ hq₀
    rw [mem_singleton.mp hq₀]
    exact .inr hq
  refine h [q] [q'] _ _ (hh hq) (hh hq') (ho hq) (ho hq') ?_ ?_
  · intro hp
    exact hne (cons.inj (singleton_perm.mp hp)).1
  · rw [getCanonicalString_eq (ho hq),getCanonicalString_eq (ho hq'),joined_words,joined_words]
    simp [sortBy,hw]

lemma Spells.distinct (h : vocabulary.Unambiguous) : vocabulary.Distinct := by
  obtain ⟨s,hs,_⟩ := hv.subjects.superset (show [] ∈ {w : JavaString | ∀ c ∈ w, c ∈ S} by simp)
  obtain ⟨p,hp,_⟩ := hv.predicates.superset
    (show [] ∈ {w : JavaString | (∀ c ∈ w, c ∈ P) ∧ w ≠ signature} from ⟨by simp,by decide⟩)
  obtain ⟨o,ho,_⟩ := hv.objects.superset (show [] ∈ {w : JavaString | ∀ c ∈ w, c ∈ O} by simp)
  constructor
  · intro r hr r' hr' ht
    have heq := hv.ofQuad_inj h ⟨.ofURI [],r,p,o⟩ ⟨.ofURI [],r',p,o⟩ ⟨hr,hp,ho⟩
      ⟨hr',hp,ho⟩ (Prod.ext ht rfl)
    simpa [CanonicalTriple.ofQuad] using heq
  · intro r hr r' hr' ht
    have heq := hv.ofQuad_inj h ⟨.ofURI [],s,r,o⟩ ⟨.ofURI [],s,r',o⟩ ⟨hs,hr,ho⟩
      ⟨hs,hr',ho⟩ (Prod.ext rfl (Prod.ext ht rfl))
    simpa [CanonicalTriple.ofQuad] using heq
  · intro r hr r' hr' ht
    have heq := hv.ofQuad_inj h ⟨.ofURI [],s,p,r⟩ ⟨.ofURI [],s,p,r'⟩ ⟨hs,hp,hr⟩
      ⟨hs,hp,hr'⟩ (Prod.ext rfl (Prod.ext rfl ht))
    simpa [CanonicalTriple.ofQuad] using heq

end

/-- When signing a graph says which triples it has: the two separators must be
kept apart by the alphabets of the texts, and a text must name one node. -/
theorem unambiguous_iff (hv : vocabulary.Spells S P O) :
    vocabulary.Unambiguous ↔ Separated space comma S P O ∧ vocabulary.Distinct :=
  ⟨fun h => ⟨hv.separated h,hv.distinct h⟩,fun ⟨hs,hd⟩ => hv.unambiguous hs hd⟩

/-- Nodes that are written without a comma, and only literals with a space. -/
def plain : Vocabulary where
  subjects := {r | ∃ w, r = .ofURI w ∧ ∀ c ∈ w, c ≠ space ∧ c ≠ comma}
  predicates := {r | ∃ w, r = .ofURI w ∧ (∀ c ∈ w, c ≠ space ∧ c ≠ comma) ∧ w ≠ signature}
  objects := {n | ∃ w, n = .literal ⟨none,.string w⟩ ∧ ∀ c ∈ w, c ≠ comma}

lemma plain_spells : plain.Spells {c | c ≠ space ∧ c ≠ comma} {c | c ≠ space ∧ c ≠ comma}
    {c | c ≠ comma} where
  subjects := by
    ext w
    constructor
    · intro ⟨r,⟨w',hr,hw⟩,ht⟩
      subst hr ht
      exact hw
    · intro hw
      exact ⟨.ofURI w,⟨w,rfl,hw⟩,rfl⟩
  predicates := by
    ext w
    constructor
    · intro ⟨r,⟨w',hr,hw⟩,ht⟩
      subst hr ht
      exact hw
    · intro hw
      exact ⟨.ofURI w,⟨w,rfl,hw⟩,rfl⟩
  objects := by
    ext w
    constructor
    · intro ⟨r,⟨w',hr,hw⟩,ht⟩
      subst hr ht
      exact hw
    · intro hw
      exact ⟨.literal ⟨none,.string w⟩,⟨w,rfl,hw⟩,rfl⟩
  plain := by
    intro r ⟨w,hr,_,hne⟩
    subst hr
    simp [Resource.ofURI,Resource.equals,hne]

theorem plain_unambiguous : plain.Unambiguous := by
  refine (unambiguous_iff plain_spells).mpr ⟨⟨?_,?_,?_,?_,?_,?_,?_⟩,⟨?_,?_,?_⟩⟩
  any_goals simp
  · intro r ⟨w,hr,_⟩ r' ⟨w',hr',_⟩ ht
    subst hr hr'
    exact congrArg Resource.ofURI ht
  · intro r ⟨w,hr,_⟩ r' ⟨w',hr',_⟩ ht
    subst hr hr'
    exact congrArg Resource.ofURI ht
  · intro r ⟨w,hr,_⟩ r' ⟨w',hr',_⟩ ht
    subst hr hr'
    exact congrArg (fun w => Node.literal ⟨none,.string w⟩) ht

end Vocabulary

def oneTriple : List Quad := [plainQuad ['a'] ['b'] ['c',',','d',' ','e',' ','f']]

def twoTriples : List Quad := [plainQuad ['a'] ['b'] ['c'],plainQuad ['d'] ['e'] ['f']]

theorem one_triple_reads_as_two : unsigned oneTriple = some (oneTriple.map .ofQuad) ∧
    unsigned twoTriples = some (twoTriples.map .ofQuad) ∧
    ¬ (oneTriple.map CanonicalTriple.ofQuad).Perm (twoTriples.map .ofQuad) ∧
    getCanonicalString oneTriple = getCanonicalString twoTriples :=
  ⟨by decide,by decide,fun h => absurd h.length_eq (by decide),by decide⟩

end Aff4.Java
