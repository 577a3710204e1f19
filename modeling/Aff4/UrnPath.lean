import Aff4.Lib.Separators
import Aff4.Lib.Transition
import Aff4.Urn

/-! Paths of URNs: names are added to them and taken relative to them. A URN shows its path
collapsed and keeps it as it was put together. -/

namespace Aff4

open LittleEndian Transition List

namespace URLParse

lemma splitPath_slash (e : Bytes) (path : List Bytes) (q r : Bytes) :
    splitPath e path (q ++ slash :: r) = splitPath [] (splitPath e path q) r := by
  induction q generalizing e path with
  | nil => simp [splitPath]
  | cons c q ih =>
    rw [cons_append,splitPath,splitPath]
    split
    · exact ih _ _
    · exact ih _ _

lemma splitPath_nil (path : List Bytes) : splitPath [] path [] = path := by
  simp [splitPath,pushElement]

/-- A name that `RDFURN_add` takes for a path: there is no colon before the first slash. -/
def Relative (name : Bytes) : Prop :=
  (∀ c ∈ name, c ≠ hash ∧ c ≠ 0) ∧
    ∃ first rest, name = first ++ rest ∧ (∀ c ∈ first, c ≠ colon ∧ c ≠ slash) ∧ Rooted rest

variable {name : Bytes}

lemma relative_of_noColon (h : ∀ c ∈ name, c ≠ colon ∧ c ≠ hash ∧ c ≠ 0) :
    Relative name := by
  refine ⟨fun c hc => (h c hc).2,name.takeWhile (· ≠ slash),name.dropWhile (· ≠ slash),?_,?_,?_⟩
  · rw [takeWhile_append_dropWhile]
  · intro c hc
    refine ⟨(h c ((takeWhile_sublist _).subset hc)).1,?_⟩
    simpa using mem_takeWhile_imp hc
  · cases hd : name.dropWhile (· ≠ slash) with
    | nil => exact .inl rfl
    | cons c rest =>
      have hc := head?_dropWhile_not (· ≠ slash) name
      rw [hd] at hc
      obtain rfl : c = slash := by simpa using hc
      exact .inr ⟨rest,rfl⟩

lemma parse_relative (h : Relative name) :
    parse name = {empty with query := name} := by
  obtain ⟨hn,first,rest,rfl,hf,hr⟩ := h
  have hm : ∀ c ∈ first, c ≠ colon ∧ c ≠ slash ∧ c ≠ hash := fun c hc =>
    ⟨(hf c hc).1,(hf c hc).2,(hn c (mem_append_left _ hc)).1⟩
  rw [parse,stateMethod_append _ hm,nil_append]
  rcases hr with rfl | ⟨rest,rfl⟩
  · rw [append_nil]
    rfl
  · have hq : ∀ c ∈ slash :: rest, c ≠ hash := fun c hc =>
      (hn c (mem_append_right _ hc)).1
    rw [stateMethod,if_pos (.inr rfl)]
    have ha : empty.stateQuery first (slash :: rest ++ []) = _ := stateQuery_append empty hq []
    rw [append_nil] at ha
    rw [ha]
    rfl

lemma parse_buffered {url : Bytes} (h : url.length < buffSize) : (parse url).Buffered := by
  have hs := stateMethod_size [] url
  have hfr : (parse url).fragment.length ≤ (fragmentText (parse url).fragment).length := by
    rw [fragmentText]
    split
    · next hf => simp [hf]
    · simp
  simp only [size,length_nil] at hs
  rw [Buffered]
  simp only [parse] at *
  omega

lemma parse_colon {first : Bytes} (h : ∀ c ∈ first, c ≠ colon ∧ c ≠ slash ∧ c ≠ hash)
    (rest : Bytes) : parse (first ++ colon :: rest) = {empty with scheme := first}.stateCollon rest := by
  rw [parse,stateMethod_append _ h,nil_append]
  rfl

end URLParse

open URLParse

/-- Where a URN points: the scheme with the authority, the elements of the path, and the
fragment. -/
structure Location where
  root : Bytes
  elements : List Bytes
  fragment : Bytes

namespace Location

def value (l : Location) : Bytes := l.root ++ joinPath l.elements ++ fragmentText l.fragment

def follow (l : Location) (name : Bytes) : Location :=
  {l with elements := splitPath [] l.elements name}

lemma foldl_follow (l : Location) (names : List Bytes) :
    names.foldl follow l = l.follow ([slash].intercalate names) := by
  induction names generalizing l with
  | nil => simp [follow,splitPath_nil]
  | cons a names ih =>
    rw [foldl_cons,ih]
    cases names with
    | nil => simp [follow,splitPath_nil]
    | cons b names =>
      rw [intercalate_cons_cons]
      simp only [follow,append_assoc,singleton_append]
      rw [splitPath_slash]

lemma follow_length (l : Location) (name : Bytes) :
    (l.follow name).value.length ≤ l.value.length+(name.length+1) := by
  have := splitPath_length [] l.elements name
  simp only [value,follow,length_append,length_nil] at *
  omega

end Location

namespace RDFURN

def location (self : RDFURN) : Location where
  root := self.parser.schemeText ++ separator ++ self.parser.netloc
  elements := splitPath [] [] self.parser.query
  fragment := self.parser.fragment

lemma value_location (u : RDFURN) : u.value = u.location.value := by
  rw [value,string_eq]
  rfl

lemma parser_set {string : Bytes} (h : ∀ c ∈ string, c ≠ 0) :
    (set string).parser = parse string := by
  rw [set]
  simp only [cstring_eq_self h]

lemma set_location (u : RDFURN) : (set u.value).location = u.location := by
  have hp : ∀ x ∈ splitPath [] [] u.parser.query, Proper x := splitPath_proper _ (by simp) (by simp)
  have hpr : (set u.value).parser =
      ⟨u.parser.schemeText,u.parser.netloc,collapsePath u.parser.query,u.parser.fragment⟩ := by
    rw [parser_set u.value_ne_zero,value,parse_string u.wf]
  have hs : schemeText ⟨u.parser.schemeText,u.parser.netloc,collapsePath u.parser.query,
      u.parser.fragment⟩ = u.parser.schemeText := if_neg u.parser.schemeText_ne_nil
  rw [location,location,hpr,hs,collapsePath,splitPath_joinPath hp]
  rfl

lemma value_injective {u v : RDFURN} (h : u.value = v.value) : u.location = v.location := by
  rw [← set_location u,h,set_location v]

variable {name : Bytes}

lemma add_location_query (u : RDFURN) (h : (set name).parser.scheme = []) :
    (u.add name).location = {u.location.follow (set name).parser.query with
      fragment := u.location.fragment ++ (set name).parser.fragment} := by
  have hqr : ∀ q : Bytes, splitPath [] [] (u.parser.query ++
      (if u.parser.query = [] then [] else [slash]) ++ q) =
      splitPath [] (splitPath [] [] u.parser.query) q := by
    intro q
    by_cases hq : u.parser.query = []
    · simp [hq,splitPath_nil]
    · rw [if_neg hq,append_assoc,singleton_append,splitPath_slash]
  rw [add,if_neg (by simp [h])]
  simp only [location,Location.follow,append,hqr]
  rfl

lemma add_location (u : RDFURN) (h : Relative name) :
    (u.add name).location = u.location.follow name := by
  have hp : (set name).parser = {empty with query := name} := by
    rw [parser_set fun c hc => (h.1 c hc).2,parse_relative h]
  rw [add_location_query u (by rw [hp]; rfl),hp]
  simp [Location.follow,empty]

/-- `RDFURN_add`, with no result for a name that overruns the parser's buffer. -/
def addBuffered (self : RDFURN) (filename : Bytes) : Option RDFURN :=
  if (set filename).parser.Buffered then some (self.add filename) else none

/-- What can be done to a URN: a name is added, it is copied, or it is set from its value. -/
inductive Call where
  | add (name : Bytes)
  | copy
  | set

def call (self : RDFURN) : Call → Option RDFURN
  | .add name => self.addBuffered name
  | .copy => setBuffered self.value
  | .set => setBuffered self.value

def Call.names : Call → List Bytes
  | .add name => [name]
  | _ => []

lemma setBuffered_value {u : RDFURN} (h : u.value.length < buffSize) :
    setBuffered u.value = some (set u.value) := by
  rw [setBuffered,if_pos]
  rw [parser_set u.value_ne_zero]
  exact parse_buffered h

lemma addBuffered_relative (u : RDFURN) (h : Relative name)
    (hl : name.length < buffSize) : u.addBuffered name = some (u.add name) := by
  rw [addBuffered,if_pos]
  rw [parser_set fun c hc => (h.1 c hc).2]
  exact parse_buffered hl

lemma run_call {u : RDFURN} {calls : List Call}
    (hnm : ∀ name ∈ calls.flatMap Call.names, Relative name)
    (hl : u.value.length+(joinPath (calls.flatMap Call.names)).length < buffSize) :
    ∃ v, run call u calls = some v ∧
      v.location = (calls.flatMap Call.names).foldl Location.follow u.location := by
  induction calls generalizing u with
  | nil => exact ⟨u,rfl,rfl⟩
  | cons first calls ih =>
    have hr : ∀ name ∈ calls.flatMap Call.names, Relative name :=
      fun name hn => hnm name (mem_append_right _ hn)
    -- A copy and a URN set from its own value point to the same place.
    have hs : u.value.length+(joinPath (calls.flatMap Call.names)).length < buffSize →
        ∃ v, (setBuffered u.value).bind (fun w => run call w calls) = some v ∧
          v.location = (calls.flatMap Call.names).foldl Location.follow u.location := by
      intro hl
      have hvl : (set u.value).value = u.value := by
        rw [value_location,set_location,← value_location]
      obtain ⟨v,hv,hlc⟩ := ih hr (hvl.symm ▸ hl)
      exact ⟨v,by rw [setBuffered_value (by omega),Option.bind_some,hv],by rw [hlc,set_location]⟩
    cases first with
    | copy => exact hs hl
    | set => exact hs hl
    | add name =>
      have hn : Relative name := hnm name (mem_append_left _ mem_cons_self)
      simp only [Call.names,joinPath,singleton_append,flatMap_cons,length_append,
        length_cons] at hl
      have hvl := Location.follow_length u.location name
      rw [← u.add_location hn,← value_location,← value_location] at hvl
      have hf : (u.add name).value.length+(joinPath (calls.flatMap Call.names)).length <
          buffSize := by
        simp only [joinPath]
        omega
      obtain ⟨v,hv,hlc⟩ := ih hr hf
      refine ⟨v,?_,?_⟩
      · rw [run,call,addBuffered_relative u hn (by omega),Option.bind_some,hv]
      · rw [hlc,u.add_location hn]
        rfl

lemma joinPath_length_le (names : List Bytes) :
    (joinPath names).length ≤ ([slash].intercalate names).length+1 := by
  cases names with
  | nil => simp [joinPath]
  | cons name names =>
    rw [intercalate_slash]
    simp [joinPath]

lemma relative_intercalate {names : List Bytes}
    (h : ∀ name ∈ names, ∀ c ∈ name, c ≠ colon ∧ c ≠ hash ∧ c ≠ 0) :
    Relative ([slash].intercalate names) := by
  refine relative_of_noColon fun c hc => ?_
  cases names with
  | nil => simp at hc
  | cons name names =>
    rw [intercalate_slash,mem_append] at hc
    rcases hc with hc | hc
    · exact h name mem_cons_self c hc
    · rcases mem_joinPath hc with rfl | ⟨other,ho,hc⟩
      · decide
      · exact h other (mem_cons_of_mem _ ho) c hc

/-- Names can be added to a URN one by one or joined into one name, and copying or setting it
in between changes nothing. -/
theorem add_composes {u : RDFURN} {calls : List Call}
    (hn : ∀ name ∈ calls.flatMap Call.names, ∀ c ∈ name, c ≠ colon ∧ c ≠ hash ∧ c ≠ 0)
    (hln : u.value.length+([slash].intercalate (calls.flatMap Call.names)).length < 40000) :
    ∃ v w, run call u calls = some v ∧
      ((setBuffered u.value).bind fun base =>
        base.addBuffered ([slash].intercalate (calls.flatMap Call.names))) = some w ∧
      v.value = w.value := by
  have hl := joinPath_length_le (calls.flatMap Call.names)
  have hj := relative_intercalate hn
  have hf : u.value.length+(joinPath (calls.flatMap Call.names)).length < buffSize := by
    rw [buffSize]
    omega
  obtain ⟨v,hv,hlc⟩ := run_call (fun name hnm => relative_of_noColon (hn name hnm)) hf
  refine ⟨v,(set u.value).add ([slash].intercalate (calls.flatMap Call.names)),hv,?_,?_⟩
  · rw [setBuffered_value (by omega),Option.bind_some,
      addBuffered_relative _ hj (by rw [buffSize]; omega)]
  · rw [value_location,value_location,hlc,add_location _ hj,set_location,Location.foldl_follow]

/-- Going up above the root, with a copy and a set on the way. -/
def climb : List Call := [.add (chars ['.','.','/','.','.']),.copy,.add (chars ['b']),.set,.add []]

def nested : RDFURN := set (fqn ++ chars ['v','/','a'])

theorem add_composes_climb : ∃ v w, run call nested climb = some v ∧
    ((setBuffered nested.value).bind fun base =>
      base.addBuffered (chars ['.','.','/','.','.','/','b','/'])) = some w ∧
    v.value = w.value :=
  @add_composes nested climb (by decide +kernel) (by decide +kernel)

section

variable {u v : RDFURN}

lemma noHash_value (h : u.parser.fragment = []) : ∀ c ∈ u.value, c ≠ hash := by
  intro c hc
  rw [value,string_eq,h,fragmentText,if_pos rfl,append_nil] at hc
  simp only [mem_append] at hc
  rcases hc with ((hc | hc) | hc) | hc
  · exact (schemeText_wellFormed u.wf c hc).2.2.1
  · revert c
    decide +kernel
  · exact (u.wf.netloc c hc).2.1
  · rcases mem_collapsePath hc with rfl | hc
    · decide
    · exact (u.wf.query c hc).1

lemma elements_proper (u : RDFURN) : ∀ e ∈ u.location.elements, Proper e :=
  splitPath_proper _ (by simp) (by simp)

variable {es : List Bytes} {front first : Bytes}

lemma joinPath_cut (hes : ∀ e ∈ es, Proper e) {rest : Bytes}
    (h : joinPath es = front ++ slash :: rest) :
    ∃ es₁ es₂, es = es₁ ++ es₂ ∧ joinPath es₂ = slash :: rest := by
  induction es generalizing front with
  | nil => simp [joinPath] at h
  | cons e es ih =>
    cases front with
    | nil => exact ⟨[],e :: es,rfl,h⟩
    | cons c front =>
      have ht : e ++ joinPath es = front ++ slash :: rest := (cons.inj h).2
      rcases append_eq_append_iff.mp ht with ⟨more,hf,hr⟩ | ⟨more,he,hr⟩
      · obtain ⟨es₁,es₂,rfl,hes₂⟩ := ih (fun x hx => hes x (mem_cons_of_mem _ hx)) hr
        exact ⟨e :: es₁,es₂,rfl,hes₂⟩
      · cases more with
        | nil =>
          refine ⟨[e],es,rfl,?_⟩
          simpa using hr.symm
        | cons d more =>
          obtain ⟨rfl,-⟩ := cons.inj hr
          exact absurd rfl ((hes e mem_cons_self).noSlash slash (by rw [he]; simp))

lemma value_shape (h : u.parser.fragment = []) : u.value =
    u.parser.schemeText ++ separator ++ u.parser.netloc ++ joinPath u.location.elements := by
  rw [value,string_eq,h,fragmentText,if_pos rfl,append_nil]
  rfl

variable {rest : Bytes}

variable (hu : u.parser.fragment = [])

include hu in
lemma path_of_rooted (hv : v.parser.fragment = []) (h : u.value = v.value ++ rest)
    (hrs : Rooted rest) : u.location.root = v.location.root ∧
      joinPath u.location.elements = joinPath v.location.elements ++ rest := by
  have hr : Rooted (joinPath v.location.elements ++ rest) := by
    rcases joinPath_rooted v.location.elements with hnl | ⟨more,hm⟩
    · rwa [hnl]
    · exact .inr ⟨more ++ rest,by rw [hm]; rfl⟩
  have hh : ∀ c ∈ joinPath v.location.elements ++ rest, c ≠ hash := by
    intro c hc
    refine noHash_value hu c ?_
    rw [h,value_shape hv,append_assoc]
    exact mem_append_right _ hc
  have hp : parse u.value = ⟨v.parser.schemeText,v.parser.netloc,
      joinPath v.location.elements ++ rest,[]⟩ := by
    have ht := parse_text (s := v.parser.schemeText) (n := v.parser.netloc) (f := [])
      (fun c hc => ?_) (fun c hc => ?_) hr hh
    · rw [h,value_shape hv,← ht]
      simp [fragmentText]
    · obtain ⟨hcl,hs,hh,-⟩ := schemeText_wellFormed v.wf c hc
      exact ⟨hcl,hs,hh⟩
    · obtain ⟨hs,hh,-⟩ := v.wf.netloc c hc
      exact ⟨hs,hh⟩
  rw [value,parse_string u.wf] at hp
  obtain ⟨hsc,hn,hpt,-⟩ := URLParse.mk.inj hp
  refine ⟨?_,hpt⟩
  simp only [location,hsc,hn]

include hu in
lemma add_rooted (hv : v.parser.fragment = []) (h : u.value = v.value ++ rest)
    (hrs : Rooted rest) : Relative rest ∧ ((set v.value).add rest).value = u.value := by
  have hr : Relative rest := by
    refine ⟨fun c hc => ?_,[],rest,rfl,by simp,hrs⟩
    have hm : c ∈ u.value := h ▸ mem_append_right _ hc
    exact ⟨noHash_value hu c hm,u.value_ne_zero c hm⟩
  obtain ⟨hrt,hp⟩ := path_of_rooted hu hv h hrs
  have he : splitPath [] v.location.elements rest = u.location.elements := by
    have hs : splitPath [] [] (joinPath u.location.elements) = u.location.elements := by
      rw [splitPath_joinPath (elements_proper u)]
      rfl
    rw [hp] at hs
    have hv' : splitPath [] [] (joinPath v.location.elements) = v.location.elements := by
      rw [splitPath_joinPath (elements_proper v)]
      rfl
    rcases hrs with rfl | ⟨more,rfl⟩
    · rw [append_nil,hv'] at hs
      rw [splitPath_nil,hs]
    · rw [splitPath_slash,hv'] at hs
      rw [← hs]
      simp [splitPath,pushElement]
  refine ⟨hr,?_⟩
  rw [value_location (add _ _),add_location _ hr,set_location,value_location u]
  have hf : u.location.fragment = v.location.fragment := hu.trans hv.symm
  simp only [Location.follow,Location.value,he,hrt,hf]

lemma joinPath_concat (es : List Bytes) (e : Bytes) :
    joinPath (es ++ [e]) = joinPath es ++ slash :: e := by simp [joinPath]

lemma pushElement_extend {l : Bytes} (hl : Proper l) (hne : first ≠ [])
    (hs : ∀ c ∈ first, c ≠ slash) :
    pushElement (es ++ [l]) first ≠ pushElement es (l ++ first) := by
  have h₁ := length_pos_iff.mpr hl.nonempty
  have h₂ := length_pos_iff.mpr hne
  have hp : Proper (l ++ first) := by
    refine ⟨by simp [hne],fun c hc => ?_,fun hdt => ?_,fun hd => ?_⟩
    · rcases mem_append.mp hc with hc | hc
      · exact hl.noSlash c hc
      · exact hs c hc
    · have hln := congrArg length hdt
      rw [length_append,length_singleton] at hln
      omega
    · have hln := congrArg length hd
      rw [length_append] at hln
      have ho : l.length = 1 := le_antisymm (Nat.le_of_lt_succ (by
        have : [dot,dot].length = 2 := rfl
        omega)) h₁
      obtain ⟨c,rfl⟩ := length_eq_one_iff.mp ho
      exact hl.noDot (by rw [(cons.inj hd).1])
  rw [pushElement_of_proper hp,pushElement]
  intro h
  split at h
  · have := congrArg length h
    simp at this
  · split at h
    · have hla := append_cancel_left h
      have := congrArg length (singleton_inj.mp hla)
      rw [length_append] at this
      omega
    · have := congrArg length h
      simp at this

include hu in
lemma add_not_rooted_relative (hv : v.parser.fragment = []) (h : u.value = v.value ++ rest)
    (hr : Relative rest) (hrs : ¬ Rooted rest) :
    ((set v.value).add rest).value ≠ u.value := by
  intro hsa
  have hlc := value_injective hsa
  rw [add_location _ hr,set_location] at hlc
  have hrt : (v.location.follow rest).root = u.location.root := congrArg Location.root hlc
  have hel : (v.location.follow rest).elements = u.location.elements :=
    congrArg Location.elements hlc
  have hp : joinPath u.location.elements = joinPath v.location.elements ++ rest := by
    have hvl := h
    have hfu : fragmentText u.location.fragment = [] := if_pos hu
    have hfv : fragmentText v.location.fragment = [] := if_pos hv
    rw [value_location,value_location,Location.value,Location.value,← hrt,hfu,hfv,
      append_nil,append_nil,append_assoc] at hvl
    exact append_cancel_left hvl
  obtain ⟨-,first,tail,rfl,hf,ht⟩ := hr
  have hs : ∀ c ∈ first, c ≠ slash := fun c hc => (hf c hc).2
  have hne : first ≠ [] := by
    rintro rfl
    exact hrs ht
  obtain ⟨es',hpr,rfl⟩ : ∃ es', (∀ e ∈ es', Proper e) ∧ joinPath es' = tail := by
    rcases ht with rfl | ⟨more,rfl⟩
    · exact ⟨[],by simp,rfl⟩
    · rw [← append_assoc] at hp
      obtain ⟨es₁,es₂,hes,hes₂⟩ := joinPath_cut (elements_proper u) hp
      exact ⟨es₂,fun e he => elements_proper u e (hes ▸ mem_append_right _ he),hes₂⟩
  rw [Location.follow,splitPath_append hs,nil_append,splitPath_joinPath hpr]
    at hel
  have hsl : splitPath [] [] (joinPath u.location.elements) = u.location.elements := by
    rw [splitPath_joinPath (elements_proper u)]
    rfl
  rcases eq_nil_or_concat v.location.elements with hn | ⟨es,l,hes⟩
  · rw [hn] at hp
    rcases joinPath_rooted u.location.elements with hem | ⟨more,hm⟩
    · rw [hem] at hp
      simp [joinPath,hne] at hp
    · obtain ⟨c,front,rfl⟩ := exists_cons_of_ne_nil hne
      rw [hm] at hp
      exact hs c mem_cons_self (cons.inj hp).1.symm
  · -- The name was taken for a new element, but it continues the last one.
    have hl : Proper l := elements_proper v l (by rw [hes]; simp)
    rw [hp,hes,concat_eq_append,joinPath_concat,append_assoc,cons_append,
      splitPath_slash,splitPath_joinPath fun e he => elements_proper v e (by rw [hes]; simp [he]),
      splitPath_append hl.noSlash,splitPath_append hs,splitPath_joinPath hpr] at hsl
    rw [hes,concat_eq_append,← hsl] at hel
    exact pushElement_extend hl hne hs (append_cancel_right hel)

lemma four_le_value (v : RDFURN) : 4 ≤ v.value.length := by
  have hp := length_pos_iff.mpr v.parser.schemeText_ne_nil
  have hs : separator.length = 3 := rfl
  rw [value,string_eq]
  simp only [length_append]
  omega

lemma add_colon (hv : v.parser.fragment = []) {rest : Bytes}
    (h : u.value = v.value ++ (first ++ colon :: rest))
    (hfs : ∀ c ∈ first, c ≠ colon ∧ c ≠ slash ∧ c ≠ hash) :
    ((set v.value).add (first ++ colon :: rest)).value ≠ u.value := by
  intro hsa
  have hl := congrArg length (hsa.trans h)
  have hz : ∀ c ∈ first ++ colon :: rest, c ≠ 0 := fun c hc =>
    u.value_ne_zero c (h ▸ mem_append_right _ hc)
  have hp : (set (first ++ colon :: rest)).parser =
      {empty with scheme := first}.stateCollon rest := by rw [parser_set hz,parse_colon hfs]
  have hs : (set (first ++ colon :: rest)).parser.scheme = first := by
    rw [hp]
    exact (stateCollon_parts _ rest).1
  have hsz := stateCollon_size (p := {empty with scheme := first}) rfl rfl rest
  by_cases he : first = []
  · subst he
    have hrt := congrArg length v.value_location
    have hf : v.location.fragment = [] := hv
    rw [value_location,add_location_query _ hs,set_location,hp,hf] at hl
    simp only [Location.value,Location.follow,length_append,length_cons,hf,nil_append] at hl hrt
    by_cases hr : rest = []
    · subst hr
      simp only [stateCollon,empty,splitPath_nil,length_nil] at hl
      omega
    · have hlt := stateCollon_size_lt (p := {empty with scheme := []}) rfl rfl hr
      have hpt := splitPath_length [] v.location.elements
        ({empty with scheme := []}.stateCollon rest).query
      simp only [size] at hlt
      simp only [fragmentText,if_true,length_nil,empty] at hlt hrt hpt hl
      omega
  · have hv4 := four_le_value v
    have hpt := splitPath_length [] [] (set (first ++ colon :: rest)).parser.query
    rw [add,if_pos (by rw [hs]; exact he),value,string_eq,schemeText,hs,if_neg he] at hl
    rw [← hp] at hsz
    have hsp : separator.length = 3 := rfl
    simp only [size,hs,collapsePath,length_append,length_cons,hsp] at *
    simp [empty,fragmentText,joinPath] at *
    omega

lemma parser_set_value (u : RDFURN) : (set u.value).parser =
    ⟨u.parser.schemeText,u.parser.netloc,collapsePath u.parser.query,u.parser.fragment⟩ := by
  rw [parser_set u.value_ne_zero,value,parse_string u.wf]

lemma add_absolute (u v : RDFURN) : ((set v.value).add u.value).value = u.value := by
  have hs : (set u.value).parser.scheme ≠ [] := by
    rw [parser_set_value]
    exact u.parser.schemeText_ne_nil
  rw [add,if_pos hs,u.set_value (cstring_eq_self u.value_ne_zero)]

include hu in
lemma add_not_rooted (hv : v.parser.fragment = []) (h : u.value = v.value ++ rest)
    (hr : ¬ Rooted rest) : ((set v.value).add rest).value ≠ u.value := by
  have hm : ∀ c ∈ rest, c ∈ u.value := fun c hc => h ▸ mem_append_right _ hc
  have hh : ∀ c ∈ rest, c ≠ hash := fun c hc => noHash_value hu c (hm c hc)
  -- The first colon or slash decides how the name is taken.
  have hs := takeWhile_append_dropWhile (p := fun c => c ≠ colon && c ≠ slash) (l := rest)
  have hf : ∀ c ∈ rest.takeWhile (fun c => c ≠ colon && c ≠ slash),
      c ≠ colon ∧ c ≠ slash := fun c hc => by simpa using mem_takeWhile_imp hc
  cases ht : rest.dropWhile fun c => c ≠ colon && c ≠ slash with
  | nil =>
    rw [ht] at hs
    refine add_not_rooted_relative hu hv h ?_ hr
    exact ⟨fun c hc => ⟨hh c hc,u.value_ne_zero c (hm c hc)⟩,_,[],hs.symm,hf,.inl rfl⟩
  | cons d tail =>
    rw [ht] at hs
    have hd := head?_dropWhile_not (fun c => c ≠ colon && c ≠ slash) rest
    rw [ht] at hd
    by_cases hcl : d = colon
    · subst hcl
      have hp : ∀ c ∈ rest.takeWhile (fun c => c ≠ colon && c ≠ slash),
          c ≠ colon ∧ c ≠ slash ∧ c ≠ hash := fun c hc =>
        ⟨(hf c hc).1,(hf c hc).2,hh c ((takeWhile_sublist _).subset hc)⟩
      have ha := add_colon hv (hs.symm ▸ h) hp
      rwa [hs] at ha
    · obtain rfl : d = slash := by simpa [hcl] using hd
      refine add_not_rooted_relative hu hv h ?_ hr
      exact ⟨fun c hc => ⟨hh c hc,u.value_ne_zero c (hm c hc)⟩,_,slash :: tail,hs.symm,
        hf,.inr ⟨tail,rfl⟩⟩

lemma no_double_slash {rest : Bytes} :
    u.parser.netloc ++ joinPath u.location.elements ≠ front ++ slash :: slash :: rest := by
  intro h
  have hp : ∀ front, joinPath u.location.elements ≠ front ++ slash :: slash :: rest := by
    intro front hp
    obtain ⟨es₁,es₂,hes,hes₂⟩ := joinPath_cut (elements_proper u) hp
    cases es₂ with
    | nil => simp [joinPath] at hes₂
    | cons e es =>
      have he : Proper e := elements_proper u e (by rw [hes]; simp)
      have ht : e ++ joinPath es = slash :: rest := (cons.inj hes₂).2
      obtain ⟨c,e,rfl⟩ := exists_cons_of_ne_nil he.nonempty
      exact he.noSlash c mem_cons_self (cons.inj ht).1
  rcases append_eq_append_iff.mp h with ⟨more,-,hr⟩ | ⟨more,hn,hr⟩
  · exact hp more hr
  · cases more with
    | nil => exact hp [] (by simpa using hr.symm)
    | cons c more =>
      obtain ⟨rfl,-⟩ := cons.inj hr
      exact (u.wf.netloc slash (by rw [hn]; simp)).1 rfl

include hu in
lemma not_value_append (w : RDFURN) : u.value ≠ v.value ++ w.value := by
  intro h
  have hs : separator = colon :: [slash,slash] := rfl
  have hc : ∀ z : RDFURN, colon ∉ z.parser.schemeText := fun z hz =>
    (schemeText_wellFormed z.wf colon hz).1 rfl
  rw [value_shape hu,value,string_eq,value,string_eq,hs] at h
  simp only [append_assoc,cons_append,nil_append] at h
  obtain ⟨-,ht⟩ := Separators.split_at (hc u) (hc v) h
  obtain ⟨-,ht⟩ := cons.inj ht
  obtain ⟨-,ht⟩ := cons.inj ht
  rw [← append_assoc (collapsePath _),← append_assoc v.parser.netloc,
    ← append_assoc _ w.parser.schemeText,append_cons _ colon] at ht
  exact no_double_slash ht

include hu in
lemma relativeName_injective {w : RDFURN} (hw : w.parser.fragment = [])
    (h : u.relativeName v = w.relativeName v) : u.value = w.value := by
  rw [relativeName,relativeName] at h
  split at h <;> split at h
  · next hpu hpw =>
    rw [prefix_iff_eq_append.mp hpu |>.symm,h,prefix_iff_eq_append.mp hpw]
  · next hpu _ => exact absurd (h ▸ (prefix_iff_eq_append.mp hpu).symm) (not_value_append hu w)
  · next _ hpw =>
    exact absurd (h ▸ (prefix_iff_eq_append.mp hpw).symm) (not_value_append hw u)
  · exact h

/-- Adding a relative name leads back exactly when the name is the whole URN or begins at a
slash, and what is set and added fits the parser's buffers. No two URNs have the same name
relative to a third. -/
theorem relativeName_invertible_iff (hu : u.parser.fragment = []) (hv : v.parser.fragment = []) :
    ((∃ w, ((setBuffered v.value).bind fun base => base.addBuffered (u.relativeName v)) =
        some w ∧ w.value = u.value) ↔ (set v.value).parser.Buffered ∧
      if v.value <+: u.value then Rooted (u.value.drop v.value.length) ∧
        (set (u.value.drop v.value.length)).parser.Buffered
      else (set u.value).parser.Buffered) ∧
    ∀ w : RDFURN, w.parser.fragment = [] → u.relativeName v = w.relativeName v →
      u.value = w.value := by
  refine ⟨?_,fun w hw h => relativeName_injective hu hw h⟩
  rw [setBuffered,relativeName]
  by_cases hbv : (set v.value).parser.Buffered
  · rw [if_pos hbv,Option.bind_some,addBuffered]
    split
    · next hb =>
      have hrs := (prefix_iff_eq_append.mp hb).symm
      generalize u.value.drop v.value.length = rest at hrs
      constructor
      · rintro ⟨w,hw,hvl⟩
        split at hw
        · next hbr =>
          refine ⟨hbv,?_,hbr⟩
          by_contra hr
          exact add_not_rooted hu hv hrs hr (Option.some.inj hw ▸ hvl)
        · cases hw
      · rintro ⟨-,hr,hbr⟩
        exact ⟨_,if_pos hbr,(add_rooted hu hv hrs hr).2⟩
    · constructor
      · rintro ⟨w,hw,-⟩
        split at hw
        · next hbu => exact ⟨hbv,hbu⟩
        · cases hw
      · rintro ⟨-,hbu⟩
        exact ⟨_,if_pos hbu,add_absolute u v⟩
  · simp [hbv]

end

theorem relativeName_of_child :
    ∃ w, ((setBuffered (set (fqn ++ chars ['v'])).value).bind fun base =>
        base.addBuffered (nested.relativeName (set (fqn ++ chars ['v'])))) = some w ∧
      w.value = nested.value :=
  (relativeName_invertible_iff (u := nested) (v := set (fqn ++ chars ['v'])) (by decide +kernel)
    (by decide +kernel)).1.mpr ⟨by decide +kernel,by
      rw [if_pos (by decide +kernel)]
      exact ⟨.inr ⟨chars ['a'],by decide +kernel⟩,by decide +kernel⟩⟩

/-- The second URN only begins with the letters of the first. -/
theorem relativeName_of_neighbour :
    ((setBuffered (set (fqn ++ chars ['v'])).value).bind fun base =>
      base.addBuffered ((set (fqn ++ chars ['v','a'])).relativeName
        (set (fqn ++ chars ['v'])))).map value = some (fqn ++ chars ['v','/','a']) ∧
    (set (fqn ++ chars ['v','a'])).value = fqn ++ chars ['v','a'] := by
  decide +kernel

end RDFURN

end Aff4
