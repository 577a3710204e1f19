import Aff4.Memory

/-! URNs as rdf.c keeps them: a string is parsed into its parts, and the value
is the parts written out again with the path collapsed. -/

namespace Aff4

open LittleEndian List

def slash : UInt8 := 47
def colon : UInt8 := 58
def hash : UInt8 := 35
def dot : UInt8 := 46

structure URLParse where
  scheme : Bytes
  netloc : Bytes
  query : Bytes
  fragment : Bytes
  deriving DecidableEq, Repr

namespace URLParse

def empty : URLParse := ⟨[],[],[],[]⟩

/-! Each state of `URLParse_parse` is a function of the buffer and the rest of the string; one that
steps back hands its character on. -/

def stateQuery (p : URLParse) (buff : Bytes) : Bytes → URLParse
  | [] => {p with query := buff}
  | c :: rest =>
      if c = hash then {p with query := buff, fragment := rest}
      else stateQuery p (buff ++ [c]) rest

def stateNetlock (p : URLParse) (buff : Bytes) : Bytes → URLParse
  | [] => {p with netloc := buff}
  | c :: rest =>
      if c = slash ∨ c = hash then stateQuery {p with netloc := buff} [] (c :: rest)
      else stateNetlock p (buff ++ [c]) rest

def stateCollon (p : URLParse) : Bytes → URLParse
  | [] => p
  | [_] => p.stateQuery [] []
  | c :: d :: rest =>
      if c = slash ∧ d = slash then p.stateNetlock [] rest else p.stateQuery [] (d :: rest)

def stateMethod (p : URLParse) (buff : Bytes) : Bytes → URLParse
  | [] => {p with query := buff}
  | c :: rest =>
      if c = hash ∨ c = slash then p.stateQuery buff (c :: rest)
      else if c = colon then {p with scheme := buff}.stateCollon rest
      else stateMethod p (buff ++ [c]) rest

def parse (url : Bytes) : URLParse := empty.stateMethod [] url

/-- One path element: `..` takes the last one off, `.` and empty ones are dropped. -/
def pushElement (path : List Bytes) (element : Bytes) : List Bytes :=
  if element = [dot,dot] then path.dropLast
  else if element = [dot] then path
  else if element = [] then path
  else path ++ [element]

def splitPath (element : Bytes) (path : List Bytes) : Bytes → List Bytes
  | [] => pushElement path element
  | c :: rest =>
      if c = slash then splitPath [] (pushElement path element) rest
      else splitPath (element ++ [c]) path rest

def joinPath (path : List Bytes) : Bytes := path.flatMap fun element => slash :: element

def collapsePath (query : Bytes) : Bytes := joinPath (splitPath [] [] query)

def schemeText (p : URLParse) : Bytes :=
  if p.scheme = [] then chars ['f','i','l','e'] else p.scheme

def separator : Bytes := chars [':','/','/']

def string (p : URLParse) : Bytes :=
  if p.fragment ≠ [] then
    p.schemeText ++ separator ++ p.netloc ++ collapsePath p.query ++ [hash] ++ p.fragment
  else if p.query ≠ [] then
    p.schemeText ++ separator ++ p.netloc ++ collapsePath p.query
  else
    p.schemeText ++ separator ++ p.netloc

structure WellFormed (p : URLParse) : Prop where
  scheme : ∀ c ∈ p.scheme, c ≠ colon ∧ c ≠ slash ∧ c ≠ hash ∧ c ≠ 0
  netloc : ∀ c ∈ p.netloc, c ≠ slash ∧ c ≠ hash ∧ c ≠ 0
  query : ∀ c ∈ p.query, c ≠ hash ∧ c ≠ 0
  fragment : ∀ c ∈ p.fragment, c ≠ 0

lemma empty_wellFormed : empty.WellFormed :=
  ⟨by simp [empty],by simp [empty],by simp [empty],by simp [empty]⟩

variable {p : URLParse}

section

variable (hp : p.WellFormed)
include hp

variable {buff rest : Bytes}

lemma stateQuery_wellFormed (hb : ∀ c ∈ buff, c ≠ hash ∧ c ≠ 0) (hr : ∀ c ∈ rest, c ≠ 0) :
    (p.stateQuery buff rest).WellFormed := by
  induction rest generalizing buff with
  | nil => exact ⟨hp.scheme,hp.netloc,hb,hp.fragment⟩
  | cons c rest ih =>
    have hrs : ∀ x ∈ rest, x ≠ 0 := fun x hx => hr x (mem_cons_of_mem _ hx)
    by_cases hc : c = hash
    · simp only [stateQuery,hc,if_true]
      exact ⟨hp.scheme,hp.netloc,hb,hrs⟩
    · simp only [stateQuery,hc,if_false]
      refine ih (fun x hx => ?_) hrs
      rcases mem_append.mp hx with hx | hx
      · exact hb x hx
      · rw [mem_singleton.mp hx]
        exact ⟨hc,hr c mem_cons_self⟩

lemma stateNetlock_wellFormed
    (hb : ∀ c ∈ buff, c ≠ slash ∧ c ≠ hash ∧ c ≠ 0) (hr : ∀ c ∈ rest, c ≠ 0) :
    (p.stateNetlock buff rest).WellFormed := by
  induction rest generalizing buff with
  | nil => exact ⟨hp.scheme,hb,hp.query,hp.fragment⟩
  | cons c rest ih =>
    by_cases hc : c = slash ∨ c = hash
    · have hp' : {p with netloc := buff}.WellFormed := ⟨hp.scheme,hb,hp.query,hp.fragment⟩
      rw [stateNetlock,if_pos hc]
      exact stateQuery_wellFormed hp' (by simp) hr
    · simp only [stateNetlock,hc,if_false]
      refine ih (fun x hx => ?_) fun x hx => hr x (mem_cons_of_mem _ hx)
      rcases mem_append.mp hx with hx | hx
      · exact hb x hx
      · rw [mem_singleton.mp hx]
        exact ⟨fun h => hc (.inl h),fun h => hc (.inr h),hr c mem_cons_self⟩

lemma stateCollon_wellFormed {rest : Bytes}
    (hr : ∀ c ∈ rest, c ≠ 0) : (p.stateCollon rest).WellFormed := by
  match rest with
  | [] => exact hp
  | [_] => exact stateQuery_wellFormed hp (by simp) (by simp)
  | c :: d :: rest =>
    have hd : ∀ x ∈ d :: rest, x ≠ 0 := fun x hx => hr x (mem_cons_of_mem _ hx)
    simp only [stateCollon]
    split
    · exact stateNetlock_wellFormed hp (by simp) fun x hx => hd x (mem_cons_of_mem _ hx)
    · exact stateQuery_wellFormed hp (by simp) hd

lemma stateMethod_wellFormed
    (hb : ∀ c ∈ buff, c ≠ colon ∧ c ≠ slash ∧ c ≠ hash ∧ c ≠ 0) (hr : ∀ c ∈ rest, c ≠ 0) :
    (p.stateMethod buff rest).WellFormed := by
  have hq : ∀ c ∈ buff, c ≠ hash ∧ c ≠ 0 := fun c hc => (hb c hc).2.2
  induction rest generalizing buff with
  | nil => exact ⟨hp.scheme,hp.netloc,hq,hp.fragment⟩
  | cons c rest ih =>
    have hrs : ∀ x ∈ rest, x ≠ 0 := fun x hx => hr x (mem_cons_of_mem _ hx)
    by_cases hc : c = hash ∨ c = slash
    · simp only [stateMethod,hc,if_true]
      exact stateQuery_wellFormed hp hq hr
    · by_cases hcl : c = colon
      · have hp' : {p with scheme := buff}.WellFormed := ⟨hb,hp.netloc,hp.query,hp.fragment⟩
        rw [stateMethod,if_neg hc,if_pos hcl]
        exact stateCollon_wellFormed hp' hrs
      · simp only [stateMethod,hc,if_false,hcl]
        have hb' : ∀ x ∈ buff ++ [c], x ≠ colon ∧ x ≠ slash ∧ x ≠ hash ∧ x ≠ 0 := by
          intro x hx
          rcases mem_append.mp hx with hx | hx
          · exact hb x hx
          · rw [mem_singleton.mp hx]
            exact ⟨hcl,fun h => hc (.inr h),fun h => hc (.inl h),hr c mem_cons_self⟩
        exact ih hb' hrs fun x hx => (hb' x hx).2.2

end

lemma parse_wellFormed {url : Bytes} (h : ∀ c ∈ url, c ≠ 0) : (parse url).WellFormed :=
  stateMethod_wellFormed empty_wellFormed (by simp) h

/-! Parsing what `string` wrote gives the same parts with the path collapsed. -/

variable {q n s x : Bytes} {es : List Bytes} {c : UInt8}

lemma stateQuery_append (p : URLParse) {buff : Bytes} (hq : ∀ c ∈ q, c ≠ hash)
    (rest : Bytes) : p.stateQuery buff (q ++ rest) = p.stateQuery (buff ++ q) rest := by
  induction q generalizing buff with
  | nil => simp
  | cons c q ih =>
    have hc : c ≠ hash := hq c mem_cons_self
    rw [cons_append,stateQuery,if_neg hc,ih fun x hx => hq x (mem_cons_of_mem _ hx)]
    simp

lemma stateNetlock_append (p : URLParse) {buff : Bytes}
    (hn : ∀ c ∈ n, c ≠ slash ∧ c ≠ hash) (rest : Bytes) :
    p.stateNetlock buff (n ++ rest) = p.stateNetlock (buff ++ n) rest := by
  induction n generalizing buff with
  | nil => simp
  | cons c n ih =>
    have hc : ¬ (c = slash ∨ c = hash) := by simpa using hn c mem_cons_self
    rw [cons_append,stateNetlock,if_neg hc,ih fun x hx => hn x (mem_cons_of_mem _ hx)]
    simp

lemma stateMethod_append (p : URLParse) {buff : Bytes}
    (hs : ∀ c ∈ s, c ≠ colon ∧ c ≠ slash ∧ c ≠ hash) (rest : Bytes) :
    p.stateMethod buff (s ++ rest) = p.stateMethod (buff ++ s) rest := by
  induction s generalizing buff with
  | nil => simp
  | cons c s ih =>
    obtain ⟨h₁,h₂,h₃⟩ := hs c mem_cons_self
    have hc : ¬ (c = hash ∨ c = slash) := by simp [h₂,h₃]
    rw [cons_append,stateMethod,if_neg hc,if_neg h₁,ih fun x hx => hs x (mem_cons_of_mem _ hx)]
    simp

def fragmentText (f : Bytes) : Bytes := if f = [] then [] else hash :: f

lemma stateQuery_fragmentText (p : URLParse) (hp : p.fragment = []) (buff f : Bytes) :
    p.stateQuery buff (fragmentText f) = {p with query := buff, fragment := f} := by
  by_cases hf : f = []
  · simp [fragmentText,hf,stateQuery,hp]
  · simp [fragmentText,hf,stateQuery]

lemma string_eq (p : URLParse) : p.string =
    p.schemeText ++ separator ++ p.netloc ++ collapsePath p.query ++ fragmentText p.fragment := by
  by_cases hf : p.fragment = []
  · by_cases hq : p.query = []
    · simp [string,hf,hq,fragmentText,collapsePath,splitPath,pushElement,joinPath]
    · simp [string,hf,hq,fragmentText]
  · simp [string,hf,fragmentText]

/-- A path that can follow the authority part: empty, or beginning with a slash. -/
def Rooted (q : Bytes) : Prop := q = [] ∨ ∃ rest, q = slash :: rest

lemma joinPath_rooted (path : List Bytes) : Rooted (joinPath path) := by
  cases path with
  | nil => exact .inl rfl
  | cons e es => exact .inr ⟨e ++ joinPath es,rfl⟩

lemma parse_text {f : Bytes} (hs : ∀ c ∈ s, c ≠ colon ∧ c ≠ slash ∧ c ≠ hash)
    (hn : ∀ c ∈ n, c ≠ slash ∧ c ≠ hash) (hr : Rooted q) (hq : ∀ c ∈ q, c ≠ hash) :
    parse (s ++ separator ++ n ++ q ++ fragmentText f) = ⟨s,n,q,f⟩ := by
  have hsp : ∀ p : URLParse, ∀ rest, p.stateMethod s (separator ++ rest) =
      {p with scheme := s}.stateNetlock [] rest := by
    intro p rest
    rfl
  have hnt : ∀ p : URLParse, p.query = [] → p.fragment = [] →
      p.stateNetlock n (q ++ fragmentText f) = ⟨p.scheme,n,q,f⟩ := by
    intro p hpq hpf
    rcases hr with rfl | ⟨rest,rfl⟩
    · by_cases hf : f = []
      · simp [fragmentText,hf,stateNetlock,hpq,hpf]
      · simp [fragmentText,hf,stateNetlock,stateQuery]
    · rw [cons_append,stateNetlock,if_pos (.inl rfl),← cons_append,stateQuery_append _ hq]
      exact stateQuery_fragmentText {p with netloc := n} hpf _ f
  rw [parse,append_assoc,append_assoc,append_assoc,stateMethod_append _ hs,
    nil_append,hsp,stateNetlock_append _ hn,nil_append,hnt _ rfl rfl]

structure Proper (e : Bytes) : Prop where
  nonempty : e ≠ []
  noSlash : ∀ c ∈ e, c ≠ slash
  noDot : e ≠ [dot]
  noDots : e ≠ [dot,dot]

variable {path : List Bytes}

variable {e : Bytes}

lemma pushElement_proper (hp : ∀ x ∈ path, Proper x)
    (he : ∀ c ∈ e, c ≠ slash) : ∀ x ∈ pushElement path e, Proper x := by
  intro x hx
  simp only [pushElement] at hx
  split at hx
  · exact hp x (dropLast_subset _ hx)
  · split at hx
    · exact hp x hx
    · split at hx
      · exact hp x hx
      · rcases mem_append.mp hx with hx | hx
        · exact hp x hx
        · rw [mem_singleton.mp hx]
          exact ⟨‹_›,he,‹_›,‹_›⟩

lemma splitPath_proper (q : Bytes) (hp : ∀ x ∈ path, Proper x)
    (he : ∀ c ∈ e, c ≠ slash) : ∀ x ∈ splitPath e path q, Proper x := by
  induction q generalizing e path with
  | nil => exact pushElement_proper hp he
  | cons c q ih =>
    by_cases hc : c = slash
    · rw [splitPath,if_pos hc]
      exact ih (pushElement_proper hp he) (by simp)
    · rw [splitPath,if_neg hc]
      refine ih hp fun x hx => ?_
      rcases mem_append.mp hx with hx | hx
      · exact he x hx
      · rw [mem_singleton.mp hx]
        exact hc

lemma splitPath_append {e : Bytes} (hs : ∀ c ∈ s, c ≠ slash) (path : List Bytes)
    (rest : Bytes) : splitPath e path (s ++ rest) = splitPath (e ++ s) path rest := by
  induction s generalizing e with
  | nil => simp
  | cons c s ih =>
    rw [cons_append,splitPath,if_neg (hs c mem_cons_self),
      ih fun x hx => hs x (mem_cons_of_mem _ hx)]
    simp

lemma pushElement_of_proper (he : Proper e) (path : List Bytes) :
    pushElement path e = path ++ [e] := by simp [pushElement,he.noDots,he.noDot,he.nonempty]

lemma splitPath_joinPath (hes : ∀ x ∈ es, Proper x) (e : Bytes)
    (path : List Bytes) : splitPath e path (joinPath es) = pushElement path e ++ es := by
  induction es generalizing e path with
  | nil => simp [joinPath,splitPath]
  | cons x es ih =>
    have hx := hes x mem_cons_self
    have hj : joinPath (x :: es) = slash :: (x ++ joinPath es) := rfl
    rw [hj,splitPath,if_pos rfl,splitPath_append hx.noSlash,nil_append,
      ih fun y hy => hes y (mem_cons_of_mem _ hy),pushElement_of_proper hx]
    simp

lemma collapsePath_idem (q : Bytes) : collapsePath (collapsePath q) = collapsePath q := by
  have hpr : ∀ x ∈ splitPath [] [] q, Proper x := splitPath_proper q (by simp) (by simp)
  rw [collapsePath,collapsePath,splitPath_joinPath hpr [] []]
  simp [pushElement]

lemma mem_joinPath (h : c ∈ joinPath path) : c = slash ∨ ∃ e ∈ path, c ∈ e := by
  obtain ⟨e,he,hc⟩ := mem_flatMap.mp h
  rcases mem_cons.mp hc with hc | hc
  · exact .inl hc
  · exact .inr ⟨e,he,hc⟩

lemma mem_pushElement {e : Bytes} (h : x ∈ pushElement path e) : x ∈ path ∨ x = e := by
  simp only [pushElement] at h
  split at h
  · exact .inl (dropLast_subset _ h)
  · split at h
    · exact .inl h
    · split at h
      · exact .inl h
      · simpa using h

lemma mem_splitPath (h : x ∈ splitPath e path q) (hc : c ∈ x) : c ∈ e ∨ c ∈ q ∨ ∃ y ∈ path, c ∈ y
    := by
  induction q generalizing e path with
  | nil =>
    rcases mem_pushElement h with hx | rfl
    · exact .inr (.inr ⟨x,hx,hc⟩)
    · exact .inl hc
  | cons d q ih =>
    by_cases hd : d = slash
    · rw [splitPath,if_pos hd] at h
      rcases ih h with hm | hm | ⟨y,hy,hm⟩
      · simp at hm
      · exact .inr (.inl (mem_cons_of_mem _ hm))
      · rcases mem_pushElement hy with hy | rfl
        · exact .inr (.inr ⟨y,hy,hm⟩)
        · exact .inl hm
    · rw [splitPath,if_neg hd] at h
      rcases ih h with hm | hm | hm
      · rcases mem_append.mp hm with hm | hm
        · exact .inl hm
        · exact .inr (.inl (mem_singleton.mp hm ▸ mem_cons_self))
      · exact .inr (.inl (mem_cons_of_mem _ hm))
      · exact .inr (.inr hm)

lemma mem_collapsePath (h : c ∈ collapsePath q) : c = slash ∨ c ∈ q := by
  rcases mem_joinPath h with hc | ⟨e,he,hc⟩
  · exact .inl hc
  · rcases mem_splitPath he hc with hm | hm | ⟨y,hy,_⟩
    · simp at hm
    · exact .inr hm
    · simp at hy

lemma schemeText_wellFormed (hp : p.WellFormed) :
    ∀ c ∈ p.schemeText, c ≠ colon ∧ c ≠ slash ∧ c ≠ hash ∧ c ≠ 0 := by
  intro c hc
  by_cases hs : p.scheme = []
  · rw [schemeText,if_pos hs] at hc
    revert c
    decide +kernel
  · rw [schemeText,if_neg hs] at hc
    exact hp.scheme c hc

lemma schemeText_ne_nil (p : URLParse) : p.schemeText ≠ [] := by
  by_cases hs : p.scheme = []
  · rw [schemeText,if_pos hs]
    decide
  · rwa [schemeText,if_neg hs]

lemma parse_string (hp : p.WellFormed) :
    parse p.string = ⟨p.schemeText,p.netloc,collapsePath p.query,p.fragment⟩ := by
  rw [string_eq]
  refine parse_text (fun c hc => ?_) (fun c hc => ?_) (joinPath_rooted _) fun c hc => ?_
  · obtain ⟨h₁,h₂,h₃,_⟩ := schemeText_wellFormed hp c hc
    exact ⟨h₁,h₂,h₃⟩
  · obtain ⟨h₁,h₂,_⟩ := hp.netloc c hc
    exact ⟨h₁,h₂⟩
  · rcases mem_collapsePath hc with rfl | hm
    · decide
    · exact (hp.query c hm).1

lemma string_parse_string (hp : p.WellFormed) : (parse p.string).string = p.string := by
  have hs : (⟨p.schemeText,p.netloc,collapsePath p.query,p.fragment⟩ : URLParse).schemeText =
      p.schemeText := if_neg p.schemeText_ne_nil
  rw [parse_string hp,string_eq,hs,collapsePath_idem,string_eq]

lemma string_ne_zero (hp : p.WellFormed) : ∀ c ∈ p.string, c ≠ 0 := by
  intro c hc
  rw [string_eq] at hc
  simp only [mem_append] at hc
  rcases hc with (((hc | hc) | hc) | hc) | hc
  · exact (schemeText_wellFormed hp c hc).2.2.2
  · revert c
    decide +kernel
  · exact (hp.netloc c hc).2.2
  · rcases mem_collapsePath hc with rfl | hm
    · decide
    · exact (hp.query c hm).2
  · by_cases hf : p.fragment = []
    · simp [fragmentText,hf] at hc
    · rw [fragmentText,if_neg hf] at hc
      rcases mem_cons.mp hc with rfl | hc
      · decide
      · exact hp.fragment c hc

lemma joinPath_dropLast_length (path : List Bytes) :
    (joinPath path.dropLast).length ≤ (joinPath path).length := by
  have hs : joinPath path.dropLast <+: joinPath path := by
    rcases eq_nil_or_concat path with rfl | ⟨es,e,rfl⟩
    · exact prefix_rfl
    · exact ⟨slash :: e,by simp [joinPath]⟩
  exact hs.length_le

lemma pushElement_length (path : List Bytes) (e : Bytes) :
    (joinPath (pushElement path e)).length ≤ (joinPath path).length+e.length+1 := by
  simp only [pushElement]
  split
  · have := joinPath_dropLast_length path
    omega
  · split
    · omega
    · split
      · omega
      · simp [joinPath]
        omega

lemma splitPath_length (e : Bytes) (path : List Bytes) (q : Bytes) :
    (joinPath (splitPath e path q)).length ≤ (joinPath path).length+e.length+1+q.length := by
  induction q generalizing e path with
  | nil => exact pushElement_length path e
  | cons c q ih =>
    by_cases hc : c = slash
    · have h₁ := pushElement_length path e
      have h₂ := ih [] (pushElement path e)
      rw [splitPath,if_pos hc]
      simp only [length_nil,length_cons] at h₂ ⊢
      omega
    · have h := ih (e ++ [c]) path
      rw [splitPath,if_neg hc]
      simp only [length_append,length_cons,length_nil] at h ⊢
      omega

lemma collapsePath_length (h : Rooted q) : (collapsePath q).length ≤ q.length := by
  rcases h with rfl | ⟨rest,rfl⟩
  · decide
  · have hl := splitPath_length [] [] rest
    have hs : splitPath [] [] (slash :: rest) = splitPath [] [] rest := rfl
    rw [collapsePath,hs]
    simp only [joinPath,flatMap_nil,length_nil,length_cons] at hl ⊢
    omega

lemma stateQuery_shape (p : URLParse) (hp : p.fragment = []) (buff rest : Bytes) :
    ∃ q f, p.stateQuery buff rest = {p with query := buff ++ q, fragment := f} ∧ q <+: rest ∧
      q.length+(fragmentText f).length ≤ rest.length := by
  induction rest generalizing buff with
  | nil => exact ⟨[],[],by simp [stateQuery,← hp],prefix_rfl,le_refl _⟩
  | cons c rest ih =>
    by_cases hc : c = hash
    · refine ⟨[],rest,by simp [stateQuery,hc], nil_prefix,?_⟩
      by_cases hr : rest = []
      · simp [fragmentText,hr]
      · simp [fragmentText,hr]
    · obtain ⟨q,f,he,hpr,hl⟩ := ih (buff ++ [c])
      refine ⟨c :: q,f,?_,(prefix_cons_inj c).mpr hpr,?_⟩
      · rw [stateQuery,if_neg hc,he,append_assoc]
        rfl
      · simp only [length_cons]
        omega

lemma stateNetlock_shape (p : URLParse) (hq : p.query = []) (hf : p.fragment = [])
    (buff rest : Bytes) : ∃ n q f, p.stateNetlock buff rest = ⟨p.scheme,buff ++ n,q,f⟩ ∧ Rooted q ∧
      n.length+q.length+(fragmentText f).length ≤ rest.length := by
  induction rest generalizing buff with
  | nil =>
    exact ⟨[],[],[],by simp [stateNetlock,hq,hf],.inl rfl,le_refl _⟩
  | cons c rest ih =>
    by_cases hc : c = slash ∨ c = hash
    · rw [stateNetlock,if_pos hc]
      obtain ⟨q,f,he,hpr,hl⟩ := stateQuery_shape {p with netloc := buff} hf [] (c :: rest)
      refine ⟨[],q,f,by rw [he]; simp,?_,by simpa using hl⟩
      rcases hc with rfl | rfl
      · cases q with
        | nil => exact .inl rfl
        | cons d q =>
          obtain rfl := (cons_prefix_cons.mp hpr).1
          exact .inr ⟨q,rfl⟩
      · left
        have hs : ({p with netloc := buff} : URLParse).stateQuery [] (hash :: rest) =
            {p with netloc := buff, query := [], fragment := rest} := by simp [stateQuery]
        have := congrArg URLParse.query (he.symm.trans hs)
        simpa using this
    · obtain ⟨n,q,f,he,hr,hl⟩ := ih (buff ++ [c])
      refine ⟨c :: n,q,f,?_,hr,?_⟩
      · rw [stateNetlock,if_neg hc,he,append_assoc]
        rfl
      · simp only [length_cons]
        omega

def size (p : URLParse) : Nat :=
  p.scheme.length+p.netloc.length+p.query.length+(fragmentText p.fragment).length

section

variable (hq : p.query = []) (hf : p.fragment = [])
include hq hf

lemma stateQuery_size (buff rest : Bytes) :
    (p.stateQuery buff rest).size ≤ p.size+buff.length+rest.length := by
  obtain ⟨q,f,he,-,hl⟩ := stateQuery_shape p hf buff rest
  rw [he]
  simp only [size,hq,hf,length_append,length_nil]
  omega

lemma stateNetlock_size (buff rest : Bytes) :
    (p.stateNetlock buff rest).size ≤ p.size+buff.length+rest.length := by
  obtain ⟨n,q,f,he,-,hl⟩ := stateNetlock_shape p hq hf buff rest
  rw [he]
  simp only [size,length_append]
  omega

lemma stateCollon_size_lt {rest : Bytes} (h : rest ≠ []) :
    (p.stateCollon rest).size < p.size+rest.length := by
  match rest with
  | [] => exact absurd rfl h
  | [c] =>
    have := stateQuery_size hq hf [] []
    simp only [stateCollon,length_nil,length_singleton] at *
    omega
  | c :: d :: rest =>
    simp only [stateCollon]
    split
    · have := stateNetlock_size hq hf [] rest
      simp only [length_nil,length_cons] at *
      omega
    · have := stateQuery_size hq hf [] (d :: rest)
      simp only [length_nil,length_cons] at *
      omega

lemma stateCollon_size (rest : Bytes) : (p.stateCollon rest).size ≤ p.size+rest.length := by
  by_cases h : rest = []
  · subst h
    exact le_refl _
  · exact le_of_lt (stateCollon_size_lt hq hf h)

end

lemma stateMethod_size (buff rest : Bytes) :
    (empty.stateMethod buff rest).size ≤ buff.length+rest.length := by
  induction rest generalizing buff with
  | nil => simp [stateMethod,size,empty,fragmentText]
  | cons c rest ih =>
    rw [stateMethod]
    split
    · have := stateQuery_size (p := empty) rfl rfl buff (c :: rest)
      simp only [size,empty,fragmentText,if_true,length_nil] at this ⊢
      omega
    · split
      · have := stateCollon_size (p := {empty with scheme := buff}) rfl rfl rest
        simp only [size,empty,fragmentText,if_true,length_nil] at this ⊢
        simp only [length_cons]
        omega
      · have := ih (buff ++ [c])
        simp only [length_append,length_cons,length_nil] at this ⊢
        omega

lemma string_parse_length (url : Bytes) : (parse url).string.length ≤ url.length+8 := by
  have hs := stateMethod_size [] url
  have hpt := splitPath_length [] [] (parse url).query
  have hsc : (parse url).schemeText.length ≤ (parse url).scheme.length+4 := by
    rw [schemeText]
    split
    · simp [chars]
    · omega
  have hsp : separator.length = 3 := rfl
  change (parse url).size ≤ _ at hs
  rw [string_eq]
  simp only [size,collapsePath,joinPath,flatMap_nil,length_append,length_nil]
    at hs hpt ⊢
  omega

def components (path : Bytes) : List Bytes := (path.splitOn slash).tail

lemma intercalate_slash (e : Bytes) (es : List Bytes) :
    [slash].intercalate (e :: es) = e ++ joinPath es := by
  induction es generalizing e with
  | nil => simp [joinPath]
  | cons x es ih =>
    rw [intercalate_cons_cons,ih x]
    simp [joinPath]

lemma components_joinPath (hes : ∀ x ∈ es, Proper x) :
    components (joinPath es) = es := by
  have hsp : (joinPath es).splitOn slash = [] :: es := by
    rw [← nil_append (joinPath es),← intercalate_slash]
    refine splitOn_intercalate slash ?_ (cons_ne_nil _ _)
    intro l hl hs
    rcases mem_cons.mp hl with rfl | hl
    · simp at hs
    · exact (hes l hl).noSlash slash hs rfl
  rw [components,hsp,tail_cons]

end URLParse

def fqn : Bytes := chars ['a','f','f','4',':','/','/']

/-- Writing out a parsed fully qualified name leaves it fully qualified and never makes it
longer. -/
lemma URLParse.string_parse_fqn (r : Bytes) :
    ∃ rest, (parse (fqn ++ r)).string = fqn ++ rest ∧ rest.length ≤ r.length := by
  have hpr : parse (fqn ++ r) =
      {empty with scheme := chars ['a','f','f','4']}.stateNetlock [] r := rfl
  obtain ⟨n,q,f,he,hr,hl⟩ :=
    stateNetlock_shape {empty with scheme := chars ['a','f','f','4']} rfl rfl [] r
  have hc := collapsePath_length hr
  refine ⟨n ++ collapsePath q ++ fragmentText f,?_,?_⟩
  · have hfr : fqn = chars ['a','f','f','4'] ++ separator := rfl
    rw [hpr,he,string_eq,hfr]
    rfl
  · simp only [length_append]
    omega

/-- Every part stands in the buffer of `URLParse_parse` with a NUL behind it. -/
def URLParse.Buffered (p : URLParse) : Prop :=
  p.scheme.length < buffSize ∧ p.netloc.length < buffSize ∧ p.query.length < buffSize ∧
    p.fragment.length < buffSize

instance (p : URLParse) : Decidable p.Buffered :=
  inferInstanceAs (Decidable (p.scheme.length < buffSize ∧ p.netloc.length < buffSize ∧
    p.query.length < buffSize ∧ p.fragment.length < buffSize))

namespace URLParse

/-! The parser gives up only the separators and one character after a colon. -/

section

variable (p : URLParse)
include p

lemma stateQuery_parts (buff rest : Bytes) : buff.length+rest.length ≤
      (p.stateQuery buff rest).query.length+(p.stateQuery buff rest).fragment.length+1 := by
  induction rest generalizing buff with
  | nil => simp [stateQuery]; omega
  | cons c rest ih =>
    by_cases hc : c = hash
    · simp [stateQuery,hc]; omega
    · have := ih (buff ++ [c])
      simp only [stateQuery,hc,if_false,length_append,length_cons,length_nil]
        at this ⊢
      omega

lemma stateQuery_scheme (buff rest : Bytes) :
    (p.stateQuery buff rest).scheme = p.scheme ∧ (p.stateQuery buff rest).netloc = p.netloc := by
  induction rest generalizing buff with
  | nil => simp [stateQuery]
  | cons c rest ih =>
    by_cases hc : c = hash
    · simp [stateQuery,hc]
    · simpa [stateQuery,hc] using ih (buff ++ [c])

lemma stateNetlock_parts (buff rest : Bytes) :
    (p.stateNetlock buff rest).scheme = p.scheme ∧ buff.length+rest.length ≤
      (p.stateNetlock buff rest).netloc.length+(p.stateNetlock buff rest).query.length +
        (p.stateNetlock buff rest).fragment.length+1 := by
  induction rest generalizing buff with
  | nil => simp [stateNetlock]; omega
  | cons c rest ih =>
    by_cases hc : c = slash ∨ c = hash
    · have hq := stateQuery_parts {p with netloc := buff} [] (c :: rest)
      have hn := stateQuery_scheme {p with netloc := buff} [] (c :: rest)
      simp only [stateNetlock,hc,if_true,hn,length_nil,true_and] at hq ⊢
      omega
    · obtain ⟨hs,hl⟩ := ih (buff ++ [c])
      simp only [stateNetlock,hc,if_false,length_append,length_cons,length_nil]
        at hl ⊢
      exact ⟨hs,by omega⟩

lemma stateCollon_parts (rest : Bytes) : (p.stateCollon rest).scheme = p.scheme ∧ rest.length ≤
      (p.stateCollon rest).netloc.length+(p.stateCollon rest).query.length +
        (p.stateCollon rest).fragment.length+3 := by
  match rest with
  | [] => simp [stateCollon]
  | [c] =>
    simp [stateCollon,stateQuery]
  | c :: d :: rest =>
    by_cases hc : c = slash ∧ d = slash
    · obtain ⟨hs,hl⟩ := stateNetlock_parts p [] rest
      simp only [stateCollon,hc,and_self,if_true,length_cons,length_nil] at hl ⊢
      exact ⟨hs,by omega⟩
    · have hl := stateQuery_parts p [] (d :: rest)
      obtain ⟨hs,_⟩ := stateQuery_scheme p [] (d :: rest)
      simp only [stateCollon,hc,if_false,length_cons,length_nil] at hl ⊢
      exact ⟨hs,by omega⟩

lemma stateMethod_parts (buff rest : Bytes) :
    buff.length+rest.length ≤ (p.stateMethod buff rest).scheme.length +
      (p.stateMethod buff rest).netloc.length+(p.stateMethod buff rest).query.length +
        (p.stateMethod buff rest).fragment.length+4 := by
  induction rest generalizing buff with
  | nil => simp [stateMethod]; omega
  | cons c rest ih =>
    by_cases hq : c = hash ∨ c = slash
    · have := stateQuery_parts p buff (c :: rest)
      simp only [stateMethod,hq,if_true]
      omega
    · by_cases hc : c = colon
      · obtain ⟨hs,hl⟩ := stateCollon_parts {p with scheme := buff} rest
        rw [stateMethod,if_neg hq,if_pos hc,hs,length_cons]
        simp only
        omega
      · have := ih (buff ++ [c])
        simp only [stateMethod,hq,hc,if_false,length_append,length_cons,length_nil]
          at this ⊢
        omega

end

lemma Buffered.length_lt {url : Bytes} (h : (parse url).Buffered) : url.length < 4*buffSize+4 := by
  have hl := stateMethod_parts empty [] url
  obtain ⟨hs,hn,hq,hf⟩ := h
  simp only [parse,length_nil] at *
  omega

end URLParse

/-- A URN that has been set. The parts are those of `parser`. -/
structure RDFURN where
  parser : URLParse
  wf : parser.WellFormed

namespace RDFURN

def value (self : RDFURN) : Bytes := self.parser.string

def set (string : Bytes) : RDFURN :=
  ⟨.parse (cstring string),URLParse.parse_wellFormed (cstring_ne_zero string)⟩

/-- `RDFURN_set`, with no result for a string that overruns the parser's buffer. -/
def setBuffered (string : Bytes) : Option RDFURN :=
  if (set string).parser.Buffered then some (set string) else none

def append (self parser : URLParse) : URLParse :=
  {self with
    query := self.query ++ (if self.query = [] then [] else [slash]) ++ parser.query
    fragment := self.fragment ++ parser.fragment}

lemma append_wellFormed {s parser : URLParse} (hs : s.WellFormed)
    (hp : parser.WellFormed) : (append s parser).WellFormed where
  scheme := hs.scheme
  netloc := hs.netloc
  query c hc := by
    simp only [append,mem_append] at hc
    rcases hc with (hc | hc) | hc
    · exact hs.query c hc
    · split at hc
      · simp at hc
      · rw [mem_singleton.mp hc]
        decide
    · exact hp.query c hc
  fragment c hc := by
    rcases mem_append.mp hc with hc | hc
    · exact hs.fragment c hc
    · exact hp.fragment c hc

/-- An absolute name replaces the URN, a relative one is appended to its path. -/
def add (self : RDFURN) (filename : Bytes) : RDFURN :=
  if (set filename).parser.scheme ≠ [] then set filename
  else ⟨append self.parser (set filename).parser,append_wellFormed self.wf (set filename).wf⟩

def relativeName (self volume : RDFURN) : Bytes :=
  if volume.value <+: self.value then self.value.drop volume.value.length else self.value

lemma set_value_eq (string : Bytes) :
    (set string).value = (URLParse.parse (cstring string)).string := rfl

lemma value_ne_zero (u : RDFURN) : ∀ c ∈ u.value, c ≠ 0 := URLParse.string_ne_zero u.wf

variable {string : Bytes}

lemma set_value (u : RDFURN) (h : cstring string = u.value) :
    (set string).value = u.value := by
  rw [set_value_eq,h]
  exact URLParse.string_parse_string u.wf

def copy (self : RDFURN) : RDFURN := set self.value

def encode (self : RDFURN) : Bytes := zstring self.value

/-- `RDFURN_decode`. The last byte of the data is overwritten; there has to be one. -/
def decode (data : Bytes) : Option RDFURN :=
  if data = [] then none else some (set (data.dropLast ++ [0]))

lemma decode_encode (u : RDFURN) : (decode u.encode).map value = some u.value := by
  have hne : zstring u.value ≠ [] := by simp [zstring]
  have hl : (zstring u.value).dropLast ++ [0] = zstring u.value := by simp [zstring]
  rw [encode,decode,if_neg hne,hl,Option.map_some,u.set_value (cstring_zstring u.value_ne_zero)]

lemma components_value (u : RDFURN) :
    ∀ e ∈ URLParse.components (URLParse.parse u.value).query, URLParse.Proper e := by
  have hpr : ∀ x ∈ URLParse.splitPath [] [] u.parser.query, URLParse.Proper x :=
    URLParse.splitPath_proper _ (by simp) (by simp)
  rw [value,URLParse.parse_string u.wf,URLParse.collapsePath,URLParse.components_joinPath hpr]
  exact hpr

/-- The value of a URN is its own normal form, and it still fits into the parser's buffer. -/
theorem set_normalises {string : Bytes} (hln : (cstring string).length < 40000) :
    (set string).value.length < buffSize ∧
    (set (set string).value).value = (set string).value ∧
    (set string).copy.value = (set string).value ∧
    (decode (set string).encode).map value = some (set string).value ∧
    URLParse.Rooted (URLParse.parse (set string).value).query ∧
    ∀ e ∈ URLParse.components (URLParse.parse (set string).value).query,
      e ≠ [] ∧ e ≠ [dot] ∧ e ≠ [dot,dot] := by
  have hl := URLParse.string_parse_length (cstring string)
  have hv : (set (set string).value).value = (set string).value :=
    set_value _ (cstring_eq_self (set string).value_ne_zero)
  refine ⟨?_,hv,hv,decode_encode _,?_,fun e he => ?_⟩
  · rw [set_value_eq,buffSize]
    omega
  · rw [value,URLParse.parse_string (set string).wf]
    exact URLParse.joinPath_rooted _
  · have hpr := components_value _ e he
    exact ⟨hpr.nonempty,hpr.noDot,hpr.noDots⟩

theorem set_normalises_dots : (chars ['a','/','.','/','.','.','/','b','/']).length < 40000 ∧
    (set (chars ['a','/','.','/','.','.','/','b','/'])).value =
      chars ['f','i','l','e',':','/','/','/','b'] ∧
    (set (set (chars ['a','/','.','/','.','.','/','b','/'])).value).value =
      (set (chars ['a','/','.','/','.','.','/','b','/'])).value :=
  ⟨by decide,by decide +kernel,(set_normalises (by decide +kernel)).2.1⟩

lemma set_fqn {t : Bytes} (h : cstring string = t) (hfq : fqn <+: t) :
    fqn <+: (set string).value ∧ (set string).value.length ≤ t.length := by
  obtain ⟨r,rfl⟩ := hfq
  obtain ⟨rest,hr,hl⟩ := URLParse.string_parse_fqn r
  rw [set_value_eq,h,hr]
  refine ⟨prefix_append _ _,?_⟩
  simp only [length_append]
  omega

lemma exists_longer (n : Nat) : ∃ u : RDFURN, n < u.value.length := by
  have hs : ∀ c ∈ chars ['a','f','f','4'], c ≠ colon ∧ c ≠ slash ∧ c ≠ hash ∧ c ≠ 0 := by
    decide +kernel
  refine ⟨⟨⟨_,replicate n 0x61,[],[]⟩,hs,?_,by simp,by simp⟩,?_⟩
  · intro c hc
    rw [eq_of_mem_replicate hc]
    decide
  · rw [value,URLParse.string_eq]
    simp only [length_append,length_replicate,URLParse.separator,chars,length_map,length_cons]
    omega

lemma colon_mem_value (u : RDFURN) : colon ∈ u.value := by
  rw [value,URLParse.string_eq]
  simp only [mem_append]
  exact .inl (.inl (.inl (.inr (by decide))))

end RDFURN

end Aff4
