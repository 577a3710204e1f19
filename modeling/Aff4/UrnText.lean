import Aff4.UrnPath

/-! What `URLParse_parse` keeps of a string: its parts, put together again with the delimiters
that the parser took note of. -/

namespace Aff4.URLParse

open LittleEndian List

/-! The delimiters by state: the one behind a scheme and the one before a fragment. -/

def queryDelimiter (rest : Bytes) : Bytes := if hash ∈ rest then [hash] else []

def collonDelimiters : Bytes → Bytes × Bytes
  | [] => ([colon],[])
  | [_] => ([colon],[])
  | c :: d :: rest =>
      if c = slash ∧ d = slash then (separator,queryDelimiter rest)
      else ([colon],queryDelimiter (d :: rest))

def methodDelimiters : Bytes → Bytes × Bytes
  | [] => ([],[])
  | c :: rest =>
      if c = hash ∨ c = slash then ([],queryDelimiter (c :: rest))
      else if c = colon then collonDelimiters rest
      else methodDelimiters rest

def join (p : URLParse) (delimiters : Bytes × Bytes) : Bytes :=
  p.scheme ++ delimiters.1 ++ p.netloc ++ p.query ++ delimiters.2 ++ p.fragment

def joined (url : Bytes) : Bytes := (parse url).join (methodDelimiters url)

lemma stateQuery_joined (p : URLParse) (hp : p.fragment = []) (buff rest : Bytes) :
    (p.stateQuery buff rest).query ++ queryDelimiter rest ++ (p.stateQuery buff rest).fragment =
      buff ++ rest := by
  induction rest generalizing buff with
  | nil => simp [stateQuery,queryDelimiter,hp]
  | cons c rest ih =>
    by_cases hc : c = hash
    · simp [stateQuery,queryDelimiter,hc]
    · have hm : queryDelimiter (c :: rest) = queryDelimiter rest := by
        simp [queryDelimiter,Ne.symm hc]
      rw [stateQuery,if_neg hc,hm,ih,append_assoc,singleton_append]

lemma stateNetlock_joined (p : URLParse) (hq : p.query = []) (hf : p.fragment = [])
    (buff rest : Bytes) : (p.stateNetlock buff rest).netloc ++ (p.stateNetlock buff rest).query ++
      queryDelimiter rest ++ (p.stateNetlock buff rest).fragment = buff ++ rest := by
  induction rest generalizing buff with
  | nil => simp [stateNetlock,queryDelimiter,hq,hf]
  | cons c rest ih =>
    by_cases hc : c = slash ∨ c = hash
    · have hqr := stateQuery_joined {p with netloc := buff} hf [] (c :: rest)
      rw [stateNetlock,if_pos hc,(stateQuery_scheme _ _ _).2]
      simp only [append_assoc,nil_append] at hqr ⊢
      rw [hqr]
    · have hm : queryDelimiter (c :: rest) = queryDelimiter rest := by
        have hne : hash ≠ c := fun h => hc (.inr h.symm)
        simp [queryDelimiter,hne]
      rw [stateNetlock,if_neg hc,hm,ih,append_assoc,singleton_append]

def kept (rest : Bytes) : Bytes := if [slash,slash] <+: rest then rest else rest.tail

lemma kept_eq_self (rest : Bytes) : kept rest = rest ↔ rest = [] ∨ [slash,slash] <+: rest := by
  rw [kept]
  split
  · next h => exact iff_of_true rfl (.inr h)
  · next h =>
    cases rest with
    | nil => simp
    | cons c rest =>
      refine iff_of_false (fun he => ?_) (fun he => he.elim (fun h => by cases h) h)
      have := congrArg length he
      simp at this

lemma stateCollon_joined (p : URLParse) (hn : p.netloc = []) (hq : p.query = [])
    (hf : p.fragment = []) (rest : Bytes) :
    (collonDelimiters rest).1 ++ (p.stateCollon rest).netloc ++ (p.stateCollon rest).query ++
      (collonDelimiters rest).2 ++ (p.stateCollon rest).fragment = colon :: kept rest := by
  match rest with
  | [] => simp [collonDelimiters,stateCollon,kept,hn,hq,hf]
  | [c] => simp [collonDelimiters,stateCollon,stateQuery,kept,hn,hf]
  | c :: d :: rest =>
    by_cases hc : c = slash ∧ d = slash
    · have hnt := stateNetlock_joined p hq hf [] rest
      have hk : kept (c :: d :: rest) = c :: d :: rest := by simp [kept,hc.1,hc.2]
      simp only [collonDelimiters,stateCollon,if_pos hc,hk,append_assoc]
      simp only [append_assoc,nil_append] at hnt
      rw [hnt,hc.1,hc.2]
      rfl
    · have hqr := stateQuery_joined p hf [] (d :: rest)
      have hk : kept (c :: d :: rest) = d :: rest := by
        rw [kept,if_neg]
        · rfl
        · rintro ⟨more,hm⟩
          obtain ⟨hcs,hr⟩ := cons.inj hm
          exact hc ⟨hcs.symm,(cons.inj hr).1.symm⟩
      simp only [collonDelimiters,stateCollon,if_neg hc,hk,(stateQuery_scheme p _ _).2,hn]
      simp only [append_nil,append_assoc,nil_append] at hqr ⊢
      rw [hqr]
      rfl

def SchemeOf (scheme more url : Bytes) : Prop :=
  url = scheme ++ colon :: more ∧ ∀ c ∈ scheme, c ≠ colon ∧ c ≠ slash ∧ c ≠ hash

lemma stateMethod_joined (buff rest : Bytes) : (∃ scheme more, SchemeOf scheme more rest ∧
      (empty.stateMethod buff rest).join (methodDelimiters rest) =
        buff ++ scheme ++ colon :: kept more) ∨
    (∀ scheme more, ¬ SchemeOf scheme more rest) ∧
      (empty.stateMethod buff rest).join (methodDelimiters rest) = buff ++ rest := by
  induction rest generalizing buff with
  | nil =>
    refine .inr ⟨fun scheme more h => ?_,?_⟩
    · have := congrArg length h.1
      simp at this
    · simp [join,stateMethod,methodDelimiters,empty]
  | cons c rest ih =>
    by_cases hc : c = hash ∨ c = slash
    · refine .inr ⟨fun scheme more h => ?_,?_⟩
      · cases scheme with
        | nil =>
          obtain rfl := (cons.inj h.1).1
          revert hc
          decide
        | cons d scheme =>
          obtain rfl := (cons.inj h.1).1
          obtain ⟨-,hsl,hh⟩ := h.2 c mem_cons_self
          exact hc.elim hh hsl
      · have hq := stateQuery_joined empty rfl buff (c :: rest)
        rw [stateMethod,if_pos hc,methodDelimiters,if_pos hc,join,(stateQuery_scheme _ _ _).1,
          (stateQuery_scheme _ _ _).2]
        exact hq
    · by_cases hcl : c = colon
      · subst hcl
        refine .inl ⟨[],rest,⟨rfl,by simp⟩,?_⟩
        have hj := stateCollon_joined {empty with scheme := buff} rfl rfl rfl rest
        rw [stateMethod,if_neg hc,if_pos rfl,methodDelimiters,if_neg hc,if_pos rfl,join,
          (stateCollon_parts _ _).1]
        simp only [append_assoc,nil_append] at hj ⊢
        rw [hj]
      · rw [stateMethod,if_neg hc,if_neg hcl,methodDelimiters,if_neg hc,if_neg hcl]
        rcases ih (buff ++ [c]) with ⟨scheme,more,⟨rfl,hs⟩,hjn⟩ | ⟨hn,hjn⟩
        · refine .inl ⟨c :: scheme,more,⟨rfl,fun d hd => ?_⟩,by rw [hjn]; simp⟩
          rcases mem_cons.mp hd with rfl | hd
          · exact ⟨hcl,fun h => hc (.inr h),fun h => hc (.inl h)⟩
          · exact hs d hd
        · refine .inr ⟨fun scheme more h => ?_,by rw [hjn]; simp⟩
          cases scheme with
          | nil => exact hcl (cons.inj h.1).1
          | cons d scheme =>
            exact hn scheme more ⟨(cons.inj h.1).2,fun x hx => h.2 x (mem_cons_of_mem _ hx)⟩

/-- The parser loses no character of a string exactly when what it takes for the end of a scheme
is followed by two slashes or by nothing. -/
theorem joined_eq_iff {url : Bytes} (hl : url.length < 40000) :
    (parse url).Buffered ∧ (joined url = url ↔ ∀ scheme more, SchemeOf scheme more url →
      more = [] ∨ [slash,slash] <+: more) := by
  refine ⟨parse_buffered (Nat.lt_trans hl (by decide)),?_⟩
  have hnt : ∀ {scheme more : Bytes}, SchemeOf scheme more url → colon ∉ scheme :=
    fun h hm => (h.2 colon hm).1 rfl
  rw [joined,parse]
  rcases stateMethod_joined [] url with ⟨scheme,more,hs,hj⟩ | ⟨hn,hj⟩
  · have hi : scheme ++ colon :: kept more = url ↔ kept more = more := by
      rw [hs.1]
      simp
    rw [hj,nil_append,hi,kept_eq_self]
    refine ⟨fun h scheme' more' hs' => ?_,fun h => h scheme more hs⟩
    obtain ⟨-,rfl⟩ := Separators.split_at (hnt hs) (hnt hs')
      (hs.1.symm.trans hs'.1)
    exact h
  · rw [hj]
    exact iff_of_true rfl fun scheme more h => absurd h (hn scheme more)

theorem joined_host : joined (chars ['s',':','/','/','h','/','p','#','f']) =
    chars ['s',':','/','/','h','/','p','#','f'] := by
  refine (joined_eq_iff (by decide +kernel)).2.mpr fun scheme more h => .inr ?_
  have ht : chars ['s'] ++ colon :: chars ['/','/','h','/','p','#','f'] =
      scheme ++ colon :: more := h.1
  obtain ⟨-,rfl⟩ := Separators.split_at (by decide) (fun hm => (h.2 colon hm).1 rfl) ht
  exact ⟨chars ['h','/','p','#','f'],rfl⟩

/-- The first character behind a scheme without an authority is lost. -/
theorem joined_loses : joined (chars ['s',':','p']) = chars ['s',':'] := by
  decide +kernel

end Aff4.URLParse
