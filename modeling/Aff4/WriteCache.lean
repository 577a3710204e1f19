import Aff4.Cache

/-! The write cache of the resolver: `manage`, `own` and `cache_return` of resolver.c and
`AFFObject_close`, for objects in mode 'w'. -/

namespace Aff4

open LittleEndian Transition List

structure UrnText where
  text : Bytes
  fits : (zstring text).length < maxTallocSize
  deriving DecidableEq

structure AFFObject where
  address : Nat
  urn : UrnText
  deriving DecidableEq

abbrev WriteCache := Cache AFFObject

namespace WriteCache

def con : WriteCache := Cache.con 256 0

def manage (self : WriteCache) (obj : AFFObject) : Option WriteCache :=
  (Cache.put self (zstring obj.urn.text) obj).map Prod.snd

def own (self : WriteCache) (urn : UrnText) : Option (Option AFFObject) :=
  Cache.borrow self (zstring urn.text)

def cacheReturn (self : WriteCache) (obj : AFFObject) : Option WriteCache :=
  (Cache.put self (zstring obj.urn.text) obj).map Prod.snd

def close (self : WriteCache) (obj : AFFObject) : Option WriteCache :=
  (Cache.get self (zstring obj.urn.text)).map Prod.snd

inductive Call where
  | manage (obj : AFFObject)
  | own (urn : UrnText)
  | cacheReturn (obj : AFFObject)
  | close (obj : AFFObject)
  deriving DecidableEq

def step (self : WriteCache) : Call → Option WriteCache
  | .manage obj => self.manage obj
  | .own urn => (self.own urn).map fun _ => self
  | .cacheReturn obj => self.cacheReturn obj
  | .close obj => self.close obj

def count (self : WriteCache) (urn : UrnText) : Nat :=
  (self.cacheList.filter fun e => e.data.urn = urn).length

def counted (urn : UrnText) (n : Nat) : Call → Nat
  | .manage obj => if obj.urn = urn then n+1 else n
  | .own _ => n
  | .cacheReturn obj => if obj.urn = urn then n+1 else n
  | .close obj => if obj.urn = urn then n-1 else n

def entries (calls : List Call) (urn : UrnText) : Nat := calls.foldl (counted urn) 0

lemma entries_snoc (calls : List Call) (call : Call) (urn : UrnText) :
    entries (calls ++ [call]) urn = counted urn (entries calls urn) call := by
  rw [entries,foldl_append]
  rfl

lemma UrnText.key_injective {u v : UrnText} (h : zstring u.text = zstring v.text) : u = v := by
  obtain ⟨u,hu⟩ := u
  obtain ⟨v,hv⟩ := v
  obtain rfl : u = v := append_cancel_right h
  rfl

lemma not_uncopied (urn : UrnText) (l : List (Item Bytes AFFObject)) :
    ¬ Cache.Uncopied (zstring urn.text) l := fun h => absurd h.1 (Nat.not_le.mpr urn.fits)

def Holds (n : UrnText → Nat) (self : WriteCache) : Prop :=
  ∃ m, Cache.Refines 256 0 self m ∧ (∀ i ∈ m.items, i.key = zstring i.value.urn.text) ∧
    ∀ urn, (m.values (zstring urn.text)).length = n urn

lemma Holds.con : Holds (fun _ => 0) con :=
  ⟨.empty,Cache.con_refines 256 0,fun _ h => (by cases h),fun _ => rfl⟩

variable {s : WriteCache} {n : UrnText → Nat}

lemma Holds.put (h : s.Holds n) (obj : AFFObject) : ∃ next, s.manage obj = some next ∧
      Holds (fun urn => counted urn (n urn) (.manage obj)) next := by
  obtain ⟨m,hr,hk,hn⟩ := h
  obtain ⟨next,hp,hr'⟩ := Cache.put_refines hr (by decide) (zstring obj.urn.text) obj
  rw [Multimap.put_unbounded] at hr'
  refine ⟨next,by rw [manage,hp]; rfl,_,hr',fun i hi => ?_,fun urn => ?_⟩
  · rcases mem_append.mp hi with hi | hi
    · exact hk i hi
    · rw [mem_singleton.mp hi]
  · rw [Multimap.values_add,length_append,hn]
    simp only [counted]
    by_cases hu : obj.urn = urn
    · rw [if_pos (by rw [hu]),if_pos hu]
      rfl
    · rw [if_neg (fun he => hu (UrnText.key_injective he)),if_neg hu]
      rfl

lemma Holds.close (h : s.Holds n) (obj : AFFObject) : ∃ next, s.close obj = some next ∧
      Holds (fun urn => counted urn (n urn) (.close obj)) next := by
  obtain ⟨m,hr,hk,hn⟩ := h
  obtain ⟨hno,hg⟩ | ⟨i,next,hold,hg,hr'⟩ := Cache.get_refines hr (not_uncopied obj.urn _)
  · refine ⟨s,by rw [WriteCache.close,hg]; rfl,m,hr,hk,fun urn => ?_⟩
    simp only [hn,counted]
    split
    · next hu =>
      have hem : m.values (zstring obj.urn.text) = [] := by
        have hh := m.oldest_eq_head (zstring obj.urn.text)
        rw [hno] at hh
        exact head?_eq_none_iff.mp hh.symm
      rw [← hn,← hu,hem]
      rfl
    · rfl
  · refine ⟨next,by rw [WriteCache.close,hg]; rfl,_,hr',fun j hj => ?_,fun urn => ?_⟩
    · exact hk j (mem_of_mem_filter hj)
    · rw [Multimap.values_remove_oldest hold]
      simp only [counted]
      by_cases hu : obj.urn = urn
      · rw [if_pos (by rw [hu]),if_pos hu,length_tail,hn,hu]
      · rw [if_neg (fun he => hu (UrnText.key_injective he)),if_neg hu,hn]

lemma Holds.own (h : s.Holds n) (urn : UrnText) :
    ∃ result, s.own urn = some result ∧ (result = none ↔ n urn = 0) := by
  obtain ⟨m,hr,-,hn⟩ := h
  refine ⟨_,Cache.borrow_refines hr (not_uncopied urn _),?_⟩
  rw [m.oldest_eq_head,head?_eq_none_iff,← hn,length_eq_zero_iff]

lemma Holds.count (h : s.Holds n) (urn : UrnText) : s.count urn = n urn := by
  obtain ⟨m,hr,hk,hn⟩ := h
  have hs : m.items.filter (fun i => decide (i.key = zstring urn.text)) =
      m.items.filter fun i => decide (i.value.urn = urn) := by
    refine filter_congr fun i hi => decide_eq_decide.mpr ?_
    rw [hk i hi]
    exact ⟨UrnText.key_injective,fun he => he ▸ rfl⟩
  rw [WriteCache.count,hr.recency,filter_map,length_map,← hn,Multimap.values,length_map,hs]
  exact (m.same.filter _).length_eq

variable {calls : List Call}

lemma Holds.step (h : s.Holds (entries calls))
    (call : Call) : ∃ next, s.step call = some next ∧ next.Holds (entries (calls ++ [call])) := by
  have he : entries (calls ++ [call]) = fun urn => counted urn (entries calls urn) call :=
    funext (entries_snoc calls call)
  rw [he]
  cases call with
  | manage obj => exact h.put obj
  | own urn =>
    obtain ⟨result,ho,-⟩ := h.own urn
    exact ⟨s,by rw [WriteCache.step,ho]; rfl,h⟩
  | cacheReturn obj => exact h.put obj
  | close obj => exact h.close obj

lemma run_holds (calls : List Call) :
    ∃ cache, run step con calls = some cache ∧ cache.Holds (entries calls) := by
  induction calls using reverseRecOn with
  | nil => exact ⟨con,rfl,.con⟩
  | append_singleton calls call ih =>
    obtain ⟨cache,hr,hh⟩ := ih
    obtain ⟨next,hs,hn⟩ := hh.step call
    exact ⟨next,by rw [run_snoc,hr,Option.bind_some,hs],hn⟩

/-- An object stays in the cache as long as it was managed and returned more often than closed. -/
theorem run_count (calls : List Call) (urn : UrnText) : ∃ cache result,
    run step con calls = some cache ∧ cache.count urn = entries calls urn ∧
      cache.own urn = some result ∧ (result = none ↔ entries calls urn = 0) := by
  obtain ⟨cache,hr,h⟩ := run_holds calls
  obtain ⟨result,ho,hn⟩ := h.own urn
  exact ⟨cache,result,hr,h.count urn,ho,hn⟩

/-- Whether an object with the URN was closed and none has been managed since. -/
def closing (urn : UrnText) (closed : Bool) : Call → Bool
  | .manage obj => if obj.urn = urn then false else closed
  | .close obj => if obj.urn = urn then true else closed
  | _ => closed

def closedSince (calls : List Call) (urn : UrnText) : Bool := calls.foldl (closing urn) false

inductive Standing where
  | untouched
  | held
  | closed
  deriving DecidableEq

def standing (urn : UrnText) (s : Standing) : Call → Standing
  | .manage obj | .cacheReturn obj => if obj.urn = urn then .held else s
  | .close obj => if obj.urn = urn then .closed else s
  | .own _ => s

def standingOf (calls : List Call) (urn : UrnText) : Standing :=
  calls.foldl (standing urn) .untouched

lemma closedSince_snoc (calls : List Call) (call : Call) (urn : UrnText) :
    closedSince (calls ++ [call]) urn = closing urn (closedSince calls urn) call := by
  rw [closedSince,foldl_append]
  rfl

lemma standingOf_snoc (calls : List Call) (call : Call) (urn : UrnText) :
    standingOf (calls ++ [call]) urn = standing urn (standingOf calls urn) call := by
  rw [standingOf,foldl_append]
  rfl

lemma standing_spec (calls : List Call) (urn : UrnText) :
    (standingOf calls urn = .untouched → entries calls urn = 0 ∧ closedSince calls urn = false) ∧
    (standingOf calls urn = .held → 1 ≤ entries calls urn) ∧
    (standingOf calls urn = .closed → closedSince calls urn = true) := by
  induction calls using reverseRecOn with
  | nil => exact ⟨fun _ => ⟨rfl,rfl⟩,fun h => (by cases h),fun h => (by cases h)⟩
  | append_singleton calls call ih =>
    rw [standingOf_snoc,entries_snoc,closedSince_snoc]
    cases call with
    | own _ => exact ih
    | manage obj | cacheReturn obj =>
      by_cases hu : obj.urn = urn
      · simp [standing,counted,hu]
      · simpa only [standing,counted,closing,if_neg hu] using ih
    | close obj =>
      by_cases hu : obj.urn = urn
      · simp [standing,closing,hu]
      · simpa only [standing,counted,closing,if_neg hu] using ih

def Tidy (calls : List Call) : Prop :=
  ∀ urn, entries calls urn ≤ 1 ∧ (closedSince calls urn = true → entries calls urn = 0)

/-- An object is managed while there is no entry for its URN, and returned only if nothing was
done with its URN before. -/
def Allowed (calls : List Call) : Call → Prop
  | .manage obj => standingOf calls obj.urn ≠ .held
  | .cacheReturn obj => standingOf calls obj.urn = .untouched
  | _ => True

variable {urn : UrnText}

lemma Tidy.entries_eq_zero (h : Tidy calls) :
    entries calls urn = 0 ↔ standingOf calls urn ≠ .held := by
  obtain ⟨hu,hh,hc⟩ := standing_spec calls urn
  constructor
  · intro hz hs
    have := hh hs
    omega
  · intro hne
    cases hs : standingOf calls urn with
    | untouched => exact (hu hs).1
    | held => exact absurd hs hne
    | closed => exact (h urn).2 (hc hs)

lemma Tidy.untouched_iff (h : Tidy calls) :
    standingOf calls urn = .untouched ↔ entries calls urn = 0 ∧ closedSince calls urn = false := by
  obtain ⟨hu,-,hc⟩ := standing_spec calls urn
  refine ⟨hu,fun ⟨hz,ho⟩ => ?_⟩
  cases hs : standingOf calls urn with
  | untouched => rfl
  | held => exact absurd hs (h.entries_eq_zero.mp hz)
  | closed =>
    rw [hc hs] at ho
    cases ho

lemma Tidy.snoc_of (h : Tidy calls) (call : Call) (urn₀ : UrnText)
    (ho : ∀ urn, urn₀ ≠ urn → (∀ n, counted urn n call = n) ∧ ∀ c, closing urn c call = c) :
    Tidy (calls ++ [call]) ↔ counted urn₀ (entries calls urn₀) call ≤ 1 ∧
      (closing urn₀ (closedSince calls urn₀) call = true →
        counted urn₀ (entries calls urn₀) call = 0) := by
  rw [← entries_snoc,← closedSince_snoc]
  refine ⟨fun ht => ht urn₀,fun ht urn => ?_⟩
  by_cases hu : urn₀ = urn
  · exact hu ▸ ht
  · rw [entries_snoc,closedSince_snoc,(ho urn hu).1,(ho urn hu).2]
    exact h urn

lemma Tidy.snoc_iff (h : Tidy calls) (call : Call) :
    Tidy (calls ++ [call]) ↔ Allowed calls call := by
  cases call with
  | own urn =>
    rw [h.snoc_of _ urn fun _ _ => ⟨fun _ => rfl,fun _ => rfl⟩]
    exact iff_of_true (h urn) trivial
  | manage obj =>
    rw [h.snoc_of (.manage obj) obj.urn fun urn hne => ⟨fun _ => if_neg hne,fun _ => if_neg hne⟩,
      Allowed,← h.entries_eq_zero]
    simp [counted,closing]
  | cacheReturn obj =>
    rw [h.snoc_of (.cacheReturn obj) obj.urn fun urn hne => ⟨fun _ => if_neg hne,fun _ => rfl⟩,
      Allowed,h.untouched_iff]
    simp [counted,closing]
  | close obj =>
    rw [h.snoc_of (.close obj) obj.urn fun urn hne => ⟨fun _ => if_neg hne,fun _ => if_neg hne⟩]
    have hle := (h obj.urn).1
    have hz : entries calls obj.urn-1 = 0 := by omega
    simp [counted,Allowed,hz]

/-- What the cache should be like at every point: at most one entry for each URN, and `own` gives
NULL after a close until another object is managed. -/
def Disciplined (calls : List Call) : Prop :=
  ∀ front, front <+: calls → ∃ cache, run step con front = some cache ∧
    ∀ urn, cache.count urn ≤ 1 ∧ (closedSince front urn = true → cache.own urn = some none)

lemma Holds.tidy_iff {cache : WriteCache} (h : cache.Holds (entries calls)) :
    (∀ urn, cache.count urn ≤ 1 ∧ (closedSince calls urn = true → cache.own urn = some none)) ↔
      Tidy calls := by
  refine forall_congr' fun urn => ?_
  obtain ⟨result,ho,hn⟩ := h.own urn
  rw [h.count,ho,Option.some.injEq,hn]

lemma disciplined_iff_tidy (calls : List Call) :
    Disciplined calls ↔ ∀ front, front <+: calls → Tidy front := by
  refine forall₂_congr fun front _ => ?_
  obtain ⟨cache,hr,hh⟩ := run_holds front
  rw [← hh.tidy_iff]
  constructor
  · rintro ⟨cache',hr',h⟩
    obtain rfl := Option.some.inj (hr.symm.trans hr')
    exact h
  · exact fun h => ⟨cache,hr,h⟩

lemma tidy_nil : Tidy [] := fun _ => ⟨Nat.zero_le _,fun _ => rfl⟩

/-- `own` leaves its entry in the cache and `cache_return` adds another one, so the cache is as it
should be only while objects are not returned. -/
theorem disciplined_iff (calls : List Call) :
    Disciplined calls ↔ ∀ front call, front ++ [call] <+: calls → Allowed front call := by
  rw [disciplined_iff_tidy]
  constructor
  · intro h front call hf
    exact ((h front ((prefix_append _ _).trans hf)).snoc_iff call).mp (h _ hf)
  · intro h front hf
    induction front using reverseRecOn with
    | nil => exact tidy_nil
    | append_singleton front call ih =>
      exact ((ih ((prefix_append _ _).trans hf)).snoc_iff call).mpr (h front call hf)

def fileUrn : UrnText := ⟨[118],by decide⟩

def fileObject : AFFObject := ⟨0,fileUrn⟩

/-- An object is in use and returned. -/
theorem returned_object_stays : ∃ cache,
    run step con [.manage fileObject,.own fileUrn,.cacheReturn fileObject] = some cache ∧
      cache.count fileUrn = 2 ∧
      (cache.close fileObject).bind (fun cache => cache.own fileUrn) = some (some fileObject) := by
  have hc : (run step con [.manage fileObject,.own fileUrn,.cacheReturn fileObject]).map
      (fun cache => (cache.count fileUrn,
        (cache.close fileObject).bind fun cache => cache.own fileUrn)) =
      some (2,some (some fileObject)) := by decide +kernel
  obtain ⟨cache,hr,heq⟩ := Option.map_eq_some_iff.mp hc
  obtain ⟨hcn,ho⟩ := Prod.mk.inj heq
  exact ⟨cache,hr,hcn,ho⟩

end WriteCache

end Aff4
