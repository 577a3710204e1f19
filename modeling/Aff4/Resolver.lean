import Aff4.DataStore

/-! `Resolver_resolve` of resolver.c: the values stored for a pair are decoded and
chained through the intrusive list of list.h. -/

namespace Aff4

open LittleEndian List Option Multimap DataStore

/-- The bytes of a string that `XSDString_set` was able to copy with its NUL. -/
structure XSDString where
  value : Bytes
  fits : value.length + 1 < maxTallocSize

inductive RDFValue where
  | string (s : XSDString)
  | integer (value : UInt64)

structure DataStoreObject where
  data : Bytes
  rdfType : Bytes
  deriving DecidableEq, Repr

def datatypeXsdInteger : Bytes :=
  chars ['h','t','t','p',':','/','/','w','w','w','.','w','3','.','o','r','g','/','2','0','0','1',
    '/','X','M','L','S','c','h','e','m','a','#','i','n','t','e','g','e','r']

/-- The registered classes. Of the others only the data type matters here. -/
inductive RDFClass where
  | xsdInteger
  | xsdString
  | other (dataType : Bytes)
  deriving DecidableEq, Repr

def RDFClass.dataType : RDFClass → Bytes
  | xsdInteger => datatypeXsdInteger
  | xsdString => []
  | other dataType => dataType

def RDFValue.encode : RDFValue → DataStoreObject
  | string s => ⟨s.value,RDFClass.xsdString.dataType⟩
  | integer value => ⟨leBytes 8 value.toNat,RDFClass.xsdInteger.dataType⟩

/-- `XSDString_decode` writes into a NULL buffer when the string is too long. -/
def RDFClass.decode (obj : DataStoreObject) : RDFClass → Option RDFValue
  | xsdString =>
      if h : obj.data.length + 1 < maxTallocSize then some (.string ⟨obj.data,h⟩) else none
  | xsdInteger => some (.integer (if obj.data.length = 8 then UInt64.ofNat (leNat obj.data) else 0))
  | other _ => none

def RDFValue.cls : RDFValue → RDFClass
  | string _ => .xsdString
  | integer _ => .xsdInteger

lemma RDFValue.encode_rdfType (v : RDFValue) : v.encode.rdfType = v.cls.dataType := by
  cases v <;> rfl

lemma RDFValue.decode_encode (v : RDFValue) : v.cls.decode v.encode = some v := by
  cases v with
  | string s => simp [cls,RDFClass.decode,encode,s.fits]
  | integer value =>
    simp [cls,RDFClass.decode,encode,leNat_leBytes]

def registerRdfValueClass (registry : Cache RDFClass) (c : RDFClass) : Option (Cache RDFClass) :=
  (registry.present (zstring c.dataType)).bind fun found =>
    if found then some registry else (registry.put (zstring c.dataType) c).map Prod.snd

def rdfRegistry (others : List RDFClass) : Option (Cache RDFClass) :=
  (RDFClass.xsdInteger :: .xsdString :: others).foldlM registerRdfValueClass (.con 100 0)

/-- The values made by `resolve`, each at the address that is its index, with
their `list_head`s, in which there may be NULL. -/
structure Heap (V : Type) where
  values : List V
  next : Nat → Option Nat
  prev : Nat → Option Nat

namespace Heap

variable {V : Type}

def empty : Heap V := ⟨[],fun _ => none,fun _ => none⟩

/-- A new value is a list of its own if the constructor of its class initialises the list. -/
def new (h : Heap V) (v : V) (listed : Bool) : Heap V :=
  let link := if listed then some h.values.length else none
  ⟨h.values ++ [v],Function.update h.next h.values.length link,
    Function.update h.prev h.values.length link⟩

/-- `__list_add`, in the order of its assignments. The last one goes through `prev`. -/
def listAdd (h : Heap V) (new : Nat) (prev : Option Nat) (next : Nat) : Option (Heap V) :=
  let h := {h with prev := Function.update h.prev next (some new)}
  let h := {h with next := Function.update h.next new (some next)}
  let h := {h with prev := Function.update h.prev new prev}
  prev.map fun prev => {h with next := Function.update h.next prev (some new)}

def listAddTail (h : Heap V) (new head : Nat) : Option (Heap V) := h.listAdd new (h.prev head) head

def follow (h : Heap V) (start : Nat) : Nat → Nat → Option (List Nat)
  | 0, _ => none
  | fuel+1, at_ =>
      if at_ = start then some []
      else (h.next at_).bind fun next => (h.follow start fuel next).map fun l => at_ :: l

/-- The entries of the circular list behind a value. They cannot be more than the heap has. -/
def behind (h : Heap V) (start : Nat) : Option (List Nat) :=
  (h.next start).bind (h.follow start (h.values.length+1))

def chain (h : Heap V) (start : Nat) : Option (List Nat) := (h.behind start).map fun l => start :: l

def chained (h : Heap V) (start : Nat) : Option (List V) :=
  (h.chain start).bind fun l => l.mapM fun a => h.values[a]?

end Heap

namespace Resolver

abbrev Store := MemoryDataStore DataStoreObject

def set (store : Store) (uri attr : Bytes) (v : RDFValue) : Option Store :=
  store.set uri attr v.encode

def add (store : Store) (uri attr : Bytes) (v : RDFValue) : Option Store :=
  store.add uri attr v.encode

def storeAll (store : Store) (uri attr : Bytes) (v : RDFValue) (vs : List RDFValue) :
    Option Store :=
  (set store uri attr v).bind fun store => vs.foldlM (fun s v => add s uri attr v) store

section

variable {V : Type}

def chainItem (listed : V → Bool) (r : Heap V × Option Nat) (v : V) :
    Option (Heap V × Option Nat) :=
  let item := r.1.values.length
  let heap := r.1.new v (listed v)
  match r.2 with
  | some result => (heap.listAddTail result item).map fun heap => (heap,some result)
  | none => some (heap,some item)

/-- The value of a stored object. Without a class the NULL item is used. -/
def decodeObject (decode : DataStoreObject → RDFClass → Option V) (registry : Cache RDFClass)
    (obj : DataStoreObject) : Option V :=
  (registry.borrow (zstring obj.rdfType)).bind fun rdfValueClass =>
    rdfValueClass.bind fun rdfValueClass => decode obj rdfValueClass

def resolveLoop (decode : DataStoreObject → RDFClass → Option V) (listed : V → Bool)
    (registry : Cache RDFClass) :
    Nat → Store → Option Nat → Heap V × Option Nat → Option ((Heap V × Option Nat) × Store)
  | 0, _, _, _ => none
  | _+1, store, none, result => some (result,store)
  | fuel+1, store, some iter, result =>
      (store.next (some iter)).bind fun ((obj,iter),store) =>
        obj.bind fun obj =>
          (decodeObject decode registry obj).bind fun v =>
            (chainItem listed result v).bind fun result =>
              resolveLoop decode listed registry fuel store iter result

/-- `Resolver_resolve` for classes that decode their objects by `decode`, and the
store it leaves. -/
def resolveWith (decode : DataStoreObject → RDFClass → Option V) (listed : V → Bool)
    (registry : Cache RDFClass) (store : Store) (uri attr : Bytes) :
    Option ((Heap V × Option Nat) × Store) :=
  (store.iter uri attr).bind fun (iter,store) =>
    resolveLoop decode listed registry (store.dataDb.cacheList.length+1) store iter (.empty,none)

end

/-- The constructors of these classes initialise the list. -/
def resolve (registry : Cache RDFClass) (store : Store) (uri attr : Bytes) :
    Option (Heap RDFValue × Option Nat) :=
  (resolveWith RDFClass.decode (fun _ => true) registry store uri attr).map Prod.fst

variable {m : Multimap Bytes RDFClass}

lemma register_cases {registry t : Cache RDFClass} {c : RDFClass} (hr : registry.Refines 100 0 m)
    (h : registerRdfValueClass registry c = some t) :
    ((m.oldest (zstring c.dataType)).isSome ∧ t = registry) ∨
      (m.oldest (zstring c.dataType) = none ∧ t.Refines 100 0 (m.add (zstring c.dataType) c)) := by
  by_cases hu : Cache.Uncopied (zstring c.dataType)
      (Cache.bucket 100 m.items (cacheHash 100 (zstring c.dataType)))
  · simp [registerRdfValueClass,Cache.present,Cache.find_uncopied hr hu] at h
  · rw [registerRdfValueClass,Cache.present_refines hr hu,bind_some] at h
    cases ho : m.oldest (zstring c.dataType) with
    | none =>
      obtain ⟨u,hp,hru⟩ := Cache.put_refines hr (by omega) (zstring c.dataType) c
      rw [put_unbounded] at hru
      rw [ho,hp] at h
      exact .inr ⟨rfl,some.inj h ▸ hru⟩
    | some i =>
      rw [ho] at h
      exact .inl ⟨rfl,(some.inj h).symm⟩

lemma register_keeps {registry t : Cache RDFClass} {c : RDFClass} (hr : registry.Refines 100 0 m)
    (h : registerRdfValueClass registry c = some t) :
    ∃ m', t.Refines 100 0 m' ∧ ∀ key i, m.oldest key = some i → m'.oldest key = some i := by
  obtain ⟨_,rfl⟩ | ⟨_,hrt⟩ := register_cases hr h
  · exact ⟨m,hr,fun _ _ hi => hi⟩
  · exact ⟨_,hrt,fun _ _ hi => oldest_add_of_some hi _ _⟩

lemma foldlM_register_keeps {cs : List RDFClass} {registry t : Cache RDFClass}
    (hr : registry.Refines 100 0 m) (h : cs.foldlM registerRdfValueClass registry = some t) :
    ∃ m', t.Refines 100 0 m' ∧ ∀ key i, m.oldest key = some i → m'.oldest key = some i := by
  induction cs generalizing registry m with
  | nil => exact ⟨m,some.inj h ▸ hr,fun _ _ hi => hi⟩
  | cons c cs ih =>
    simp only [foldlM_cons,bind_eq_bind,bind_eq_some_iff] at h
    obtain ⟨u,hu,hrs⟩ := h
    obtain ⟨m₁,hr₁,hk₁⟩ := register_keeps hr hu
    obtain ⟨m₂,hr₂,hk₂⟩ := ih hr₁ hrs
    exact ⟨m₂,hr₂,fun key i hi => hk₂ key i (hk₁ key i hi)⟩

variable {registry : Cache RDFClass} {others : List RDFClass}

lemma registry_knows (h : rdfRegistry others = some registry) : ∃ m, registry.Refines 100 0 m ∧
      (∃ i, m.oldest (zstring RDFClass.xsdInteger.dataType) = some i ∧ i.value = .xsdInteger) ∧
      ∃ i, m.oldest (zstring RDFClass.xsdString.dataType) = some i ∧ i.value = .xsdString := by
  simp only [rdfRegistry,foldlM_cons,bind_eq_bind,bind_eq_some_iff] at h
  obtain ⟨u,hu,v,hv,hrs⟩ := h
  obtain ⟨hs,_⟩ | ⟨hn,hru⟩ := register_cases (Cache.con_refines 100 0) hu
  · simp [oldest,empty] at hs
  have hint := oldest_add_self hn RDFClass.xsdInteger
  have hne : ¬ zstring RDFClass.xsdInteger.dataType = zstring RDFClass.xsdString.dataType := by
    decide
  obtain ⟨hs,_⟩ | ⟨hn',hrv⟩ := register_cases hru hv
  · simp [oldest,empty,Multimap.add,hne] at hs
  obtain ⟨m,hr,hk⟩ := foldlM_register_keeps hrv hrs
  exact ⟨m,hr,⟨_,hk _ _ (oldest_add_of_some hint _ _),rfl⟩,⟨_,hk _ _ (oldest_add_self hn' _),rfl⟩⟩

lemma registry_borrow (h : rdfRegistry others = some registry) (v : RDFValue) :
    registry.borrow (zstring v.encode.rdfType) = some (some v.cls) := by
  obtain ⟨m,hr,⟨i,hi,hiv⟩,⟨j,hj,hjv⟩⟩ := registry_knows h
  have hs : ∀ l : List (Item Bytes RDFClass),
      ¬ Cache.Uncopied (zstring v.encode.rdfType) l := by
    rintro l ⟨hl,_⟩
    cases v <;> simp [RDFValue.encode,RDFClass.dataType,datatypeXsdInteger,chars,
      maxTallocSize] at hl
  rw [Cache.borrow_refines hr (hs _),v.encode_rdfType]
  cases v with
  | string s => simp [RDFValue.cls,hj,hjv]
  | integer value => simp [RDFValue.cls,hi,hiv]

variable {a : DataStore.PairStore DataStoreObject} {data : Multimap Bytes DataStoreObject}
  {urns attrs : Multimap Bytes Nat} {store : Store}

lemma resolveLoop_spec {V : Type} (decode : DataStoreObject → RDFClass → Option V)
    (listed : V → Bool) (registry : Cache RDFClass) (fuel : Nat)
    (h : DataStore.Holds store a urns attrs data)
    {c : Option Nat} {objs : List DataStoreObject} (hc : data.rest c = some objs)
    (hf : objs.length < fuel) (result : Heap V × Option Nat) :
    ∃ t data', DataStore.Holds t a urns attrs data' ∧
      resolveLoop decode listed registry fuel store c result =
        ((objs.mapM (decodeObject decode registry)).bind fun vs =>
          vs.foldlM (chainItem listed) result).map fun r => (r,t) := by
  induction objs generalizing fuel store data c result with
  | nil =>
    cases fuel with
    | zero => simp at hf
    | succ fuel =>
      cases c with
      | none => exact ⟨store,data,h,rfl⟩
      | some id =>
        simp only [rest,Option.map_eq_some_iff] at hc
        obtain ⟨i,_,hi⟩ := hc
        cases hi
  | cons obj objs ih =>
    cases fuel with
    | zero => simp at hf
    | succ fuel =>
      cases c with
      | none => cases hc
      | some id =>
        obtain ⟨c',t,data',hn,_,hr,h'⟩ := next_spec h hc
        simp only [List.head?_cons] at hn
        rw [resolveLoop,hn]
        cases hv : decodeObject decode registry obj with
        | none => exact ⟨t,data',h',by simp [hv]⟩
        | some v =>
          cases hitm : chainItem listed result v with
          | none =>
            refine ⟨t,data',h',?_⟩
            cases ho : objs.mapM (decodeObject decode registry) with
            | none => simp [hv,hitm,ho]
            | some vs => simp [hv,hitm,ho]
          | some next =>
            obtain ⟨u,data₂,hu,hl⟩ := ih fuel h' hr (by simp at hf; omega) next
            refine ⟨u,data₂,hu,?_⟩
            simp only [Option.bind_some,hv,hitm,hl,List.mapM_cons,Option.bind_eq_bind,
              Option.pure_def]
            cases objs.mapM (decodeObject decode registry) with
            | none => rfl
            | some vs => simp [hitm]

variable {uri attr : Bytes}

lemma resolveWith_spec {V : Type} (decode : DataStoreObject → RDFClass → Option V)
    (listed : V → Bool) (registry : Cache RDFClass) (h : DataStore.Holds store a urns attrs data)
    (hok : ¬ DataStore.Unindexable a uri attr) :
    ∃ t urns' attrs' data', DataStore.Holds t (a.named uri attr) urns' attrs' data' ∧
      resolveWith decode listed registry store uri attr =
        (((a.values uri attr).mapM (decodeObject decode registry)).bind fun vs =>
          vs.foldlM (chainItem listed) (.empty,none)).map fun r => (r,t) := by
  obtain ⟨c,t,urns',attrs',hi,_,hr,h'⟩ := iter_spec h hok
  have hln : (a.values uri attr).length < t.dataDb.cacheList.length+1 := by
    have hle := rest_length_le hr
    rw [h'.dataDb.recency,length_map]
    omega
  obtain ⟨u,data',hu,hl⟩ := resolveLoop_spec decode listed registry _ h' hr hln (.empty,none)
  refine ⟨u,urns',attrs',data',hu,?_⟩
  rw [resolveWith,hi,bind_some]
  exact hl

variable (hrg : rdfRegistry others = some registry)

include hrg in
lemma decode_encoded (vs : List RDFValue) :
    (vs.map RDFValue.encode).mapM (decodeObject RDFClass.decode registry) = some vs := by
  induction vs with
  | nil => rfl
  | cons v vs ih =>
    have hv : decodeObject RDFClass.decode registry v.encode = some v := by
      simp [decodeObject,registry_borrow hrg,v.decode_encode]
    simp [hv,ih]

include hrg in
lemma resolve_eq (h : DataStore.Holds store a urns attrs data)
    (hok : ¬ DataStore.Unindexable a uri attr) {vs : List RDFValue}
    (hvs : a.values uri attr = vs.map RDFValue.encode) : resolve registry store uri attr =
      vs.foldlM (chainItem fun _ => true) (.empty,none) := by
  obtain ⟨t,_,_,_,_,hr⟩ := resolveWith_spec RDFClass.decode (fun _ => true) registry h hok
  rw [resolve,hr,hvs,decode_encoded hrg,bind_some,Option.map_map]
  exact Option.map_id'

/-- What the calls of `list_add_tail` leave behind: the first value and the last
one point to each other. -/
structure Chained {V : Type} (listed : V → Bool) (heap : Heap V) (v : V) (vs : List V) : Prop where
  values : heap.values = v :: vs
  ring : listed v = true ∨ vs ≠ [] → heap.next 0 = some vs.length ∧ heap.next vs.length = some 0
  alone : listed v = false → vs = [] → heap.next 0 = none

section

variable {V : Type} {listed : V → Bool} {heap : Heap V} {v : V} {vs : List V}
  (h : Chained listed heap v vs)

include h

lemma chainItem_chained {w : V} (hw : listed w = true) : ∃ heap',
    chainItem listed (heap,some 0) w = some (heap',some 0) ∧
      Chained listed heap' v (vs ++ [w]) := by
  have hl : heap.values.length = vs.length+1 := by simp [h.values]
  refine ⟨_,by simp [chainItem,Heap.listAddTail,Heap.listAdd,Heap.new,hw]; rfl,?_,fun _ => ?_,?_⟩
  · simp [h.values]
  · simp [hl]
  · simp

lemma foldlM_chained {ws : List V} (hws : ws.all listed = true) :
    ∃ heap', ws.foldlM (chainItem listed) (heap,some 0) = some (heap',some 0) ∧
      Chained listed heap' v (vs ++ ws) := by
  induction ws generalizing heap vs with
  | nil => exact ⟨heap,rfl,by simpa using h⟩
  | cons w ws ih =>
    rw [all_cons,Bool.and_eq_true] at hws
    obtain ⟨mid,hm,hc⟩ := chainItem_chained h hws.1
    obtain ⟨heap',hf,hc'⟩ := ih hc hws.2
    exact ⟨heap',by rw [foldlM_cons,hm]; exact hf,by simpa using hc'⟩

lemma foldlM_unlisted {ws : List V} (hws : ws.all listed = false) :
    ws.foldlM (chainItem listed) (heap,some 0) = none := by
  induction ws generalizing heap vs with
  | nil => simp at hws
  | cons w ws ih =>
    cases hw : listed w with
    | false => simp [chainItem,Heap.listAddTail,Heap.listAdd,Heap.new,hw]
    | true =>
      obtain ⟨mid,hm,hc⟩ := chainItem_chained h hw
      rw [foldlM_cons,hm]
      exact ih hc (by simpa [hw] using hws)

lemma behind_eq : heap.behind 0 =
    if vs ≠ [] then some [vs.length] else if listed v then some [] else none := by
  have hln : heap.values.length = vs.length+1 := by simp [h.values]
  split
  · next hne =>
    obtain ⟨hf,hl⟩ := h.ring (.inr hne)
    simp [Heap.behind,Heap.follow,hln,hf,hl,hne]
  · next hn =>
    obtain rfl := not_not.mp hn
    cases hv : listed v with
    | true =>
      have hf : heap.next 0 = some 0 := (h.ring (.inl hv)).1
      simp [Heap.behind,Heap.follow,hf]
    | false => simp [Heap.behind,h.alone hv rfl]

lemma chained_eq (hv : listed v = true) : heap.chained 0 = some (v :: vs.getLast?.toList) := by
  have hf : heap.values[0]? = some v := by simp [h.values]
  rw [Heap.chained,Heap.chain,behind_eq h,hv]
  cases hvs : vs.getLast? with
  | none =>
    obtain rfl : vs = [] := getLast?_eq_none_iff.mp hvs
    simp [hf]
  | some w =>
    have hne : vs ≠ [] := by
      rintro rfl
      simp at hvs
    have hw : heap.values[vs.length]? = some w := by
      rw [h.values,← hvs,getLast?_eq_getElem?]
      cases vs with
      | nil => simp at hne
      | cons u us => rfl
    simp [hne,hf,hw]

end

lemma new_chained {V : Type} (listed : V → Bool) (v : V) :
    Chained listed (Heap.empty.new v (listed v)) v [] :=
  ⟨rfl,fun hv => by simp_all [Heap.new,Heap.empty],fun hv _ => by simp [Heap.new,Heap.empty,hv]⟩

structure Fits (a : DataStore.PairStore DataStoreObject) (uri attr : Bytes) : Prop where
  uriShort : uri.length < maxTallocSize
  attrShort : attr.length < maxTallocSize
  numbers : (a.named uri attr).urns.length + (a.named uri attr).attributes.length < 2^31

lemma Fits.indexable (h : Fits a uri attr) : ¬ DataStore.Unindexable a uri attr := by
  rintro (hu | hu | hu)
  · exact absurd hu.1 (Nat.not_le.mpr h.uriShort)
  · exact absurd hu.1 (Nat.not_le.mpr h.attrShort)
  · exact absurd hu (Nat.not_le.mpr h.numbers)

lemma note_note (names : List Bytes) (name : Bytes) :
    DataStore.PairStore.note (DataStore.PairStore.note names name) name =
      DataStore.PairStore.note names name :=
  if_pos (mem_note_self names name)

lemma Fits.update
    (h : Fits a uri attr) (l : List DataStoreObject) : Fits (a.update uri attr l) uri attr where
  uriShort := h.uriShort
  attrShort := h.attrShort
  numbers := by
    have hn := h.numbers
    simp only [DataStore.PairStore.named,DataStore.PairStore.update,note_note] at hn ⊢
    exact hn

lemma update_values (a : DataStore.PairStore DataStoreObject) (uri attr : Bytes)
    (l : List DataStoreObject) : (a.update uri attr l).values uri attr = l := by
  simp [DataStore.PairStore.update]

lemma addAll_spec (vs : List RDFValue)
    (h : DataStore.Holds store a urns attrs data) (hf : Fits a uri attr) :
    ∃ t b urns' attrs' data', vs.foldlM (fun s v => add s uri attr v) store = some t ∧
      DataStore.Holds t b urns' attrs' data' ∧ Fits b uri attr ∧
      b.values uri attr = a.values uri attr ++ vs.map RDFValue.encode := by
  induction vs generalizing store a urns attrs data with
  | nil => exact ⟨store,a,urns,attrs,data,rfl,h,hf,by simp⟩
  | cons v vs ih =>
    obtain ⟨t,urns₁,attrs₁,data₁,ht,h₁⟩ := add_spec h hf.indexable v.encode
    obtain ⟨u,b,urns₂,attrs₂,data₂,hu,h₂,hf₂,hv⟩ := ih h₁ (hf.update _)
    refine ⟨u,b,urns₂,attrs₂,data₂,?_,h₂,hf₂,?_⟩
    · rw [foldlM_cons,add,ht]
      exact hu
    · rw [hv,update_values]
      simp

include hrg in
lemma resolve_storeAll (h : DataStore.Holds store a urns attrs data) (hft : Fits a uri attr)
    (v : RDFValue) (vs : List RDFValue) : ∃ t heap, storeAll store uri attr v vs = some t ∧
      resolve registry t uri attr = some (heap,some 0) ∧
      heap.chained 0 = some (v :: vs.getLast?.toList) := by
  obtain ⟨t,urns₁,attrs₁,data₁,ht,h₁⟩ := set_spec h hft.indexable v.encode
  obtain ⟨u,b,urns₂,attrs₂,data₂,hu,h₂,hft₂,hv⟩ := addAll_spec vs h₁ (hft.update _)
  rw [update_values] at hv
  have hr := resolve_eq hrg h₂ hft₂.indexable
    (show b.values uri attr = (v :: vs).map RDFValue.encode by simpa using hv)
  obtain ⟨heap,hf,hc⟩ := foldlM_chained (new_chained (fun _ => true) v)
    (by simp : vs.all (fun _ => true) = true)
  exact ⟨u,heap,by simp [storeAll,set,ht,hu],hr.trans hf,chained_eq hc rfl⟩

lemma fits_of_resolve {store t : Store} (h : DataStore.Holds store a urns attrs data)
    {v : RDFValue} {vs : List RDFValue} {r : Heap RDFValue × Option Nat}
    (ht : storeAll store uri attr v vs = some t) (hr : resolve registry t uri attr = some r) :
    Fits a uri attr := by
  by_cases hi : DataStore.Unindexable a uri attr
  · simp [storeAll,set,MemoryDataStore.set,index_fails h hi] at ht
  have hn : (a.named uri attr).urns.length+(a.named uri attr).attributes.length < 2^31 :=
    Nat.not_le.mp fun hfu => hi (.inr (.inr hfu))
  by_contra hft
  have hl : maxTallocSize ≤ uri.length ∨ maxTallocSize ≤ attr.length := by
    by_contra hs
    simp only [not_or,not_le] at hs
    exact hft ⟨hs.1,hs.2,hn⟩
  obtain ⟨u,urns₁,attrs₁,data₁,hu,h₁⟩ := set_spec h hi v.encode
  have hf := index_fails h₁ (unindexable_of_long _ hl)
  simp only [storeAll,set,hu,bind_some] at ht
  cases vs with
  | nil =>
    obtain rfl : u = t := some.inj ht
    simp [resolve,resolveWith,MemoryDataStore.iter,hf] at hr
  | cons w ws => simp [add,MemoryDataStore.add,hf] at ht

lemma eq_getLast_iff (vs : List RDFValue) : vs.getLast?.toList = vs ↔ vs.length ≤ 1 := by
  match vs with
  | [] => simp
  | [w] => simp
  | u :: w :: ws =>
    refine ⟨fun h => ?_,fun h => by simp at h⟩
    have hln := congrArg length h
    cases hl : (u :: w :: ws).getLast? with
    | none => simp [hl] at hln
    | some x => simp [hl] at hln

/-- After any calls that the store survives, `resolve` gives all stored values in
their order exactly when there are at most two of them and the names fit. -/
theorem resolve_complete_iff {others : List RDFClass} {registry : Cache RDFClass}
    (hrg : rdfRegistry others = some registry) {ops : List (DataStore.Op DataStoreObject)}
    {outs outs' : List (DataStore.Out DataStoreObject)}
    {a : DataStore.PairStore DataStoreObject} {s : DataStore.Session DataStoreObject}
    (hs : Transition.trace DataStore.PairStore.step .empty ops = some (outs,a))
    (hrn : Transition.trace DataStore.Session.step .con ops = some (outs',s))
    (uri attr : Bytes) (v : RDFValue) (vs : List RDFValue) :
    (∃ t heap r, storeAll s.store uri attr v vs = some t ∧
      resolve registry t uri attr = some (heap,some r) ∧ heap.chained r = some (v :: vs)) ↔
      (v :: vs).length ≤ 2 ∧ Fits a uri attr := by
  obtain ⟨urns,attrs,data,h,_⟩ := Transition.trace_related step_shows
    step_faults con_shows hs hrn
  have hln : (v :: vs).length ≤ 2 ↔ vs.getLast?.toList = vs := by
    rw [eq_getLast_iff,length_cons]
    omega
  rw [hln]
  constructor
  · rintro ⟨t,heap,r,ht,hr,hc⟩
    have hf := fits_of_resolve h ht hr
    obtain ⟨t',heap',ht',hr',hc'⟩ := resolve_storeAll hrg h hf v vs
    obtain rfl : t = t' := some.inj (ht.symm.trans ht')
    simp only [hr,some.injEq,Prod.mk.injEq] at hr'
    obtain ⟨rfl,rfl⟩ := hr'
    rw [hc,some.injEq,cons.injEq] at hc'
    exact ⟨hc'.2.symm,hf⟩
  · rintro ⟨hl,hf⟩
    obtain ⟨t,heap,ht,hr,hc⟩ := resolve_storeAll hrg h hf v vs
    exact ⟨t,heap,0,ht,hr,hl ▸ hc⟩

lemma rdfRegistry_defined : ∃ registry, rdfRegistry [] = some registry :=
  isSome_iff_exists.mp (by decide +kernel)

lemma fits_empty : Fits .empty [117] [97] := ⟨by decide,by decide,by decide⟩

theorem resolve_two_integers :
    ∃ registry t heap r, rdfRegistry [] = some registry ∧
      storeAll .con [117] [97] (.integer 1) [.integer 2] = some t ∧
      resolve registry t [117] [97] = some (heap,some r) ∧
      heap.chained r = some [.integer 1,.integer 2] := by
  obtain ⟨registry,hrg⟩ := rdfRegistry_defined
  obtain ⟨t,heap,r,h⟩ := (resolve_complete_iff hrg
    (show Transition.trace DataStore.PairStore.step .empty [] = some ([],.empty) from rfl)
    (show Transition.trace DataStore.Session.step .con [] = some ([],.con) from rfl) [117] [97]
    (.integer 1) [.integer 2]).mpr ⟨by decide,fits_empty⟩
  exact ⟨registry,t,heap,r,hrg,h⟩

theorem resolve_loses_value :
    ¬ ∀ registry, rdfRegistry [] = some registry →
      ∃ t heap r, storeAll .con [117] [97] (.integer 1) [.integer 2,.integer 3] = some t ∧
        resolve registry t [117] [97] = some (heap,some r) ∧
        heap.chained r = some [.integer 1,.integer 2,.integer 3] := by
  intro h
  obtain ⟨registry,hrg⟩ := rdfRegistry_defined
  obtain ⟨t,heap,r,ht,hr,hc⟩ := h registry hrg
  obtain ⟨t',heap',ht',hr',hc'⟩ := resolve_storeAll hrg con_holds fits_empty
    (.integer 1) [.integer 2,.integer 3]
  obtain rfl : t = t' := some.inj (ht.symm.trans ht')
  simp only [hr,some.injEq,Prod.mk.injEq] at hr'
  obtain ⟨rfl,rfl⟩ := hr'
  simp [hc] at hc'

end Resolver

end Aff4
