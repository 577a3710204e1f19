import Aff4.Cache

/-! The in-memory data store of data_store.c: three caches, two of which give
numbers to URIs and attributes and one that keeps the values of each pair. -/

namespace Aff4

open LittleEndian List Option Function Multimap Cache

structure MemoryDataStore (V : Type) where
  idCounter : Nat
  urnDb : Cache Nat
  attributeDb : Cache Nat
  dataDb : Cache V

/-- The number of a name, with the counter and the cache afterwards. The step from
`INT_MAX` has no result. -/
def getOrCreate (idCounter : Nat) (cache : Cache Nat) (key : Bytes) :
    Option (Nat × Nat × Cache Nat) :=
  (cache.borrow key).bind fun
    | some result => some (result,idCounter,cache)
    | none =>
        if idCounter + 1 < 2^31 then
          (cache.put key (idCounter+1)).map fun r => (idCounter+1,idCounter+1,r.2)
        else none

/-- The two numbers as the bytes of `uint64_t data_ptr[2]`. -/
def dataPtr (uriIndex attrIndex : Nat) : Bytes := leBytes 8 uriIndex ++ leBytes 8 attrIndex

namespace MemoryDataStore

variable {V : Type}

def con : MemoryDataStore V := ⟨0,.con 100 0,.con 100 0,.con 100 0⟩

def index (self : MemoryDataStore V) (uri attr : Bytes) : Option (Bytes × MemoryDataStore V) :=
  (getOrCreate self.idCounter self.urnDb uri).bind fun (uriIndex,counter,urnDb) =>
    (getOrCreate counter self.attributeDb attr).map fun (attrIndex,counter,attributeDb) =>
      (dataPtr uriIndex attrIndex,
        {self with idCounter := counter, urnDb := urnDb, attributeDb := attributeDb})

/-- The loop that removes all objects of a key. Every turn but the last removes
an entry, so `fuel` above their number is enough. -/
def purge : Nat → Cache V → Bytes → Option (Cache V)
  | 0, _, _ => none
  | fuel+1, cache, key => (cache.get key).bind fun
      | (none,cache) => some cache
      | (some _,cache) => purge fuel cache key

def del (self : MemoryDataStore V) (uri attr : Bytes) : Option (MemoryDataStore V) :=
  (self.index uri attr).bind fun (key,self) =>
    (purge (self.dataDb.cacheList.length+1) self.dataDb key).map fun dataDb =>
      {self with dataDb := dataDb}

def set (self : MemoryDataStore V) (uri attr : Bytes) (value : V) : Option (MemoryDataStore V) :=
  (self.index uri attr).bind fun (key,self) =>
    (purge (self.dataDb.cacheList.length+1) self.dataDb key).bind fun dataDb =>
      (dataDb.put key value).map fun r => {self with dataDb := r.2}

def add (self : MemoryDataStore V) (uri attr : Bytes) (value : V) : Option (MemoryDataStore V) :=
  (self.index uri attr).bind fun (key,self) =>
    (self.dataDb.put key value).map fun r => {self with dataDb := r.2}

def get (self : MemoryDataStore V) (uri attr : Bytes) : Option (Option V × MemoryDataStore V) :=
  (self.index uri attr).bind fun (key,self) =>
    (self.dataDb.borrow key).map fun value => (value,self)

def iter (self : MemoryDataStore V) (uri attr : Bytes) : Option (Option Nat × MemoryDataStore V) :=
  (self.index uri attr).bind fun (key,self) =>
    (self.dataDb.iter key).map fun iter => (iter,self)

def next (self : MemoryDataStore V) (iter : Option Nat) :
    Option ((Option V × Option Nat) × MemoryDataStore V) :=
  (self.dataDb.next iter).map fun r => (r.1,{self with dataDb := r.2})

end MemoryDataStore

namespace DataStore

inductive Op (V : Type) where
  | set (uri attr : Bytes) (value : V)
  | add (uri attr : Bytes) (value : V)
  | del (uri attr : Bytes)
  | get (uri attr : Bytes)
  | iter (x : Nat) (uri attr : Bytes)
  | next (x : Nat)
  deriving DecidableEq, Repr

/-- `started` says whether the iterator is not NULL. -/
inductive Out (V : Type) where
  | done
  | value (value : Option V)
  | started (more : Bool)
  deriving DecidableEq, Repr

variable {V : Type}

structure Session (V : Type) where
  store : MemoryDataStore V
  iters : Nat → Option Nat

def Session.con : Session V := ⟨.con,fun _ => none⟩

def Session.step (s : Session V) : Op V → Option (Out V × Session V)
  | .set uri attr value =>
      (s.store.set uri attr value).map fun t => (.done,{s with store := t})
  | .add uri attr value =>
      (s.store.add uri attr value).map fun t => (.done,{s with store := t})
  | .del uri attr => (s.store.del uri attr).map fun t => (.done,{s with store := t})
  | .get uri attr =>
      (s.store.get uri attr).map fun r => (.value r.1,{s with store := r.2})
  | .iter x uri attr =>
      (s.store.iter uri attr).map fun r =>
        (.started r.1.isSome,⟨r.2,update s.iters x r.1⟩)
  | .next x =>
      (s.store.next (s.iters x)).map fun r =>
        (.value r.1.1,⟨r.2,update s.iters x r.1.2⟩)

/-- What the store is for: an ordered list of values for each pair of names. A
cursor is what its iteration has still to give, and is lost by an update. `urns`
and `attributes` are the names that have been used so far. -/
structure PairStore (V : Type) where
  values : Bytes → Bytes → List V
  cursors : Nat → Option (List V)
  urns : List Bytes
  attributes : List Bytes

namespace PairStore

def empty : PairStore V := ⟨fun _ _ => [],fun _ => some [],[],[]⟩

def note (names : List Bytes) (name : Bytes) : List Bytes :=
  if name ∈ names then names else names ++ [name]

def named (a : PairStore V) (uri attr : Bytes) : PairStore V :=
  {a with urns := note a.urns uri, attributes := note a.attributes attr}

def update (a : PairStore V) (uri attr : Bytes) (l : List V) : PairStore V :=
  {a.named uri attr with
    values := Function.update a.values uri (Function.update (a.values uri) attr l)
    cursors := fun _ => none}

lemma update_values (a : PairStore V) (uri attr : Bytes) (l : List V) (u q : Bytes) :
    (a.update uri attr l).values u q = if u = uri ∧ q = attr then l else a.values u q := by
  by_cases hu : u = uri
  · subst hu
    by_cases hq : q = attr
    · subst hq
      simp [update]
    · simp [update,hq]
  · simp [update,hu]

def step (a : PairStore V) : Op V → Option (Out V × PairStore V)
  | .set uri attr value => some (.done,a.update uri attr [value])
  | .add uri attr value =>
      some (.done,a.update uri attr (a.values uri attr ++ [value]))
  | .del uri attr => some (.done,a.update uri attr [])
  | .get uri attr => some (.value (a.values uri attr).head?,a.named uri attr)
  | .iter x uri attr =>
      let l := a.values uri attr
      some (.started !l.isEmpty,
        {a.named uri attr with cursors := Function.update a.cursors x (some l)})
  | .next x =>
      (a.cursors x).map fun l =>
        (.value l.head?,{a with cursors := Function.update a.cursors x (some l.tail)})

end PairStore

/-- The multimap of a name cache: each known name once, each with its own number. -/
structure Dictionary (m : Multimap Bytes Nat) (names : List Bytes) (top : Nat) : Prop where
  keys : m.items.map Item.key = names
  nodup : names.Nodup
  ids : (m.items.map Item.value).Nodup
  le : ∀ i ∈ m.items, i.value ≤ top

/-- The name is too long for talloc to have copied it, and is compared with a
known name of the same length. -/
def Unreadable (names : List Bytes) (name : Bytes) : Prop :=
  maxTallocSize ≤ name.length ∧
    ∃ k ∈ names, cacheHash 100 k = cacheHash 100 name ∧ k.length = name.length

def fresh (names : List Bytes) (name : Bytes) : Nat := if name ∈ names then 0 else 1

lemma note_length (names : List Bytes) (name : Bytes) :
    (PairStore.note names name).length = names.length+fresh names name := by
  simp only [PairStore.note,fresh]
  split <;> simp

namespace Dictionary

variable {m : Multimap Bytes Nat} {names : List Bytes} {top : Nat}

variable (hd : Dictionary m names top)
include hd

lemma mono {top' : Nat} (h : top ≤ top') : Dictionary m names top' :=
  ⟨hd.keys,hd.nodup,hd.ids,fun i hi => (hd.le i hi).trans h⟩

variable {i j : Item Bytes Nat}

lemma mem_names (hi : i ∈ m.items) : i.key ∈ names := hd.keys ▸ mem_map_of_mem hi

lemma eq_of_key (hi : i ∈ m.items) (hj : j ∈ m.items) (h : i.key = j.key) : i = j :=
  inj_on_of_nodup_map (hd.keys ▸ hd.nodup) hi hj h

lemma eq_of_value (hi : i ∈ m.items) (hj : j ∈ m.items) (h : i.value = j.value) : i = j :=
  inj_on_of_nodup_map hd.ids hi hj h

lemma uncopied_iff (name : Bytes) :
    Cache.Uncopied name (bucket 100 m.items (cacheHash 100 name)) ↔ Unreadable names name := by
  rw [Unreadable,← hd.keys]
  simp only [Cache.Uncopied,bucket,List.mem_filter,beq_iff_eq,List.mem_map]
  constructor
  · rintro ⟨hl,i,⟨hi,hh⟩,hln⟩
    exact ⟨hl,i.key,⟨i,hi,rfl⟩,hh,hln⟩
  · rintro ⟨hl,_,⟨i,hi,rfl⟩,hh,hln⟩
    exact ⟨hl,i,⟨hi,hh⟩,hln⟩

lemma oldest_eq_none_iff (name : Bytes) : m.oldest name = none ↔ name ∉ names := by
  rw [← hd.keys]
  simp [oldest]

lemma add {name : Bytes} (hn : name ∉ names) :
    Dictionary (m.add name (top+1)) (names ++ [name]) (top+1) where
  keys := by simp [Multimap.add,hd.keys]
  nodup := by
    rw [nodup_append]
    refine ⟨hd.nodup,by simp,fun a ha b hb => ?_⟩
    rintro rfl
    exact hn (mem_singleton.mp hb ▸ ha)
  ids := by
    simp only [Multimap.add,map_append,map_cons,map_nil,nodup_append]
    refine ⟨hd.ids,by simp,fun a ha b hb => ?_⟩
    obtain ⟨i,hi,rfl⟩ := mem_map.mp ha
    have := hd.le i hi
    rw [mem_singleton] at hb
    omega
  le i hi := by
    rcases mem_append.mp hi with hi | hi
    · have := hd.le i hi
      omega
    · rw [mem_singleton.mp hi]

end Dictionary

/-- A dictionary grown by at most new names with numbers above `top`. -/
structure Grown (m m' : Multimap Bytes Nat) (names : List Bytes) (top : Nat) : Prop where
  old : ∀ i ∈ m.items, i ∈ m'.items
  new : ∀ i ∈ m'.items, i ∈ m.items ∨ (i.key ∉ names ∧ top < i.value)

variable {cache : Cache Nat} {m : Multimap Bytes Nat} (hr : cache.Refines 100 0 m)

variable {name : Bytes} {dataDb : Cache V} {c : Option Nat}

include hr in
lemma getOrCreate_spec {names : List Bytes} {top : Nat}
    (hd : Dictionary m names top) (hrd : ¬ Unreadable names name)
    (hf : top+fresh names name < 2^31) :
    ∃ i cache' m', getOrCreate top cache name = some (i.value,top+fresh names name,cache') ∧
      cache'.Refines 100 0 m' ∧ Dictionary m' (PairStore.note names name) (top+fresh names name) ∧
      i ∈ m'.items ∧ i.key = name ∧ Grown m m' names top := by
  have hb := borrow_refines hr fun hu => hrd ((hd.uncopied_iff name).mp hu)
  cases ho : m.oldest name with
  | none =>
    have hn := (hd.oldest_eq_none_iff name).mp ho
    simp only [fresh,hn,if_false] at hf ⊢
    obtain ⟨t,ht,hrt⟩ := put_refines hr (by omega) name (top+1)
    rw [put_unbounded] at hrt
    refine ⟨⟨m.next,name,top+1⟩,t,m.add name (top+1),?_,hrt,?_,?_,rfl,?_,?_⟩
    · rw [getOrCreate,hb,ho]
      simp only [map_none,bind_some,hf,if_true,ht,map_some]
    · rw [PairStore.note,if_neg hn]
      exact hd.add hn
    · simp [add]
    · intro i hi
      simp [add,hi]
    · intro i hi
      rcases mem_append.mp hi with hi | hi
      · exact .inl hi
      · rw [mem_singleton.mp hi]
        exact .inr ⟨hn,Nat.lt_succ_self _⟩
  | some i =>
    have hi := mem_of_find?_eq_some ho
    have hk : i.key = name := by simpa using find?_some ho
    have hm : name ∈ names := hk ▸ hd.mem_names hi
    simp only [fresh,hm,if_true,add_zero]
    refine ⟨i,cache,m,by simp [getOrCreate,hb,ho],hr,?_,hi,hk,fun j hj => hj,fun j hj => .inl hj⟩
    rw [PairStore.note,if_pos hm]
    exact hd

include hr in
lemma getOrCreate_fails {names : List Bytes} {top : Nat}
    (hd : Dictionary m names top) (ht : top < 2^31)
    (hbd : Unreadable names name ∨ 2^31 ≤ top+fresh names name) :
    getOrCreate top cache name = none := by
  by_cases hrd : Unreadable names name
  · have hn := find_uncopied hr ((hd.uncopied_iff name).mpr hrd)
    simp [getOrCreate,borrow,hn]
  · have hf := hbd.resolve_left hrd
    have hnw : name ∉ names := by
      intro hm
      simp only [fresh,hm,if_true] at hf
      omega
    have hb := borrow_refines hr fun hu => hrd ((hd.uncopied_iff name).mp hu)
    rw [(hd.oldest_eq_none_iff name).mpr hnw] at hb
    simp only [fresh,hnw,if_false] at hf
    have ho : ¬ top+1 < 2^31 := Nat.not_lt.mpr hf
    rw [getOrCreate,hb]
    simp only [map_none,bind_some,ho,if_false]

lemma dataPtr_length (uriIndex attrIndex : Nat) : (dataPtr uriIndex attrIndex).length = 16 := by
  simp [dataPtr]

lemma dataPtr_injective {a b c d : Nat} (ha : a < 2^64) (hb : b < 2^64) (hc : c < 2^64)
    (hd : d < 2^64) (h : dataPtr a b = dataPtr c d) : a = c ∧ b = d := by
  have hl : (leBytes 8 a).length = (leBytes 8 c).length := by simp
  obtain ⟨h₁,h₂⟩ := append_inj h hl
  exact ⟨leBytes_injective (by omega) (by omega) h₁,leBytes_injective (by omega) (by omega) h₂⟩

lemma dataPtr_copied (uriIndex attrIndex : Nat) (l : List (Item Bytes V)) :
    ¬ Cache.Uncopied (dataPtr uriIndex attrIndex) l := by
  rintro ⟨hl,_⟩
  rw [dataPtr_length,maxTallocSize] at hl
  omega

structure Holds (s : MemoryDataStore V) (a : PairStore V) (urns attrs : Multimap Bytes Nat)
    (data : Multimap Bytes V) : Prop where
  urnDb : s.urnDb.Refines 100 0 urns
  attributeDb : s.attributeDb.Refines 100 0 attrs
  dataDb : s.dataDb.Refines 100 0 data
  urnNames : Dictionary urns a.urns s.idCounter
  attrNames : Dictionary attrs a.attributes s.idCounter
  counter : s.idCounter = a.urns.length + a.attributes.length
  bounded : s.idCounter < 2^31
  indexed : ∀ d ∈ data.items, ∃ i ∈ urns.items, ∃ j ∈ attrs.items, d.key = dataPtr i.value j.value
  pairs : ∀ i ∈ urns.items, ∀ j ∈ attrs.items,
    a.values i.key j.key = data.values (dataPtr i.value j.value)
  unnamed : ∀ uri attr, uri ∉ a.urns ∨ attr ∉ a.attributes → a.values uri attr = []

lemma con_holds : Holds (.con : MemoryDataStore V) .empty .empty .empty .empty where
  urnDb := con_refines 100 0
  attributeDb := con_refines 100 0
  dataDb := con_refines 100 0
  urnNames := ⟨rfl,nodup_nil,nodup_nil,by simp [empty]⟩
  attrNames := ⟨rfl,nodup_nil,nodup_nil,by simp [empty]⟩
  counter := rfl
  bounded := by simp [MemoryDataStore.con]
  indexed d hd := by simp [empty] at hd
  pairs i hi := by simp [empty] at hi
  unnamed _ _ _ := rfl

/-- A call that names the pair has no result: a name cannot be compared, or the
numbers run out. -/
def Unindexable (a : PairStore V) (uri attr : Bytes) : Prop :=
  Unreadable a.urns uri ∨ Unreadable a.attributes attr ∨
    2^31 ≤ (a.named uri attr).urns.length + (a.named uri attr).attributes.length

lemma named_length (a : PairStore V) (uri attr : Bytes) :
    (a.named uri attr).urns.length+(a.named uri attr).attributes.length =
      a.urns.length+fresh a.urns uri+(a.attributes.length+fresh a.attributes attr) := by
  simp only [PairStore.named,note_length]

variable {data : Multimap Bytes V} {s : MemoryDataStore V} {a : PairStore V}

lemma Holds.pairs_grown {urns attrs urns' attrs' : Multimap Bytes Nat} {top top' : Nat}
    (h : Holds s a urns attrs data) (hu : Grown urns urns' a.urns s.idCounter)
    (ha : Grown attrs attrs' a.attributes top) (ht : s.idCounter ≤ top)
    (hlu : ∀ i ∈ urns'.items, i.value ≤ top') (hla : ∀ i ∈ attrs'.items, i.value ≤ top')
    (hb : top' < 2^31) : ∀ i ∈ urns'.items, ∀ j ∈ attrs'.items,
      a.values i.key j.key = data.values (dataPtr i.value j.value) := by
  intro i hi j hj
  have hn : (i.key ∉ a.urns ∧ s.idCounter < i.value) ∨ (j.key ∉ a.attributes ∧ top < j.value) →
      a.values i.key j.key = data.values (dataPtr i.value j.value) := by
    intro hnw
    have hem : ∀ d ∈ data.items, ¬ d.key = dataPtr i.value j.value := by
      intro d hd he
      obtain ⟨i₀,hi₀,j₀,hj₀,hk⟩ := h.indexed d hd
      have hl := h.urnNames.le i₀ hi₀
      have hlj := h.attrNames.le j₀ hj₀
      have hle := hlu i hi
      have hle' := hla j hj
      obtain ⟨h₁,h₂⟩ := dataPtr_injective (by omega) (by omega) (by omega) (by omega)
        (hk.symm.trans he)
      omega
    rw [h.unnamed _ _ (hnw.imp And.left And.left),values,
      filter_eq_nil_iff.mpr (by simpa using hem)]
    rfl
  rcases hu.new i hi with hil | hnw
  · rcases ha.new j hj with hjl | hnw
    · exact h.pairs i hil j hjl
    · exact hn (.inr hnw)
  · exact hn (.inl hnw)

lemma mem_note {names : List Bytes} {x : Bytes} (h : x ∈ names) :
    x ∈ PairStore.note names name := by
  simp only [PairStore.note]
  split
  · exact h
  · simp [h]

variable {urns attrs : Multimap Bytes Nat} {uri attr : Bytes}

variable (h : Holds s a urns attrs data)

include h in
lemma index_spec (hok : ¬ Unindexable a uri attr) :
    ∃ i j s' urns' attrs', s.index uri attr = some (dataPtr i.value j.value,s') ∧
      Holds s' (a.named uri attr) urns' attrs' data ∧
      i ∈ urns'.items ∧ i.key = uri ∧ j ∈ attrs'.items ∧ j.key = attr := by
  simp only [Unindexable,not_or,not_le,named_length] at hok
  obtain ⟨hru,hra,hf⟩ := hok
  have hc := h.counter
  obtain ⟨i,uc,urns',hgu,hre,hdu,hi,hik,hgr⟩ := getOrCreate_spec h.urnDb h.urnNames hru (by omega)
  obtain ⟨j,ac,attrs',hga,hrf,hda,hj,hjk,hg⟩ :=
    getOrCreate_spec h.attributeDb (h.attrNames.mono (Nat.le_add_right _ (fresh a.urns uri))) hra
      (by omega)
  have hdu' := hdu.mono (Nat.le_add_right _ (fresh a.attributes attr))
  refine ⟨i,j,⟨s.idCounter+fresh a.urns uri+fresh a.attributes attr,uc,ac,s.dataDb⟩,
    urns',attrs',?_,?_,hi,hik,hj,hjk⟩
  · rw [MemoryDataStore.index,hgu]
    simp [hga]
  · refine ⟨hre,hrf,h.dataDb,hdu',hda,?_,by dsimp only; omega,?_,?_,?_⟩
    · rw [named_length]
      dsimp only
      omega
    · intro d hd
      obtain ⟨i₀,hi₀,j₀,hj₀,hk⟩ := h.indexed d hd
      exact ⟨i₀,hgr.old i₀ hi₀,j₀,hg.old j₀ hj₀,hk⟩
    · exact h.pairs_grown hgr hg (Nat.le_add_right _ _) hdu'.le hda.le (by omega)
    · intro u at' hn
      exact h.unnamed u at' (hn.imp (fun hx hm => hx (mem_note hm)) (fun hx hm => hx (mem_note hm)))

include h in
lemma index_fails (hb : Unindexable a uri attr) : s.index uri attr = none := by
  by_cases hu : Unreadable a.urns uri ∨ 2^31 ≤ s.idCounter+fresh a.urns uri
  · rw [MemoryDataStore.index,getOrCreate_fails h.urnDb h.urnNames h.bounded hu]
    rfl
  · simp only [not_or,not_le] at hu
    obtain ⟨i,uc,urns',hgu,_,_,_,_,_⟩ := getOrCreate_spec h.urnDb h.urnNames hu.1 hu.2
    have hb' : Unreadable a.attributes attr ∨
        2^31 ≤ s.idCounter+fresh a.urns uri+fresh a.attributes attr := by
      have hc := h.counter
      simp only [Unindexable,named_length,hu.1,false_or] at hb
      refine hb.imp id fun hf => ?_
      omega
    have hga := getOrCreate_fails h.attributeDb
      (h.attrNames.mono (Nat.le_add_right _ (fresh a.urns uri))) hu.2 hb'
    rw [MemoryDataStore.index,hgu]
    simp [hga]

lemma purge_spec (fuel : Nat) {cache : Cache V} {m : Multimap Bytes V}
    (hr : cache.Refines 100 0 m) {key : Bytes}
    (hk : ∀ l : List (Item Bytes V), ¬ Cache.Uncopied key l) (hf : m.recent.length < fuel) :
    ∃ t, MemoryDataStore.purge fuel cache key = some t ∧ t.Refines 100 0 (m.purge key) := by
  induction fuel generalizing cache m with
  | zero => omega
  | succ fuel ih =>
    obtain ⟨ho,hg⟩ | ⟨i,t,ho,hg,hrt⟩ := get_refines hr (hk _)
    · rw [purge_of_oldest_none ho]
      exact ⟨cache,by simp [MemoryDataStore.purge,hg],hr⟩
    · have hl := m.remove_length (mem_of_find?_eq_some ho)
      obtain ⟨u,hu,hru⟩ := ih hrt (by omega)
      rw [purge_remove ho] at hru
      exact ⟨u,by simpa [MemoryDataStore.purge,hg] using hu,hru⟩

variable {l : List V}

lemma Holds.update {data data' : Multimap Bytes V} {i j : Item Bytes Nat}
    (h : Holds s (a.named uri attr) urns attrs data) (hi : i ∈ urns.items) (hik : i.key = uri)
    (hj : j ∈ attrs.items) (hjk : j.key = attr) (hr : dataDb.Refines 100 0 data')
    (hky : ∀ d ∈ data'.items, d.key = dataPtr i.value j.value ∨ d ∈ data.items)
    (hvl : ∀ key, data'.values key =
      if dataPtr i.value j.value = key then l else data.values key) :
    Holds {s with dataDb := dataDb} (a.update uri attr l) urns attrs data' where
  urnDb := h.urnDb
  attributeDb := h.attributeDb
  dataDb := hr
  urnNames := h.urnNames
  attrNames := h.attrNames
  counter := h.counter
  bounded := h.bounded
  indexed d hd := by
    rcases hky d hd with hk | hold
    · exact ⟨i,hi,j,hj,hk⟩
    · exact h.indexed d hold
  pairs p hp q hq := by
    have hlt := h.bounded
    have h₁ := h.urnNames.le p hp
    have h₂ := h.attrNames.le q hq
    have h₃ := h.urnNames.le i hi
    have h₄ := h.attrNames.le j hj
    have hold : a.values p.key q.key = data.values (dataPtr p.value q.value) := h.pairs p hp q hq
    -- Two pairs have the same number exactly when they have the same names.
    have hs : dataPtr i.value j.value = dataPtr p.value q.value ↔
        p.key = uri ∧ q.key = attr := by
      constructor
      · intro heq
        obtain ⟨hv,hw⟩ := dataPtr_injective (by omega) (by omega) (by omega) (by omega) heq
        rw [← h.urnNames.eq_of_value hi hp hv,← h.attrNames.eq_of_value hj hq hw]
        exact ⟨hik,hjk⟩
      · rintro ⟨hu,hq'⟩
        rw [h.urnNames.eq_of_key hp hi (hu.trans hik.symm),
          h.attrNames.eq_of_key hq hj (hq'.trans hjk.symm)]
    rw [hvl,PairStore.update_values,hold]
    simp only [hs]
  unnamed u q hn := by
    have hu : uri ∈ (a.named uri attr).urns := hik ▸ h.urnNames.mem_names hi
    have ha : attr ∈ (a.named uri attr).attributes := hjk ▸ h.attrNames.mem_names hj
    have hold : a.values u q = [] := h.unnamed u q hn
    rw [PairStore.update_values,if_neg ?_,hold]
    rintro ⟨rfl,rfl⟩
    exact hn.elim (fun hx => hx hu) (fun hx => hx ha)

section

variable (h : Holds s a urns attrs data) (hok : ¬ Unindexable a uri attr)
include h hok

lemma set_spec (value : V) : ∃ t urns' attrs' data', s.set uri attr value = some t ∧
      Holds t (a.update uri attr [value]) urns' attrs' data' := by
  obtain ⟨i,j,s',urns',attrs',hid,h',hi,hik,hj,hjk⟩ := index_spec h hok
  obtain ⟨u,hu,hru⟩ := purge_spec (s'.dataDb.cacheList.length+1) h'.dataDb
    (dataPtr_copied i.value j.value) (by simp [h'.dataDb.recency])
  obtain ⟨t,ht,hrt⟩ := put_refines hru (by omega) (dataPtr i.value j.value) value
  rw [put_unbounded] at hrt
  refine ⟨{s' with dataDb := t},urns',attrs',_,by simp [MemoryDataStore.set,hid,hu,ht],
    h'.update hi hik hj hjk hrt ?_ ?_⟩
  · intro d hd
    rcases mem_append.mp hd with hd | hd
    · exact .inr (mem_of_mem_filter hd)
    · rw [mem_singleton.mp hd]
      exact .inl rfl
  · intro key
    rw [values_add,values_purge]
    split <;> simp

lemma del_spec : ∃ t urns' attrs' data', s.del uri attr = some t ∧
      Holds t (a.update uri attr []) urns' attrs' data' := by
  obtain ⟨i,j,s',urns',attrs',hid,h',hi,hik,hj,hjk⟩ := index_spec h hok
  obtain ⟨u,hu,hru⟩ := purge_spec (s'.dataDb.cacheList.length+1) h'.dataDb
    (dataPtr_copied i.value j.value) (by simp [h'.dataDb.recency])
  refine ⟨{s' with dataDb := u},urns',attrs',_,by simp [MemoryDataStore.del,hid,hu],
    h'.update hi hik hj hjk hru (fun d hd => .inr (mem_of_mem_filter hd)) fun key => ?_⟩
  rw [values_purge]

lemma add_spec (value : V) : ∃ t urns' attrs' data', s.add uri attr value = some t ∧
      Holds t (a.update uri attr (a.values uri attr ++ [value])) urns' attrs' data' := by
  obtain ⟨i,j,s',urns',attrs',hid,h',hi,hik,hj,hjk⟩ := index_spec h hok
  obtain ⟨t,ht,hrt⟩ := put_refines h'.dataDb (by omega) (dataPtr i.value j.value) value
  rw [put_unbounded] at hrt
  have hold : a.values uri attr = data.values (dataPtr i.value j.value) := by
    rw [← hik,← hjk]
    exact h'.pairs i hi j hj
  refine ⟨{s' with dataDb := t},urns',attrs',_,by simp [MemoryDataStore.add,hid,ht],
    h'.update hi hik hj hjk hrt ?_ ?_⟩
  · intro d hd
    rcases mem_append.mp hd with hd | hd
    · exact .inr hd
    · rw [mem_singleton.mp hd]
      exact .inl rfl
  · intro key
    rw [values_add,hold]
    by_cases hk : dataPtr i.value j.value = key
    · simp [hk]
    · simp [hk]

lemma get_spec : ∃ t urns' attrs', s.get uri attr = some ((a.values uri attr).head?,t) ∧
      Holds t (a.named uri attr) urns' attrs' data := by
  obtain ⟨i,j,s',urns',attrs',hid,h',hi,rfl,hj,rfl⟩ := index_spec h hok
  have hb := borrow_refines h'.dataDb (dataPtr_copied i.value j.value _)
  have hold : a.values i.key j.key = data.values (dataPtr i.value j.value) := h'.pairs i hi j hj
  rw [oldest_eq_head,← hold] at hb
  exact ⟨s',urns',attrs',by simp [MemoryDataStore.get,hid,hb],h'⟩

lemma iter_spec :
    ∃ c t urns' attrs', s.iter uri attr = some (c,t) ∧ c.isSome = !(a.values uri attr).isEmpty ∧
      data.rest c = some (a.values uri attr) ∧ Holds t (a.named uri attr) urns' attrs' data := by
  obtain ⟨i,j,s',urns',attrs',hid,h',hi,rfl,hj,rfl⟩ := index_spec h hok
  have hit := iter_refines h'.dataDb (dataPtr_copied i.value j.value _)
  have hold : a.values i.key j.key = data.values (dataPtr i.value j.value) := h'.pairs i hi j hj
  refine ⟨_,s',urns',attrs',by simp [MemoryDataStore.iter,hid,hit],?_,hold ▸ data.rest_oldest _,h'⟩
  have hh := congrArg isSome (data.oldest_eq_head (dataPtr i.value j.value))
  rw [isSome_map,← hold] at hh
  rw [isSome_map,hh]
  cases a.values i.key j.key with
  | nil => rfl
  | cons v l => rfl

end

include h in
lemma Holds.touch {id : Nat} (hr : dataDb.Refines 100 0 (data.touch id)) :
    Holds {s with dataDb := dataDb} a urns attrs (data.touch id) :=
  ⟨h.urnDb,h.attributeDb,hr,h.urnNames,h.attrNames,h.counter,h.bounded,h.indexed,h.pairs,h.unnamed⟩

include h in
lemma next_spec (hc : data.rest c = some l) :
    ∃ c' t data', s.next c = some ((l.head?,c'),t) ∧ data'.items = data.items ∧
      data'.rest c' = some l.tail ∧ Holds t a urns attrs data' := by
  cases c with
  | none =>
    obtain rfl : [] = l := some.inj hc
    exact ⟨none,s,data,rfl,rfl,rfl,h⟩
  | some id =>
    cases hl : data.lookup id with
    | none => simp [rest,hl] at hc
    | some i =>
      obtain ⟨p,_,q,_,hk⟩ := h.indexed i (mem_of_lookup hl).1
      obtain ⟨t,ht,hrt⟩ := next_refines h.dataDb hl (hk ▸ dataPtr_copied p.value q.value _)
      obtain ⟨vs,hrs,ha⟩ := rest_younger hl
      obtain rfl : i.value :: vs = l := some.inj (ha.symm.trans hc)
      exact ⟨_,{s with dataDb := t},data.touch id,by simp [MemoryDataStore.next,ht],rfl,hrs,
        h.touch hrt⟩

/-- The store holds the lists, and every live iterator has the rest of its list
before it. -/
def Shows (s : Session V) (a : PairStore V) : Prop :=
  ∃ urns attrs data, Holds s.store a urns attrs data ∧
    ∀ x l, a.cursors x = some l → data.rest (s.iters x) = some l

lemma con_shows : Shows (.con : Session V) .empty := by
  refine ⟨.empty,.empty,.empty,con_holds,fun x l hl => ?_⟩
  obtain rfl : [] = l := some.inj hl
  rfl

def Faults (a : PairStore V) : Op V → Prop
  | .set uri attr _ => Unindexable a uri attr
  | .add uri attr _ => Unindexable a uri attr
  | .del uri attr => Unindexable a uri attr
  | .get uri attr => Unindexable a uri attr
  | .iter _ uri attr => Unindexable a uri attr
  | .next _ => False

include h in
lemma Holds.withCursors (cursors : Nat → Option (List V)) :
    Holds s {a with cursors := cursors} urns attrs data :=
  ⟨h.urnDb,h.attributeDb,h.dataDb,h.urnNames,h.attrNames,h.counter,h.bounded,h.indexed,h.pairs,
    h.unnamed⟩

lemma rest_update {iters : Nat → Option Nat}
    {cursors : Nat → Option (List V)} {x : Nat} (hrs : data.rest c = some l)
    (hc : ∀ y l, cursors y = some l → data.rest (iters y) = some l) (y : Nat) (l' : List V)
    (h : update cursors x (some l) y = some l') : data.rest (update iters x c y) = some l' := by
  by_cases hy : y = x
  · subst hy
    simp only [update_self,some.injEq] at h ⊢
    exact h ▸ hrs
  · simp only [update_of_ne hy] at h ⊢
    exact hc y l' h

lemma shows_update {t : MemoryDataStore V}
    (h : Holds t (a.update uri attr l) urns attrs data) (iters : Nat → Option Nat) :
    Shows ⟨t,iters⟩ (a.update uri attr l) := by
  refine ⟨urns,attrs,data,h,?_⟩
  intro x l hl
  cases hl

lemma step_shows (s : Session V) (a : PairStore V) (op : Op V) (out : Out V)
    (b : PairStore V) (hs : Shows s a) (h : a.step op = some (out,b)) (hok : ¬ Faults a op) :
    ∃ t, s.step op = some (out,t) ∧ Shows t b := by
  obtain ⟨urns,attrs,data,hh,hc⟩ := hs
  cases op with
  | set uri attr value =>
    obtain ⟨rfl,rfl⟩ := h
    obtain ⟨t,urns',attrs',data',ht,h'⟩ := set_spec hh hok value
    exact ⟨{s with store := t},by simp [Session.step,ht],shows_update h' s.iters⟩
  | add uri attr value =>
    obtain ⟨rfl,rfl⟩ := h
    obtain ⟨t,urns',attrs',data',ht,h'⟩ := add_spec hh hok value
    exact ⟨{s with store := t},by simp [Session.step,ht],shows_update h' s.iters⟩
  | del uri attr =>
    obtain ⟨rfl,rfl⟩ := h
    obtain ⟨t,urns',attrs',data',ht,h'⟩ := del_spec hh hok
    exact ⟨{s with store := t},by simp [Session.step,ht],shows_update h' s.iters⟩
  | get uri attr =>
    obtain ⟨rfl,rfl⟩ := h
    obtain ⟨t,urns',attrs',ht,h'⟩ := get_spec hh hok
    exact ⟨{s with store := t},by simp [Session.step,ht],urns',attrs',data,h',hc⟩
  | iter x uri attr =>
    obtain ⟨rfl,rfl⟩ := h
    obtain ⟨c,t,urns',attrs',ht,hsm,hrs,h'⟩ := iter_spec hh hok
    exact ⟨⟨t,update s.iters x c⟩,by simp [Session.step,ht,hsm],urns',attrs',data,
      h'.withCursors _,rest_update hrs hc⟩
  | next x =>
    simp only [PairStore.step,map_eq_some_iff,Prod.mk.injEq] at h
    obtain ⟨l,hl,rfl,rfl⟩ := h
    obtain ⟨c,t,data',ht,hi,hrs,h'⟩ := next_spec hh (hc x l hl)
    have hsa : ∀ c, data'.rest c = data.rest c := by
      intro c
      cases c with
      | none => rfl
      | some id => simp only [Multimap.rest,Multimap.lookup,Multimap.after,hi]
    exact ⟨⟨t,update s.iters x c⟩,by simp [Session.step,ht],urns,attrs,data',
      h'.withCursors _,rest_update hrs fun y l' hl' => (hsa _).trans (hc y l' hl')⟩

lemma step_faults (s : Session V) (a : PairStore V) (op : Op V) (out : Out V)
    (b : PairStore V) (hs : Shows s a) (_ : a.step op = some (out,b)) (hb : Faults a op) :
    s.step op = none := by
  obtain ⟨urns,attrs,data,hh,_⟩ := hs
  cases op with
  | set uri attr value => simp [Session.step,MemoryDataStore.set,index_fails hh hb]
  | add uri attr value => simp [Session.step,MemoryDataStore.add,index_fails hh hb]
  | del uri attr => simp [Session.step,MemoryDataStore.del,index_fails hh hb]
  | get uri attr => simp [Session.step,MemoryDataStore.get,index_fails hh hb]
  | iter x uri attr => simp [Session.step,MemoryDataStore.iter,index_fails hh hb]
  | next x => exact hb.elim

/-- The store gives the results of the map from pairs to lists over exactly the sequences of calls
in which the numbers do not run out and no long name is looked up again. -/
theorem refines_pairStore_iff {ops : List (Op V)} {outs : List (Out V)} {a : PairStore V}
    (h : Transition.trace PairStore.step .empty ops = some (outs,a)) :
    (∃ s, Transition.trace Session.step .con ops = some (outs,s)) ↔
      Transition.Along (Transition.post PairStore.step) (fun a op => ¬ Faults a op) .empty ops :=
  Transition.trace_refines_iff step_shows step_faults con_shows h

theorem refines_pairStore_two_values :
    Transition.Along (Transition.post PairStore.step) (fun a op => ¬ Faults a op)
      (.empty : PairStore Nat)
      [.set [117] [97] 1,.add [117] [97] 2,.get [117] [97],.iter 0 [117] [97],.next 0,.next 0,
        .next 0,.del [117] [97],.get [117] [97]] :=
  (@refines_pairStore_iff Nat _ [.done,.done,.value (some 1),.started true,.value (some 1),
    .value (some 2),.value none,.done,.value none] _ rfl).mp ⟨_,rfl⟩

lemma mem_note_self (names : List Bytes) (name : Bytes) : name ∈ PairStore.note names name := by
  simp only [PairStore.note]
  split
  · assumption
  · simp

lemma unindexable_of_long (l : List V)
    (h : maxTallocSize ≤ uri.length ∨ maxTallocSize ≤ attr.length) :
    Unindexable (a.update uri attr l) uri attr :=
  h.elim (fun h => .inl ⟨h,uri,mem_note_self _ _,rfl,rfl⟩)
    fun h => .inr (.inl ⟨h,attr,mem_note_self _ _,rfl,rfl⟩)

/-- A URI of `2^28` bytes is stored under a NULL key, and the next call that names
it compares with that key. -/
theorem long_name_fails :
    ¬ ∀ outs a, Transition.trace PairStore.step .empty
        [.set (replicate (2^28) 117) [97] 1,.get (replicate (2^28) 117) [97]] = some (outs,a) →
      ∃ s : Session Nat, Transition.trace Session.step .con
        [.set (replicate (2^28) 117) [97] 1,.get (replicate (2^28) 117) [97]] =
          some (outs,s) := by
  intro h
  have hl : maxTallocSize ≤ (replicate (2^28) (117 : UInt8)).length := by
    rw [length_replicate,maxTallocSize]
    omega
  generalize replicate (2^28) (117 : UInt8) = uri at h hl
  have hal := (Transition.trace_refines_iff step_shows step_faults con_shows rfl).mp (h _ _ rfl)
  exact (hal.2 _ rfl).1 (unindexable_of_long [1] (.inl hl))

end DataStore

end Aff4
