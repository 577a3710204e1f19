import Aff4.Lib.Text
import Aff4.Escaping

/-! `RDFSerializer_serialize_urn` of rdf.c: the statements for one URN. The attributes it looks up
are the data types of the registered classes. -/

namespace Aff4

open LittleEndian Text List Option

inductive RaptorIdentifierType where
  | unknown
  | resource
  | anonymous
  | predicate
  | ordinal
  | literal
  | xmlLiteral
  deriving DecidableEq, Repr

/-- Subject and predicate are always resources. -/
structure RaptorStatement where
  subject : Bytes
  predicate : Bytes
  object : Bytes
  objectType : RaptorIdentifierType
  objectLiteralDatatype : Option Bytes
  deriving DecidableEq, Repr

/-- The methods of the registered classes. `serialise` gives nothing for NULL. `listed` says that
the constructor of the value's class initialises its `list`; those of `RDFURN`, `XSDDatetime` and
`MapValue` leave it NULL. -/
structure ValueMethods (V : Type) where
  decode : DataStoreObject → RDFClass → Option V
  listed : V → Bool
  serialise : V → Option (Option Bytes)
  raptorType : V → RaptorIdentifierType
  dataType : V → Bytes

def RDFValue.serialise : RDFValue → Option (Option Bytes)
  | string s => s.serialise.map some
  | integer value => some (some (decimal value.toNat))

def RDFValue.methods : ValueMethods RDFValue where
  decode := RDFClass.decode
  listed _ := true
  serialise := RDFValue.serialise
  raptorType _ := .literal
  dataType v := v.cls.dataType

namespace RDFSerializer

open Resolver

variable {V : Type}

/-- The loop body. Without a serialised form there is only a log message. -/
def statement (ops : ValueMethods V) (uri attr : Bytes) (value : V) :
    Option (List RaptorStatement) :=
  (ops.serialise value).map fun object =>
    match object with
    | none => []
    | some object =>
        [{subject := uri
          predicate := attr
          object := object
          objectType := if ops.raptorType value = .unknown then .literal else ops.raptorType value
          objectLiteralDatatype :=
            if ops.dataType value = [] then none else some (ops.dataType value)}]

/-- `list_for_each_entry` starts after the head and ends at it, and goes through NULL when there
is one. The body serialises `value`, not the entry it has reached. -/
def serializeValues (ops : ValueMethods V) (uri attr : Bytes) (heap : Heap V) (value : Nat) :
    Option (List RaptorStatement) :=
  (heap.behind value).bind fun entries =>
    (entries.mapM fun _ => heap.values[value]?.bind (statement ops uri attr)).map flatten

def serializeAttribute (ops : ValueMethods V) (uri attr : Bytes) (heap : Heap V) :
    Option Nat → Option (List RaptorStatement)
  | none => some []
  | some value => serializeValues ops uri attr heap value

def serializeLoop (ops : ValueMethods V) (registry : Cache RDFClass) (uri : Bytes) :
    List (CacheEntry RDFClass) → Store → Option (List RaptorStatement × Store)
  | [], store => some ([],store)
  | i :: rest, store =>
      (resolveWith ops.decode ops.listed registry store uri i.data.dataType).bind fun ((heap,value),store) =>
        (serializeAttribute ops uri i.data.dataType heap value).bind fun out =>
          (serializeLoop ops registry uri rest store).map fun (outs,store) => (out ++ outs,store)

def serializeUrn (ops : ValueMethods V) (registry : Cache RDFClass) (store : Store) (uri : Bytes) :
    Option (List RaptorStatement × Store) :=
  serializeLoop ops registry uri registry.cacheList store

/-- What the values of an attribute come to: nothing for one value, and the first of several
values once, if no list that is followed has NULL in it. -/
def exported (ops : ValueMethods V) (uri attr : Bytes) : List V → Option (List RaptorStatement)
  | [] => some []
  | [v] => if ops.listed v then some [] else none
  | v :: w :: vs => if (w :: vs).all ops.listed then statement ops uri attr v else none

lemma serializeValues_chained (ops : ValueMethods V) (uri attr : Bytes) {heap : Heap V}
    {v : V} {vs : List V} (h : Chained ops.listed heap v vs) (hvs : vs.all ops.listed = true) :
    serializeValues ops uri attr heap 0 = exported ops uri attr (v :: vs) := by
  have hv : heap.values[0]? = some v := by simp [h.values]
  rw [serializeValues,behind_eq h]
  cases vs with
  | nil => cases hl : ops.listed v <;> simp [exported,hl]
  | cons w ws =>
    rw [exported,if_pos hvs]
    cases hs : statement ops uri attr v with
    | none => simp [hv,hs]
    | some out => simp [hv,hs]

lemma serializeAttribute_resolved (ops : ValueMethods V) (uri attr : Bytes) (vs : List V) :
    ((vs.foldlM (chainItem ops.listed) (.empty,none)).bind fun r =>
      serializeAttribute ops uri attr r.1 r.2) = exported ops uri attr vs := by
  cases vs with
  | nil => rfl
  | cons v vs =>
    have ho := new_chained ops.listed v
    rw [foldlM_cons]
    cases hvs : vs.all ops.listed with
    | true =>
      obtain ⟨heap,hf,hc⟩ := foldlM_chained ho hvs
      rw [nil_append] at hc
      rw [← serializeValues_chained ops uri attr hc hvs]
      exact congrArg (fun r => r.bind fun r => serializeAttribute ops uri attr r.1 r.2) hf
    | false =>
      have he : exported ops uri attr (v :: vs) = none := by
        cases vs with
        | nil => simp at hvs
        | cons w ws => rw [exported,if_neg (by simp [hvs])]
      rw [he]
      exact congrArg (fun r => r.bind fun r => serializeAttribute ops uri attr r.1 r.2)
        (foldlM_unlisted ho hvs)

def held (ops : ValueMethods V) (registry : Cache RDFClass)
    (a : DataStore.PairStore DataStoreObject) (uri attr : Bytes) : Option (List V) :=
  (a.values uri attr).mapM (decodeObject ops.decode registry)

variable {a : DataStore.PairStore DataStoreObject} {registry : Cache RDFClass}

variable {ops : ValueMethods V} {uri attr : Bytes}

lemma held_nil (h : held ops registry a uri attr = some []) : a.values uri attr = [] := by
  rw [held] at h
  cases hl : a.values uri attr with
  | nil => rfl
  | cons obj objs => simp [hl,bind_eq_some_iff] at h

def outcome (ops : ValueMethods V) (registry : Cache RDFClass) (uri : Bytes)
    (a : DataStore.PairStore DataStoreObject) (attr : Bytes) : Option (List RaptorStatement) :=
  (held ops registry a uri attr).bind (exported ops uri attr)

variable {data : Multimap Bytes DataStoreObject} {urns attrs : Multimap Bytes Nat}

variable {i : CacheEntry RDFClass} {store : Store}

lemma serializeLoop_cons (ops : ValueMethods V) (registry : Cache RDFClass) (uri : Bytes)
    (rest : List (CacheEntry RDFClass)) (h : DataStore.Holds store a urns attrs data)
    (hok : ¬ DataStore.Unindexable a uri i.data.dataType) : ∃ t urns' attrs' data',
      DataStore.Holds t (a.named uri i.data.dataType) urns' attrs' data' ∧
      serializeLoop ops registry uri (i :: rest) store =
        (outcome ops registry uri a i.data.dataType).bind fun out =>
          (serializeLoop ops registry uri rest t).map fun r => (out ++ r.1,r.2) := by
  obtain ⟨t,urns',attrs',data',ht,hr⟩ := resolveWith_spec ops.decode ops.listed registry h hok
  refine ⟨t,urns',attrs',data',ht,?_⟩
  rw [serializeLoop,hr,outcome,held]
  cases (a.values uri i.data.dataType).mapM (decodeObject ops.decode registry) with
  | none => rfl
  | some vs =>
    rw [bind_some,bind_some,← serializeAttribute_resolved]
    cases vs.foldlM (chainItem ops.listed) (.empty,none) with
    | none => rfl
    | some r => rfl

/-- Every lookup succeeds: the names can be indexed, the stored objects decode and
serialising them does not crash. -/
def Exportable (ops : ValueMethods V) (registry : Cache RDFClass) (uri : Bytes) :
    List (CacheEntry RDFClass) → DataStore.PairStore DataStoreObject → Prop
  | [], _ => True
  | i :: rest, a =>
      ¬ DataStore.Unindexable a uri i.data.dataType ∧
        (outcome ops registry uri a i.data.dataType).isSome ∧
        Exportable ops registry uri rest (a.named uri i.data.dataType)

variable {entries : List (CacheEntry RDFClass)}

lemma serializeLoop_iff (ops : ValueMethods V) (registry : Cache RDFClass) (uri : Bytes)
    (h : DataStore.Holds store a urns attrs data) (out : List RaptorStatement) :
    (∃ t, serializeLoop ops registry uri entries store = some (out,t)) ↔
      Exportable ops registry uri entries a ∧
        out = entries.flatMap fun i => (outcome ops registry uri a i.data.dataType).getD [] := by
  induction entries generalizing store a urns attrs data out with
  | nil => simp [serializeLoop,Exportable,eq_comm]
  | cons i rest ih =>
    by_cases hok : DataStore.Unindexable a uri i.data.dataType
    · have hf := DataStore.index_fails h hok
      simp [serializeLoop,resolveWith,MemoryDataStore.iter,hf,Exportable,hok]
    obtain ⟨t,_,_,_,ht,hs⟩ := serializeLoop_cons ops registry uri rest h hok
    rw [hs]
    cases ho : outcome ops registry uri a i.data.dataType with
    | none => simp [Exportable,ho]
    | some first =>
      -- naming a pair changes none of the values
      have hr := fun outs => ih ht outs
      simp only [bind_some,map_eq_some_iff,Prod.exists,Prod.mk.injEq,Exportable,hok,
        ho,isSome_some,true_and,not_false_eq_true,flatMap_cons,getD_some]
      constructor
      · rintro ⟨_,outs,u,hu,rfl,rfl⟩
        obtain ⟨he,rfl⟩ := (hr outs).mp ⟨u,hu⟩
        exact ⟨he,rfl⟩
      · rintro ⟨he,rfl⟩
        obtain ⟨u,hu⟩ := (hr _).mpr ⟨he,rfl⟩
        exact ⟨u,_,u,hu,rfl,rfl⟩

variable {vs : List V} {out : List RaptorStatement} (h : exported ops uri attr vs = some out)

include h in
lemma exported_spec :
    (∀ t ∈ out, t.predicate = attr) ∧ (out = [] ∨ out.length = 1 ∧ 2 ≤ vs.length) := by
  match vs with
  | [] =>
    obtain rfl : [] = out := some.inj h
    simp
  | [v] =>
    rw [exported] at h
    split at h
    · obtain rfl : [] = out := some.inj h
      simp
    · cases h
  | v :: w :: ws =>
    rw [exported] at h
    split at h
    · rw [statement,map_eq_some_iff] at h
      obtain ⟨object,_,rfl⟩ := h
      cases object with
      | none => simp
      | some object => simp
    · cases h

include h in
lemma exported_length (hl : out.length = vs.length) : vs = [] := by
  obtain ⟨-,rfl | ⟨ho,ht⟩⟩ := exported_spec h
  · exact length_eq_zero_iff.mp hl.symm
  · omega

/-- The statements for one attribute are those of its turn, since no data type is
registered twice. -/
lemma filter_flatMap {f : CacheEntry RDFClass → List RaptorStatement}
    (hnd : (entries.map fun i => i.data.dataType).Nodup)
    (hf : ∀ i ∈ entries, ∀ t ∈ f i, t.predicate = i.data.dataType) (hi : i ∈ entries) :
    (entries.flatMap f).filter (fun t => t.predicate = i.data.dataType) = f i := by
  induction entries with
  | nil => simp at hi
  | cons j rest ih =>
    simp only [List.map_cons,List.nodup_cons,List.mem_map,not_exists,not_and] at hnd
    have htl := ih hnd.2 fun k hk => hf k (List.mem_cons_of_mem _ hk)
    rw [List.flatMap_cons,List.filter_append]
    rcases mem_cons.mp hi with rfl | hi
    · have hh : (f i).filter (fun t => t.predicate = i.data.dataType) = f i :=
        filter_eq_self.mpr fun t ht => by simpa using hf i List.mem_cons_self t ht
      have hn : (rest.flatMap f).filter (fun t => t.predicate = i.data.dataType) = [] := by
        refine filter_eq_nil_iff.mpr fun t ht => ?_
        obtain ⟨k,hk,htk⟩ := mem_flatMap.mp ht
        rw [hf k (List.mem_cons_of_mem _ hk) t htk]
        simpa using hnd.1 k hk
      rw [hh,hn,List.append_nil]
    · have hn : (f j).filter (fun t => t.predicate = i.data.dataType) = [] := by
        refine filter_eq_nil_iff.mpr fun t ht => ?_
        rw [hf j List.mem_cons_self t ht]
        simpa using fun he => hnd.1 i hi he.symm
      rw [hn,List.nil_append,htl hi]

/-- Each class is registered under its data type, and under no other class's. -/
structure Registered (registry : Cache RDFClass) (m : Multimap Bytes RDFClass) : Prop where
  refines : registry.Refines 100 0 m
  keyed : ∀ i ∈ m.items, i.key = zstring i.value.dataType
  apart : (m.recent.map fun i => i.value.dataType).Nodup

lemma register_registered {registry t : Cache RDFClass} {m : Multimap Bytes RDFClass}
    {c : RDFClass} (hm : Registered registry m) (h : registerRdfValueClass registry c = some t) :
    ∃ m', Registered t m' := by
  obtain ⟨_,rfl⟩ | ⟨hn,ht⟩ := register_cases hm.refines h
  · exact ⟨m,hm⟩
  have hnw : ∀ i ∈ m.items, ¬ i.value.dataType = c.dataType := by
    intro i hi he
    have hk : ¬ i.key = zstring c.dataType := by simpa using find?_eq_none.mp hn i hi
    exact hk (by rw [hm.keyed i hi,he])
  refine ⟨_,ht,?_,?_⟩
  · intro i hi
    rcases mem_append.mp hi with hi | hi
    · exact hm.keyed i hi
    · rw [mem_singleton.mp hi]
  · rw [Multimap.add,map_append,nodup_append]
    refine ⟨hm.apart,by simp,?_⟩
    intro d hd d' hd'
    obtain ⟨i,hi,rfl⟩ := mem_map.mp hd
    obtain rfl : d' = c.dataType := by simpa using hd'
    exact hnw i (m.same.mem_iff.mp hi)

lemma rdfRegistry_apart {others : List RDFClass} (h : rdfRegistry others = some registry) :
    (registry.cacheList.map fun i => i.data.dataType).Nodup := by
  have ha : ∀ (cs : List RDFClass) (s t : Cache RDFClass), (∃ m, Registered s m) →
      cs.foldlM registerRdfValueClass s = some t → ∃ m, Registered t m := by
    intro cs
    induction cs with
    | nil =>
      intro s t hs ht
      exact some.inj ht ▸ hs
    | cons c cs ih =>
      intro s t ⟨m,hm⟩ ht
      simp only [foldlM_cons,bind_eq_bind,bind_eq_some_iff] at ht
      obtain ⟨u,hu,hr⟩ := ht
      exact ih u t (register_registered hm hu) hr
  obtain ⟨m,hm⟩ := ha _ _ _ ⟨.empty,Cache.con_refines 100 0,by simp [Multimap.empty],
    by simp [Multimap.empty]⟩ h
  have hap := hm.apart
  rw [hm.refines.recency,List.map_map]
  exact hap

def Complete (ops : ValueMethods V) (attr : Bytes) (vs : List V) (out : List RaptorStatement) :
    Prop :=
  ((out.filter fun t => t.predicate = attr).map fun t => some (some t.object)).Perm
    (vs.map ops.serialise)

/-- In every state of the store, and for every registered attribute of every URN,
the export is complete only when it goes through and the attribute has no value. -/
theorem serializeUrn_complete_iff (ops : ValueMethods V) {others : List RDFClass}
    {registry : Cache RDFClass} (hr : rdfRegistry others = some registry)
    {calls : List (DataStore.Op DataStoreObject)} {outs outs' : List (DataStore.Out DataStoreObject)}
    {a : DataStore.PairStore DataStoreObject} {s : DataStore.Session DataStoreObject}
    (hs : Transition.trace DataStore.PairStore.step .empty calls = some (outs,a))
    (hrn : Transition.trace DataStore.Session.step .con calls = some (outs',s))
    (uri : Bytes) {i : CacheEntry RDFClass} (hi : i ∈ registry.cacheList) :
    (∃ out t vs, serializeUrn ops registry s.store uri = some (out,t) ∧
      held ops registry a uri i.data.dataType = some vs ∧
      Complete ops i.data.dataType vs out) ↔
      Exportable ops registry uri registry.cacheList a ∧ a.values uri i.data.dataType = [] := by
  obtain ⟨urns,attrs,data,h,_⟩ := Transition.trace_related DataStore.step_shows
    DataStore.step_faults DataStore.con_shows hs hrn
  have hp : ∀ j ∈ registry.cacheList,
      ∀ t ∈ (outcome ops registry uri a j.data.dataType).getD [],
        t.predicate = j.data.dataType := by
    intro j _ t ht
    cases hj : outcome ops registry uri a j.data.dataType with
    | none => simp [hj] at ht
    | some out =>
      obtain ⟨vs,_,hvs⟩ := bind_eq_some_iff.mp hj
      exact (exported_spec hvs).1 t (by simpa [hj] using ht)
  have hf := filter_flatMap (rdfRegistry_apart hr) hp hi
  constructor
  · rintro ⟨out,t,vs,ho,hvs,hc⟩
    obtain ⟨he,rfl⟩ := (serializeLoop_iff ops registry uri h out).mp ⟨t,ho⟩
    refine ⟨he,?_⟩
    have hl := hc.length_eq
    rw [hf,length_map,length_map,outcome,hvs,bind_some] at hl
    have hn : vs = [] := by
      cases ho : exported ops uri i.data.dataType vs with
      | none =>
        rw [ho,getD_none,length_nil,eq_comm] at hl
        exact length_eq_zero_iff.mp hl
      | some first =>
        rw [ho,getD_some] at hl
        exact exported_length ho hl
    exact held_nil (hn ▸ hvs)
  · rintro ⟨he,hn⟩
    obtain ⟨t,ht⟩ := (serializeLoop_iff ops registry uri h _).mpr ⟨he,rfl⟩
    have hh : held ops registry a uri i.data.dataType = some [] := by rw [held,hn]; rfl
    refine ⟨_,t,[],ht,hh,?_⟩
    rw [Complete,hf,outcome,hh]
    exact List.Perm.refl _

lemma integer_registered : ∃ registry i, rdfRegistry [] = some registry ∧
    i ∈ registry.cacheList ∧ i.data.dataType = datatypeXsdInteger := by
  obtain ⟨registry,hr⟩ := rdfRegistry_defined
  have hl : (rdfRegistry []).map (fun c => c.cacheList.map fun i => i.data) =
      some [.xsdInteger,.xsdString] := by decide +kernel
  rw [hr,map_some,some.injEq] at hl
  have hm : RDFClass.xsdInteger ∈ registry.cacheList.map fun i => i.data := by simp [hl]
  obtain ⟨i,hi,hd⟩ := mem_map.mp hm
  exact ⟨registry,i,hr,hi,by rw [hd]; rfl⟩

/-- Two values for the attribute, so that a statement is made for it. -/
def twoIntegers : List (DataStore.Op DataStoreObject) :=
  [.set [117] datatypeXsdInteger (RDFValue.integer 1).encode,
    .add [117] datatypeXsdInteger (RDFValue.integer 2).encode]

theorem serializeUrn_two_integers : ∃ registry outs outs' a s, rdfRegistry [] = some registry ∧
    Transition.trace DataStore.PairStore.step .empty twoIntegers = some (outs,a) ∧
    Transition.trace DataStore.Session.step .con twoIntegers = some (outs',s) ∧
    (a.values [117] datatypeXsdInteger).length = 2 ∧
    ¬ ∃ out t vs, serializeUrn RDFValue.methods registry s.store [117] = some (out,t) ∧
      held RDFValue.methods registry a [117] datatypeXsdInteger = some vs ∧
      Complete RDFValue.methods datatypeXsdInteger vs out := by
  obtain ⟨registry,i,hrg,hi,ht⟩ := integer_registered
  have hv : (Transition.trace DataStore.PairStore.step .empty twoIntegers).map (fun r =>
      (r.2.values [117] datatypeXsdInteger).length) = some 2 := by decide +kernel
  obtain ⟨⟨outs,a⟩,hs,hl⟩ := map_eq_some_iff.mp hv
  have hr : (Transition.trace DataStore.Session.step .con twoIntegers).isSome = true := by
    decide +kernel
  obtain ⟨⟨outs',s⟩,hrn⟩ := isSome_iff_exists.mp hr
  refine ⟨registry,outs,outs',a,s,hrg,hs,hrn,hl,fun h => ?_⟩
  have he := ((serializeUrn_complete_iff RDFValue.methods hrg hs hrn [117] hi).mp
    (by rwa [ht])).2
  rw [ht] at he
  simp [he] at hl

/-- An attribute with one value is not exported at all. -/
theorem serializeUrn_single_value : ∃ registry store out t, rdfRegistry [] = some registry ∧
    Resolver.set .con [117] datatypeXsdInteger (.integer 1) = some store ∧
    serializeUrn RDFValue.methods registry store [117] = some (out,t) ∧
    ¬ Complete RDFValue.methods datatypeXsdInteger [.integer 1] out := by
  have hr : ((rdfRegistry []).bind fun registry =>
      (Resolver.set .con [117] datatypeXsdInteger (.integer 1)).bind fun store =>
        (serializeUrn RDFValue.methods registry store [117]).map Prod.fst) = some [] := by
    decide +kernel
  obtain ⟨registry,hrg,hr⟩ := bind_eq_some_iff.mp hr
  obtain ⟨store,hs,hr⟩ := bind_eq_some_iff.mp hr
  obtain ⟨⟨out,t⟩,ho,hn⟩ := map_eq_some_iff.mp hr
  obtain rfl : out = [] := hn
  exact ⟨registry,store,[],t,hrg,hs,ho,fun h => by simpa using h.length_eq⟩

end RDFSerializer

end Aff4
