import Aff4.Memory

/-! The search for a field in a tree of packets (packet.c of pyflag). An access outside of a
structure, or through what is not the address of a packet, has no result. -/

namespace Aff4.Pyflag

open LittleEndian List Option

inductive FieldType where
  | int | int64 | intX | int32 | int32X | intX64 | char | charX | short | shortX
  | string | stringX | ipAddr | hex | packet | ethAdd
  deriving DecidableEq, Repr

/-- `struct_property_t`, by what the search reads of it. -/
structure Property where
  name : Bytes
  fieldType : FieldType
  item : Nat
  deriving DecidableEq, Repr

/-- A packet: the properties of its class and the word at each offset of its structure. The list
of the properties is that of the class and ends in the class, whose own property has no name and
offset 0. -/
structure Object where
  properties : List Property
  struct : Nat → Option Nat

abbrev Heap := Nat → Option Object

def getFieldByName (self : Object) (name : Bytes) : Option Property :=
  self.properties.find? fun i => i.name = name

def word (heap : Heap) (self o : Nat) : Option Nat := (heap self).bind fun obj => obj.struct o

/-- The loop of `get_field_by_name_r` over the properties of the packet that it was called for.
`self` is what the in/out pointer points to by now. -/
def searchLoop (heap : Heap) (search : Nat → Option (Option Property × Nat)) (name : Bytes) :
    List Property → Nat → Option (Option Property × Nat)
  | [], self => (word heap self 0).map fun _ => (none,self)
  | i :: properties, self =>
    (word heap self i.item).bind fun item =>
      if i.name = name then some (some i,self)
      else if i.fieldType = .packet ∧ item ≠ 0 then
        (search item).bind fun r =>
          match r.1 with
          | some _ => some r
          | none => searchLoop heap search name properties r.2
      else searchLoop heap search name properties self

def getFieldByNameR (heap : Heap) (name : Bytes) : Nat → Nat → Option (Option Property × Nat)
  | 0, _ => none
  | fuel+1, self => (heap self).bind fun obj =>
    searchLoop heap (getFieldByNameR heap name fuel) name obj.properties self

/-- A packet whose properties are inside its structure and give NULL or such a packet where they
should. No other word is the address of a packet. -/
inductive Tree (heap : Heap) : Nat → Prop where
  | mk {self : Nat} {obj : Object} (hob : heap self = some obj)
      (hclass : (obj.struct 0).isSome)
      (hinside : ∀ i ∈ obj.properties, (obj.struct i.item).isSome)
      (hpackets : ∀ i ∈ obj.properties, i.fieldType = .packet →
        ∀ item, obj.struct i.item = some item → item ≠ 0 → Tree heap item)
      (honly : ∀ o item, obj.struct o = some item → item ≠ 0 → (heap item).isSome →
        ∃ i ∈ obj.properties, i.fieldType = .packet ∧ i.item = o) : Tree heap self

inductive Reach (heap : Heap) : Nat → Nat → Prop where
  | root (self : Nat) : Reach heap self self
  | child {self packet : Nat} {obj : Object} {i : Property} {item : Nat}
      (hob : heap self = some obj) (hi : i ∈ obj.properties) (htype : i.fieldType = .packet)
      (hitem : obj.struct i.item = some item) (hnull : item ≠ 0)
      (h : Reach heap item packet) : Reach heap self packet

def HasField (heap : Heap) (self : Nat) (name : Bytes) : Prop :=
  ∃ obj i, heap self = some obj ∧ getFieldByName obj name = some i

/-- A property that is found belongs to the packet that the pointer is set to; none is found only
where no packet has one. -/
def Right (heap : Heap) (root : Nat) (name : Bytes) (result : Option Property × Nat) : Prop :=
  match result.1 with
  | some i => i.name = name ∧ Reach heap root result.2 ∧
      ∃ obj, heap result.2 = some obj ∧ i ∈ obj.properties
  | none => ¬ ∃ packet, Reach heap root packet ∧ HasField heap packet name

def Object.child (obj : Object) (i : Property) : Option Nat :=
  if i.fieldType = .packet then (obj.struct i.item).filter (· ≠ 0) else none

/-- Properties up to the first with a packet, that packet, and the properties after it. -/
structure Split where
  before : List Property
  child : Nat
  after : List Property

def firstChild (obj : Object) : List Property → Option Split
  | [] => none
  | i :: properties =>
    match obj.child i with
    | some item => some ⟨[i],item,properties⟩
    | none => (firstChild obj properties).map fun s => {s with before := i :: s.before}

/-- The way down by first packets: the names that are met, the last packet, the properties that are
left for the way up, and how many packets were entered. -/
structure Descent where
  met : List Bytes
  last : Nat
  left : List Property
  depth : Nat

inductive Descends (heap : Heap) : Nat → Descent → Prop where
  | last {self : Nat} {obj : Object} (hob : heap self = some obj)
      (hnone : firstChild obj obj.properties = none) :
      Descends heap self ⟨obj.properties.map Property.name,self,[],0⟩
  | child {self : Nat} {obj : Object} {s : Split} {d : Descent} (hob : heap self = some obj)
      (hsplit : firstChild obj obj.properties = some s) (h : Descends heap s.child d) :
      Descends heap self
        ⟨s.before.map Property.name ++ d.met,d.last,d.left ++ s.after,d.depth+1⟩

/-- The properties that are left can be read in the last packet, and there is no packet there. -/
def Calm (heap : Heap) (d : Descent) : Prop :=
  ∀ i ∈ d.left, ∃ item, word heap d.last i.item = some item ∧ (i.fieldType = .packet → item = 0)

variable {item o : Nat} {properties : List Property}

lemma Object.child_eq_some {obj : Object} {i : Property} : obj.child i = some item ↔
      i.fieldType = .packet ∧ obj.struct i.item = some item ∧ item ≠ 0 := by
  rw [child]
  split
  · next ht => simp [ht]
  · next ht => simp [ht]

lemma firstChild_eq_none {obj : Object} :
    firstChild obj properties = none ↔ ∀ i ∈ properties, obj.child i = none := by
  induction properties with
  | nil => simp [firstChild]
  | cons i properties ih =>
    rw [firstChild]
    cases hc : obj.child i with
    | none => simp [hc,ih]
    | some item => simp [hc]

lemma firstChild_eq_some {obj : Object} {s : Split} (h : firstChild obj properties = some s) :
    properties = s.before ++ s.after ∧ ∃ i ∈ properties, obj.child i = some s.child := by
  induction properties generalizing s with
  | nil => cases h
  | cons i properties ih =>
    rw [firstChild] at h
    cases hc : obj.child i with
    | some item =>
      rw [hc] at h
      cases h
      exact ⟨rfl,i,mem_cons_self,hc⟩
    | none =>
      rw [hc] at h
      obtain ⟨s',hs',rfl⟩ := map_eq_some_iff.mp h
      obtain ⟨ha,j,hj,hc'⟩ := ih hs'
      refine ⟨?_,j,mem_cons_of_mem i hj,hc'⟩
      rw [ha]
      rfl

lemma firstChild_item {obj : Object} {s : Split} (h : firstChild obj properties = some s) :
    ∃ i ∈ properties, i.fieldType = .packet ∧ obj.struct i.item = some s.child ∧ s.child ≠ 0 := by
  obtain ⟨-,i,hi,hc⟩ := firstChild_eq_some h
  exact ⟨i,hi,Object.child_eq_some.mp hc⟩

section

variable {heap : Heap} {search : Nat → Option (Option Property × Nat)} {name : Bytes} {self : Nat}
  {obj : Object}

variable (hob : heap self = some obj)
include hob

lemma word_eq (o : Nat) : word heap self o = obj.struct o := by rw [word,hob,bind_some]

lemma searchLoop_cons {i : Property}
    (hin : (obj.struct i.item).isSome) (properties : List Property) :
    searchLoop heap search name (i :: properties) self = if i.name = name then some (some i,self)
      else match obj.child i with
        | some item => (search item).bind fun r =>
          match r.1 with
          | some _ => some r
          | none => searchLoop heap search name properties r.2
        | none => searchLoop heap search name properties self := by
  obtain ⟨item,hi⟩ := isSome_iff_exists.mp hin
  rw [searchLoop,word_eq hob,hi,bind_some]
  by_cases hn : i.name = name
  · rw [if_pos hn,if_pos hn]
  · by_cases hp : i.fieldType = .packet ∧ item ≠ 0
    · rw [if_pos hp,Object.child_eq_some.mpr ⟨hp.1,hi,hp.2⟩]
    · have hc : obj.child i = none := by
        rw [eq_none_iff_forall_ne_some]
        intro item' hs
        obtain ⟨ht,hi',hnl⟩ := Object.child_eq_some.mp hs
        rw [hi] at hi'
        cases hi'
        exact hp ⟨ht,hnl⟩
      rw [if_neg hp,hc]

variable {properties : List Property}

lemma searchLoop_last (hc : (obj.struct 0).isSome)
    (hi : ∀ i ∈ properties, (obj.struct i.item).isSome)
    (hn : firstChild obj properties = none) : searchLoop heap search name properties self =
      some (properties.find? fun i => i.name = name,self) := by
  induction properties with
  | nil =>
    obtain ⟨item,hitm⟩ := isSome_iff_exists.mp hc
    rw [searchLoop,word_eq hob,hitm]
    rfl
  | cons i properties ih =>
    rw [firstChild_eq_none] at hn
    have hr := ih (fun j hj => hi j (mem_cons_of_mem i hj))
      (firstChild_eq_none.mpr fun j hj => hn j (mem_cons_of_mem i hj))
    rw [searchLoop_cons hob (hi i mem_cons_self),hn i mem_cons_self,find?_cons]
    by_cases hnm : i.name = name
    · simp [hnm]
    · simp [hnm,hr]

lemma searchLoop_split (hi : ∀ i ∈ properties, (obj.struct i.item).isSome) {s : Split}
    (hsp : firstChild obj properties = some s) : searchLoop heap search name properties self =
      match s.before.find? fun i => i.name = name with
      | some i => some (some i,self)
      | none => (search s.child).bind fun r =>
        match r.1 with
        | some _ => some r
        | none => searchLoop heap search name s.after r.2 := by
  induction properties generalizing s with
  | nil => cases hsp
  | cons i properties ih =>
    rw [searchLoop_cons hob (hi i mem_cons_self)]
    rw [firstChild] at hsp
    cases hc : obj.child i with
    | some item =>
      rw [hc] at hsp
      cases hsp
      by_cases hn : i.name = name
      · simp [hn]
      · simp [hn]
    | none =>
      rw [hc] at hsp
      obtain ⟨s',hs',rfl⟩ := map_eq_some_iff.mp hsp
      have hr := ih (fun j hj => hi j (mem_cons_of_mem i hj)) hs'
      by_cases hn : i.name = name
      · simp [hn]
      · simp [if_neg hn,hr,decide_eq_false hn]

end

/-- The loops that go on when the last packet has been searched. They read its words. -/
def ascend (heap : Heap) (name : Bytes) (last : Nat) :
    List Property → Option (Option Property × Nat)
  | [] => some (none,last)
  | i :: left => (word heap last i.item).bind fun item =>
    if i.name = name then some (some i,last)
    else if i.fieldType = .packet ∧ item ≠ 0 then none
    else ascend heap name last left

section

variable {heap : Heap} {name : Bytes} {last : Nat}

lemma ascend_append (left more : List Property) :
    ascend heap name last (left ++ more) = (ascend heap name last left).bind fun r =>
      match r.1 with
      | some _ => some r
      | none => ascend heap name last more := by
  induction left with
  | nil => rfl
  | cons i left ih =>
    rw [cons_append,ascend,ascend]
    cases word heap last i.item with
    | none => rfl
    | some item =>
      rw [bind_some,bind_some]
      split
      · rfl
      · split
        · rfl
        · exact ih

variable {left : List Property}

lemma ascend_self {r : Option Property × Nat}
    (h : ascend heap name last left = some r) : r.2 = last := by
  induction left with
  | nil =>
    cases h
    rfl
  | cons i left ih =>
    obtain ⟨item,-,h⟩ := bind_eq_some_iff.mp h
    split at h
    · cases h
      rfl
    · split at h
      · cases h
      · exact ih h

lemma ascend_none_iff : ascend heap name last left = some (none,last) ↔
      (∀ i ∈ left, i.name ≠ name) ∧
      ∀ i ∈ left, ∃ item, word heap last i.item = some item ∧ (i.fieldType = .packet → item = 0)
    := by
  induction left with
  | nil => simp [ascend]
  | cons i left ih =>
    rw [ascend,forall_mem_cons,forall_mem_cons]
    cases hw : word heap last i.item with
    | none => simp
    | some item =>
      rw [bind_some]
      by_cases hn : i.name = name
      · simp [hn]
      · rw [if_neg hn]
        by_cases hp : i.fieldType = .packet ∧ item ≠ 0
        · simp [hp]
        · simp [hn]
          tauto

lemma searchLoop_eq_ascend {obj : Object} {search : Nat → Option (Option Property × Nat)}
    (hob : heap last = some obj) (hc : (obj.struct 0).isSome)
    (hn : ∀ o item, obj.struct o = some item → item ≠ 0 → search item = none)
    (left : List Property) :
    searchLoop heap search name left last = ascend heap name last left := by
  induction left with
  | nil =>
    obtain ⟨item,hi⟩ := isSome_iff_exists.mp hc
    rw [searchLoop,word_eq hob,hi]
    rfl
  | cons i left ih =>
    rw [searchLoop,ascend,word_eq hob]
    cases hi : obj.struct i.item with
    | none => rfl
    | some item =>
      rw [bind_some,bind_some]
      split
      · rfl
      · split
        · next hp =>
          rw [hn i.item item hi hp.2]
          rfl
        · exact ih

end

section

variable {heap : Heap} {name : Bytes} {root : Nat} {d : Descent}

variable {obj : Object}

lemma Tree.inv {s : Nat} (h : Tree heap s) (hob : heap s = some obj) :
    (obj.struct 0).isSome ∧ (∀ i ∈ obj.properties, (obj.struct i.item).isSome) ∧
      (∀ i ∈ obj.properties, i.fieldType = .packet →
        ∀ item, obj.struct i.item = some item → item ≠ 0 → Tree heap item) ∧
      ∀ o item, obj.struct o = some item → item ≠ 0 → (heap item).isSome →
        ∃ i ∈ obj.properties, i.fieldType = .packet ∧ i.item = o := by
  obtain @⟨_,obj',hob',hc,hi,hp,ho⟩ := h
  rw [hob] at hob'
  cases hob'
  exact ⟨hc,hi,hp,ho⟩

lemma Tree.descends (h : Tree heap root) : ∃ d, Descends heap root d := by
  induction h with
  | @mk self obj hob hcl hin hp ho ih =>
    cases hs : firstChild obj obj.properties with
    | none => exact ⟨_,.last hob hs⟩
    | some s =>
      obtain ⟨i,hi,ht,hitm,hn⟩ := firstChild_item hs
      obtain ⟨d,hd⟩ := ih i hi ht s.child hitm hn
      exact ⟨_,.child hob hs hd⟩

variable {t : Nat}

lemma firstChild_reach {packet : Nat} {s : Split}
    (hob : heap t = some obj) (hs : firstChild obj obj.properties = some s)
    (h : Reach heap s.child packet) : Reach heap t packet := by
  obtain ⟨i,hi,ht,hitm,hn⟩ := firstChild_item hs
  exact .child hob hi ht hitm hn h

lemma Tree.firstChild {s : Split} (h : Tree heap t)
    (hob : heap t = some obj) (hs : firstChild obj obj.properties = some s) :
    Tree heap s.child := by
  obtain ⟨-,-,hp,-⟩ := h.inv hob
  obtain ⟨i,hi,ht,hitm,hn⟩ := firstChild_item hs
  exact hp i hi ht s.child hitm hn

lemma Descends.last_spec (hd : Descends heap root d) (h : Tree heap root) :
    Tree heap d.last ∧ Reach heap root d.last ∧
      ∃ obj, heap d.last = some obj ∧ Pyflag.firstChild obj obj.properties = none ∧
        ∀ i ∈ obj.properties, i.name ∈ d.met := by
  induction hd with
  | @last self obj hob hn =>
    exact ⟨h,.root self,obj,hob,hn,fun i hi => mem_map_of_mem hi⟩
  | @child self obj s d hob hs hd ih =>
    obtain ⟨ht,hr,last,hl,hn,hm⟩ := ih (h.firstChild hob hs)
    exact ⟨ht,firstChild_reach hob hs hr,last,hl,hn,fun i hi => mem_append_right _ (hm i hi)⟩

lemma Descends.left_mem (hd : Descends heap root d) {i : Property} (hi : i ∈ d.left) :
    ∃ packet obj, Reach heap root packet ∧ heap packet = some obj ∧ i ∈ obj.properties := by
  induction hd with
  | last hob hn => cases hi
  | @child self obj s d hob hs hd ih =>
    rcases mem_append.mp hi with hi | hi
    · obtain ⟨packet,obj',hr,hp,hm⟩ := ih hi
      exact ⟨packet,obj',firstChild_reach hob hs hr,hp,hm⟩
    · refine ⟨self,obj,.root self,hob,?_⟩
      rw [(firstChild_eq_some hs).1]
      exact mem_append_right _ hi

lemma getFieldByNameR_absent {item : Nat} (h : heap item = none) (fuel : Nat) :
    getFieldByNameR heap name fuel item = none := by
  cases fuel with
  | zero => rfl
  | succ fuel => rw [getFieldByNameR,h,bind_none]

lemma find?_eq_none_of_unmet {properties : List Property}
    (h : name ∉ properties.map Property.name) :
    (properties.find? fun i => i.name = name) = none := by
  rw [find?_eq_none]
  intro i hi
  simp only [decide_eq_true_eq]
  rintro rfl
  exact h (mem_map_of_mem hi)

lemma Tree.nowhere {s : Nat} (h : Tree heap s) (hob : heap s = some obj)
    (hno : Pyflag.firstChild obj obj.properties = none) (fuel : Nat) (o item : Nat)
    (hitm : obj.struct o = some item) (hn : item ≠ 0) :
    getFieldByNameR heap name fuel item = none := by
  obtain ⟨-,-,-,ho⟩ := h.inv hob
  apply getFieldByNameR_absent
  by_contra hs
  obtain ⟨i,hi,ht,rfl⟩ := ho o item hitm hn (isSome_iff_ne_none.mpr hs)
  have hc := firstChild_eq_none.mp hno i hi
  rw [Object.child_eq_some.mpr ⟨ht,hitm,hn⟩] at hc
  cases hc

lemma getFieldByNameR_unmet (hd : Descends heap root d) (h : Tree heap root)
    (hn : name ∉ d.met) (fuel : Nat) : getFieldByNameR heap name fuel root =
      if d.depth < fuel then ascend heap name d.last d.left else none := by
  induction hd generalizing fuel with
  | @last self obj hob hno =>
    cases fuel with
    | zero => rfl
    | succ fuel =>
      obtain ⟨hcl,hi,-,-⟩ := h.inv hob
      rw [getFieldByNameR,hob,bind_some,searchLoop_last hob hcl hi hno,
        find?_eq_none_of_unmet hn,if_pos (Nat.succ_pos fuel),ascend]
  | @child self obj s d hob hs hd ih =>
    have hc := h.firstChild hob hs
    obtain ⟨hl,-,last,hla,hno,-⟩ := hd.last_spec hc
    rw [mem_append,not_or] at hn
    cases fuel with
    | zero => rfl
    | succ fuel =>
      obtain ⟨-,hi,-,-⟩ := h.inv hob
      rw [getFieldByNameR,hob,bind_some,searchLoop_split hob hi hs,find?_eq_none_of_unmet hn.1]
      simp only [ih hc hn.2 fuel,Nat.add_lt_add_iff_right]
      by_cases hf : d.depth < fuel
      · have hlp : ∀ left, searchLoop heap (getFieldByNameR heap name fuel) name left d.last =
            ascend heap name d.last left :=
          searchLoop_eq_ascend hla (hl.inv hla).1 (hl.nowhere hla hno fuel)
        rw [if_pos hf,if_pos hf,ascend_append]
        cases hlf : ascend heap name d.last d.left with
        | none => rfl
        | some r =>
          have hsl := ascend_self hlf
          rw [bind_some,bind_some,hsl,hlp]
      · rw [if_neg hf,if_neg hf]
        rfl

lemma getFieldByNameR_met (hd : Descends heap root d) (h : Tree heap root)
    (hn : name ∈ d.met) : ∃ i packet obj,
      getFieldByNameR heap name (d.depth+1) root = some (some i,packet) ∧ i.name = name ∧
        Reach heap root packet ∧ heap packet = some obj ∧ i ∈ obj.properties := by
  induction hd with
  | @last self obj hob hno =>
    obtain ⟨hcl,hi,-,-⟩ := h.inv hob
    obtain ⟨j,hj,rfl⟩ := mem_map.mp hn
    cases hf : obj.properties.find? fun i => i.name = j.name with
    | none => simpa using find?_eq_none.mp hf j hj
    | some i =>
      refine ⟨i,self,obj,?_,?_,.root self,hob,mem_of_find?_eq_some hf⟩
      · rw [getFieldByNameR,hob,bind_some,searchLoop_last hob hcl hi hno,hf]
      · simpa using find?_some hf
  | @child self obj s d hob hs hd ih =>
    have hc := h.firstChild hob hs
    obtain ⟨-,hi,-,-⟩ := h.inv hob
    have hst : searchLoop heap (getFieldByNameR heap name (d.depth+1)) name obj.properties self =
        _ := searchLoop_split hob hi hs
    cases hf : s.before.find? fun i => i.name = name with
    | some i =>
      have hm : i ∈ obj.properties := by
        rw [(firstChild_eq_some hs).1]
        exact mem_append_left _ (mem_of_find?_eq_some hf)
      refine ⟨i,self,obj,?_,?_,.root self,hob,hm⟩
      · rw [getFieldByNameR,hob,bind_some,hst,hf]
      · simpa using find?_some hf
    | none =>
      have hdw : name ∈ d.met := by
        rcases mem_append.mp hn with hb | hmt
        · obtain ⟨j,hj,rfl⟩ := mem_map.mp hb
          simpa using find?_eq_none.mp hf j hj
        · exact hmt
      obtain ⟨i,packet,obj',hfd,hin,hr,hp,hm⟩ := ih hc hdw
      refine ⟨i,packet,obj',?_,hin,firstChild_reach hob hs hr,hp,hm⟩
      rw [getFieldByNameR,hob,bind_some,hst,hf]
      simp [hfd]

lemma hasField_iff {s : Nat} : HasField heap s name ↔
    ∃ obj, heap s = some obj ∧ ∃ i ∈ obj.properties, i.name = name := by
  constructor
  · rintro ⟨obj,i,hob,hf⟩
    exact ⟨obj,hob,i,mem_of_find?_eq_some hf,by simpa using find?_some hf⟩
  · rintro ⟨obj,hob,i,hi,rfl⟩
    cases hf : getFieldByName obj i.name with
    | none => simpa using find?_eq_none.mp hf i hi
    | some j => exact ⟨obj,j,hob,hf⟩

/-- The search is right for the names that are met on the way down, and for those that no packet
has if the way up reads nothing that is not there. -/
theorem getFieldByNameR_right_iff (heap : Heap) (root : Nat) (name : Bytes) (h : Tree heap root) :
    (∃ fuel result, getFieldByNameR heap name fuel root = some result ∧
      Right heap root name result) ↔
    ∃ d, Descends heap root d ∧ (name ∈ d.met ∨
      (¬ ∃ packet, Reach heap root packet ∧ HasField heap packet name) ∧ Calm heap d) := by
  constructor
  · rintro ⟨fuel,⟨found,self⟩,hs,hrt⟩
    obtain ⟨d,hd⟩ := h.descends
    refine ⟨d,hd,?_⟩
    by_cases hm : name ∈ d.met
    · exact .inl hm
    · rw [getFieldByNameR_unmet hd h hm] at hs
      split at hs
      · have hsl : self = d.last := ascend_self hs
        subst hsl
        cases found with
        | some i =>
          -- The pointer is left at the last packet, which has no field of this name.
          obtain ⟨hn,-,obj,hob,hi⟩ := hrt
          obtain ⟨-,-,last,hl,-,ha⟩ := hd.last_spec h
          rw [hob] at hl
          cases hl
          exact absurd (hn ▸ ha i hi) hm
        | none => exact .inr ⟨hrt,(ascend_none_iff.mp hs).2⟩
      · cases hs
  · rintro ⟨d,hd,hm | ⟨hno,hc⟩⟩
    · obtain ⟨i,packet,obj,hs,hn,hr,hob,hi⟩ := getFieldByNameR_met hd h hm
      exact ⟨d.depth+1,_,hs,hn,hr,obj,hob,hi⟩
    · have hm : name ∉ d.met := by
        intro hm
        obtain ⟨i,packet,obj,-,hn,hr,hob,hi⟩ := getFieldByNameR_met hd h hm
        exact hno ⟨packet,hr,hasField_iff.mpr ⟨obj,hob,i,hi,hn⟩⟩
      have hlf : ∀ i ∈ d.left, i.name ≠ name := by
        intro i hi hn
        obtain ⟨packet,obj,hr,hob,hmm⟩ := hd.left_mem hi
        exact hno ⟨packet,hr,hasField_iff.mpr ⟨obj,hob,i,hmm,hn⟩⟩
      refine ⟨d.depth+1,(none,d.last),?_,hno⟩
      rw [getFieldByNameR_unmet hd h hm,if_pos (Nat.lt_succ_self _)]
      exact ascend_none_iff.mpr ⟨hlf,hc⟩

end

def outer : Object where
  properties := [⟨chars ['p'],.packet,0⟩,⟨chars ['x'],.int,8⟩]
  struct o := if o = 0 then some 2 else if o = 8 then some 5 else none

def inner : Object where
  properties := [⟨chars ['y'],.int,0⟩,⟨chars ['z'],.int,8⟩]
  struct o := if o = 0 then some 7 else if o = 8 then some 9 else none

def outerHeap : Heap := fun a => if a = 1 then some outer else if a = 2 then some inner else none

lemma outer_struct (h : outer.struct o = some item) :
    o = 0 ∧ item = 2 ∨ o = 8 ∧ item = 5 := by
  simp only [outer] at h
  split at h
  · cases h
    omega
  · split at h
    · cases h
      omega
    · cases h

lemma inner_struct (h : inner.struct o = some item) : item = 7 ∨ item = 9 := by
  simp only [inner] at h
  split at h
  · cases h
    omega
  · split at h
    · cases h
      omega
    · cases h

lemma inner_tree : Tree outerHeap 2 := by
  have hp : ∀ i ∈ inner.properties, i.fieldType ≠ .packet := by decide
  refine @Tree.mk _ _ inner rfl rfl (by decide) ?_ ?_
  · exact fun i hi ht => absurd ht (hp i hi)
  · intro o item hitm _ hs
    rcases inner_struct hitm with rfl | rfl <;> cases hs

lemma outer_tree : Tree outerHeap 1 := by
  refine @Tree.mk _ _ outer rfl rfl (by decide) ?_ ?_
  · intro i hi ht item hitm _
    rcases outer_struct hitm with ⟨-,rfl⟩ | ⟨ho,rfl⟩
    · exact inner_tree
    · have hf : ∀ i ∈ outer.properties, i.item = 8 → i.fieldType ≠ .packet := by decide
      exact absurd ht (hf i hi ho)
  · intro o item hitm _ hs
    rcases outer_struct hitm with ⟨rfl,rfl⟩ | ⟨-,rfl⟩
    · exact ⟨⟨chars ['p'],.packet,0⟩,by decide,rfl,rfl⟩
    · cases hs

theorem getFieldByNameR_right_iff_outer :
    Tree outerHeap 1 ∧ ∃ fuel result,
      getFieldByNameR outerHeap (chars ['y']) fuel 1 = some result ∧
        Right outerHeap 1 (chars ['y']) result :=
  ⟨outer_tree,(getFieldByNameR_right_iff outerHeap 1 (chars ['y']) outer_tree).mpr
    ⟨_,.child rfl rfl (.last rfl rfl),.inl (by decide)⟩⟩

/-- The number after the payload is found, and the pointer is left at the payload. -/
theorem getFieldByNameR_outer :
    Tree outerHeap 1 ∧
      getFieldByNameR outerHeap (chars ['x']) 2 1 = some (some ⟨chars ['x'],.int,8⟩,2) ∧
      ⟨chars ['x'],.int,8⟩ ∈ outer.properties ∧ ⟨chars ['x'],.int,8⟩ ∉ inner.properties :=
  ⟨outer_tree,by decide,by decide,by decide⟩

end Aff4.Pyflag
