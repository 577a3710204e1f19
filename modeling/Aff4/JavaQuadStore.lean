import Mathlib.Data.Finset.Sort
import Aff4.Lib.Positions
import Aff4.Lib.SetHeap
import Aff4.Lib.Transition
import Aff4.JavaCanonical

/-! The quad store of the Java library and its queries (QuadStore.java). -/

namespace Aff4.Java

open List Option SetHeap

inductive Column where
  | graph | subject | predicate | object
  deriving DecidableEq, Repr

def Column.all : List Column := [.graph,.subject,.predicate,.object]

lemma Column.mem_all (c : Column) : c ∈ Column.all := by cases c <;> decide

/-- The string under which the indexes and the queries know a node in the object column. -/
def Node.objectString : Node → Option JavaString
  | .resource r => r.getURI
  | .literal l => some l.getLexicalForm

def Quad.string (q : Quad) : Column → Option JavaString
  | .graph => q.graph.getURI
  | .subject => q.subject.getURI
  | .predicate => q.predicate.getURI
  | .object => q.object.objectString

/-- `index` stands for gindex, sindex, pindex and oindex, whose values are references
to the HashSets in `heap`. -/
structure QuadStore where
  store : List Quad
  index : Column → Option JavaString → Option Nat
  heap : SetHeap Nat

structure HashOrder where
  order : Finset Nat → List Nat
  nodup : ∀ s, (order s).Nodup
  mem_iff : ∀ s i, i ∈ order s ↔ i ∈ s

/-- An Integer hashes to itself, so a HashSet with buckets enough is in ascending order. -/
instance : Inhabited HashOrder := ⟨⟨fun s => s.sort,fun s => s.sort_nodup _,fun s _ => s.mem_sort _⟩⟩

/-- The set that a query narrows. While `all` is set there was no constraint yet. -/
structure Cursor where
  heap : SetHeap Nat
  cursor : Nat
  all : Bool

namespace Cursor

def start (heap : SetHeap Nat) (cursor : Nat) : Option Nat → Option Nat → Cursor
  | none, none => ⟨heap,cursor,true⟩
  | some gindexes, none => ⟨heap.addAll cursor gindexes,cursor,false⟩
  | none, some sindexes => ⟨heap.addAll cursor sindexes,cursor,false⟩
  | some gindexes, some sindexes =>
      ⟨(heap.addAll cursor gindexes).retainAll cursor sindexes,cursor,false⟩

def narrow (self : Cursor) : Option Nat → Cursor
  | none => self
  | some indexes =>
      if self.all then { self with heap := self.heap.addAll self.cursor indexes, all := false }
      else { self with heap := self.heap.retainAll self.cursor indexes }

end Cursor

namespace QuadStore

def empty : QuadStore := ⟨[],fun _ _ => none,.empty⟩

/-- Puts a position into the set of a key, which is made when the key is new. -/
def enter (self : QuadStore) (c : Column) (key : Option JavaString) (pos : Nat) : QuadStore :=
  match self.index c key with
  | none =>
      let entrys := self.heap.newSet
      { self with
        index := Function.update self.index c (Function.update (self.index c) key (some entrys.1))
        heap := entrys.2.add entrys.1 pos }
  | some entrys => { self with heap := self.heap.add entrys pos }

def add (self : QuadStore) (q : Quad) : QuadStore :=
  let pos := self.store.length
  Column.all.foldl (fun self c => self.enter c (q.string c) pos)
    { self with store := self.store ++ [q] }

/-- The set for an argument of a query: null without the argument, and a new set for
an unknown string. -/
def indexes (self : QuadStore) (c : Column) : Option JavaString → Option Nat × QuadStore
  | none => (none,self)
  | some key =>
      match self.index c (some key) with
      | none => (some self.heap.newSet.1,{ self with heap := self.heap.newSet.2 })
      | some entrys => (some entrys,self)

/-- The test for `indexes != null && indexes.size() == 0`. -/
def noneLeft (self : QuadStore) (indexes : Option Nat) : Bool :=
  indexes.any fun ref => (self.heap.cells ref).card == 0

/-- The quads at the positions of the cursor; a position outside the store throws. -/
def results (self : QuadStore) (hash : HashOrder) (cursor : Cursor) :
    Option (List Quad × QuadStore) :=
  let self := { self with heap := cursor.heap }
  if cursor.all then some (self.store,self)
  else ((hash.order (cursor.heap.cells cursor.cursor)).mapM fun i => self.store[i]?).map (·,self)

def query (self : QuadStore) (hash : HashOrder) (given : Column → Option JavaString) :
    Option (List Quad × QuadStore) :=
  let (gindexes,self) := self.indexes .graph (given .graph)
  if self.noneLeft gindexes then some ([],self)
  else
  let (sindexes,self) := self.indexes .subject (given .subject)
  if self.noneLeft sindexes then some ([],self)
  else
  let (pindexes,self) := self.indexes .predicate (given .predicate)
  if self.noneLeft pindexes then some ([],self)
  else
  let (oindexes,self) := self.indexes .object (given .object)
  if self.noneLeft oindexes then some ([],self)
  else
  let (cursor,heap) := self.heap.newSet
  let cursor := Cursor.start heap cursor gindexes sindexes
  self.results hash ((cursor.narrow pindexes).narrow oindexes)

/-- The strings of the nodes that a query is given. `Node.ANY` is never assigned, so it is
null as well. -/
def nodeStrings (g s p o : Option Node) : Column → Option JavaString
  | .graph => g.bind Node.getURI
  | .subject => s.bind Node.getURI
  | .predicate => p.bind Node.getURI
  | .object => o.bind Node.objectString

def queryNodes (self : QuadStore) (hash : HashOrder) (g s p o : Option Node) :
    Option (List Quad × QuadStore) :=
  self.query hash (nodeStrings g s p o)

inductive Call where
  | add (q : Quad)
  | query (given : Column → Option JavaString)

def step (hash : HashOrder) (self : QuadStore) : Call → Option QuadStore
  | .add q => some (self.add q)
  | .query given => (self.query hash given).map Prod.snd

end QuadStore

def added (calls : List QuadStore.Call) : List Quad :=
  calls.filterMap fun
    | .add q => some q
    | .query _ => none

def Quad.meets (q : Quad) (given : Column → Option JavaString) : Bool :=
  Column.all.all fun c => (given c).all fun key => q.string c == some key

def Quad.Agrees (q : Quad) (given : Column → Option JavaString) (cs : List Column) : Prop :=
  ∀ c ∈ cs, ∀ key, given c = some key → q.string c = some key

variable {q : Quad}

lemma Quad.meets_iff {given : Column → Option JavaString} :
    q.meets given = true ↔ q.Agrees given Column.all := by simp [meets,Agrees,Option.all_eq_true]

lemma Quad.agrees_free {given : Column → Option JavaString} {cs : List Column}
    (h : ∀ c ∈ cs, given c = none) (q : Quad) : q.Agrees given cs := by
  intro c hc key hk
  rw [h c hc] at hk
  cases hk

lemma Quad.agrees_cons {given : Column → Option JavaString} {c : Column}
    {cs : List Column} {key : JavaString} (hg : given c = some key) :
    q.Agrees given (c :: cs) ↔ q.Agrees given cs ∧ q.string c = some key := by
  simp [Agrees,hg,and_comm]

namespace QuadStore

def entries (self : QuadStore) (c : Column) (key : Option JavaString) : Finset Nat :=
  (self.index c key).elim ∅ self.heap.cells

structure Separate (quads : QuadStore) : Prop where
  below : ∀ {c key ref}, quads.index c key = some ref → ref < quads.heap.next
  apart : ∀ {c key c' key' ref}, quads.index c key = some ref → quads.index c' key' = some ref →
    c' = c ∧ key' = key

structure Indexed (quads : QuadStore) : Prop extends quads.Separate where
  mem_entries : ∀ c key i,
    i ∈ quads.entries c key ↔ ∃ q, quads.store[i]? = some q ∧ q.string c = key

variable {self : QuadStore}

lemma indexed_empty : empty.Indexed where
  below h := nomatch h
  apart h := nomatch h
  mem_entries := by simp [empty,entries]

@[simp] lemma enter_store (s : QuadStore) (c : Column) (key : Option JavaString) (pos : Nat) :
    (s.enter c key pos).store = s.store := by
  rw [enter]
  split <;> rfl

lemma update_column (index : Column → Option JavaString → Option Nat) (c c' : Column)
    (key key' : Option JavaString) (ref : Option Nat) :
    Function.update index c (Function.update (index c) key ref) c' key' =
      if c' = c ∧ key' = key then ref else index c' key' := by
  by_cases hc : c' = c
  · subst hc
    by_cases hk : key' = key <;> simp [hk]
  · simp [hc]

def named (self : QuadStore) (c : Column) (key : Option JavaString) : QuadStore :=
  { self with
    index := Function.update self.index c
      (Function.update (self.index c) key (some self.heap.next))
    heap := self.heap.newSet.2 }

lemma named_index (s : QuadStore) (c c' : Column) (key key' : Option JavaString) :
    (s.named c key).index c' key' =
      if c' = c ∧ key' = key then some s.heap.next else s.index c' key' :=
  update_column ..

section

variable (h : self.Separate)
variable {c : Column} {key : Option JavaString}

include h

lemma Separate.named (hi : self.index c key = none) : (self.named c key).Separate ∧
      ∀ c' key', (self.named c key).entries c' key' = self.entries c' key' := by
  have hne {c' key' ref} (h' : self.index c' key' = some ref) : ref ≠ self.heap.next :=
    ne_of_lt (h.below h')
  refine ⟨⟨?_,?_⟩,?_⟩
  · intro c' key' ref h'
    rw [named_index] at h'
    split at h'
    · exact some.inj h' ▸ Nat.lt_succ_self _
    · exact (h.below h').trans (Nat.lt_succ_self _)
  · intro c₁ key₁ c₂ key₂ ref h₁ h₂
    rw [named_index] at h₁ h₂
    split at h₁ <;> split at h₂
    · next e₁ e₂ => exact ⟨e₂.1.trans e₁.1.symm,e₂.2.trans e₁.2.symm⟩
    · exact absurd (some.inj h₁).symm (hne h₂)
    · exact absurd (some.inj h₂).symm (hne h₁)
    · exact h.apart h₁ h₂
  · intro c' key'
    rw [entries,entries,named_index]
    split
    · next e =>
      obtain ⟨rfl,rfl⟩ := e
      rw [hi]
      exact self.heap.newSet_cells
    · cases h' : self.index c' key' with
      | none => rfl
      | some ref => exact self.heap.keeps_newSet.cells_eq ref (h.below h')

lemma Separate.put {ref : Nat} (hi : self.index c key = some ref) (pos : Nat) :
    ({ self with heap := self.heap.add ref pos } : QuadStore).Separate ∧
      ∀ c' key', ({ self with heap := self.heap.add ref pos } : QuadStore).entries c' key' =
        if c' = c ∧ key' = key then insert pos (self.entries c' key') else self.entries c' key'
    := by
  refine ⟨⟨h.below,h.apart⟩,fun c' key' => ?_⟩
  split
  · next e =>
    obtain ⟨rfl,rfl⟩ := e
    simp [entries,hi,SetHeap.add]
  · next e =>
    cases h' : self.index c' key' with
    | none => simp [entries,h']
    | some ref' =>
      have hne : ref' ≠ ref := fun heq => e (h.apart hi (heq ▸ h'))
      simp only [entries,h',elim_some,SetHeap.add]
      rw [assign_of_ne _ hne]

lemma Separate.enter (c : Column) (key : Option JavaString) (pos : Nat) :
    (self.enter c key pos).Separate ∧ ∀ c' key', (self.enter c key pos).entries c' key' =
      if c' = c ∧ key' = key then insert pos (self.entries c' key') else self.entries c' key' := by
  cases hi : self.index c key with
  | none =>
    have hnw : self.enter c key pos = { self.named c key with
        heap := (self.named c key).heap.add self.heap.next pos } := by
      simp [QuadStore.enter,hi,newSet,QuadStore.named]
    obtain ⟨hn,he⟩ := h.named hi
    have hp := hn.put (by rw [named_index,if_pos ⟨rfl,rfl⟩]) pos
    simpa only [hnw,he] using hp
  | some ref =>
    have hold : self.enter c key pos = { self with heap := self.heap.add ref pos } := by
      simp [QuadStore.enter,hi]
    rw [hold]
    exact h.put hi pos

lemma Separate.enters (q : Quad) (pos : Nat) (cs : List Column) :
    (cs.foldl (fun self c => self.enter c (q.string c) pos) self).store = self.store ∧
    (cs.foldl (fun self c => self.enter c (q.string c) pos) self).Separate ∧
    ∀ c key i, i ∈ (cs.foldl (fun self c => self.enter c (q.string c) pos) self).entries c key ↔
      i ∈ self.entries c key ∨ c ∈ cs ∧ q.string c = key ∧ i = pos := by
  induction cs generalizing self with
  | nil => simp [h]
  | cons c cs ih =>
    obtain ⟨hsp,he⟩ := h.enter c (q.string c) pos
    obtain ⟨hs,hsp',hm⟩ := ih hsp
    refine ⟨hs.trans (enter_store ..),hsp',fun c' key i => ?_⟩
    rw [foldl_cons,hm,he]
    by_cases hc : c' = c
    · subst hc
      by_cases hk : key = q.string c'
      · subst hk
        simp
        tauto
      · simp [hk,Ne.symm hk]
    · simp [hc]

lemma add_store (q : Quad) : (self.add q).store = self.store ++ [q] := by
  have hs : ({ self with store := self.store ++ [q] } : QuadStore).Separate := ⟨h.below,h.apart⟩
  exact (hs.enters q self.store.length Column.all).1

end

lemma Indexed.add (h : self.Indexed) (q : Quad) : (self.add q).Indexed := by
  have hs : ({ self with store := self.store ++ [q] } : QuadStore).Separate := ⟨h.below,h.apart⟩
  obtain ⟨-,hs',hm⟩ := hs.enters q self.store.length Column.all
  refine ⟨hs',fun c key i => ?_⟩
  rw [add_store h.toSeparate]
  refine (hm c key i).trans ?_
  rw [show ({ self with store := self.store ++ [q] } : QuadStore).entries c key =
    self.entries c key from rfl,h.mem_entries]
  rcases Nat.lt_trichotomy i self.store.length with hi | rfl | hi
  · simp [getElem?_append_left hi,ne_of_lt hi]
  · simp [c.mem_all]
  · have hn : (self.store ++ [q])[i]? = none := getElem?_eq_none (by simp; omega)
    simp [hn,hi.le,ne_of_gt hi]

lemma Indexed.keeps (h : self.Indexed) {heap : SetHeap Nat} (hk : self.heap.Keeps heap) :
    ({ self with heap := heap } : QuadStore).Indexed where
  below h' := (h.below h').trans_le hk.next_le
  apart := h.apart
  mem_entries c key i := by
    rw [← h.mem_entries]
    cases hi : self.index c key with
    | none => simp [entries,hi]
    | some ref => simp [entries,hi,hk.cells_eq ref (h.below hi)]

structure Holds (store : List Quad) (c : Column) (given : Option JavaString)
    (heap : SetHeap Nat) (indexes : Option Nat) : Prop where
  below : ∀ ref, indexes = some ref → ref < heap.next
  missing_iff : indexes = none ↔ given = none
  mem_iff : ∀ ref key, indexes = some ref → given = some key → ∀ i,
    i ∈ heap.cells ref ↔ ∃ q, store[i]? = some q ∧ q.string c = some key

lemma Holds.keeps {store : List Quad} {c : Column} {given : Option JavaString}
    {heap heap' : SetHeap Nat} {indexes : Option Nat} (h : Holds store c given heap indexes)
    (hk : heap.Keeps heap') : Holds store c given heap' indexes where
  below ref hr := (h.below ref hr).trans_le hk.next_le
  missing_iff := h.missing_iff
  mem_iff ref key hr hky i := by
    rw [hk.cells_eq ref (h.below ref hr),h.mem_iff ref key hr hky]

lemma Indexed.indexes (h : self.Indexed) (c : Column) (given : Option JavaString) :
    ∃ indexes heap, self.indexes c given = (indexes,{ self with heap := heap }) ∧
      self.heap.Keeps heap ∧ Holds self.store c given heap indexes := by
  cases given with
  | none =>
    refine ⟨none,self.heap,rfl,.refl _,?_,by simp,?_⟩
    · intro ref hr
      cases hr
    · intro ref key hr
      cases hr
  | some key =>
    have hm := h.mem_entries c (some key)
    cases hi : self.index c (some key) with
    | none =>
      refine ⟨some self.heap.next,self.heap.newSet.2,by simp [QuadStore.indexes,hi,newSet],
        self.heap.keeps_newSet,?_,by simp,?_⟩
      · intro ref hr
        exact some.inj hr ▸ Nat.lt_succ_self _
      · intro ref key' hr hk i
        cases hk
        cases hr
        have he : self.heap.newSet.2.cells self.heap.next = ∅ := self.heap.newSet_cells
        rw [← hm,he,entries,hi]
        rfl
    | some ref =>
      refine ⟨some ref,self.heap,by simp [QuadStore.indexes,hi],.refl _,?_,by simp,?_⟩
      · intro ref' hr
        exact some.inj hr ▸ h.below hi
      · intro ref' key' hr hk i
        cases hk
        cases hr
        rw [← hm,entries,hi]
        rfl

end QuadStore

/-- The cursor is a set of its own and holds the positions of the quads that agree on
the columns that were looked at. -/
structure Cursor.Tracks (store : List Quad) (heap : SetHeap Nat)
    (given : Column → Option JavaString) (cs : List Column) (cursor : Cursor) : Prop where
  keeps : heap.Keeps cursor.heap
  fresh : heap.next ≤ cursor.cursor
  all_iff : cursor.all = true ↔ ∀ c ∈ cs, given c = none
  unused : cursor.all = true → cursor.heap.cells cursor.cursor = ∅
  mem_iff : cursor.all = false → ∀ i, i ∈ cursor.heap.cells cursor.cursor ↔
    ∃ q, store[i]? = some q ∧ q.Agrees given cs

namespace Cursor

open QuadStore

variable {store : List Quad} {heap : SetHeap Nat} {given : Column → Option JavaString}
  {cs : List Column} {cursor : Cursor}

lemma start_eq (heap : SetHeap Nat) (cursor : Nat) (gindexes sindexes : Option Nat) :
    start heap cursor gindexes sindexes =
      ((⟨heap,cursor,true⟩ : Cursor).narrow gindexes).narrow sindexes := by
  cases gindexes <;> cases sindexes <;> rfl

lemma tracks_newSet (store : List Quad) (heap : SetHeap Nat) (given : Column → Option JavaString) :
    Tracks store heap given [] ⟨heap.newSet.2,heap.newSet.1,true⟩ where
  keeps := heap.keeps_newSet
  fresh := le_refl _
  all_iff := by simp
  unused _ := heap.newSet_cells
  mem_iff h := nomatch h

lemma Tracks.narrow (h : Tracks store heap given cs cursor) {c : Column} {indexes : Option Nat}
    (hh : Holds store c (given c) heap indexes) :
    Tracks store heap given (c :: cs) (cursor.narrow indexes) := by
  cases indexes with
  | none =>
    have hg := hh.missing_iff.mp rfl
    refine ⟨h.keeps,h.fresh,?_,h.unused,fun hal i => ?_⟩
    · simpa [Cursor.narrow,hg] using h.all_iff
    · simpa [Cursor.narrow,Quad.Agrees,hg] using h.mem_iff hal i
  | some ref =>
    obtain ⟨key,hg⟩ : ∃ key, given c = some key := by
      refine ne_none_iff_exists'.mp fun hn => ?_
      exact absurd (hh.missing_iff.mpr hn) (by simp)
    have hc := h.keeps.cells_eq ref (hh.below ref rfl)
    have hm := hh.mem_iff ref key rfl hg
    cases hal : cursor.all with
    | true =>
      have hf (q : Quad) : q.Agrees given cs := Quad.agrees_free (h.all_iff.mp hal) q
      simp only [Cursor.narrow,hal,if_true]
      refine ⟨h.keeps.assign h.fresh _,h.fresh,by simp [hg],by simp,fun _ i => ?_⟩
      simp [addAll,assign_self,h.unused hal,hc,hm,Quad.agrees_cons hg,hf]
    | false =>
      simp only [Cursor.narrow,hal,Bool.false_eq_true,if_false]
      refine ⟨h.keeps.assign h.fresh _,h.fresh,by simp [hg],by simp,fun _ i => ?_⟩
      simp only [retainAll,assign_self,Finset.mem_inter,h.mem_iff hal,hc,hm,Quad.agrees_cons hg]
      constructor
      · rintro ⟨⟨q,hq,ha⟩,q',hq',hk⟩
        rw [hq] at hq'
        cases hq'
        exact ⟨q,hq,ha,hk⟩
      · rintro ⟨q,hq,ha,hk⟩
        exact ⟨⟨q,hq,ha⟩,q,hq,hk⟩

end Cursor

namespace QuadStore

def Answers (quads : List Quad) (given : Column → Option JavaString)
    (result : Option (List Quad × QuadStore)) : Prop :=
  ∃ answer self, result = some (answer,self) ∧ answer.Perm (quads.filter (·.meets given)) ∧
    self.Indexed ∧ self.store = quads

variable {self : QuadStore} {given : Column → Option JavaString} {hash : HashOrder}

lemma Indexed.results (h : self.Indexed) {cursor : Cursor} {cs : List Column}
    (hcs : ∀ c, c ∈ cs) (ht : Cursor.Tracks self.store self.heap given cs cursor) :
    Answers self.store given (self.results hash cursor) := by
  have hk := h.keeps ht.keeps
  have hm (q : Quad) : q.meets given = true ↔ q.Agrees given cs := by
    simp [Quad.meets_iff,Quad.Agrees,hcs,Column.mem_all]
  cases hal : cursor.all with
  | true =>
    have hf := ht.all_iff.mp hal
    have he : self.store.filter (·.meets given) = self.store := by
      refine filter_eq_self.mpr fun q _ => (hm q).mpr fun c hc key hky => ?_
      rw [hf c hc] at hky
      cases hky
    exact ⟨self.store,_,by simp [QuadStore.results,hal],List.Perm.of_eq he.symm,hk,rfl⟩
  | false =>
    obtain ⟨answer,ha,hp⟩ := Positions.picks_perm (l := self.store)
      (p := (·.meets given)) (hash.nodup (cursor.heap.cells cursor.cursor)) fun i => by
        simp only [hash.mem_iff,ht.mem_iff hal,hm]
    exact ⟨answer,_,by simp [QuadStore.results,hal,ha],hp,hk,rfl⟩

lemma Holds.answers_or {heap : SetHeap Nat} {c : Column} {indexes : Option Nat}
    (hh : Holds self.store c (given c) heap indexes)
    (h : ({ self with heap := heap } : QuadStore).Indexed)
    {rest : Option (List Quad × QuadStore)} (hr : Answers self.store given rest) :
    Answers self.store given (if ({ self with heap := heap } : QuadStore).noneLeft indexes then
      some ([],{ self with heap := heap }) else rest) := by
  split
  · next hn =>
    obtain ⟨ref,hrf,hc⟩ := (Option.any_eq_true ..).mp hn
    have hcl : heap.cells ref = ∅ := by simpa using hc
    refine ⟨[],_,rfl,List.Perm.of_eq ?_,h,rfl⟩
    refine (List.filter_eq_nil_iff.mpr fun q hq hm => ?_).symm
    obtain ⟨key,hk⟩ : ∃ key, given c = some key := by
      refine Option.ne_none_iff_exists'.mp fun hg => ?_
      rw [hh.missing_iff.mpr hg] at hrf
      cases hrf
    obtain ⟨i,hi⟩ := List.mem_iff_getElem?.mp hq
    have hmm := (hh.mem_iff ref key hrf hk i).mpr
      ⟨q,hi,Quad.meets_iff.mp hm c c.mem_all key hk⟩
    simp [hcl] at hmm
  · exact hr

lemma Indexed.query (h : self.Indexed) (hash : HashOrder) (given : Column → Option JavaString) :
    Answers self.store given (self.query hash given) := by
  obtain ⟨gindexes,gheap,hgr,hk,hg⟩ := h.indexes .graph (given .graph)
  have h₁ := h.keeps hk
  obtain ⟨sindexes,sheap,hsb,hk,hs⟩ := h₁.indexes .subject (given .subject)
  have h₂ := h₁.keeps hk
  have hg₂ := hg.keeps hk
  obtain ⟨pindexes,pheap,hpr,hk,hp⟩ := h₂.indexes .predicate (given .predicate)
  have h₃ := h₂.keeps hk
  have hg₃ := hg₂.keeps hk
  have hs₃ := hs.keeps hk
  obtain ⟨oindexes,oheap,hob,hk,ho⟩ := h₃.indexes .object (given .object)
  have h₄ := h₃.keeps hk
  simp only [QuadStore.query,hgr,hsb,hpr,hob]
  refine hg.answers_or h₁ (hs.answers_or h₂ (hp.answers_or h₃ (ho.answers_or h₄ ?_)))
  rw [Cursor.start_eq]
  have ht := (((Cursor.tracks_newSet self.store oheap given).narrow (hg₃.keeps hk)).narrow
    (hs₃.keeps hk)).narrow (hp.keeps hk) |>.narrow ho
  exact h₄.results (fun c => by cases c <;> simp) ht

lemma Indexed.step (h : self.Indexed) (hash : HashOrder) (call : Call) :
    ∃ self', step hash self call = some self' ∧ self'.Indexed ∧
      self'.store = self.store ++ added [call] := by
  cases call with
  | add q => exact ⟨_,rfl,h.add q,add_store h.toSeparate q⟩
  | query given =>
    obtain ⟨answer,self',hq,-,hi,hs⟩ := h.query hash given
    exact ⟨self',by simp [QuadStore.step,hq],hi,by simp [hs,added]⟩

lemma run_indexed (hash : HashOrder) (calls : List Call) :
    ∃ self, Transition.run (step hash) empty calls = some self ∧ self.Indexed ∧
      self.store = added calls := by
  induction calls using reverseRecOn with
  | nil => exact ⟨empty,rfl,indexed_empty,rfl⟩
  | append_singleton calls call ih =>
    obtain ⟨self,hr,h,hs⟩ := ih
    obtain ⟨self',hst,h',hs'⟩ := h.step hash call
    refine ⟨self',by simp [Transition.run_snoc,hr,hst],h',?_⟩
    rw [hs',hs,added,added,added,filterMap_append]

theorem query_answers (hash : HashOrder) (calls : List Call) :
    ∃ self, Transition.run (step hash) empty calls = some self ∧
      (∀ given, ∃ answer self', self.query hash given = some (answer,self') ∧
        answer.Perm ((added calls).filter (·.meets given))) ∧
      ∀ g s p o, ∃ answer self', self.queryNodes hash g s p o = some (answer,self') ∧
        answer.Perm ((added calls).filter (·.meets (nodeStrings g s p o))) := by
  obtain ⟨self,hr,h,hs⟩ := run_indexed hash calls
  have hq (given) : ∃ answer self', self.query hash given = some (answer,self') ∧
      answer.Perm ((added calls).filter (·.meets given)) := by
    obtain ⟨answer,self',hq,hp,-⟩ := h.query hash given
    exact ⟨answer,self',hq,hs ▸ hp⟩
  exact ⟨self,hr,hq,fun g s p o => hq (nodeStrings g s p o)⟩

end QuadStore

end Aff4.Java
