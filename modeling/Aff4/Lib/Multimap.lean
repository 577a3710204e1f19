import Mathlib.Data.List.Nodup
import Mathlib.Data.List.TakeWhile

/-! A bounded multimap: items in the order in which they were put, and the same
items in the order in which they were last put or iterated. -/

structure Item (K V : Type) where
  id : Nat
  key : K
  value : V
  deriving DecidableEq, Repr

/-- `items` is in put order, `recent` has the least recently used item first. -/
@[ext]
structure Multimap (K V : Type) where
  items : List (Item K V)
  recent : List (Item K V)
  next : Nat
  distinct : (items.map Item.id).Nodup
  fresh : ∀ i ∈ items, i.id < next
  same : recent.Perm items

namespace Multimap

open List

variable {K V : Type}

def empty : Multimap K V := ⟨[],[],0,by simp,by simp,.refl _⟩

variable (m : Multimap K V)

include m in
lemma eq_of_id {i j : Item K V} (hi : i ∈ m.items) (hj : j ∈ m.items) (h : i.id = j.id) : i = j :=
  inj_on_of_nodup_map m.distinct hi hj h

include m in
lemma recent_distinct : (m.recent.map Item.id).Nodup :=
  (m.same.map Item.id).nodup_iff.mpr m.distinct

def restrict (m : Multimap K V) (p : Item K V → Bool) : Multimap K V where
  items := m.items.filter p
  recent := m.recent.filter p
  next := m.next
  distinct := m.distinct.sublist (filter_sublist.map _)
  fresh i h := m.fresh i (mem_of_mem_filter h)
  same := m.same.filter _

def remove (m : Multimap K V) (id : Nat) : Multimap K V := m.restrict fun i => i.id != id

def evict (m : Multimap K V) (n : Nat) : Multimap K V :=
  m.restrict fun i => (m.recent.take n).all fun j => j.id != i.id

def add (m : Multimap K V) (key : K) (value : V) : Multimap K V where
  items := m.items ++ [⟨m.next,key,value⟩]
  recent := m.recent ++ [⟨m.next,key,value⟩]
  next := m.next+1
  distinct := by
    rw [map_append,nodup_append]
    refine ⟨m.distinct,by simp,?_⟩
    intro a ha b hb
    obtain ⟨i,hi,rfl⟩ := mem_map.mp ha
    have := m.fresh i hi
    simp only [map_cons,map_nil,mem_singleton] at hb
    omega
  fresh i h := by
    rcases mem_append.mp h with h | h
    · have := m.fresh i h
      omega
    · rw [mem_singleton.mp h]
      exact Nat.lt_succ_self _
  same := m.same.append_right _

/-- How many items must go before a put so that fewer than `bound` remain; a
`bound` that is not positive sets no limit. -/
def excess (m : Multimap K V) (bound : Int) : Nat :=
  if 0 < bound then m.recent.length + 1 - bound.toNat else 0

def put (m : Multimap K V) (bound : Int) (key : K) (value : V) : Multimap K V :=
  (m.evict (m.excess bound)).add key value

def touch (m : Multimap K V) (id : Nat) : Multimap K V where
  items := m.items
  recent := (m.recent.filter fun j => j.id != id) ++ m.recent.filter fun j => j.id == id
  next := m.next
  distinct := m.distinct
  fresh := m.fresh
  same := by
    have hp := filter_append_perm (fun j : Item K V => j.id != id) m.recent
    simp only [bne,Bool.not_not] at hp
    exact hp.trans m.same

include m in
lemma restrict_restrict (p q : Item K V → Bool) :
    (m.restrict p).restrict q = m.restrict fun i => q i && p i := by
  ext1 <;> simp [restrict,filter_filter]

variable {i : Item K V}

variable {l : List (Item K V)}

lemma filter_id (hl : (l.map Item.id).Nodup)
    (hi : i ∈ l) : l.filter (fun j => j.id == i.id) = [i] := by
  induction l with
  | nil => simp at hi
  | cons j l ih =>
    simp only [map_cons,nodup_cons,mem_map,not_exists,not_and] at hl
    rcases mem_cons.mp hi with rfl | hi
    · have hn : l.filter (fun j => j.id == i.id) = [] := by simpa [filter_eq_nil_iff] using hl.1
      simp [hn]
    · have hne : ¬ j.id = i.id := fun h => hl.1 i hi h.symm
      simp [hne,ih hl.2 hi]

include m in
lemma touch_recent (h : i ∈ m.items) :
    (m.touch i.id).recent = (m.recent.filter fun j => j.id != i.id) ++ [i] := by
  have ho := filter_id m.recent_distinct (m.same.mem_iff.mpr h)
  exact congrArg (_ ++ ·) ho

include m in
lemma remove_length (h : i ∈ m.items) : (m.remove i.id).recent.length+1 = m.recent.length := by
  have ho := filter_id m.recent_distinct (m.same.mem_iff.mpr h)
  have hp := (filter_append_perm (fun j : Item K V => j.id != i.id) m.recent).length_eq
  simp only [bne,Bool.not_not,ho,length_append,length_singleton] at hp
  exact hp

lemma remove_recent {m : Multimap K V} {rest : List (Item K V)}
    (h : m.recent = i :: rest) : (m.remove i.id).recent = rest := by
  have hd := m.recent_distinct
  rw [h,map_cons,nodup_cons] at hd
  have hr : rest.filter (fun j => j.id != i.id) = rest := by
    refine filter_eq_self.mpr fun j hj => bne_iff_ne.mpr fun he => hd.1 ?_
    exact he ▸ mem_map_of_mem hj
  simp [remove,restrict,h,hr]

include m in
lemma evict_zero : m.evict 0 = m := by ext1 <;> simp [evict,restrict]

lemma evict_succ {m : Multimap K V} {rest : List (Item K V)}
    (h : m.recent = i :: rest) (n : Nat) : m.evict (n+1) = (m.remove i.id).evict n := by
  rw [evict,evict,remove_recent h,remove,restrict_restrict,h]
  congr 1
  funext j
  rw [take_succ_cons,all_cons,Bool.and_comm,bne_comm]

def lookup (m : Multimap K V) (id : Nat) : Option (Item K V) := m.items.find? fun i => i.id == id

def after (m : Multimap K V) (id : Nat) : List (Item K V) :=
  (m.items.dropWhile fun j => j.id != id).tail

include m in
lemma after_suffix (id : Nat) : m.after id <:+ m.items := (tail_suffix _).trans (dropWhile_suffix _)

lemma mem_of_lookup {m : Multimap K V} {id : Nat}
    (h : m.lookup id = some i) : i ∈ m.items ∧ i.id = id :=
  ⟨mem_of_find?_eq_some h,by simpa using find?_some h⟩

include m in
lemma find_recent (id : Nat) : m.recent.find? (fun i => i.id == id) = m.lookup id := by
  cases h : m.recent.find? (fun i => i.id == id) with
  | none =>
    refine (find?_eq_none.mpr fun i hi => ?_).symm
    exact find?_eq_none.mp h i (m.same.mem_iff.mpr hi)
  | some i =>
    have hi : i ∈ m.items := m.same.mem_iff.mp (mem_of_find?_eq_some h)
    have hid : i.id = id := by simpa using find?_some h
    cases hl : m.lookup id with
    | none => exact absurd hid (by simpa using find?_eq_none.mp hl i hi)
    | some j =>
      obtain ⟨hj,hjd⟩ := mem_of_lookup hl
      rw [m.eq_of_id hi hj (hid.trans hjd.symm)]

lemma after_filter {id : Nat} {p : Item K V → Bool} (h : ∀ j ∈ l, j.id = id → p j = true) :
    ((l.filter p).dropWhile fun j => j.id != id).tail =
      ((l.dropWhile fun j => j.id != id).tail).filter p := by
  induction l with
  | nil => rfl
  | cons j l ih =>
    have hl := ih fun k hk => h k (mem_cons_of_mem _ hk)
    by_cases hj : j.id = id
    · simp [h j mem_cons_self hj,hj]
    · by_cases hp : p j = true
      · simpa [hp,hj] using hl
      · simpa [hp,hj] using hl

include m in
lemma put_unbounded (key : K) (value : V) : m.put 0 key value = m.add key value := by
  rw [put,excess,if_neg (by omega),evict_zero]

include m in
/-- In any suffix of the items, the first item of a key is followed by those that
come after it. -/
lemma filter_suffix (hl : l <:+ m.items) {p : Item K V → Bool} (h : l.find? p = some i) :
    l.filter p = i :: (m.after i.id).filter p := by
  obtain ⟨hp,as,bs,rfl,has⟩ := find?_eq_some_iff_append.mp h
  obtain ⟨pre,hpr⟩ := hl
  have ha : m.after i.id = bs := by
    have hd := m.distinct
    rw [← hpr,← append_assoc,map_append,map_cons,nodup_middle,nodup_cons] at hd
    have hne : ∀ j ∈ pre ++ as, (j.id != i.id) = true := by
      intro j hj
      refine bne_iff_ne.mpr fun he => hd.1 ?_
      rw [← map_append,mem_map]
      exact ⟨j,by simp at hj ⊢; tauto,he⟩
    rw [after,← hpr,← append_assoc,dropWhile_append_of_pos hne]
    simp
  have hn : as.filter p = [] := filter_eq_nil_iff.mpr fun j hj => by simpa using has j hj
  rw [ha]
  simp [hn,hp]

include m in
lemma lookup_of_mem (h : i ∈ m.items) : m.lookup i.id = some i := by
  cases hl : m.lookup i.id with
  | none => simpa using find?_eq_none.mp hl i h
  | some j =>
    obtain ⟨hj,hid⟩ := mem_of_lookup hl
    rw [m.eq_of_id hj h hid]

section

variable [DecidableEq K]

def oldest (m : Multimap K V) (key : K) : Option (Item K V) := m.items.find? fun i => i.key = key

def younger (m : Multimap K V) (i : Item K V) : Option (Item K V) :=
  (m.after i.id).find? fun j => j.key = i.key

def values (m : Multimap K V) (key : K) : List V :=
  (m.items.filter fun i => i.key = key).map Item.value

def rest (m : Multimap K V) : Option Nat → Option (List V)
  | none => some []
  | some id => (m.lookup id).map fun i =>
      i.value :: ((m.after id).filter fun j => j.key = i.key).map Item.value

def purge (m : Multimap K V) (key : K) : Multimap K V := m.restrict fun i => i.key ≠ key

lemma oldest_eq_head (m : Multimap K V) (key : K) :
    (m.oldest key).map Item.value = (m.values key).head? := by
  rw [oldest,values,head?_map,head?_filter]

variable {m : Multimap K V}

variable {key : K}

variable {i : Item K V} (h : m.oldest key = some i)

include h in
lemma oldest_add_of_some (key' : K) (value : V) : (m.add key' value).oldest key = some i := by
  rw [oldest] at h
  rw [oldest,add,find?_append,h]
  rfl

lemma oldest_add_self (h : m.oldest key = none) (value : V) :
    (m.add key value).oldest key = some ⟨m.next,key,value⟩ := by
  rw [oldest] at h
  rw [oldest,add,find?_append,h]
  simp

lemma oldest_add_of_ne {key key' : K} (m : Multimap K V) (h : key ≠ key') (value : V) :
    (m.add key value).oldest key' = m.oldest key' := by simp [oldest,add,find?_append,h]

lemma values_add (m : Multimap K V) (key key' : K) (value : V) :
    (m.add key value).values key' = m.values key' ++ if key = key' then [value] else [] := by
  by_cases h : key = key' <;> simp [values,add,h]

lemma values_purge (m : Multimap K V) (key key' : K) :
    (m.purge key).values key' = if key = key' then [] else m.values key' := by
  by_cases h : key = key'
  · simp [values,purge,restrict,h]
  · have hne : ∀ i : Item K V, (decide (i.key = key') && decide (i.key ≠ key)) =
        decide (i.key = key') := by
      intro i
      by_cases hi : i.key = key'
      · simp [hi,Ne.symm h]
      · simp [hi]
    simp only [values,purge,restrict,filter_filter,hne,if_neg h]

lemma purge_of_oldest_none (h : m.oldest key = none) : m.purge key = m := by
  have hne : ∀ i ∈ m.items, i.key ≠ key := by simpa [oldest] using h
  ext1
  · exact filter_eq_self.mpr fun i hi => by simpa using hne i hi
  · refine filter_eq_self.mpr fun i hi => ?_
    simpa using hne i (m.same.mem_iff.mp hi)
  · rfl

include h in
lemma purge_remove : (m.remove i.id).purge key = m.purge key := by
  have hi := mem_of_find?_eq_some h
  have hk : i.key = key := by simpa using find?_some h
  have hd : ∀ j ∈ m.items, (decide (j.key ≠ key) && j.id != i.id) = decide (j.key ≠ key) := by
    intro j hj
    by_cases hid : j.id = i.id
    · simp [m.eq_of_id hj hi hid,hk]
    · simp [hid]
  rw [remove,purge,restrict_restrict,purge]
  ext1
  · exact filter_congr hd
  · exact filter_congr fun j hj => hd j (m.same.mem_iff.mp hj)
  · rfl

include h in
lemma values_remove_oldest (key' : K) :
    (m.remove i.id).values key' = if key = key' then (m.values key).tail else m.values key' := by
  obtain ⟨hk,as,bs,hitm,has⟩ := find?_eq_some_iff_append.mp h
  have hk : i.key = key := by simpa using hk
  have hd := m.distinct
  rw [hitm,map_append,map_cons,nodup_middle,nodup_cons,← map_append,mem_map] at hd
  have hr : m.items.filter (fun j => j.id != i.id) = as ++ bs := by
    rw [hitm,filter_append,filter_cons_of_neg (by simp),← filter_append]
    refine filter_eq_self.mpr fun j hj => bne_iff_ne.mpr fun hid => hd.1 ⟨j,hj,hid⟩
  have hn : as.filter (fun j => decide (j.key = key)) = [] :=
    filter_eq_nil_iff.mpr fun j hj => by simpa using has j hj
  simp only [values,remove,restrict,hr]
  split
  · next heq =>
    subst heq
    simp [hitm,hn,hk]
  · next hne =>
    have hi : ¬ i.key = key' := fun he => hne (hk.symm.trans he)
    simp [hitm,hi]

lemma rest_first (m : Multimap K V) {l : List (Item K V)} (hl : l <:+ m.items) (key : K) :
    m.rest ((l.find? fun i => i.key = key).map Item.id) =
      some ((l.filter fun i => i.key = key).map Item.value) := by
  cases h : l.find? fun i => i.key = key with
  | none =>
    have : l.filter (fun i => i.key = key) = [] := by simpa [filter_eq_nil_iff] using h
    simp [rest,this]
  | some i =>
    have hi : i ∈ m.items := hl.subset (mem_of_find?_eq_some h)
    have hk : i.key = key := by simpa using find?_some h
    simp [rest,m.lookup_of_mem hi,m.filter_suffix hl h,hk]

lemma rest_oldest (m : Multimap K V) (key : K) :
    m.rest ((m.oldest key).map Item.id) = some (m.values key) :=
  m.rest_first suffix_rfl key

lemma rest_younger {id : Nat} {i : Item K V} (h : m.lookup id = some i) :
    ∃ vs, m.rest ((m.younger i).map Item.id) = some vs ∧
      m.rest (some id) = some (i.value :: vs) := by
  obtain ⟨hi,rfl⟩ := mem_of_lookup h
  exact ⟨_,m.rest_first (m.after_suffix i.id) i.key,by simp [rest,h]⟩

lemma rest_length_le {c : Option Nat} {l : List V}
    (h : m.rest c = some l) : l.length ≤ m.recent.length := by
  rw [m.same.length_eq]
  cases c with
  | none =>
    rw [← Option.some.inj h]
    exact Nat.zero_le _
  | some id =>
    simp only [rest,Option.map_eq_some_iff] at h
    obtain ⟨i,hi,rfl⟩ := h
    obtain ⟨hm,rfl⟩ := mem_of_lookup hi
    have hne : m.items.dropWhile (fun j => j.id != i.id) ≠ [] := by
      intro hn
      have := dropWhile_eq_nil_iff.mp hn i hm
      simp at this
    have hle := (dropWhile_suffix (fun j : Item K V => j.id != i.id) (l := m.items)).length_le
    have hp := length_pos_of_ne_nil hne
    have hf := length_filter_le (fun j : Item K V => decide (j.key = i.key)) (m.after i.id)
    simp only [after,length_tail] at hf
    simp only [length_cons,length_map,after]
    omega

end

inductive Op (K V : Type) where
  | put (key : K) (value : V)
  | get (key : K)
  | borrow (key : K)
  | present (key : K)
  | iter (key : K)
  | next (cursor : Option Nat)
  deriving DecidableEq, Repr

inductive Out (V : Type) where
  | value (value : Option V)
  | found (present : Bool)
  | cursor (cursor : Option Nat)
  | item (value : Option V) (cursor : Option Nat)
  deriving DecidableEq, Repr

/-- The operations. A cursor names the item that the iteration gives next; it is
an error to use a cursor whose item is gone. -/
def step [DecidableEq K] (bound : Int) (m : Multimap K V) : Op K V → Option (Out V × Multimap K V)
  | .put key value => some (.cursor (some m.next),m.put bound key value)
  | .get key =>
      match m.oldest key with
      | none => some (.value none,m)
      | some i => some (.value (some i.value),m.remove i.id)
  | .borrow key => some (.value ((m.oldest key).map Item.value),m)
  | .present key => some (.found (m.oldest key).isSome,m)
  | .iter key => some (.cursor ((m.oldest key).map Item.id),m)
  | .next none => some (.item none none,m)
  | .next (some id) =>
      (m.lookup id).map fun i =>
        (.item (some i.value) ((m.younger i).map Item.id),m.touch id)

end Multimap
