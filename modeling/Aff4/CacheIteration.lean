import Aff4.Cache

/-! A whole iteration over the values of a key, `Cache_iter` and `Cache_next`, and what the lists,
the size and the heads of a cache have in common in every state. -/

namespace Aff4.Cache

open LittleEndian Transition List Option Multimap

variable {V : Type}

/-- The results of the calls of `Cache_next`, as long as the iterator is not NULL. -/
def iterateFrom : Nat → Cache V → Option Nat → Option (List (Option V) × Cache V)
  | _, self, none => some ([],self)
  | 0, _, some _ => none
  | fuel+1, self, some cursor => (self.next (some cursor)).bind fun r =>
      (iterateFrom fuel r.2 r.1.2).map fun s => (r.1.1 :: s.1,s.2)

/-- The same entries on the same hash lists; only the order of use may differ. -/
structure SameEntries (c t : Cache V) : Prop where
  hashTable : t.hashTable = c.hashTable
  cacheSize : t.cacheSize = c.cacheSize
  cacheList : t.cacheList.Perm c.cacheList

variable {c : Cache V} {id : Nat} {i : Item Bytes V} {key : Bytes} {op : Multimap.Op Bytes V}
  {out : Multimap.Out V}

lemma SameEntries.trans {t u : Cache V} (h : c.SameEntries t) (h' : t.SameEntries u) :
    c.SameEntries u :=
  ⟨h'.hashTable.trans h.hashTable,h'.cacheSize.trans h.cacheSize,h'.cacheList.trans h.cacheList⟩

/-- The iteration gives these values, one for each call of `Cache_next`, and leaves the entries
as they are. -/
def Iterates (self : Cache V) (key : Bytes) (values : List V) : Prop :=
  ∃ t, self.SameEntries t ∧ ∀ fuel, values.length ≤ fuel →
    (self.iter key).bind (iterateFrom fuel self) = some (values.map some,t)

variable {m : Multimap Bytes V} {width : Nat} {bound : Int}

variable {s : Cache V} (hr : s.Refines width bound m)

include hr in
lemma next_sameEntries {t : Cache V} (hl : m.lookup id = some i)
    {r : Option V × Option Nat} (h : s.next (some id) = some (r,t)) : s.SameEntries t := by
  rw [next_eq hr hl,map_eq_some_iff] at h
  obtain ⟨j,-,heq⟩ := h
  obtain rfl := (Prod.mk.inj heq).2
  refine ⟨rfl,rfl,?_⟩
  rw [hr.recency]
  exact ((m.touch id).same.trans m.same.symm).map _

lemma not_uncopied_after
    (hk : ¬ UncopiedIn width m.items key) (id : Nat) :
    ¬ UncopiedIn width (m.after id) key := by
  rintro ⟨hl,i,hi,hln⟩
  exact hk ⟨hl,i,((m.after_suffix id).sublist.filter _).subset hi,hln⟩

lemma find_key {l : List (Item Bytes V)} (hl : l <:+ m.items)
    (hid : id ∈ (l.find? fun i => i.key = key).map Item.id)
    (h : m.lookup id = some i) : i.key = key := by
  obtain ⟨first,hf,rfl⟩ := map_eq_some_iff.mp hid
  obtain ⟨hi,hs⟩ := mem_of_lookup h
  rw [m.eq_of_id hi (hl.subset (mem_of_find?_eq_some hf)) hs]
  simpa using find?_some hf

include hr in
lemma iterateFrom_rest {values : List V} {cursor : Option Nat}
    (hrs : m.rest cursor = some values)
    (hc : ∀ id ∈ cursor, ∀ i, m.lookup id = some i → i.key = key)
    (hky : ¬ UncopiedIn width m.items key) :
    ∃ t, s.SameEntries t ∧ ∀ fuel, values.length ≤ fuel →
      iterateFrom fuel s cursor = some (values.map some,t) := by
  induction values generalizing s m cursor with
  | nil =>
    cases cursor with
    | none => exact ⟨s,⟨rfl,rfl,.refl _⟩,fun fuel _ => by cases fuel <;> rfl⟩
    | some id => simp [rest] at hrs
  | cons value values ih =>
    cases cursor with
    | none => simp [rest] at hrs
    | some id =>
      obtain ⟨i,hl,-⟩ := map_eq_some_iff.mp hrs
      obtain rfl := hc id rfl i hl
      obtain ⟨t,hnx,hrt⟩ := next_refines hr hl (not_uncopied_after hky id)
      obtain ⟨vs,hy,hvs⟩ := rest_younger hl
      rw [hrs,some.injEq,cons.injEq] at hvs
      obtain ⟨rfl,rfl⟩ := hvs
      have hn : ∀ id ∈ (m.younger i).map Item.id, ∀ j, m.lookup id = some j →
          j.key = i.key := fun _ hj _ hk => find_key (m.after_suffix i.id) hj hk
      -- Touching an entry does not change the order of the puts.
      obtain ⟨u,hs,hu⟩ := ih hrt hy hn hky
      refine ⟨u,(next_sameEntries hr hl hnx).trans hs,fun fuel hf => ?_⟩
      obtain ⟨fuel,rfl⟩ : ∃ f, fuel = f+1 := Nat.exists_eq_succ_of_ne_zero (Nat.ne_zero_of_lt hf)
      rw [iterateFrom,hnx,bind_some,hu fuel (by simpa using hf)]
      rfl

include hr in
lemma iterates_refines_iff (key : Bytes) : s.Iterates key (m.values key) ↔
      ¬ UncopiedIn width m.items key := by
  constructor
  · rintro ⟨t,-,ht⟩ hb
    have hi : s.iter key = none := by simp [iter_eq hr,find_uncopied hr hb]
    have := ht _ (le_refl _)
    rw [hi] at this
    cases this
  · intro hk
    have hf : ∀ id ∈ (m.oldest key).map Item.id, ∀ i, m.lookup id = some i → i.key = key :=
      fun _ hid _ hl => find_key suffix_rfl hid hl
    obtain ⟨t,hs,ht⟩ := iterateFrom_rest hr (m.rest_oldest key) hf hk
    refine ⟨t,hs,fun fuel hfu => ?_⟩
    rw [iter_refines hr hk,bind_some]
    exact ht fuel hfu

include hr in
lemma step_related {t : Cache V} (h : s.step op = some (out,t)) :
    ∃ m', m.step bound op = some (out,m') ∧ t.Refines width bound m' := by
  cases hm : m.step bound op with
  | none =>
    -- Only a cursor whose item is gone has no result.
    cases op with
    | put key value => cases hm
    | get key =>
      simp only [Multimap.step] at hm
      split at hm <;> cases hm
    | borrow key => cases hm
    | present key => cases hm
    | iter key => cases hm
    | next cursor =>
      cases cursor with
      | none => cases hm
      | some id =>
        have hl : m.lookup id = none := map_eq_none_iff.mp hm
        have hf : s.cacheList.find? (fun e => e.address == id) = none := by
          have hc : (fun e : CacheEntry V => e.address == id) ∘ entryOf width =
              fun j : Item Bytes V => j.id == id := rfl
          rw [hr.recency,find?_map,hc,m.find_recent,hl]
          rfl
        simp [step,next,hf] at h
  | some r =>
    obtain ⟨out',m'⟩ := r
    by_cases hb : Faults width m op
    · rw [step_faults s m op out' m' hr hm hb] at h
      cases h
    · obtain ⟨t',ht',hrt⟩ := step_refines s m op out' m' hr hm hb
      rw [h,some.injEq,Prod.mk.injEq] at ht'
      obtain ⟨rfl,rfl⟩ := ht'
      exact ⟨m',rfl,hrt⟩

include hr in
lemma trace_refines {ops : List (Multimap.Op Bytes V)}
    {outs : List (Multimap.Out V)} (h : trace step s ops = some (outs,c)) :
    ∃ m', trace (Multimap.step bound) m ops = some (outs,m') ∧ c.Refines width bound m' := by
  induction ops generalizing s m outs with
  | nil =>
    obtain ⟨rfl,rfl⟩ := h
    exact ⟨m,rfl,hr⟩
  | cons op ops ih =>
    obtain ⟨out,t,outs',hs,hrs,rfl⟩ := trace_cons h
    obtain ⟨m₁,hm₁,hr₁⟩ := step_related hr hs
    obtain ⟨m',hm',hr'⟩ := ih hr₁ hrs
    exact ⟨m',by simp [trace,hm₁,hm'],hr'⟩

/-- For every cache and key, an iteration returns the values put under the key that are still there,
in the order of the puts, unless it comes to an entry whose key was not copied. -/
theorem iterates_iff {width : Nat} {bound : Int} {ops : List (Multimap.Op Bytes V)}
    {outs : List (Multimap.Out V)} {c : Cache V}
    (h : trace step (con width bound) ops = some (outs,c)) (key : Bytes) :
    ∃ m, trace (Multimap.step bound) .empty ops = some (outs,m) ∧
      (c.Iterates key (m.values key) ↔
        ¬ UncopiedIn width m.items key) := by
  obtain ⟨m,hm,hr⟩ := trace_refines (con_refines width bound) h
  exact ⟨m,hm,iterates_refines_iff hr key⟩

theorem iterates_two_keys :
    ∃ outs, ∃ c : Cache Nat, trace step (con 1 0) [.put [97] 1,.put [98] 2,.put [97] 3] =
      some (outs,c) ∧ c.Iterates [97] [1,3] := by
  obtain ⟨outs,c,h⟩ : ∃ outs c, trace step (con 1 0 : Cache Nat)
      [.put [97] 1,.put [98] 2,.put [97] 3] = some (outs,c) := ⟨_,_,rfl⟩
  obtain ⟨m,hm,hi⟩ := iterates_iff h [97]
  have hv : (trace (Multimap.step 0) (.empty : Multimap Bytes Nat)
      [.put [97] 1,.put [98] 2,.put [97] 3]).map (fun r => r.2.values [97]) = some [1,3] := rfl
  rw [hm,map_some,some.injEq] at hv
  refine ⟨outs,c,h,hv ▸ hi.mpr ?_⟩
  rintro ⟨hl,-⟩
  exact absurd hl (by decide)

/-- A key of `2^28` bytes is not copied, and the iteration compares with the NULL pointer. -/
theorem iterates_long_key_fails :
    ¬ ∀ key outs (c : Cache Nat), trace step (con 1 0) [.put key 1] = some (outs,c) →
      c.Iterates key [1] := by
  intro h
  have hl : (replicate maxTallocSize (0 : UInt8)).length = maxTallocSize := length_replicate
  generalize replicate maxTallocSize (0 : UInt8) = key at hl
  obtain ⟨t,ht,hr⟩ := put_refines (con_refines 1 0) (by decide) key (1 : Nat)
  have htr : trace step (con 1 0) [.put key 1] = some ([.cursor (some 0)],t) := by
    rw [trace,step,ht]
    rfl
  have hv : ((empty : Multimap Bytes Nat).put 0 key 1).values key = [1] := by
    simp [put_unbounded,values,Multimap.add,empty]
  have hi := h key _ t htr
  rw [← hv] at hi
  refine (iterates_refines_iff hr key).mp hi ⟨Nat.le_of_eq hl.symm,⟨0,key,1⟩,?_,rfl⟩
  simp [put_unbounded,Multimap.add,empty,bucket]

structure Consistent (self : Cache V) : Prop where
  size : self.cacheSize = self.cacheList.length
  distinct : (self.cacheList.map CacheEntry.address).Nodup
  once : ∀ h, ((self.hashList h).map CacheEntry.address).Nodup
  partition : ∀ e, e ∈ self.cacheList ↔ e ∈ self.hashList e.slot
  slot : ∀ h, ∀ e ∈ self.hashList h, h = e.slot ∧ ∀ key, e.key = some key → e.slot = self.hash key
  heads : ∀ h, (∀ head ∈ self.hashHead h, head.cacheHead = false) ∧
    ∀ e ∈ self.hashList h, e.cacheHead = true
  bound : 0 < self.maxCacheSize → self.cacheSize ≤ self.maxCacheSize
  expires : ∃ t, self.expire (self.cacheList.length+1) = some t

variable {m : Multimap Bytes V} {s t : Cache V} {width : Nat} {bound : Int}

def Bounded (self : Cache V) : Prop := 0 < self.maxCacheSize → self.cacheSize ≤ self.maxCacheSize

lemma Refines.consistent (hr : s.Refines width bound m) (hb : s.Bounded) : s.Consistent where
  size := by simp [hr.size,hr.recency]
  distinct := by simpa [hr.recency,entryOf,Function.comp_def] using m.recent_distinct
  once h := by
    have hs : (bucket width m.items h).Sublist m.items := List.filter_sublist
    simpa [hr.buckets,entryOf,Function.comp_def] using m.distinct.sublist (hs.map _)
  partition e := by
    simp only [hr.recency,hr.buckets,bucket,List.mem_map,List.mem_filter,m.same.mem_iff]
    refine exists_congr fun i => ?_
    constructor
    · rintro ⟨hi,rfl⟩
      exact ⟨⟨hi,by simp [entryOf]⟩,rfl⟩
    · rintro ⟨⟨hi,-⟩,he⟩
      exact ⟨hi,he⟩
  slot h e he := by
    simp only [hr.buckets,bucket,List.mem_map,List.mem_filter,beq_iff_eq] at he
    obtain ⟨i,⟨-,rfl⟩,rfl⟩ := he
    refine ⟨rfl,fun key hk => ?_⟩
    obtain rfl := eq_of_tallocMemdup hk
    rw [hash,hr.width]
    rfl
  heads h := ⟨hr.heads h,by simp [hr.buckets,entryOf]⟩
  bound := hb
  expires := by
    obtain ⟨t,ht,-⟩ := expire_refines (s.cacheList.length+1) hr (by simp [hr.recency])
    exact ⟨t,ht⟩

lemma expire_bound {fuel : Nat} (h : s.expire fuel = some t) (hp : 0 < t.maxCacheSize) :
    t.cacheSize < t.maxCacheSize := by
  induction fuel generalizing s with
  | zero => cases h
  | succ fuel ih =>
    rw [expire] at h
    split at h
    · split at h
      · cases h
      · exact ih h
    · cases h
      omega

lemma step_bounded (hb : s.Bounded) (h : s.step op = some (out,t)) : t.Bounded := by
  cases op with
  | put key data =>
    obtain ⟨r,hpt,heq⟩ := map_eq_some_iff.mp h
    obtain ⟨u,hu,hpt⟩ := bind_eq_some_iff.mp hpt
    obtain ⟨table,-,rfl⟩ := map_eq_some_iff.mp hpt
    obtain rfl := (Prod.mk.inj heq).2
    intro hp
    have := expire_bound hu hp
    simp only [link]
    omega
  | get key =>
    obtain ⟨r,hg,heq⟩ := map_eq_some_iff.mp h
    obtain ⟨i,-,rfl⟩ := map_eq_some_iff.mp hg
    obtain rfl := (Prod.mk.inj heq).2
    cases i with
    | none => exact hb
    | some i =>
      intro hp
      have := hb hp
      simp only [free]
      omega
  | borrow key | present key | iter key =>
    obtain ⟨r,-,heq⟩ := map_eq_some_iff.mp h
    exact (Prod.mk.inj heq).2 ▸ hb
  | next cursor =>
    obtain ⟨r,hn,heq⟩ := map_eq_some_iff.mp h
    obtain rfl := (Prod.mk.inj heq).2
    cases cursor with
    | none =>
      cases hn
      exact hb
    | some address =>
      obtain ⟨iter,-,hn⟩ := bind_eq_some_iff.mp hn
      split at hn
      · cases hn
      · obtain ⟨i,-,rfl⟩ := map_eq_some_iff.mp hn
        exact hb

/-- In every state that a cache comes to, its size, its lists and its heads agree. -/
theorem trace_consistent {width : Nat} {bound : Int} {ops : List (Multimap.Op Bytes V)}
    {outs : List (Multimap.Out V)} {c : Cache V}
    (h : trace step (con width bound) ops = some (outs,c)) : c.Consistent := by
  have hi : (∃ m, c.Refines width bound m) ∧ c.Bounded := by
    refine trace_invariant (I := fun c : Cache V => (∃ m, c.Refines width bound m) ∧ c.Bounded)
      (fun s op out u hs hst => ?_) ⟨⟨_,con_refines width bound⟩,le_of_lt⟩ h
    obtain ⟨⟨m,hr⟩,hb⟩ := hs
    obtain ⟨m',-,hr'⟩ := step_related hr hst
    exact ⟨⟨m',hr'⟩,step_bounded hb hst⟩
  obtain ⟨⟨m,hr⟩,hb⟩ := hi
  exact hr.consistent hb

theorem trace_consistent_three_puts : ∃ outs, ∃ c : Cache Nat, trace step (con 2 2)
    [.put [97] 1,.put [98] 2,.put [99] 3,.next (some 1)] = some (outs,c) ∧ c.Consistent := by
  obtain ⟨outs,c,h⟩ : ∃ outs c, trace step (con 2 2 : Cache Nat)
      [.put [97] 1,.put [98] 2,.put [99] 3,.next (some 1)] = some (outs,c) := ⟨_,_,rfl⟩
  exact ⟨outs,c,h,trace_consistent h⟩

end Aff4.Cache
