import Aff4.Memory
import Aff4.Lib.Multimap
import Aff4.Lib.Transition

/-! The cache of aff4_utils.c: a hash table of lists, and one list of all
entries from which `Cache_put` expires the oldest ones. -/

namespace Aff4

open LittleEndian List Option Multimap

/-- A `Cache` object that is linked into the lists of another one. The pointer to it is `address`;
`slot` is the bucket on whose `hash_list` it stands. `cacheHead` is whether `cache_head` is set;
it is never set to anything but the cache. -/
structure CacheEntry (V : Type) where
  address : Nat
  cacheHead : Bool
  key : Option Bytes
  keyLen : Nat
  slot : Nat
  data : V
  deriving DecidableEq, Repr

/-- The `Cache` object of a bucket, as `Cache_Con` leaves it, with the entries of its list. -/
structure HashHead (V : Type) where
  cacheHead : Bool := false
  hashList : List (CacheEntry V) := []

/-- A bucket is NULL until an entry is put into it. `brk` is the address that the
next entry will have. -/
structure Cache (V : Type) where
  hashTableWidth : Nat
  maxCacheSize : Int
  cacheSize : Int
  hashTable : Option (Nat → Option (HashHead V))
  cacheList : List (CacheEntry V)
  brk : Nat

def cacheHash (hashTableWidth : Nat) (key : Bytes) : Nat :=
  key.foldl (fun result b => result ^^^ b.toNat) 0 % hashTableWidth

namespace CacheEntry

variable {V : Type}

/-- Whether `memcmp` of the two keys gives 0. A NULL key has no result. -/
def cmp (self : CacheEntry V) (other : Option Bytes) (len : Nat) : Option Bool :=
  match self.key, other with
  | some key, some other => some (key.take len == other.take len)
  | _, _ => none

end CacheEntry

namespace Cache

variable {V : Type}

def con (hashTableWidth : Nat) (maxCacheSize : Int) : Cache V :=
  ⟨hashTableWidth,maxCacheSize,0,none,[],0⟩

def hash (self : Cache V) (key : Bytes) : Nat := cacheHash self.hashTableWidth key

def hashHead (self : Cache V) (h : Nat) : Option (HashHead V) :=
  self.hashTable.bind fun table => table h

def hashList (self : Cache V) (h : Nat) : List (CacheEntry V) :=
  ((self.hashHead h).map HashHead.hashList).getD []

/-- `Cache_destructor`: the entry leaves both lists. -/
def free (self : Cache V) (i : CacheEntry V) : Cache V :=
  {self with
    cacheSize := if i.cacheHead then self.cacheSize - 1 else self.cacheSize
    hashTable := self.hashTable.map fun table h => (table h).map fun head =>
      {head with hashList := head.hashList.filter fun e => e.address != i.address}
    cacheList := self.cacheList.filter fun e => e.address != i.address}

/-- The loop at the head of `Cache_put`. Each turn shortens the list, and with an empty list it
never ends, so `fuel` above the length is enough. -/
def expire : Nat → Cache V → Option (Cache V)
  | 0, _ => none
  | fuel+1, self =>
      if 0 < self.maxCacheSize ∧ self.maxCacheSize ≤ self.cacheSize then
        match self.cacheList with
        | [] => none
        | i :: _ => expire fuel (self.free i)
      else some self

/-- The table is allocated by the first `Cache_put`, of `sizeof(Cache)` pointers. -/
def allocTable (self : Cache V) : Option (Nat → Option (HashHead V)) :=
  match self.hashTable with
  | some table => some table
  | none => if tallocArray pointerSize self.hashTableWidth then some fun _ => none else none

/-- The part of `Cache_put` that makes the new entry, and the head of its bucket if there is none,
and links it. -/
def link (self : Cache V) (table : Nat → Option (HashHead V)) (key : Bytes) (data : V) : Cache V :=
  let hash := self.hash key
  let newCache : CacheEntry V := ⟨self.brk,true,tallocMemdup key,key.length,hash,data⟩
  {self with
    hashTable := some fun h =>
      if h = hash then
        let head := (table h).getD {}
        some {head with hashList := head.hashList ++ [newCache]}
      else table h
    cacheList := self.cacheList ++ [newCache]
    cacheSize := self.cacheSize + 1
    brk := self.brk + 1}

def put (self : Cache V) (key : Bytes) (data : V) : Option (Nat × Cache V) :=
  (self.expire (self.cacheList.length+1)).bind fun self =>
    -- a NULL table is used without a test
    self.allocTable.map fun table => (self.brk,self.link table key data)

/-- The loop that `get`, `borrow`, `present`, `iter` and `next` have in common: the first entry
whose key has the length and the bytes. The last two stop at an object without `cache_head`. -/
def scan (key : Option Bytes) (len : Nat) : List (CacheEntry V) → Option (Option (CacheEntry V))
  | [] => some none
  | i :: rest =>
      if i.keyLen = len then
        (i.cmp key len).bind fun same => if same then some (some i) else scan key len rest
      else scan key len rest

def find (self : Cache V) (key : Bytes) : Option (Option (CacheEntry V)) :=
  scan (some key) key.length (self.hashList (self.hash key))

def get (self : Cache V) (key : Bytes) : Option (Option V × Cache V) :=
  (self.find key).map fun
    | none => (none,self)
    | some i => (some i.data,self.free i)

def borrow (self : Cache V) (key : Bytes) : Option (Option V) :=
  (self.find key).map fun i => i.map CacheEntry.data

def present (self : Cache V) (key : Bytes) : Option Bool := (self.find key).map isSome

def iter (self : Cache V) (key : Bytes) : Option (Option Nat) :=
  (scan (some key) key.length ((self.hashList (self.hash key)).takeWhile CacheEntry.cacheHead)).map
    fun i => i.map CacheEntry.address

def following (self : Cache V) (i : CacheEntry V) : List (CacheEntry V) :=
  ((self.hashList i.slot).dropWhile fun e => e.address != i.address).tail

/-- There is no result for a pointer to an entry that has been freed. The search comes to the head
of the bucket, which has no `cache_head`; what follows one that has is left out. -/
def next (self : Cache V) : Option Nat → Option ((Option V × Option Nat) × Cache V)
  | none => some ((none,none),self)
  | some address =>
      (self.cacheList.find? fun e => e.address == address).bind fun iter =>
        if (self.hashHead iter.slot).any HashHead.cacheHead then none
        else
          (scan iter.key iter.keyLen ((self.following iter).takeWhile CacheEntry.cacheHead)).map
            fun i => ((some iter.data,i.map CacheEntry.address),
              {self with cacheList :=
                (self.cacheList.filter fun e => e.address != address) ++ [iter]})

open Multimap in
def step (self : Cache V) : Op Bytes V → Option (Out V × Cache V)
  | .put key data => (self.put key data).map fun r => (.cursor (some r.1),r.2)
  | .get key => (self.get key).map fun r => (.value r.1,r.2)
  | .borrow key => (self.borrow key).map fun r => (.value r,self)
  | .present key => (self.present key).map fun r => (.found r,self)
  | .iter key => (self.iter key).map fun r => (.cursor r,self)
  | .next cursor => (self.next cursor).map fun r => (.item r.1.1 r.1.2,r.2)

def entryOf (width : Nat) (i : Item Bytes V) : CacheEntry V :=
  ⟨i.id,true,tallocMemdup i.key,i.key.length,cacheHash width i.key,i.value⟩

def bucket (width : Nat) (l : List (Item Bytes V)) (h : Nat) : List (Item Bytes V) :=
  l.filter fun i => cacheHash width i.key == h

/-- The cache holds the items of the multimap: each bucket in put order, the list
of all entries in order of use. -/
structure Refines (w : Nat) (b : Int) (c : Cache V) (m : Multimap Bytes V) : Prop where
  width : c.hashTableWidth = w
  bound : c.maxCacheSize = b
  size : c.cacheSize = m.recent.length
  brk : c.brk = m.next
  recency : c.cacheList = m.recent.map (entryOf w)
  buckets : ∀ h, c.hashList h = (bucket w m.items h).map (entryOf w)
  heads : ∀ h, ∀ head ∈ c.hashHead h, head.cacheHead = false
  small : c.hashTable.isSome → w < 2^25

lemma con_refines (width : Nat) (bound : Int) :
    (con width bound : Cache V).Refines width bound .empty where
  width := rfl
  bound := rfl
  size := rfl
  brk := rfl
  recency := rfl
  buckets _ := rfl
  heads _ _ h := by cases h
  small h := by simp [con] at h

/-- Some entry of the list has a key as long as this one, and the key is too long
for talloc to have copied it. -/
def Uncopied (key : Bytes) (l : List (Item Bytes V)) : Prop :=
  maxTallocSize ≤ key.length ∧ ∃ i ∈ l, i.key.length = key.length

/-- A look-up of the key passes such an entry. -/
abbrev UncopiedIn (width : Nat) (items : List (Item Bytes V)) (key : Bytes) : Prop :=
  Uncopied key (bucket width items (cacheHash width key))

variable {key : Bytes}

variable {l : List (Item Bytes V)} {table : Nat → Option (HashHead V)}

lemma scan_entries (width : Nat) {other : Option Bytes}
    (ho : key.length < maxTallocSize → other = some key)
    (hl : ¬ Uncopied key l) : scan other key.length (l.map (entryOf width)) =
      some ((l.find? fun i => i.key = key).map (entryOf width)) := by
  induction l with
  | nil => rfl
  | cons i l ih =>
    have hrs : ¬ Uncopied key l := by
      rintro ⟨hk,j,hj,hln⟩
      exact hl ⟨hk,j,mem_cons_of_mem _ hj,hln⟩
    by_cases hln : i.key.length = key.length
    · have hk : key.length < maxTallocSize := by
        by_contra hge
        exact hl ⟨Nat.not_lt.mp hge,i,mem_cons_self,hln⟩
      have hc := tallocMemdup_eq_some (hln.symm ▸ hk : i.key.length < maxTallocSize)
      by_cases heq : i.key = key
      · rw [heq] at hc
        simp [scan,entryOf,CacheEntry.cmp,ho hk,hc,heq]
      · have ht : i.key.take key.length = i.key := by rw [← hln,take_length]
        have hs := ih hrs
        simpa [scan,entryOf,CacheEntry.cmp,ho hk,hc,hln,ht,heq] using hs
    · have heq : ¬ i.key = key := fun h => hln (h ▸ rfl)
      simpa [scan,entryOf,hln,heq] using ih hrs

lemma scan_uncopied (width : Nat) (other : Option Bytes) (hl : Uncopied key l) :
    scan other key.length (l.map (entryOf width)) = none := by
  obtain ⟨hk,i,hi,hln⟩ := hl
  induction l with
  | nil => simp at hi
  | cons j l ih =>
    by_cases hj : j.key.length = key.length
    · have hn : tallocMemdup j.key = none := tallocMemdup_eq_none (hj ▸ hk)
      simp [scan,entryOf,hj,CacheEntry.cmp,hn]
    · rcases mem_cons.mp hi with rfl | hi
      · exact absurd hln hj
      · simpa [scan,entryOf,hj] using ih hi

lemma find_bucket (width : Nat) (l : List (Item Bytes V)) (key : Bytes) :
    (bucket width l (cacheHash width key)).find? (fun i => i.key = key) =
      l.find? fun i => i.key = key := by
  rw [bucket,find?_filter]
  congr 1
  funext i
  by_cases h : i.key = key <;> simp [h]

variable {m : Multimap Bytes V} {s : Cache V} {width : Nat} {bound : Int}

variable (hr : s.Refines width bound m)

lemma takeWhile_entries (width : Nat) (l : List (Item Bytes V)) :
    (l.map (entryOf width)).takeWhile CacheEntry.cacheHead = l.map (entryOf width) := by
  simp [takeWhile_eq_self_iff,entryOf]

include hr in
lemma find_refines (hky : ¬ UncopiedIn width m.items key) :
    s.find key = some ((m.oldest key).map (entryOf width)) := by
  have hs := scan_entries width (show _ → some key = some key from fun _ => rfl) hky
  rw [find,hash,hr.width,hr.buckets,hs,find_bucket,oldest]

include hr in
lemma find_uncopied (hky : UncopiedIn width m.items key) :
    s.find key = none := by
  rw [find,hash,hr.width,hr.buckets,scan_uncopied width _ hky]

include hr in
lemma iter_eq (key : Bytes) : s.iter key = (s.find key).map fun i => i.map CacheEntry.address := by
  rw [iter,find,hash,hr.width,hr.buckets,takeWhile_entries]

lemma filter_entries (width : Nat) (id : Nat) (l : List (Item Bytes V)) :
    (l.map (entryOf width)).filter (fun e => e.address != id) =
      (l.filter fun i => i.id != id).map (entryOf width) := by
  rw [List.filter_map]
  rfl

variable {i : Item Bytes V}

lemma free_hashHead (s : Cache V) (e : CacheEntry V) (h : Nat) :
    (s.free e).hashHead h = (s.hashHead h).map fun head =>
      {head with hashList := head.hashList.filter fun d => d.address != e.address} := by
  simp only [hashHead,free]
  cases s.hashTable <;> rfl

lemma free_hashList (s : Cache V) (e : CacheEntry V) (h : Nat) :
    (s.free e).hashList h = (s.hashList h).filter fun d => d.address != e.address := by
  rw [hashList,hashList,free_hashHead]
  cases s.hashHead h <;> rfl

include hr in
lemma free_refines (hi : i ∈ m.items) :
    (s.free (entryOf width i)).Refines width bound (m.remove i.id) where
  width := hr.width
  bound := hr.bound
  size := by
    have hl := m.remove_length hi
    simp only [free,entryOf,if_true,hr.size]
    omega
  brk := hr.brk
  recency := by
    simp only [free,hr.recency]
    exact filter_entries width i.id m.recent
  buckets h := by
    have hc : bucket width (m.remove i.id).items h =
        (bucket width m.items h).filter fun j => j.id != i.id := by
      simp only [bucket,remove,restrict,List.filter_filter,Bool.and_comm]
    rw [hc,← filter_entries,← hr.buckets,free_hashList]
    rfl
  heads h head hh := by
    obtain ⟨head,hold,rfl⟩ := map_eq_some_iff.mp ((free_hashHead s _ h).symm.trans hh)
    exact hr.heads h head hold
  small h := hr.small (by simpa [free] using h)

/-- The loop of `Cache_put` ends, and has dropped the least recently used items
until fewer than `max_cache_size` are left. -/
lemma expire_refines (fuel : Nat) (hr : s.Refines width bound m) (hf : m.recent.length < fuel) :
    ∃ t, expire fuel s = some t ∧ t.Refines width bound (m.evict (m.excess bound)) := by
  induction fuel generalizing s m with
  | zero => omega
  | succ fuel ih =>
    by_cases hfu : 0 < bound ∧ bound ≤ m.recent.length
    · cases hrc : m.recent with
      | nil =>
        simp only [hrc,length_nil] at hfu
        omega
      | cons i rest =>
        have hi : i ∈ m.items := m.same.mem_iff.mp (by simp [hrc])
        have hrs := remove_recent hrc
        have he : m.excess bound = (m.remove i.id).excess bound+1 := by
          simp only [excess,hfu.1,if_true,hrs,hrc,length_cons] at hfu ⊢
          omega
        obtain ⟨t,ht,hrt⟩ := ih (free_refines hr hi) (by simp [hrs,hrc] at hf ⊢; omega)
        refine ⟨t,?_,?_⟩
        · rw [expire,hr.bound,hr.size,if_pos hfu,hr.recency,hrc]
          exact ht
        · rw [he,evict_succ hrc]
          exact hrt
    · have he : m.excess bound = 0 := by
        simp only [excess]
        split
        · omega
        · rfl
      refine ⟨s,?_,by rwa [he,evict_zero]⟩
      simp [expire,hr.bound,hr.size,hfu]

lemma allocTable_hashHead (h : s.allocTable = some table) (k : Nat) : table k = s.hashHead k := by
  rw [allocTable] at h
  cases ht : s.hashTable with
  | none =>
    simp only [ht] at h
    split at h <;> cases h
    simp [hashHead,ht]
  | some t =>
    simp only [ht,some.injEq] at h
    simp [hashHead,ht,h]

include hr in
lemma allocTable_refines (hw : width < 2^25) : ∃ table, s.allocTable = some table := by
  cases ht : s.hashTable with
  | none =>
    simp only [allocTable,ht,hr.width,tallocArray_pointers,decide_eq_true hw,if_true]
    exact ⟨_,rfl⟩
  | some table => exact ⟨table,by simp [allocTable,ht]⟩

lemma bucket_add (width : Nat) (m : Multimap Bytes V) (key : Bytes) (value : V) (h : Nat) :
    bucket width (m.add key value).items h =
      if h = cacheHash width key then bucket width m.items h ++ [⟨m.next,key,value⟩]
      else bucket width m.items h := by
  by_cases hh : h = cacheHash width key
  · simp [bucket,add,hh]
  · have hne : ¬ cacheHash width key = h := fun e => hh e.symm
    simp [bucket,add,hh,hne]

include hr in
lemma link_refines (hw : width < 2^25) (htb : s.allocTable = some table) (key : Bytes)
    (data : V) : (s.link table key data).Refines width bound (m.add key data) where
  width := hr.width
  bound := hr.bound
  size := by simp [link,add,hr.size]
  brk := by simp [link,add,hr.brk]
  recency := by simp [link,add,hr.recency,entryOf,hash,hr.width,hr.brk]
  buckets h := by
    have hold := hr.buckets h
    rw [hashList,← allocTable_hashHead htb] at hold
    rw [bucket_add]
    by_cases hh : h = cacheHash width key
    · simp only [if_pos hh,map_append,← hold]
      cases ht : table h <;> simp [hashList,hashHead,link,hash,hr.width,← hh,ht,entryOf,hr.brk]
    · simp only [if_neg hh,← hold]
      simp [hashList,hashHead,link,hash,hr.width,hh]
  heads h head hhd := by
    have hold := hr.heads h
    rw [← allocTable_hashHead htb] at hold
    by_cases hh : h = s.hash key
    · obtain rfl : _ = head := by simpa [hashHead,link,hh] using hhd
      cases ht : table h with
      | none => rw [← hh,ht]; rfl
      | some old => rw [← hh,ht]; exact hold old ht
    · exact hold head (by simpa [hashHead,link,hh] using hhd)
  small _ := hw

section

variable (hr : s.Refines width bound m)
include hr

lemma put_refines (hw : width < 2^25) (key : Bytes) (data : V) :
    ∃ t, s.put key data = some (m.next,t) ∧ t.Refines width bound (m.put bound key data) := by
  obtain ⟨u,hu,hru⟩ := expire_refines (s.cacheList.length+1) hr (by simp [hr.recency])
  obtain ⟨table,ht⟩ := allocTable_refines hru hw
  have hb : u.brk = m.next := hru.brk
  exact ⟨u.link table key data,by simp [put,hu,ht,hb],link_refines hru hw ht key data⟩

lemma put_wide (hw : 2^25 ≤ width) (key : Bytes) (data : V) : s.put key data = none := by
  obtain ⟨u,hu,hru⟩ := expire_refines (s.cacheList.length+1) hr (by simp [hr.recency])
  have ht : u.hashTable = none := by
    by_contra hne
    have := hru.small (isSome_iff_ne_none.mpr hne)
    omega
  have ha : u.allocTable = none := by
    have hn : ¬ width < 2^25 := Nat.not_lt.mpr hw
    simp only [allocTable,ht,hru.width,tallocArray_pointers,decide_eq_false hn]
    rfl
  simp [put,hu,ha]

lemma following_refines (hi : i ∈ m.items) : s.following (entryOf width i) =
      (bucket width (m.after i.id) (cacheHash width i.key)).map (entryOf width) := by
  have hs : ∀ j ∈ m.items, j.id = i.id →
      (cacheHash width j.key == cacheHash width i.key) = true := by
    intro j hj hid
    simp [m.eq_of_id hj hi hid]
  have hc : (fun e : CacheEntry V => e.address != i.id) ∘ entryOf width =
      fun j : Item Bytes V => j.id != i.id := rfl
  simp only [following,entryOf,hr.buckets]
  rw [dropWhile_map,hc,← map_tail,bucket,after_filter hs]
  rfl

lemma next_eq {id : Nat} (hl : m.lookup id = some i) : s.next (some id) =
      (scan (tallocMemdup i.key) i.key.length
        ((bucket width (m.after id) (cacheHash width i.key)).map (entryOf width))).map fun j =>
          ((some i.value,j.map CacheEntry.address),
            {s with cacheList := (m.touch id).recent.map (entryOf width)}) := by
  obtain ⟨hi,rfl⟩ := mem_of_lookup hl
  have hf : s.cacheList.find? (fun e => e.address == i.id) = some (entryOf width i) := by
    have hc : (fun e : CacheEntry V => e.address == i.id) ∘ entryOf width =
        fun j : Item Bytes V => j.id == i.id := rfl
    rw [hr.recency,find?_map,hc,m.find_recent,hl]
    rfl
  have hls : (s.cacheList.filter fun e => e.address != i.id) ++ [entryOf width i] =
      (m.touch i.id).recent.map (entryOf width) := by
    rw [hr.recency,filter_entries,m.touch_recent hi,map_append]
    rfl
  have hh : ¬ (s.hashHead (entryOf width i).slot).any HashHead.cacheHead = true := by
    simpa [Option.any_eq_true] using hr.heads _
  simp only [next,hf,bind_some,if_neg hh,following_refines hr hi,takeWhile_entries,hls]
  rfl

lemma touch_refines (id : Nat) :
    {s with cacheList := (m.touch id).recent.map (entryOf width)}.Refines width bound
      (m.touch id) where
  width := hr.width
  bound := hr.bound
  size := by rw [hr.size,((m.touch id).same.trans m.same.symm).length_eq]
  brk := hr.brk
  recency := rfl
  buckets := hr.buckets
  heads := hr.heads
  small := hr.small

end

/-- The operations that use a NULL pointer: a put into a table that talloc refuses, and a search
that comes to an entry whose key talloc refused to copy. -/
def Faults (width : Nat) (m : Multimap Bytes V) : Multimap.Op Bytes V → Prop
  | .put _ _ => 2^25 ≤ width
  | .get key => UncopiedIn width m.items key
  | .borrow key => UncopiedIn width m.items key
  | .present key => UncopiedIn width m.items key
  | .iter key => UncopiedIn width m.items key
  | .next none => False
  | .next (some id) => ∃ i, m.lookup id = some i ∧
      UncopiedIn width (m.after id) i.key

section

variable (hr : s.Refines width bound m)
  (hky : ¬ UncopiedIn width m.items key)
include hr hky

lemma get_refines : (m.oldest key = none ∧ s.get key = some (none,s)) ∨
      ∃ i t, m.oldest key = some i ∧ s.get key = some (some i.value,t) ∧
        t.Refines width bound (m.remove i.id) := by
  have hf := find_refines hr hky
  cases ho : m.oldest key with
  | none => exact .inl ⟨rfl,by simp [get,hf,ho]⟩
  | some i =>
    refine .inr ⟨i,s.free (entryOf width i),rfl,?_,free_refines hr (mem_of_find?_eq_some ho)⟩
    simp [get,hf,ho,entryOf]

lemma present_refines : s.present key = some (m.oldest key).isSome := by
  simp [present,find_refines hr hky]

lemma borrow_refines : s.borrow key = some ((m.oldest key).map Item.value) := by
  simp only [borrow,find_refines hr hky,Option.map_some,Option.map_map]
  rfl

lemma iter_refines : s.iter key = some ((m.oldest key).map Item.id) := by
  rw [iter_eq hr,find_refines hr hky,map_some,Option.map_map]
  rfl

end

include hr in
lemma next_refines {id : Nat} (hl : m.lookup id = some i)
    (hky : ¬ UncopiedIn width (m.after id) i.key) :
    ∃ t, s.next (some id) = some ((some i.value,(m.younger i).map Item.id),t) ∧
      t.Refines width bound (m.touch id) := by
  have hs := scan_entries width tallocMemdup_eq_some hky
  refine ⟨_,?_,touch_refines hr id⟩
  simp only [next_eq hr hl,hs,find_bucket,Option.map_some,Option.map_map,
    younger,(mem_of_lookup hl).2]
  rfl

lemma step_refines (s : Cache V) (m : Multimap Bytes V)
    (op : Multimap.Op Bytes V) (out : Multimap.Out V) (m' : Multimap Bytes V)
    (hr : s.Refines width bound m) (h : m.step bound op = some (out,m'))
    (hok : ¬ Faults width m op) : ∃ t, s.step op = some (out,t) ∧ t.Refines width bound m' := by
  cases op with
  | put key data =>
    obtain ⟨rfl,rfl⟩ := h
    obtain ⟨t,ht,hrt⟩ := put_refines hr (Nat.not_le.mp hok) key data
    exact ⟨t,by simp [step,ht],hrt⟩
  | get key =>
    obtain ⟨ho,hg⟩ | ⟨i,t,ho,hg,hrt⟩ := get_refines hr hok
    · simp only [Multimap.step,ho,some.injEq,Prod.mk.injEq] at h
      obtain ⟨rfl,rfl⟩ := h
      exact ⟨s,by simp [step,hg],hr⟩
    · simp only [Multimap.step,ho,some.injEq,Prod.mk.injEq] at h
      obtain ⟨rfl,rfl⟩ := h
      exact ⟨t,by simp [step,hg],hrt⟩
  | borrow key =>
    obtain ⟨rfl,rfl⟩ := h
    exact ⟨s,by simp [step,borrow_refines hr hok],hr⟩
  | present key =>
    obtain ⟨rfl,rfl⟩ := h
    exact ⟨s,by simp [step,present_refines hr hok],hr⟩
  | iter key =>
    obtain ⟨rfl,rfl⟩ := h
    exact ⟨s,by simp [step,iter_refines hr hok],hr⟩
  | next cursor =>
    cases cursor with
    | none =>
      obtain ⟨rfl,rfl⟩ := h
      exact ⟨s,rfl,hr⟩
    | some id =>
      simp only [Multimap.step,map_eq_some_iff,Prod.mk.injEq] at h
      obtain ⟨i,hl,rfl,rfl⟩ := h
      obtain ⟨t,ht,hrt⟩ := next_refines hr hl fun hu => hok ⟨i,hl,hu⟩
      exact ⟨t,by simp [step,ht],hrt⟩

lemma step_faults (s : Cache V) (m : Multimap Bytes V)
    (op : Multimap.Op Bytes V) (out : Multimap.Out V) (m' : Multimap Bytes V)
    (hr : s.Refines width bound m) (_ : m.step bound op = some (out,m'))
    (hb : Faults width m op) : s.step op = none := by
  cases op with
  | put key data => simp [step,put_wide hr hb]
  | get key => simp [step,get,find_uncopied hr hb]
  | borrow key => simp [step,borrow,find_uncopied hr hb]
  | present key => simp [step,present,find_uncopied hr hb]
  | iter key => simp [step,iter_eq hr,find_uncopied hr hb]
  | next cursor =>
    cases cursor with
    | none => exact hb.elim
    | some id =>
      obtain ⟨i,hl,hu⟩ := hb
      simp [step,next_eq hr hl,scan_uncopied width _ hu]

lemma free_cacheSize (s : Cache V) (i : CacheEntry V) : (s.free i).cacheSize ≤ s.cacheSize := by
  simp only [free]
  split <;> omega

lemma expire_cacheSize {fuel : Nat} {s t : Cache V} (h : s.expire fuel = some t) :
    t.cacheSize ≤ s.cacheSize := by
  induction fuel generalizing s with
  | zero => cases h
  | succ fuel ih =>
    rw [expire] at h
    split at h
    · split at h
      · cases h
      · exact (ih h).trans (s.free_cacheSize _)
    · cases h
      exact le_rfl

lemma step_cacheSize {s t : Cache V} {op : Multimap.Op Bytes V} {out : Multimap.Out V}
    (h : s.step op = some (out,t)) : t.cacheSize ≤ s.cacheSize+1 := by
  cases op with
  | put key data =>
    obtain ⟨_,hp,he⟩ := map_eq_some_iff.mp h
    obtain ⟨u,hu,hp⟩ := bind_eq_some_iff.mp hp
    obtain ⟨table,-,rfl⟩ := map_eq_some_iff.mp hp
    cases he
    exact Int.add_le_add_right (expire_cacheSize hu) 1
  | get key =>
    obtain ⟨_,hg,he⟩ := map_eq_some_iff.mp h
    obtain ⟨i,-,rfl⟩ := map_eq_some_iff.mp hg
    cases he
    cases i with
    | none => exact Int.le_add_one le_rfl
    | some i => exact Int.le_add_one (s.free_cacheSize i)
  | next cursor =>
    obtain ⟨_,hn,he⟩ := map_eq_some_iff.mp h
    cases he
    cases cursor with
    | none =>
      cases hn
      exact Int.le_add_one le_rfl
    | some address =>
      obtain ⟨i,-,hn⟩ := bind_eq_some_iff.mp hn
      split at hn
      · cases hn
      · obtain ⟨_,-,rfl⟩ := map_eq_some_iff.mp hn
        exact Int.le_add_one le_rfl
  | borrow key | present key | iter key =>
    obtain ⟨_,-,he⟩ := map_eq_some_iff.mp h
    cases he
    exact Int.le_add_one le_rfl

lemma trace_cacheSize {s t : Cache V} {ops : List (Multimap.Op Bytes V)}
    {outs : List (Multimap.Out V)} (h : Transition.trace step s ops = some (outs,t)) :
    t.cacheSize ≤ s.cacheSize+ops.length := by
  induction ops generalizing s outs with
  | nil =>
    cases h
    simp
  | cons op ops ih =>
    obtain ⟨out,u,outs',hs,hr,-⟩ := Transition.trace_cons h
    have hu := step_cacheSize hs
    have := ih hr
    rw [length_cons]
    omega

/-- `cache_size` is an `int`, which is wide enough for a run of less than `2^31` operations. -/
lemma cacheSize_fits {width : Nat} {bound : Int} {c : Cache V}
    {ops : List (Multimap.Op Bytes V)} {outs : List (Multimap.Out V)}
    (h : Transition.trace step (con width bound) ops = some (outs,c))
    (hl : ops.length < 2^31) : c.cacheSize < 2^31 := by
  have := trace_cacheSize h
  have hz : (con width bound : Cache V).cacheSize = 0 := rfl
  omega

/-- The cache gives the results of the bounded multimap over every sequence of
operations in which none uses a NULL pointer, and over no other. -/
theorem refines_multimap_iff {width : Nat} {bound : Int} {ops : List (Multimap.Op Bytes V)}
    {outs : List (Multimap.Out V)} {m : Multimap Bytes V}
    (h : Transition.trace (Multimap.step bound) .empty ops = some (outs,m)) :
    (∃ c, Transition.trace step (con width bound) ops = some (outs,c)) ↔
      Transition.Along (Transition.post (Multimap.step bound))
        (fun m op => ¬ Faults width m op) .empty ops :=
  Transition.trace_refines_iff step_refines step_faults (con_refines width bound) h

theorem refines_multimap_two_puts :
    Transition.Along (Transition.post (Multimap.step 1)) (fun m op => ¬ Faults 1 m op)
      (.empty : Multimap Bytes Nat)
      [.put [97] 1,.put [98] 2,.borrow [97],.present [98],.iter [98],.next (some 1),.get [98]] :=
  (@refines_multimap_iff Nat 1 1 _ [.cursor (some 0),.cursor (some 1),.value none,.found true,
    .cursor (some 1),.item (some 2) none,.value (some 2)] _ rfl).mp ⟨_,rfl⟩

/-- A table of `2^25` pointers is not allocated, and the put that follows uses it. -/
theorem wide_table_fails :
    ¬ ∀ outs (m : Multimap Bytes Nat),
      Transition.trace (Multimap.step 0) .empty [.put [97] 1] = some (outs,m) →
      ∃ c, Transition.trace step (con (2^25) 0) [.put [97] 1] = some (outs,c) := by
  intro h
  obtain ⟨c,hc⟩ := h _ _ rfl
  cases hc

end Cache

end Aff4
