import Mathlib.Data.List.Nodup
import Aff4.Tcp

/-! The hash table of the TCP reassembler (tcp.c). Every connection has two streams that point to
each other, in the bucket of their hash and in a list ordered by use. A pointer to a freed stream
has no meaning. -/

namespace Aff4.Pyflag

open LittleEndian Transition List Option Function

namespace TCPStream

def padLoopAll : Nat → TCPStream → Option TCPStream
  | 0, _ => none
  | fuel+1, self =>
    if self.queue = [] then some self else (padToFirstPacket self).bind (padLoopAll fuel)

def padData (self : TCPStream) : Option TCPStream := padLoopAll (2*self.queue.length+1) self

def clear (self : TCPStream) : TCPStream := {self with calls := []}

end TCPStream

/-- `struct tuple4`. The padding is always 0. -/
structure Tuple4 where
  source : UInt16
  dest : UInt16
  saddr : UInt32
  daddr : UInt32
  deriving DecidableEq, Repr

def Tuple4.swap (self : Tuple4) : Tuple4 := ⟨self.dest,self.source,self.daddr,self.saddr⟩

def mkhash (addr : Tuple4) : Fin 256 :=
  let res := addr.source.toUInt32+addr.dest.toUInt32+addr.saddr+addr.daddr
  let res := res+(res >>> 8)
  Fin.ofNat 256 res.toNat

inductive Direction where
  | forward | reverse
  deriving DecidableEq, Repr

structure Link where
  addr : Tuple4
  direction : Direction
  reverse : Nat
  deriving DecidableEq, Repr

structure Stream extends Link where
  tcp : TCPStream
  deriving DecidableEq, Repr

structure Event where
  stream : Nat
  state : TcpState
  packet : Option Packet
  deriving DecidableEq, Repr

def Event.ofCall (i : Nat) (call : Call) : Event := ⟨i,call.state,some call.packet⟩

/-- `TCPHashTable` with its streams, numbered in the order of their creation. `totalStreams` and
`totalOutstandingSkbuffs` are counters of the configuration. -/
structure StreamTable where
  configuration : Configuration
  heap : Nat → Option Stream
  next : Nat
  table : Fin 256 → List Nat
  sorted : List Nat
  totalStreams : Int
  totalOutstandingSkbuffs : Int
  packetsProcessed : Int
  log : List Event

def listDel (i : Nat) (l : List Nat) : List Nat := l.filter fun j => j ≠ i

def listMove (i : Nat) (l : List Nat) : List Nat := i :: listDel i l

namespace StreamTable

/-- `TCPHashTable_Con`. The counters are those that all tables share. -/
def con (configuration : Configuration) (totalStreams totalOutstandingSkbuffs : Int) :
    StreamTable where
  configuration := configuration
  heap := fun _ => none
  next := 0
  table := fun _ => []
  sorted := []
  totalStreams := totalStreams
  totalOutstandingSkbuffs := totalOutstandingSkbuffs
  packetsProcessed := 0
  log := []

def links (self : StreamTable) (i : Nat) : Option Link := (self.heap i).map Stream.toLink

def scan (self : StreamTable) (test : Stream → Bool) : List Nat → Option (Option Nat)
  | [] => some none
  | i :: rest =>
    (self.heap i).bind fun s => if test s then some (some i) else self.scan test rest

def touch (self : StreamTable) (i : Nat) : Option StreamTable :=
  (self.heap i).map fun s =>
    {self with sorted := listMove s.reverse (listMove i self.sorted)}

def create (self : StreamTable) (addr : Tuple4) : StreamTable :=
  let i := self.next
  let j := self.next+1
  let table := update self.table (mkhash addr) (self.table (mkhash addr) ++ [i])
  {self with
    heap := update (update self.heap i (some ⟨⟨addr,.forward,j⟩,.con⟩))
      j (some ⟨⟨addr.swap,.reverse,i⟩,.con⟩)
    next := self.next+2
    table := update table (mkhash addr.swap) (table (mkhash addr.swap) ++ [j])
    sorted := j :: i :: self.sorted
    totalStreams := self.totalStreams+2}

def findReverse (self : StreamTable) (addr : Tuple4) : Option (StreamTable × Nat) :=
  (self.scan (fun s => s.addr = addr.swap) (self.table (mkhash addr.swap))).bind fun found =>
    match found with
    | some i => (self.heap i).bind fun s => (self.touch i).map fun table => (table,s.reverse)
    | none => some (self.create addr,self.next)

/-- `TCPHashTable_find_stream` for a packet with TCP payload. -/
def findStream (self : StreamTable) (addr : Tuple4) : Option (StreamTable × Nat) :=
  (self.scan (fun s => s.addr = addr) (self.table (mkhash addr))).bind fun found =>
    match found with
    | some i => (self.touch i).map fun table => (table,i)
    | none => self.findReverse addr

/-- An operation on a stream. An skbuff is counted from its allocation to its destruction. -/
def perform (self : StreamTable) (i : Nat) (f : TCPStream → Option TCPStream) :
    Option StreamTable :=
  (self.heap i).bind fun s => (f s.tcp.clear).map fun tcp =>
    {self with
      heap := update self.heap i (some {s with tcp := tcp.clear})
      totalOutstandingSkbuffs := self.totalOutstandingSkbuffs+
        ((tcp.queue.length : Int)-s.tcp.queue.length)
      log := self.log ++ tcp.calls.map (Event.ofCall i)}

def signal (self : StreamTable) (i : Nat) : Option StreamTable :=
  (self.heap i).map fun s =>
    {self with
      heap := update self.heap i (some {s with tcp := {s.tcp with state := .destroy}})
      log := self.log ++ [⟨i,.destroy,none⟩]}

def unlink (self : StreamTable) (i : Nat) : StreamTable :=
  {self with table := fun k => listDel i (self.table k), sorted := listDel i self.sorted}

def flushStream (self : StreamTable) (i : Nat) : Option StreamTable :=
  (self.heap i).bind fun s =>
    if s.direction = .forward then do
      let self ← self.perform i TCPStream.padData
      let self ← self.perform s.reverse TCPStream.padData
      let self ← self.signal i
      let self ← (self.unlink i).signal s.reverse
      return {self.unlink s.reverse with totalStreams := self.totalStreams-2}
    else some self

/-- `talloc_free` of a forward stream. The reverse stream is its child. -/
def free (self : StreamTable) (i : Nat) : Option StreamTable :=
  (self.heap i).bind fun s => (self.flushStream i).map fun self =>
    {self with heap := update (update self.heap i none) s.reverse none}

def freeFirst (self : StreamTable) (test : Stream → Bool) (l : List Nat) : Option StreamTable :=
  (self.scan test l).bind fun found =>
    match found with
    | some i => self.free i
    | none => some self

def freeFirstAt (test : Stream → Bool) (self : StreamTable) (k : Fin 256) : Option StreamTable :=
  self.freeFirst test (self.table k)

def freeInBuckets (self : StreamTable) (test : Stream → Bool) : Option StreamTable :=
  run (freeFirstAt test) self (finRange 256)

def flush (self : StreamTable) : Option StreamTable :=
  self.freeInBuckets fun s => s.direction = .forward

def checkForExpiredPackets (self : StreamTable) (id : Int) : Option StreamTable :=
  self.freeInBuckets fun s => s.direction = .forward ∧
    s.tcp.maxPacketId+self.configuration.maxPacketsExpired < id

def expireOldestStream (self : StreamTable) : Option StreamTable :=
  self.freeFirst (fun s => s.direction = .forward) self.sorted.reverse

/-- A packet arrives at a stream. The size that the reverse stream records is the one
that is computed here. -/
def receive (self : StreamTable) (i : Nat) (packet : Packet) : Option StreamTable := do
  let s ← self.heap i
  let r ← self.heap s.reverse
  let self ← self.perform i fun tcp =>
    ({tcp with reverseTotalSize := r.tcp.totalSize} : TCPStream).receive packet
  let s ← self.heap i
  self.perform s.reverse fun tcp => some {tcp with totalSize := s.tcp.reverseTotalSize}

def limitStreams (self : StreamTable) : Option StreamTable :=
  if self.configuration.maxNumberOfStreams < self.totalStreams ∨
      self.configuration.maxOutstandingSkbuffs < self.totalOutstandingSkbuffs then
    self.expireOldestStream
  else some self

def tally (self : StreamTable) (id : Int) : Option StreamTable :=
  if 2*self.configuration.maxPacketsExpired < self.packetsProcessed+1 then
    (self.checkForExpiredPackets id).map fun self => {self with packetsProcessed := 0}
  else some {self with packetsProcessed := self.packetsProcessed+1}

def process (self : StreamTable) (addr : Tuple4) (packet : Packet) : Option StreamTable := do
  let (self,i) ← self.findStream addr
  let self ← self.receive i packet
  let self ← self.limitStreams
  self.tally packet.id

end StreamTable

namespace TCPStream

/-- Padding takes the packets `front` off the queue and hands them to the callback. -/
structure Pads (tcp next : TCPStream) (front : List Packet) : Prop where
  queue : tcp.queue = front ++ next.queue
  calls : ∃ handed : List Call, next.calls = tcp.calls ++ handed ∧
    (∀ call ∈ handed, call.state = .data) ∧
    handed.map (fun call => call.packet.id) = front.map Packet.id
  state : tcp.state ≠ .none → next.state ≠ .none

lemma Pads.refl (t : TCPStream) : Pads t t [] := ⟨rfl,⟨[],by simp⟩,id⟩

variable {t : TCPStream}

lemma Pads.trans {mid next : TCPStream} {front back : List Packet}
    (h : Pads t mid front) (h' : Pads mid next back) : Pads t next (front ++ back) := by
  obtain ⟨handed,hcl,hst,hi⟩ := h.calls
  obtain ⟨handed',hcl',hst',hi'⟩ := h'.calls
  refine ⟨by rw [h.queue,h'.queue,append_assoc],⟨handed ++ handed',?_,?_,?_⟩,
    fun hs => h'.state (h.state hs)⟩
  · rw [hcl',hcl,append_assoc]
  · intro call hc
    rcases mem_append.mp hc with hc | hc
    · exact hst call hc
    · exact hst' call hc
  · rw [map_append,map_append,hi,hi']

variable {self : TCPStream} {first : Packet} {rest : List Packet} (hq : self.queue = first :: rest)

include hq in
lemma padToFirstPacket_cases : ∃ next, self.padToFirstPacket = some next ∧
      ((next = {self with nextSeq := first.seq} ∧ self.nextSeq ≠ first.seq) ∨
        (next.queue = rest ∧ Pads self next [first])) := by
  simp only [padToFirstPacket,hq]
  split
  · next hf =>
    refine ⟨_,rfl,.inl ⟨rfl,fun heq => ?_⟩⟩
    rw [heq,UInt32.sub_self] at hf
    exact absurd hf (by decide)
  · refine ⟨_,rfl,.inr ⟨rfl,by simp [hq],⟨[_],rfl,by simp,?_⟩,by simp [callback]⟩⟩
    split
    · rfl
    · split <;> rfl

def turns (self : TCPStream) : Nat :=
  match self.queue with
  | [] => 0
  | first :: rest => 2*rest.length+if self.nextSeq = first.seq then 1 else 2

lemma turns_le (t : TCPStream) : t.turns ≤ 2*t.queue.length := by
  rw [turns]
  cases t.queue with
  | nil => exact le_refl _
  | cons first rest =>
    simp only [length_cons]
    split <;> omega

include hq in
lemma padToFirstPacket_turns : ∃ next front, self.padToFirstPacket = some next ∧
      Pads self next front ∧ next.turns < self.turns := by
  obtain ⟨next,hn,hc⟩ := padToFirstPacket_cases hq
  rcases hc with ⟨rfl,hne⟩ | ⟨hr,hp⟩
  · exact ⟨_,[],hn,⟨rfl,⟨[],by simp⟩,id⟩,by simp [turns,hq,hne]⟩
  · refine ⟨next,[first],hn,hp,?_⟩
    have hle := next.turns_le
    rw [hr] at hle
    have ht : 2*rest.length+1 ≤ self.turns := by
      simp only [turns,hq]
      split <;> omega
    omega

lemma padLoopAll_pads (fuel : Nat) (hf : t.turns < fuel) :
    ∃ next, padLoopAll fuel t = some next ∧ next.queue = [] ∧ Pads t next t.queue := by
  induction fuel generalizing t with
  | zero => omega
  | succ fuel ih =>
    rw [padLoopAll]
    cases hq : t.queue with
    | nil => exact ⟨t,if_pos rfl,hq,.refl t⟩
    | cons first rest =>
      obtain ⟨mid,front,hm,hp,ht⟩ := padToFirstPacket_turns hq
      obtain ⟨next,hn,he,hp'⟩ := @ih mid (by omega)
      have ha := hp.trans hp'
      rw [← hp.queue,hq] at ha
      exact ⟨next,by rw [if_neg (cons_ne_nil _ _),hm,bind_some,hn],he,ha⟩

lemma padData_pads (t : TCPStream) :
    ∃ next, t.padData = some next ∧ next.queue = [] ∧ Pads t next t.queue :=
  padLoopAll_pads _ (Nat.lt_succ_of_le t.turns_le)

lemma padLoop_pads {lastSeq : UInt32} (fuel : Nat) (hf : t.turns < fuel) :
    ∃ next front, padLoop lastSeq fuel t = some next ∧ Pads t next front := by
  induction fuel generalizing t with
  | zero => omega
  | succ fuel ih =>
    rw [padLoop]
    cases hq : t.queue with
    | nil => exact ⟨t,[],rfl,.refl t⟩
    | cons first rest =>
      simp only
      split
      · obtain ⟨mid,front,hm,hp,ht⟩ := padToFirstPacket_turns hq
        obtain ⟨next,back,hn,hp'⟩ := @ih mid (by omega)
        exact ⟨next,_,by rw [hm,bind_some,hn],hp.trans hp'⟩
      · exact ⟨t,[],rfl,.refl t⟩

lemma checkWindow_pads (t : TCPStream) :
    ∃ next front, t.checkWindow = some next ∧ Pads t next front := by
  rw [checkWindow]
  split
  · cases t.queue.getLast? with
    | none => exact ⟨t,[],rfl,.refl t⟩
    | some last => exact padLoop_pads _ (Nat.lt_succ_of_le t.turns_le)
  · exact ⟨t,[],rfl,.refl t⟩

lemma drain_returns (queue : List Packet) (hs : t.state ≠ .none) :
    ∃ next, t.drain queue = some next ∧ next.state ≠ .none := by
  induction queue generalizing t with
  | nil => exact ⟨_,rfl,hs⟩
  | cons first rest ih =>
    rw [drain]
    split
    · exact ih (by simp [callback])
    · split
      · exact ih (by simp [deliver,callback])
      · obtain ⟨next,front,hn,hp⟩ := ({t with queue := first :: rest} : TCPStream).checkWindow_pads
        exact ⟨next,hn,hp.state hs⟩

lemma add_returns_iff (t : TCPStream) (packet : Packet) (hs : t.state ≠ .none) :
    (∃ next, t.add packet = some next) ↔ t.Fits packet := by
  by_cases he : packet.data = []
  · rw [add,if_pos he]
    exact iff_of_true ⟨_,rfl⟩ (.inl he)
  · rw [add,if_neg he,account_eq t he]
    by_cases hf : t.Fits packet
    · rw [if_pos hf,bind_some]
      obtain ⟨next,hn,-⟩ := drain_returns (t := t.tallied packet) (insert packet t.queue) hs
      exact iff_of_true ⟨next,hn⟩ hf
    · rw [if_neg hf,bind_none]
      exact iff_of_false (by simp) hf

lemma receive_returns_iff (t : TCPStream) (packet : Packet) :
    (∃ next, t.receive packet = some next) ↔ t.Fits packet := by
  rw [receive]
  split
  · exact add_returns_iff (t.establish packet) packet (by simp [establish])
  · next hs => exact add_returns_iff t packet hs

end TCPStream

variable {j : Nat} {l : List Nat}

@[simp] lemma mem_listDel {i : Nat} : j ∈ listDel i l ↔ j ∈ l ∧ j ≠ i := by
  simp [listDel]

lemma mem_listMove {i : Nat} : j ∈ listMove i l ↔ j = i ∨ j ∈ l := by
  by_cases h : j = i <;> simp [listMove,h]

lemma Tuple4.swap_swap (addr : Tuple4) : addr.swap.swap = addr := rfl

namespace StreamTable

variable {self next : StreamTable}

/-- The links of the table: which streams there are, their buckets and their partners. -/
structure Sound (table : StreamTable) : Prop where
  fresh : ∀ i, table.next ≤ i → table.links i = none
  bucket : ∀ k i, i ∈ table.table k ↔ ∃ link, table.links i = some link ∧ mkhash link.addr = k
  nodup : ∀ k, (table.table k).Nodup
  sorted : ∀ i, i ∈ table.sorted ↔ ∃ link, table.links i = some link
  paired : ∀ i link, table.links i = some link → ∃ back, table.links link.reverse = some back ∧
    back.reverse = i ∧ back.addr = link.addr.swap ∧ back.direction ≠ link.direction

structure Keeps (table next : StreamTable) : Prop where
  links : next.links = table.links
  fresh : next.next = table.next
  buckets : next.table = table.table
  sorted : next.sorted = table.sorted

variable {mid : StreamTable} {k : Fin 256} {addr : Tuple4} {j : Nat} {released : Int}
  {events : List Event} {packet : Packet}

lemma Keeps.trans (h : Keeps self mid) (h' : Keeps mid next) : Keeps self next :=
  ⟨h'.links.trans h.links,h'.fresh.trans h.fresh,h'.buckets.trans h.buckets,
    h'.sorted.trans h.sorted⟩

variable (h : self.Sound)

include h in
lemma Sound.of_keeps (hk : Keeps self next) : next.Sound := by
  constructor
  · rw [hk.links,hk.fresh]
    exact h.fresh
  · rw [hk.links,hk.buckets]
    exact h.bucket
  · rw [hk.buckets]
    exact h.nodup
  · rw [hk.links,hk.sorted]
    exact h.sorted
  · rw [hk.links]
    exact h.paired

lemma con_sound (configuration : Configuration) (streams skbuffs : Int) :
    (con configuration streams skbuffs).Sound := by constructor <;> simp [con,links]

variable {i : Nat} {link : Link}

lemma links_eq_some (h : self.links i = some link) :
    ∃ s, self.heap i = some s ∧ s.toLink = link := by simpa [links] using h

variable {s : Stream}

lemma links_of_heap (h : self.heap i = some s) : self.links i = some s.toLink := by simp [links,h]

variable {f : TCPStream → Option TCPStream}

lemma perform_keeps (h : self.perform i f = some next) : Keeps self next := by
  simp only [perform,bind_eq_some_iff,map_eq_some_iff] at h
  obtain ⟨s,hs,tcp,-,rfl⟩ := h
  refine ⟨funext fun j => ?_,rfl,rfl,rfl⟩
  by_cases hj : j = i
  · subst hj
    simp [links,hs]
  · simp [links,hj]

include h in
lemma Sound.partner (hi : self.heap i = some s) :
    ∃ r, self.heap s.reverse = some r ∧ r.reverse = i ∧ r.addr = s.addr.swap ∧
      r.direction ≠ s.direction := by
  obtain ⟨back,hb,hrs⟩ := h.paired i _ (links_of_heap hi)
  obtain ⟨r,hr,rfl⟩ := links_eq_some hb
  exact ⟨r,hr,hrs⟩

include h in
lemma Sound.reverse_ne (hi : self.heap i = some s) : s.reverse ≠ i := by
  intro heq
  obtain ⟨r,hr,-,-,hd⟩ := h.partner hi
  rw [heq,hi] at hr
  cases hr
  exact hd rfl

include h in
lemma Sound.live (hi : i ∈ self.table k) :
    ∃ s, self.heap i = some s ∧ mkhash s.addr = k := by
  obtain ⟨link,hl,hh⟩ := (h.bucket k i).mp hi
  obtain ⟨s,hs,rfl⟩ := links_eq_some hl
  exact ⟨s,hs,hh⟩

lemma scan_cases (test : Stream → Bool) {l : List Nat} (hl : ∀ i ∈ l, ∃ s, self.heap i = some s) :
    (self.scan test l = some none ∧ ∀ i ∈ l, ∀ s, self.heap i = some s → test s = false) ∨
      ∃ i s, i ∈ l ∧ self.heap i = some s ∧ test s = true ∧ self.scan test l = some (some i) := by
  induction l with
  | nil => exact .inl ⟨rfl,by simp⟩
  | cons i rest ih =>
    obtain ⟨s,hs⟩ := hl i mem_cons_self
    rw [scan,hs,bind_some]
    cases hts : test s with
    | true => exact .inr ⟨i,s,mem_cons_self,hs,hts,rfl⟩
    | false =>
      rcases ih fun j hj => hl j (mem_cons_of_mem i hj) with ⟨hsc,hn⟩ | hf
      · refine .inl ⟨hsc,fun j hj t ht => ?_⟩
        rcases mem_cons.mp hj with rfl | hj
        · rw [hs,some.injEq] at ht
          exact ht ▸ hts
        · exact hn j hj t ht
      · obtain ⟨j,t,hj,hr⟩ := hf
        exact .inr ⟨j,t,mem_cons_of_mem i hj,hr⟩

include h in
lemma Sound.touch (hi : self.heap i = some s) :
    ∃ next, self.touch i = some next ∧ next.heap = self.heap ∧ next.Sound := by
  obtain ⟨r,hr,-⟩ := h.partner hi
  refine ⟨{self with sorted := listMove s.reverse (listMove i self.sorted)},
    by rw [StreamTable.touch,hi,map_some],rfl,h.fresh,h.bucket,h.nodup,fun j => ?_,h.paired⟩
  simp only [mem_listMove]
  constructor
  · rintro (rfl | rfl | hj)
    · exact ⟨_,links_of_heap hr⟩
    · exact ⟨_,links_of_heap hi⟩
    · exact (h.sorted j).mp hj
  · exact fun hj => .inr (.inr ((h.sorted j).mpr hj))

lemma create_links (addr : Tuple4) (i : Nat) : (self.create addr).links i =
    if i = self.next+1 then some ⟨addr.swap,.reverse,self.next⟩
    else if i = self.next then some ⟨addr,.forward,self.next+1⟩ else self.links i := by
  simp only [links,create,update_apply]
  split
  · rfl
  · split <;> rfl

lemma create_cases (h : (self.create addr).links i = some link) :
    (i = self.next+1 ∧ link.addr = addr.swap) ∨ (i = self.next ∧ link.addr = addr) ∨
      self.links i = some link := by
  rw [create_links] at h
  split at h
  · cases h
    exact .inl ⟨by assumption,rfl⟩
  · split at h
    · cases h
      exact .inr (.inl ⟨by assumption,rfl⟩)
    · exact .inr (.inr h)

lemma mem_create_table :
    i ∈ (self.create addr).table k ↔ i ∈ self.table k ∨ (i = self.next ∧ mkhash addr = k) ∨
      (i = self.next+1 ∧ mkhash addr.swap = k) := by
  simp only [create,update_apply]
  by_cases hk : k = mkhash addr.swap
  · by_cases hk' : mkhash addr.swap = mkhash addr
    · simp [hk,hk']
    · simp [hk,hk',Ne.symm hk']
  · by_cases hk' : k = mkhash addr
    · subst hk'
      simp [hk,Ne.symm hk]
    · simp [hk,hk',Ne.symm hk,Ne.symm hk']

include h in
lemma Sound.not_mem_of_le (hi : self.next ≤ i) : i ∉ self.table k := by
  intro hm
  obtain ⟨link,hl,-⟩ := (h.bucket k i).mp hm
  rw [h.fresh i hi] at hl
  cases hl

include h in
lemma Sound.create_nodup (addr : Tuple4) (k : Fin 256) : ((self.create addr).table k).Nodup := by
  have hi : ∀ k, self.next ∉ self.table k := fun k => h.not_mem_of_le (le_refl _)
  have hj : ∀ k, self.next+1 ∉ self.table k := fun k => h.not_mem_of_le (Nat.le_succ _)
  have hf : ∀ k, (update self.table (mkhash addr)
      (self.table (mkhash addr) ++ [self.next]) k).Nodup := by
    intro k
    rw [update_apply]
    split
    · exact nodup_append.mpr ⟨h.nodup _,nodup_singleton _,
        fun a ha b hb hab => hi _ (mem_singleton.mp hb ▸ hab ▸ ha)⟩
    · exact h.nodup k
  simp only [StreamTable.create]
  generalize hm : update self.table (mkhash addr)
    (self.table (mkhash addr) ++ [self.next]) = mid at hf
  have hn : ∀ k, self.next+1 ∉ mid k := by
    intro k
    rw [← hm,update_apply]
    split
    · simp [hj]
    · exact hj k
  rw [update_apply]
  split
  · exact nodup_append.mpr ⟨hf _,nodup_singleton _,
      fun a ha b hb hab => hn _ (mem_singleton.mp hb ▸ hab ▸ ha)⟩
  · exact hf k

include h in
lemma Sound.lt_next (hi : self.links i = some link) : i < self.next := by
  by_contra hle
  rw [h.fresh i (Nat.not_lt.mp hle)] at hi
  cases hi

include h in
lemma Sound.create (addr : Tuple4) : (self.create addr).Sound := by
  have hold : ∀ {i link}, self.links i = some link → i ≠ self.next ∧ i ≠ self.next+1 := by
    intro i link hi
    have := h.lt_next hi
    omega
  refine ⟨fun i hi => ?_,fun k i => ?_,h.create_nodup addr,fun i => ?_,fun i link hi => ?_⟩
  · have hi : self.next+2 ≤ i := hi
    rw [create_links,if_neg (by omega),if_neg (by omega),h.fresh i (by omega)]
  · rw [mem_create_table,h.bucket,create_links]
    by_cases hj : i = self.next+1
    · subst hj
      simp [h.fresh]
    · by_cases hi : i = self.next
      · subst hi
        simp [h.fresh]
      · simp [hi,hj]
  · have hm : i ∈ (self.create addr).sorted ↔
        i = self.next+1 ∨ i = self.next ∨ i ∈ self.sorted := by simp [StreamTable.create]
    rw [hm,h.sorted,create_links]
    by_cases hj : i = self.next+1
    · simp [hj]
    · by_cases hi : i = self.next
      · simp [hi]
      · simp [hi,hj]
  · rw [create_links] at hi
    split at hi
    · next hij =>
      cases hi
      refine ⟨⟨addr,.forward,self.next+1⟩,?_,hij.symm,rfl,by simp⟩
      rw [create_links,if_neg (Nat.succ_ne_self _).symm,if_pos rfl]
    · split at hi
      · next hij =>
        cases hi
        refine ⟨⟨addr.swap,.reverse,self.next⟩,?_,hij.symm,rfl,by simp⟩
        rw [create_links,if_pos rfl]
      · obtain ⟨back,hb,hr⟩ := h.paired i link hi
        obtain ⟨hne,hne'⟩ := hold hb
        exact ⟨back,by rw [create_links,if_neg hne',if_neg hne,hb],hr⟩

def OnePerTuple (table : StreamTable) : Prop :=
  ∀ i j link link', table.links i = some link → table.links j = some link' →
    link.addr = link'.addr → i = j

structure Finds (table : StreamTable) (addr : Tuple4) (next : StreamTable) (i : Nat) : Prop where
  sound : next.Sound
  found : ∃ s, next.heap i = some s ∧ s.addr = addr
  unique : addr ≠ addr.swap → table.OnePerTuple → next.OnePerTuple

include h in
lemma Sound.findStream (addr : Tuple4) :
    ∃ next i, self.findStream addr = some (next,i) ∧ Finds self addr next i := by
  have hl : ∀ k, ∀ i ∈ self.table k, ∃ s, self.heap i = some s := fun k i hi =>
    (h.live hi).imp fun s hs => hs.1
  have huq : ∀ {next : StreamTable}, next.heap = self.heap → self.OnePerTuple → next.OnePerTuple := by
    intro next hh hu
    simpa only [OnePerTuple,links,hh] using hu
  rw [StreamTable.findStream]
  rcases scan_cases (fun s => s.addr = addr) (hl (mkhash addr)) with
    ⟨hsc,hno⟩ | ⟨i,s,-,hs,hts,hsc⟩
  · rw [hsc,bind_some]
    simp only [findReverse]
    rcases scan_cases (fun s => s.addr = addr.swap) (hl (mkhash addr.swap)) with
      ⟨hsc',hno'⟩ | ⟨i,s,-,hs,hts,hsc'⟩
    · -- neither direction is in the table
      rw [hsc',bind_some]
      have hf : ∀ {i link}, self.links i = some link →
          link.addr ≠ addr ∧ link.addr ≠ addr.swap := by
        intro i link hi
        obtain ⟨s,hs,rfl⟩ := links_eq_some hi
        constructor
        · intro heq
          exact absurd heq (of_decide_eq_false (hno i ((h.bucket _ i).mpr ⟨_,hi,by rw [heq]⟩) s hs))
        · intro heq
          exact absurd heq
            (of_decide_eq_false (hno' i ((h.bucket _ i).mpr ⟨_,hi,by rw [heq]⟩) s hs))
      refine ⟨_,_,rfl,h.create addr,⟨⟨⟨addr,.forward,self.next+1⟩,.con⟩,?_,rfl⟩,?_⟩
      · simp [StreamTable.create]
      · intro hne hu i j link link' hi hj hadd
        rcases create_cases hi with ⟨rfl,ha⟩ | ⟨rfl,ha⟩ | hi <;>
          rcases create_cases hj with ⟨rfl,ha'⟩ | ⟨rfl,ha'⟩ | hj
        · rfl
        · exact absurd (ha'.symm.trans (hadd.symm.trans ha)) hne
        · exact absurd (hadd.symm.trans ha) (hf hj).2
        · exact absurd (ha.symm.trans (hadd.trans ha')) hne
        · rfl
        · exact absurd (hadd.symm.trans ha) (hf hj).1
        · exact absurd (hadd.trans ha') (hf hi).2
        · exact absurd (hadd.trans ha') (hf hi).1
        · exact hu i j link link' hi hj hadd
    · -- the packet belongs to the partner of the stream that is found
      obtain ⟨next,hn,hh,hsn⟩ := h.touch hs
      obtain ⟨r,hr,-,hadd,-⟩ := h.partner hs
      rw [hsc',bind_some]
      simp only [hs,bind_some,hn,map_some]
      have hsw : s.addr = addr.swap := of_decide_eq_true hts
      refine ⟨_,_,rfl,hsn,⟨r,by rw [hh,hr],?_⟩,fun _ => huq hh⟩
      rw [hadd,hsw,Tuple4.swap_swap]
  · obtain ⟨next,hn,hh,hsn⟩ := h.touch hs
    rw [hsc,bind_some]
    simp only [hn,map_some]
    exact ⟨_,_,rfl,hsn,⟨s,by rw [hh,hs],of_decide_eq_true hts⟩,fun _ => huq hh⟩

def without (self : StreamTable) (i j : Nat) (released : Int) (events : List Event) : StreamTable :=
  {self with
    heap := update (update self.heap i none) j none
    table := fun k => listDel j (listDel i (self.table k))
    sorted := listDel j (listDel i self.sorted)
    totalStreams := self.totalStreams-2
    totalOutstandingSkbuffs := self.totalOutstandingSkbuffs-released
    log := self.log ++ events}

def farewell (i j : Nat) (t u : TCPStream) : List Event :=
  t.calls.map (Event.ofCall i) ++ u.calls.map (Event.ofCall j) ++
    [⟨i,.destroy,none⟩,⟨j,.destroy,none⟩]

lemma free_eq {s r : Stream} (hi : self.heap i = some s)
    (hd : s.direction = .forward) (hr : self.heap s.reverse = some r) (hne : s.reverse ≠ i)
    {t u : TCPStream} (ht : s.tcp.clear.padData = some t) (htq : t.queue = [])
    (hu : r.tcp.clear.padData = some u) (huq : u.queue = []) :
    self.free i = some (self.without i s.reverse (s.tcp.queue.length+r.tcp.queue.length)
      (farewell i s.reverse t u)) := by
  have hne' : i ≠ s.reverse := Ne.symm hne
  simp only [free,flushStream,hi,Option.bind_some,if_pos hd,perform,ht,hu,hr,Option.map_some,
    Option.bind_eq_bind,update_of_ne hne,update_of_ne hne',
    update_self,signal,unlink,htq,huq,Option.pure_def,without,farewell,
    Option.some.injEq,StreamTable.mk.injEq,true_and]
  refine ⟨funext fun k => ?_,?_,?_⟩
  · by_cases hk : k = s.reverse
    · simp [hk]
    · by_cases hk' : k = i
      · simp [hk',hne']
      · simp [hk,hk']
  · simp only [List.length_nil]
    omega
  · simp [List.append_assoc]

lemma without_links {i : Nat} (k : Nat) :
    (self.without i j released events).links k = if k = i ∨ k = j then none else self.links k := by
  simp only [links,without,update_apply]
  by_cases hj : k = j
  · simp [hj]
  · by_cases hi : k = i <;> simp [hi,hj]

lemma without_links_eq_some {i k : Nat} :
    (self.without i j released events).links k = some link ↔
      self.links k = some link ∧ k ≠ i ∧ k ≠ j := by
  rw [without_links]
  split
  · next h =>
    rcases h with rfl | rfl <;> simp
  · next h => simp [not_or.mp h]

structure Shrinks (table next : StreamTable) : Prop where
  sound : next.Sound
  links : ∀ i link, next.links i = some link → table.links i = some link

lemma Shrinks.trans (h : Shrinks self mid) (h' : Shrinks mid next) : Shrinks self next :=
  ⟨h'.sound,fun i link hi => h.links i link (h'.links i link hi)⟩

include h in
lemma Sound.refl : Shrinks self self := ⟨h,fun _ _ => id⟩

lemma Shrinks.unique (h : Shrinks self next) (hu : self.OnePerTuple) : next.OnePerTuple :=
  fun i j link link' hi hj => hu i j link link' (h.links i link hi) (h.links j link' hj)

include h in
lemma Sound.without (hi : self.links i = some link) (released : Int) (events : List Event) :
    Shrinks self (self.without i link.reverse released events) := by
  obtain ⟨back,hb,hrv,-⟩ := h.paired i link hi
  refine ⟨⟨fun k hk => ?_,fun b k => ?_,fun b => ?_,fun k => ?_,fun k other hk => ?_⟩,
    fun k other hk => (without_links_eq_some.mp hk).1⟩
  · rw [without_links,h.fresh k hk,ite_self]
  · simp only [StreamTable.without,mem_listDel,h.bucket]
    constructor
    · rintro ⟨⟨⟨other,hk,hh⟩,hki⟩,hkj⟩
      exact ⟨other,without_links_eq_some.mpr ⟨hk,hki,hkj⟩,hh⟩
    · rintro ⟨other,hk,hh⟩
      obtain ⟨hk,hki,hkj⟩ := without_links_eq_some.mp hk
      exact ⟨⟨⟨other,hk,hh⟩,hki⟩,hkj⟩
  · exact ((h.nodup b).filter _).filter _
  · simp only [StreamTable.without,mem_listDel,h.sorted]
    constructor
    · rintro ⟨⟨⟨other,hk⟩,hki⟩,hkj⟩
      exact ⟨other,without_links_eq_some.mpr ⟨hk,hki,hkj⟩⟩
    · rintro ⟨other,hk⟩
      obtain ⟨hk,hki,hkj⟩ := without_links_eq_some.mp hk
      exact ⟨⟨⟨other,hk⟩,hki⟩,hkj⟩
  · -- the partner of a stream that is left is not one of the two that are gone
    obtain ⟨hk,hki,hkj⟩ := without_links_eq_some.mp hk
    obtain ⟨partner,hp,hr,hrs⟩ := h.paired k other hk
    refine ⟨partner,without_links_eq_some.mpr ⟨hp,fun heq => ?_,fun heq => ?_⟩,hr,hrs⟩
    · rw [heq,hi,some.injEq] at hp
      exact hkj (hp ▸ hr.symm)
    · rw [heq,hb,some.injEq] at hp
      exact hki (hr.symm.trans (hp ▸ hrv))

include h in
lemma Sound.free (hi : self.heap i = some s) (hd : s.direction = .forward) :
    ∃ next, self.free i = some next ∧ Shrinks self next := by
  obtain ⟨r,hr,-⟩ := h.partner hi
  obtain ⟨t,ht,htq,-⟩ := s.tcp.clear.padData_pads
  obtain ⟨u,hu,huq,-⟩ := r.tcp.clear.padData_pads
  exact ⟨_,free_eq hi hd hr (h.reverse_ne hi) ht htq hu huq,h.without (links_of_heap hi) _ _⟩

section

variable (test : Stream → Bool) (hts : ∀ s, test s = true → s.direction = .forward)
include hts

lemma Sound.freeFirst (h : self.Sound) {l : List Nat} (hl : ∀ i ∈ l, ∃ s, self.heap i = some s) :
    ∃ next, self.freeFirst test l = some next ∧ Shrinks self next := by
  rw [StreamTable.freeFirst]
  rcases scan_cases test hl with ⟨hsc,-⟩ | ⟨i,s,-,hs,hp,hsc⟩
  · exact ⟨self,by rw [hsc,bind_some],h.refl⟩
  · rw [hsc,bind_some]
    exact h.free hs (hts s hp)

lemma Sound.freeInBuckets (h : self.Sound) :
    ∃ next, self.freeInBuckets test = some next ∧ Shrinks self next := by
  refine run_total (I := Shrinks self) (P := fun _ => True) (fun mid k _ hm => ?_)
    (fun _ _ => trivial) h.refl
  obtain ⟨next,hn,hsh⟩ := hm.sound.freeFirst test hts (l := mid.table k)
    fun i hi => (hm.sound.live hi).imp fun s hs => hs.1
  exact ⟨next,hn,hm.trans hsh⟩

end

include h in
lemma Sound.flush : ∃ next, self.flush = some next ∧ Shrinks self next :=
  h.freeInBuckets _ fun _ hs => of_decide_eq_true hs

include h in
lemma Sound.limitStreams : ∃ next, self.limitStreams = some next ∧ Shrinks self next := by
  rw [StreamTable.limitStreams]
  split
  · refine h.freeFirst _ (fun _ hs => of_decide_eq_true hs) fun i hi => ?_
    obtain ⟨link,hl⟩ := (h.sorted i).mp (mem_reverse.mp hi)
    exact (links_eq_some hl).imp fun s hs => hs.1
  · exact ⟨self,rfl,h.refl⟩

include h in
lemma Sound.tally (id : Int) : ∃ next, self.tally id = some next ∧ Shrinks self next := by
  rw [StreamTable.tally]
  split
  · obtain ⟨next,hn,hsh⟩ := h.freeInBuckets (fun s => s.direction = .forward ∧
      s.tcp.maxPacketId+self.configuration.maxPacketsExpired < id)
      fun _ hs => (of_decide_eq_true hs).1
    refine ⟨_,by rw [checkForExpiredPackets,hn,map_some],?_⟩
    exact ⟨hsh.sound.of_keeps ⟨rfl,rfl,rfl,rfl⟩,hsh.links⟩
  · exact ⟨_,rfl,h.of_keeps ⟨rfl,rfl,rfl,rfl⟩,fun _ _ hi => hi⟩

lemma perform_returns (hi : self.heap i = some s)
    {tcp : TCPStream} (hf : f s.tcp.clear = some tcp) :
    ∃ next, self.perform i f = some next ∧ next.heap i = some {s with tcp := tcp.clear} := by
  refine ⟨_,by rw [perform,hi,bind_some,hf,map_some],?_⟩
  simp

/-- The sizes that the stream of a packet and its reverse have recorded leave room for it. -/
def Fits (self : StreamTable) (i : Nat) (packet : Packet) : Prop :=
  ∀ s r, self.heap i = some s → self.heap s.reverse = some r →
    ({s.tcp with reverseTotalSize := r.tcp.totalSize} : TCPStream).Fits packet

lemma receive_keeps (hr : self.receive i packet = some next) :
    Keeps self next := by
  simp only [receive,bind_eq_bind,bind_eq_some_iff] at hr
  obtain ⟨s,-,r,-,mid,hm,s',-,hn⟩ := hr
  exact (perform_keeps hm).trans (perform_keeps hn)

include h in
lemma Sound.receive_iff (hi : self.heap i = some s) (packet : Packet) :
    (∃ next, self.receive i packet = some next) ↔ self.Fits i packet := by
  obtain ⟨r,hr,-⟩ := h.partner hi
  have hf : self.Fits i packet ↔
      ({s.tcp.clear with reverseTotalSize := r.tcp.totalSize} : TCPStream).Fits packet := by
    refine ⟨fun hf => hf s r hi hr,fun hf s' r' hs' hr' => ?_⟩
    obtain rfl := some.inj (hi.symm.trans hs')
    obtain rfl := some.inj (hr.symm.trans hr')
    exact hf
  rw [hf,← TCPStream.receive_returns_iff]
  constructor
  · rintro ⟨next,hn⟩
    simp only [StreamTable.receive,hi,hr,bind_eq_bind,bind_some,bind_eq_some_iff,perform,
      map_eq_some_iff] at hn
    obtain ⟨-,⟨tcp,ht,-⟩,-⟩ := hn
    exact ⟨tcp,ht⟩
  · rintro ⟨tcp,ht⟩
    obtain ⟨mid,hm,hh⟩ := perform_returns hi (f := fun tcp =>
      ({tcp with reverseTotalSize := r.tcp.totalSize} : TCPStream).receive packet) ht
    obtain ⟨r',hr',-⟩ := (h.of_keeps (perform_keeps hm)).partner hh
    obtain ⟨next,hn,-⟩ := perform_returns hr' (f := fun t =>
      some {t with totalSize := tcp.clear.reverseTotalSize}) rfl
    refine ⟨next,?_⟩
    simp only [StreamTable.receive,hi,hr,hm,hh,bind_eq_bind,bind_some]
    exact hn

include h in
lemma Sound.process_iff (addr : Tuple4) (packet : Packet) :
    (∃ next, self.process addr packet = some next) ↔
      ∀ table i, self.findStream addr = some (table,i) → table.Fits i packet := by
  obtain ⟨t,i,hfi,hf⟩ := h.findStream addr
  obtain ⟨s,hs,-⟩ := hf.found
  simp only [StreamTable.process,hfi,bind_eq_bind,bind_some,some.injEq,Prod.mk.injEq]
  constructor
  · rintro ⟨next,hn⟩ _ _ ⟨rfl,rfl⟩
    obtain ⟨u,hr,-⟩ := bind_eq_some_iff.mp hn
    exact (hf.sound.receive_iff hs packet).mp ⟨u,hr⟩
  · intro hft
    obtain ⟨u,hr⟩ := (hf.sound.receive_iff hs packet).mpr (hft t i ⟨rfl,rfl⟩)
    obtain ⟨v,hl,hv⟩ := (hf.sound.of_keeps (receive_keeps hr)).limitStreams
    obtain ⟨next,ht,-⟩ := hv.sound.tally packet.id
    exact ⟨next,by rw [hr,bind_some,hl,bind_some,ht]⟩

include h in
lemma Sound.process (hp : self.process addr packet = some next) :
    next.Sound ∧ (addr ≠ addr.swap → self.OnePerTuple → next.OnePerTuple) := by
  obtain ⟨t,i,hfi,hf⟩ := h.findStream addr
  simp only [StreamTable.process,hfi,bind_eq_bind,bind_some,bind_eq_some_iff] at hp
  obtain ⟨u,hr,v,hl,ht⟩ := hp
  have hk := receive_keeps hr
  have hu : Shrinks t u := ⟨hf.sound.of_keeps hk,fun j link hj => hk.links ▸ hj⟩
  obtain ⟨v',hl',hv⟩ := hu.sound.limitStreams
  obtain rfl := some.inj (hl'.symm.trans hl)
  obtain ⟨next',ht',hn⟩ := hv.sound.tally packet.id
  obtain rfl := some.inj (ht'.symm.trans ht)
  exact ⟨hn.sound,fun hne huq =>
    ((hu.trans hv).trans hn).unique (hf.unique hne huq)⟩

inductive Op where
  | find (addr : Tuple4)
  | process (addr : Tuple4) (packet : Packet)
  | flush

def step (self : StreamTable) : Op → Option StreamTable
  | .find addr => (self.findStream addr).map Prod.fst
  | .process addr packet => self.process addr packet
  | .flush => self.flush

def Op.Directed : Op → Prop
  | .find addr => addr ≠ addr.swap
  | .process addr _ => addr ≠ addr.swap
  | .flush => True

/-- Only the data of a packet can be too much, namely for the size that its stream records. -/
def HasRoom (self : StreamTable) : Op → Prop
  | .find _ => True
  | .process addr packet => ∀ table i, self.findStream addr = some (table,i) → table.Fits i packet
  | .flush => True

include h in
lemma Sound.step_iff (op : Op) : (∃ next, self.step op = some next) ↔ self.HasRoom op := by
  cases op with
  | find addr =>
    obtain ⟨next,i,hf,-⟩ := h.findStream addr
    exact iff_of_true ⟨next,by rw [StreamTable.step,hf,map_some]⟩ trivial
  | process addr packet => exact h.process_iff addr packet
  | flush => exact iff_of_true (h.flush.imp fun next hn => hn.1) trivial

include h in
lemma Sound.step {op : Op} (hs : self.step op = some next) : next.Sound ∧
      (op.Directed → self.OnePerTuple → next.OnePerTuple) := by
  cases op with
  | find addr =>
    obtain ⟨next',i,hfi,hf⟩ := h.findStream addr
    rw [StreamTable.step,hfi,map_some,some.injEq] at hs
    exact hs ▸ ⟨hf.sound,hf.unique⟩
  | process addr packet => exact h.process hs
  | flush =>
    obtain ⟨next',hn,hsh⟩ := h.flush
    obtain rfl := some.inj (hn.symm.trans hs)
    exact ⟨hsh.sound,fun _ => hsh.unique⟩

def Tracks (self : StreamTable) (i : Nat) (link : Link) : Prop :=
  (∃ k, i ∈ self.table k) ∧ self.links i = some link

include h in
lemma Sound.tracks_iff : self.Tracks i link ↔ self.links i = some link :=
  ⟨And.right,fun hi => ⟨⟨_,(h.bucket _ i).mpr ⟨link,hi,rfl⟩⟩,hi⟩⟩

/-- A tuple has at most one stream, the reverse of a stream has the swapped tuple and points back,
and a packet is given the stream with its own tuple. -/
structure Paired (table : StreamTable) : Prop where
  nodup : ∀ k, (table.table k).Nodup
  unique : ∀ i j link link', table.Tracks i link → table.Tracks j link' →
    link.addr = link'.addr → i = j
  reverse : ∀ i link, table.Tracks i link → ∃ back, table.Tracks link.reverse back ∧
    back.addr = link.addr.swap ∧ back.reverse = i
  found : ∀ addr, addr ≠ addr.swap → ∃ next i link, table.findStream addr = some (next,i) ∧
    next.Tracks i link ∧ link.addr = addr

/-- The streams are paired whatever is done with the table, as long as the sizes can be kept. -/
theorem streams_paired (configuration : Configuration) (streams skbuffs : Int) (ops : List Op)
    (ho : ∀ op ∈ ops, op.Directed) :
    ((∃ table, run step (con configuration streams skbuffs) ops = some table) ↔
      Along step HasRoom (con configuration streams skbuffs) ops) ∧
    ∀ table, run step (con configuration streams skbuffs) ops = some table → table.Paired := by
  obtain ⟨hr,hin⟩ := run_returns_along
    (I := fun table : StreamTable => table.Sound ∧ table.OnePerTuple) (P := Op.Directed)
    (C := HasRoom) (fun t op _ ht => ht.1.step_iff op)
    (fun t op next hop ht hn => ⟨(ht.1.step hn).1,(ht.1.step hn).2 hop ht.2⟩) ho
    ⟨con_sound configuration streams skbuffs,fun i j link link' hi => by cases hi⟩
  refine ⟨hr,fun table hrn => ?_⟩
  obtain ⟨hsn,hu⟩ := hin table hrn
  refine ⟨hsn.nodup,fun i j link link' hi hj => ?_,fun i link hi => ?_,fun addr _ => ?_⟩
  · exact hu i j link link' hi.2 hj.2
  · obtain ⟨back,hb,hrv,ha,-⟩ := hsn.paired i link hi.2
    exact ⟨back,hsn.tracks_iff.mpr hb,ha,hrv⟩
  · obtain ⟨next,i,hfi,hf⟩ := hsn.findStream addr
    obtain ⟨s,hs,ha⟩ := hf.found
    exact ⟨next,i,_,hfi,hf.sound.tracks_iff.mpr (links_of_heap hs),ha⟩

def nearTuple : Tuple4 := ⟨1,2,3,4⟩

def farTuple : Tuple4 := ⟨2,1,3,4⟩

def sharedBucket : List Op :=
  [.find nearTuple,.find farTuple,.find nearTuple.swap,.find farTuple.swap,.find nearTuple]

theorem streams_paired_sharedBucket :
    mkhash nearTuple = mkhash farTuple ∧ mkhash nearTuple.swap = mkhash nearTuple ∧
    (∀ op ∈ sharedBucket, op.Directed) ∧
    ∃ table, run step (con .default 0 0) sharedBucket = some table ∧ table.Paired := by
  have ho : ∀ op ∈ sharedBucket, op.Directed := by
    simp only [sharedBucket,mem_cons,not_mem_nil,or_false,forall_eq_or_imp,forall_eq,Op.Directed]
    decide
  obtain ⟨hr,hp⟩ := streams_paired .default 0 0 sharedBucket ho
  obtain ⟨table,hrn⟩ := hr.mpr (by simp [sharedBucket,Along,HasRoom])
  exact ⟨by decide,by decide,ho,table,hrn,hp table hrn⟩

end StreamTable

end Aff4.Pyflag
