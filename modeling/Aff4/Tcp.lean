import Aff4.Lib.Transition
import Aff4.Memory

/-! The TCP stream reassembler of pyflag (tcp.c). Packets wait in a queue in the order of their
numbers until the data before them has been delivered. -/

namespace Aff4.Pyflag

open LittleEndian Transition List Option

inductive TcpState where
  | none | justEst | data | close | reset | timedOut | destroy | nonTcp | retransmission
  deriving DecidableEq, Repr

structure Packet where
  id : Int
  seq : UInt32
  window : UInt16
  syn : Bool
  data : Bytes
  deriving DecidableEq, Repr

structure Call where
  state : TcpState
  packet : Packet
  deriving DecidableEq, Repr

/-- `calls` are the calls of the callback. -/
structure TCPStream where
  state : TcpState
  queue : List Packet
  nextSeq : UInt32
  maxPacketId : Int
  totalSize : Int
  reverseTotalSize : Int
  calls : List Call
  deriving DecidableEq, Repr

namespace TCPStream

def con : TCPStream := ⟨.none,[],0,0,0,0,[]⟩

def callback (self : TCPStream) (packet : Packet) : TCPStream :=
  {self with calls := self.calls ++ [⟨self.state,packet⟩]}

def padToFirstPacket (self : TCPStream) : Option TCPStream :=
  match self.queue with
  | [] => none
  | first :: rest =>
    let padLength := (first.seq-self.nextSeq).toBitVec.toInt
    if 50000 < padLength ∨ padLength < -50000 then some {self with nextSeq := first.seq}
    else
      let first :=
        if 0 < padLength then {first with data := replicate padLength.toNat 0 ++ first.data}
        else if padLength < 0 then {first with
          data := first.data.drop (-padLength).toNat
          seq := first.seq+UInt32.ofNat (-padLength).toNat}
        else first
      some {({self with
        nextSeq := self.nextSeq+UInt32.ofNat first.data.length
        state := .data} : TCPStream).callback first with queue := rest}

/-- The loop that pads while the last packet is beyond the window of the first. -/
def padLoop (lastSeq : UInt32) : Nat → TCPStream → Option TCPStream
  | 0, _ => none
  | fuel+1, self =>
    match self.queue with
    | [] => some self
    | first :: _ =>
      if UInt32.ofNat first.window.toNat+first.seq < lastSeq then
        (padToFirstPacket self).bind (padLoop lastSeq fuel)
      else some self

/-- Nothing more can be taken off the queue, unless data was lost. -/
def checkWindow (self : TCPStream) : Option TCPStream :=
  if self.state = .data ∨ self.state = .retransmission then
    match self.queue.getLast? with
    | none => some self
    | some last => padLoop last.seq (2*self.queue.length+1) self
  else some self

def deliver (self : TCPStream) (first : Packet) : TCPStream :=
  let diff := self.nextSeq-first.seq
  let first := {first with data := first.data.drop diff.toNat, seq := first.seq+diff}
  {({self with state := .data} : TCPStream).callback first with
    nextSeq := self.nextSeq+UInt32.ofNat first.data.length}

def drain (self : TCPStream) : List Packet → Option TCPStream
  | [] => some {self with queue := []}
  | first :: rest =>
    if self.nextSeq ≥ first.seq+UInt32.ofNat first.data.length then
      drain (({self with state := .retransmission} : TCPStream).callback first) rest
    else if self.nextSeq ≥ first.seq then drain (self.deliver first) rest
    else checkWindow {self with queue := first :: rest}

/-- The packet goes behind the last one whose sequence number is not larger. -/
def insert (packet : Packet) : List Packet → List Packet
  | [] => [packet]
  | i :: rest =>
    if packet.seq ≥ i.seq then i :: insert packet rest else packet :: i :: rest

/-- The sizes of the two directions are added up in an int, which has no value beyond its range. -/
def account (self : TCPStream) (packet : Packet) : Option TCPStream := do
  let sum ← toInt (packet.data.length+self.reverseTotalSize)
  let totalSize ← toInt (self.totalSize+sum)
  return {self with maxPacketId := packet.id, totalSize := totalSize, reverseTotalSize := totalSize}

def add (self : TCPStream) (packet : Packet) : Option TCPStream :=
  if packet.data = [] then
    some (({self with state := .retransmission} : TCPStream).callback packet)
  else (self.account packet).bind fun self => self.drain (insert packet self.queue)

def establish (self : TCPStream) (packet : Packet) : TCPStream :=
  {({self with
    nextSeq := if packet.syn then packet.seq+1 else packet.seq
    state := .justEst} : TCPStream).callback packet with state := .data}

def receive (self : TCPStream) (packet : Packet) : Option TCPStream :=
  (if self.state = .none then self.establish packet else self).add packet

end TCPStream

namespace TCPStream

/-- The sums for the size of a packet's data stay in the range of an int. -/
def Fits (self : TCPStream) (packet : Packet) : Prop :=
  packet.data = [] ∨ (toInt (packet.data.length+self.reverseTotalSize)).isSome ∧
    (toInt (self.totalSize+(packet.data.length+self.reverseTotalSize))).isSome

instance (self : TCPStream) (packet : Packet) : Decidable (self.Fits packet) :=
  inferInstanceAs (Decidable (_ ∨ _ ∧ _))

def tallied (self : TCPStream) (packet : Packet) : TCPStream :=
  {self with
    maxPacketId := packet.id
    totalSize := self.totalSize+(packet.data.length+self.reverseTotalSize)
    reverseTotalSize := self.totalSize+(packet.data.length+self.reverseTotalSize)}

lemma account_eq (self : TCPStream) {packet : Packet} (hne : packet.data ≠ []) :
    self.account packet = if self.Fits packet then some (self.tallied packet) else none := by
  simp only [account,Fits,or_iff_right hne]
  cases hs : toInt (packet.data.length+self.reverseTotalSize) with
  | none => rfl
  | some sum =>
    obtain ⟨rfl,-⟩ := toInt_eq_some hs
    rw [bind_eq_bind,bind_some]
    cases ht : toInt (self.totalSize+(packet.data.length+self.reverseTotalSize)) with
    | none => rfl
    | some total =>
      obtain ⟨rfl,-⟩ := toInt_eq_some ht
      rfl

end TCPStream

structure Configuration where
  maxPacketsExpired : Int
  maxNumberOfStreams : Int
  maxOutstandingSkbuffs : Int
  deriving DecidableEq, Repr

def Configuration.default : Configuration := ⟨10000,1000,100000⟩

/-- The hash table as the packets of one connection see it: the stream that is
found for them, the skbuffs that other streams hold, and the counters. -/
structure TCPHashTable where
  configuration : Configuration
  stream : TCPStream
  otherSkbuffs : Int
  totalStreams : Int
  packetsProcessed : Int
  deriving DecidableEq, Repr

namespace TCPHashTable

def LimitReached (self : TCPHashTable) : Prop :=
  self.configuration.maxNumberOfStreams < self.totalStreams ∨
    self.configuration.maxOutstandingSkbuffs < self.otherSkbuffs+self.stream.queue.length ∨
    2*self.configuration.maxPacketsExpired < self.packetsProcessed

instance (self : TCPHashTable) : Decidable self.LimitReached :=
  inferInstanceAs (Decidable (_ ∨ _ ∨ _))

/-- `TCPHashTable_process` up to the tests of the limits. -/
def advance (self : TCPHashTable) (packet : Packet) : Option TCPHashTable :=
  (self.stream.receive packet).map fun stream =>
    {self with stream := stream, packetsProcessed := self.packetsProcessed+1}

/-- `TCPHashTable_process` as long as no limit is reached. -/
def process (self : TCPHashTable) (packet : Packet) : Option TCPHashTable :=
  (self.advance packet).bind fun next => if next.LimitReached then none else some next

end TCPHashTable

def received (calls : List Call) : Bytes :=
  calls.flatMap fun call => if call.state = .data then call.packet.data else []

@[simp] lemma received_append (calls : List Call) (call : Call) : received (calls ++ [call]) =
    received calls ++ if call.state = .data then call.packet.data else [] := by simp [received]

/-- A packet that carries a part of the stream whose first byte has the sequence
number `base`. -/
structure Carries (base : Nat) (stream : Bytes) (packet : Packet) (offset : Nat) : Prop where
  seq : packet.seq.toNat = base+offset
  data : packet.data = slice stream offset packet.data.length
  nonempty : 0 < packet.data.length
  inside : offset+packet.data.length ≤ stream.length
  window : stream.length ≤ packet.window.toNat

/-- The sequence numbers stay so far below the end of their range that nothing wraps. -/
structure Fitting (base : Nat) (stream : Bytes) : Prop where
  length : stream.length ≤ 65535
  bound : base+stream.length ≤ 2^32-65536

section

variable {base : Nat} {stream : Bytes} {packet : Packet} {offset : Nat}

lemma Carries.end_eq (h : Carries base stream packet offset) (hf : Fitting base stream) :
    (packet.seq+UInt32.ofNat packet.data.length).toNat = base+offset+packet.data.length := by
  have hb := hf.bound
  have hi := h.inside
  rw [UInt32.toNat_add,UInt32.toNat_ofNat',h.seq]
  omega

lemma Carries.window_end (h : Carries base stream packet offset) (hf : Fitting base stream)
    {other : Packet} {offset' : Nat} (h' : Carries base stream other offset') :
    ¬ UInt32.ofNat packet.window.toNat+packet.seq < other.seq := by
  have hb := hf.bound
  have hi := h.inside
  have hi' := h'.inside
  have hw := h.window
  have hs := packet.window.toNat_lt
  have hsq := h.seq
  have hsq' := h'.seq
  rw [UInt32.lt_iff_toNat_lt,UInt32.toNat_add,UInt32.toNat_ofNat']
  omega

end

/-- What `total_size` comes to when data arrives in one direction only: it is doubled before the
length of a packet is added. -/
def doubledSize (packets : List Packet) : Nat :=
  packets.foldl (fun size packet => 2*size+packet.data.length) 0

lemma doubledSize_snoc (packets : List Packet) (packet : Packet) :
    doubledSize (packets ++ [packet]) = 2*doubledSize packets+packet.data.length := by
  simp [doubledSize,foldl_append]

structure Delivered (base : Nat) (stream : Bytes) (size : Nat) (tcp : TCPStream) (k : Nat) :
    Prop where
  nextSeq : tcp.nextSeq.toNat = base+k
  le : k ≤ stream.length
  received : received tcp.calls = stream.take k
  established : tcp.state ≠ .none
  totalSize : tcp.totalSize = size
  reverseTotalSize : tcp.reverseTotalSize = size

variable {base : Nat} {stream : Bytes} {size : Nat} {s : TCPStream} {k : Nat}

lemma Delivered.tallied (h : Delivered base stream size s k) (packet : Packet) :
    Delivered base stream (2*size+packet.data.length) (s.tallied packet) k where
  nextSeq := h.nextSeq
  le := h.le
  received := h.received
  established := h.established
  totalSize := by
    simp only [TCPStream.tallied,h.totalSize,h.reverseTotalSize]
    omega
  reverseTotalSize := by
    simp only [TCPStream.tallied,h.totalSize,h.reverseTotalSize]
    omega

lemma Delivered.fits_iff (h : Delivered base stream size s k) {packet : Packet} (hne : packet.data ≠ []) :
    s.Fits packet ↔ 2*size+packet.data.length < 2^31 := by
  simp only [TCPStream.Fits,or_iff_right hne,isSome_toInt,h.totalSize,h.reverseTotalSize]
  omega

lemma Delivered.deliver (h : Delivered base stream size s k) (hft : Fitting base stream) {first : Packet} {offset : Nat}
    (hf : Carries base stream first offset) (hle : offset ≤ k)
    (hlt : k ≤ offset+first.data.length) :
    Delivered base stream size (s.deliver first) (offset+first.data.length) := by
  have hs := hf.seq
  have hn := h.nextSeq
  have hi := hf.inside
  have hb := hft.bound
  have hdf : (s.nextSeq-first.seq).toNat = k-offset := by
    rw [UInt32.toNat_sub_of_le _ _ (UInt32.le_iff_toNat_le.mpr (by omega)),hn,hs]
    omega
  have hd : first.data.drop (k-offset) = slice stream k (offset+first.data.length-k) := by
    rw [congrArg (drop (k-offset)) hf.data,slice,slice,drop_take,drop_drop,
      Nat.add_sub_cancel' hle,Nat.sub_sub_right _ hle,add_comm offset]
  have hl : (first.data.drop (k-offset)).length = offset+first.data.length-k := by
    rw [length_drop]
    omega
  simp only [TCPStream.deliver,hdf]
  refine ⟨?_,hi,?_,by simp [TCPStream.callback],h.totalSize,h.reverseTotalSize⟩
  · rw [UInt32.toNat_add,UInt32.toNat_ofNat',hn,hl]
    omega
  · rw [TCPStream.callback,received_append,if_pos rfl,h.received,hd,slice,← take_add,
      Nat.add_sub_cancel' hlt]

namespace TCPStream

lemma checkWindow_eq (hft : Fitting base stream) {first : Packet} {rest : List Packet}
    (hq : s.queue = first :: rest)
    (hc : ∀ packet ∈ first :: rest, ∃ offset, Carries base stream packet offset) :
    s.checkWindow = some s := by
  rw [checkWindow]
  split
  · cases hl : s.queue.getLast? with
    | none => rfl
    | some last =>
      obtain ⟨offset,hf⟩ := hc first mem_cons_self
      obtain ⟨offset',hl⟩ := hc last (hq ▸ mem_of_getLast? hl)
      simp only [padLoop,hq,if_neg (hf.window_end hft hl)]
  · rfl

/-- What a run over the queue leaves of it: everything that is dropped has been
delivered and everything that is kept is still ahead. -/
structure Drained (base : Nat) (stream : Bytes) (size : Nat) (queue : List Packet)
    (next : TCPStream) (k : Nat) : Prop extends Delivered base stream size next k where
  dropped : ∃ front, queue = front ++ next.queue ∧
    ∀ packet ∈ front, packet.seq.toNat+packet.data.length ≤ base+k
  ahead : ∀ packet ∈ next.queue, base+k < packet.seq.toNat

variable {queue : List Packet}

lemma Drained.cons {packet : Packet} {next : TCPStream} {k' : Nat}
    (h : Drained base stream size queue next k')
    (hpk : packet.seq.toNat+packet.data.length ≤ base+k') :
    Drained base stream size (packet :: queue) next k' where
  toDelivered := h.toDelivered
  ahead := h.ahead
  dropped := by
    obtain ⟨front,hq,hf⟩ := h.dropped
    refine ⟨packet :: front,by rw [hq]; rfl,fun p hp => ?_⟩
    rcases mem_cons.mp hp with rfl | hp
    · exact hpk
    · exact hf p hp

lemma drain_drained (hft : Fitting base stream) (h : Delivered base stream size s k)
    (hc : ∀ packet ∈ queue, ∃ offset, Carries base stream packet offset)
    (hs : queue.Pairwise fun p q => p.seq ≤ q.seq) :
    ∃ next k', s.drain queue = some next ∧ k ≤ k' ∧ Drained base stream size queue next k' := by
  induction queue generalizing s k with
  | nil =>
    exact ⟨_,k,rfl,le_refl k,⟨h.nextSeq,h.le,h.received,h.established,h.totalSize,
      h.reverseTotalSize⟩,⟨[],rfl,by simp⟩,by simp⟩
  | cons first rest ih =>
    obtain ⟨offset,hf⟩ := hc first mem_cons_self
    have hr := fun p hp => hc p (mem_cons_of_mem first hp)
    obtain ⟨hle,hs'⟩ := pairwise_cons.mp hs
    have he := hf.end_eq hft
    have hsq := hf.seq
    have hn := h.nextSeq
    rw [drain]
    by_cases hold : s.nextSeq ≥ first.seq+UInt32.ofNat first.data.length
    · -- the packet is a retransmission
      rw [if_pos hold]
      have hdl : Delivered base stream size
          (({s with state := .retransmission} : TCPStream).callback first) k :=
        ⟨hn,h.le,by simp [callback,h.received],by simp [callback],h.totalSize,h.reverseTotalSize⟩
      obtain ⟨next,k',hdr,hk,hd⟩ := ih hdl hr hs'
      refine ⟨next,k',hdr,hk,hd.cons ?_⟩
      have hge := UInt32.le_iff_toNat_le.mp hold
      omega
    · rw [if_neg hold]
      have hlt := UInt32.lt_iff_toNat_lt.mp (UInt32.not_le.mp hold)
      by_cases hdu : s.nextSeq ≥ first.seq
      · -- the packet has data that is due
        rw [if_pos hdu]
        have hge := UInt32.le_iff_toNat_le.mp hdu
        obtain ⟨next,k',hdr,hk,hd⟩ := ih (h.deliver hft hf (by omega) (by omega)) hr hs'
        exact ⟨next,k',hdr,by omega,hd.cons (by omega)⟩
      · rw [if_neg hdu]
        have ha := UInt32.lt_iff_toNat_lt.mp (UInt32.not_le.mp hdu)
        refine ⟨_,k,checkWindow_eq hft rfl hc,le_refl k,
          ⟨hn,h.le,h.received,h.established,h.totalSize,h.reverseTotalSize⟩,⟨[],rfl,by simp⟩,
          fun p hp => ?_⟩
        rcases mem_cons.mp hp with rfl | hp
        · omega
        · have := UInt32.le_iff_toNat_le.mp (hle p hp)
          omega

lemma mem_insert {packet p : Packet} : p ∈ insert packet queue ↔ p = packet ∨ p ∈ queue := by
  induction queue with
  | nil => simp [insert]
  | cons i rest ih =>
    rw [insert]
    split
    · simp only [mem_cons,ih]
      exact or_left_comm
    · exact mem_cons

lemma insert_sorted (packet : Packet) (h : queue.Pairwise fun p q => p.seq ≤ q.seq) :
    (insert packet queue).Pairwise fun p q => p.seq ≤ q.seq := by
  induction queue with
  | nil => exact pairwise_singleton _ _
  | cons i rest ih =>
    obtain ⟨hle,hr⟩ := pairwise_cons.mp h
    rw [insert]
    split
    · next hge =>
      refine pairwise_cons.mpr ⟨fun p hp => ?_,ih hr⟩
      rcases mem_insert.mp hp with rfl | hp
      · exact hge
      · exact hle p hp
    · next hlt =>
      have hlt := UInt32.le_of_lt (UInt32.not_le.mp hlt)
      refine pairwise_cons.mpr ⟨fun p hp => ?_,h⟩
      rcases mem_cons.mp hp with rfl | hp
      · exact hlt
      · exact UInt32.le_trans hlt (hle p hp)

/-- The state of a stream after the packets `arrived`: each of them has been
delivered or waits in the queue behind a gap. -/
structure Holding (base : Nat) (stream : Bytes) (arrived : List Packet) (tcp : TCPStream) (k : Nat) :
    Prop extends Delivered base stream (doubledSize arrived) tcp k where
  carries : ∀ packet ∈ tcp.queue, ∃ offset, Carries base stream packet offset
  sorted : tcp.queue.Pairwise fun p q => p.seq ≤ q.seq
  ahead : ∀ packet ∈ tcp.queue, base+k < packet.seq.toNat
  accounted : ∀ packet ∈ arrived, packet.seq.toNat+packet.data.length ≤ base+k ∨ packet ∈ tcp.queue

variable {arrived : List Packet}

lemma Holding.add (hft : Fitting base stream)
    (h : Holding base stream arrived s k) {packet : Packet} {offset : Nat}
    (hpk : Carries base stream packet offset)
    (hsz : doubledSize (arrived ++ [packet]) < 2^31) : ∃ next k', s.add packet = some next ∧
      Holding base stream (arrived ++ [packet]) next k' := by
  have hne : packet.data ≠ [] := ne_nil_of_length_pos hpk.nonempty
  have hc : ∀ p ∈ insert packet s.queue, ∃ offset, Carries base stream p offset := by
    intro p hp
    rcases mem_insert.mp hp with rfl | hp
    · exact ⟨offset,hpk⟩
    · exact h.carries p hp
  have hs := insert_sorted packet h.sorted
  have hdl := h.toDelivered.tallied packet
  rw [← doubledSize_snoc] at hdl
  obtain ⟨next,k',hdr,hk,hd⟩ := drain_drained hft hdl hc hs
  obtain ⟨front,hqu,hf⟩ := hd.dropped
  refine ⟨next,k',?_,hd.toDelivered,?_,?_,hd.ahead,?_⟩
  · rw [doubledSize_snoc,← h.fits_iff hne] at hsz
    rw [TCPStream.add,if_neg hne,s.account_eq hne,if_pos hsz,bind_some]
    exact hdr
  · intro p hp
    exact hc p (hqu ▸ mem_append_right front hp)
  · rw [hqu] at hs
    exact (pairwise_append.mp hs).2.1
  · -- what was accounted for before still is, and so is the new packet
    intro p hp
    have hcs : p.seq.toNat+p.data.length ≤ base+k ∨ p ∈ insert packet s.queue := by
      rcases mem_append.mp hp with hp | hp
      · exact (h.accounted p hp).imp_right fun hq => mem_insert.mpr (.inr hq)
      · exact .inr (mem_insert.mpr (.inl (mem_singleton.mp hp)))
    rcases hcs with hle | hin
    · exact .inl (by omega)
    · rw [hqu] at hin
      rcases mem_append.mp hin with hin | hin
      · exact .inl (hf p hin)
      · exact .inr hin

lemma Holding.add_overflow (h : Holding base stream arrived s k) {packet : Packet}
    (hne : packet.data ≠ []) (hs : ¬ doubledSize (arrived ++ [packet]) < 2^31) :
    s.add packet = none := by
  rw [doubledSize_snoc,← h.fits_iff hne] at hs
  rw [TCPStream.add,if_neg hne,s.account_eq hne,if_neg hs,bind_none]

lemma receive_syn {syn : Packet} (hsy : syn.syn = true) (he : syn.data = [])
    (hs : syn.seq.toNat+1 < 2^32) (stream : Bytes) :
    ∃ next, con.receive syn = some next ∧ Holding (syn.seq.toNat+1) stream [] next 0 := by
  have hr : con.receive syn =
      some (({con.establish syn with state := .retransmission} : TCPStream).callback syn) := by
    rw [TCPStream.receive,if_pos (show con.state = .none from rfl),TCPStream.add,if_pos he]
  refine ⟨_,hr,⟨?_,Nat.zero_le _,?_,by simp [callback],rfl,rfl⟩,?_,?_,?_,?_⟩
  · simp only [callback,establish,con,hsy,if_true,UInt32.toNat_add]
    exact Nat.mod_eq_of_lt hs
  · simp [callback,establish,con,Pyflag.received]
  · intro packet hp
    cases hp
  · exact List.Pairwise.nil
  · intro packet hp
    cases hp
  · intro packet hp
    cases hp

lemma Holding.complete (h : Holding base stream arrived s k)
    (hcv : ∀ i < stream.length, ∃ packet ∈ arrived,
      packet.seq.toNat ≤ base+i ∧ base+i < packet.seq.toNat+packet.data.length) :
    Pyflag.received s.calls = stream ∧ s.queue = [] := by
  have hk : k = stream.length := by
    by_contra hne
    have hlt : k < stream.length := Nat.lt_of_le_of_ne h.le hne
    obtain ⟨packet,hp,hs,he⟩ := hcv k hlt
    rcases h.accounted packet hp with hd | hw
    · omega
    · have := h.ahead packet hw
      omega
  constructor
  · rw [h.received,hk,take_length]
  · refine eq_nil_iff_forall_not_mem.mpr fun packet hp => ?_
    obtain ⟨offset,hc⟩ := h.carries packet hp
    have ha := h.ahead packet hp
    have hsq := hc.seq
    have hi := hc.inside
    omega

end TCPStream

namespace TCPHashTable

variable {base : Nat} {stream : Bytes} {s : TCPHashTable} {k : Nat}

def WithinLimits (table : TCPHashTable) (packets : List Packet) : Prop :=
  Along advance (fun table packet => ∀ next, table.advance packet = some next →
    ¬ next.LimitReached) table packets

variable {packets : List Packet}

lemma WithinLimits.run_eq (h : s.WithinLimits packets) :
    run process s packets = run advance s packets := by
  induction packets generalizing s with
  | nil => rfl
  | cons packet packets ih =>
    rw [run,run,TCPHashTable.process]
    cases hn : s.advance packet with
    | none => rfl
    | some next =>
      rw [bind_some,if_neg (h.1 next hn),bind_some,bind_some]
      exact ih (h.2 next hn)

lemma withinLimits_of_run (h : (run process s packets).isSome = true) : s.WithinLimits packets := by
  induction packets generalizing s with
  | nil => trivial
  | cons packet packets ih =>
    obtain ⟨final,hf⟩ := isSome_iff_exists.mp h
    obtain ⟨next,hp,hr⟩ := run_cons hf
    obtain ⟨t,ht,hl⟩ := bind_eq_some_iff.mp hp
    split at hl
    · cases hl
    · next hk =>
      obtain rfl := some.inj hl
      have hs {u : TCPHashTable} (hu : s.advance packet = some u) : u = t :=
        some.inj (hu.symm.trans ht)
      refine ⟨fun u hu => ?_,fun u hu => ?_⟩
      · rw [hs hu]
        exact hk
      · rw [hs hu]
        exact ih (by rw [hr]; rfl)

lemma advance_iff (hf : Fitting base stream) {arrived : List Packet} {packet : Packet} {offset : Nat}
    (h : TCPStream.Holding base stream arrived s.stream k)
    (hp : Carries base stream packet offset) :
    ((∃ next, s.advance packet = some next) ↔ doubledSize (arrived ++ [packet]) < 2^31) ∧
      ∀ next, s.advance packet = some next →
        ∃ k', TCPStream.Holding base stream (arrived ++ [packet]) next.stream k' := by
  have hr : s.stream.receive packet = s.stream.add packet := by
    rw [TCPStream.receive,if_neg h.established]
  rw [advance,hr]
  by_cases hs : doubledSize (arrived ++ [packet]) < 2^31
  · obtain ⟨tcp,k',ht,hh⟩ := h.add hf hp hs
    rw [ht,map_some]
    refine ⟨iff_of_true ⟨_,rfl⟩ hs,fun next hn => ?_⟩
    cases hn
    exact ⟨k',hh⟩
  · rw [h.add_overflow (ne_nil_of_length_pos hp.nonempty) hs]
    exact ⟨iff_of_false (by simp) hs,by simp⟩

/-- The run over the segments of a stream returns as long as the size fits an int. -/
lemma run_advance_iff (hf : Fitting base stream)
    (h : TCPStream.Holding base stream [] s.stream 0)
    (hc : ∀ packet ∈ packets, ∃ offset, Carries base stream packet offset) :
    ((∃ final, run advance s packets = some final) ↔ doubledSize packets < 2^31) ∧
      ∀ final, run advance s packets = some final →
        ∃ k, TCPStream.Holding base stream packets final.stream k := by
  refine run_returns_iff (I := fun arrived (table : TCPHashTable) =>
    ∃ k, TCPStream.Holding base stream arrived table.stream k)
    (C := fun arrived => doubledSize arrived < 2^31) ⟨0,h⟩ (by decide) ?_ ?_ ?_ hc
  · intro arrived packet hs
    rw [doubledSize_snoc] at hs
    omega
  · rintro arrived packet table ⟨offset,hp⟩ ⟨k,hk⟩ -
    exact (advance_iff hf hk hp).1
  · rintro arrived packet table next ⟨offset,hp⟩ ⟨k,hk⟩ hn
    exact (advance_iff hf hk hp).2 next hn

theorem reassembles_iff {syn : Packet} {stream : Bytes} {arrivals : List Packet}
    {start : TCPHashTable}
    (hl : stream.length ≤ 65535) (hb : syn.seq.toNat+stream.length < 2^32-65536)
    (hsy : syn.syn = true) (he : syn.data = []) (hs : start.stream = .con)
    (hc : ∀ packet ∈ arrivals, ∃ offset, Carries (syn.seq.toNat+1) stream packet offset)
    (hcv : ∀ i < stream.length, ∃ packet ∈ arrivals,
      packet.seq.toNat ≤ syn.seq.toNat+1+i ∧
        syn.seq.toNat+1+i < packet.seq.toNat+packet.data.length)
    (hlm : start.WithinLimits (syn :: arrivals)) :
    (∃ final, run process start (syn :: arrivals) = some final ∧
      received final.stream.calls = stream ∧ final.stream.queue = []) ↔
        doubledSize arrivals < 2^31 := by
  have hft : Fitting (syn.seq.toNat+1) stream := ⟨hl,by omega⟩
  obtain ⟨tcp,ht,hh⟩ := TCPStream.receive_syn hsy he (by omega) stream
  have ha : start.advance syn = some {start with
      stream := tcp, packetsProcessed := start.packetsProcessed+1} := by
    rw [advance,hs,ht,map_some]
  rw [hlm.run_eq,run,ha,bind_some]
  obtain ⟨hi,hhl⟩ := run_advance_iff (s := {start with
    stream := tcp, packetsProcessed := start.packetsProcessed+1}) hft hh hc
  rw [← hi]
  constructor
  · rintro ⟨final,hr,-⟩
    exact ⟨final,hr⟩
  · rintro ⟨final,hr⟩
    obtain ⟨k,hf⟩ := hhl final hr
    exact ⟨final,hr,hf.complete hcv⟩

def newTable : TCPHashTable := ⟨.default,.con,0,2,0⟩

def segment (seq : UInt32) (data : Bytes) : Packet := ⟨0,seq,100,false,data⟩

/-- Overlapping segments of `[1,2,3,4]`, the last part first, and one of them twice. -/
def shuffled : List Packet := [segment 10 [3,4],segment 9 [2,3],segment 9 [2,3],segment 8 [1,2]]

theorem reassembles_iff_shuffled : doubledSize shuffled < 2^31 ∧ ∃ final,
    run process newTable (⟨0,7,100,true,[]⟩ :: shuffled) = some final ∧
      received final.stream.calls = [1,2,3,4] ∧ final.stream.queue = [] := by
  refine ⟨by decide,(reassembles_iff (by decide) (by decide) rfl rfl rfl ?_ (by decide) ?_).mpr
    (by decide)⟩
  · intro packet hp
    simp only [shuffled,mem_cons,not_mem_nil,or_false] at hp
    rcases hp with rfl | rfl | rfl | rfl
    · exact ⟨2,by decide,by decide,by decide,by decide,by decide⟩
    · exact ⟨1,by decide,by decide,by decide,by decide,by decide⟩
    · exact ⟨1,by decide,by decide,by decide,by decide,by decide⟩
    · exact ⟨0,by decide,by decide,by decide,by decide,by decide⟩
  · exact withinLimits_of_run (by decide)

/-- The bytes of a stream of `n` zeros, each in a segment of its own. -/
def oneByOne (n : Nat) : List Packet := (range n).map fun i => segment (UInt32.ofNat (8+i)) [0]

theorem oneByOne_overflows :
    ((run process newTable (⟨0,7,100,true,[]⟩ :: oneByOne 31)).map fun final =>
      received final.stream.calls) = some (replicate 31 0) ∧
      run process newTable (⟨0,7,100,true,[]⟩ :: oneByOne 32) = none := by
  decide

end TCPHashTable

end Aff4.Pyflag
