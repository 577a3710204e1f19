import Mathlib.Data.UInt
import Mathlib.Tactic.Abel
import Aff4.TcpTable

/-! The reassembler when all sequence numbers are shifted (tcp.c). It compares them as unsigned
numbers, so the shift is not seen as long as it carries no number that is compared past the end of
their range without the one it is compared with. -/

namespace Aff4.Pyflag

open LittleEndian Transition List Option Event

def Packet.shift (c : UInt32) (packet : Packet) : Packet := {packet with seq := packet.seq+c}

def Call.shift (c : UInt32) (call : Call) : Call := {call with packet := call.packet.shift c}

/-- The shift by `c` wraps both numbers or none of them. -/
def WrapAlike (c x y : UInt32) : Prop := x = y ∨ (x.toNat+c.toNat < 2^32 ↔ y.toNat+c.toNat < 2^32)

instance (c x y : UInt32) : Decidable (WrapAlike c x y) := inferInstanceAs (Decidable (_ ∨ (_ ↔ _)))

lemma WrapAlike.le_iff {c x y : UInt32} (h : WrapAlike c x y) : x+c ≤ y+c ↔ x ≤ y := by
  rcases h with rfl | h
  · simp
  · have hx := x.toNat_lt
    have hy := y.toNat_lt
    have hc := c.toNat_lt
    rw [UInt32.le_iff_toNat_le,UInt32.le_iff_toNat_le,UInt32.toNat_add,UInt32.toNat_add]
    omega

namespace TCPStream

def moved (c : UInt32) (self : TCPStream) : TCPStream :=
  {self with
    queue := self.queue.map (Packet.shift c)
    nextSeq := self.nextSeq+c
    calls := self.calls.map (Call.shift c)}

/-- Before its first packet a stream has no sequence number to shift. -/
def shift (c : UInt32) (self : TCPStream) : TCPStream :=
  {self.moved c with
    nextSeq := if self.state = .none ∧ self.queue = [] then self.nextSeq else self.nextSeq+c}

def InsertSteady (c : UInt32) (packet : Packet) : List Packet → Prop
  | [] => True
  | i :: rest =>
    WrapAlike c i.seq packet.seq ∧ (packet.seq ≥ i.seq → InsertSteady c packet rest)

def PadSteady (c lastSeq : UInt32) : Nat → TCPStream → Prop
  | 0, _ => True
  | fuel+1, self =>
    ∀ first ∈ self.queue.head?, WrapAlike c lastSeq (UInt32.ofNat first.window.toNat+first.seq) ∧
      (UInt32.ofNat first.window.toNat+first.seq < lastSeq →
        ∀ next ∈ self.padToFirstPacket, PadSteady c lastSeq fuel next)

def WindowSteady (c : UInt32) (self : TCPStream) : Prop :=
  self.state = .data ∨ self.state = .retransmission →
    ∀ last ∈ self.queue.getLast?, PadSteady c last.seq (2*self.queue.length+1) self

def DrainSteady (c : UInt32) (self : TCPStream) : List Packet → Prop
  | [] => True
  | first :: rest =>
    WrapAlike c (first.seq+UInt32.ofNat first.data.length) self.nextSeq ∧
    if self.nextSeq ≥ first.seq+UInt32.ofNat first.data.length then
      DrainSteady c (({self with state := .retransmission} : TCPStream).callback first) rest
    else
      WrapAlike c first.seq self.nextSeq ∧
      if self.nextSeq ≥ first.seq then DrainSteady c (self.deliver first) rest
      else WindowSteady c {self with queue := first :: rest}

/-- Of the sequence numbers that are compared when the packet is added, the shift wraps both or
none, and the size of the data can be recorded. -/
def Steady (c : UInt32) (self : TCPStream) (packet : Packet) : Prop :=
  packet.data = [] ∨ self.Fits packet ∧ InsertSteady c packet self.queue ∧
    DrainSteady c ((if self.state = .none then self.establish packet else self).tallied packet)
      (insert packet self.queue)

instance InsertSteady.decidable (c : UInt32) (packet : Packet) :
    (queue : List Packet) → Decidable (InsertSteady c packet queue)
  | [] => isTrue trivial
  | i :: rest =>
    have := InsertSteady.decidable c packet rest
    inferInstanceAs (Decidable (WrapAlike c i.seq packet.seq ∧
      (packet.seq ≥ i.seq → InsertSteady c packet rest)))

instance PadSteady.decidable (c lastSeq : UInt32) :
    (fuel : Nat) → (self : TCPStream) → Decidable (PadSteady c lastSeq fuel self)
  | 0, _ => isTrue trivial
  | fuel+1, self =>
    have := PadSteady.decidable c lastSeq fuel
    inferInstanceAs (Decidable (∀ first ∈ self.queue.head?,
      WrapAlike c lastSeq (UInt32.ofNat first.window.toNat+first.seq) ∧
      (UInt32.ofNat first.window.toNat+first.seq < lastSeq →
        ∀ next ∈ self.padToFirstPacket, PadSteady c lastSeq fuel next)))

instance (c : UInt32) (self : TCPStream) : Decidable (WindowSteady c self) :=
  inferInstanceAs (Decidable (self.state = .data ∨ self.state = .retransmission →
    ∀ last ∈ self.queue.getLast?, PadSteady c last.seq (2*self.queue.length+1) self))

instance DrainSteady.decidable (c : UInt32) :
    (self : TCPStream) → (queue : List Packet) → Decidable (DrainSteady c self queue)
  | _, [] => isTrue trivial
  | self, first :: rest =>
    have := fun t => DrainSteady.decidable c t rest
    by unfold DrainSteady; infer_instance

instance (c : UInt32) (self : TCPStream) (packet : Packet) : Decidable (self.Steady c packet) :=
  inferInstanceAs (Decidable (_ ∨ _ ∧ _ ∧ _))

variable {t next : TCPStream} {queue : List Packet} {packet : Packet}

lemma shift_eq_moved (c : UInt32) (h : t.state ≠ .none ∨ t.queue ≠ []) :
    t.shift c = t.moved c := by
  rw [shift,if_neg]
  · rfl
  · rintro ⟨hs,hq⟩
    exact h.elim (fun h => h hs) fun h => h hq

lemma moved_callback (c : UInt32) (t : TCPStream) (packet : Packet) :
    (t.moved c).callback (packet.shift c) = (t.callback packet).moved c := by
  simp [callback,moved,Call.shift]

def padded (padLength : Int) (first : Packet) : Packet :=
  if 0 < padLength then {first with data := replicate padLength.toNat 0 ++ first.data}
  else if padLength < 0 then {first with
    data := first.data.drop (-padLength).toNat
    seq := first.seq+UInt32.ofNat (-padLength).toNat}
  else first

lemma padded_shift (c : UInt32) (padLength : Int) (first : Packet) :
    padded padLength (first.shift c) = (padded padLength first).shift c := by
  simp only [padded,Packet.shift]
  split
  · rfl
  · split
    · simp only [add_right_comm]
    · rfl

/-- A packet that is too far away moves the stream, any other is handed over. -/
def padTo (self : TCPStream) (padLength : Int) (first : Packet) (rest : List Packet) : TCPStream :=
  if 50000 < padLength ∨ padLength < -50000 then {self with nextSeq := first.seq}
  else {({self with
      nextSeq := self.nextSeq+UInt32.ofNat (padded padLength first).data.length
      state := .data} : TCPStream).callback (padded padLength first) with queue := rest}

lemma padToFirstPacket_eq {first : Packet} {rest : List Packet}
    (hq : t.queue = first :: rest) : t.padToFirstPacket =
      some (t.padTo (first.seq-t.nextSeq).toBitVec.toInt first rest) := by
  simp only [padToFirstPacket,hq,padTo,padded]
  split <;> rfl

lemma padTo_moved (c : UInt32) (t : TCPStream) (padLength : Int) (first : Packet)
    (rest : List Packet) : (t.moved c).padTo padLength (first.shift c)
      (rest.map (Packet.shift c)) = (t.padTo padLength first rest).moved c := by
  simp only [padTo,padded_shift]
  split
  · rfl
  · have hl : ((padded padLength first).shift c).data = (padded padLength first).data := rfl
    simp [callback,moved,Call.shift,hl,add_right_comm]

lemma padToFirstPacket_moved (c : UInt32) (t : TCPStream) :
    (t.moved c).padToFirstPacket = t.padToFirstPacket.map (moved c) := by
  cases hq : t.queue with
  | nil => simp [padToFirstPacket,moved,hq]
  | cons first rest =>
    have hm : (t.moved c).queue = first.shift c :: rest.map (Packet.shift c) := by
      simp [moved,hq]
    have hp : (first.shift c).seq-(t.moved c).nextSeq = first.seq-t.nextSeq :=
      add_sub_add_right_eq_sub _ _ _
    rw [padToFirstPacket_eq hq,padToFirstPacket_eq hm,hp,padTo_moved,map_some]

lemma padLoopAll_moved (c : UInt32) (fuel : Nat) (t : TCPStream) :
    padLoopAll fuel (t.moved c) = (padLoopAll fuel t).map (moved c) := by
  induction fuel generalizing t with
  | zero => rfl
  | succ fuel ih =>
    have he : (t.moved c).queue = [] ↔ t.queue = [] := by simp [moved]
    simp only [padLoopAll,he,padToFirstPacket_moved]
    split
    · rfl
    · cases t.padToFirstPacket with
      | none => rfl
      | some next => exact ih next

/-- Padding out a stream makes no comparison, so it always hands over the same data. -/
lemma padData_shift (c : UInt32) (h : t.padData = some next) :
    ∃ next', (t.shift c).padData = some next' ∧ next'.calls = next.calls.map (Call.shift c) := by
  by_cases hq : t.queue = []
  · rw [padData,padLoopAll,if_pos hq,some.injEq] at h
    refine ⟨t.shift c,?_,by rw [← h]; rfl⟩
    rw [padData,padLoopAll,if_pos (by simp [shift,moved,hq])]
  · rw [shift_eq_moved c (.inr hq),padData,padLoopAll_moved]
    have hl : (t.moved c).queue.length = t.queue.length := by simp [moved]
    rw [padData] at h
    rw [hl,h,map_some]
    exact ⟨_,rfl,rfl⟩

lemma padLoop_moved {c lastSeq : UInt32} {fuel : Nat} (h : PadSteady c lastSeq fuel t) :
    padLoop (lastSeq+c) fuel (t.moved c) = (padLoop lastSeq fuel t).map (moved c) := by
  induction fuel generalizing t with
  | zero => rfl
  | succ fuel ih =>
    rw [padLoop,padLoop]
    cases hq : t.queue with
    | nil => simp [moved,hq]
    | cons first rest =>
      have hm : (t.moved c).queue = first.shift c :: rest.map (Packet.shift c) := by
        simp [moved,hq]
      obtain ⟨hs,hr⟩ := h first (by simp [hq])
      have hts : UInt32.ofNat (first.shift c).window.toNat+(first.shift c).seq < lastSeq+c ↔
          UInt32.ofNat first.window.toNat+first.seq < lastSeq := by
        have he : UInt32.ofNat (first.shift c).window.toNat+(first.shift c).seq =
          UInt32.ofNat first.window.toNat+first.seq+c := (add_assoc _ _ _).symm
        rw [he,← UInt32.not_le,← UInt32.not_le]
        exact not_congr hs.le_iff
      simp only [hm,hts,padToFirstPacket_moved]
      split
      · next hlt =>
        cases hn : t.padToFirstPacket with
        | none => rfl
        | some next => exact ih (hr hlt next hn)
      · rfl

lemma checkWindow_moved {c : UInt32} (t : TCPStream) (h : t.WindowSteady c) :
    (t.moved c).checkWindow = t.checkWindow.map (moved c) := by
  have hs : (t.moved c).state = t.state := rfl
  have hla : (t.moved c).queue.getLast? = t.queue.getLast?.map (Packet.shift c) := by simp [moved]
  have hln : (t.moved c).queue.length = t.queue.length := by simp [moved]
  rw [checkWindow,checkWindow,hs,hla,hln]
  split
  · next hd =>
    cases hl : t.queue.getLast? with
    | none => rfl
    | some last => exact padLoop_moved (h hd last hl)
  · rfl

lemma deliver_moved (c : UInt32) (t : TCPStream) (first : Packet) :
    (t.moved c).deliver (first.shift c) = (t.deliver first).moved c := by
  have hd : (t.moved c).nextSeq-(first.shift c).seq = t.nextSeq-first.seq :=
    add_sub_add_right_eq_sub _ _ _
  have hs : first.seq+c+(t.nextSeq-first.seq) = t.nextSeq+c := by abel
  simp only [deliver,hd]
  simp [moved,callback,Call.shift,Packet.shift,hs,add_right_comm t.nextSeq]

lemma drain_moved {c : UInt32} (t : TCPStream) (h : t.DrainSteady c queue) :
    (t.moved c).drain (queue.map (Packet.shift c)) = (t.drain queue).map (moved c) := by
  induction queue generalizing t with
  | nil => rfl
  | cons first rest ih =>
    obtain ⟨hs,hn⟩ := h
    have he : (t.moved c).nextSeq ≥ (first.shift c).seq+
          UInt32.ofNat (first.shift c).data.length ↔
        t.nextSeq ≥ first.seq+UInt32.ofNat first.data.length := by
      have hcm : (first.shift c).seq+UInt32.ofNat (first.shift c).data.length =
          first.seq+UInt32.ofNat first.data.length+c := add_right_comm _ _ _
      rw [hcm]
      exact hs.le_iff
    rw [map_cons,drain,drain]
    simp only [he]
    split at hn
    · next hold =>
      rw [if_pos hold,if_pos hold]
      have hc : (({(t.moved c) with state := .retransmission} : TCPStream).callback
          (first.shift c)) =
          (({t with state := .retransmission} : TCPStream).callback first).moved c :=
        moved_callback c {t with state := .retransmission} first
      rw [hc]
      exact ih _ hn
    · next hnw =>
      obtain ⟨hs',hn⟩ := hn
      have hst : (t.moved c).nextSeq ≥ (first.shift c).seq ↔ t.nextSeq ≥ first.seq := hs'.le_iff
      rw [if_neg hnw,if_neg hnw]
      simp only [hst]
      split at hn
      · next hd =>
        rw [if_pos hd,if_pos hd,deliver_moved]
        exact ih _ hn
      · next ha =>
        rw [if_neg ha,if_neg ha]
        exact checkWindow_moved {t with queue := first :: rest} hn

lemma insert_shift {c : UInt32} (h : InsertSteady c packet queue) :
    insert (packet.shift c) (queue.map (Packet.shift c)) =
      (insert packet queue).map (Packet.shift c) := by
  induction queue with
  | nil => rfl
  | cons i rest ih =>
    have hts : (packet.shift c).seq ≥ (i.shift c).seq ↔ packet.seq ≥ i.seq := h.1.le_iff
    simp only [map_cons,insert,hts]
    split
    · next hge => rw [ih (h.2 hge),map_cons]
    · rfl

lemma add_moved {c : UInt32}
    (h : packet.data = [] ∨ t.Fits packet ∧ InsertSteady c packet t.queue ∧
      DrainSteady c (t.tallied packet) (insert packet t.queue)) :
    (t.moved c).add (packet.shift c) = (t.add packet).map (moved c) := by
  have hd : (packet.shift c).data = packet.data := rfl
  by_cases he : packet.data = []
  · rw [add,add,hd,if_pos he,if_pos he,map_some]
    exact congrArg some (moved_callback c {t with state := .retransmission} packet)
  · obtain ⟨hft,hi,hdr⟩ := h.resolve_left he
    have hft' : (t.moved c).Fits (packet.shift c) := hft
    rw [add,add,hd,if_neg he,if_neg he,account_eq t he,if_pos hft,
      account_eq _ (hd ▸ he),if_pos hft',bind_some,bind_some]
    exact (congrArg _ (insert_shift hi)).trans (drain_moved (t.tallied packet) hdr)

lemma establish_moved (c : UInt32) (t : TCPStream) (packet : Packet) :
    (t.shift c).establish (packet.shift c) = (t.establish packet).moved c := by
  cases hs : packet.syn <;>
    simp [establish,callback,shift,moved,Call.shift,Packet.shift,hs,add_right_comm]

lemma receive_state (h : t.receive packet = some next) :
    next.state ≠ .none := by
  have ha : ∀ tcp : TCPStream, tcp.state ≠ .none → tcp.add packet = some next →
      next.state ≠ .none := by
    intro tcp hs h
    rw [add] at h
    split at h
    · rw [← some.inj h]
      simp [callback]
    · next hne =>
      rw [account_eq tcp hne] at h
      split at h
      · rw [bind_some] at h
        obtain ⟨next',hn,hst⟩ :=
          drain_returns (t := tcp.tallied packet) (insert packet tcp.queue) hs
        exact some.inj (hn.symm.trans h) ▸ hst
      · cases h
  rw [receive] at h
  split at h
  · exact ha _ (by simp [establish]) h
  · next hs => exact ha t hs h

lemma receive_shift {c : UInt32} (h : t.Steady c packet) :
    (t.shift c).receive (packet.shift c) = (t.receive packet).map (shift c) := by
  have hm : (t.shift c).receive (packet.shift c) = (t.receive packet).map (moved c) := by
    have hst : (t.shift c).state = t.state := rfl
    rw [receive,receive,hst]
    rw [Steady] at h
    split
    · next hs =>
      rw [if_pos hs] at h
      rw [establish_moved]
      exact add_moved h
    · next hs =>
      rw [if_neg hs] at h
      rw [shift_eq_moved c (.inl hs)]
      exact add_moved h
  rw [hm]
  cases hn : t.receive packet with
  | none => rfl
  | some next => rw [map_some,map_some,shift_eq_moved c (.inl (receive_state hn))]

end TCPStream

def Event.shift (c : UInt32) (event : Event) : Event :=
  {event with packet := event.packet.map (Packet.shift c)}

lemma ofCall_shift (c : UInt32) (i : Nat) (calls : List Call) :
    (calls.map (Call.shift c)).map (ofCall i) = (calls.map (ofCall i)).map (shift c) := by
  simp [ofCall,shift,Call.shift]

def delivered (events : List Event) : List (Nat × Bytes) :=
  events.filterMap fun event => if event.state = .data then
    event.packet.map fun packet => (event.stream,packet.data) else none

lemma delivered_shift (c : UInt32) (events : List Event) :
    delivered (events.map (shift c)) = delivered events := by
  rw [delivered,delivered,List.filterMap_map]
  simp only [shift,Function.comp,Option.map_map]
  rfl

def Stream.shift (c : UInt32) (self : Stream) : Stream := {self with tcp := self.tcp.shift c}

namespace StreamTable

def shift (c : UInt32) (self : StreamTable) : StreamTable :=
  {self with
    heap := Option.map (Stream.shift c) ∘ self.heap
    log := self.log.map (Event.shift c)}

variable {c : UInt32} {self : StreamTable}

@[simp] lemma shift_heap (i : Nat) :
    (self.shift c).heap i = (self.heap i).map (Stream.shift c) := rfl

lemma scan_shift {test : Stream → Bool} (hts : ∀ s, test (Stream.shift c s) = test s)
    (l : List Nat) : (self.shift c).scan test l = self.scan test l := by
  induction l with
  | nil => rfl
  | cons i rest ih =>
    rw [scan,scan,shift_heap]
    cases self.heap i with
    | none => rfl
    | some s => rw [map_some,bind_some,bind_some,hts,ih]

lemma touch_shift (i : Nat) : (self.shift c).touch i = (self.touch i).map (shift c) := by
  rw [touch,touch,shift_heap]
  cases self.heap i <;> rfl

lemma create_shift (addr : Tuple4) : (self.shift c).create addr = (self.create addr).shift c := by
  simp only [create,shift,Function.comp_update]
  rfl

lemma findStream_shift (addr : Tuple4) : (self.shift c).findStream addr =
    (self.findStream addr).map (Prod.map (shift c) id) := by
  have ht : (self.shift c).table = self.table := rfl
  have hs (x : Tuple4) (l : List Nat) : (self.shift c).scan (fun s => s.addr = x) l =
      self.scan (fun s => s.addr = x) l := scan_shift (fun _ => rfl) l
  have htc (i : Nat) (j : Nat) : ((self.shift c).touch i).map (fun table => (table,j)) =
      ((self.touch i).map fun table => (table,j)).map (Prod.map (shift c) id) := by
    rw [touch_shift]
    cases self.touch i <;> rfl
  have hr : (self.shift c).findReverse addr =
      (self.findReverse addr).map (Prod.map (shift c) id) := by
    rw [findReverse,findReverse,hs,ht]
    cases self.scan (fun s => s.addr = addr.swap) (self.table (mkhash addr.swap)) with
    | none => rfl
    | some found =>
      cases found with
      | none =>
        rw [bind_some,bind_some,create_shift]
        rfl
      | some i =>
        simp only [bind_some,shift_heap]
        cases self.heap i with
        | none => rfl
        | some s => exact htc i s.reverse
  rw [findStream,findStream,hs,ht]
  cases self.scan (fun s => s.addr = addr) (self.table (mkhash addr)) with
  | none => rfl
  | some found =>
    cases found with
    | none => exact hr
    | some i => exact htc i i

variable {i : Nat} {arrival : Tuple4 × Packet}

lemma perform_shift {f g : TCPStream → Option TCPStream} (hfg : ∀ s, self.heap i = some s →
    g (s.tcp.clear.shift c) = (f s.tcp.clear).map (TCPStream.shift c)) :
    (self.shift c).perform i g = (self.perform i f).map (shift c) := by
  rw [perform,perform,shift_heap]
  cases hi : self.heap i with
  | none => rfl
  | some s =>
    have hcl : (Stream.shift c s).tcp.clear = s.tcp.clear.shift c := rfl
    rw [map_some,bind_some,bind_some,hcl,hfg s hi]
    cases f s.tcp.clear with
    | none => rfl
    | some tcp =>
      have hl (t : TCPStream) : (t.shift c).queue.length = t.queue.length := by
        simp [TCPStream.shift,TCPStream.moved]
      have hc : (tcp.shift c).calls = tcp.calls.map (Call.shift c) := rfl
      simp only [map_some,shift,Stream.shift,hl,hc,ofCall_shift,Function.comp_update,map_append]
      rfl

variable (hsn : self.Sound)
include hsn

lemma Sound.free_shift {s : Stream} (hi : self.heap i = some s)
    (hd : s.direction = .forward) : (self.shift c).free i = (self.free i).map (shift c) := by
  obtain ⟨r,hr,-⟩ := hsn.partner hi
  have hne := hsn.reverse_ne hi
  obtain ⟨t,ht,htq,-⟩ := s.tcp.clear.padData_pads
  obtain ⟨u,hu,huq,-⟩ := r.tcp.clear.padData_pads
  obtain ⟨t',ht',htc⟩ := TCPStream.padData_shift c ht
  obtain ⟨u',hu',huc⟩ := TCPStream.padData_shift c hu
  obtain ⟨t'',ht'',htq',-⟩ := (s.tcp.clear.shift c).padData_pads
  obtain ⟨u'',hu'',huq',-⟩ := (r.tcp.clear.shift c).padData_pads
  obtain rfl := some.inj (ht'.symm.trans ht'')
  obtain rfl := some.inj (hu'.symm.trans hu'')
  have hi' : (self.shift c).heap i = some (Stream.shift c s) := by rw [shift_heap,hi,map_some]
  have hr' : (self.shift c).heap (Stream.shift c s).reverse = some (Stream.shift c r) :=
    (congrArg (Option.map (Stream.shift c)) hr).trans (map_some ..)
  have hl (t : TCPStream) : (t.shift c).queue.length = t.queue.length := by
    simp [TCPStream.shift,TCPStream.moved]
  have hlg : farewell i s.reverse t' u' = (farewell i s.reverse t u).map (Event.shift c) := by
    rw [farewell,farewell,htc,huc,ofCall_shift,ofCall_shift,map_append,map_append]
    rfl
  rw [free_eq hi hd hr hne ht htq hu huq,free_eq hi' hd hr' hne ht' htq' hu' huq',map_some]
  simp only [Stream.shift,hl,hlg,StreamTable.without,shift,Function.comp_update,
    Option.map_none,map_append]

section

variable {test : Stream → Bool} (hf : ∀ s, test s = true → s.direction = .forward)
  (hts : ∀ s, test (Stream.shift c s) = test s)

include hf hts

lemma Sound.freeFirst_shift {l : List Nat} (hl : ∀ i ∈ l, ∃ s, self.heap i = some s) :
    (self.shift c).freeFirst test l = (self.freeFirst test l).map (shift c) := by
  rw [StreamTable.freeFirst,StreamTable.freeFirst,scan_shift hts]
  rcases scan_cases test hl with ⟨hsc,-⟩ | ⟨i,s,-,hs,hp,hsc⟩
  · rw [hsc]
    rfl
  · rw [hsc]
    exact hsn.free_shift hs (hf s hp)

lemma Sound.freeInBuckets_shift :
    (self.shift c).freeInBuckets test = (self.freeInBuckets test).map (shift c) := by
  have hl {t : StreamTable} (ht : t.Sound) {k : Fin 256} :
      ∀ i ∈ t.table k, ∃ s, t.heap i = some s := fun i hi => (ht.live hi).imp fun s hs => hs.1
  have hr : run (freeFirstAt test) (self.shift c) ((finRange 256).map id) =
      (run (freeFirstAt test) self (finRange 256)).map (shift c) := by
    refine run_map (I := Sound) (C := fun _ _ => True)
      (fun t k ht _ => ht.freeFirst_shift hf hts (hl ht)) (fun t k next ht hn => ?_)
      hsn (along_of_forall (fun _ _ => trivial) self (finRange 256))
    obtain ⟨next',hn',hsh⟩ := ht.freeFirst test hf (hl ht)
    exact some.inj (hn'.symm.trans hn) ▸ hsh.sound
  rwa [List.map_id] at hr

end

lemma Sound.limitStreams_shift :
    (self.shift c).limitStreams = self.limitStreams.map (shift c) := by
  have hfr : (self.shift c).expireOldestStream = self.expireOldestStream.map (shift c) := by
    refine hsn.freeFirst_shift (fun _ hs => of_decide_eq_true hs) (fun _ => rfl) fun i hi => ?_
    obtain ⟨link,hl⟩ := (hsn.sorted i).mp (mem_reverse.mp hi)
    exact (links_eq_some hl).imp fun s hs => hs.1
  rw [StreamTable.limitStreams,StreamTable.limitStreams,hfr,apply_ite (Option.map (shift c))]
  rfl

lemma Sound.tally_shift (id : Int) :
    (self.shift c).tally id = (self.tally id).map (shift c) := by
  have hfr : (self.shift c).checkForExpiredPackets id =
      (self.checkForExpiredPackets id).map (shift c) :=
    hsn.freeInBuckets_shift (fun _ hs => (of_decide_eq_true hs).1) fun _ => rfl
  rw [StreamTable.tally,StreamTable.tally,hfr,apply_ite (Option.map (shift c)),Option.map_map,
    Option.map_map]
  rfl

omit hsn

lemma receive_shift {packet : Packet} (h : ∀ s ∈ self.heap i, ∀ r ∈ self.heap s.reverse,
      ({s.tcp.clear with reverseTotalSize := r.tcp.totalSize} : TCPStream).Steady c packet) :
    (self.shift c).receive i (packet.shift c) = (self.receive i packet).map (shift c) := by
  rw [receive,receive,shift_heap]
  cases hi : self.heap i with
  | none => rfl
  | some s =>
    have hh : (self.shift c).heap (Stream.shift c s).reverse =
      (self.heap s.reverse).map (Stream.shift c) := rfl
    simp only [map_some,bind_eq_bind,bind_some,hh]
    cases hr : self.heap s.reverse with
    | none => rfl
    | some r =>
      simp only [map_some,bind_some]
      rw [perform_shift fun s' hs' => ?_]
      · cases self.perform i fun tcp =>
            ({tcp with reverseTotalSize := r.tcp.totalSize} : TCPStream).receive packet with
        | none => rfl
        | some mid =>
          rw [map_some,bind_some,bind_some,shift_heap]
          cases mid.heap i with
          | none => rfl
          | some t =>
            let g (tcp : TCPStream) : Option TCPStream :=
              some {tcp with totalSize := t.tcp.reverseTotalSize}
            exact perform_shift (f := g) (g := g) fun _ _ => rfl
      · obtain rfl := some.inj (hi.symm.trans hs')
        have hst : ({s.tcp.clear.shift c with
            reverseTotalSize := (Stream.shift c r).tcp.totalSize} : TCPStream) =
          ({s.tcp.clear with reverseTotalSize := r.tcp.totalSize} : TCPStream).shift c := rfl
        rw [hst,TCPStream.receive_shift (h s hi r hr)]

/-- `TCPStream.Steady` for the stream that the packet is given. -/
def Steady (c : UInt32) (self : StreamTable) (arrival : Tuple4 × Packet) : Prop :=
  ∀ found ∈ self.findStream arrival.1, ∀ s ∈ found.1.heap found.2,
    ∀ r ∈ found.1.heap s.reverse,
      ({s.tcp.clear with reverseTotalSize := r.tcp.totalSize} : TCPStream).Steady c arrival.2

instance (c : UInt32) (self : StreamTable) (arrival : Tuple4 × Packet) :
    Decidable (self.Steady c arrival) :=
  inferInstanceAs (Decidable (∀ found ∈ self.findStream arrival.1, ∀ s ∈ found.1.heap found.2,
    ∀ r ∈ found.1.heap s.reverse,
      ({s.tcp.clear with reverseTotalSize := r.tcp.totalSize} : TCPStream).Steady c arrival.2))

def processStep (self : StreamTable) (arrival : Tuple4 × Packet) : Option StreamTable :=
  self.process arrival.1 arrival.2

include hsn

lemma Sound.processStep_shift (h : self.Steady c arrival) :
    (self.shift c).processStep (arrival.map id (Packet.shift c)) =
      (self.processStep arrival).map (shift c) := by
  obtain ⟨addr,packet⟩ := arrival
  obtain ⟨t,i,hfi,hfd⟩ := hsn.findStream addr
  have hrc : (t.shift c).receive i (packet.shift c) = (t.receive i packet).map (shift c) :=
    receive_shift fun s hs r hr => h (t,i) hfi s hs r hr
  simp only [processStep,Prod.map,id,StreamTable.process,findStream_shift,hfi,map_some,
    bind_eq_bind,bind_some,hrc]
  cases hu : t.receive i packet with
  | none => rfl
  | some u =>
    have hus : u.Sound := hfd.sound.of_keeps (receive_keeps hu)
    rw [map_some,bind_some,bind_some,hus.limitStreams_shift]
    obtain ⟨v,hv,hvs⟩ := hus.limitStreams
    rw [hv,map_some,bind_some,bind_some]
    exact hvs.sound.tally_shift packet.id

omit hsn

lemma Steady.hasRoom (h : self.Steady c arrival) :
    self.HasRoom (.process arrival.1 arrival.2) := by
  intro t i hfi s r hs hr
  rcases h (t,i) hfi s hs r hr with he | ⟨hft,-⟩
  · exact .inl he
  · exact hft

def payloads (self : StreamTable) : List (Nat × Bytes) := delivered self.log

def SameData (configuration : Configuration) (streams skbuffs : Int) (c : UInt32)
    (arrivals : List (Tuple4 × Packet)) : Prop :=
  ∃ table table', run processStep (con configuration streams skbuffs) arrivals = some table ∧
    run processStep (con configuration streams skbuffs)
      (arrivals.map (Prod.map id (Packet.shift c))) = some table' ∧
    table'.payloads = table.payloads

/-- The data that is delivered does not depend on where the sequence numbers start, in every run
in which the shift wraps numbers that are compared together. -/
theorem shift_invariant (configuration : Configuration) (streams skbuffs : Int) (c : UInt32)
    (arrivals : List (Tuple4 × Packet))
    (h : Along processStep (Steady c) (con configuration streams skbuffs) arrivals) :
    SameData configuration streams skbuffs c arrivals := by
  have hk : ∀ (t : StreamTable) (arrival : Tuple4 × Packet) (next : StreamTable), t.Sound →
      t.processStep arrival = some next → next.Sound := fun t arrival next ht hn =>
    (ht.process hn).1
  have hst : (con configuration streams skbuffs).shift c = con configuration streams skbuffs := rfl
  have hsn := con_sound configuration streams skbuffs
  have hr := run_map (g := Prod.map id (Packet.shift c))
    (fun t arrival ht hs => ht.processStep_shift hs) hk hsn h
  obtain ⟨table,htb⟩ := (run_returns_along (P := fun _ => True)
    (fun t arrival _ ht => ht.process_iff arrival.1 arrival.2)
    (fun t arrival next _ => hk t arrival next) (fun _ _ => trivial) hsn).1.mpr
    (h.imp fun t arrival hs => hs.hasRoom)
  rw [hst,htb,map_some] at hr
  exact ⟨table,table.shift c,htb,hr,delivered_shift c table.log⟩

/-- A SYN and two segments near the end of the sequence numbers, the second one first. -/
def nearEnd : List (Tuple4 × Packet) :=
  [(nearTuple,⟨1,4294960000,100,true,[]⟩),(nearTuple,⟨2,4294960004,100,false,[4,5]⟩),
    (nearTuple,⟨3,4294960001,100,false,[1,2,3]⟩)]

theorem shift_invariant_nearEnd :
    Along processStep (Steady 1) (con .default 0 0) nearEnd ∧ SameData .default 0 0 1 nearEnd :=
  have h : Along processStep (Steady 1) (con .default 0 0) nearEnd := by decide +kernel
  ⟨h,shift_invariant .default 0 0 1 nearEnd h⟩

/-- A SYN and a segment of three bytes just before the numbers wrap. -/
def wrapping : List (Tuple4 × Packet) :=
  [(nearTuple,⟨1,4294967293,100,true,[]⟩),(nearTuple,⟨2,4294967294,100,false,[1,2,3]⟩)]

/-- The segment is lost, but not when the numbers are larger by 10. -/
theorem payloads_wrapping : (run processStep (con .default 0 0) wrapping).map payloads = some [] ∧
    (run processStep (con .default 0 0) (wrapping.map (Prod.map id (Packet.shift 10)))).map
      payloads = some [(0,[1,2,3])] := by
  decide +kernel

end StreamTable

end Aff4.Pyflag
