import Aff4.TcpTable

/-! What `TCPHashTable_flush` does to the streams of a table (tcp.c). The loop over a
bucket is left after the first stream that it frees. -/

namespace Aff4.Pyflag

open Transition List Option

def handed (i : Nat) (events : List Event) : List Int :=
  events.filterMap fun event =>
    if event.stream = i ∧ event.state = .data then event.packet.map Packet.id else none

lemma handed_append (i : Nat) (events more : List Event) :
    handed i (events ++ more) = handed i events ++ handed i more :=
  filterMap_append

variable {i : Nat}

lemma handed_of_ne {j : Nat} (hne : j ≠ i) (calls : List Call) :
    handed i (calls.map (Event.ofCall j)) = [] := by simp [handed,Event.ofCall,hne]

lemma handed_pads {s next : TCPStream} {front : List Packet} (h : s.clear.Pads next front) :
    handed i (next.calls.map (Event.ofCall i)) = front.map Packet.id := by
  obtain ⟨calls,hc,hs,hi⟩ := h.calls
  have hn : next.calls = calls := hc
  rw [hn,← hi,handed,filterMap_map]
  have heq : ∀ call ∈ calls, ((fun event : Event =>
      if event.stream = i ∧ event.state = .data then event.packet.map Packet.id else none) ∘
      Event.ofCall i) call = some call.packet.id := by
    intro call hcl
    simp [Event.ofCall,hs call hcl]
  rw [filterMap_congr heq,filterMap_eq_map']

namespace StreamTable

variable {self next : StreamTable}

def forwardIn (self : StreamTable) (k : Fin 256) : List Nat :=
  (self.table k).filter fun i => (self.links i).any fun link => link.direction = .forward

variable {i j : Nat} {events : List Event} {s : Stream}

lemma mem_forwardIn {k : Fin 256} : i ∈ self.forwardIn k ↔
    i ∈ self.table k ∧ ∃ link, self.links i = some link ∧ link.direction = .forward := by
  simp [forwardIn,Option.any_eq_true]

lemma without_forwardIn (hj : ∀ link, self.links j = some link →
    link.direction ≠ .forward) (released : Int) (events : List Event) (k : Fin 256) :
    (self.without i j released events).forwardIn k = (self.forwardIn k).filter fun x => x ≠ i := by
  have ht : (self.without i j released events).table k = listDel j (listDel i (self.table k)) := rfl
  simp only [forwardIn,ht,listDel,List.filter_filter]
  refine List.filter_congr fun x _ => ?_
  rw [without_links]
  by_cases hxi : x = i
  · simp [hxi]
  · by_cases hxj : x = j
    · subst hxj
      cases hx : self.links x with
      | none => simp
      | some link => simp [hj link hx]
    · simp [hxi,hxj]

/-- What has become of the streams of a table whose buckets are being flushed. -/
structure Flushed (table next : StreamTable) (events : List Event) : Prop
    extends Shrinks table next where
  heap : ∀ i s, next.heap i = some s → table.heap i = some s
  log : next.log = table.log ++ events
  kept : ∀ i s, next.heap i = some s → handed i events = []
  absent : ∀ i, table.heap i = none → handed i events = []
  gone : ∀ i s, table.heap i = some s → next.heap i = none →
    handed i events = s.tcp.queue.map Packet.id ∧ ⟨i,.destroy,none⟩ ∈ events

lemma Sound.flushed (h : self.Sound) : Flushed self self [] :=
  ⟨h.refl,fun _ _ hi => hi,(append_nil _).symm,fun _ _ _ => rfl,fun _ _ => rfl,
    fun i s hi hn => by simp [hi] at hn⟩

lemma Flushed.heap_none (h : Flushed self next events)
    (hi : self.heap i = none) : next.heap i = none := by
  cases hs : next.heap i with
  | none => rfl
  | some s =>
    rw [h.heap i s hs] at hi
    cases hi

lemma Flushed.trans {mid : StreamTable} {more : List Event}
    (h : Flushed self mid events) (h' : Flushed mid next more) :
    Flushed self next (events ++ more) := by
  refine ⟨h.toShrinks.trans h'.toShrinks,fun i s hi => h.heap i s (h'.heap i s hi),
    by rw [h'.log,h.log,append_assoc],fun i s hi => ?_,fun i hi => ?_,fun i s hi hn => ?_⟩
  · rw [handed_append,h.kept i s (h'.heap i s hi),h'.kept i s hi,append_nil]
  · rw [handed_append,h.absent i hi,h'.absent i (h.heap_none hi),append_nil]
  · rw [handed_append]
    cases hm : mid.heap i with
    | none =>
      obtain ⟨hid,hs⟩ := h.gone i s hi hm
      exact ⟨by rw [hid,h'.absent i hm,append_nil],mem_append_left _ hs⟩
    | some t =>
      obtain rfl : s = t := some.inj (hi.symm.trans (h.heap i t hm))
      obtain ⟨hid,hs⟩ := h'.gone i s hm hn
      exact ⟨by rw [h.kept i s hm,hid,nil_append],mem_append_right _ hs⟩

lemma handed_farewell (hne : j ≠ i) (t u : TCPStream) (k : Nat) :
    handed k (farewell i j t u) = if k = i then handed i (t.calls.map (Event.ofCall i))
      else if k = j then handed j (u.calls.map (Event.ofCall j)) else [] := by
  have hd : handed k [⟨i,.destroy,none⟩,⟨j,.destroy,none⟩] = [] := by simp [handed]
  rw [farewell,handed_append,handed_append,hd,append_nil]
  by_cases hi : k = i
  · subst hi
    rw [if_pos rfl,handed_of_ne hne,append_nil]
  · rw [if_neg hi,handed_of_ne (Ne.symm hi),nil_append]
    split
    · next hj => rw [hj]
    · next hj => exact handed_of_ne (Ne.symm hj) _

lemma without_heap_eq_some {k : Nat} {released : Int} :
    (self.without i j released events).heap k = some s ↔ self.heap k = some s ∧ k ≠ i ∧ k ≠ j := by
  simp only [without,Function.update_apply]
  by_cases hj : k = j
  · simp [hj]
  · by_cases hi : k = i <;> simp [hi,hj]

lemma Sound.free_flushed (h : self.Sound) (hi : self.heap i = some s)
    (hd : s.direction = .forward) : ∃ next events, self.free i = some next ∧
      Flushed self next events ∧
      ∀ k, next.forwardIn k = (self.forwardIn k).filter fun x => x ≠ i := by
  obtain ⟨r,hr,hrv,-,hrd⟩ := h.partner hi
  have hne := h.reverse_ne hi
  obtain ⟨t,ht,htq,htp⟩ := s.tcp.clear.padData_pads
  obtain ⟨u,hu,huq,hup⟩ := r.tcp.clear.padData_pads
  refine ⟨_,_,free_eq hi hd hr hne ht htq hu huq,⟨h.without (links_of_heap hi) _ _,fun k p hk => ?_,rfl,fun k p hk => ?_,
    fun k hk => ?_,fun k p hk hn => ?_⟩,fun k => without_forwardIn (fun link hl => ?_) _ _ k⟩
  · exact (without_heap_eq_some.mp hk).1
  · obtain ⟨-,hki,hkj⟩ := without_heap_eq_some.mp hk
    rw [handed_farewell hne,if_neg hki,if_neg hkj]
  · rw [handed_farewell hne,if_neg,if_neg]
    · rintro rfl
      rw [hk] at hr
      cases hr
    · rintro rfl
      rw [hk] at hi
      cases hi
  · rw [handed_farewell hne]
    by_cases hki : k = i
    · subst hki
      obtain rfl : s = p := some.inj (hi.symm.trans hk)
      exact ⟨by rw [if_pos rfl,handed_pads htp,TCPStream.clear],by simp [farewell]⟩
    · by_cases hkj : k = s.reverse
      · subst hkj
        obtain rfl : r = p := some.inj (hr.symm.trans hk)
        exact ⟨by rw [if_neg hki,if_pos rfl,handed_pads hup,TCPStream.clear],by simp [farewell]⟩
      · rw [without_heap_eq_some.mpr ⟨hk,hki,hkj⟩] at hn
        cases hn
  · rw [links_of_heap hr,some.injEq] at hl
    subst hl
    exact fun hf => hrd (hf.trans hd.symm)

lemma Sound.freeFirstAt_flushed (h : self.Sound) (k : Fin 256) :
    ∃ next events, freeFirstAt (fun s => s.direction = .forward) self k = some next ∧
      Flushed self next events ∧ ∀ k', (next.forwardIn k').length =
        if k' = k then (self.forwardIn k').length-1 else (self.forwardIn k').length := by
  have hlv : ∀ i ∈ self.table k, ∃ s, self.heap i = some s := fun i hi =>
    (h.live hi).imp fun s hs => hs.1
  simp only [freeFirstAt,StreamTable.freeFirst]
  rcases scan_cases (fun s => s.direction = .forward) hlv with
    ⟨hsc,hno⟩ | ⟨i,s,hm,hs,hts,hsc⟩
  · refine ⟨self,[],by rw [hsc,bind_some],h.flushed,fun k' => ?_⟩
    have he : self.forwardIn k = [] := by
      refine eq_nil_iff_forall_not_mem.mpr fun i hi => ?_
      obtain ⟨hm,link,hl,hf⟩ := mem_forwardIn.mp hi
      obtain ⟨s,hs,rfl⟩ := links_eq_some hl
      exact absurd hf (of_decide_eq_false (hno i hm s hs))
    split
    · next heq => rw [heq,he,length_nil]
    · rfl
  · have hf : s.direction = .forward := of_decide_eq_true hts
    obtain ⟨next,events,hfr,hfl,hc⟩ := h.free_flushed hs hf
    refine ⟨next,events,by rw [hsc,bind_some]; exact hfr,hfl,fun k' => ?_⟩
    have hn : (self.forwardIn k').Nodup := (h.nodup k').filter _
    rw [hc]
    split
    · next heq =>
      subst heq
      have hi : i ∈ self.forwardIn k' := mem_forwardIn.mpr ⟨hm,_,links_of_heap hs,hf⟩
      rw [← length_erase_of_mem hi,hn.erase_eq_filter]
      congr 1
      exact filter_congr fun x _ => by by_cases hx : x = i <;> simp [hx]
    · next hne =>
      rw [filter_eq_self.mpr]
      intro x hx
      refine decide_eq_true fun hxi => hne ?_
      obtain ⟨t,ht,hk'⟩ := h.live (hxi ▸ (mem_forwardIn.mp hx).1)
      obtain ⟨t',ht',hk⟩ := h.live hm
      rw [← hk',← hk,some.inj (ht.symm.trans ht')]

lemma Sound.run_flushed (h : self.Sound) {ks : List (Fin 256)} (hks : ks.Nodup) :
    ∃ next events, run (freeFirstAt fun s => s.direction = .forward) self ks = some next ∧
      Flushed self next events ∧
      ∀ k, (k ∈ ks → (next.forwardIn k).length = (self.forwardIn k).length-1) ∧
        (k ∉ ks → (next.forwardIn k).length = (self.forwardIn k).length) := by
  induction ks generalizing self with
  | nil => exact ⟨self,[],rfl,h.flushed,fun k => by simp⟩
  | cons k ks ih =>
    obtain ⟨hk,hks⟩ := nodup_cons.mp hks
    obtain ⟨mid,events,hm,hf,hc⟩ := h.freeFirstAt_flushed k
    obtain ⟨next,more,hn,hf',hc'⟩ := ih hf.sound hks
    refine ⟨next,_,by rw [run,hm,bind_some,hn],hf.trans hf',fun k' => ?_⟩
    have hl := hc k'
    by_cases hk' : k' = k
    · subst hk'
      rw [if_pos rfl] at hl
      simpa [hl] using (hc' k').2 hk
    · rw [if_neg hk'] at hl
      simpa [hk',hl] using hc' k'

/-- Every packet that waited was handed to the callback and removed, every forward stream was
signalled and the buckets are empty. -/
structure Complete (table next : StreamTable) (events : List Event) : Prop where
  handed : ∀ i link s, table.Tracks i link → table.heap i = some s →
    handed i events = s.tcp.queue.map Packet.id
  removed : ∀ i s, next.heap i = some s → s.tcp.queue = []
  destroyed : ∀ i link, table.Tracks i link → link.direction = .forward → ⟨i,.destroy,none⟩ ∈ events
  empty : ∀ k, next.table k = []

/-- A flush is complete exactly when no bucket has two forward streams. -/
theorem flush_complete_iff (h : self.Sound) : ∃ next events, self.flush = some next ∧
    next.log = self.log ++ events ∧
    (Complete self next events ↔ ∀ k, (self.forwardIn k).length ≤ 1) := by
  obtain ⟨next,events,hfl,hf,hcn⟩ := h.run_flushed (nodup_finRange 256)
  simp only [mem_finRange,forall_const,not_true_eq_false,false_imp_iff,and_true] at hcn
  refine ⟨next,events,hfl,hf.log,fun hc k => ?_,fun ho => ?_⟩
  · have hk := hcn k
    rw [forwardIn,hc.empty k,filter_nil,length_nil] at hk
    omega
  · -- a stream that is left would have a forward stream left with it
    have hfr : ∀ i link, next.links i = some link → link.direction ≠ .forward := by
      intro i link hi hdr
      have hm : i ∈ next.forwardIn (mkhash link.addr) :=
        mem_forwardIn.mpr ⟨(hf.sound.bucket _ i).mpr ⟨link,hi,rfl⟩,link,hi,hdr⟩
      have hp := length_pos_of_mem hm
      have hk := hcn (mkhash link.addr)
      have hle := ho (mkhash link.addr)
      omega
    have hg : ∀ i, next.heap i = none := by
      intro i
      cases hi : next.heap i with
      | none => rfl
      | some s =>
        obtain ⟨back,hbk,-,-,hdr⟩ := hf.sound.paired i _ (links_of_heap hi)
        have hs := hfr i _ (links_of_heap hi)
        have hb := hfr _ _ hbk
        cases hd : s.direction <;> cases hd' : back.direction <;> simp_all
    refine ⟨fun i link s _ hi => (hf.gone i s hi (hg i)).1,fun i s hi => ?_,
      fun i link hi _ => ?_,fun k => ?_⟩
    · rw [hg i] at hi
      cases hi
    · obtain ⟨s,hs,-⟩ := links_eq_some hi.2
      exact (hf.gone i s hs (hg i)).2
    · refine eq_nil_iff_forall_not_mem.mpr fun i hi => ?_
      obtain ⟨s,hs,-⟩ := hf.sound.live hi
      rw [hg i] at hs
      cases hs

/-- The second packet is ahead of the first and waits in the queue. -/
def aheadPackets (addr : Tuple4) : List Op :=
  [.process addr ⟨1,10,100,true,[]⟩,.process addr ⟨2,20,100,false,[7]⟩]

theorem flush_complete_iff_ahead : ∃ self, run step (con .default 0 0) (aheadPackets nearTuple) =
      some self ∧ self.Sound ∧ (self.heap 0).map (fun s => s.tcp.queue) =
        some [⟨2,20,100,false,[7]⟩] ∧
    ∃ next events, self.flush = some next ∧ next.log = self.log ++ events ∧
      Complete self next events := by
  obtain ⟨self,hrn⟩ := Option.isSome_iff_exists.mp
    (show (run step (con .default 0 0) (aheadPackets nearTuple)).isSome by decide +kernel)
  have hs : self.Sound := run_invariant (fun _ _ _ h hs => (Sound.step h hs).1) hrn
    (con_sound .default 0 0)
  have hd : ((run step (con .default 0 0) (aheadPackets nearTuple)).map fun self =>
      ((self.heap 0).map fun s => s.tcp.queue,decide (∀ k, (self.forwardIn k).length ≤ 1))) =
        some (some [⟨2,20,100,false,[7]⟩],true) := by decide +kernel
  rw [hrn,Option.map_some,Option.some.injEq,Prod.mk.injEq,decide_eq_true_eq] at hd
  obtain ⟨next,events,hf,hl,hc⟩ := flush_complete_iff hs
  exact ⟨self,hrn,hs,hd.1,next,events,hf,hl,hc.mpr hd.2⟩

/-- The second connection stays in its bucket with the packet that waits. -/
theorem flush_leaves_second :
    ((run step (con .default 0 0) ([nearTuple,farTuple].flatMap aheadPackets)).bind flush).map (fun next =>
        (next.table (mkhash farTuple),(next.heap 2).map fun s => s.tcp.queue,handed 2 next.log,
          (next.log.filter fun event => event.state = .destroy).map Event.stream)) =
      some ([2,3],some [⟨2,20,100,false,[7]⟩],[],[0,1]) := by
  decide +kernel

end StreamTable

end Aff4.Pyflag
