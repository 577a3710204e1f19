import Aff4.TcpShift

/-! Padding out a stream (`pad_data` of tcp.c): what is handed over, and when the next
sequence number goes back. -/

namespace Aff4.Pyflag.TCPStream

open List

/-- The next sequence number, and those of the queue with their ends, do not wrap around. They are
so close together that the signed distance of two of them is small only when they are near. -/
structure Unwrapping (lo : Nat) (tcp : TCPStream) : Prop where
  queue : ∀ p ∈ tcp.queue, lo ≤ p.seq.toNat ∧ p.seq.toNat+p.data.length < 2^32 ∧
    p.seq.toNat+p.data.length+50000 < lo+2^32
  nextSeq : lo ≤ tcp.nextSeq.toNat ∧ tcp.nextSeq.toNat+50000 < lo+2^32

def NeverLowers : Nat → TCPStream → Prop
  | 0, _ => True
  | fuel+1, self => self.queue ≠ [] → ∀ next, self.padToFirstPacket = some next →
      self.nextSeq ≤ next.nextSeq ∧ NeverLowers fuel next

/-- No packet starts more than 50000 before the end of what has been handed over. -/
def KeepsUp : Nat → List Packet → Prop
  | _, [] => True
  | next, p :: rest =>
      next ≤ p.seq.toNat+50000 ∧ KeepsUp (max next (p.seq.toNat+p.data.length)) rest

/-- `data_len` of a packet that is padded or trimmed, as an `int`. -/
def paddedLen (padLength dataLen : Int) : Int :=
  if 0 < padLength then dataLen+padLength
  else if padLength < 0 then if dataLen-(-padLength) < 0 then 0 else dataLen-(-padLength)
  else dataLen

lemma length_padded (padLength : Int) (first : Packet) :
    ((padded padLength first).data.length : Int) = paddedLen padLength first.data.length := by
  rw [padded,paddedLen]
  split
  · simp only [length_append,length_replicate]
    omega
  · split
    · simp only [length_drop]
      split <;> omega
    · rfl

variable {lo : Nat} {s : TCPStream} {first : Packet} {rest : List Packet}

lemma distance_eq {x y : UInt32} (h : x.toNat+50000 < y.toNat+2^32)
    (h' : y.toNat+50000 < x.toNat+2^32) :
    (50000 < (x-y).toBitVec.toInt ∨ (x-y).toBitVec.toInt < -50000 ↔
      x.toNat+50000 < y.toNat ∨ y.toNat+50000 < x.toNat) ∧
    (¬ (x.toNat+50000 < y.toNat ∨ y.toNat+50000 < x.toNat) →
      (x-y).toBitVec.toInt = x.toNat-y.toNat) := by
  have hy := y.toNat_lt
  have hs := UInt32.toNat_sub x y
  rw [BitVec.toInt_eq_toNat_cond,UInt32.toNat_toBitVec,hs]
  split <;> omega

section

variable (h : s.Unwrapping lo) (hq : s.queue = first :: rest)
include h hq

lemma padToFirstPacket_far (hf : first.seq.toNat+50000 < s.nextSeq.toNat ∨
    s.nextSeq.toNat+50000 < first.seq.toNat) :
    s.padToFirstPacket = some {s with nextSeq := first.seq} := by
  obtain ⟨hlo,he,hhi⟩ := h.queue first (hq ▸ mem_cons_self)
  have hn := h.nextSeq
  rw [padToFirstPacket_eq hq,padTo,if_pos]
  exact (distance_eq (by omega) (by omega)).1.mpr hf

lemma padToFirstPacket_near (hn : ¬ (first.seq.toNat+50000 < s.nextSeq.toNat ∨
    s.nextSeq.toNat+50000 < first.seq.toNat)) :
    ∃ next, s.padToFirstPacket = some next ∧ next.queue = rest ∧ next.Unwrapping lo ∧
      next.nextSeq.toNat = max s.nextSeq.toNat (first.seq.toNat+first.data.length) := by
  obtain ⟨hlo,he,hhi⟩ := h.queue first (hq ▸ mem_cons_self)
  obtain ⟨hnl,hnh⟩ := h.nextSeq
  obtain ⟨hi,heq⟩ := distance_eq (x := first.seq) (y := s.nextSeq) (by omega) (by omega)
  have hl := length_padded (first.seq-s.nextSeq).toBitVec.toInt first
  have hpd := heq hn
  have hlt := s.nextSeq.toNat_lt
  have hs : (s.nextSeq+UInt32.ofNat
      (padded (first.seq-s.nextSeq).toBitVec.toInt first).data.length).toNat =
        max s.nextSeq.toNat (first.seq.toNat+first.data.length) := by
    rw [UInt32.toNat_add,UInt32.toNat_ofNat']
    simp only [paddedLen] at hl
    split at hl
    · omega
    · split at hl
      · split at hl <;> omega
      · omega
  refine ⟨_,padToFirstPacket_eq hq,?_⟩
  rw [padTo,if_neg (hi.not.mpr hn)]
  refine ⟨rfl,⟨fun p hp => h.queue p (hq ▸ mem_cons_of_mem first hp),?_,?_⟩,hs⟩
  · exact le_of_le_of_eq (le_trans hnl (le_max_left _ _)) hs.symm
  · exact lt_of_eq_of_lt (congrArg (· + 50000) hs) (by omega)

end

variable {fuel : Nat}

lemma neverLowers_succ {next : TCPStream} (hq : s.queue ≠ [])
    (hn : s.padToFirstPacket = some next) :
    NeverLowers (fuel+1) s ↔ s.nextSeq.toNat ≤ next.nextSeq.toNat ∧ NeverLowers fuel next := by
  rw [NeverLowers,hn,← UInt32.le_iff_toNat_le]
  exact ⟨fun h => h hq next rfl,fun h _ u hu => Option.some.inj hu ▸ h⟩

lemma neverLowers_iff (h : s.Unwrapping lo) (hf : 2*s.queue.length ≤ fuel) :
    NeverLowers fuel s ↔ KeepsUp s.nextSeq.toNat s.queue := by
  generalize hq : s.queue = queue at hf
  induction queue generalizing s fuel with
  | nil =>
    refine iff_of_true ?_ trivial
    cases fuel with
    | zero => trivial
    | succ fuel => exact fun hne => absurd hq hne
  | cons first rest ih =>
    have hne : s.queue ≠ [] := hq ▸ cons_ne_nil _ _
    simp only [length_cons] at hf
    obtain ⟨fuel,rfl⟩ : ∃ f, fuel = f+1+1 := ⟨fuel-2,by omega⟩
    by_cases hfr : first.seq.toNat+50000 < s.nextSeq.toNat ∨
        s.nextSeq.toNat+50000 < first.seq.toNat
    · -- the first call moves the stream to the packet, the second one hands it over
      obtain ⟨hlo,-,hhi⟩ := h.queue first (hq ▸ mem_cons_self)
      have hm : Unwrapping lo {s with nextSeq := first.seq} := ⟨h.queue,hlo,by dsimp only; omega⟩
      obtain ⟨next,hn,hr,hun,hs⟩ := padToFirstPacket_near hm hq (by
        dsimp only
        omega)
      rw [neverLowers_succ hne (padToFirstPacket_far h hq hfr),neverLowers_succ (by exact hne) hn,
        ih hun hr (by omega),hs,KeepsUp]
      simp only [max_eq_right (Nat.le_add_right _ _),Nat.le_add_right,true_and]
      by_cases hle : s.nextSeq.toNat ≤ first.seq.toNat
      · rw [max_eq_right (by omega)]
        exact and_congr_left fun _ => iff_of_true hle (by omega)
      · exact iff_of_false (fun hb => hle hb.1) fun hb => by omega
    · obtain ⟨next,hn,hr,hun,hs⟩ := padToFirstPacket_near h hq hfr
      rw [neverLowers_succ hne hn,ih hun hr (by omega),hs,KeepsUp]
      exact and_congr_left fun _ => iff_of_true (le_max_left _ _) (by omega)

/-- `pad_data` ends after at most two calls for each packet and hands over every packet once and in
order, with no negative length. It never lowers `next_seq` exactly when the queue keeps up. -/
theorem padData_iff (self : TCPStream) {lo : Nat} (h : self.Unwrapping lo) :
    (∃ next, padLoopAll (2*self.queue.length+1) self = some next ∧ self.padData = some next ∧
      next.queue = [] ∧ Pads self next self.queue) ∧
    (∀ padLength (first : Packet), 0 ≤ paddedLen padLength first.data.length ∧
      ((padded padLength first).data.length : Int) = paddedLen padLength first.data.length) ∧
    (NeverLowers (2*self.queue.length+1) self ↔ KeepsUp self.nextSeq.toNat self.queue) := by
  obtain ⟨next,hn,he,hp⟩ := self.padData_pads
  refine ⟨⟨next,hn,hn,he,hp⟩,fun padLength first => ⟨?_,length_padded padLength first⟩,
    neverLowers_iff h (Nat.le_succ _)⟩
  rw [← length_padded]
  exact Int.natCast_nonneg _

theorem padData_iff_gap : ∃ tcp : TCPStream, tcp.Unwrapping 0 ∧
    tcp.queue = [⟨1,5,0,false,[1,2]⟩,⟨2,6,0,false,[3]⟩,⟨3,90000,0,false,[4]⟩] ∧
    NeverLowers (2*tcp.queue.length+1) tcp := by
  have h : Unwrapping 0 ⟨.data,[⟨1,5,0,false,[1,2]⟩,⟨2,6,0,false,[3]⟩,⟨3,90000,0,false,[4]⟩],
    3,0,0,0,[]⟩ := ⟨by simp,by decide⟩
  exact ⟨_,h,rfl,(padData_iff _ h).2.2.mpr (by simp [KeepsUp])⟩

theorem padData_lowers : ∃ tcp next : TCPStream, tcp.Unwrapping 0 ∧
    tcp.queue = [⟨1,0,0,false,[7]⟩] ∧ tcp.nextSeq = 50001 ∧
    tcp.padToFirstPacket = some next ∧ next.nextSeq = 0 ∧
    ¬ NeverLowers (2*tcp.queue.length+1) tcp := by
  refine ⟨⟨.data,[⟨1,0,0,false,[7]⟩],50001,0,0,0,[]⟩,_,⟨by simp,by decide⟩,rfl,rfl,rfl,rfl,
    fun h => ?_⟩
  exact absurd (h (by simp) _ rfl).1 (by decide)

end Aff4.Pyflag.TCPStream
