import Aff4.Image

/-! Which writes an image takes. `AFF4Image_write` cuts them into bevies as it should as long as its
counters and the buffers have room. -/

namespace Aff4

open LittleEndian Loop Transition List Option Nat StringIO

def roundUp (size n : Nat) : Nat := (n+size-1)/size*size

lemma roundUp_eq {size n k : Nat} (hlt : k*size < n) (hle : n ≤ (k+1)*size) :
    roundUp size n = (k+1)*size := by
  have hd : (n+size-1)/size = k+1 := by
    refine Nat.div_eq_of_lt_le ?_ ?_
    · rw [Nat.succ_mul]
      omega
    · rw [Nat.succ_mul (k+1)]
      omega
  rw [roundUp,hd]

lemma le_roundUp {size n k : Nat} (hlt : k*size < n) : (k+1)*size ≤ roundUp size n := by
  by_cases hsz : size = 0
  · simp [hsz]
  · refine mul_le_mul_right _ ((le_div_iff_mul_le (pos_of_ne_zero hsz)).mpr ?_)
    rw [succ_mul]
    omega

lemma roundUp_lt {size : Nat} (hsz : 0 < size) (n : Nat) : roundUp size n < n+size := by
  have := div_mul_le_self (n+size-1) size
  rw [roundUp]
  omega

namespace AFF4Image

def level (bevySize k n : Nat) : Nat := min (n-k*bevySize) bevySize

def allocated (bevySize : Nat) (writes : List Bytes) (k : Nat) : Nat :=
  StringIO.grown (writes.inits.map fun done => level bevySize k done.flatten.length)

section

variable (bevySize : Nat) (writes : List Bytes)
include bevySize writes

lemma allocated_snoc (buffer : Bytes) (k : Nat) :
    allocated bevySize (writes ++ [buffer]) k = grow (allocated bevySize writes k)
      (level bevySize k (writes.flatten.length+buffer.length)) := by
  simp [allocated, grown,inits_append]

lemma allocated_pos (k : Nat) : 0 < allocated bevySize writes k := by
  induction writes using reverseRecOn with
  | nil => simp [allocated, grown, grow, con,level]
  | append_singleton writes buffer ih =>
    rw [allocated_snoc]
    exact lt_of_lt_of_le ih ( le_grow _ _)

lemma level_lt_allocated (k : Nat) :
    level bevySize k writes.flatten.length < allocated bevySize writes k := by
  induction writes using reverseRecOn with
  | nil => simp [allocated, grown, grow, con,level]
  | append_singleton writes buffer ih =>
    rw [allocated_snoc,flatten_append,length_append,flatten_singleton]
    exact lt_grow (allocated_pos _ _ _) _

end

lemma allocated_later {bevySize k : Nat} {writes : List Bytes}
    (h : writes.flatten.length ≤ k*bevySize) : allocated bevySize writes k = con.allocSize := by
  induction writes using reverseRecOn with
  | nil => simp [allocated, grown, grow, con,level]
  | append_singleton writes buffer ih =>
    have hln : writes.flatten.length+buffer.length ≤ k*bevySize := by simpa using h
    have hz : level bevySize k (writes.flatten.length+buffer.length) = 0 := by
      rw [level]
      omega
    rw [allocated_snoc,ih (by omega),hz]
    rfl

lemma allocated_le (bevySize : Nat) (writes : List Bytes) (k : Nat) :
    allocated bevySize writes k ≤ max con.allocSize (2*bevySize) := by
  induction writes using reverseRecOn with
  | nil => simp [allocated, grown, grow, con,level]
  | append_singleton writes buffer ih =>
    have hle : level bevySize k (writes.flatten.length+buffer.length) ≤ bevySize := min_le_right _ _
    rw [allocated_snoc, grow]
    split
    · exact ih
    · omega

/-- The writes that an image takes: the number of bevies and the offsets are `int`s, and no buffer
outgrows what can be allocated. -/
structure Takes (bevySize : Nat) (writes : List Bytes) : Prop where
  count : writes.flatten.length/bevySize < 2^31
  offsets : ∀ before buffer, before ++ [buffer] <+: writes →
    roundUp bevySize (before.flatten.length+buffer.length) < before.flatten.length+2^31
  room : ∀ k, allocated bevySize writes k < maxTallocSize

lemma Takes.nil {bevySize : Nat} : Takes bevySize [] where
  count := by simp
  offsets before buffer h := by simp at h
  room k := by
    rw [allocated_later (by simp)]
    decide

lemma Takes.of_small {bevySize : Nat} {writes : List Bytes} (hp : 0 < bevySize)
    (hsm : bevySize < 2^27) (hln : ∀ buffer ∈ writes, buffer.length+bevySize ≤ 2^31)
    (ht : writes.flatten.length < 2^31*bevySize) : Takes bevySize writes where
  count := (div_lt_iff_lt_mul hp).mpr ht
  offsets before buffer h := by
    have := hln buffer (h.subset (mem_append_right _ mem_cons_self))
    have := roundUp_lt hp (before.flatten.length+buffer.length)
    omega
  room k := by
    refine lt_of_le_of_lt (allocated_le bevySize writes k) ?_
    simp only [ con,maxTallocSize]
    omega

/-- What one more write asks of the bevies from `k` on. -/
structure TakesNext (bevySize : Nat) (writes : List Bytes) (buffer : Bytes) (k : Nat) : Prop where
  count : (writes.flatten.length+buffer.length)/bevySize < 2^31
  offset : roundUp bevySize (writes.flatten.length+buffer.length) < writes.flatten.length+2^31
  room : ∀ j, k ≤ j → StringIO.grow (allocated bevySize writes j)
    (level bevySize j (writes.flatten.length+buffer.length)) < maxTallocSize

lemma takesNext_succ_iff {bevySize k : Nat} {writes : List Bytes} {buffer : Bytes}
    (hft : grow (allocated bevySize writes k)
      (level bevySize k (writes.flatten.length+buffer.length)) < maxTallocSize) :
    TakesNext bevySize writes buffer (k+1) ↔ TakesNext bevySize writes buffer k := by
  constructor
  · intro h
    refine ⟨h.count,h.offset,fun j hj => ?_⟩
    rcases eq_or_lt_of_le hj with rfl | hj
    · exact hft
    · exact h.room j hj
  · intro h
    exact ⟨h.count,h.offset,fun j hj => h.room j (le_of_succ_le hj)⟩

lemma takes_snoc {bevySize : Nat} {writes : List Bytes} {buffer : Bytes} :
    Takes bevySize (writes ++ [buffer]) ↔ Takes bevySize writes ∧
      TakesNext bevySize writes buffer (writes.flatten.length/bevySize) := by
  constructor
  · intro h
    have hln : (writes ++ [buffer]).flatten.length = writes.flatten.length+buffer.length := by simp
    refine ⟨⟨?_,fun before b hb => ?_,fun k => ?_⟩,⟨?_,?_,fun j _ => ?_⟩⟩
    · refine Nat.lt_of_le_of_lt (Nat.div_le_div_right ?_) h.count
      omega
    · exact h.offsets before b (hb.trans (prefix_append _ _))
    · refine Nat.lt_of_le_of_lt ?_ (h.room k)
      rw [allocated_snoc]
      exact le_grow _ _
    · exact hln ▸ h.count
    · exact h.offsets writes buffer (prefix_refl _)
    · exact allocated_snoc .. ▸ h.room j
  · rintro ⟨h,hn⟩
    refine ⟨by simpa using hn.count,fun before b hb => ?_,fun k => ?_⟩
    · rcases prefix_concat_iff.mp hb with he | hb
      · obtain ⟨rfl,hl⟩ := append_inj' he rfl
        obtain rfl := singleton_inj.mp hl
        exact hn.offset
      · exact h.offsets before b hb
    · rw [allocated_snoc]
      by_cases hk : writes.flatten.length/bevySize ≤ k
      · exact hn.room k hk
      · -- A bevy that was full before the write is left as it is.
        have hfu : (k+1)*bevySize ≤ writes.flatten.length :=
          (Nat.mul_le_mul_right _ (Nat.not_le.mp hk)).trans (Nat.div_mul_le_self _ _)
        have hlt := level_lt_allocated bevySize writes k
        have hsa : level bevySize k (writes.flatten.length+buffer.length) =
            level bevySize k writes.flatten.length := by
          rw [Nat.succ_mul] at hfu
          simp only [level]
          omega
        rw [hsa, grow_of_lt hlt]
        exact h.room k

structure Filled (bevySize : Nat) (writes : List Bytes) (image : AFF4Image) : Prop where
  size : image.bevySize = bevySize
  written : image.Written writes.flatten
  room : image.current.bevy.data.length < bevySize
  appending : image.current.bevy.Appending
  alloc : image.current.bevy.allocSize = allocated bevySize writes image.segmentCount

lemma Written.length_eq {s : AFF4Image} {content : Bytes} (hs : s.Written content) :
    content.length = s.segmentCount*s.bevySize+s.current.bevy.data.length := by
  rw [hs.content,length_append,blocks_length hs.blocks_full,length_map,hs.scheduled_length]

/-- In the middle of the write of `buffer` after some others. The current bevy has not been
touched by it unless the buffer is used up. -/
structure Filling (params : ImageParameters) (writes : List Bytes) (buffer : Bytes)
    (state : Int × AFF4Image) : Prop where
  taking : Taking params (writes.flatten ++ buffer) buffer state
  appending : state.2.current.bevy.Appending
  alloc : state.2.current.bevy.allocSize = StringIO.grow
    (allocated params.bevySize writes state.2.segmentCount) state.2.current.bevy.data.length
  fresh : state.1 < buffer.length → state.2.current.bevy.data.length <
    allocated params.bevySize writes state.2.segmentCount
  offset : state.1 ≠ 0 → writes.flatten.length+state.1 = roundUp params.bevySize
    (state.2.segmentCount*params.bevySize+state.2.current.bevy.data.length)

lemma writeTurn_more {s : AFF4Image} {buffer : Bytes} {offset : Nat}
    (hln : buffer.length < 2^31) (hm : offset < buffer.length)
    (hr : s.current.bevy.data.length < s.bevySize) : writeTurn buffer (offset,s) =
      (s.current.bevy.write
        (slice buffer offset (s.bevySize-s.current.bevy.data.length))).bind fun bevy =>
      (toInt ((offset+(s.bevySize-s.current.bevy.data.length) : Nat))).bind fun offset =>
      {s with current := {s.current with bevy := bevy}}.flushFull.bind fun s =>
        some (.next (offset,s)) := by
  have hp : slice buffer offset (min ((buffer.length : Int)-offset)
      ((s.bevySize : Int)-s.current.bevy.data.length)).toNat =
      slice buffer offset (s.bevySize-s.current.bevy.data.length) := by
    rw [slice,slice,take_eq_take_iff,length_drop]
    omega
  have ho : (offset : Int)+((s.bevySize : Int)-s.current.bevy.data.length) =
      ((offset+(s.bevySize-s.current.bevy.data.length) : Nat) : Int) := by omega
  rw [writeTurn,fillTurn_eq hln (by omega),if_neg (not_le.mpr hm)]
  simp only [hp,ho,bind_assoc,bind_some]

section

variable {params : ImageParameters} {writes : List Bytes} {buffer : Bytes}
  {offset : Nat} {s : AFF4Image} (hln : buffer.length < 2^31)
  (hs : Filling params writes buffer (offset,s))

include hs in
lemma Filling.size : s.bevySize = params.bevySize :=
  congrArg ImageParameters.bevySize hs.taking.parameters

include hs in
lemma Filling.position : writes.flatten.length+min offset buffer.length =
    s.segmentCount*params.bevySize+s.current.bevy.data.length := by
  obtain ⟨taken,hw,hwh⟩ := hs.taking.taken
  have ht := hw.length_eq
  have ha := congrArg length hwh
  simp only [length_append,length_drop,Int.toNat_natCast] at ha
  rw [← hs.size]
  simp only at ht
  omega

include hs in
lemma Filling.level_eq (hm : offset < buffer.length) :
    s.current.bevy.data.length+(slice buffer offset
      (s.bevySize-s.current.bevy.data.length)).length =
    level params.bevySize s.segmentCount (writes.flatten.length+buffer.length) := by
  have hp := hs.position
  have hr : s.current.bevy.data.length < s.bevySize := hs.taking.room
  rw [hs.size] at hr ⊢
  rw [slice_length,level]
  omega

include hs in
lemma Filling.alloc_eq (hm : offset < buffer.length) :
    s.current.bevy.allocSize = allocated params.bevySize writes s.segmentCount := by
  rw [hs.alloc]
  exact grow_of_lt (hs.fresh (Int.ofNat_lt.mpr hm))

include hs in
lemma Filling.offset_eq (hm : offset < buffer.length) :
    writes.flatten.length+(offset+(s.bevySize-s.current.bevy.data.length)) =
      (s.segmentCount+1)*params.bevySize := by
  have hp := hs.position
  have hr : s.current.bevy.data.length < s.bevySize := hs.taking.room
  rw [hs.size] at hr ⊢
  rw [succ_mul]
  omega

include hs in
lemma Filling.allocated_next :
    allocated params.bevySize writes (s.segmentCount+1) = con.allocSize := by
  have hp := hs.position
  have hr : s.current.bevy.data.length < s.bevySize := hs.taking.room
  refine allocated_later ?_
  rw [hs.size] at hr
  rw [succ_mul]
  omega

include hln hs in
lemma Filling.goes (hm : offset < buffer.length)
    (hn : TakesNext params.bevySize writes buffer s.segmentCount) :
    ∃ state, writeTurn buffer (offset,s) = some (.next state) := by
  have hr : s.current.bevy.data.length < s.bevySize := hs.taking.room
  have hp := hs.position
  have ho := hs.offset_eq hm
  have hb : s.segmentCount*params.bevySize < writes.flatten.length+buffer.length := by omega
  have hle := le_roundUp hb
  have hmx := hn.offset
  have hbv := (hs.appending.write_iff (slice buffer offset
    (s.bevySize-s.current.bevy.data.length)) _).mpr
    ⟨by rw [hs.level_eq hm,hs.alloc_eq hm]; exact hn.room _ (le_refl _),rfl⟩
  have hint : toInt ((offset+(s.bevySize-s.current.bevy.data.length) : Nat)) =
      some ((offset+(s.bevySize-s.current.bevy.data.length) : Nat) : Int) := by
    rw [toInt,if_pos]
    omega
  rw [writeTurn_more hln hm hr,hbv,bind_some,hint,bind_some,flushFull]
  split
  · next hfu =>
    simp only [length_append] at hfu
    have hl := hs.level_eq hm
    have hc : (s.segmentCount+1)*params.bevySize ≤
        writes.flatten.length+buffer.length := by
      rw [hl,level,hs.size] at hfu
      rw [succ_mul]
      omega
    have hps : 0 < params.bevySize := hs.size ▸ zero_lt_of_lt hr
    have hd := (le_div_iff_mul_le hps).mpr hc
    have hint : toInt (s.segmentCount+1) = some (s.segmentCount+1 : Int) := by
      have := hn.count
      rw [toInt,if_pos]
      omega
    rw [flush,hint]
    exact ⟨_,rfl⟩
  · exact ⟨_,rfl⟩

include hln hs in
lemma Filling.next (hm : offset < buffer.length) {state : Int × AFF4Image}
    (h : writeTurn buffer (offset,s) = some (.next state)) : Filling params writes buffer state ∧
      (TakesNext params.bevySize writes buffer state.2.segmentCount ↔
        TakesNext params.bevySize writes buffer s.segmentCount) := by
  have hrm : s.current.bevy.data.length < s.bevySize := hs.taking.room
  have hp := hs.position
  have ho := hs.offset_eq hm
  have hl := hs.level_eq hm
  have ht := (Taking.next hln hs.taking h).1
  have hps : 0 < params.bevySize := hs.size ▸ zero_lt_of_lt hrm
  rw [writeTurn_more hln hm hrm] at h
  obtain ⟨bevy,hb,h⟩ := bind_eq_some_iff.mp h
  obtain ⟨offset',hint,h⟩ := bind_eq_some_iff.mp h
  obtain ⟨s',hfl,h⟩ := bind_eq_some_iff.mp h
  obtain ⟨rfl,-,-⟩ := toInt_eq_some hint
  cases h
  obtain ⟨hft,hb'⟩ := (hs.appending.write_iff _ _).mp hb
  have ha := hs.appending.write hb
  rw [hs.alloc_eq hm,hl] at hft
  have hsz : bevy.data.length =
      level params.bevySize s.segmentCount (writes.flatten.length+buffer.length) := by
    rw [hb',← hl,length_append]
  rw [flushFull] at hfl
  split at hfl
  · next hfu =>
    obtain ⟨_,-,rfl⟩ := map_eq_some_iff.mp hfl
    have hlt := hs.allocated_next
    refine ⟨⟨ht, con_appending,?_,fun _ => ?_,fun _ => ?_⟩,takesNext_succ_iff hft⟩
    · simp only [hlt]
      rfl
    · simp only [hlt]
      exact con_appending.room
    · have hr : roundUp params.bevySize ((s.segmentCount+1)*params.bevySize) =
          (s.segmentCount+1)*params.bevySize :=
        roundUp_eq (mul_lt_mul_of_pos_right (lt_succ_self _) hps) (le_refl _)
      have he : (ImageWorker.con (s.segmentCount+1)).bevy.data.length = 0 := rfl
      simp only [he,add_zero,hr]
      exact_mod_cast ho
  · next hfu =>
    cases hfl
    have hls : bevy.data.length < s.bevySize := not_le.mp hfu
    refine ⟨⟨ht,ha,?_,fun hgo => ?_,fun _ => ?_⟩,Iff.rfl⟩
    · simp only [hsz]
      rw [hb',hl,hs.alloc_eq hm]
    · -- The buffer is used up, since the bevy did not become full.
      rw [hs.size] at hls
      rw [hsz,level] at hls
      simp only at hgo
      rw [succ_mul] at ho
      omega
    · have hr : roundUp params.bevySize
          (s.segmentCount*params.bevySize+bevy.data.length) =
          (s.segmentCount+1)*params.bevySize := by
        rw [hs.size] at hls
        refine roundUp_eq ?_ ?_
        · rw [hsz,level]
          omega
        · rw [succ_mul]
          omega
      simp only [hr]
      exact_mod_cast ho

include hs in
lemma Filling.last (hsm : params.bevySize < 2^31) (hd : buffer.length ≤ offset) :
    TakesNext params.bevySize writes buffer s.segmentCount := by
  have hr : s.current.bevy.data.length < s.bevySize := hs.taking.room
  have hp := hs.position
  obtain ⟨taken,hw,-⟩ := hs.taking.taken
  rw [hs.size] at hr
  have hps : 0 < params.bevySize := zero_lt_of_lt hr
  have ht : writes.flatten.length+buffer.length =
      s.segmentCount*params.bevySize+s.current.bevy.data.length := by omega
  refine ⟨?_,?_,fun j hj => ?_⟩
  · have hlt : writes.flatten.length+buffer.length < (s.segmentCount+1)*params.bevySize := by
      rw [succ_mul]
      omega
    exact lt_of_le_of_lt (le_of_lt_succ ((div_lt_iff_lt_mul hps).mpr hlt))
      hw.count
  · by_cases hz : offset = 0
    · have := roundUp_lt hps (writes.flatten.length+buffer.length)
      omega
    · have := hs.offset (Int.natCast_ne_zero.mpr hz)
      obtain ⟨_,he,hlt⟩ := hs.taking.offset
      simp only at this he
      rw [ht]
      omega
  · rcases eq_or_lt_of_le hj with rfl | hj
    · have hl : level params.bevySize s.segmentCount
          (writes.flatten.length+buffer.length) = s.current.bevy.data.length := by
        rw [level,ht]
        omega
      have ha := hs.alloc
      simp only at ha
      rw [hl,← ha]
      exact hs.appending.small
    · have hle : (s.segmentCount+1)*params.bevySize ≤ j*params.bevySize := mul_le_mul_right _ hj
      rw [succ_mul] at hle
      have hz : level params.bevySize j (writes.flatten.length+buffer.length) = 0 := by
        rw [level,ht]
        omega
      rw [hz,allocated_later (by omega)]
      decide

include hln hs in
lemma Filling.turn_done (hd : buffer.length ≤ offset) :
    writeTurn buffer (offset,s) = some (.done s) := by
  obtain ⟨_,he,hlt⟩ := hs.taking.offset
  simp only at he
  rw [writeTurn,fillTurn_eq hln (by omega),if_pos hd]
  rfl

end

section

variable {bevySize : Nat} {writes : List Bytes} {buffer : Bytes} {s : AFF4Image}
  (hsm : bevySize < 2^31) (hln : buffer.length < 2^31) (hf : Filled bevySize writes s)

include hf in
lemma Filled.segmentCount_eq : s.segmentCount = writes.flatten.length/bevySize := by
  have hr := hf.room
  rw [hf.written.length_eq,hf.size,mul_comm,mul_add_div (by omega),div_eq_of_lt hr,add_zero]

include hf in
lemma Filled.filling (buffer : Bytes) : Filling s.toImageParameters writes buffer (0,s) := by
  have hl := hf.written.length_eq
  have hr := hf.room
  have hfr : s.current.bevy.data.length <
      allocated s.bevySize writes s.segmentCount := by
    refine lt_of_le_of_lt ?_ (level_lt_allocated _ _ _)
    rw [level,hf.size]
    rw [hf.size] at hl
    omega
  refine ⟨hf.written.taking (hf.size ▸ hf.room) buffer,hf.appending,?_,fun _ => hfr,
    fun h => absurd rfl h⟩
  rw [ grow_of_lt hfr,hf.alloc,hf.size]

include hsm hln hf in
lemma Filled.write_iff : (∃ next, s.write buffer = some next) ↔
    TakesNext bevySize writes buffer (writes.flatten.length/bevySize) := by
  obtain rfl := hf.size
  rw [← hf.segmentCount_eq]
  refine loop_returns_iff (Filling s.toImageParameters writes buffer)
    (fun state => TakesNext s.bevySize writes buffer state.2.segmentCount)
    (fun state => buffer.length-state.1.toNat) ?_ (hf.filling buffer) (lt_succ_self _)
  rintro ⟨_,s'⟩ hs
  obtain ⟨offset,rfl,-⟩ := hs.taking.offset
  by_cases hm : offset < buffer.length
  · right
    cases ht : writeTurn buffer (offset,s') with
    | none =>
      refine .inl ⟨rfl,fun hn => ?_⟩
      obtain ⟨state,hst⟩ := hs.goes hln hm hn
      simp [ht] at hst
    | some outcome =>
      cases outcome with
      | done next =>
        obtain ⟨hle,-⟩ | ⟨-,_,_,-,-,-,he⟩ := writeTurn_cases hln
          (lt_trans hm hln) ht
        · omega
        · cases he
      | next state =>
        obtain ⟨hs',hi⟩ := hs.next hln hm ht
        exact .inr ⟨state,rfl,hs',(Taking.next hln hs.taking ht).2,hi⟩
  · exact .inl ⟨s',hs.turn_done hln (not_lt.mp hm),hs.last hsm (not_lt.mp hm)⟩

include hln hf in
lemma Filled.write {next : AFF4Image} (h : s.write buffer = some next) :
    Filled bevySize (writes ++ [buffer]) next := by
  obtain rfl := hf.size
  refine loop_rule (Filling s.toImageParameters writes buffer)
    (Filled s.bevySize (writes ++ [buffer])) ?_ ?_ (hf.filling buffer) h
  · rintro ⟨_,s'⟩ state hs ht
    obtain ⟨offset,rfl,-⟩ := hs.taking.offset
    by_cases hm : offset < buffer.length
    · exact (hs.next hln hm ht).1
    · rw [hs.turn_done hln (not_lt.mp hm)] at ht
      cases ht
  · rintro ⟨_,s'⟩ result hs ht
    obtain ⟨offset,rfl,-⟩ := hs.taking.offset
    have hd : buffer.length ≤ offset := by
      by_contra hm
      obtain ⟨hle,-⟩ | ⟨-,_,_,-,-,-,he⟩ := writeTurn_cases hln (by omega) ht
      · exact hm hle
      · cases he
    obtain ⟨hw,hr,hpr⟩ := hs.taking.done hln ht
    rw [hs.turn_done hln hd] at ht
    cases ht
    refine ⟨hs.size,by simpa using hw,hs.size ▸ hr,hs.appending,?_⟩
    have hp := hs.position
    have hl : level s.bevySize s'.segmentCount
        (writes.flatten.length+buffer.length) = s'.current.bevy.data.length := by
      rw [hs.size] at hr
      rw [level]
      omega
    rw [allocated_snoc,hl]
    exact hs.alloc

end

lemma Filled.start {image writer : AFF4Image} (hch : 0 < image.chunkSize)
    (hcn : 0 < image.chunksInSegment) (h : image.finish .w = some (true,writer)) :
    Filled (image.chunkSize*image.chunksInSegment) [] writer := by
  obtain ⟨-,hp,-,hst⟩ := finish_cases hch hcn h
  obtain ⟨hw,he⟩ := hst rfl
  have hc : writer.current.bevy = .con := by
    obtain ⟨_,-,h⟩ := map_eq_some_iff.mp h
    cases h
    rfl
  refine ⟨congrArg ImageParameters.bevySize hp,hw,?_,?_,?_⟩
  · rw [he]
    exact mul_pos hch hcn
  · rw [hc]
    exact con_appending
  · rw [hc,allocated_later (zero_le _)]

/-- The workers that went to the thread pool hold the data that were written, one full bevy
each and in order, and the rest is in the current one. -/
structure Partition (bevySize : Nat) (image : AFF4Image) (writes : List Bytes) : Prop where
  numbers : image.scheduled.map ImageWorker.segmentCount = range image.scheduled.length
  full : ∀ job ∈ image.scheduled, job.bevy.data.length = bevySize
  fewer : image.current.bevy.data.length < bevySize
  content : (image.scheduled.map fun job => job.bevy.data).flatten ++ image.current.bevy.data =
    writes.flatten

lemma Filled.partition {bevySize : Nat} {writes : List Bytes} {image : AFF4Image}
    (hf : Filled bevySize writes image) : Partition bevySize image writes := by
  have hc : image.scheduled.length = image.segmentCount := by
    simpa using congrArg length hf.written.numbers
  refine ⟨?_,?_,hf.room,hf.written.content.symm⟩
  · rw [hc]
    exact hf.written.numbers
  · exact hf.size ▸ hf.written.full

lemma finish_accepted {image : AFF4Image}
    (hp : image.chunkSize*image.chunksInSegment < 2^31) :
    ∃ writer, image.finish .w = some (true,writer) := by
  have hlt : (image.chunkSize : Int)*image.chunksInSegment < 2^31 := by exact_mod_cast hp
  rw [finish,toInt,if_pos ⟨by omega,hlt⟩]
  exact ⟨_,rfl⟩

/-- Writes of less than 2 GiB each go into bevies as they should exactly when the image takes
them all. -/
theorem partition_iff {image : AFF4Image} (hc : 0 < image.chunkSize)
    (hcn : 0 < image.chunksInSegment)
    (hp : image.chunkSize*image.chunksInSegment < 2^31) {writes : List Bytes}
    (hln : ∀ buffer ∈ writes, buffer.length < 2^31) :
    (∃ writer next, image.finish .w = some (true,writer) ∧ run write writer writes = some next ∧
      Partition (image.chunkSize*image.chunksInSegment) next writes) ↔
    Takes (image.chunkSize*image.chunksInSegment) writes := by
  obtain ⟨writer,hfn⟩ := finish_accepted hp
  obtain ⟨hi,hfl⟩ := run_returns_iff (P := fun buffer => buffer.length < 2^31)
    (I := Filled (image.chunkSize*image.chunksInSegment)) (Filled.start hc hcn hfn)
    Takes.nil (fun _ _ h => (takes_snoc.mp h).1)
    (fun _ _ _ hb hf ht => (hf.write_iff hp hb).trans
      ⟨fun hn => takes_snoc.mpr ⟨ht,hn⟩,fun h => (takes_snoc.mp h).2⟩)
    (fun _ _ _ _ hb hf h => hf.write hb h) hln
  rw [← hi]
  constructor
  · rintro ⟨writer',next,hw,hr,-⟩
    obtain rfl : writer = writer' := by simpa [hfn] using hw
    exact ⟨next,hr⟩
  · rintro ⟨next,hr⟩
    exact ⟨writer,next,hfn,hr,(hfl next hr).partition⟩

def newImage (chunksInSegment : Nat) : AFF4Image where
  urn := .set fqn
  chunkSize := 32*1024
  compression := 0
  chunksInSegment := chunksInSegment
  bevySize := 0
  segmentCount := 0
  current := .con 0
  scheduled := []

theorem partition_default_size : ∃ writer next, (newImage 1024).finish .w = some (true,writer) ∧
    run write writer [chars ['a'],chars ['b','c']] = some next ∧
    Partition (32*1024*1024) next [chars ['a'],chars ['b','c']] :=
  (@partition_iff (newImage 1024) (by decide) (by decide) (by decide) _ (by decide)).mpr
    (.of_small (by decide) (by decide) (by decide) (by decide))

/-- The buffer of a bevy of 512 MiB cannot take 256 MiB. -/
theorem partition_large_write_fails : ¬ ∃ writer next,
    (newImage (16*1024)).finish .w = some (true,writer) ∧
    run write writer [replicate (2^28) 0] = some next ∧
    Partition (32*1024*(16*1024)) next [replicate (2^28) 0] := by
  rintro ⟨writer,next,hfn,hrn,-⟩
  obtain ⟨mid,hm,-⟩ := run_cons hrn
  have hst : Filled (32*1024*(16*1024)) [] writer := Filled.start (by decide) (by decide) hfn
  have hl : (replicate (2^28) (0 : UInt8)).length = 2^28 := length_replicate
  have hn := (hst.write_iff (by decide) (by rw [hl]; decide)).mp ⟨mid,hm⟩
  have hr := hn.room 0 (by decide)
  rw [hl,allocated_later (zero_le _)] at hr
  exact absurd hr (by decide)

end AFF4Image

end Aff4
