import Aff4.Lib.Loop
import Aff4.Lib.Transition
import Aff4.File

/-! Writing an encrypted stream (encrypt.c). The plaintext waits for a whole chunk of it, which is
encrypted under its number and appended to the backing store. -/

namespace Aff4

open LittleEndian Loop Transition List Option Nat StringIO

/-- An `AFF4Cipher` with its key. A chunk is a multiple of the block size. -/
structure Cipher where
  blocksize : Nat
  encrypt : Int → Bytes → Bytes
  decrypt : Int → Bytes → Bytes
  encrypt_length : ∀ number chunk, (encrypt number chunk).length = chunk.length
  decrypt_encrypt : ∀ number chunk, blocksize ∣ chunk.length →
    decrypt number (encrypt number chunk) = chunk

/-- `chunkSize` and `size` are the values of the two XSDIntegers, and `backing` is what the
backing store holds. -/
structure Encrypted where
  chunkSize : Int
  readptr : Int
  size : Int
  blockBuffer : StringIO
  backing : Bytes
  deriving DecidableEq, Repr

structure Draining where
  offset : Nat
  chunkId : Int
  backing : Bytes
  deriving DecidableEq, Repr

namespace Encrypted

def con (chunkSize : Int) : Encrypted := ⟨chunkSize,0,0, StringIO.con,[]⟩

def drain (cipher : Cipher) (chunkSize : Int) (data : Bytes) (s : Draining) :
    Option (Turn Draining (Nat × Bytes)) :=
  if chunkSize ≤ (data.length : Int) - s.offset then do
    let buff := cipher.encrypt s.chunkId (slice data s.offset chunkSize.toNat)
    let chunkId ← toInt (s.chunkId+1)
    some (.next ⟨s.offset+chunkSize.toNat,chunkId,s.backing ++ buff⟩)
  else some (.done (s.offset,s.backing))

/-- `StringIO_write` takes the length as an `unsigned int`. -/
def write (cipher : Cipher) (self : Encrypted) (buffer : Bytes) : Option Encrypted := do
  let chunkSize := wrapInt self.chunkSize
  let chunkId := wrapInt (self.readptr.tdiv chunkSize)
  -- a division by zero, or an array of negative length
  if chunkSize ≤ 0 then none
  else
    let blockBuffer ← self.blockBuffer.seekEnd.write (buffer.take (buffer.length%2^32))
    let self := {self with
      blockBuffer := blockBuffer, readptr := wrapLong (self.readptr+buffer.length)}
    if chunkSize ≤ blockBuffer.data.length then
      let (offset,backing) ← loop (drain cipher chunkSize blockBuffer.data)
        (blockBuffer.data.length+1) ⟨0,chunkId,self.backing⟩
      some {self with blockBuffer := blockBuffer.skip offset, backing := backing}
    else some {self with blockBuffer := blockBuffer.skip 0}

def close (cipher : Cipher) (self : Encrypted) : Option Encrypted :=
  let chunkSize := wrapInt self.chunkSize
  if chunkSize ≤ 0 then none
  else
    let toPad := wrapInt (chunkSize-self.readptr.tmod chunkSize)
    let self := {self with size := self.readptr}
    if 0 < toPad then self.write cipher (replicate toPad.toNat 0) else some self

/-- The first `n` chunks of the plaintext, encrypted under the numbers from `first` on. -/
def chunksFrom (cipher : Cipher) (c : Nat) (first : Int) (plain : Bytes) (n : Nat) : Bytes :=
  (range n).flatMap fun k : Nat => cipher.encrypt (first+k) (slice plain (k*c) c)

/-- The backing store holds the whole chunks of the plaintext, and the buffer the rest. -/
structure Stores (cipher : Cipher) (c : Nat) (plain : Bytes) (s : Encrypted) : Prop where
  backing : s.backing = chunksFrom cipher c 0 plain (plain.length/c)
  buffer : s.blockBuffer.data = plain.drop (plain.length/c*c)

/-- The backing store holds all of the plaintext with zeros up to a whole number of chunks. -/
def Padded (cipher : Cipher) (c : Nat) (plain : Bytes) (s : Encrypted) : Prop :=
  ∃ pad, pad ≤ c ∧ c ∣ plain.length+pad ∧
    s.backing = chunksFrom cipher c 0 (plain ++ replicate pad 0) ((plain.length+pad)/c)

def padding (c : Nat) (plain : Bytes) : Bytes := replicate (c-plain.length%c) 0

def levels (c : Nat) : Nat → List Bytes → List Nat
  | _, [] => []
  | t, w :: ws => (t%c+w.length) :: levels c (t+w.length) ws

/-- The writes for which the block buffer can be allocated and the chunk number after the last
chunk is an `int`. -/
structure Fits (c : Nat) (writes : List Bytes) : Prop where
  room : StringIO.grown (levels c 0 writes) < maxTallocSize
  count : writes.flatten.length/c < 2^31

section

variable {cipher : Cipher} {c n : Nat} {first : Int} {plain : Bytes}

lemma rest_lt (hc : 0 < c) (t : Nat) : t-t/c*c < c := by
  rw [mul_comm,← mod_eq_sub_mul_div]
  exact mod_lt t hc

lemma chunksFrom_succ : chunksFrom cipher c first plain (n+1) =
    chunksFrom cipher c first plain n ++ cipher.encrypt (first+n) (slice plain (n*c) c) := by
  simp [chunksFrom,range_succ]

lemma chunksFrom_length (h : n*c ≤ plain.length) :
    (chunksFrom cipher c first plain n).length = n*c := by
  induction n with
  | zero => simp [chunksFrom]
  | succ n ih =>
    rw [succ_mul] at h
    rw [chunksFrom_succ,length_append,ih (by omega),cipher.encrypt_length,slice_length,succ_mul]
    omega

lemma chunksFrom_append (h : n*c ≤ plain.length) (more : Bytes) :
    chunksFrom cipher c first (plain ++ more) n = chunksFrom cipher c first plain n := by
  refine flatMap_congr fun k hk => ?_
  have hle : (k+1)*c ≤ n*c := mul_le_mul_right c (mem_range.mp hk)
  rw [succ_mul] at hle
  rw [slice_append_left _ _ _ _ (by omega)]

lemma chunksFrom_add (q : Nat) : chunksFrom cipher c first plain (q+n) =
    chunksFrom cipher c first plain q ++ chunksFrom cipher c (first+q) (plain.drop (q*c)) n := by
  simp only [chunksFrom,range_add,flatMap_append,flatMap_map]
  simp only [slice,drop_drop,add_mul,cast_add,add_assoc]

end

section

variable (cipher : Cipher) {c : Nat} (data backing : Bytes) {first : Int}

lemma drain_next (hl : -2^31 ≤ first) {k : Nat} (hk : (k+1)*c ≤ data.length)
    (hh : first+k+1 < 2^31) :
    drain cipher c data ⟨k*c,first+k,backing ++ chunksFrom cipher c first data k⟩ =
      some (.next ⟨(k+1)*c,first+(k+1 : Nat),
        backing ++ chunksFrom cipher c first data (k+1)⟩) := by
  have hm : (c : Int) ≤ (data.length : Int)-(k*c : Nat) := by
    rw [succ_mul] at hk
    omega
  have hint : toInt (first+k+1) = some (first+(k+1 : Nat)) := by
    rw [toInt,if_pos ⟨by omega,hh⟩]
    congr 1
    omega
  simp only [drain,if_pos hm,hint,Int.toNat_natCast,bind_eq_bind,bind_some,
    chunksFrom_succ,succ_mul,append_assoc]

lemma loop_drain (hc : 0 < c) (hlw : -2^31 ≤ first) (hf : first < 2^31) :
    loop (drain cipher c data) (data.length+1) ⟨0,first,backing⟩ =
      if first+(data.length/c : Nat) < 2^31 then
        some (data.length/c*c,backing ++ chunksFrom cipher c first data (data.length/c))
      else none := by
  let state (k : Nat) : Draining := ⟨k*c,first+k,backing ++ chunksFrom cipher c first data k⟩
  have hs : (⟨0,first,backing⟩ : Draining) = state 0 := by simp [state,chunksFrom]
  have hd := div_mul_le_self data.length c
  have hnm : data.length/c ≤ data.length := div_le_self _ _
  have hn {m : Nat} (hm : m ≤ data.length/c) (hh : first+m < 2^31) (k : Nat) (hk : k < m) :
      drain cipher c data (state k) = some (.next (state (k+1))) := by
    have hle : (k+1)*c ≤ data.length/c*c := mul_le_mul_right c (by omega)
    exact drain_next cipher data backing hlw (by omega) (by omega)
  rw [hs]
  split
  · next hh =>
    refine loop_counted_done state (data.length/c) (hn (le_refl _) hh) ?_ (by omega)
    have hr := rest_lt hc data.length
    have hl : ¬ (c : Int) ≤ (data.length : Int)-(data.length/c*c : Nat) := by omega
    simp only [drain,state,if_neg hl]
  · next hh =>
    -- the chunk with the largest number is stored, and then the number overflows
    obtain ⟨m,hm⟩ : ∃ m : Nat, first+m = 2^31-1 := ⟨(2^31-1-first).toNat,by omega⟩
    have hlt : m < data.length/c := by omega
    rw [loop_counted state (hn hlt.le (by omega)) (zero_le m) (by omega)]
    obtain ⟨rest,hr⟩ : ∃ rest, data.length+1-(m-0) = rest+1 := ⟨data.length-m,by omega⟩
    have hle : (m+1)*c ≤ data.length/c*c := mul_le_mul_right c hlt
    rw [succ_mul] at hle
    have hmo : (c : Int) ≤ (data.length : Int)-(m*c : Nat) := by omega
    have ho : toInt (first+m+1) = none := by rw [toInt,if_neg (by omega)]
    have hno : drain cipher c data (state m) = none := by
      simp only [drain,state,if_pos hmo,ho]
      rfl
    rw [hr,loop,hno]
    rfl

end

/-! ### One write -/

structure Sound (s : Encrypted) : Prop where
  room : s.blockBuffer.data.length < s.blockBuffer.allocSize
  small : s.blockBuffer.allocSize < maxTallocSize

section

variable {cipher : Cipher} {t u : Encrypted} {c : Nat} {buffer : Bytes}

def filled (self : Encrypted) (buffer : Bytes) : Bytes :=
  self.blockBuffer.data ++ buffer.take (buffer.length%2^32)

lemma filled_length (t : Encrypted) (buffer : Bytes) :
    (t.filled buffer).length = t.blockBuffer.data.length+buffer.length%2^32 := by
  simp [filled]
  omega

lemma filled_of_lt (h : buffer.length < 2^32) :
    t.filled buffer = t.blockBuffer.data ++ buffer := by rw [filled,mod_eq_of_lt h,take_length]

variable (cipher buffer) in
lemma write_eq (hs : t.Sound) (hc : 0 < c) (hsz : wrapInt t.chunkSize = c) :
    t.write cipher buffer =
      if grow t.blockBuffer.allocSize (t.filled buffer).length < maxTallocSize ∧
          wrapInt (t.readptr.tdiv c)+((t.filled buffer).length/c : Nat) < 2^31 then
        some { t with
          readptr := wrapLong (t.readptr+buffer.length)
          blockBuffer := ⟨(t.filled buffer).drop ((t.filled buffer).length/c*c),0,
            grow t.blockBuffer.allocSize (t.filled buffer).length⟩
          backing := t.backing ++ chunksFrom cipher c (wrapInt (t.readptr.tdiv c))
            (t.filled buffer) ((t.filled buffer).length/c) }
      else none := by
  have he : t.blockBuffer.seekEnd.Appending := ⟨rfl,hs.room,hs.small⟩
  have hw := he.write_iff (buffer.take (buffer.length%2^32))
  have hl : t.blockBuffer.seekEnd.data.length+(buffer.take (buffer.length%2^32)).length =
      (t.filled buffer).length := by
    rw [filled,length_append]
    rfl
  rw [hl] at hw
  obtain ⟨hlw,hh⟩ := wrapInt_bounds (t.readptr.tdiv c)
  simp only [write,hsz,if_neg (show ¬ (c : Int) ≤ 0 by omega)]
  by_cases hg : grow t.blockBuffer.allocSize (t.filled buffer).length < maxTallocSize
  · have hio : t.blockBuffer.seekEnd.write (buffer.take (buffer.length%2^32)) =
        some ⟨t.filled buffer,(t.filled buffer).length,
          grow t.blockBuffer.allocSize (t.filled buffer).length⟩ :=
      (hw _).mpr ⟨hg,rfl⟩
    simp only [hio,bind_eq_bind,bind_some, skip,hg,true_and]
    by_cases hch : c ≤ (t.filled buffer).length
    · rw [if_pos (by omega),loop_drain cipher _ _ hc hlw hh]
      split <;> rfl
    · have hn : (t.filled buffer).length/c = 0 := div_eq_of_lt (by omega)
      simpa [hn,hch,chunksFrom] using hh
  · have hio : t.blockBuffer.seekEnd.write (buffer.take (buffer.length%2^32)) = none := by
      refine eq_none_iff_forall_ne_some.mpr fun io hio => ?_
      exact hg ((hw io).mp hio).1
    simp only [hio,hg,false_and,if_false]
    rfl

lemma write_fixed (h : t.write cipher buffer = some u) :
    u.chunkSize = t.chunkSize ∧ u.size = t.size := by
  simp only [write,bind_eq_bind] at h
  split at h
  · cases h
  · obtain ⟨io,-,h⟩ := bind_eq_some_iff.mp h
    split at h
    · obtain ⟨drained,-,h⟩ := bind_eq_some_iff.mp h
      cases h
      exact ⟨rfl,rfl⟩
    · cases h
      exact ⟨rfl,rfl⟩

structure Wrote (c : Nat) (s : Encrypted) (buffer : Bytes) (u : Encrypted) : Prop where
  sound : u.Sound
  chunkSize : u.chunkSize = s.chunkSize
  readptr : u.readptr = wrapLong (s.readptr+buffer.length)
  total : u.backing.length+u.blockBuffer.data.length =
    s.backing.length+s.blockBuffer.data.length+buffer.length%2^32
  short : u.blockBuffer.data.length < c
  fitted : s.blockBuffer.data.length+buffer.length%2^32 < maxTallocSize

lemma Sound.wrote (hs : t.Sound) (hc : 0 < c) (hsz : wrapInt t.chunkSize = c)
    (h : t.write cipher buffer = some u) : Wrote c t buffer u := by
  have hle := div_mul_le_self (t.filled buffer).length c
  have hr := rest_lt hc (t.filled buffer).length
  have hl := t.filled_length buffer
  rw [write_eq cipher buffer hs hc hsz] at h
  split at h
  · next hf =>
    have hg := lt_grow (zero_lt_of_lt hs.room) (t.filled buffer).length
    cases h
    refine ⟨⟨?_,hf.1⟩,rfl,rfl,?_,?_,by omega⟩
    · simp only [length_drop]
      omega
    · simp only [length_append,length_drop,chunksFrom_length hle]
      omega
    · simpa only [length_drop] using hr
  · cases h

end

/-! ### A run of writes -/

lemma levels_snoc (c t : Nat) (writes : List Bytes) (w : Bytes) :
    levels c t (writes ++ [w]) = levels c t writes ++ [(t+writes.flatten.length)%c+w.length] := by
  induction writes generalizing t with
  | nil => simp [levels]
  | cons v writes ih => simp [levels,ih,add_assoc]

lemma grown_snoc (c : Nat) (writes : List Bytes) (w : Bytes) :
    grown (levels c 0 (writes ++ [w])) = grow
      ( grown (levels c 0 writes)) (writes.flatten.length%c+w.length) := by
  simp [levels_snoc, grown]

lemma Fits.level_lt {c : Nat} {writes : List Bytes} {w : Bytes} (h : Fits c (writes ++ [w])) :
    writes.flatten.length%c+w.length < maxTallocSize := by
  have hr := h.room
  rw [grown_snoc] at hr
  exact ( lt_grow ( grown_pos _) _).trans hr

lemma Fits.init {c : Nat} {writes : List Bytes} {w : Bytes} (h : Fits c (writes ++ [w])) :
    Fits c writes where
  room := by
    have hr := h.room
    rw [grown_snoc] at hr
    exact lt_of_le_of_lt ( le_grow _ _) hr
  count := by
    have hcn := h.count
    rw [flatten_append,length_append] at hcn
    exact lt_of_le_of_lt (Nat.div_le_div_right (le_add_right _ _)) hcn

lemma Fits.front {c : Nat} {front writes : List Bytes} (hf : front <+: writes)
    (h : Fits c writes) : Fits c front := by
  obtain ⟨rest,rfl⟩ := hf
  induction rest using reverseRecOn with
  | nil => simpa using h
  | append_singleton rest w ih =>
    rw [← append_assoc] at h
    exact ih h.init

structure Reached (cipher : Cipher) (c : Nat) (writes : List Bytes) (s : Encrypted) : Prop
    extends s.Sound, Stores cipher c writes.flatten s where
  chunkSize : s.chunkSize = c
  readptr : s.readptr = writes.flatten.length
  alloc : s.blockBuffer.allocSize = StringIO.grown (levels c 0 writes)

section

variable {cipher : Cipher} {c : Nat} {writes : List Bytes} {w : Bytes} {s u : Encrypted}

lemma reached_con (cipher : Cipher) (c : Nat) : Reached cipher c [] (con c) where
  room := StringIO.con_appending.room
  small := StringIO.con_appending.small
  backing := by simp [con,chunksFrom]
  buffer := by simp [con, StringIO.con]
  chunkSize := rfl
  readptr := rfl
  alloc := rfl

variable (h : Reached cipher c writes s)

include h in
lemma Reached.size_eq (hlt : c < 2^31) : wrapInt s.chunkSize = c := by
  rw [h.chunkSize]
  exact wrapInt_of_bounds (by omega) (by omega)

lemma Stores.total {plain : Bytes} (h : Stores cipher c plain s) :
    s.backing.length+s.blockBuffer.data.length = plain.length := by
  have hle := div_mul_le_self plain.length c
  rw [h.backing,h.buffer,chunksFrom_length hle,length_drop]
  omega

lemma Stores.buffer_of_lt {plain : Bytes} (h : Stores cipher c plain s)
    (hlt : plain.length < c) : s.blockBuffer.data = plain := by
  rw [h.buffer,div_eq_of_lt hlt,zero_mul,drop_zero]

include h in
/-- Before the loop the buffer holds the plaintext from the first chunk on that is not stored. -/
lemma Reached.filled_eq (hw : w.length < 2^32) :
    s.filled w = (writes ++ [w]).flatten.drop (writes.flatten.length/c*c) := by
  rw [filled_of_lt hw,h.buffer,flatten_append,flatten_singleton,
    drop_append_of_le_length (div_mul_le_self _ _)]

include h in
lemma Reached.level (hw : w.length < 2^32) :
    (s.filled w).length = writes.flatten.length%c+w.length := by
  rw [filled_of_lt hw,length_append,h.buffer,length_drop,mod_eq_sub_mul_div,mul_comm c]

lemma div_append (hc : 0 < c) (t n : Nat) : (t+n)/c = t/c+(t%c+n)/c := by
  have ht := div_add_mod t c
  rw [← mul_add_div hc,← add_assoc,ht]

include h in
lemma Reached.chunkId (hcn : writes.flatten.length/c < 2^31) :
    wrapInt (s.readptr.tdiv c) = (writes.flatten.length/c : Nat) := by
  rw [h.readptr,← Int.ofNat_tdiv]
  generalize writes.flatten.length/c = number at hcn ⊢
  exact wrapInt_of_bounds (by omega) (by omega)

lemma chunk_count (hc : 0 < c) (writes : List Bytes) (w : Bytes) :
    (writes ++ [w]).flatten.length/c =
      writes.flatten.length/c+(writes.flatten.length%c+w.length)/c := by
  rw [flatten_append,length_append,flatten_singleton,div_append hc]

section

variable (h : Reached cipher c writes s) (hc : 0 < c)
include h hc

lemma Reached.fits_iff (hf : Fits c writes) (hw : w.length < 2^32) :
    ( grow s.blockBuffer.allocSize (s.filled w).length < maxTallocSize ∧
      wrapInt (s.readptr.tdiv c)+((s.filled w).length/c : Nat) < 2^31) ↔
      Fits c (writes ++ [w]) := by
  have hd := chunk_count hc writes w
  rw [h.chunkId hf.count,h.level hw,h.alloc,← grown_snoc]
  refine ⟨fun ⟨hr,hcn⟩ => ⟨hr,by omega⟩,fun hf' => ⟨hf'.room,?_⟩⟩
  have := hf'.count
  omega

lemma Reached.step (hlt : c < 2^31) (hf : Fits c (writes ++ [w])) :
    ∃ u, s.write cipher w = some u ∧ Reached cipher c (writes ++ [w]) u := by
  have hs := h.size_eq hlt
  have hw : w.length < 2^32 := lt_of_le_of_lt (le_add_left _ _) (hf.level_lt.trans
    (by decide))
  have hwr := write_eq cipher w h.toSound hc hs
  rw [if_pos ((h.fits_iff hc hf.init hw).mpr hf)] at hwr
  have hwrt := h.toSound.wrote hc hs hwr
  have hcn := chunk_count hc writes w
  rw [← h.level hw] at hcn
  refine ⟨_,hwr,⟨hwrt.sound,⟨?_,?_⟩,h.chunkSize,?_,?_⟩⟩
  · have hold : chunksFrom cipher c 0 (writes ++ [w]).flatten (writes.flatten.length/c) =
        s.backing := by rw [flatten_append,chunksFrom_append (div_mul_le_self _ _),h.backing]
    rw [hcn,chunksFrom_add,hold,← h.filled_eq hw,zero_add,h.chunkId hf.init.count]
  · rw [hcn,add_mul,← drop_drop,← h.filled_eq hw]
  · have hb : (writes ++ [w]).flatten.length < 2^31*c := (div_lt_iff_lt_mul hc).mp hf.count
    rw [flatten_append,flatten_singleton,length_append] at hb ⊢
    simp only [h.readptr]
    rw [wrapLong_of_bounds (by omega) (by omega),cast_add]
  · rw [grown_snoc,← h.level hw,← h.alloc]

lemma Reached.fits_of_write (hlt : c < 2^31)
    (hf : Fits c writes) (hw : w.length < 2^32) (hwr : s.write cipher w = some u) :
    Fits c (writes ++ [w]) := by
  refine (h.fits_iff hc hf hw).mp ?_
  by_contra hn
  rw [write_eq cipher w h.toSound hc (h.size_eq hlt),if_neg hn] at hwr
  cases hwr

lemma Reached.length_lt (hlt : c < 2^31)
    (hw : s.write cipher w = some u) (hs : Stores cipher c (writes ++ [w]).flatten u) :
    w.length < 2^32 := by
  have ht := (h.toSound.wrote hc (h.size_eq hlt) hw).total
  rw [hs.total,h.toStores.total,flatten_append,length_append,flatten_singleton] at ht
  omega

end

variable (cipher) in
lemma run_reached (hc : 0 < c) (hlt : c < 2^31) (hf : Fits c writes) :
    ∃ s, run (write cipher) (con c) writes = some s ∧ Reached cipher c writes s := by
  induction writes using reverseRecOn with
  | nil => exact ⟨con c,rfl,reached_con cipher c⟩
  | append_singleton writes w ih =>
    obtain ⟨s,hr,hs⟩ := ih hf.init
    obtain ⟨u,hw,hu⟩ := hs.step hc hlt hf
    exact ⟨u,by rw [run_snoc,hr,bind_some,hw],hu⟩

def Kept (cipher : Cipher) (c : Nat) (writes : List Bytes) : Prop :=
  ∀ front, front <+: writes →
    ∃ s, run (write cipher) (con c) front = some s ∧ Stores cipher c front.flatten s

lemma Kept.last {front : List Bytes} (h : Kept cipher c (front ++ [w])) :
    Kept cipher c front ∧ ∃ s u, run (write cipher) (con c) front = some s ∧
      s.write cipher w = some u ∧ Stores cipher c (front ++ [w]).flatten u := by
  refine ⟨fun other ho => h other (ho.trans (prefix_append _ _)),?_⟩
  obtain ⟨u,hu,hst⟩ := h (front ++ [w]) prefix_rfl
  rw [run_snoc,bind_eq_some_iff] at hu
  obtain ⟨s,hs,hw⟩ := hu
  exact ⟨s,u,hs,hw,hst⟩

lemma kept_iff (hc : 0 < c) (hlt : c < 2^31) : Kept cipher c writes ↔ Fits c writes := by
  constructor
  · intro h
    induction writes using reverseRecOn with
    | nil => exact ⟨ con_appending.small,by simp⟩
    | append_singleton writes w ih =>
      obtain ⟨hk,s,u,hr,hw,hst⟩ := h.last
      have hf := ih hk
      obtain ⟨s',hr',hs⟩ := run_reached cipher hc hlt hf
      obtain rfl : s = s' := some.inj (hr.symm.trans hr')
      exact hs.fits_of_write hc hlt hf (hs.length_lt hc hlt hw hst) hw
  · intro hf front hfr
    have hf : Fits c front := Fits.front hfr hf
    obtain ⟨s,hr,hs⟩ := run_reached cipher hc hlt hf
    exact ⟨s,hr,hs.toStores⟩

/-! ### Closing -/

include h in
lemma Reached.close_eq (hc : 0 < c) (hlt : c < 2^31) :
    s.close cipher = write cipher {s with size := s.readptr} (padding c writes.flatten) := by
  have hm := mod_lt writes.flatten.length hc
  have hp : wrapInt ((c : Int)-s.readptr.tmod c) = (c-writes.flatten.length%c : Nat) := by
    rw [h.readptr,← Int.ofNat_tmod]
    rw [wrapInt_of_bounds (by omega) (by omega)]
    omega
  simp only [close,h.size_eq hlt,if_neg (show ¬ (c : Int) ≤ 0 by omega),hp,Int.toNat_natCast]
  rw [if_pos (by omega),padding]

include h in
lemma Reached.sized (size : Int) : Reached cipher c writes {s with size := size} :=
  ⟨⟨h.room,h.small⟩,⟨h.backing,h.buffer⟩,h.chunkSize,h.readptr,h.alloc⟩

lemma padding_length (hc : 0 < c) (plain : Bytes) : (padding c plain).length = c-plain.length%c ∧
      plain.length+(padding c plain).length = (plain.length/c+1)*c := by
  have hm := mod_lt plain.length hc
  have hd := div_add_mod plain.length c
  have hl : (padding c plain).length = c-plain.length%c := by simp [padding]
  rw [hl,succ_mul,mul_comm]
  omega

lemma Reached.padded (hc : 0 < c) (h : Reached cipher c (writes ++ [padding c writes.flatten]) s) :
    Padded cipher c writes.flatten s := by
  obtain ⟨hl,ht⟩ := padding_length hc writes.flatten
  refine ⟨(padding c writes.flatten).length,by omega,⟨_,ht.trans (mul_comm _ _)⟩,?_⟩
  have hb := h.backing
  simpa [padding] using hb

lemma Fits.chunk_lt (hc : 0 < c) (h : Fits c (writes ++ [padding c writes.flatten])) :
    c < 2^31 := by
  have hl := h.level_lt
  rw [(padding_length hc writes.flatten).1] at hl
  rw [maxTallocSize] at hl
  omega

/-! ### A chunk size that is not an `int` -/

structure Early (c narrow : Nat) (writes : List Bytes) (s : Encrypted) : Prop extends s.Sound where
  chunkSize : s.chunkSize = c
  readptr : s.readptr = writes.flatten.length
  few : writes.flatten.length < narrow

variable {narrow : Nat}

lemma Kept.early (h : Kept cipher c writes) (hwd : 2^31 ≤ c)
    (hn : wrapInt c = narrow) (hp : 0 < narrow)
    (hr : run (write cipher) (con c) writes = some s) : Early c narrow writes s := by
  have hlt : (narrow : Int) < 2^31 := hn ▸ (wrapInt_bounds c).2
  induction writes using reverseRecOn generalizing s with
  | nil =>
    cases hr
    exact ⟨(reached_con cipher c).toSound,rfl,rfl,hp⟩
  | append_singleton writes w ih =>
    obtain ⟨hk,s',u,hr',hwr,hst⟩ := h.last
    rw [run_snoc,hr',bind_some,hwr] at hr
    cases hr
    have hs := ih hk hr'
    obtain ⟨s'',hr'',hst'⟩ := hk writes prefix_rfl
    obtain rfl : s' = s'' := some.inj (hr'.symm.trans hr'')
    have hw := hs.toSound.wrote hp (hs.chunkSize ▸ hn) hwr
    have hfw := hs.few
    have ht := hw.total
    have hf := hw.fitted
    have hsh := hw.short
    have hl : (writes ++ [w]).flatten.length = writes.flatten.length+w.length := by simp
    -- the buffer holds everything, before and after the write
    rw [hst'.buffer_of_lt (by omega),maxTallocSize] at hf
    rw [hst.total,hst'.total,hl] at ht
    rw [hst.buffer_of_lt (by omega)] at hsh
    refine ⟨hw.sound,hw.chunkSize.trans hs.chunkSize,?_,hsh⟩
    rw [hw.readptr,hs.readptr,wrapLong_of_bounds (by omega) (by omega),hl,cast_add]

lemma Early.not_padded (h : Early c narrow writes s) (hwd : 2^31 ≤ c)
    (hn : wrapInt c = narrow) (hst : Stores cipher c writes.flatten s) {closed : Encrypted}
    (hcl : s.close cipher = some closed) : ¬ Padded cipher c writes.flatten closed := by
  have hlt : (narrow : Int) < 2^31 := hn ▸ (wrapInt_bounds c).2
  have hf := h.few
  have hp : wrapInt ((narrow : Int)-s.readptr.tmod narrow) =
      (narrow-writes.flatten.length : Nat) := by
    rw [h.readptr,← Int.ofNat_tmod,mod_eq_of_lt hf,wrapInt_of_bounds (by omega) (by omega)]
    omega
  have hs : wrapInt s.chunkSize = narrow := h.chunkSize ▸ hn
  simp only [close,hs,if_neg (show ¬ (narrow : Int) ≤ 0 by omega),hp,Int.toNat_natCast]
    at hcl
  rw [if_pos (by omega)] at hcl
  have hsn : ({s with size := s.readptr} : Encrypted).Sound := ⟨h.room,h.small⟩
  have hw := hsn.wrote (zero_lt_of_lt hf) hs hcl
  have ht := hw.total
  have hsh := hw.short
  simp only [length_replicate,hst.total] at ht
  rintro ⟨pad,-,hwh,hb⟩
  have hl := congrArg length hb
  have hle : (writes.flatten.length+pad)/c*c ≤
      (writes.flatten ++ replicate pad (0 : UInt8)).length := by
    rw [length_append,length_replicate]
    exact div_mul_le_self _ _
  rw [chunksFrom_length hle] at hl
  generalize (writes.flatten.length+pad)/c = n at hl
  cases n with
  | zero => omega
  | succ n =>
    rw [succ_mul] at hl
    omega

/-- The stream holds what it should after every write and after closing, exactly when the writes
and the zeros at the end fit. -/
theorem write_close_iff (cipher : Cipher) (c : Nat) (hc : 0 < c) (writes : List Bytes) :
    (Kept cipher c writes ∧ ∃ s closed, run (write cipher) (con c) writes = some s ∧
      s.close cipher = some closed ∧ Padded cipher c writes.flatten closed) ↔
      Fits c (writes ++ [padding c writes.flatten]) := by
  constructor
  · rintro ⟨hk,s,closed,hr,hcl,hp⟩
    obtain ⟨s',hr',hst⟩ := hk writes prefix_rfl
    obtain rfl : s = s' := some.inj (hr.symm.trans hr')
    by_cases hlt : c < 2^31
    · have hf := (kept_iff hc hlt).mp hk
      obtain ⟨s',hr',hs⟩ := run_reached cipher hc hlt hf
      obtain rfl : s = s' := some.inj (hr.symm.trans hr')
      rw [hs.close_eq hc hlt] at hcl
      have hl := (padding_length hc writes.flatten).1
      exact (hs.sized s.readptr).fits_of_write hc hlt hf (by omega) hcl
    · have hps : 0 < wrapInt s.chunkSize := by
        by_contra hnt
        rw [close,if_pos (by omega)] at hcl
        cases hcl
      have hsz : s.chunkSize = c := run_invariant (I := fun s : Encrypted => s.chunkSize = c)
        (fun _ _ _ hs hw => (write_fixed hw).1.trans hs) hr rfl
      rw [hsz] at hps
      obtain ⟨narrow,hn⟩ := Int.eq_ofNat_of_zero_le hps.le
      have he := hk.early (by omega) hn (by omega) hr
      exact absurd hp (he.not_padded (by omega) hn hst hcl)
  · intro hf
    have hlt := hf.chunk_lt hc
    obtain ⟨s,hr,hs⟩ := run_reached cipher hc hlt hf.init
    obtain ⟨closed,hw,hcld⟩ := (hs.sized s.readptr).step hc hlt hf
    exact ⟨(kept_iff hc hlt).mpr hf.init,s,closed,hr,(hs.close_eq hc hlt).trans hw,hcld.padded hc⟩

end

def shift : Cipher where
  blocksize := 2
  encrypt number chunk := chunk.map (· + UInt8.ofInt number)
  decrypt number chunk := chunk.map (· - UInt8.ofInt number)
  encrypt_length _ _ := length_map _
  decrypt_encrypt _ _ _ := by simp [Function.comp_def]

theorem write_close_short : 0 < 4 ∧ Kept shift 4 [[1,2,3],[4,5,6]] ∧
    ∃ s closed, run (write shift) (con 4) [[1,2,3],[4,5,6]] = some s ∧
      s.close shift = some closed ∧ Padded shift 4 [[1,2,3],[4,5,6]].flatten closed :=
  ⟨by decide,(write_close_iff shift 4 (by decide) _).mpr ⟨by decide,by decide⟩⟩

def largeWrite : Bytes := replicate (2^28) 0

/-- The block buffer cannot be allocated, at the chunk size that streams have by default. -/
theorem write_large_fails : 0 < 4096 ∧ ¬ (Kept shift 4096 [largeWrite] ∧
    ∃ s closed, run (write shift) (con 4096) [largeWrite] = some s ∧
      s.close shift = some closed ∧ Padded shift 4096 [largeWrite].flatten closed) := by
  refine ⟨by decide,fun h => ?_⟩
  obtain ⟨s,hr,-⟩ := h.1 [largeWrite] prefix_rfl
  have hl : ((con (4096 : Nat)).filled largeWrite).length = 2^28 := by
    rw [filled_length,largeWrite,length_replicate]
    rfl
  have hn : (con (4096 : Nat)).write shift largeWrite = none := by
    rw [write_eq shift largeWrite (reached_con shift 4096).toSound (by decide) rfl,hl]
    rfl
  rw [run,hn] at hr
  cases hr

end Encrypted

end Aff4
