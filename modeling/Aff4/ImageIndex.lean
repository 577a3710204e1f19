import Aff4.Image
import Aff4.ZipSession

/-! The loop of `ImageWorker_run`: what it stores of a bevy, where the index points, and which
bevies have room in the buffers of the members. -/

namespace Aff4

open LittleEndian Loop List Option Nat StringIO

namespace StringIO

lemma growth_words (n : Nat) : ∃ k, growth (replicate n 4) = 2^(10+k) ∧ 4*n < 2^(10+k) ∧
    2^(10+k) ≤ max 1024 (8*n) := by
  induction n with
  | zero => exact ⟨0,rfl,by decide,by decide⟩
  | succ n ih =>
    obtain ⟨k,hk,hlt,hle⟩ := ih
    have hf : 2^(10+k) = 4*2^(8+k) := by rw [show 10+k = 2+(8+k) by omega,Nat.pow_add]
    have hsm : (replicate n 4).sum = n*4 := by simp
    rw [replicate_succ',growth_snoc,hk,hsm,grow]
    split
    · exact ⟨k,rfl,by omega,by omega⟩
    · have hd : 2^(10+(k+1)) = 2*2^(10+k) := by rw [← Nat.add_assoc,Nat.pow_succ,Nat.mul_comm]
      exact ⟨k+1,by omega,by omega,by omega⟩

lemma growth_words_lt_iff (n : Nat) : growth (replicate n 4) < maxTallocSize ↔ n < 2^25 := by
  obtain ⟨k,hk,hlt,hle⟩ := growth_words n
  rw [hk,show maxTallocSize = 2^28 from rfl]
  constructor
  · intro h
    have he : 10+k ≤ 27 := le_of_lt_succ ((Nat.pow_lt_pow_iff_right (by decide)).mp h)
    have := Nat.pow_le_pow_right (n := 2) (by decide) he
    omega
  · intro h
    omega

end StringIO

namespace ZipSegment

variable {σ : Type} {zlib : Zlib σ} {s t : ZipSegment σ} {pieces : List Bytes}

structure Collecting (segment : ZipSegment σ) (pieces : List Bytes) : Prop where
  method : segment.cd.compressionMethod = zipStored
  buffer : ∃ io, segment.buffer = some io ∧ io.Holding pieces

lemma finish_collecting (hm : s.mode = .w) (h : s.finish zlib zipStored.toNat = some t) :
    t.Collecting [] := by
  simp only [finish,hm,if_true] at h
  cases h
  exact ⟨rfl,_,rfl, con_holding⟩

variable (hs : s.Collecting pieces)

include hs

lemma Collecting.compress_eq (buffer : Bytes) : s.compress zlib buffer = (s.strm,[buffer]) := by
  have hn : ¬ s.cd.compressionMethod = zipDeflate := by
    rw [hs.method]
    decide
  rw [compress,if_neg hn]

lemma Collecting.write_iff (zlib : Zlib σ) (piece : Bytes) : (∃ r, s.write zlib piece = some r) ↔
    growth ((pieces ++ [piece]).map length) < maxTallocSize := by
  obtain ⟨io,hio,hold⟩ := hs.buffer
  by_cases hne : piece = []
  · subst hne
    rw [write,if_pos rfl,← hold.empty.alloc]
    exact iff_of_true ⟨_,rfl⟩ hold.appending.small
  · rw [write,if_neg hne,hio,hs.compress_eq,← hold.write_iff]
    simp [ writePieces,map_eq_some_iff]

lemma Collecting.write {piece : Bytes} {n : Int} (h : s.write zlib piece = some (n,t)) :
    t.Collecting (pieces ++ [piece]) := by
  obtain ⟨io,hio,hold⟩ := hs.buffer
  by_cases hne : piece = []
  · subst hne
    rw [ZipSegment.write,if_pos rfl] at h
    cases h
    exact ⟨hs.method,io,hio,hold.empty⟩
  · rw [ZipSegment.write,if_neg hne,hio,hs.compress_eq] at h
    obtain ⟨io',hio',h⟩ := map_eq_some_iff.mp h
    cases h
    refine ⟨hs.method,io',rfl,hold.write ?_⟩
    simpa [ writePieces] using hio'

end ZipSegment

/-- What zlib promises about the one-shot calls: a chunk can be compressed, and with room for
it it comes back. -/
def ChunkZlib.Inverse (zlib : ChunkZlib) : Prop :=
  ∀ source, ∃ cbuffer, zlib.compress2 source = some cbuffer ∧
    ∀ room, source.length ≤ room → zlib.uncompress cbuffer room = some source

def plainChunkZlib : ChunkZlib where
  compress2 := some
  uncompress source room := if source.length ≤ room then some source else none

namespace ImageParameters

variable {σ : Type}

structure Storing (σ : Type) where
  chunkOffset : Nat
  compressedOffset : UInt32
  segment : ZipSegment σ
  index : ZipSegment σ

def storeTurn (self : ImageParameters) (chunkZlib : ChunkZlib) (zlib : Zlib σ) (bevy : Bytes)
    (state : Storing σ) : Option (Turn (Storing σ) (ZipSegment σ × ZipSegment σ)) :=
  if state.chunkOffset < bevy.length then
    let length := min self.chunkSize (bevy.length-state.chunkOffset)
    (self.packed chunkZlib (slice bevy state.chunkOffset length)).bind fun cbuffer =>
    (state.index.write zlib (le32 state.compressedOffset)).bind fun index =>
    (state.segment.write zlib cbuffer).bind fun segment =>
    some (.next {
      chunkOffset := state.chunkOffset+length
      compressedOffset := state.compressedOffset+UInt32.ofNat cbuffer.length
      segment := segment.2
      index := index.2})
  else some (.done (state.segment,state.index))

def storeBevy (self : ImageParameters) (chunkZlib : ChunkZlib) (zlib : Zlib σ) (bevy : Bytes)
    (segment index : ZipSegment σ) : Option (ZipSegment σ × ZipSegment σ) :=
  loop (self.storeTurn chunkZlib zlib bevy) (bevy.length+1) ⟨0,0,segment,index⟩

def decode (self : ImageParameters) (zlib : ChunkZlib) (cbuffer : Bytes) : Option Bytes :=
  if self.compression = zipStored.toNat then some cbuffer
  else zlib.uncompress cbuffer self.chunkSize

section

variable (self : ImageParameters) (zlib : ChunkZlib) (bevy : Bytes)

def chunkCount : Nat := (bevy.length+self.chunkSize-1)/self.chunkSize

def chunk (k : Nat) : Bytes := slice bevy (k*self.chunkSize) self.chunkSize

def storedChunk (k : Nat) : Bytes := (self.packed zlib (self.chunk bevy k)).getD []

def storedChunks (k : Nat) : List Bytes := (range k).map (self.storedChunk zlib bevy)

def chunkStart (k : Nat) : Nat := ((self.storedChunks zlib bevy k).map length).sum

def entries (k : Nat) : List Bytes :=
  (range k).map fun j => le32 (UInt32.ofNat (self.chunkStart zlib bevy j))

lemma storedChunks_succ (k : Nat) : self.storedChunks zlib bevy (k+1) =
    self.storedChunks zlib bevy k ++ [self.storedChunk zlib bevy k] := by
  simp [storedChunks,range_succ]

lemma entries_succ (k : Nat) : self.entries zlib bevy (k+1) =
    self.entries zlib bevy k ++ [le32 (UInt32.ofNat (self.chunkStart zlib bevy k))] := by
  simp [entries,range_succ]

lemma chunkStart_succ (k : Nat) : self.chunkStart zlib bevy (k+1) =
    self.chunkStart zlib bevy k+(self.storedChunk zlib bevy k).length := by
  simp [chunkStart,storedChunks_succ]

lemma entries_lengths (k : Nat) : (self.entries zlib bevy k).map length = replicate k 4 := by
  induction k with
  | zero => rfl
  | succ k ih => rw [entries_succ,map_append,ih,replicate_succ']; simp

end

/-- The bevies for which there is room: the buffers of the segment and of the index, which has four
bytes for each chunk, stay below what can be allocated. -/
structure Fits (params : ImageParameters) (zlib : ChunkZlib) (bevy : Bytes) : Prop where
  segment : StringIO.growth
    ((params.storedChunks zlib bevy (params.chunkCount bevy)).map length) < maxTallocSize
  index : params.chunkCount bevy < 2^25

/-- What the index is for: an entry for each chunk, with the place at which its stored form
begins. The next entry, or the end of the segment, is where it ends. -/
structure Indexed (params : ImageParameters) (zlib : ChunkZlib) (bevy segment index : Bytes) :
    Prop where
  count : index.length = 4*params.chunkCount bevy
  entry : ∀ k < params.chunkCount bevy, leNat (slice index (4*k) 4) = params.chunkStart zlib bevy k
  decodes : ∀ k < params.chunkCount bevy,
    params.decode zlib (slice segment (leNat (slice index (4*k) 4))
      ((if k+1 < params.chunkCount bevy then leNat (slice index (4*(k+1)) 4) else segment.length)-
        leNat (slice index (4*k) 4))) =
    some (slice bevy (k*params.chunkSize)
      (min ((k+1)*params.chunkSize) bevy.length-k*params.chunkSize))

section

variable {self : ImageParameters} {chunkZlib : ChunkZlib} {zlib : Zlib σ} {bevy : Bytes}

lemma range_le_range {n m : Nat} (h : n ≤ m) : range n <+: range m := by
  have ht : (range m).take n = range n := by simp [take_range,h]
  exact ht ▸ take_prefix _ _

lemma lt_chunkCount (hch : 0 < self.chunkSize) {k : Nat} :
    k < self.chunkCount bevy ↔ k*self.chunkSize < bevy.length := by
  rw [chunkCount,← succ_le_iff,le_div_iff_mul_le hch,succ_mul]
  omega

lemma packed_chunk (hz : chunkZlib.Inverse) (k : Nat) :
    self.packed chunkZlib (self.chunk bevy k) = some (self.storedChunk chunkZlib bevy k) := by
  rw [storedChunk,packed]
  split
  · rfl
  · obtain ⟨cbuffer,hc,-⟩ := hz (self.chunk bevy k)
    rw [hc]
    rfl

structure Stored (params : ImageParameters) (chunkZlib : ChunkZlib) (bevy : Bytes) (n : Nat)
    (state : Storing σ) : Prop where
  bound : n ≤ params.chunkCount bevy
  offset : state.chunkOffset = min (n*params.chunkSize) bevy.length
  compressed : state.compressedOffset = UInt32.ofNat (params.chunkStart chunkZlib bevy n)
  segment : state.segment.Collecting (params.storedChunks chunkZlib bevy n)
  index : state.index.Collecting (params.entries chunkZlib bevy n)

section

variable {n : Nat} {state : Storing σ} (hch : 0 < self.chunkSize)
  (hz : chunkZlib.Inverse) (hs : self.Stored chunkZlib bevy n state)

include hch hs in
lemma Stored.more_iff : state.chunkOffset < bevy.length ↔ n < self.chunkCount bevy := by
  rw [lt_chunkCount hch,hs.offset]
  omega

include hch hz hs

lemma Stored.turn_eq (hm : n < self.chunkCount bevy) : self.storeTurn chunkZlib zlib bevy state =
      (state.index.write zlib (le32 state.compressedOffset)).bind fun index =>
      (state.segment.write zlib (self.storedChunk chunkZlib bevy n)).bind fun segment =>
      some (.next {
        chunkOffset := state.chunkOffset+min self.chunkSize (bevy.length-state.chunkOffset)
        compressedOffset := state.compressedOffset+
          UInt32.ofNat (self.storedChunk chunkZlib bevy n).length
        segment := segment.2
        index := index.2}) := by
  have hp : slice bevy state.chunkOffset (min self.chunkSize (bevy.length-state.chunkOffset)) =
      self.chunk bevy n := by
    have hlt := (lt_chunkCount hch).mp hm
    rw [hs.offset,chunk,min_eq_left (le_of_lt hlt),slice,slice,take_eq_take_iff,length_drop]
    omega
  rw [storeTurn,if_pos ((hs.more_iff hch).mpr hm)]
  simp [hp,packed_chunk hz]

lemma Stored.next {state' : Storing σ}
    (h : self.storeTurn chunkZlib zlib bevy state = some (.next state')) :
    self.Stored chunkZlib bevy (n+1) state' ∧ state.chunkOffset < state'.chunkOffset := by
  have hm : n < self.chunkCount bevy := by
    by_contra hge
    rw [storeTurn,if_neg (mt (hs.more_iff hch).mp hge)] at h
    cases h
  have hlt := (lt_chunkCount hch).mp hm
  rw [hs.turn_eq hch hz hm] at h
  obtain ⟨⟨_,index⟩,hid,h⟩ := bind_eq_some_iff.mp h
  obtain ⟨⟨_,segment⟩,hsg,h⟩ := bind_eq_some_iff.mp h
  cases h
  have hsg := hs.segment.write hsg
  have hid := hs.index.write hid
  rw [← storedChunks_succ] at hsg
  rw [hs.compressed,← entries_succ] at hid
  have ho := hs.offset
  refine ⟨⟨hm,?_,?_,hsg,hid⟩,by simp only; omega⟩
  · simp only [succ_mul]
    omega
  · simp [hs.compressed,chunkStart_succ]

lemma Stored.goes_iff (zlib : Zlib σ) (hm : n < self.chunkCount bevy) :
    (∃ outcome, self.storeTurn chunkZlib zlib bevy state = some outcome) ↔ n+1 < 2^25 ∧
      growth ((self.storedChunks chunkZlib bevy (n+1)).map length) < maxTallocSize := by
  rw [hs.turn_eq hch hz hm,← growth_words_lt_iff,← entries_lengths self chunkZlib bevy,entries_succ,
    storedChunks_succ,← hs.compressed,← hs.index.write_iff zlib,
    ← hs.segment.write_iff zlib]
  simp [bind_eq_some_iff]

end

section

variable {segment index : ZipSegment σ} (hch : 0 < self.chunkSize)
  (hz : chunkZlib.Inverse) (hsg : segment.Collecting []) (hid : index.Collecting [])

include hsg hid in
lemma Stored.start : self.Stored chunkZlib bevy 0 ⟨0,0,segment,index⟩ :=
  ⟨zero_le _,by simp,rfl,hsg,hid⟩

include hch hz hsg hid

lemma storeBevy_collecting {result : ZipSegment σ × ZipSegment σ}
    (h : self.storeBevy chunkZlib zlib bevy segment index = some result) :
    result.1.Collecting (self.storedChunks chunkZlib bevy (self.chunkCount bevy)) ∧
      result.2.Collecting (self.entries chunkZlib bevy (self.chunkCount bevy)) := by
  refine loop_rule (fun state => ∃ n, self.Stored chunkZlib bevy n state)
    (fun result => result.1.Collecting (self.storedChunks chunkZlib bevy (self.chunkCount bevy)) ∧
      result.2.Collecting (self.entries chunkZlib bevy (self.chunkCount bevy)))
    ?_ ?_ ⟨0,.start hsg hid⟩ h
  · rintro state state' ⟨n,hs⟩ ht
    exact ⟨n+1,(hs.next hch hz ht).1⟩
  · rintro state result ⟨n,hs⟩ ht
    by_cases hm : n < self.chunkCount bevy
    · rw [hs.turn_eq hch hz hm] at ht
      simp [bind_eq_some_iff] at ht
    · obtain rfl : n = self.chunkCount bevy := le_antisymm hs.bound (not_lt.mp hm)
      rw [storeTurn,if_neg (mt (hs.more_iff hch).mp hm)] at ht
      cases ht
      exact ⟨hs.segment,hs.index⟩

lemma storeBevy_returns_iff (zlib : Zlib σ) :
    (∃ result, self.storeBevy chunkZlib zlib bevy segment index = some result) ↔
      self.Fits chunkZlib bevy := by
  refine loop_returns_iff (fun state => ∃ n, self.Stored chunkZlib bevy n state)
    (fun _ => self.Fits chunkZlib bevy) (fun state => bevy.length-state.chunkOffset) ?_
    ⟨0,.start hsg hid⟩ (lt_succ_self _)
  rintro state ⟨n,hs⟩
  by_cases hm : n < self.chunkCount bevy
  · right
    cases ht : self.storeTurn chunkZlib zlib bevy state with
    | none =>
      -- The buffers only grow, so a write that fails has no room in the end either.
      refine .inl ⟨rfl,fun hf => ?_⟩
      have hi := (range_le_range hm).map (self.storedChunk chunkZlib bevy)
      obtain ⟨outcome,hg⟩ := (hs.goes_iff hch hz zlib hm).mpr
        ⟨lt_of_le_of_lt hm hf.index,lt_of_le_of_lt ( growth_prefix (hi.map _)) hf.segment⟩
      simp [ht] at hg
    | some outcome =>
      cases outcome with
      | done result =>
        rw [hs.turn_eq hch hz hm] at ht
        simp [bind_eq_some_iff] at ht
      | next state' =>
        obtain ⟨hs',hl⟩ := hs.next hch hz ht
        have := (hs.more_iff hch).mpr hm
        exact .inr ⟨state',rfl,⟨n+1,hs'⟩,by omega,Iff.rfl⟩
  · obtain rfl : n = self.chunkCount bevy := le_antisymm hs.bound (not_lt.mp hm)
    refine .inl ⟨(state.segment,state.index),?_,?_⟩
    · rw [storeTurn,if_neg (mt (hs.more_iff hch).mp hm)]
    · obtain ⟨io,-,hold⟩ := hs.segment.buffer
      obtain ⟨io',-,hold'⟩ := hs.index.buffer
      refine ⟨hold.alloc ▸ hold.appending.small,?_⟩
      rw [← growth_words_lt_iff,← entries_lengths self chunkZlib bevy]
      exact hold'.alloc ▸ hold'.appending.small

end

lemma decode_storedChunk (hz : chunkZlib.Inverse) (k : Nat) :
    self.decode chunkZlib (self.storedChunk chunkZlib bevy k) = some (self.chunk bevy k) := by
  have hp : self.packed chunkZlib (self.chunk bevy k) =
      some (self.storedChunk chunkZlib bevy k) := packed_chunk hz k
  rw [packed] at hp
  rw [decode]
  split at hp
  · next hst => rw [if_pos hst,hp]
  · next hst =>
    obtain ⟨cbuffer,hc,hr⟩ := hz (self.chunk bevy k)
    obtain rfl := some.inj (hc.symm.trans hp)
    rw [if_neg hst]
    refine hr _ ?_
    rw [chunk,slice_length]
    exact min_le_left _ _

lemma slice_storedChunks {n k : Nat} (hk : k < n) :
    slice (self.storedChunks chunkZlib bevy n).flatten (self.chunkStart chunkZlib bevy k)
      (self.chunkStart chunkZlib bevy (k+1)-self.chunkStart chunkZlib bevy k) =
    self.storedChunk chunkZlib bevy k := by
  obtain ⟨rest,hr⟩ := (range_le_range hk).map (self.storedChunk chunkZlib bevy)
  have hsp : (self.storedChunks chunkZlib bevy n).flatten =
      (self.storedChunks chunkZlib bevy k).flatten ++ self.storedChunk chunkZlib bevy k ++
        rest.flatten := by
    rw [storedChunks,← hr,flatten_append]
    change (self.storedChunks chunkZlib bevy (k+1)).flatten ++ _ = _
    rw [storedChunks_succ,flatten_append,flatten_singleton]
  have hst : self.chunkStart chunkZlib bevy k =
      (self.storedChunks chunkZlib bevy k).flatten.length := by rw [chunkStart,length_flatten]
  rw [chunkStart_succ,Nat.add_sub_cancel_left,hsp,hst]
  exact slice_middle _ _ _

lemma slice_entries {n k : Nat} (hk : k < n) :
    slice (self.entries chunkZlib bevy n).flatten (4*k) 4 =
      le32 (UInt32.ofNat (self.chunkStart chunkZlib bevy k)) := by
  have hf : ∀ block ∈ self.entries chunkZlib bevy n, block.length = 4 := by
    intro block hb
    obtain ⟨j,-,rfl⟩ := mem_map.mp hb
    exact le32_length _
  have hb : (self.entries chunkZlib bevy n ++ [[]])[k]? =
      some (le32 (UInt32.ofNat (self.chunkStart chunkZlib bevy k))) := by
    rw [getElem?_append_left (by simpa [entries] using hk)]
    simp [entries,hk]
  have := slice_blocks hf (zero_le _) hb
  rwa [append_nil,mul_comm] at this

lemma chunkStart_mono {n m : Nat} (h : n ≤ m) :
    self.chunkStart chunkZlib bevy n ≤ self.chunkStart chunkZlib bevy m := by
  induction h with
  | refl => exact le_refl _
  | step _ ih =>
    rw [chunkStart_succ]
    omega

lemma indexed (hz : chunkZlib.Inverse) (hch : 0 < self.chunkSize)
    (ht : self.chunkStart chunkZlib bevy (self.chunkCount bevy) < 2^32) :
    self.Indexed chunkZlib bevy (self.storedChunks chunkZlib bevy (self.chunkCount bevy)).flatten
      (self.entries chunkZlib bevy (self.chunkCount bevy)).flatten := by
  have he : ∀ k < self.chunkCount bevy,
      leNat (slice (self.entries chunkZlib bevy (self.chunkCount bevy)).flatten (4*k) 4) =
        self.chunkStart chunkZlib bevy k := by
    intro k hk
    have hlt : self.chunkStart chunkZlib bevy k < 256^4 :=
      lt_of_le_of_lt (chunkStart_mono (le_of_lt hk)) ht
    rw [slice_entries hk,le32,leNat_leBytes,UInt32.toNat_ofNat',mod_mod_of_dvd _ (by decide),
      mod_eq_of_lt hlt]
  refine ⟨?_,he,fun k hk => ?_⟩
  · rw [length_flatten,entries_lengths]
    simp [mul_comm]
  · have hen : (if k+1 < self.chunkCount bevy then
        leNat (slice (self.entries chunkZlib bevy (self.chunkCount bevy)).flatten (4*(k+1)) 4)
        else (self.storedChunks chunkZlib bevy (self.chunkCount bevy)).flatten.length) =
        self.chunkStart chunkZlib bevy (k+1) := by
      split
      · next hlt => exact he (k+1) hlt
      · next hge =>
        rw [show self.chunkCount bevy = k+1 by omega,chunkStart,length_flatten]
    rw [hen,he k hk,slice_storedChunks hk,decode_storedChunk hz,chunk,slice,slice]
    congr 1
    rw [take_eq_take_iff,length_drop,succ_mul]
    omega

end

/-- `ImageWorker_run` indexes a bevy exactly when its stored form and the index fit into the
buffers. -/
theorem index_correct_iff {self : ImageParameters} {chunkZlib : ChunkZlib} {zlib : Zlib σ}
    (hch : 1 ≤ self.chunkSize) (hz : chunkZlib.Inverse) {segment index : ZipSegment σ}
    (hsg : segment.Collecting []) (hid : index.Collecting []) (bevy : Bytes) :
    (∃ segment' index' data entries,
      self.storeBevy chunkZlib zlib bevy segment index = some (segment',index') ∧
      segment'.buffer = some data ∧ index'.buffer = some entries ∧
      self.Indexed chunkZlib bevy data.data entries.data) ↔
    self.Fits chunkZlib bevy := by
  rw [← storeBevy_returns_iff hch hz hsg hid zlib]
  constructor
  · rintro ⟨segment',index',_,_,h,-⟩
    exact ⟨_,h⟩
  · rintro ⟨⟨segment',index'⟩,h⟩
    obtain ⟨hs,hi⟩ := storeBevy_collecting hch hz hsg hid h
    obtain ⟨data,hd,hold⟩ := hs.buffer
    obtain ⟨entries,he,hold'⟩ := hi.buffer
    refine ⟨segment',index',data,entries,h,hd,he,?_⟩
    have hlt := hold.length_lt
    rw [length_flatten] at hlt
    rw [hold.data,hold'.data]
    exact indexed hz hch (lt_trans hlt (by decide))

lemma plainChunkZlib_inverse : plainChunkZlib.Inverse :=
  fun source => ⟨source,rfl,fun _ hr => if_pos hr⟩

def newSegment : ZipSegment Unit := {ZipSegment.con none .w 0 0 with buffer := some .con}

lemma newSegment_collecting : newSegment.Collecting [] :=
  @ZipSegment.finish_collecting _ ZipFile.plainZlib (.con none .w 0 0) _ rfl rfl

def chunksOf (chunkSize : Nat) : ImageParameters := ⟨.set fqn,chunkSize,0,1024,1024*chunkSize⟩

theorem index_two_chunks : ∃ segment index data entries,
    (chunksOf 4).storeBevy plainChunkZlib ZipFile.plainZlib (chars ['h','e','l','l','o']) newSegment
      newSegment = some (segment,index) ∧
    segment.buffer = some data ∧ index.buffer = some entries ∧
    (chunksOf 4).Indexed plainChunkZlib (chars ['h','e','l','l','o']) data.data entries.data :=
  (index_correct_iff (by decide) plainChunkZlib_inverse newSegment_collecting
    newSegment_collecting _).mpr ⟨by decide,by decide⟩

/-- The index of 32 MiB in chunks of one byte would have to be twice 128 MiB. -/
theorem index_small_chunks_fails : ¬ ∃ segment index data entries,
    (chunksOf 1).storeBevy plainChunkZlib ZipFile.plainZlib (replicate (2^25) 0) newSegment
      newSegment = some (segment,index) ∧
    segment.buffer = some data ∧ index.buffer = some entries ∧
    (chunksOf 1).Indexed plainChunkZlib (replicate (2^25) 0) data.data entries.data := by
  rintro ⟨segment,index,-,-,h,-⟩
  have hf := (storeBevy_returns_iff (by decide) plainChunkZlib_inverse newSegment_collecting
    newSegment_collecting ZipFile.plainZlib).mp ⟨_,h⟩
  have hc := hf.index
  rw [chunkCount,length_replicate] at hc
  exact absurd hc (by decide)

end ImageParameters

end Aff4
