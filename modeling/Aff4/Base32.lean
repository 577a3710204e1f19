import Aff4.Encode

/-! `decode32` undoes `encode32`. -/

namespace Aff4

open LittleEndian Loop Buffer List

variable {d : Nat}

lemma decode32_encode32 (h : d < 64) :
    (encodeInit.decodeLut (encodeInit.encodeLut (UInt8.ofNat d))).toNat = d := by
  rw [decodeLut_eq,reverseLut_apply encodeLut_nodup h]
  exact Nat.mod_eq_of_lt (by omega)

lemma encode32_ne_stuff (h : d < 64) : encodeInit.encodeLut (UInt8.ofNat d) ≠ 97 := by
  have ha : ∀ d, d < 64 → encodeInit.encodeLut (UInt8.ofNat d) ≠ 97 := by decide +kernel
  exact ha d h

def blocks32 (len : Nat) : Nat := (len+4)/5

def temp32 (b : Bytes) (k : Nat) : Nat := Bits.pack 8 5 fun j => (b.getD (k*5+j) 0).toNat

def block32 (b : Bytes) (k : Nat) : Bytes :=
  (range 8).map fun j => encodeInit.encodeLut (UInt8.ofNat (Bits.digit 5 (temp32 b k) j))

def symbols32 (b : Bytes) (n : Nat) : Bytes := (range n).flatMap (block32 b)

lemma block32_length (b : Bytes) (k : Nat) : (block32 b k).length = 8 := by simp [block32]

lemma symbols32_length (b : Bytes) (n : Nat) : (symbols32 b n).length = n*8 :=
  flatMap_range_length (block32_length b) n

lemma symbols32_ne_stuff (b : Bytes) (n : Nat) : ∀ c ∈ symbols32 b n, c ≠ 97 := by
  intro c hc
  obtain ⟨k,_,hc⟩ := mem_flatMap.mp hc
  obtain ⟨j,_,rfl⟩ := mem_map.mp hc
  exact encode32_ne_stuff (lt_trans (Bits.digit_lt 5 _ j) (by decide))

section

variable {b : Bytes}

lemma encode32Turn_block (b : Bytes) : ∀ k (out : Bytes), k < blocks32 b.length →
    encode32Turn b ⟨k*5,k*8,out⟩ = Codec.put ⟨k*5,k*8,out⟩ 5 8 (block32 b k) := by
  intro k out hk
  have hg : k*5 < b.length := by
    simp only [blocks32] at hk
    omega
  simp only [encode32Turn,hg,if_true]
  rfl

lemma encode32Turn_end (b out : Bytes) :
    encode32Turn b ⟨blocks32 b.length*5,blocks32 b.length*8,out⟩ =
      some (.done ⟨blocks32 b.length*5,blocks32 b.length*8,out⟩) := by
  refine if_neg ?_
  simp only [blocks32]
  omega

variable {outbuf : Bytes}

lemma encode32_eq (hint : blocks32 b.length*8 < 2^31)
    (hft : blocks32 b.length*8 < outbuf.length) :
    encode32 b outbuf = some (blocks32 b.length*8,overwrite outbuf
      (stuffed (symbols32 b (blocks32 b.length)) (blocks32 b.length*5-b.length) 97 ++ [0])) := by
  have hln : blocks32 b.length ≤ b.length := by
    simp only [blocks32]
    omega
  have hl := Codec.loop_blocks_done (block32_length b) (encode32Turn_block b)
    (by omega) hint (le_of_lt hft) (encode32Turn_end b) (Nat.lt_succ_of_le hln)
  have hs := symbols32_length b (blocks32 b.length)
  have hp : blocks32 b.length*5-b.length ≤ 4 ∧
      blocks32 b.length*5-b.length ≤ blocks32 b.length*8 := by
    simp only [blocks32]
    omega
  have hf := finish_overwrite outbuf (symbols32 b (blocks32 b.length))
    (i := blocks32 b.length*5) rfl hp.1 (by omega) (by omega) 97
  rw [hs] at hf
  rw [encode32,hl]
  exact hf

lemma encode32Turn_cases {s : Codec} {turn : Turn Codec Codec}
    (h : encode32Turn b s = some turn) : (¬ s.i < b.length ∧ turn = .done s) ∨
      (s.i < b.length ∧ ∃ t, turn = .next t ∧ t.i = s.i+5 ∧ t.o = s.o+8 ∧ t.o < 2^31) := by
  rw [encode32Turn] at h
  by_cases hg : s.i < b.length
  · rw [if_pos hg] at h
    obtain ⟨t,ht,hi,ho,hint,_⟩ := Codec.put_cases h
    exact .inr ⟨hg,t,ht,hi,ho,hint⟩
  · rw [if_neg hg] at h
    exact .inl ⟨hg,(Option.some.inj h).symm⟩

lemma encode32_int {r : Nat × Bytes} (h : encode32 b outbuf = some r) :
    blocks32 b.length*8 < 2^31 := by
  obtain ⟨s,hl,_⟩ := Option.bind_eq_some_iff.mp h
  refine loop_rule
    (fun s => ∃ k, k ≤ blocks32 b.length ∧ s.i = k*5 ∧ s.o = k*8 ∧ s.o < 2^31)
    (fun _ => blocks32 b.length*8 < 2^31) ?_ ?_ ⟨0,Nat.zero_le _,rfl,rfl,Nat.two_pow_pos 31⟩ hl
  · rintro s t ⟨k,hk,hi,ho,_⟩ htn
    obtain ⟨_,ht⟩ | ⟨hlt,u,ht,hi',ho',hint⟩ := encode32Turn_cases htn
    · cases ht
    · cases ht
      refine ⟨k+1,?_,by omega,by omega,hint⟩
      simp only [blocks32]
      omega
  · rintro s r ⟨k,hk,hi,ho,hint⟩ htn
    obtain ⟨hg,_⟩ | ⟨_,u,ht,_⟩ := encode32Turn_cases htn
    · simp only [blocks32]
      omega
    · cases ht

end

section

variable {inbuf b : Bytes} {n : Nat}

def octets32 (inbuf : Bytes) (i : Nat) : Bytes :=
  (range 5).map fun j => UInt8.ofNat (Bits.digit 8
    (Bits.pack 5 8 fun j => (encodeInit.decodeLut (inbuf.getD (i+j) 0)).toNat) j)

def plain32 (inbuf : Bytes) (n : Nat) : Bytes := (range n).flatMap fun k => octets32 inbuf (k*8)

lemma octets32_length (inbuf : Bytes) (i : Nat) : (octets32 inbuf i).length = 5 := by
  simp [octets32]

lemma plain32_length (inbuf : Bytes) (n : Nat) : (plain32 inbuf n).length = n*5 :=
  flatMap_range_length (fun k => octets32_length inbuf (k*8)) n

lemma decode32Turn_block (hin : n*8 ≤ inbuf.length) : ∀ k (out : Bytes), k < n →
    decode32Turn inbuf (n*8) ⟨k*8,k*5,out⟩ =
      Codec.put ⟨k*8,k*5,out⟩ 8 5 (octets32 inbuf (k*8)) := by
  intro k out hk
  simp only [decode32Turn,show k*8 < n*8 by omega,show k*8+8 ≤ inbuf.length by omega,if_true]
  rfl

variable (hin : ∀ i, i < n*8 → inbuf[i]? = (stuffed (symbols32 b n) (n*5-b.length) 97)[i]?)

include hin

lemma value32 {k j : Nat} (hk : k < n) (hj : j < 8) (hkp : k*8+j < n*8-(n*5-b.length)) :
    (encodeInit.decodeLut (inbuf.getD (k*8+j) 0)).toNat = Bits.digit 5 (temp32 b k) j := by
  have hl := symbols32_length b n
  have hs : inbuf.getD (k*8+j) 0 =
      encodeInit.encodeLut (UInt8.ofNat (Bits.digit 5 (temp32 b k) j)) := by
    rw [getD_eq_getElem?_getD,hin _ (by omega),stuffed_get (by omega),symbols32,
      flatMap_range_get (block32_length b) hk hj]
    simp [block32,hj]
  rw [hs,decode32_encode32 (lt_trans (Bits.digit_lt 5 _ j) (by decide))]

lemma plain32_get (hl : b.length ≤ n*5) (hpd : n*5 ≤ b.length+4) {p : Nat} (hp : p < b.length) :
    (plain32 inbuf n)[p]? = b[p]? := by
  obtain ⟨k,q,hq,rfl⟩ : ∃ k q, q < 5 ∧ p = k*5+q := ⟨p/5,p%5,Nat.mod_lt _ (by omega),by omega⟩
  have hk : k < n := by omega
  have hkp : ∀ j, j < min 8 (n*8-(n*5-b.length)-k*8) →
      (encodeInit.decodeLut (inbuf.getD (k*8+j) 0)).toNat = Bits.digit 5 (temp32 b k) j :=
    fun j hj => value32 hin hk (by omega) (by omega)
  have hd := Bits.digit_pack_digit (by decide) (min_le_left _ _) hkp
    (show (q+1)*8 ≤ min 8 (n*8-(n*5-b.length)-k*8)*5 by omega)
  have hb : Bits.digit 8 (temp32 b k) q = (b.getD (k*5+q) 0).toNat :=
    Bits.digit_pack (fun j => UInt8.toNat_lt _) hq
  rw [plain32,flatMap_range_get (fun j => octets32_length inbuf (j*8)) hk hq]
  simp only [octets32,getElem?_map,getElem?_range hq,Option.map_some]
  rw [hd,hb,UInt8.ofNat_toNat,getD_eq_getElem?_getD,getElem?_eq_getElem hp]
  rfl

lemma decode32_eq {out : Bytes} (hi : n*8 ≤ inbuf.length) (hint : n*8 < 2^31)
    (hps : 0 < b.length) (hln : b.length ≤ n*5) (hp : n*5 ≤ b.length+4)
    (hf : n*5 ≤ out.length) :
    decode32 inbuf (n*8) out = some (b.length,overwrite out (plain32 inbuf n)) := by
  have hd : ∀ out : Bytes, decode32Turn inbuf (n*8) ⟨n*8,n*5,out⟩ =
      some (.done ⟨n*8,n*5,out⟩) := fun _ => if_neg (lt_irrefl _)
  have hl := Codec.loop_blocks_done (fun k => octets32_length inbuf (k*8))
    (decode32Turn_block hi) hint (by omega) hf hd (show n < n*8+1 by omega)
  have hs := symbols32_length b n
  have ht := trim_stuffed (show 4 ≤ (symbols32 b n).length by omega)
    (by rw [hs]; exact hin) (symbols32_ne_stuff b n) (n*5)
  rw [hs,show n*5-min 4 (n*5-b.length) = b.length by omega] at ht
  rw [decode32,hl,Option.bind_some]
  change ((range' 1 4).foldl (trim inbuf (n*8) 97) (some (n*5))).map _ = _
  rw [ht]
  rfl

end

def RoundTrips32 (b outbuf plain : Bytes) : Prop :=
  ∃ o text out, encode32 b outbuf = some (o,text) ∧ decode32 text o plain = some (b.length,out) ∧
    out.take b.length = b

theorem roundTrips32 {b : Bytes} (hb : b ≠ []) {outbuf plain : Bytes}
    (hint : blocks32 b.length*8 < 2^31) (ho : blocks32 b.length*8 < outbuf.length)
    (hp : blocks32 b.length*5 ≤ plain.length) : RoundTrips32 b outbuf plain := by
  have hps : 0 < b.length := length_pos_of_ne_nil hb
  let n := blocks32 b.length
  have hl : b.length ≤ n*5 ∧ n*5 ≤ b.length+4 := by
    simp only [n,blocks32]
    omega
  have hs := stuffed_length
    (show n*5-b.length ≤ (symbols32 b n).length by rw [symbols32_length]; omega) 97
  rw [symbols32_length] at hs
  have hin : ∀ i, i < n*8 →
      (overwrite outbuf (stuffed (symbols32 b n) (n*5-b.length) 97 ++ [0]))[i]? =
        (stuffed (symbols32 b n) (n*5-b.length) 97)[i]? := by
    intro i hi
    rw [overwrite_get _ (by simp; omega),getElem?_append_left (by omega)]
  refine ⟨_,_,_,encode32_eq hint ho,decode32_eq hin ?_ hint hps hl.1 hl.2 hp,?_⟩
  · simp [overwrite]
    omega
  · refine take_eq_of_get fun i hi => ?_
    rw [overwrite_get _ (by rw [plain32_length]; omega),plain32_get hin hl.1 hl.2 hi]

theorem roundTrips32_seven_bytes :
    RoundTrips32 [255,0,7,128,64,1,97] (replicate 17 0) (replicate 10 0) :=
  roundTrips32 (by decide) (by decide) (by decide) (by decide)

/-- The encoded length of `5*2^28` bytes does not fit an `int`. -/
theorem encode32_too_long :
    ¬ ∃ outbuf plain, RoundTrips32 (replicate (5*2^28) 0) outbuf plain := by
  rintro ⟨outbuf,plain,o,text,out,he,_⟩
  have hint := encode32_int he
  rw [length_replicate,blocks32] at hint
  omega

end Aff4
