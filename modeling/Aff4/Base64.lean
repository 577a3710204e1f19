import Mathlib.Tactic.IntervalCases
import Aff4.Encode

/-! `encode64` and `decode64`: what one makes of the other's text, and which memory
the encoder touches. -/

namespace Aff4

open LittleEndian Loop Buffer List Option

lemma byte_ext {x y : UInt8} (h : ∀ i, i < 8 → x.toBitVec.getLsbD i = y.toBitVec.getLsbD i) :
    x = y :=
  UInt8.eq_of_toBitVec_eq (BitVec.eq_of_getLsbD_eq h)

section

variable {v : UInt8} (h : v &&& 63 = v)
include h

lemma sextet_lt : v < 64 := by
  rw [← h,UInt8.lt_iff_toNat_lt,UInt8.toNat_and]
  exact lt_of_le_of_lt Nat.and_le_right (by decide)

lemma decode64_encode64 : encodeInit.decode64Lut (encodeInit.encode64Lut v) = v := by
  have hlt : v.toNat < 64 := UInt8.lt_iff_toNat_lt.mp (sextet_lt h)
  have hr := reverseLut_apply encode64Lut_nodup hlt
  rwa [UInt8.ofNat_toNat,← decode64Lut_eq] at hr

lemma encode64_ne_pad : encodeInit.encode64Lut v ≠ 61 := by
  have ha : ∀ k, k < 64 → encodeInit.encode64Lut (UInt8.ofNat k) ≠ 61 := by decide +kernel
  have hlt : v.toNat < 64 := UInt8.lt_iff_toNat_lt.mp (sextet_lt h)
  simpa using ha v.toNat hlt

end

section

variable (x y z : UInt8)

def sextets : Bytes :=
  [x >>> 2,(x &&& 0x03) <<< 4 ||| (y &&& 0xf0) >>> 4,(y &&& 0x0f) <<< 2 ||| (z &&& 0xc0) >>> 6,
    z &&& 0x3f]

lemma encodeblock_eq (lut : Lut) : encodeblock lut x y z = (sextets x y z).map lut := rfl

lemma sextets_masked : ∀ v ∈ sextets x y z, v &&& 63 = v := by
  simp only [sextets,forall_mem_cons,not_mem_nil,false_imp_iff,implies_true,and_true]
  refine ⟨?_,?_,?_,?_⟩ <;> exact byte_ext fun i hi => by interval_cases i <;> simp

lemma octet0 : (x >>> 2) <<< 2 ||| ((x &&& 0x03) <<< 4 ||| (y &&& 0xf0) >>> 4) >>> 4 = x :=
  byte_ext fun i hi => by interval_cases i <;> simp

lemma octet1 : ((x &&& 0x03) <<< 4 ||| (y &&& 0xf0) >>> 4) <<< 4 |||
    ((y &&& 0x0f) <<< 2 ||| (z &&& 0xc0) >>> 6) >>> 2 = y :=
  byte_ext fun i hi => by interval_cases i <;> simp

lemma octet2 : (((y &&& 0x0f) <<< 2 ||| (z &&& 0xc0) >>> 6) <<< 6 &&& 0xc0) ||| (z &&& 0x3f) = z :=
  byte_ext fun i hi => by interval_cases i <;> simp

def octets (v : Nat → UInt8) : Bytes :=
  [v 0 <<< 2 ||| v 1 >>> 4,v 1 <<< 4 ||| v 2 >>> 2,(v 2 <<< 6 &&& 0xc0) ||| v 3]

lemma octets_sextets {v : Nat → UInt8} {q : Nat} (hq : q < 3)
    (hl : v q = (sextets x y z).getD q 0) (hr : v (q+1) = (sextets x y z).getD (q+1) 0) :
    (octets v)[q]? = [x,y,z][q]? := by
  match q, hq with
  | 0, _ =>
    have h := octet0 x y
    exact congrArg some (by rwa [hl,show v 1 = _ from hr])
  | 1, _ =>
    have h := octet1 x y z
    exact congrArg some (by rwa [hl,show v 2 = _ from hr])
  | 2, _ =>
    have h := octet2 y z
    exact congrArg some (by rwa [hl,show v 3 = _ from hr])

end

def blocks64 (len : Nat) : Nat := (len+2)/3

def block64 (m : Nat → UInt8) (k : Nat) : Bytes :=
  encodeblock encodeInit.encode64Lut (m (k*3)) (m (k*3+1)) (m (k*3+2))

def symbols64 (m : Nat → UInt8) (n : Nat) : Bytes := (range n).flatMap (block64 m)

lemma block64_length (m : Nat → UInt8) (k : Nat) : (block64 m k).length = 4 := rfl

lemma symbols64_length (m : Nat → UInt8) (n : Nat) : (symbols64 m n).length = n*4 :=
  flatMap_range_length (block64_length m) n

lemma symbols64_ne_pad (m : Nat → UInt8) (n : Nat) : ∀ c ∈ symbols64 m n, c ≠ 61 := by
  intro c hc
  obtain ⟨k,_,hc⟩ := mem_flatMap.mp hc
  rw [block64,encodeblock_eq] at hc
  obtain ⟨v,hv,rfl⟩ := mem_map.mp hc
  exact encode64_ne_pad (sextets_masked _ _ _ v hv)

section

variable {input : Nat → Option UInt8} {m : Nat → UInt8} {len outlen : Nat}

lemma encode64Turn_block {n : Nat} (hn : n ≤ blocks64 len)
    (hin : ∀ p, p < n*3 → input p = some (m p)) (ho : blocks64 len*4 ≤ outlen) :
    ∀ k (out : Bytes), k < n → encode64Turn input len outlen ⟨k*3,k*4,out⟩ =
      Codec.put ⟨k*3,k*4,out⟩ 3 4 (block64 m k) := by
  intro k out hk
  have hg : k*3 < len ∧ k*4 < outlen := by
    simp only [blocks64] at hn ho
    omega
  simp only [encode64Turn,hg,and_self,if_true,hin (k*3) (by omega),hin (k*3+1) (by omega),
    hin (k*3+2) (by omega),bind_some]
  rfl

lemma encode64Turn_end (input : Nat → Option UInt8) (len outlen : Nat) (out : Bytes) :
    encode64Turn input len outlen ⟨blocks64 len*3,blocks64 len*4,out⟩ =
      some (.done ⟨blocks64 len*3,blocks64 len*4,out⟩) := by
  refine if_neg ?_
  simp only [blocks64]
  omega

lemma blocks64_le (len : Nat) : blocks64 len ≤ len := by
  simp only [blocks64]
  omega

variable {outbuf : Bytes} {s : Codec}

lemma encode64_eq (hin : ∀ p, p < blocks64 len*3 → input p = some (m p))
    (ho : blocks64 len*4 ≤ outlen) (hm : outlen < 2^31) (hint : len*2 < 2^31)
    (hc : len*2 ≤ outbuf.length) (hft : blocks64 len*4 < outbuf.length) :
    encode64 input len outbuf outlen =
      some (blocks64 len*4,overwrite (overwrite outbuf (replicate (len*2) 0))
        (stuffed (symbols64 m (blocks64 len)) (blocks64 len*3-len) 61 ++ [0])) := by
  have hs : writeAt outbuf 0 (replicate (len*2) 0) =
      some (overwrite outbuf (replicate (len*2) 0)) := by simp [writeAt,overwrite,hc]
  have hln : (overwrite outbuf (replicate (len*2) 0)).length = outbuf.length :=
    overwrite_length (by simpa using hc)
  have hsy := symbols64_length m (blocks64 len)
  have hp : blocks64 len*3-len ≤ 2 ∧ blocks64 len*3-len ≤ blocks64 len*4 := by
    simp only [blocks64]
    omega
  have hf := finish_overwrite (overwrite outbuf (replicate (len*2) 0))
    (symbols64 m (blocks64 len)) (i := blocks64 len*3) rfl hp.1 (by omega) (by omega) 61
  rw [hsy] at hf
  have hl := Codec.loop_blocks_done (block64_length m)
    (encode64Turn_block (le_refl _) hin ho) (by omega) (by omega)
    (show _ ≤ (overwrite outbuf (replicate (len*2) 0)).length by omega)
    (encode64Turn_end input len outlen) (Nat.lt_succ_of_le (blocks64_le len))
  rw [encode64,if_pos hint,hs,bind_some,hl]
  exact hf

lemma encode64Turn_cases {turn : Turn Codec Codec}
    (h : encode64Turn input len outlen s = some turn) :
    (¬ (s.i < len ∧ s.o < outlen) ∧ turn = .done s) ∨
      (s.i < len ∧ s.o < outlen ∧ ∃ t, turn = .next t ∧ t.i = s.i+3 ∧ t.o = s.o+4 ∧
        t.outbuf.length = s.outbuf.length) := by
  rw [encode64Turn] at h
  by_cases hg : s.i < len ∧ s.o < outlen
  · rw [if_pos hg] at h
    simp only [bind_eq_some_iff] at h
    obtain ⟨x,_,y,_,z,_,h⟩ := h
    obtain ⟨t,ht,hi,ho,_,hl⟩ := Codec.put_cases h
    exact .inr ⟨hg.1,hg.2,t,ht,hi,ho,hl⟩
  · rw [if_neg hg] at h
    exact .inl ⟨hg,(some.inj h).symm⟩

lemma encode64_loop_end {buf : Bytes} (hou : blocks64 len*4 ≤ outlen)
    (h : loop (encode64Turn input len outlen) (len+1) ⟨0,0,buf⟩ = some s) :
    s.o = blocks64 len*4 ∧ s.outbuf.length = buf.length := by
  refine loop_rule
    (fun s => ∃ k, k ≤ blocks64 len ∧ s.i = k*3 ∧ s.o = k*4 ∧ s.outbuf.length = buf.length)
    (fun s => s.o = blocks64 len*4 ∧ s.outbuf.length = buf.length) ?_ ?_
    ⟨0,Nat.zero_le _,rfl,rfl,rfl⟩ h
  · rintro s t ⟨k,hk,hi,ho,hl⟩ htn
    obtain ⟨_,ht⟩ | ⟨hlt,_,u,ht,hi',ho',hl'⟩ := encode64Turn_cases htn
    · cases ht
    · cases ht
      refine ⟨k+1,?_,by omega,by omega,by omega⟩
      simp only [blocks64] at hk ⊢
      omega
  · rintro s r ⟨k,hk,hi,ho,hl⟩ htn
    obtain ⟨hg,ht⟩ | ⟨_,_,u,ht,_⟩ := encode64Turn_cases htn
    · cases ht
      simp only [blocks64] at hk hou ⊢
      omega
    · cases ht

lemma encode64_room {r : Nat × Bytes} (hou : blocks64 len*4 ≤ outlen)
    (h : encode64 input len outbuf outlen = some r) :
    len*2 < 2^31 ∧ len*2 ≤ outbuf.length ∧ blocks64 len*4 < outbuf.length := by
  by_cases hint : len*2 < 2^31
  · rw [encode64,if_pos hint] at h
    simp only [bind_eq_some_iff,map_eq_some_iff] at h
    obtain ⟨buf,hst,s,hl,buf',hs,buf'',hn,_⟩ := h
    obtain ⟨hln,hc⟩ := writeAt_length hst
    obtain ⟨ho,hln'⟩ := encode64_loop_end hou hl
    have hln'' : buf'.length = s.outbuf.length := by
      rw [Codec.stuff] at hs
      split at hs
      · exact (writeAt_length hs).1
      · rw [some.inj hs]
    have hr := (writeAt_length hn).2
    simp only [length_replicate,length_cons,length_nil] at hc hr
    exact ⟨hint,by omega,by omega⟩
  · rw [encode64,if_neg hint] at h
    cases h

end

section

variable {inbuf : Bytes} {m : Nat → UInt8} {len n outlen : Nat}

def octets64 (lut : Lut) (inbuf : Bytes) (i : Nat) : Bytes :=
  octets fun j => lut (inbuf.getD (i+j) 0)

lemma decodeblock_eq (lut : Lut) {i : Nat} (h : i+4 ≤ inbuf.length) (left : Nat) :
    decodeblock lut inbuf i left = some ((octets64 lut inbuf i).take left) := by
  obtain ⟨c,hc⟩ : ∃ c, inbuf[i]? = some c := ⟨_,getElem?_eq_getElem (by omega)⟩
  obtain ⟨d,hd⟩ : ∃ d, inbuf[i+1]? = some d := ⟨_,getElem?_eq_getElem (by omega)⟩
  obtain ⟨e,he⟩ : ∃ e, inbuf[i+2]? = some e := ⟨_,getElem?_eq_getElem (by omega)⟩
  obtain ⟨f,hf⟩ : ∃ f, inbuf[i+3]? = some f := ⟨_,getElem?_eq_getElem (by omega)⟩
  match left with
  | 0 => rfl
  | 1 => simp [decodeblock,octets64,octets,hc,hd]
  | 2 => simp [decodeblock,octets64,octets,hc,hd,he]
  | left+3 => simp [decodeblock,octets64,octets,hc,hd,he,hf]

def plain64 (inbuf : Bytes) (n : Nat) : Bytes :=
  (range n).flatMap fun k => octets64 encodeInit.decode64Lut inbuf (k*4)

lemma plain64_length (inbuf : Bytes) (n : Nat) : (plain64 inbuf n).length = n*3 :=
  flatMap_range_length (fun k => show (octets64 _ inbuf (k*4)).length = 3 from rfl) n

def decoding64 (inbuf buf : Bytes) (outlen k : Nat) : Codec :=
  ⟨k*4,k*3,overwrite buf ((plain64 inbuf k).take outlen)⟩

variable {k : Nat}

lemma decode64Turn_block {buf : Bytes} (hk : k < n) (hin : n*4 ≤ inbuf.length)
    (hint : n*4 < 2^31) (ho : k*3 < outlen) (hf : outlen ≤ buf.length) :
    decode64Turn inbuf (n*4) outlen (decoding64 inbuf buf outlen k) =
      some (.next (decoding64 inbuf buf outlen (k+1))) := by
  have hl := plain64_length inbuf k
  have ht : (plain64 inbuf k).take outlen = plain64 inbuf k := take_of_length_le (by omega)
  let block := (octets64 encodeInit.decode64Lut inbuf (k*4)).take (outlen-k*3)
  have hp : Codec.put ⟨k*4,(plain64 inbuf k).length,overwrite buf (plain64 inbuf k)⟩ 4 3 block =
      some (.next ⟨k*4+4,(plain64 inbuf k).length+3,overwrite buf (plain64 inbuf k ++ block)⟩) :=
    Codec.put_overwrite (by simp [block]; omega) (by omega) (by omega)
  have hs : plain64 inbuf (k+1) =
      plain64 inbuf k ++ octets64 encodeInit.decode64Lut inbuf (k*4) := by simp [plain64,range_succ]
  have hn : (plain64 inbuf (k+1)).take outlen = plain64 inbuf k ++ block := by
    rw [hs,take_append,ht,hl]
  have hg : k*4 < n*4 ∧ k*3 < outlen := by omega
  simp only [decode64Turn,decoding64,hg,and_self,if_true,ht,
    decodeblock_eq _ (show k*4+4 ≤ inbuf.length by omega),bind_some]
  rw [hl] at hp
  rw [hn,Nat.succ_mul,Nat.succ_mul]
  exact hp

variable (hin : ∀ i, i < n*4 → inbuf[i]? = (stuffed (symbols64 m n) (n*3-len) 61)[i]?)

include hin

lemma value64 {q : Nat} (hk : k < n) (hq : q < 4) (hkp : k*4+q < n*4-(n*3-len)) :
    encodeInit.decode64Lut (inbuf.getD (k*4+q) 0) =
      (sextets (m (k*3)) (m (k*3+1)) (m (k*3+2))).getD q 0 := by
  have hl := symbols64_length m n
  obtain ⟨v,hv⟩ : ∃ v, (sextets (m (k*3)) (m (k*3+1)) (m (k*3+2)))[q]? = some v :=
    ⟨_,getElem?_eq_getElem (by simpa [sextets] using hq)⟩
  have hs : inbuf[k*4+q]? = some (encodeInit.encode64Lut v) := by
    rw [hin _ (by omega),stuffed_get (by omega),symbols64,
      flatMap_range_get (block64_length m) hk hq,block64,encodeblock_eq,getElem?_map,hv]
    rfl
  rw [getD_eq_getElem?_getD,getD_eq_getElem?_getD,hs,hv]
  exact decode64_encode64 (sextets_masked _ _ _ v (mem_of_getElem? hv))

lemma plain64_get (hl : len ≤ n*3) (hpd : n*3 ≤ len+2) {p : Nat} (hp : p < len) :
    (plain64 inbuf n)[p]? = some (m p) := by
  obtain ⟨k,q,hq,rfl⟩ : ∃ k q, q < 3 ∧ p = k*3+q := ⟨p/3,p%3,Nat.mod_lt _ (by omega),by omega⟩
  have hk : k < n := by omega
  rw [plain64,flatMap_range_get (fun j => show (octets64 _ inbuf (j*4)).length = 3 from rfl) hk hq]
  -- both symbols that byte `q` is made of are there
  refine (octets_sextets _ _ _ hq (value64 hin hk (by omega) (by omega))
    (value64 hin hk (by omega) (by omega))).trans ?_
  match q, hq with
  | 0, _ => rfl
  | 1, _ => rfl
  | 2, _ => rfl

lemma decode64_eq {out : Bytes} (hi : n*4 ≤ inbuf.length) (hint : n*4 < 2^31) (hps : 0 < len)
    (hln : len ≤ n*3) (hp : n*3 ≤ len+2) (ho : len ≤ outlen) (hf : outlen ≤ out.length) :
    decode64 inbuf (n*4) out outlen = some (len,overwrite out ((plain64 inbuf n).take outlen)) := by
  have hd : decode64Turn inbuf (n*4) outlen (decoding64 inbuf out outlen n) =
      some (.done (decoding64 inbuf out outlen n)) := if_neg (by simp [decoding64])
  have hl : loop (decode64Turn inbuf (n*4) outlen) (n*4+1) (decoding64 inbuf out outlen 0) =
      some (decoding64 inbuf out outlen n) :=
    loop_counted_done (decoding64 inbuf out outlen) n
      (fun k hk => decode64Turn_block hk hi hint (by omega) hf) hd (by omega)
  have hs : decoding64 inbuf out outlen 0 = ⟨0,0,out⟩ := by simp [decoding64,plain64,overwrite]
  have hsy := symbols64_length m n
  have ht := trim_stuffed (show 2 ≤ (symbols64 m n).length by omega)
    (by rw [hsy]; exact hin) (symbols64_ne_pad m n) (n*3)
  rw [hsy,show n*3-min 2 (n*3-len) = len by omega] at ht
  rw [hs] at hl
  rw [decode64,hl,bind_some]
  change ((range' 1 2).foldl (trim inbuf (n*4) 61) (some (n*3))).map _ = _
  rw [ht]
  rfl

end

def memory (b : Bytes) (after : Nat → UInt8) (i : Nat) : Option UInt8 := some (b.getD i (after i))

/-- `decode64` gives back what `encode64` was given, for buffers `outbuf` and `plain`
of any contents. -/
def RoundTrips64 (b : Bytes) (after : Nat → UInt8) (outbuf : Bytes) (outlen : Nat) (plain : Bytes)
    (plainlen : Nat) : Prop :=
  ∃ o text out, encode64 (memory b after) b.length outbuf outlen = some (o,text) ∧
    decode64 text o plain plainlen = some (b.length,out) ∧ out.take b.length = b

theorem roundTrips64_iff {b : Bytes} (hb : b ≠ []) (after : Nat → UInt8) {outbuf plain : Bytes}
    {outlen plainlen : Nat} (hm : outlen < 2^31) (ho : blocks64 b.length*4 ≤ outlen)
    (hpl : b.length ≤ plainlen) (hf : plainlen ≤ plain.length) :
    RoundTrips64 b after outbuf outlen plain plainlen ↔
      b.length*2 < 2^31 ∧ b.length*2 ≤ outbuf.length ∧
        blocks64 b.length*4 < outbuf.length := by
  have hps : 0 < b.length := length_pos_of_ne_nil hb
  constructor
  · rintro ⟨o,text,out,he,_⟩
    exact encode64_room ho he
  rintro ⟨hint,hc,hr⟩
  let m := fun i => b.getD i (after i)
  let n := blocks64 b.length
  have he := encode64_eq (m := m) (fun p _ => rfl) ho hm hint hc hr
  have hl : b.length ≤ n*3 ∧ n*3 ≤ b.length+2 := by
    simp only [n,blocks64]
    omega
  have hs := stuffed_length
    (show n*3-b.length ≤ (symbols64 m n).length by rw [symbols64_length]; omega) 61
  rw [symbols64_length] at hs
  have hin : ∀ i, i < n*4 → (overwrite (overwrite outbuf (replicate (b.length*2) 0))
      (stuffed (symbols64 m n) (n*3-b.length) 61 ++ [0]))[i]? =
        (stuffed (symbols64 m n) (n*3-b.length) 61)[i]? := by
    intro i hi
    rw [overwrite_get _ (by simp; omega),getElem?_append_left (by omega)]
  refine ⟨_,_,_,he,decode64_eq hin ?_ (by omega) hps hl.1 hl.2 hpl hf,?_⟩
  · simp [overwrite]
    omega
  · refine take_eq_of_get fun i hi => ?_
    have hp := plain64_length
    rw [overwrite_get _ (by rw [length_take,hp]; omega),
      getElem?_take_of_lt (by omega),plain64_get hin hl.1 hl.2 hi]
    simp [m,getElem?_eq_getElem hi]

theorem roundTrips64_three_bytes :
    RoundTrips64 [77,97,110] (fun _ => 0) (replicate 6 0) 6 (replicate 3 0) 3 :=
  (roundTrips64_iff (by decide) _ (by decide) (by decide) (by decide) (by decide)).mpr
    (by decide)

/-- A buffer of four bytes is cleared with six zeros. -/
theorem encode64_overruns :
    ¬ RoundTrips64 [77,97,110] (fun _ => 0) (replicate 4 0) 4 (replicate 3 0) 3 := by
  rintro ⟨o,text,out,he,_⟩
  have hn : encode64 (memory [77,97,110] fun _ => 0) 3 (replicate 4 0) 4 = none := by
    decide +kernel
  exact absurd (hn.symm.trans he) (by simp)

/-- `encode64` stays inside both buffers, and the bytes after the input do not
change what it writes. -/
structure Contained (b : Bytes) (outlen : Nat) : Prop where
  inside : ∀ outbuf : Bytes, outbuf.length = outlen →
    (encode64 (fun i => b[i]?) b.length outbuf outlen).isSome
  alone : ∀ (after after' : Nat → UInt8) (outbuf : Bytes), outbuf.length = outlen →
    encode64 (memory b after) b.length outbuf outlen =
      encode64 (memory b after') b.length outbuf outlen

lemma encode64_reads_past {b outbuf : Bytes} {outlen : Nat} (hr : b.length%3 ≠ 0)
    (hm : outlen < 2^31) (ho : blocks64 b.length*4 ≤ outlen)
    (hft : outbuf.length = outlen) : encode64 (fun i => b[i]?) b.length outbuf outlen = none := by
  by_cases hint : b.length*2 < 2^31
  swap
  · rw [encode64,if_neg hint]
  cases hs : writeAt outbuf 0 (replicate (b.length*2) 0) with
  | none => rw [encode64,if_pos hint,hs]; rfl
  | some buf =>
    have hln := (writeAt_length hs).1
    obtain ⟨k,hk⟩ : ∃ k, blocks64 b.length = k+1 := ⟨b.length/3,by simp only [blocks64]; omega⟩
    have hgt : ∀ p, p < k*3 → b[p]? = some (b.getD p 0) := by
      intro p hp
      have hlt : p < b.length := by simp only [blocks64] at hk; omega
      simp [getElem?_eq_getElem hlt]
    have hg : k*3 < b.length ∧ k*4 < outlen := by simp only [blocks64] at hk ho; omega
    have hps : b[k*3+2]? = none := getElem?_eq_none (by simp only [blocks64] at hk; omega)
    have hl : loop (encode64Turn (fun i => b[i]?) b.length outlen) (b.length+1) ⟨0,0,buf⟩ =
        none := by
      obtain ⟨rest,hf⟩ : ∃ rest, b.length+1-k = rest+1 := ⟨b.length-k,by omega⟩
      rw [Codec.loop_blocks (block64_length _) (encode64Turn_block (by omega) hgt ho) (by omega)
        (by omega) (by omega) (by omega),hf]
      simp [loop,encode64Turn,hg,hps]
    rw [encode64,if_pos hint,hs,bind_some,hl]
    rfl

theorem contained_iff {b : Bytes} {outlen : Nat} (hm : outlen < 2^31)
    (ho : blocks64 b.length*4+1 ≤ outlen) :
    Contained b outlen ↔ b.length%3 = 0 ∧ b.length*2 ≤ outlen := by
  have ho' : blocks64 b.length*4 ≤ outlen := by omega
  constructor
  · intro h
    obtain ⟨r,hr⟩ := isSome_iff_exists.mp (h.inside (replicate outlen 0) (by simp))
    have hrm := encode64_room ho' hr
    rw [length_replicate] at hrm
    refine ⟨?_,hrm.2.1⟩
    by_contra hrs
    rw [encode64_reads_past hrs hm ho' (by simp)] at hr
    cases hr
  rintro ⟨hw,hc⟩
  have hb : blocks64 b.length*3 = b.length := by
    simp only [blocks64]
    omega
  have heq : ∀ (input : Nat → Option UInt8) (outbuf : Bytes), outbuf.length = outlen →
      (∀ p, p < b.length → input p = some (b.getD p 0)) →
      encode64 input b.length outbuf outlen = some (blocks64 b.length*4,
        overwrite (overwrite outbuf (replicate (b.length*2) 0))
          (stuffed (symbols64 (fun p => b.getD p 0) (blocks64 b.length))
            (blocks64 b.length*3-b.length) 61 ++ [0])) :=
    fun input outbuf hs hin => encode64_eq (fun p hp => hin p (by omega)) ho' hm (by omega)
      (by omega) (by omega)
  have hmm : ∀ after p, p < b.length → memory b after p = some (b.getD p 0) := by
    intro after p hp
    simp [memory,getElem?_eq_getElem hp]
  refine ⟨fun outbuf hs => ?_,fun after after' outbuf hs => ?_⟩
  · rw [heq _ outbuf hs fun p hp => by simp [getElem?_eq_getElem hp]]
    rfl
  · rw [heq _ outbuf hs (hmm after),heq _ outbuf hs (hmm after')]

theorem contained_three_bytes : Contained [77,97,110] 6 :=
  (contained_iff (by decide) (by decide)).mpr (by decide)

/-- Half of the byte after a single one is in the text, though the buffer is large enough. -/
theorem encode64_leaks :
    encode64 (memory [0] fun _ => 0x00) 1 (replicate 5 0) 5 =
        some (4,chars ['A','A','=','='] ++ [0]) ∧
      encode64 (memory [0] fun _ => 0xf0) 1 (replicate 5 0) 5 =
        some (4,chars ['A','P','=','='] ++ [0]) ∧ ¬ Contained [0] 5 := by
  have hz : encode64 (memory [0] fun _ => 0x00) 1 (replicate 5 0) 5 =
      some (4,chars ['A','A','=','='] ++ [0]) := by
    decide +kernel
  have hn : encode64 (memory [0] fun _ => 0xf0) 1 (replicate 5 0) 5 =
      some (4,chars ['A','P','=','='] ++ [0]) := by
    decide +kernel
  refine ⟨hz,hn,fun h => ?_⟩
  have hs := h.alone (fun _ => 0x00) (fun _ => 0xf0) (replicate 5 0) rfl
  exact absurd (hz.symm.trans (hs.trans hn)) (by decide)

end Aff4
