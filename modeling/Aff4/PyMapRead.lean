import Aff4.PyMapStore

/-! Reading through a map of aff4.py. `Map.read` reads up to the next point or the end of the
period; here it is compared with the bytes that the points stand for, one by one. -/

namespace Aff4.Python.Map

open LittleEndian Bisect List Option Int

/-- The points are in order from 0 on and below the image period, and both periods are positive. -/
structure Regular (map : Map) : Prop where
  strict : map.imageOffsets.Pairwise (· < ·)
  first : map.imageOffsets.head? = some 0
  inside : ∀ q ∈ map.imageOffsets, q < map.imagePeriod
  complete : map.Complete
  imagePeriod : 0 < map.imagePeriod
  targetPeriod : 0 < map.targetPeriod

structure Greatest (imageOffsets : List Int) (o q : Int) : Prop where
  mem : q ∈ imageOffsets
  le : q ≤ o
  max : ∀ p ∈ imageOffsets, p ≤ o → p ≤ q

/-- Every target can be opened, and a read within its content gives what stands there. -/
def Serves (oracle : Oracle) (content : Urn → Bytes) (map : Map) : Prop :=
  ∀ q ∈ map.imageOffsets, ∀ urn, map.targetUrns q = some urn → ∃ read, oracle urn = some read ∧
    ∀ offset length : Nat, offset + length ≤ (content urn).length →
      read offset length = some (slice (content urn) offset length)

def targetOffset (map : Map) (x q offset : Int) : Int :=
  offset + x%map.imagePeriod - q + x/map.imagePeriod*map.targetPeriod

/-- The targets are large enough for the offsets from `x` up to `y`. -/
def Covers (content : Urn → Bytes) (map : Map) (x y : Int) : Prop :=
  ∀ z, x ≤ z → z < y → ∀ q urn offset, Greatest map.imageOffsets (z%map.imagePeriod) q →
    map.targetUrns q = some urn → map.targetOffsets q = some offset →
      0 ≤ map.targetOffset z q offset ∧ map.targetOffset z q offset < (content urn).length

def IsByte (content : Urn → Bytes) (map : Map) (x : Int) (byte : UInt8) : Prop :=
  ∃ q urn offset, Greatest map.imageOffsets (x%map.imagePeriod) q ∧ map.targetUrns q = some urn ∧
    map.targetOffsets q = some offset ∧ 0 ≤ map.targetOffset x q offset ∧
      (content urn)[(map.targetOffset x q offset).toNat]? = some byte

variable {map : Map}

lemma Regular.sorted (h : map.Regular) : map.imageOffsets.Pairwise (· ≤ ·) := h.strict.imp le_of_lt

variable {o q : Int}

lemma Regular.before (h : map.Regular) (ho : 0 ≤ o) :
    ∃ q ∈ map.imageOffsets, q ≤ o := ⟨0,mem_of_head? h.first,ho⟩

lemma Greatest.unique {p : Int} (hq : Greatest map.imageOffsets o q)
    (hp : Greatest map.imageOffsets o p) : q = p :=
  le_antisymm (hp.max q hq.mem hq.le) (hq.max p hp.mem hp.le)

section

variable (h : map.Regular)
variable {o q offset x : Int} {urn : Urn}

include h

lemma Regular.lookup_of_greatest (hq : Greatest map.imageOffsets o q)
    (hu : map.targetUrns q = some urn)
    (ho : map.targetOffsets q = some offset) : map.lookup o = some (urn,offset+o-q) := by
  obtain ⟨g,hi,hmm,hle,hm⟩ := item_bisectRight h.sorted ⟨q,hq.mem,hq.le⟩
  obtain rfl := hq.unique ⟨hmm,hle,hm⟩
  simp [lookup,hi,ho,hu]

lemma Regular.resolve_of_greatest (hq : Greatest map.imageOffsets (x%map.imagePeriod) q)
    (hu : map.targetUrns q = some urn) (ho : map.targetOffsets q = some offset) :
    map.resolve x = some (urn,map.targetOffset x q offset) := by
  rw [resolve_of_pos h.imagePeriod,h.lookup_of_greatest hq hu ho]
  rfl

lemma Regular.greatest (ho : 0 ≤ o) : ∃ q, Greatest map.imageOffsets o q := by
  obtain ⟨q,_,_,hmm,hle,hm⟩ := get_bisectRight h.sorted (h.before ho)
  exact ⟨q,hmm,hle,hm⟩

lemma Regular.available {length : Int} (hl : 0 < length)
    (hq : Greatest map.imageOffsets (map.readptr%map.imagePeriod) q) :
    ∃ available, map.availableToRead length = some available ∧ 0 < available ∧
      ∀ j, 0 ≤ j → j < min available length → map.readptr%map.imagePeriod+j < map.imagePeriod ∧
          Greatest map.imageOffsets (map.readptr%map.imagePeriod+j) q := by
  have hlt := emod_lt_of_pos map.readptr h.imagePeriod
  obtain ⟨_,hps,_⟩ := get_bisectRight h.sorted
    (h.before (emod_nonneg map.readptr h.imagePeriod.ne'))
  simp only [availableToRead,divmod_of_pos h.imagePeriod,bind_eq_bind,bind_some]
  generalize map.readptr%map.imagePeriod = o at hlt hps hq ⊢
  split
  · next hn =>
    have hin : bisectRight map.imageOffsets o < map.imageOffsets.length := by omega
    have hg := getElem?_eq_getElem hin
    generalize map.imageOffsets[bisectRight map.imageOffsets o] = n at hg
    have hi : item map.imageOffsets ((bisectRight map.imageOffsets o : Int)-1+1) = some n := by
      rw [item,if_pos (by omega),sub_add_cancel,toNat_natCast,hg]
    have hon : o < n := lt_of_get_bisectRight h.sorted hg
    have hnP := h.inside n (mem_of_getElem? hg)
    rw [hi]
    refine ⟨n-o,rfl,by omega,fun j hj hjn => ⟨by omega,hq.mem,hq.le.trans (by omega),?_⟩⟩
    intro p hp hle
    by_cases hpo : p ≤ o
    · exact hq.max p hp hpo
    · have := le_of_get_bisectRight h.sorted hg hp (not_le.mp hpo)
      omega
  · next hla =>
    refine ⟨_,rfl,by omega,fun j hj hjn => ⟨by omega,hq.mem,hq.le.trans (by omega),?_⟩⟩
    intro p hp hle
    exact hq.max p hp (le_of_length_le_bisectRight h.sorted (by omega) hp)

lemma targetOffset_add {j : Int} (hj : 0 ≤ j)
    (hin : x%map.imagePeriod+j < map.imagePeriod) (offset : Int) :
    (x+j)%map.imagePeriod = x%map.imagePeriod+j ∧
      map.targetOffset (x+j) q offset = map.targetOffset x q offset+j := by
  have hn := emod_nonneg x h.imagePeriod.ne'
  have hd := emod_add_mul_ediv x map.imagePeriod
  have hs : x+j = x%map.imagePeriod+j+map.imagePeriod*(x/map.imagePeriod) := by omega
  have hm : (x+j)%map.imagePeriod = x%map.imagePeriod+j := by
    rw [hs,add_mul_emod_self_left,emod_eq_of_lt (by omega) hin]
  have hq : (x+j)/map.imagePeriod = x/map.imagePeriod := by
    rw [hs,add_mul_ediv_left _ _ h.imagePeriod.ne',ediv_eq_zero_of_lt (by omega) hin,zero_add]
  rw [targetOffset,targetOffset,hm,hq]
  omega

end

lemma getElem?_slice (bs : Bytes) {pos n i : Nat} (hi : i < n) :
    (slice bs pos n)[i]? = bs[pos+i]? := by rw [slice,getElem?_take_of_lt hi,getElem?_drop]

section

variable {oracle : Oracle} {content : Urn → Bytes}

variable {length : Int}

lemma Regular.partialRead_eq (h : map.Regular) (hsr : Serves oracle content map)
    (hl : 0 < length) (hc : Covers content map map.readptr (map.readptr+length)) :
    ∃ data : Bytes, map.partialRead oracle length =
        some (data,{map with readptr := map.readptr+data.length}) ∧
      data ≠ [] ∧ data.length ≤ length ∧
      ∀ (i : Nat) byte, data[i]? = some byte → IsByte content map (map.readptr+i) byte := by
  obtain ⟨q,hq⟩ := h.greatest (emod_nonneg map.readptr h.imagePeriod.ne')
  obtain ⟨urn,offset,hu,ho⟩ := h.complete q hq.mem
  obtain ⟨available,ha,hp,hrn⟩ := h.available hl hq
  obtain ⟨read,hopn,hrd⟩ := hsr q hq.mem urn hu
  have hr := h.resolve_of_greatest hq hu ho
  -- the last byte of the run is inside the target, so all are
  have hw : ∀ j, 0 ≤ j → j < min available length →
      Greatest map.imageOffsets ((map.readptr+j)%map.imagePeriod) q ∧
        map.targetOffset (map.readptr+j) q offset = map.targetOffset map.readptr q offset+j ∧
        0 ≤ map.targetOffset map.readptr q offset+j ∧
        map.targetOffset map.readptr q offset+j < (content urn).length := by
    intro j hj hlt
    obtain ⟨hin,hg⟩ := hrn j hj hlt
    obtain ⟨hm,hn⟩ := targetOffset_add h (q := q) hj hin offset
    rw [← hm] at hg
    have hb := hc (map.readptr+j) (by omega) (by omega) q urn offset hg hu ho
    rw [hn] at hb
    exact ⟨hg,hn,hb⟩
  obtain ⟨start,hs⟩ := eq_ofNat_of_zero_le
    (by simpa using (hw 0 le_rfl (by omega)).2.2.1)
  obtain ⟨count,hcn⟩ := eq_ofNat_of_zero_le (show 0 ≤ min available length by omega)
  have hla := (hw (min available length-1) (by omega) (by omega)).2.2.2
  have hf : start+count ≤ (content urn).length := by omega
  have hd := hrd start count hf
  have hln : (slice (content urn) start count).length = count := by
    rw [slice_length]
    omega
  refine ⟨slice (content urn) start count,?_,fun hnl => ?_,by omega,fun i byte hby => ?_⟩
  · simp only [partialRead,hr,ha,hopn,hs,hcn,Option.bind_eq_bind,Option.bind_some]
    rw [hd]
    rfl
  · rw [hnl] at hln
    simp at hln
    omega
  · have hi : i < count := by
      have := (List.getElem?_eq_some_iff.mp hby).1
      omega
    obtain ⟨hg,hn,hnn,_⟩ := hw i (by omega) (by omega)
    refine ⟨q,urn,offset,hg,hu,ho,by rw [hn]; exact hnn,?_⟩
    rw [hn,hs,show ((start : Int)+i).toNat = start+i by omega,← getElem?_slice (content urn) hi]
    exact hby

lemma Regular.readLoop_eq (h : map.Regular) (hs : Serves oracle content map) {x : Int}
    (hc : Covers content map x (x+length)) {fuel : Nat} {result : Bytes}
    (hf : (length-result.length).toNat < fuel) (hl : result.length ≤ max 0 length)
    (hr : ∀ (i : Nat) byte, result[i]? = some byte → IsByte content map (x+i) byte) :
    ∃ data : Bytes, readLoop oracle length fuel {map with readptr := x+result.length} result =
        some (data,{map with readptr := x+data.length}) ∧
      data.length = max 0 length ∧
      ∀ (i : Nat) byte, data[i]? = some byte → IsByte content map (x+i) byte := by
  induction fuel generalizing result with
  | zero => omega
  | succ fuel ih =>
    rw [readLoop]
    by_cases hm : (result.length : Int) < length
    · have hrg : Regular {map with readptr := x+result.length} :=
        ⟨h.strict,h.first,h.inside,h.complete,h.imagePeriod,h.targetPeriod⟩
      have hrs : Covers content {map with readptr := x+result.length} (x+result.length)
          (x+result.length+(length-result.length)) :=
        fun z hz hzy => hc z (by omega) (by omega)
      obtain ⟨data,hp,hne,hle,hbs⟩ :=
        hrg.partialRead_eq hs (show 0 < length-result.length by omega) hrs
      have hps := length_pos_iff.mpr hne
      rw [if_pos hm,hp,bind_some,if_neg hne]
      have hpt : x+(result.length : Int)+data.length = x+(result ++ data).length := by
        simp only [length_append]
        omega
      simp only [hpt]
      refine ih ?_ ?_ fun i byte hb => ?_
      · omega
      · omega
      · by_cases hi : i < result.length
        · exact hr i byte (by rwa [getElem?_append_left hi] at hb)
        · rw [getElem?_append_right (not_lt.mp hi)] at hb
          have := hbs (i-result.length) byte hb
          rwa [show x+(result.length : Int)+(i-result.length : Nat) = x+i by omega] at this
    · rw [if_neg hm]
      exact ⟨result,rfl,by omega,hr⟩

/-- `Map.read` ends, and gives the bytes that the offsets stand for, up to the end of the map. -/
theorem read_follows (h : map.Regular) (hs : Serves oracle content map) (length : Int)
    (hc : Covers content map map.readptr
      (map.readptr + min length (max 0 (map.size - map.readptr)))) :
    ∃ data : Bytes, map.read oracle length =
        some (data,{map with readptr := map.readptr+data.length}) ∧
      data.length = (min length (max 0 (map.size-map.readptr))).toNat ∧
      ∀ (i : Nat) byte, data[i]? = some byte → IsByte content map (map.readptr+i) byte := by
  have hc' : Covers content map map.readptr
      (map.readptr+min length (map.size-map.readptr)) :=
    fun z hz hzy => hc z hz (by omega)
  have hf : (min length (map.size-map.readptr)-([] : Bytes).length).toNat <
      (min length (map.size-map.readptr)).toNat+1 := by simp
  obtain ⟨data,hr,hl,hb⟩ := h.readLoop_eq hs hc' hf (by simp) (by simp)
  refine ⟨data,?_,by omega,hb⟩
  simpa [read] using hr

end

/-- Two targets that take turns, in periods of 8 bytes; the first period is at their start. -/
def stripes : Map :=
  {built ⟨none,1,20,8,4,0⟩ [.add 0 0 (chars ['a']),.add 3 1 (chars ['b'])] with readptr := 2}

def stripeContent (urn : Urn) : Bytes :=
  if urn = chars ['a'] then [0,1,2,3,4,5,6,7,8,9,10,11,12,13,14,15] else replicate 16 77

def stripeOracle : Oracle := fun urn =>
  some fun offset length => some (slice (stripeContent urn) offset.toNat length.toNat)

lemma stripes_mem (h : q ∈ stripes.imageOffsets) : q = 0 ∨ q = 3 := by
  have ho : stripes.imageOffsets = [0,3] := by decide +kernel
  simpa [ho] using h

lemma stripes_regular : stripes.Regular where
  strict := by decide +kernel
  first := by decide +kernel
  inside := by decide +kernel
  complete q hq := by
    rcases stripes_mem hq with rfl | rfl
    · exact ⟨chars ['a'],0,rfl,rfl⟩
    · exact ⟨chars ['b'],1,rfl,rfl⟩
  imagePeriod := by decide +kernel
  targetPeriod := by decide +kernel

lemma stripes_covers : Covers stripeContent stripes 2 12 := by
  have hp : stripes.imagePeriod = 8 ∧ stripes.targetPeriod = 4 := by decide +kernel
  intro z hz hlt q urn offset hq hu ho
  have hl : (stripeContent urn).length = 16 := by
    rw [stripeContent]
    split <;> rfl
  rw [targetOffset,hp.1,hp.2,hl]
  rcases stripes_mem hq.mem with rfl | rfl
  · obtain rfl : 0 = offset := some.inj (Eq.trans (by rfl) ho)
    omega
  · obtain rfl : 1 = offset := some.inj (Eq.trans (by rfl) ho)
    omega

theorem read_follows_stripes : ∃ data : Bytes, stripes.read stripeOracle 10 =
      some (data,{stripes with readptr := stripes.readptr+data.length}) ∧
    data.length = (min 10 (max 0 (stripes.size-stripes.readptr))).toNat ∧
    ∀ (i : Nat) byte, data[i]? = some byte →
      IsByte stripeContent stripes (stripes.readptr+i) byte := by
  refine read_follows stripes_regular (fun q hq urn hu => ⟨_,rfl,fun offset length _ => rfl⟩) 10 ?_
  exact stripes_covers

example : (stripes.read stripeOracle 10).map Prod.fst = some [2,77,77,77,77,77,4,5,6,77] := by
  decide +kernel

end Aff4.Python.Map
