import Aff4.Image
import Aff4.UrnPath

/-! The names of the two members that a worker writes. Workers of one image that have different
numbers write to different members, unless the names are too long to be told apart. -/

namespace Aff4

open LittleEndian URLParse List

variable {n : Nat} {e : Bytes}

lemma mem_hex8 {c : UInt8} (h : c ∈ hex8 n) : ∃ d < 16, c = hexDigit d := by
  obtain ⟨i,-,rfl⟩ := mem_map.mp h
  exact ⟨_,Nat.mod_lt _ (by decide),rfl⟩

lemma hex8_length (n : Nat) : (hex8 n).length = 8 := by simp [hex8]

lemma hex8_injective {m : Nat} (hn : n < 2^32) (hm : m < 2^32) (h : hex8 n = hex8 m) : n = m := by
  have hd : ∀ i < 8, n/16^i%16 = m/16^i%16 := by
    intro i hi
    have hmm : i ∈ (range 8).reverse := mem_reverse.mpr (mem_range.mpr hi)
    exact hexDigit_injective _ (Nat.mod_lt _ (by decide)) _ (Nat.mod_lt _ (by decide))
      (map_inj_left.mp h i hmm)
  -- from the leading digit on, the numbers agree in what was read so far
  have hr : ∀ i ≤ 8, n/16^(8-i) = m/16^(8-i) := by
    intro i hi
    induction i with
    | zero => exact (Nat.div_eq_of_lt hn).trans (Nat.div_eq_of_lt hm).symm
    | succ i ih =>
      have hp : 16^(8-i) = 16^(8-(i+1))*16 := by rw [← pow_succ,show 8-(i+1)+1 = 8-i by omega]
      have hrs := ih (by omega)
      rw [hp,← Nat.div_div_eq_div_mul,← Nat.div_div_eq_div_mul] at hrs
      have hl := hd (8-(i+1)) (by omega)
      omega
  simpa using hr 8 (le_refl _)

lemma hexDigit_element : ∀ d < 16, hexDigit d ≠ colon ∧ hexDigit d ≠ hash ∧ hexDigit d ≠ 0 ∧
    hexDigit d ≠ slash ∧ hexDigit d ≠ dot ∧ shown (hexDigit d) = hexDigit d := by decide

lemma hex8_shown (n : Nat) : (hex8 n).map shown = hex8 n := by
  refine (map_congr_left fun c hc => ?_).trans (map_id _)
  obtain ⟨d,hd,rfl⟩ := mem_hex8 hc
  exact (hexDigit_element d hd).2.2.2.2.2

lemma proper_of_length (hl : 3 ≤ e.length) (h : ∀ c ∈ e, c ≠ slash) : Proper e := by
  refine ⟨?_,h,?_,?_⟩ <;>
  · rintro rfl
    simp at hl

lemma hex8_proper (n : Nat) : Proper (hex8 n) := by
  refine proper_of_length (by rw [hex8_length]; decide) fun c hc => ?_
  obtain ⟨d,hd,rfl⟩ := mem_hex8 hc
  exact (hexDigit_element d hd).2.2.2.1

lemma hex8_relative (n : Nat) : Relative (hex8 n) := by
  refine relative_of_noColon fun c hc => ?_
  obtain ⟨d,hd,rfl⟩ := mem_hex8 hc
  obtain ⟨hcl,hh,hz,-⟩ := hexDigit_element d hd
  exact ⟨hcl,hh,hz⟩

lemma follow_proper (l : Location) (he : Proper e) :
    l.follow e = {l with elements := l.elements ++ [e]} := by
  have hs := splitPath_append (e := []) he.noSlash l.elements []
  rw [append_nil,nil_append] at hs
  rw [Location.follow,hs,splitPath,pushElement_of_proper he]

namespace ImageParameters

def stem (self : ImageParameters) : Bytes :=
  self.urn.location.root ++ joinPath self.urn.location.elements ++ [slash]

lemma four_le_stem (s : ImageParameters) : 4 ≤ s.stem.length := by
  have hp := length_pos_iff.mpr s.urn.parser.schemeText_ne_nil
  have hs : separator.length = 3 := rfl
  simp only [stem,RDFURN.location,length_append]
  omega

lemma bevyUrn_location (s : ImageParameters) (k : Nat) : (s.bevyUrn k).location =
      {s.urn.location with elements := s.urn.location.elements ++ [hex8 k]} := by
  rw [bevyUrn,RDFURN.add_location _ (hex8_relative k),RDFURN.set_location,
    follow_proper _ (hex8_proper k)]

lemma indexUrn_location (s : ImageParameters) (k : Nat) :
    (s.indexUrn k).location = {s.urn.location with
      elements := s.urn.location.elements ++ [hex8 k] ++ [chars ['i','d','x']]} := by
  have hr : Relative (chars ['i','d','x']) := relative_of_noColon (by decide +kernel)
  have hp : Proper (chars ['i','d','x']) := proper_of_length (by decide +kernel) (by decide +kernel)
  rw [indexUrn,RDFURN.add_location _ hr,bevyUrn_location,follow_proper _ hp]

def IsMember (self : ImageParameters) (k : Nat) (urn : RDFURN) : Prop :=
  urn = self.bevyUrn k ∨ urn = self.indexUrn k

variable {s : ImageParameters} {k j : Nat} {u w : RDFURN}

lemma IsMember.value (h : s.IsMember k u) : ∃ rest, u.value = s.stem ++ (hex8 k ++ rest) ∧
      (rest.length = (fragmentText s.urn.location.fragment).length ∨
        rest.length = (fragmentText s.urn.location.fragment).length+4) := by
  rcases h with rfl | rfl
  · refine ⟨_,?_,.inl rfl⟩
    rw [RDFURN.value_location,bevyUrn_location]
    simp [Location.value,stem,joinPath]
  · refine ⟨chars ['/','i','d','x'] ++ fragmentText s.urn.location.fragment,?_,.inr ?_⟩
    · rw [RDFURN.value_location,indexUrn_location]
      simp [Location.value,stem,joinPath]
      rfl
    · rfl

variable (hu : s.IsMember k u) (hw : s.IsMember j w)
include hu hw

lemma IsMember.same (hk : k < 2^32)
    (hj : j < 2^32) (h : u.value.map shown = w.value.map shown) : k = j := by
  obtain ⟨rest,hu,-⟩ := hu.value
  obtain ⟨rest',hw,-⟩ := hw.value
  rw [hu,hw] at h
  simp only [map_append,append_cancel_left_eq,hex8_shown] at h
  exact hex8_injective hk hj (append_inj h (by rw [hex8_length,hex8_length])).1

variable {volume : RDFURN}

lemma IsMember.not_cut (hb : volume.value <+: u.value) (hn : ¬ volume.value <+: w.value) :
    (u.value.drop volume.value.length).length ≠ w.value.length := by
  intro hl
  obtain ⟨rest,hu,hr⟩ := hu.value
  obtain ⟨rest',hw,hr'⟩ := hw.value
  have hst := s.four_le_stem
  have hs : volume.value.length ≤ s.stem.length := by
    rw [length_drop,hu,hw] at hl
    simp only [length_append,hex8_length] at hl
    omega
  refine hn (hw ▸ List.IsPrefix.trans ?_ (prefix_append _ _))
  exact prefix_of_prefix_length_le (hu ▸ hb) (prefix_append _ _) hs

lemma IsMember.relativeName_apart (hk : k < 2^32) (hj : j < 2^32) (hne : k ≠ j)
    (volume : RDFURN) : (u.relativeName volume).map shown ≠ (w.relativeName volume).map shown := by
  intro h
  have hl := congrArg length h
  rw [length_map,length_map] at hl
  rw [RDFURN.relativeName,RDFURN.relativeName] at h hl
  split at h <;> split at h
  · next hb hb' =>
    refine hne (hu.same hw hk hj ?_)
    rw [prefix_iff_eq_append.mp hb |>.symm,map_append,h,← map_append,prefix_iff_eq_append.mp hb']
  · next hb hn =>
    rw [if_pos hb,if_neg hn] at hl
    exact hu.not_cut hw hb hn hl
  · next hn hb =>
    rw [if_neg hn,if_pos hb] at hl
    exact hw.not_cut hu hb hn hl.symm
  · exact hne (hu.same hw hk hj h)

lemma IsMember.segmentName_apart (hk : k < 2^32) (hj : j < 2^32) (hne : k ≠ j)
    {name : Bytes} (h : segmentName u volume = some name) (h' : segmentName w volume = some name) :
    buffSize-9 ≤ name.length := by
  refine Nat.le_of_not_lt fun hlt => ?_
  exact hu.relativeName_apart hw hk hj hne volume (escapeFilename_injective h h' hlt)

end ImageParameters

end Aff4
