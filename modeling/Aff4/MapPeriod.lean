import Mathlib.Data.List.Find
import Aff4.Map

/-! Maps with periods, map.c. The points are meant to repeat in every later period, `target_period`
bytes further into the targets. -/

namespace Aff4.MapValue

open LittleEndian Breakpoints List Option Nat MapPoint

/-- Both periods are positive, and the points are within the first period, one of them at 0. -/
structure Periodic (map : MapValue) : Prop where
  imagePeriod : 0 < signed map.imagePeriod
  targetPeriod : 0 < signed map.targetPeriod
  sorted : Sorted MapPoint.key map.tree
  indexed : ∀ p ∈ map.tree, p.targetIdx.toNat < map.targets.length
  inside : ∀ p ∈ map.tree, p.imageOffset.toNat < map.imagePeriod.toNat
  zero : ∃ p ∈ map.tree, p.imageOffset = 0

def runEnd (map : MapValue) (o : Nat) : Nat :=
  ((map.tree.find? fun p => o < p.imageOffset.toNat).map fun p => p.imageOffset.toNat).getD
    map.imagePeriod.toNat

/-- `get_range` gives for an offset of a later period what it gives for that of the first one,
further into the target, and stays within the run. -/
def Repeats (map : MapValue) (k o : Nat) : Prop :=
  ∃ range first, map.getRange (UInt64.ofNat (k*map.imagePeriod.toNat+o)) = some (some range) ∧
    map.getRange (UInt64.ofNat o) = some (some first) ∧ range.target = first.target ∧
    range.targetOffset.toNat = first.targetOffset.toNat + k*map.targetPeriod.toNat ∧
    o + range.availableToRead.toNat ≤ map.runEnd o

/-- The points are searched for the offset itself, not for its place in the period. So the last
point answers for all later periods, up to the offsets that are negative as a `long long`: for these
it is the first one. -/
def Answers (map : MapValue) (k o : Nat) : Prop :=
  let r := k*map.imagePeriod.toNat+o
  if k = 0 then
    (∃ p ∈ map.tree, o < p.imageOffset.toNat) ∨
      o ≤ map.size.toNat ∧ map.size.toNat ≤ map.imagePeriod.toNat
  else
    ∃ g p, psearch MapPoint.key map.tree o = some g ∧ p.line map.targets = g.line map.targets ∧
      (g.targetOffset - g.imageOffset + UInt64.ofNat o).toNat + k*map.targetPeriod.toNat < 2^64 ∧
      if r < 2^63 then
        r ≠ 2^63-1 ∧ map.tree.getLast? = some p ∧ r ≤ map.size.toNat ∧
          map.size.toNat ≤ k*map.imagePeriod.toNat + map.runEnd o
      else map.tree.head? = some p ∧ 2^64 - k*map.imagePeriod.toNat ≤ map.runEnd o

/-! ### Offsets -/

lemma signed_pos_iff {x : UInt64} : 0 < signed x ↔ 0 < x.toNat ∧ x.toNat < 2^63 := by
  have hlt := x.toNat_lt
  rw [signed_eq]
  split <;> omega

lemma toNat_ofNat {n : Nat} (h : n < 2^64) : (UInt64.ofNat n).toNat = n :=
  UInt64.toNat_ofNat_of_lt' h

variable {k : Nat} {range first : MapRange} {p g : MapPoint}

lemma divMod_period {P : UInt64} {o : Nat} (ho : o < P.toNat) (hr : k*P.toNat+o < 2^64) :
    UInt64.ofNat (k*P.toNat+o)/P = UInt64.ofNat k ∧
      UInt64.ofNat (k*P.toNat+o)%P = UInt64.ofNat o := by
  have hk : k ≤ k*P.toNat := Nat.le_mul_of_pos_right k (by omega)
  constructor
  · apply UInt64.toNat.inj
    rw [UInt64.toNat_div,toNat_ofNat hr,toNat_ofNat (by omega),mul_comm,mul_add_div (by omega),
      div_eq_of_lt ho,add_zero]
  · apply UInt64.toNat.inj
    rw [UInt64.toNat_mod,toNat_ofNat hr,toNat_ofNat (by omega),mul_comm,mul_add_mod,mod_eq_of_lt ho]

/-- Two lines agree, and the later offset does not wrap, exactly when the offsets are as far apart
as they should be. -/
lemma apart_iff {a b o T : UInt64} :
    (a+(o+UInt64.ofNat k*T)).toNat = (b+o).toNat+k*T.toNat ↔
      a = b ∧ (b+o).toNat+k*T.toNat < 2^64 := by
  have hs : UInt64.ofNat k*T = UInt64.ofNat (k*T.toNat) := by simp
  constructor
  · intro h
    have hlt : (b+o).toNat+k*T.toNat < 2^64 := h ▸ UInt64.toNat_lt _
    have heq : a+(o+UInt64.ofNat k*T) = b+o+UInt64.ofNat (k*T.toNat) := by
      apply UInt64.toNat.inj
      rw [h,UInt64.toNat_add (b+o),toNat_ofNat (by omega),mod_eq_of_lt hlt]
    grind
  · rintro ⟨rfl,hlt⟩
    rw [← UInt64.add_assoc,hs,UInt64.toNat_add,toNat_ofNat (by omega),mod_eq_of_lt hlt]

/-! ### The point that answers -/

variable {map : MapValue}

section

variable (h : map.Periodic)
include h

lemma Periodic.period_lt :
    0 < map.imagePeriod.toNat ∧ map.imagePeriod.toNat < 2^63 := signed_pos_iff.mp h.imagePeriod

variable {p : MapPoint} {r : UInt64} {o k : Nat}

lemma Periodic.key_eq (hp : p ∈ map.tree) : p.key = p.imageOffset.toNat :=
  signed_of_lt ((h.inside p hp).trans h.period_lt.2)

lemma Periodic.target (hp : p ∈ map.tree) :
    ∃ target, map.targets[p.targetIdx.toNat]? = some target :=
  ⟨_,getElem?_eq_getElem (h.indexed p hp)⟩

lemma Periodic.guard (hr : r.toNat ≠ 2^63-1) :
    ¬ (map.imagePeriod = 0 ∨ r = 0x7fffffffffffffff) := by
  have hp := h.period_lt.1
  rintro (h0 | rfl)
  · simp [h0] at hp
  · exact hr rfl

lemma Periodic.getRange_before (hr : r.toNat ≠ 2^63-1)
    (hp : psearch key map.tree (signed r) = some p) :
    ∃ range, map.getRange r = some (some range) ∧
      map.targets[p.targetIdx.toNat]? = some range.target ∧
      range.targetOffset = p.targetOffset-p.imageOffset +
        (r%map.imagePeriod+r/map.imagePeriod*map.targetPeriod) ∧
      range.availableToRead = ((nsearch key map.tree (signed (r+1))).map
        imageOffset).getD map.size-r := by
  obtain ⟨target,ht⟩ := h.target (psearch_eq_some h.sorted hp).1
  simp only [getRange,if_neg (h.guard hr),hp,ht,map_some]
  grind

lemma Periodic.psearch_first (o : Nat) : ∃ g, psearch key map.tree o = some g := by
  cases hg : psearch key map.tree (o : Int) with
  | some g => exact ⟨g,rfl⟩
  | none =>
    obtain ⟨p,hp,h0⟩ := h.zero
    have hlt := psearch_eq_none.mp hg p hp
    rw [h.key_eq hp,h0] at hlt
    simp at hlt
    omega

lemma Periodic.nsearch_eq {r : Nat} (hr : r < 2^63-1) :
    nsearch key map.tree (signed (UInt64.ofNat r+1)) =
      map.tree.find? fun p => r < p.imageOffset.toNat := by
  have hn : (UInt64.ofNat r).toNat = r := toNat_ofNat (by omega)
  have hne : UInt64.ofNat r ≠ 0x7fffffffffffffff := by
    rintro he
    rw [he] at hn
    have : (0x7fffffffffffffff : UInt64).toNat = 2^63-1 := by decide
    omega
  rw [signed_succ hne,signed_of_lt (by omega),hn]
  refine find?_congr fun p hp => ?_
  rw [h.key_eq hp]
  exact decide_eq_decide.mpr (by omega)

/-- In the first period the point that governs the offset answers, and the length goes up to
the next point or to the size. -/
lemma Periodic.getRange_first (ho : o < map.imagePeriod.toNat)
    {g : MapPoint} (hg : psearch key map.tree o = some g) :
    ∃ first, map.getRange (UInt64.ofNat o) = some (some first) ∧
      map.targets[g.targetIdx.toNat]? = some first.target ∧
      first.targetOffset = g.targetOffset-g.imageOffset+UInt64.ofNat o ∧
      (o+first.availableToRead.toNat ≤ map.runEnd o ↔ (∃ p ∈ map.tree, o < p.imageOffset.toNat) ∨
          o ≤ map.size.toNat ∧ map.size.toNat ≤ map.imagePeriod.toNat) := by
  have hP := h.period_lt.2
  have hnt : (UInt64.ofNat o).toNat = o := toNat_ofNat (by omega)
  have hs : signed (UInt64.ofNat o) = o := by rw [signed_of_lt (by omega),hnt]
  obtain ⟨first,hf,ht,hof,hl⟩ := h.getRange_before (r := UInt64.ofNat o) (by omega) (by rw [hs,hg])
  have hdm := divMod_period (k := 0) ho (by omega)
  simp only [zero_mul,zero_add] at hdm
  refine ⟨first,hf,ht,by rw [hof,hdm.1,hdm.2]; simp,?_⟩
  rw [hl,h.nsearch_eq (by omega),runEnd]
  cases hn : map.tree.find? fun p => o < p.imageOffset.toNat with
  | some n =>
    have hlt : o < n.imageOffset.toNat := by simpa using find?_some hn
    refine iff_of_true ?_ (.inl ⟨n,mem_of_find?_eq_some hn,hlt⟩)
    simp only [map_some,getD_some]
    rw [UInt64.toNat_sub_of_le _ _ (UInt64.le_iff_toNat_le.mpr (by omega)),hnt]
    omega
  | none =>
    have hno : ¬ ∃ p ∈ map.tree, o < p.imageOffset.toNat := by simpa using hn
    simp only [map_none,getD_none,hno,false_or]
    have hsz := map.size.toNat_lt
    rw [UInt64.toNat_sub,hnt]
    omega

lemma Periodic.runEnd_le (o : Nat) : map.runEnd o ≤ map.imagePeriod.toNat := by
  rw [runEnd]
  cases hn : map.tree.find? fun p => o < p.imageOffset.toNat with
  | none => exact le_rfl
  | some n => exact (h.inside n (mem_of_find?_eq_some hn)).le

lemma Periodic.head : ∃ p rest, map.tree = p :: rest ∧ p.imageOffset = 0 := by
  obtain ⟨z,hz,h0⟩ := h.zero
  cases ht : map.tree with
  | nil => simp [ht] at hz
  | cons p rest =>
    have hp : p ∈ map.tree := by simp [ht]
    refine ⟨p,rest,rfl,UInt64.toNat.inj ?_⟩
    have hs := h.sorted
    rw [ht] at hz hs
    rcases mem_cons.mp hz with rfl | hz'
    · rw [h0]
    · have hlt := (pairwise_cons.mp hs).1 z hz'
      rw [h.key_eq hp,h.key_eq (ht ▸ hz),h0] at hlt
      simp at hlt
      omega

lemma Periodic.getRange_later (hk : k ≠ 0)
    (ho : o < map.imagePeriod.toNat) (hr : k*map.imagePeriod.toNat+o < 2^63-1) :
    ∃ range p, map.getRange (UInt64.ofNat (k*map.imagePeriod.toNat+o)) = some (some range) ∧
      map.tree.getLast? = some p ∧ map.targets[p.targetIdx.toNat]? = some range.target ∧
      range.targetOffset = p.targetOffset-p.imageOffset +
        (UInt64.ofNat o+UInt64.ofNat k*map.targetPeriod) ∧
      (o+range.availableToRead.toNat ≤ map.runEnd o ↔ k*map.imagePeriod.toNat+o ≤ map.size.toNat ∧
          map.size.toNat ≤ k*map.imagePeriod.toNat+map.runEnd o) := by
  have hPr : map.imagePeriod.toNat ≤ k*map.imagePeriod.toNat :=
    Nat.le_mul_of_pos_left _ (pos_of_ne_zero hk)
  have hdm := divMod_period (k := k) ho (by omega)
  have he := h.runEnd_le o
  have hsz := map.size.toNat_lt
  have hnt : (UInt64.ofNat (k*map.imagePeriod.toNat+o)).toNat = k*map.imagePeriod.toNat+o :=
    toNat_ofNat (by omega)
  have hb : ∀ a ∈ map.tree, a.imageOffset.toNat < k*map.imagePeriod.toNat+o :=
    fun a ha => lt_of_lt_of_le (h.inside a ha) (by omega)
  obtain ⟨z,hz,_⟩ := h.zero
  have hl := getLast?_eq_some_getLast (ne_nil_of_mem hz)
  have hs : psearch key map.tree
      (signed (UInt64.ofNat (k*map.imagePeriod.toNat+o))) =
        some (map.tree.getLast (ne_nil_of_mem hz)) := by
    rw [← hl]
    refine psearch_of_le fun a ha => ?_
    rw [h.key_eq ha,signed_of_lt (by omega),hnt]
    exact_mod_cast (hb a ha).le
  obtain ⟨range,hra,ht,hof,hln⟩ := h.getRange_before (by omega) hs
  refine ⟨range,_,hra,hl,ht,by rw [hof,hdm.1,hdm.2],?_⟩
  have hn : (map.tree.find? fun p => k*map.imagePeriod.toNat+o < p.imageOffset.toNat) = none :=
    find?_eq_none.mpr fun a ha => by simpa using (hb a ha).le
  rw [hln,h.nsearch_eq hr,hn,map_none,getD_none,UInt64.toNat_sub,hnt]
  omega

/-- An offset that is negative as a `long long` is before all points, so the first one answers. -/
lemma Periodic.getRange_negative
    (ho : o < map.imagePeriod.toNat) (hr : 2^63 ≤ k*map.imagePeriod.toNat+o)
    (hlt : k*map.imagePeriod.toNat+o < 2^64) :
    ∃ range p, map.getRange (UInt64.ofNat (k*map.imagePeriod.toNat+o)) = some (some range) ∧
      map.tree.head? = some p ∧ map.targets[p.targetIdx.toNat]? = some range.target ∧
      range.targetOffset = p.targetOffset-p.imageOffset +
        (UInt64.ofNat o+UInt64.ofNat k*map.targetPeriod) ∧
      (o+range.availableToRead.toNat ≤ map.runEnd o ↔
        2^64-k*map.imagePeriod.toNat ≤ map.runEnd o) := by
  have hdm := divMod_period ho hlt
  have hn : (UInt64.ofNat (k*map.imagePeriod.toNat+o)).toNat = k*map.imagePeriod.toNat+o :=
    toNat_ofNat hlt
  obtain ⟨p,rest,ht,h0⟩ := h.head
  obtain ⟨target,htg⟩ := h.target (p := p) (by simp [ht])
  have hk : ∀ a ∈ map.tree, 0 ≤ a.key := fun a ha => by rw [h.key_eq ha]; omega
  have hs : signed (UInt64.ofNat (k*map.imagePeriod.toNat+o)) < 0 := by
    rw [signed_eq,if_neg (by omega),hn]
    omega
  have hb : psearch key map.tree
      (signed (UInt64.ofNat (k*map.imagePeriod.toNat+o))) = none :=
    psearch_eq_none.mpr fun a ha => lt_of_lt_of_le hs (hk a ha)
  have hg := h.guard (r := UInt64.ofNat (k*map.imagePeriod.toNat+o)) (by omega)
  have haf : nsearch key map.tree
      (signed (UInt64.ofNat (k*map.imagePeriod.toNat+o)+1)) = some p := by
    have hp := hk p (by simp [ht])
    rw [signed_succ (not_or.mp hg).2,nsearch,ht]
    exact find?_cons_of_pos (decide_eq_true (by omega))
  simp only [getRange,if_neg hg,hb,haf,htg,map_some]
  refine ⟨_,p,rfl,by simp [ht],htg,?_,?_⟩
  · grind
  · rw [h0,UInt64.toNat_sub,hn]
    simp
    omega

end

lemma agree_iff {o : UInt64} (hp : map.targets[p.targetIdx.toNat]? = some range.target)
    (hg : map.targets[g.targetIdx.toNat]? = some first.target)
    (hr : range.targetOffset = p.targetOffset-p.imageOffset + (o+UInt64.ofNat k*map.targetPeriod))
    (hf : first.targetOffset = g.targetOffset-g.imageOffset+o) : (range.target = first.target ∧
      range.targetOffset.toNat = first.targetOffset.toNat+k*map.targetPeriod.toNat) ↔
      p.line map.targets = g.line map.targets ∧
        (g.targetOffset-g.imageOffset+o).toNat+k*map.targetPeriod.toNat < 2^64 := by
  rw [hr,hf,apart_iff,line,line,hp,hg,Prod.mk.injEq,some.injEq,and_assoc]

lemma repeats_iff {o : Nat} (hg : psearch key map.tree o = some g)
    (hf : map.getRange (UInt64.ofNat o) = some (some first))
    (ht : map.targets[g.targetIdx.toNat]? = some first.target)
    (ho : first.targetOffset = g.targetOffset-g.imageOffset+UInt64.ofNat o)
    {answering : Option MapPoint} {room : Prop}
    (hr : map.getRange (UInt64.ofNat (k*map.imagePeriod.toNat+o)) = some (some range))
    (hp : answering = some p) (hpt : map.targets[p.targetIdx.toNat]? = some range.target)
    (hpf : range.targetOffset = p.targetOffset-p.imageOffset +
      (UInt64.ofNat o+UInt64.ofNat k*map.targetPeriod))
    (hrm : o+range.availableToRead.toNat ≤ map.runEnd o ↔ room) :
    map.Repeats k o ↔ ∃ g p, psearch key map.tree o = some g ∧
      p.line map.targets = g.line map.targets ∧
      (g.targetOffset-g.imageOffset+UInt64.ofNat o).toNat+k*map.targetPeriod.toNat < 2^64 ∧
      answering = some p ∧ room := by
  have ha := agree_iff hpt ht hpf ho
  constructor
  · rintro ⟨range',first',hr',hf',hT,hO,hL⟩
    rw [hr,some.injEq,some.injEq] at hr'
    rw [hf,some.injEq,some.injEq] at hf'
    subst hr' hf'
    obtain ⟨hl,hw⟩ := ha.mp ⟨hT,hO⟩
    exact ⟨g,p,hg,hl,hw,hp,hrm.mp hL⟩
  · rintro ⟨g',p',hg',hl,hw,hp',hL⟩
    rw [hg,some.injEq] at hg'
    rw [hp,some.injEq] at hp'
    subst hg' hp'
    obtain ⟨hT,hO⟩ := ha.mpr ⟨hl,hw⟩
    exact ⟨range,first,hr,hf,hT,hO,hrm.mpr hL⟩

theorem getRange_repeats_iff (h : map.Periodic) {k o : Nat} (ho : o < map.imagePeriod.toNat)
    (hr : k*map.imagePeriod.toNat+o < 2^64) : map.Repeats k o ↔ map.Answers k o := by
  obtain ⟨g,hg⟩ := h.psearch_first o
  obtain ⟨first,hf,ht,hof,hl⟩ := h.getRange_first ho hg
  by_cases hk : k = 0
  · subst hk
    simp only [Repeats,Answers,zero_mul,zero_add,hf,some.injEq,if_true,add_zero]
    rw [← hl]
    constructor
    · rintro ⟨_,_,rfl,rfl,_,_,h⟩
      exact h
    · exact fun h => ⟨first,first,rfl,rfl,rfl,rfl,h⟩
  simp only [Answers,if_neg hk]
  by_cases hlw : k*map.imagePeriod.toNat+o < 2^63
  · simp only [if_pos hlw]
    by_cases hm : k*map.imagePeriod.toNat+o = 2^63-1
    · -- the search for the next point overflows
      refine iff_of_false ?_ fun ⟨_,_,_,_,_,hne,_⟩ => hne hm
      rintro ⟨range,_,hra,_⟩
      rw [hm,getRange,if_pos (.inr (by decide))] at hra
      cases hra
    · obtain ⟨range,p,hra,hla,hp,hpo,hrm⟩ := h.getRange_later hk ho (by omega)
      rw [repeats_iff hg hf ht hof hra hla hp hpo hrm]
      simp only [hm,ne_eq,not_false_eq_true,true_and]
  · obtain ⟨range,p,hra,hh,hp,hpo,hrm⟩ := h.getRange_negative ho (by omega) hr
    rw [repeats_iff hg hf ht hof hra hh hp hpo hrm]
    simp only [if_neg hlw]

def striped : MapValue where
  size := 40
  numberOfPoints := 2
  targets := [RDFURN.set (chars ['a']),RDFURN.set (chars ['b'])]
  cache := .con 100 0
  tree := [⟨0,0,0⟩,⟨10,0,1⟩]
  imagePeriod := 20
  targetPeriod := 10

lemma striped_periodic : striped.Periodic where
  imagePeriod := by decide
  targetPeriod := by decide
  sorted := pairwise_pair.mpr (by decide)
  indexed := by decide
  inside := by decide
  zero := by decide

theorem striped_repeats : striped.Periodic ∧ striped.Repeats 1 10 :=
  ⟨striped_periodic,(getRange_repeats_iff striped_periodic (by decide) (by decide)).mpr
    ⟨⟨10,0,1⟩,⟨10,0,1⟩,by decide,rfl,by decide,by decide,rfl,by decide,by decide⟩⟩

/-- Offset 20 is the first byte of the second period and belongs to the first target. -/
theorem striped_fails : striped.Periodic ∧ ∃ range first,
    striped.getRange 20 = some (some range) ∧ striped.getRange 0 = some (some first) ∧
      first.target = RDFURN.set (chars ['a']) ∧ range.target = RDFURN.set (chars ['b']) ∧
      ¬ striped.Repeats 1 0 := by
  refine ⟨striped_periodic,_,_,rfl,rfl,rfl,rfl,?_⟩
  rintro ⟨range,first,hr,hf,ht,_⟩
  cases hr
  cases hf
  exact absurd (congrArg RDFURN.value ht) (by decide)

end Aff4.MapValue
