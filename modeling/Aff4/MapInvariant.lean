import Aff4.Map

/-! What `add_point` keeps in every map: the nodes, the targets and their cache, and when the
counter of the points agrees with the treap. -/

namespace Aff4.MapValue

open LittleEndian Breakpoints Transition List Option

structure Kept (calls : List MapCall) (map : MapValue) : Prop where
  sorted : Sorted MapPoint.key map.tree
  indexed : ∀ p ∈ map.tree, p.targetIdx.toNat < map.targets.length
  tabled : ∃ names, map.Tabled names ∧ ∀ c ∈ calls, cstring c.target ∈ names

structure Represents (calls : List MapCall) (map : MapValue) : Prop where
  counted : map.numberOfPoints = map.tree.length
  distinct : (map.tree.map MapPoint.imageOffset).Nodup
  indexed : ∀ p ∈ map.tree, p.targetIdx.toNat < map.targets.length
  cached : ∀ c ∈ calls, ∃ i, map.cache.borrow (zstring (cstring c.target)) = some (some i) ∧
    map.targets[i]? = some (RDFURN.set c.target) ∧
    ∀ d ∈ calls, map.cache.borrow (zstring (cstring d.target)) = some (some i) →
      cstring d.target = cstring c.target

/-- If the call returns, it finds no node at its offset. -/
def Fresh (map : MapValue) (c : MapCall) : Prop :=
  ∀ next, map.call c = some next → ∀ p ∈ map.tree, p.imageOffset ≠ c.imageOffset

variable {calls : List MapCall} {s next : MapValue} {c : MapCall}

lemma Kept.represents (h : s.Kept calls) (hcn : s.numberOfPoints = s.tree.length) :
    s.Represents calls := by
  obtain ⟨names,ht,hn⟩ := h.tabled
  refine ⟨hcn,?_,h.indexed,fun c hc => ?_⟩
  · refine pairwise_map.mpr (List.Pairwise.imp (fun hlt heq => ?_) h.sorted)
    rw [MapPoint.key,MapPoint.key,heq] at hlt
    exact lt_irrefl _ hlt
  · obtain ⟨found,hf,hid⟩ := ht.borrow (cstring c.target)
    obtain ⟨i,hi⟩ := mem_iff_getElem?.mp (hn c hc)
    refine ⟨i,by rw [hf,(hid i).mpr hi],?_,fun d _ hd => ?_⟩
    · rw [ht.targets,getElem?_map,hi,map_some,set_cstring]
    · obtain ⟨other,ho,hif⟩ := ht.borrow (cstring d.target)
      have hnm := (hif i).mp (some.inj (ho.symm.trans hd))
      exact some.inj (hnm.symm.trans hi)

lemma call_kept (h : s.Kept calls) (hc : s.call c = some next) :
    next.Kept (calls ++ [c]) ∧ (s.numberOfPoints = s.tree.length →
      (next.numberOfPoints = next.tree.length ↔ ∀ p ∈ s.tree, p.imageOffset ≠ c.imageOffset)) := by
  obtain ⟨names,htb,hn⟩ := h.tabled
  obtain ⟨⟨available,next⟩,hpt,rfl⟩ := map_eq_some_iff.mp hc
  obtain ⟨⟨i,mid⟩,ha,hnd⟩ := bind_eq_some_iff.mp hpt
  obtain ⟨more,hm,hi,-,ht,hcn,-⟩ := (addTarget_spec htb c.target).2 i mid ha
  have hl : (names ++ more).length = mid.targets.length := by rw [hm.targets,length_map]
  have hin : ∀ p ∈ s.tree, p.targetIdx.toNat < mid.targets.length := by
    intro p hp
    have hlt := h.indexed p hp
    rw [htb.targets,length_map] at hlt
    rw [← hl,length_append]
    omega
  have hn' : ∀ d ∈ calls ++ [c], cstring d.target ∈ names ++ more := by
    intro d hd
    rcases mem_append.mp hd with hd | hd
    · exact mem_append_left _ (hn d hd)
    · exact mem_singleton.mp hd ▸ mem_of_getElem? hi
  have hg : (erase MapPoint.key (signed c.imageOffset) s.tree).length = s.tree.length ↔
      ∀ p ∈ s.tree, p.imageOffset ≠ c.imageOffset := by simp [erase,MapPoint.key,signed_inj]
  obtain ⟨-,-,-,⟨-,rfl⟩ | ⟨-,-,rfl⟩⟩ := addNode_cases hnd
  · refine ⟨⟨sorted_erase (ht ▸ h.sorted) _,fun p hp => ?_,_,⟨hm.targets,hm.few,hm.cached⟩,
      hn'⟩,fun hs => ?_⟩
    · exact hin p (ht ▸ (mem_erase.mp hp).1)
    · rw [← hg]
      simp only [removePoint,ht,hcn,hs]
      omega
  · have hlt := (List.getElem?_eq_some_iff.mp hi).1
    have hid : (UInt32.ofNat i).toNat = i := UInt32.toNat_ofNat_of_lt' (by
      have := hm.few
      simp only [UInt32.size]
      omega)
    refine ⟨⟨sorted_place (ht ▸ h.sorted) _,fun p hp => ?_,_,⟨hm.targets,hm.few,hm.cached⟩,
      hn'⟩,fun hs => ?_⟩
    · rcases mem_place.mp hp with rfl | ⟨hp,-⟩
      · exact hid.symm ▸ hl ▸ hlt
      · exact hin p (ht ▸ hp)
    · rw [← hg]
      simp only [length_place,ht,hcn,hs,MapPoint.key]
      omega

lemma run_kept (h : run call con calls = some s) : s.Kept calls := by
  induction calls using reverseRecOn generalizing s with
  | nil =>
    cases h
    exact ⟨.nil,by simp [con],[],con_tabled,by simp⟩
  | append_singleton calls c ih =>
    rw [run_snoc] at h
    obtain ⟨mid,hm,hc⟩ := bind_eq_some_iff.mp h
    exact (call_kept (ih hm) hc).1

/-- The counter is right all along exactly when no call finds a node at its offset; the rest of
the invariant always holds. -/
theorem represents_iff (calls : List MapCall) :
    (∀ front, front <+: calls → ∀ map, run call con front = some map → map.Represents front) ↔
      Along call Fresh con calls := by
  rw [← always_iff (I := fun map => ∃ calls, map.Kept calls)
    (G := fun map => map.numberOfPoints = map.tree.length) (fun map c next ⟨calls,hk⟩ hc =>
      ⟨_,(call_kept hk hc).1⟩) ?_ ?_ ⟨[],run_kept rfl⟩ rfl]
  · refine forall₂_congr fun front _ => forall₂_congr fun map hm => ?_
    exact ⟨Represents.counted,(run_kept hm).represents⟩
  · rintro map c next ⟨calls,hk⟩ hg hc
    rw [(call_kept hk hc).2 hg]
    exact ⟨fun h _ _ => h,fun h => h next hc⟩
  · intro map c hn next hc
    rw [hn] at hc
    cases hc

/-- The second call replaces the first one's node, and is counted as well. -/
theorem replaced_point_counted : ∃ map,
    run call con [⟨0,0,chars ['a']⟩,⟨0,5,chars ['a']⟩] = some map ∧
      map.tree.length = 1 ∧ map.numberOfPoints = 2 ∧
      ¬ map.Represents [⟨0,0,chars ['a']⟩,⟨0,5,chars ['a']⟩] := by
  have hr : (run call con [⟨0,0,chars ['a']⟩,⟨0,5,chars ['a']⟩]).map
      (fun map => (map.tree.length,map.numberOfPoints)) = some (1,2) := by
    decide +kernel
  obtain ⟨map,hm,heq⟩ := map_eq_some_iff.mp hr
  obtain ⟨ht,hc⟩ := Prod.mk.inj heq
  refine ⟨map,hm,ht,hc,fun h => ?_⟩
  have := h.counted
  omega

end Aff4.MapValue
