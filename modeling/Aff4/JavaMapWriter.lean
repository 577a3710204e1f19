import Aff4.Lib.Positions
import Aff4.Lib.Tiling
import Aff4.JavaSlice
import Aff4.JavaStreamLossless

/-! The map writer of the Java library (DiscontiguousMapWriter.java, Point.java). It records a point
for every region that a seek has ended, and one for the region that the seek skips. -/

namespace Aff4.Java

open Transition Tiling List Option Resource

structure Point where
  offset : Int
  length : Int
  targetOffset : Int
  targetURN : Resource

def Point.region (self : Point) : Int × Int := (self.offset,self.length)

def unknownData : JavaString := ascii "urn:aff4:UnknownData".toList

/-- `urn` is the URN of the map, `backingURN` that of the backing stream. -/
structure MapWriter where
  urn : JavaString
  backingURN : JavaString
  backingStore : StreamWriter
  points : List Point
  writePtr : Int
  currentPoint : Point

namespace MapWriter

def con (urn backingURN : JavaString) (backingStore : StreamWriter) : MapWriter where
  urn := urn
  backingURN := backingURN
  backingStore := backingStore
  points := []
  writePtr := 0
  currentPoint := ⟨0,0,backingStore.writeptr,.ofURI backingURN⟩

def seek (self : MapWriter) (s : Int) : MapWriter :=
  {self with
    points := self.points ++
      [self.currentPoint,⟨self.writePtr,s-self.writePtr,-1,.ofURI unknownData⟩]
    currentPoint := ⟨s,0,self.backingStore.writeptr,.ofURI self.backingURN⟩
    writePtr := s}

def write (deflater : Deflater) (self : MapWriter) (data : ByteBuffer) : Option MapWriter := do
  let backingStore ← self.backingStore.write deflater data
  return {self with
    currentPoint := {self.currentPoint with length := data.limit+self.currentPoint.length}
    writePtr := self.writePtr+data.limit, backingStore := backingStore}

def emit (urn : JavaString) (p : Point) : Option (Resource × Resource) := do
  let target ← p.targetURN.getURI
  let source := sliceURI urn p.offset p.length
  let dest := if target ≠ unknownData then sliceURI target p.targetOffset p.length else target
  let part ← Resource.createURI source
  return (part,← Resource.createURI dest)

def close (deflater : Deflater) (self : MapWriter) :
    Option (List (Resource × Resource) × StreamWriter) := do
  let emitted ← self.points.mapM (emit self.urn)
  return (emitted,← self.backingStore.close deflater)

inductive Op where
  | write (data : ByteBuffer)
  | seek (s : Int)

def step (deflater : Deflater) (self : MapWriter) : Op → Option MapWriter
  | .write data => self.write deflater data
  | .seek s => some (self.seek s)

def taken (self : MapWriter) (data : ByteBuffer) : Nat :=
  min (self.backingStore.bevySize-self.backingStore.position) data.array.length

end MapWriter

/-- What became of a byte of the map: it is stored at an offset of the backing stream, it was
dropped, or it was skipped by a seek. -/
inductive Place where
  | stored (offset : Nat)
  | dropped
  | skipped

namespace MapWriter

def places (self : MapWriter) : Op → List Place
  | .write data => (range data.limit).map fun i =>
      if i < self.taken data then .stored (self.backingStore.writeptr+i) else .dropped
  | .seek s => replicate (s-self.writePtr).toNat .skipped

def layout (deflater : Deflater) : MapWriter → List Op → List Place
  | _, [] => []
  | self, op :: ops => self.places op ++
      ((self.step deflater op).map fun next => layout deflater next ops).getD []

def Forward (self : MapWriter) : Op → Prop
  | .write _ => True
  | .seek s => self.writePtr ≤ s

/-- What is written is stored, and the bytes before it in the region were stored one for one. -/
def Straight (self : MapWriter) : Op → Prop
  | .write data => data.limit = 0 ∨ data.limit ≤ self.taken data ∧
      self.backingStore.writeptr = self.currentPoint.targetOffset+self.currentPoint.length
  | .seek _ => True

def pending : Nat → List Op → Nat
  | n, [] => n
  | n, .write data :: ops => pending (data.limit+n) ops
  | _, .seek _ :: ops => pending 0 ops

end MapWriter

def region (e : Resource × Resource) : Int × Int := e.1.slice.getD (0,0)

/-- A point that was emitted says that a byte of its region is at the place. -/
def Target (backingURN : JavaString) (e : Resource × Resource) (x : Nat) : Place → Prop
  | .stored y => ∃ offset length, e.2.uri = some (sliceURI backingURN offset length) ∧
      e.2.slice = some (offset,length) ∧ offset+(x-(region e).1) = y
  | .dropped => False
  | .skipped => e.2 = .ofURI unknownData

/-- The points are in order and disjoint, they cover the map, and each byte is where its point
says. -/
structure Describes (backingURN : JavaString) (emitted : List (Resource × Resource))
    (writePtr : Int) (layout : List Place) : Prop where
  ordered : emitted.Pairwise fun e f => (region e).1+(region e).2 ≤ (region f).1
  cover : ∀ x : Int, (∃ e ∈ emitted, Inside (region e) x) ↔ 0 ≤ x ∧ x < writePtr
  target : ∀ e ∈ emitted, ∀ x : Nat, Inside (region e) x → ∀ place ∈ layout[x]?,
    Target backingURN e x place

namespace MapWriter

def regions (self : MapWriter) : List Point := self.points ++ [self.currentPoint]

end MapWriter

def Point.place (self : Point) (x : Nat) : Place :=
  if self.targetURN = .ofURI unknownData then .skipped
  else .stored (self.targetOffset+(x-self.offset)).toNat

def Point.Right (self : Point) (layout : List Place) : Prop :=
  ∀ x : Nat, Inside self.region x → layout[x]? = some (self.place x)

lemma StreamWriter.writeptr_le {deflater : Deflater} {s next : StreamWriter}
    {data : ByteBuffer} (h : s.write deflater data = some next) : s.writeptr ≤ next.writeptr := by
  by_cases hf : s.position+min (s.bevySize-s.position) data.array.length = s.bevySize
  · rw [write_of_full rfl hf,writeBevvy] at h
    obtain ⟨_,_,h⟩ := bind_eq_some_iff.mp h
    obtain ⟨_,_,h⟩ := bind_eq_some_iff.mp h
    obtain ⟨_,_,h⟩ := bind_eq_some_iff.mp h
    cases h
    exact Nat.le_add_right _ _
  · rw [write_of_short rfl hf] at h
    cases h
    exact Nat.le_add_right _ _

namespace Point

variable {self : Point} {past new : List Place}

lemma place_data {urn : JavaString} (hu : self.targetURN = .ofURI urn) (h : urn ≠ unknownData)
    (x : Nat) : self.place x = .stored (self.targetOffset+(x-self.offset)).toNat := by
  rw [place,hu,if_neg]
  intro heq
  exact h (some.inj (congrArg uri heq))

lemma right_append (hw : self.offset+self.length ≤ past.length) :
    self.Right (past ++ new) ↔ self.Right past := by
  refine forall_congr' fun x => forall_congr' fun hx => ?_
  have hlt : x < past.length := by
    have : (x : Int) < self.offset+self.length := hx.2
    omega
  rw [getElem?_append_left hlt]

lemma right_empty (h : self.length = 0) (layout : List Place) : self.Right layout := by
  intro x hx
  have hl : self.offset ≤ x := hx.1
  have hh : x < self.offset+self.length := hx.2
  omega

lemma right_extend (hl : 0 ≤ self.length)
    (he : self.offset+self.length = past.length) (n : Nat) :
    {self with length := n+self.length}.Right (past ++ new) ↔
      self.Right past ∧ ∀ i < n, new[i]? = some (self.place (past.length+i)) := by
  constructor
  · intro h
    refine ⟨fun x hx => ?_,fun i hi => ?_⟩
    · have hlw : self.offset ≤ x := hx.1
      have hh : x < self.offset+self.length := hx.2
      rw [← getElem?_append_left (show x < past.length by omega)]
      exact h x ⟨hlw,show (x : Int) < self.offset+(n+self.length) by omega⟩
    · have hx := h (past.length+i) ⟨show self.offset ≤ _ by omega,
        show _ < self.offset+(n+self.length) by omega⟩
      rwa [getElem?_append_right (Nat.le_add_right _ _),Nat.add_sub_cancel_left] at hx
  · intro ⟨hold,hn⟩ x hx
    have hlw : self.offset ≤ x := hx.1
    have hh : x < self.offset+(n+self.length) := hx.2
    by_cases hlt : x < past.length
    · rw [getElem?_append_left hlt]
      exact hold x ⟨hlw,show (x : Int) < self.offset+self.length by omega⟩
    · have hx := hn (x-past.length) (by omega)
      rw [Nat.add_sub_cancel' (by omega)] at hx
      rw [getElem?_append_right (by omega),hx]
      rfl

end Point

namespace MapWriter

variable {deflater : Deflater} {self next final : MapWriter} {past : List Place} {ops : List Op}

structure Inv (writer : MapWriter) (past : List Place) : Prop where
  known : writer.backingURN ≠ unknownData
  writePtr : writer.writePtr = past.length
  tiled : Tiles 0 (writer.regions.map Point.region) past.length
  current : writer.currentPoint.targetURN = .ofURI writer.backingURN
  recorded : writer.points ≠ [] → ∃ p ∈ writer.points, p.targetURN = .ofURI writer.backingURN
  target : ∀ p ∈ writer.regions, p.targetURN = .ofURI unknownData ∨
    p.targetURN = .ofURI writer.backingURN ∧ 0 ≤ p.targetOffset ∧
      p.targetOffset ≤ writer.backingStore.writeptr

def AllRight (writer : MapWriter) (layout : List Place) : Prop :=
  ∀ p ∈ writer.regions, p.Right layout

lemma inv_con (urn : JavaString) {backingURN : JavaString} (h : backingURN ≠ unknownData)
    (backingStore : StreamWriter) : Inv (con urn backingURN backingStore) [] where
  known := h
  writePtr := rfl
  tiled := by simp [con,regions,Point.region,Tiles]
  current := rfl
  recorded := fun hne => absurd rfl hne
  target := by simp [con,regions]

lemma tiles_regions {b : Int} : Tiles 0 (self.regions.map Point.region) b ↔
    Tiles 0 (self.points.map Point.region) self.currentPoint.offset ∧
      0 ≤ self.currentPoint.length ∧ self.currentPoint.offset+self.currentPoint.length = b := by
  simp only [regions,map_append,map_singleton,tiles_append,Tiles,Point.region]
  constructor
  · rintro ⟨m,hm,rfl,hl,he⟩
    exact ⟨hm,hl,he⟩
  · rintro ⟨hm,hl,he⟩
    exact ⟨_,hm,rfl,hl,he⟩

variable {data : ByteBuffer}

lemma write_inv (h : self.write deflater data = some next) :
    ∃ backingStore, self.backingStore.write deflater data = some backingStore ∧ next = {self with
      currentPoint := {self.currentPoint with length := data.limit+self.currentPoint.length}
      writePtr := self.writePtr+data.limit, backingStore := backingStore} := by
  obtain ⟨backingStore,hb,h⟩ := bind_eq_some_iff.mp h
  exact ⟨backingStore,hb,(some.inj h).symm⟩

lemma Inv.write (hin : Inv self past)
    (h : self.write deflater data = some next) : Inv next (past ++ self.places (.write data)) := by
  obtain ⟨hpt,hl,he⟩ := tiles_regions.mp hin.tiled
  obtain ⟨backingStore,hb,rfl⟩ := write_inv h
  have hs : ((past ++ self.places (.write data)).length : Int) = past.length+data.limit := by
    simp [places]
  refine ⟨hin.known,?_,tiles_regions.mpr ⟨hpt,?_,?_⟩,hin.current,hin.recorded,fun p hp => ?_⟩
  · rw [hs,hin.writePtr]
  · exact Int.add_nonneg (Int.natCast_nonneg _) hl
  · show self.currentPoint.offset+((data.limit : Int)+self.currentPoint.length) = _
    omega
  · have hle := StreamWriter.writeptr_le hb
    have hold : ∃ q ∈ self.regions, q.targetURN = p.targetURN ∧ q.targetOffset = p.targetOffset := by
      rcases mem_append.mp hp with hp | hp
      · exact ⟨p,mem_append_left _ hp,rfl,rfl⟩
      · obtain rfl := mem_singleton.mp hp
        exact ⟨self.currentPoint,by simp [regions],rfl,rfl⟩
    obtain ⟨q,hq,hu,ho⟩ := hold
    rw [← hu,← ho]
    refine (hin.target q hq).imp_right fun ⟨hbc,hps,hm⟩ => ⟨hbc,hps,?_⟩
    show _ ≤ ((backingStore.writeptr : Nat) : Int)
    omega

lemma Inv.seek (hin : Inv self past) {s : Int} (h : self.writePtr ≤ s) :
    Inv (self.seek s) (past ++ self.places (.seek s)) := by
  obtain ⟨hpt,hl,he⟩ := tiles_regions.mp hin.tiled
  have hptr := hin.writePtr
  have hs : ((past ++ self.places (.seek s)).length : Int) = s := by
    simp only [places,length_append,length_replicate]
    omega
  refine ⟨hin.known,hs.symm,tiles_regions.mpr ⟨?_,le_refl _,?_⟩,rfl,
    fun _ => ⟨self.currentPoint,by simp [MapWriter.seek],hin.current⟩,fun p hp => ?_⟩
  · simp only [MapWriter.seek,map_append,tiles_append]
    refine ⟨_,hpt,rfl,hl,?_⟩
    simp only [map_cons,map_nil,Tiles,Point.region]
    omega
  · rw [hs]
    exact add_zero s
  · simp only [regions,MapWriter.seek,append_assoc,mem_append,mem_cons,not_mem_nil,or_false] at hp
    rcases hp with hp | (rfl | rfl) | rfl
    · exact hin.target p (mem_append_left _ hp)
    · exact hin.target _ (by simp [regions])
    · exact .inl rfl
    · exact .inr ⟨rfl,Int.natCast_nonneg _,le_refl _⟩

lemma places_write_iff {start : Int} (hs : 0 ≤ start) :
    (∀ i < data.limit, (self.places (.write data))[i]? = some (.stored (start+i).toNat)) ↔
      data.limit = 0 ∨ data.limit ≤ self.taken data ∧ self.backingStore.writeptr = start := by
  have hg : ∀ i < data.limit, (self.places (.write data))[i]? =
      some (if i < self.taken data then .stored (self.backingStore.writeptr+i) else .dropped) := by
    intro i hi
    simp [places,hi]
  constructor
  · intro h
    have hp : ∀ i < data.limit, i < self.taken data ∧
        self.backingStore.writeptr+i = (start+i).toNat := by
      intro i hi
      have heq := some.inj ((hg i hi).symm.trans (h i hi))
      split at heq
      · next hlt => exact ⟨hlt,Place.stored.inj heq⟩
      · cases heq
    refine or_iff_not_imp_left.mpr fun hne => ?_
    have hl := hp (data.limit-1) (by omega)
    omega
  · intro h i hi
    rw [hg i hi,if_pos (by omega),show self.backingStore.writeptr+i = (start+i).toNat by omega]

lemma allRight_iff {layout : List Place} : self.AllRight layout ↔
    (∀ p ∈ self.points, p.Right layout) ∧ self.currentPoint.Right layout := by
  simp [AllRight,regions,or_imp,forall_and]

section

variable (hin : Inv self past)
include hin

lemma Inv.points_append (new : List Place) :
    (∀ p ∈ self.points, p.Right (past ++ new)) ↔ ∀ p ∈ self.points, p.Right past := by
  obtain ⟨hpt,hl,he⟩ := tiles_regions.mp hin.tiled
  refine forall₂_congr fun p hp => Point.right_append ?_
  have hw : _ ∧ _ ∧ p.offset+p.length ≤ _ := hpt.within _ (mem_map_of_mem hp)
  omega

lemma Inv.allRight_write {data : ByteBuffer} (h : self.write deflater data = some next) :
    next.AllRight (past ++ self.places (.write data)) ↔
      self.AllRight past ∧ self.Straight (.write data) := by
  obtain ⟨hpt,hl,he⟩ := tiles_regions.mp hin.tiled
  obtain ⟨backingStore,hb,rfl⟩ := write_inv h
  have hp : ∀ i : Nat, self.currentPoint.place (past.length+i) =
      .stored (self.currentPoint.targetOffset+self.currentPoint.length+i).toNat := by
    intro i
    rw [Point.place_data hin.current hin.known]
    congr 2
    omega
  have ho : 0 ≤ self.currentPoint.targetOffset := by
    rcases hin.target self.currentPoint (by simp [regions]) with hu | ⟨-,hps,-⟩
    · exact absurd (some.inj (congrArg uri (hin.current.symm.trans hu))) hin.known
    · exact hps
  rw [allRight_iff,allRight_iff,and_assoc]
  refine and_congr (hin.points_append _) ?_
  refine (Point.right_extend hl he data.limit).trans (and_congr_right' ?_)
  simp only [hp]
  exact places_write_iff (by omega)

lemma Inv.allRight_seek {s : Int} (h : self.writePtr ≤ s) :
    (self.seek s).AllRight (past ++ self.places (.seek s)) ↔ self.AllRight past := by
  obtain ⟨hp,hl,he⟩ := tiles_regions.mp hin.tiled
  have hpt := hin.writePtr
  have hs : Point.Right ⟨self.writePtr,s-self.writePtr,-1,.ofURI unknownData⟩
      (past ++ self.places (.seek s)) := by
    intro x hx
    have hlw : self.writePtr ≤ x := hx.1
    have hh : x < self.writePtr+(s-self.writePtr) := hx.2
    rw [getElem?_append_right (by omega),places,getElem?_replicate_of_lt (by omega)]
    rfl
  have ho : (self.seek s).currentPoint.Right (past ++ self.places (.seek s)) :=
    Point.right_empty rfl _
  have hc := @Point.right_append self.currentPoint past (self.places (.seek s)) (by omega)
  rw [allRight_iff,allRight_iff,and_iff_left ho,← hin.points_append (self.places (.seek s)),← hc]
  simp [MapWriter.seek,or_imp,forall_and,hs]

lemma run_inv (hrn : run (step deflater) self ops = some final)
    (hf : Along (step deflater) Forward self ops) :
    Inv final (past ++ self.layout deflater ops) ∧
      (final.AllRight (past ++ self.layout deflater ops) ↔
        self.AllRight past ∧ Along (step deflater) Straight self ops) := by
  induction ops generalizing self past with
  | nil =>
    cases hrn
    simpa [layout,Along] using hin
  | cons op ops ih =>
    obtain ⟨next,hs,hrs⟩ := run_cons hrn
    have hn : Inv next (past ++ self.places op) ∧
        (next.AllRight (past ++ self.places op) ↔ self.AllRight past ∧ self.Straight op) := by
      cases op with
      | write data => exact ⟨hin.write hs,hin.allRight_write hs⟩
      | seek s =>
        cases hs
        exact ⟨hin.seek hf.1,(hin.allRight_seek hf.1).trans (and_true _).to_iff.symm⟩
    have hl : self.layout deflater (op :: ops) =
        self.places op ++ next.layout deflater ops := by simp [layout,hs]
    have ha : Along (step deflater) Straight self (op :: ops) ↔
        self.Straight op ∧ Along (step deflater) Straight next ops := by simp [Along,hs]
    obtain ⟨hfi,hr⟩ := ih hn.1 hrs (hf.2 next hs)
    rw [hl,← append_assoc,ha,hr,hn.2,and_assoc]
    exact ⟨hfi,Iff.rfl⟩

end

lemma run_pending {n : Nat} (hn : self.currentPoint.length = n)
    (hrn : run (step deflater) self ops = some final) :
    final.currentPoint.length = pending n ops := by
  induction ops generalizing self n with
  | nil =>
    cases hrn
    exact hn
  | cons op ops ih =>
    obtain ⟨next,hs,hr⟩ := run_cons hrn
    cases op with
    | write data =>
      obtain ⟨backingStore,hb,rfl⟩ := write_inv hs
      exact ih (show data.limit+self.currentPoint.length = (data.limit+n : Nat) by omega) hr
    | seek s =>
      cases hs
      exact ih rfl hr

lemma run_points (hrn : run (step deflater) self ops = some final) :
    final.urn = self.urn ∧ final.backingURN = self.backingURN ∧
      (final.points = [] ↔ self.points = [] ∧ ∀ op ∈ ops, ∃ data, op = .write data) := by
  induction ops generalizing self with
  | nil =>
    cases hrn
    simp
  | cons op ops ih =>
    obtain ⟨next,hs,hr⟩ := run_cons hrn
    obtain ⟨hu,hbc,hp⟩ := ih hr
    rw [hu,hbc,hp]
    cases op with
    | write data =>
      obtain ⟨backingStore,hb,rfl⟩ := write_inv hs
      simp
    | seek s =>
      cases hs
      simp [MapWriter.seek]

end MapWriter

def Point.emitted (urn backingURN : JavaString) (self : Point) : Resource × Resource :=
  (⟨none,none,some (sliceURI urn self.offset self.length),some self.region⟩,
    if self.targetURN = .ofURI unknownData then .ofURI unknownData
    else ⟨none,none,some (sliceURI backingURN self.targetOffset self.length),
      some (self.targetOffset,self.length)⟩)

section

variable {urn backingURN : JavaString} {p : Point}

structure Point.Proper (backingURN : JavaString) (p : Point) : Prop where
  offset : 0 ≤ p.offset ∧ p.offset < 2^63
  length : 0 ≤ p.length ∧ p.length < 2^63
  target : p.targetURN = .ofURI unknownData ∨
    p.targetURN = .ofURI backingURN ∧ 0 ≤ p.targetOffset ∧ p.targetOffset < 2^63

lemma ofURI_eq_iff {a b : JavaString} : ofURI a = .ofURI b ↔ a = b := by simp [ofURI]

lemma Point.Proper.emit_eq (hp : p.Proper backingURN) (hur : Plain urn)
    (hb : Plain backingURN) (hk : backingURN ≠ unknownData) : MapWriter.emit urn p =
      if hash ∈ urn ∧ (p.targetURN = .ofURI unknownData ∨ hash ∈ backingURN) then
        some (p.emitted urn backingURN)
      else none := by
  have hs := createURI_sliceURI hur hp.offset hp.length
  rcases hp.target with ht | ⟨ht,ho⟩
  · have hd : createURI unknownData = some (.ofURI unknownData) := createURI_plain (by decide)
    have hu : (ofURI unknownData).getURI = some unknownData := rfl
    by_cases hf : hash ∈ urn
    · simp [MapWriter.emit,emitted,ht,hu,hs,hd,hf,region]
    · simp [MapWriter.emit,ht,hu,hs,hf]
  · have hd := createURI_sliceURI hb ho hp.length
    have hu : (ofURI backingURN).getURI = some backingURN := rfl
    by_cases hf : hash ∈ urn <;> by_cases hf' : hash ∈ backingURN
    all_goals simp [MapWriter.emit,emitted,ht,hu,hs,hd,hf,hf',hk,ofURI_eq_iff,region]

lemma Point.Proper.target_iff (hp : p.Proper backingURN) (hk : backingURN ≠ unknownData)
    {x : Nat} (hx : Inside p.region x) (place : Place) :
    Target backingURN (p.emitted urn backingURN) x place ↔ place = p.place x := by
  have hl : p.offset ≤ x := hx.1
  have hr : (Java.region (p.emitted urn backingURN)).1 = p.offset := rfl
  rcases hp.target with ht | ⟨ht,ho⟩
  · cases place <;> simp [Target,emitted,Point.place,ht,ofURI]
  · cases place with
    | stored y =>
      rw [Target,hr,Point.place_data ht hk,Place.stored.injEq]
      simp only [emitted,ht,ofURI_eq_iff,hk,if_false,some.injEq,Prod.mk.injEq]
      constructor
      · rintro ⟨offset,length,-,⟨rfl,rfl⟩,hy⟩
        omega
      · intro hy
        exact ⟨_,_,rfl,⟨rfl,rfl⟩,by omega⟩
    | dropped => simp [Target,Point.place_data ht hk]
    | skipped => simp [Target,emitted,Point.place_data ht hk,ht,hk,ofURI]

end

namespace MapWriter

section

variable {urn backingURN : JavaString} {deflater : Deflater} {self : MapWriter}
  {layout : List Place}

lemma Inv.proper (hin : Inv self layout)
    (hl : self.writePtr < 2^63 ∧ self.backingStore.writeptr < 2^63) :
    ∀ p ∈ self.points, p.Proper self.backingURN := by
  intro p hp
  have hm : p ∈ self.regions := mem_append_left _ hp
  have hpt := hin.writePtr
  obtain ⟨hs,hln,he⟩ : 0 ≤ p.offset ∧ 0 ≤ p.length ∧ p.offset+p.length ≤ _ :=
    hin.tiled.within _ (mem_map_of_mem hm)
  refine ⟨⟨hs,by omega⟩,⟨hln,by omega⟩,?_⟩
  exact (hin.target p hm).imp_right fun ⟨hu,hps,hmx⟩ => ⟨hu,hps,by omega⟩

lemma Inv.describes_iff (hin : Inv self layout)
    (hpr : ∀ p ∈ self.points, p.Proper self.backingURN) :
    Describes self.backingURN (self.points.map (Point.emitted urn self.backingURN)) self.writePtr
      layout ↔ self.currentPoint.length = 0 ∧ self.AllRight layout := by
  obtain ⟨hpt,hl,hen⟩ := tiles_regions.mp hin.tiled
  have hptr := hin.writePtr
  have hc : ∀ x : Int, (∃ e ∈ self.points.map (Point.emitted urn self.backingURN),
      Inside (region e) x) ↔ 0 ≤ x ∧ x < self.currentPoint.offset := by
    intro x
    rw [← hpt.cover x]
    simp only [List.mem_map,exists_exists_and_eq_and]
    exact Iff.rfl
  constructor
  · intro h
    have hz : self.currentPoint.length = 0 := by
      by_contra hne
      have hx := ((hc self.currentPoint.offset).symm.trans (h.cover _)).mpr
        ⟨hpt.le,by omega⟩
      omega
    refine ⟨hz,allRight_iff.mpr ⟨fun p hp x hx => ?_,Point.right_empty hz layout⟩⟩
    have hlt : x < layout.length := by
      have hw : _ ∧ _ ∧ p.offset+p.length ≤ _ := hpt.within _ (List.mem_map_of_mem hp)
      have hh : (x : Int) < p.offset+p.length := hx.2
      omega
    have ht := h.target _ (List.mem_map_of_mem hp) x hx layout[x]
      (List.getElem?_eq_getElem hlt)
    rw [List.getElem?_eq_getElem hlt,((hpr p hp).target_iff hin.known hx _).mp ht]
  · intro ⟨hz,hr⟩
    refine ⟨List.pairwise_map.mpr (List.pairwise_map.mp hpt.pairwise),fun x => ?_,?_⟩
    · rw [hc x,hptr,← hen,hz,add_zero]
    · intro e he x hx place hpl
      obtain ⟨p,hp,rfl⟩ := List.mem_map.mp he
      rw [(hpr p hp).target_iff hin.known hx]
      have hs := (allRight_iff.mp hr).1 p hp x hx
      exact Option.some.inj ((Option.mem_def.mp hpl).symm.trans hs)

lemma Inv.emits_iff (hin : Inv self layout)
    (hpr : ∀ p ∈ self.points, p.Proper self.backingURN) (hu : Plain self.urn)
    (hb : Plain self.backingURN) (emitted : List (Resource × Resource)) :
    self.points.mapM (emit self.urn) = some emitted ↔
      emitted = self.points.map (Point.emitted self.urn self.backingURN) ∧
        (self.points = [] ∨ hash ∈ self.urn ∧ hash ∈ self.backingURN) := by
  have hem := fun p hp => (hpr p hp).emit_eq hu hb hin.known
  by_cases hf : self.points = [] ∨ hash ∈ self.urn ∧ hash ∈ self.backingURN
  · rw [Positions.mapM_eq_some fun p hp => ?_,some.injEq,and_iff_left hf,eq_comm]
    rcases hf with hn | ⟨hfs,hs⟩
    · simp [hn] at hp
    · rw [hem p hp,if_pos ⟨hfs,.inr hs⟩]
  · refine iff_of_false (fun h => hf (.inr ?_)) fun h => hf h.2
    obtain ⟨p,hp,ht⟩ := hin.recorded fun hn => hf (.inl hn)
    obtain ⟨e,he⟩ := Positions.exists_of_mapM h p hp
    simp only [hem p hp,ht,ofURI_eq_iff,hin.known,false_or] at he
    split at he
    · assumption
    · cases he

end

/-- When the points that `close` emits describe the map. Nothing may have been written since the
last seek, as only a seek records a point, and the URNs need a fragment once there is a point. -/
theorem close_describes_iff {urn backingURN : JavaString} (hu : Plain urn)
    (hb : Plain backingURN) (hk : backingURN ≠ unknownData) (deflater : Deflater)
    (backingStore : StreamWriter) {ops : List Op} {self : MapWriter}
    (hrn : run (step deflater) (con urn backingURN backingStore) ops = some self)
    (hfr : Along (step deflater) Forward (con urn backingURN backingStore) ops)
    (hl : self.writePtr < 2^63 ∧ self.backingStore.writeptr < 2^63) :
    (∃ emitted closed, self.close deflater = some (emitted,closed) ∧
      Describes backingURN emitted self.writePtr
        ((con urn backingURN backingStore).layout deflater ops)) ↔
      (∃ closed, self.backingStore.close deflater = some closed) ∧ pending 0 ops = 0 ∧
        Along (step deflater) Straight (con urn backingURN backingStore) ops ∧
        ((∀ op ∈ ops, ∃ data, op = .write data) ∨ hash ∈ urn ∧ hash ∈ backingURN) := by
  have hst := inv_con urn hk backingStore
  obtain ⟨hin,hr⟩ := run_inv hst hrn hfr
  obtain ⟨rfl,rfl,hpt⟩ := run_points hrn
  have hpn := run_pending (n := 0) rfl hrn
  have hp := hin.proper hl
  have hem : (con self.urn self.backingURN backingStore).AllRight [] := by
    simp [allRight_iff,con,Point.right_empty]
  simp only [nil_append,hem,true_and] at hin hr
  have hn : self.points = [] ↔ ∀ op ∈ ops, ∃ data, op = .write data := by
    rw [hpt]
    simp [con]
  constructor
  · rintro ⟨emitted,closed,hcl,hd⟩
    obtain ⟨_,he,hcl⟩ := bind_eq_some_iff.mp hcl
    obtain ⟨_,hc,hpr⟩ := bind_eq_some_iff.mp hcl
    cases hpr
    obtain ⟨rfl,hf⟩ := (hin.emits_iff hp hu hb _).mp he
    obtain ⟨hz,ha⟩ := (hin.describes_iff hp).mp hd
    exact ⟨⟨_,hc⟩,by omega,hr.mp ha,hf.imp_left hn.mp⟩
  · rintro ⟨⟨closed,hc⟩,hz,hs,hf⟩
    have he := (hin.emits_iff hp hu hb _).mpr ⟨rfl,hf.imp_left hn.mpr⟩
    refine ⟨self.points.map (Point.emitted self.urn self.backingURN),closed,
      by simp [close,he,hc],?_⟩
    exact (hin.describes_iff hp).mpr ⟨by omega,hr.mpr hs⟩

def freshStore : StreamWriter := ⟨chunkSize,12,replicate chunkSize 0,0,0,0,false,false,[],none⟩

def mapURN : JavaString := ascii "urn:aff4:map#".toList
def storeURN : JavaString := ascii "urn:aff4:store#".toList

theorem close_describes_iff_seek : ∃ self emitted closed,
    run (step plainDeflater) (con mapURN storeURN freshStore)
      [.write (wholeBuffer [7]),.seek 4] = some self ∧
    self.close plainDeflater = some (emitted,closed) ∧
    Describes storeURN emitted self.writePtr
      ((con mapURN storeURN freshStore).layout plainDeflater
        [.write (wholeBuffer [7]),.seek 4]) := by
  obtain ⟨self,hr,hl,hc⟩ : ∃ self, run (step plainDeflater)
      (con mapURN storeURN freshStore) [.write (wholeBuffer [7]),.seek 4] = some self ∧
      (self.writePtr < 2^63 ∧ self.backingStore.writeptr < 2^63) ∧
      ∃ closed, self.backingStore.close plainDeflater = some closed :=
    ⟨_,rfl,⟨by decide,by decide⟩,_,rfl⟩
  have hf : Along (step plainDeflater) Forward (con mapURN storeURN freshStore)
      [.write (wholeBuffer [7]),.seek 4] := by
    refine ⟨trivial,fun next hn => ⟨?_,fun _ _ => trivial⟩⟩
    cases hn
    show (1 : Int) ≤ 4
    decide
  obtain ⟨emitted,closed,h⟩ := (close_describes_iff ⟨by decide,by decide⟩ ⟨by decide,by decide⟩
    (by decide) plainDeflater freshStore hr hf hl).mpr
      ⟨hc,rfl,⟨.inr ⟨by decide,rfl⟩,fun _ _ => ⟨trivial,fun _ _ => trivial⟩⟩,
        .inr ⟨by decide,by decide⟩⟩
  exact ⟨self,emitted,closed,hr,h⟩

/-- Of a byte that is written before `close` no point is recorded. -/
theorem close_unrecorded : StreamWriter.new 1 = some freshStore ∧ ∃ self closed,
    run (step plainDeflater) (con mapURN storeURN freshStore) [.write (wholeBuffer [7])] =
      some self ∧
    self.writePtr = 1 ∧ self.close plainDeflater = some ([],closed) ∧
    ¬ Describes storeURN [] self.writePtr
      ((con mapURN storeURN freshStore).layout plainDeflater [.write (wholeBuffer [7])]) := by
  refine ⟨(StreamWriter.new_eq 1).trans (if_pos (by decide)),_,_,rfl,rfl,rfl,fun h => ?_⟩
  obtain ⟨e,he,-⟩ := (h.cover 0).mpr (by decide)
  cases he

end MapWriter

end Aff4.Java
