import Aff4.Lib.Positions
import Aff4.Lib.Strtoll
import Aff4.Map
import Aff4.UrnPath

/-! The text form of a map, map.c: `text_map_iterate_cb` writes a line for each point in the
order of the treap, and the loop of `MapValue_decode` reads the lines and adds the points. -/

namespace Aff4.MapValue

open LittleEndian Breakpoints Text Transition List Option

def comma : UInt8 := 44

def pointText (imageOffset targetOffset : Int) (target : Bytes) : Bytes :=
  printInt imageOffset ++ comma :: (printInt targetOffset ++ comma :: target)

/-- What `text_map_iterate_cb` writes: a text that does not fit into its buffer is cut, with its
terminator. -/
def textLine (self : MapValue) (node : MapPoint) : Option Bytes :=
  self.targets[node.targetIdx.toNat]?.map fun target =>
    let text := pointText (signed node.imageOffset) (signed node.targetOffset) target.value ++
      [newline]
    if text.length < buffSize then text else text.take (buffSize-1) ++ [0]

def serialiseText (self : MapValue) : Option Bytes := (self.tree.mapM self.textLine).map flatten

/-- `sscanf(x, "%lld,%lld,%1000s", ..)`, if it converts all three. -/
def scanPoint (line : Bytes) : Option MapCall := do
  let (imageOffset,rest) ← scanLong line
  let rest ← scanChar comma rest
  let (targetOffset,rest) ← scanLong rest
  let rest ← scanChar comma rest
  let (target,_) ← scanWord 1000 rest
  some ⟨UInt64.ofInt imageOffset,UInt64.ofInt targetOffset,target⟩

def decodeLine (self : MapValue) (line : Bytes) : Option MapValue :=
  match scanPoint line with
  | some point => self.call point
  | none => some self

/-- The loop, with what was read of the line so far. It goes on behind the terminator if the last
line does not end. -/
def decodeLines : MapValue → Bytes → Bytes → Option MapValue
  | self, line, [] => if line = [] then some self else none
  | self, line, c :: text =>
      if c = newline ∨ c = carriageReturn then
        (self.decodeLine line).bind fun self => self.decodeLines [] text
      else self.decodeLines (line ++ [c]) text

def decodeText (self : MapValue) (data : Bytes) : Option MapValue :=
  self.decodeLines [] (cstring data)

def resolved (self : MapValue) (readptr : UInt64) : Option (Option (Bytes × UInt64)) :=
  (self.getRange readptr).map fun r => r.map fun range => (range.target.value,range.targetOffset)

/-- A map without periods that can be written as text. The table of targets is a block of talloc,
and the points are counted in an `int`. -/
structure Textual (map : MapValue) : Prop where
  placed : map.Placed
  targetPeriod : map.targetPeriod = -1
  small : ∀ p ∈ map.tree, p.targetOffset.toNat < 2^62
  plain : ∀ t ∈ map.targets, t.value.length ≤ 1000 ∧ ∀ c ∈ t.value, isSpace c = false
  few : map.targets.length < 2^25
  counted : map.tree.length < 2^31

/-! ### The lines -/

def callOf (self : MapValue) (p : MapPoint) : MapCall :=
  ⟨p.imageOffset,p.targetOffset,((self.targets[p.targetIdx.toNat]?).map RDFURN.value).getD []⟩

lemma printInt_signed {x : UInt64} (h : x.toNat < 2^62) :
    printInt (signed x) = decimal x.toNat := by
  rw [signed_of_lt (by omega),printInt,if_neg (by omega),Int.natAbs_natCast]

lemma ofInt_toNat (x : UInt64) : UInt64.ofInt (x.toNat : Int) = x := by
  apply UInt64.toNat.inj
  have hlt := x.toNat_lt
  rw [UInt64.ofInt,UInt64.toNat_ofNat_of_lt' (by simp only [UInt64.size]; omega)]
  omega

lemma scanPoint_text {x y : UInt64} (hx : x.toNat < 2^62) (hy : y.toNat < 2^62) {target : Bytes}
    (hne : target ≠ []) (hl : target.length ≤ 1000) (hpl : ∀ c ∈ target, isSpace c = false) :
    scanPoint (pointText (signed x) (signed y) target) = some ⟨x,y,target⟩ := by
  have hcm : ∀ (rest : Bytes), ∀ c ∈ (comma :: rest).head?, isDigit c = false := by
    intro rest c hc
    cases hc
    decide
  simp [scanPoint,pointText,printInt_signed hx,printInt_signed hy,scanLong_decimal (show x.toNat < 2^63 by omega) (hcm _),scanChar_cons,scanLong_decimal (show y.toNat < 2^63 by omega) (hcm _),scanWord_word hne hpl hl,ofInt_toNat]

def lineOf (self : MapValue) (p : MapPoint) : Bytes :=
  pointText (signed p.imageOffset) (signed p.targetOffset) (self.callOf p).target

section

variable {map : MapValue} {p : MapPoint}

section

variable (h : map.Textual) (hp : p ∈ map.tree)
include h hp

lemma Textual.target : ∃ t ∈ map.targets, map.targets[p.targetIdx.toNat]? = some t ∧
      (map.callOf p).target = t.value := by
  have hi := getElem?_eq_getElem (h.placed.indexed p hp)
  exact ⟨_,mem_of_getElem? hi,hi,by rw [callOf,hi]; rfl⟩

lemma Textual.callOf_small : (map.callOf p).Small := ⟨h.placed.small p hp,h.small p hp⟩

lemma Textual.callOf_target : (map.callOf p).target ≠ [] ∧ (map.callOf p).target.length ≤ 1000 ∧
      ∀ c ∈ (map.callOf p).target, isSpace c = false ∧ c ≠ 0 := by
  obtain ⟨t,ht,_,heq⟩ := h.target hp
  obtain ⟨hl,hpl⟩ := h.plain t ht
  rw [heq]
  refine ⟨?_,hl,fun c hc => ⟨hpl c hc,t.value_ne_zero c hc⟩⟩
  exact ne_nil_of_mem t.colon_mem_value

lemma Textual.scanPoint_lineOf : scanPoint (map.lineOf p) = some (map.callOf p) := by
  obtain ⟨hne,hl,hpl⟩ := h.callOf_target hp
  exact scanPoint_text (h.placed.small p hp) (h.small p hp) hne hl fun c hc => (hpl c hc).1

lemma Textual.mem_lineOf {c : UInt8}
    (hc : c ∈ map.lineOf p) : c ≠ newline ∧ c ≠ carriageReturn ∧ c ≠ 0 := by
  obtain ⟨_,_,hpl⟩ := h.callOf_target hp
  have hd : ∀ n, c ∈ decimal n → c ≠ newline ∧ c ≠ carriageReturn ∧ c ≠ 0 := by
    intro n hn
    have hdg := decimal_digits n c hn
    refine ⟨?_,?_,?_⟩ <;> rintro rfl <;> exact absurd hdg (by decide)
  rw [lineOf,pointText,printInt_signed (h.placed.small p hp),printInt_signed (h.small p hp)] at hc
  simp only [mem_append,mem_cons] at hc
  rcases hc with hc | rfl | hc | rfl | hc
  · exact hd _ hc
  · decide
  · exact hd _ hc
  · decide
  · obtain ⟨hs,hz⟩ := hpl c hc
    refine ⟨?_,?_,hz⟩ <;> rintro rfl <;> exact absurd hs (by decide)

lemma Textual.textLine_eq : map.textLine p = some (map.lineOf p ++ [newline]) := by
  obtain ⟨t,_,hi,heq⟩ := h.target hp
  have hl := (h.callOf_target hp).2.1
  have him := decimal_length_le (n := p.imageOffset.toNat) (k := 18)
    ((h.placed.small p hp).trans (by decide))
  have ht := decimal_length_le (n := p.targetOffset.toNat) (k := 18)
    ((h.small p hp).trans (by decide))
  have hf : (map.lineOf p ++ [newline]).length < buffSize := by
    rw [lineOf,pointText,printInt_signed (h.placed.small p hp),printInt_signed (h.small p hp)]
    simp only [length_append,length_cons,length_nil,buffSize]
    omega
  rw [textLine,hi,map_some]
  simp only [← heq]
  exact congrArg some (if_pos hf)

end

lemma Textual.serialiseText_eq (h : map.Textual) :
    map.serialiseText = some (map.tree.flatMap fun p => map.lineOf p ++ [newline]) := by
  rw [serialiseText,Positions.mapM_eq_some fun p hp => h.textLine_eq hp]
  rfl

lemma decodeLines_line {line : Bytes} (hl : ∀ c ∈ line, c ≠ newline ∧ c ≠ carriageReturn)
    (s : MapValue) (front text : Bytes) : s.decodeLines front (line ++ newline :: text) =
      (s.decodeLine (front ++ line)).bind fun s => s.decodeLines [] text := by
  induction line generalizing front with
  | nil =>
    rw [nil_append,decodeLines,if_pos (.inl rfl),append_nil]
  | cons c line ih =>
    obtain ⟨hc,hl⟩ := forall_mem_cons.mp hl
    rw [cons_append,decodeLines,if_neg (by simp [hc]),ih hl,append_assoc,singleton_append]

lemma Textual.decodeLines_eq (h : map.Textual) {ps : List MapPoint} (hps : ∀ p ∈ ps, p ∈ map.tree)
    (s : MapValue) : s.decodeLines [] (ps.flatMap fun p => map.lineOf p ++ [newline]) =
      run call s (ps.map map.callOf) := by
  induction ps generalizing s with
  | nil => rfl
  | cons p ps ih =>
    obtain ⟨hp,hps⟩ := forall_mem_cons.mp hps
    have hl : ∀ c ∈ map.lineOf p, c ≠ newline ∧ c ≠ carriageReturn := by
      intro c hc
      obtain ⟨hn,hr,_⟩ := h.mem_lineOf hp hc
      exact ⟨hn,hr⟩
    rw [flatMap_cons,append_assoc,singleton_append,decodeLines_line hl,
      nil_append,decodeLine,h.scanPoint_lineOf hp,map_cons,run]
    simp only [ih hps]

end

/-! ### The calls -/

lemma addTarget_frame {s next : MapValue} {target : Bytes} {i : Nat}
    (h : s.addTarget target = some (i,next)) : next.targetPeriod = s.targetPeriod ∧
      next.numberOfPoints = s.numberOfPoints ∧ next.tree = s.tree ∧ next.size = s.size := by
  obtain ⟨found,_,h⟩ := bind_eq_some_iff.mp h
  cases found with
  | some index =>
    simp only [some.injEq,Prod.mk.injEq] at h
    exact h.2 ▸ ⟨rfl,rfl,rfl,rfl⟩
  | none =>
    obtain ⟨urn,_,h⟩ := bind_eq_some_iff.mp h
    split at h
    · obtain ⟨r,_,h⟩ := map_eq_some_iff.mp h
      exact (Prod.mk.inj h).2 ▸ ⟨rfl,rfl,rfl,rfl⟩
    · cases h

structure Framed (map next : MapValue) (c : MapCall) : Prop where
  targetPeriod : next.targetPeriod = map.targetPeriod
  counter : next.numberOfPoints ≤ map.numberOfPoints + 1
  counted : (next.tree.length : Int) - next.numberOfPoints ≤ map.tree.length - map.numberOfPoints
  fits : map.numberOfPoints < 2^31 → next.numberOfPoints < 2^31
  tree : ∀ p ∈ next.tree, p ∈ map.tree ∨ p.targetOffset = c.targetOffset

lemma call_framed {s next : MapValue} {c : MapCall} (h : s.call c = some next) :
    s.Framed next c := by
  obtain ⟨r,hr,rfl⟩ := map_eq_some_iff.mp h
  obtain ⟨⟨i,mid⟩,ha,hr⟩ := bind_eq_some_iff.mp hr
  obtain ⟨hpr,hc,ht,_⟩ := addTarget_frame ha
  have hrm : (erase MapPoint.key (signed c.imageOffset) mid.tree).length ≤ s.tree.length :=
    ht ▸ length_filter_le _ _
  obtain ⟨available,next⟩ := r
  obtain ⟨-,-,-,⟨-,rfl⟩ | ⟨-,hro,rfl⟩⟩ := addNode_cases hr
  · refine ⟨hpr,?_,?_,?_,fun p hp => .inl (ht ▸ (mem_erase.mp hp).1)⟩ <;>
      simp only [removePoint] <;> omega
  · have hl := length_place MapPoint.key ⟨c.imageOffset,c.targetOffset,UInt32.ofNat i⟩ mid.tree
    simp only [MapPoint.key] at hl hrm
    refine ⟨hpr,by simp only; omega,by simp only; omega,fun _ => hro, fun p hp => ?_⟩
    rcases mem_place.mp hp with rfl | ⟨hp,_⟩
    · exact .inr rfl
    · exact .inl (ht ▸ hp)

lemma tree_ne_nil_of_near {s : MapValue} {k : Int} {v : Option RDFURN × UInt64}
    (h : Near s.lines k v) : s.tree ≠ [] := by
  intro hn
  rcases h with ⟨q,_,hq,_⟩ | ⟨_,q,_,hq,_⟩ <;> simp [lines,points,hn] at hq

structure Called (calls : List MapCall) (map : MapValue) : Prop where
  holds : map.Holds calls
  targetPeriod : map.targetPeriod = -1
  counter : map.numberOfPoints ≤ calls.length
  counted : map.tree.length ≤ map.numberOfPoints ∧ map.numberOfPoints < 2^31
  offsets : ∀ p ∈ map.tree, p.targetOffset.toNat < 2^62
  tree : calls ≠ [] → map.tree ≠ []

lemma run_called {calls : List MapCall} (hs : ∀ c ∈ calls, c.Small) {map : MapValue}
    (h : run call con calls = some map) : map.Called calls := by
  induction calls using reverseRecOn generalizing map with
  | nil =>
    cases h
    exact ⟨con_holds,rfl,le_rfl,by decide,by simp [con],fun hne => absurd rfl hne⟩
  | append_singleton calls c ih =>
    rw [run_snoc] at h
    obtain ⟨mid,hm,hcl⟩ := bind_eq_some_iff.mp h
    have hc := hs c (by simp)
    have hr := ih (fun d hd => hs d (by simp [hd])) hm
    obtain ⟨hh,_,hn⟩ := call_holds hr.holds hc hcl
    have hf := call_framed hcl
    have hco := hr.counter
    have hcn := hr.counted
    refine ⟨hh,hf.targetPeriod.trans hr.targetPeriod,?_,
      ⟨?_,hf.fits hcn.2⟩,fun p hp => ?_,fun _ => tree_ne_nil_of_near hn⟩
    · have := hf.counter
      simp only [length_append,length_singleton]
      omega
    · have := hf.counted
      omega
    · rcases hf.tree p hp with hp | hp
      · exact hr.offsets p hp
      · exact hp ▸ hc.2

lemma Tabled.nodup {names : List Bytes} {s : MapValue} (h : s.Tabled names) : names.Nodup := by
  obtain ⟨m,_,_,hid⟩ := h.cached
  rw [nodup_iff_injective_getElem]
  intro i j hij
  have hi := (hid _ i.val).mpr (getElem?_eq_getElem i.isLt)
  have hj := (hid _ j.val).mpr (getElem?_eq_getElem j.isLt)
  dsimp only at hij
  rw [hij,hj] at hi
  exact Fin.ext (some.inj hi).symm

section

variable {map : MapValue} {front back : List MapPoint} {p : MapPoint}

lemma Textual.admits (h : map.Textual) (htr : map.tree = front ++ p :: back) {self : MapValue}
    (hcl : self.Called (front.map map.callOf)) :
    self.Admits (front.map map.callOf) (map.callOf p) := by
  have hp : p ∈ map.tree := by simp [htr]
  obtain ⟨t,ht,_,heq⟩ := h.target hp
  have hcs : cstring (map.callOf p).target = t.value := by
    rw [heq,cstring_eq_self t.value_ne_zero]
  refine ⟨?_,?_,.inr ?_⟩
  · refine URLParse.parse_buffered ?_
    rw [hcs,← heq]
    exact lt_of_le_of_lt (h.callOf_target hp).2.1 (by decide)
  · obtain ⟨names,htb,hn⟩ := hcl.holds.tabled
    by_cases hk : t.value ∈ names
    · exact .inl (by simpa [hcs] using (hn t.value).mp hk)
    · -- the names so far and this one are all in the table of the map
      have hsb : names ++ [t.value] ⊆ map.targets.map RDFURN.value := by
        intro s hs
        rcases mem_append.mp hs with hs | hs
        · obtain ⟨c,hc,rfl⟩ := (hn s).mp hs
          obtain ⟨q,hq,rfl⟩ := mem_map.mp hc
          obtain ⟨u,hu,_,hv⟩ := h.target (p := q) (by simp [htr,hq])
          rw [hv,cstring_eq_self u.value_ne_zero]
          exact mem_map_of_mem hu
        · rw [mem_singleton.mp hs]
          exact mem_map_of_mem ht
      have hnd : (names ++ [t.value]).Nodup :=
        nodup_append'.mpr ⟨htb.nodup,nodup_singleton _,by simpa using hk⟩
      have hle := (subperm_of_subset hnd hsb).length_le
      have hf := h.few
      simp only [length_append,length_singleton,length_map] at hle
      rw [htb.targets,length_map]
      exact .inr (by omega)
  · have hcn := h.counted
    have hcnt := hcl.counter
    simp only [htr,length_append,length_cons,length_map] at hcn hcnt
    omega

lemma Textual.not_overtakes (h : map.Textual) (ht : map.tree = front ++ p :: back)
    {s : MapValue} (hcl : s.Called (front.map map.callOf)) {c : MapCall}
    (hc : c ∈ front.map map.callOf) : ¬ s.Overtakes p.imageOffset c.imageOffset := by
  have hbf : ∀ q ∈ front, q.imageOffset < p.imageOffset := by
    intro q hq
    have hs := h.placed.sorted
    rw [ht] at hs
    have hlt := (pairwise_append.mp hs).2.2 q hq p mem_cons_self
    exact (signed_lt_iff (h.placed.small q (by simp [ht,hq]))
      (h.placed.small p (by simp [ht]))).mp hlt
  obtain ⟨q,hq,rfl⟩ := mem_map.mp hc
  rintro (⟨hlt,_⟩ | ⟨_,hal⟩)
  · exact absurd hlt (UInt64.not_lt.mpr (UInt64.le_of_lt (hbf q hq)))
  · obtain ⟨a,ha⟩ := exists_mem_of_ne_nil _ (hcl.tree (ne_nil_of_mem hc))
    have hne : s.lines (signed a.imageOffset) ≠ none := fun hn =>
      lines_eq_none.mp hn a ha rfl
    obtain ⟨d,hd,hk⟩ := added_ne_none.mp (hcl.holds.subset _ hne)
    obtain ⟨b,hb,rfl⟩ := mem_map.mp hd
    have hab : b.imageOffset = a.imageOffset := signed_inj.mp hk
    exact absurd (hal a ha) (UInt64.not_le.mpr (hab ▸ hbf b hb))

end

/-! ### Round trip -/

section

variable {map : MapValue}

lemma Textual.run_thins (h : map.Textual) {front back : List MapPoint}
    (htr : map.tree = front ++ back) : ∃ self, run call con (front.map map.callOf) = some self ∧
      self.Called (front.map map.callOf) ∧
      Thins self.lines (MapCall.added (front.map map.callOf)) := by
  induction front using reverseRecOn generalizing back with
  | nil => exact ⟨con,rfl,run_called (by simp) rfl,by simp [Thins,MapCall.added]⟩
  | append_singleton front p ih =>
    have hs : map.tree = front ++ p :: back := by simpa using htr
    obtain ⟨self,hr,hcl,ht⟩ := ih hs
    have hsm : ∀ c ∈ (front ++ [p]).map map.callOf, c.Small := by
      intro c hc
      obtain ⟨q,hq,rfl⟩ := mem_map.mp hc
      exact h.callOf_small (htr ▸ mem_append_left back hq)
    have hp : (map.callOf p).Small := hsm _ (by simp)
    obtain ⟨next,hn⟩ := (call_returns_iff hcl.holds hp).mpr (h.admits hs hcl)
    have ht := (thins_call_iff hcl.holds hp ht hn).mpr
      (.inr fun c hc => h.not_overtakes hs hcl hc)
    have ha : run call con ((front ++ [p]).map map.callOf) = some next := by
      rw [map_append,map_singleton,run_snoc,hr]
      exact hn
    refine ⟨next,ha,run_called hsm ha,?_⟩
    rwa [map_append]

lemma Textual.added_eq (h : map.Textual) : MapCall.added (map.tree.map map.callOf) =
    points MapPoint.key (fun p => (map.callOf p).line) map.tree := by
  have hs := h.placed.sorted
  funext k
  cases hk : MapCall.added (map.tree.map map.callOf) k with
  | none =>
    refine (points_eq_none.mpr fun p hp hky => ?_).symm
    exact added_ne_none.mpr ⟨map.callOf p,mem_map_of_mem hp,hky⟩ hk
  | some v =>
    obtain ⟨c,hc,hky,hl,_⟩ := governs_of_added hk
    obtain ⟨p,hp,rfl⟩ := mem_map.mp hc
    exact ((points_eq_some hs).mpr ⟨p,hp,hky,hl⟩).symm

lemma Textual.resolved_eq (h : map.Textual) {next : MapValue}
    (hc : next.Called (map.tree.map map.callOf))
    (hth : Thins next.lines (MapCall.added (map.tree.map map.callOf))) (r : UInt64) :
    next.resolved r = map.resolved r := by
  by_cases hr : r = 0x7fffffffffffffff
  · rw [resolved,resolved,getRange,if_pos (.inr hr),getRange,if_pos (.inr hr)]
  rcases getRange_nearest h.placed hr with ⟨he,hno⟩ | ⟨p,hp,range,hra,ht,ho,_,hnr⟩
  · have hnl : next.tree = [] := by
      rw [eq_nil_iff_forall_not_mem]
      intro a ha
      have hne : next.lines (signed a.imageOffset) ≠ none := fun hn => lines_eq_none.mp hn a ha rfl
      simpa [he,MapCall.added] using hc.holds.subset _ hne
    rcases getRange_nearest hc.holds.placed hr with ⟨_,hno'⟩ | ⟨a,ha,_⟩
    · rw [resolved,resolved,hno,hno']
    · simp [hnl] at ha
  · have hk : Near next.lines (signed r) (map.callOf p).line := by
      refine near_of_thins hc.holds.subset hth ?_
      rw [h.added_eq]
      exact hnr fun p => (map.callOf p).line
    rcases getRange_nearest hc.holds.placed hr with
      ⟨hnl,_⟩ | ⟨q,_,range',hra',ht',ho',_,hnr'⟩
    · exact absurd hnl (tree_ne_nil_of_near hk)
    · have hl := near_unique (hnr' (MapPoint.line next.targets)) hk
      obtain ⟨t,_,hi,heq⟩ := h.target hp
      rw [ht,some.injEq] at hi
      rw [MapPoint.line,MapCall.line,ht',Prod.mk.injEq,some.injEq] at hl
      have hv : range'.target.value = range.target.value := by
        rw [hl.1,heq,hi]
        exact t.set_value (cstring_eq_self t.value_ne_zero)
      have hs : range'.targetOffset = range.targetOffset := by
        rw [ho,ho',hl.2,hc.targetPeriod,h.targetPeriod]
        rfl
      rw [resolved,resolved,hra,hra']
      simp [hv,hs]

/-- Writing a map as text and reading it into an empty one keeps the target and the offset of
every offset. -/
theorem text_round_trip (h : map.Textual) : ∃ text next, map.serialiseText = some text ∧
    con.decodeText text = some next ∧ ∀ r, next.resolved r = map.resolved r := by
  obtain ⟨next,hr,hcl,ht⟩ := h.run_thins (append_nil map.tree).symm
  have htx : cstring (map.tree.flatMap fun p => map.lineOf p ++ [newline]) =
      map.tree.flatMap fun p => map.lineOf p ++ [newline] := by
    refine cstring_eq_self fun c hc => ?_
    obtain ⟨p,hp,hc⟩ := mem_flatMap.mp hc
    rcases mem_append.mp hc with hc | hc
    · exact (h.mem_lineOf hp hc).2.2
    · rw [mem_singleton.mp hc]
      decide
  refine ⟨_,next,h.serialiseText_eq,?_,h.resolved_eq hcl ht⟩
  rw [decodeText,htx,h.decodeLines_eq fun p hp => hp,hr]

end

lemma Called.textual {calls : List MapCall} {map : MapValue} (h : map.Called calls)
    (hpl : ∀ t ∈ map.targets, t.value.length ≤ 1000 ∧ ∀ c ∈ t.value, isSpace c = false) :
    map.Textual := by
  obtain ⟨names,ht,_⟩ := h.holds.tabled
  refine ⟨h.holds.placed,h.targetPeriod,h.offsets,hpl,?_,?_⟩
  · rw [ht.targets,length_map]
    exact ht.few
  · have := h.counted
    omega

def threeCalls : List MapCall := [⟨0,7,chars ['a']⟩,⟨10,0,chars ['b']⟩,⟨20,10,chars ['b']⟩]

lemma threeCalls_targets : (run call con threeCalls).map (fun map => map.targets.map RDFURN.value) =
    some [(RDFURN.set (chars ['a'])).value,(RDFURN.set (chars ['b'])).value] := by decide +kernel

theorem text_round_trip_three : ∃ map, run call con threeCalls = some map ∧ map.Textual ∧
    ∃ text next, map.serialiseText = some text ∧ con.decodeText text = some next ∧
      ∀ r, next.resolved r = map.resolved r := by
  obtain ⟨map,hm,htr⟩ := map_eq_some_iff.mp threeCalls_targets
  have hpl : ∀ t ∈ map.targets, t.value.length ≤ 1000 ∧ ∀ c ∈ t.value, isSpace c = false := by
    intro t ht
    have hmm : t.value ∈ map.targets.map RDFURN.value := mem_map_of_mem ht
    rw [htr,mem_pair] at hmm
    rcases hmm with heq | heq <;> rw [heq] <;> decide +kernel
  have htx : map.Textual := (run_called (by simp [threeCalls,MapCall.Small]) hm).textual hpl
  exact ⟨map,hm,htx,text_round_trip htx⟩

end Aff4.MapValue
