import Aff4.PyMap
import Mathlib.Data.List.Infix

/-! Sparse writing through a map of aff4.py. A write adds a point for its data and one of the null
stream behind it, and deletes those between; the map is compared with the stream in which the latest
write of a byte counts. -/

namespace Aff4.Python

open LittleEndian Bisect List Option Function Int Breakpoints

inductive SparseOp where
  | seek (offset whence : Int)
  | write (data : Bytes)

/-- What a sequence of seeks and writes means: the byte at every offset is that of the latest
write that covers it, or zero. -/
structure Sparse where
  readptr : Int
  size : Int
  byte : Int → UInt8

namespace Sparse

def empty : Sparse := ⟨0,0,fun _ => 0⟩

def seek (self : Sparse) (offset whence : Int) : Sparse :=
  {self with readptr := seekTo self.readptr self.size offset whence}

def write (self : Sparse) (data : Bytes) : Sparse where
  readptr := self.readptr + data.length
  size := max self.size (self.readptr + data.length)
  byte x := if self.readptr ≤ x ∧ x < self.readptr + data.length then
    data.getD (x - self.readptr).toNat 0 else self.byte x

def op (self : Sparse) : SparseOp → Sparse
  | .seek offset whence => self.seek offset whence
  | .write data => self.write data

def after (ops : List SparseOp) : Sparse := ops.foldl op empty

end Sparse

def imageReader (content : Bytes) (offset length : Int) : Option Bytes :=
  let stream : Stream := ⟨content,offset⟩
  if offset < 0 ∧ 0 < stream.wanted (some length) then none
  else some (stream.read (some length)).1

def padReader (_ length : Int) : Option Bytes := some (replicate length.toNat 0)

/-- The streams that can be opened: the null stream, the backing image, and others. -/
def opened (others : Oracle) (target : Urn) (backing : Bytes) : Oracle := fun urn =>
  if urn = nullUrn then some padReader
  else if urn = target then some (imageReader backing)
  else others urn

lemma imageReader_one (content : Bytes) {offset : Int} (h : 0 ≤ offset) :
    imageReader content offset 1 = some content[offset.toNat]?.toList := by
  rw [imageReader,if_neg (by omega)]
  simp only [Stream.read,Stream.wanted,getD_some,slice,some.injEq]
  by_cases hlt : offset.toNat < content.length
  · rw [show (min ((content.length : Int)-offset) 1).toNat = 1 by omega,
      getElem?_eq_getElem hlt,drop_eq_getElem_cons hlt]
    rfl
  · rw [drop_eq_nil_of_le (by omega),take_nil,getElem?_eq_none (by omega)]
    rfl

lemma imageReader_append {content : Bytes} {offset : Int} {y : UInt8} (data : Bytes)
    (h : imageReader content offset 1 = some [y]) :
    imageReader (content ++ data) offset 1 = some [y] := by
  by_cases hn : offset < 0
  · have hwn : 0 < (⟨content,offset⟩ : Stream).wanted (some 1) := by
      simp only [Stream.wanted,Option.getD_some]
      omega
    rw [imageReader,if_pos ⟨hn,hwn⟩] at h
    cases h
  · rw [imageReader_one _ (by omega),Option.some.injEq] at h ⊢
    obtain ⟨z,hz,hy⟩ : ∃ z, content[offset.toNat]? = some z ∧ [z] = [y] := by
      cases hc : content[offset.toNat]? with
      | none => simp [hc] at h
      | some z => exact ⟨z,rfl,by simpa [hc] using h⟩
    rw [List.getElem?_append_left (List.getElem?_eq_some_iff.mp hz).1,hz]
    exact hy

namespace Map

open Transition

def op (attributes : MapAttributes) (state : Map × Bytes) : SparseOp → Option (Map × Bytes)
  | .seek offset whence => some (state.1.seek offset whence,state.2)
  | .write data => state.1.write attributes state.2 data

def covered (self : Map) (data : Bytes) : List Int :=
  between self.imageOffsets self.readptr (self.readptr + data.length)

def laid (self : Map) (target : Urn) (backing data : Bytes) : Map :=
  { self with
    imageOffsets := splice self.imageOffsets self.readptr (self.readptr + data.length)
    targetOffsets := update
      (update self.targetOffsets self.readptr (some backing.length))
      (self.readptr + data.length) (some 0)
    targetUrns := update
      (update self.targetUrns self.readptr (some target))
      (self.readptr + data.length) (some nullUrn)
    readptr := self.readptr + data.length }

def without (self : Map) (xs : List Int) : Map :=
  { self with
    targetOffsets := fun q => if q ∈ xs then none else self.targetOffsets q
    targetUrns := fun q => if q ∈ xs then none else self.targetUrns q }

variable {s next : Map} {attributes : MapAttributes} {target : Urn} {backing data : Bytes}

lemma delPoint_eq_some {x : Int} : s.delPoint x = some next ↔
    (s.targetOffsets x ≠ none ∧ s.targetUrns x ≠ none) ∧ next = s.without [x] := by
  unfold delPoint
  by_cases h : s.targetOffsets x = none ∨ s.targetUrns x = none
  · rw [if_pos h]
    tauto
  · rw [if_neg h,some.injEq]
    have hwt : s.without [x] = { s with
        targetOffsets := update s.targetOffsets x none
        targetUrns := update s.targetUrns x none } := by simp [without,update,funext_iff]
    rw [hwt,eq_comm]
    tauto

lemma without_cons (x : Int) (xs : List Int) :
    (s.without [x]).without xs = s.without (x :: xs) := by
  simp only [without,mem_cons,Map.mk.injEq,true_and,and_true]
  constructor <;> funext q <;> by_cases hq : q = x <;> simp [hq]

lemma run_delPoint_eq_some {xs : List Int} : run delPoint s xs = some next ↔
    (xs.Nodup ∧ ∀ q ∈ xs, s.targetOffsets q ≠ none ∧ s.targetUrns q ≠ none) ∧
      next = s.without xs := by
  induction xs generalizing s with
  | nil =>
    have hnl : s.without [] = s := by simp [without]
    simp [run,hnl,eq_comm]
  | cons x xs ih =>
    simp only [run,bind_eq_some_iff,delPoint_eq_some]
    constructor
    · rintro ⟨_,⟨hx,rfl⟩,hr⟩
      obtain ⟨⟨hn,hxs⟩,rfl⟩ := ih.mp hr
      have hne : ∀ q ∈ xs, q ≠ x := by
        rintro q hq rfl
        exact (hxs q hq).1 (by simp [without])
      refine ⟨⟨nodup_cons.mpr ⟨fun h => hne x h rfl,hn⟩,fun q hq => ?_⟩,without_cons x xs⟩
      rcases mem_cons.mp hq with rfl | hq
      · exact hx
      · simpa [without,hne q hq] using hxs q hq
    · rintro ⟨⟨hn,hxs⟩,rfl⟩
      obtain ⟨hx,hn⟩ := nodup_cons.mp hn
      refine ⟨_,⟨hxs x mem_cons_self,rfl⟩,ih.mpr ⟨⟨hn,fun q hq => ?_⟩,(without_cons x xs).symm⟩⟩
      have hne : q ≠ x := fun h => hx (h ▸ hq)
      simpa [without,hne] using hxs q (mem_cons_of_mem _ hq)

lemma deletePoints_eq (s : Map) {left right : Nat} {offsets xs : List Int}
    (htk : s.imageOffsets.take left ++ s.imageOffsets.drop right = offsets)
    (hd : (s.imageOffsets.take right).drop left = xs) :
    s.deletePoints left right = run delPoint {s with imageOffsets := offsets} xs := by
  unfold deletePoints
  by_cases heq : left = right
  · subst heq
    rw [take_append_drop] at htk
    have hn : xs = [] := by simpa using hd.symm
    rw [if_neg (not_not.mpr rfl),hn,← htk]
    rfl
  · rw [if_pos heq,htk,hd]

lemma write_eq (h : s.Listed) (htg : attributes.target = some target) :
    s.write attributes backing data =
      (run delPoint (s.laid target backing data) (s.covered data)).map fun next =>
        ({next with size := max next.size (s.readptr+data.length)},backing ++ data) := by
  have hpe : s.readptr ≤ s.readptr+data.length := by omega
  obtain ⟨hs,hb⟩ := take_append_drop_insort h.sorted hpe
  let offsets := insort s.imageOffsets s.readptr
  have hd : deletePoints {s.laid target backing data with
      imageOffsets := insort offsets (s.readptr+data.length)}
      (bisectLeft s.imageOffsets s.readptr+1)
      (bisectLeft offsets (s.readptr+data.length)) =
        run delPoint (s.laid target backing data) (s.covered data) :=
    deletePoints_eq _ hs hb
  rw [← hd,map_eq_bind,write,htg]
  rfl

/-- What a write leaves: the points of its range, and all other points as they were. -/
structure Written (map next : Map) (target : Urn) (backing data : Bytes) : Prop where
  listed : next.Listed
  readptr : next.readptr = map.readptr + data.length
  size : next.size = max map.size (map.readptr + data.length)
  imagePeriod : next.imagePeriod = map.imagePeriod
  targetPeriod : next.targetPeriod = map.targetPeriod
  start : data ≠ [] → next.points map.readptr = some
    (if map.readptr ∈ map.covered data then none else some (target,backing.length - map.readptr))
  inside : ∀ q, map.readptr < q → q < map.readptr + data.length → next.points q = none
  stop : next.points (map.readptr + data.length) =
    some (some (nullUrn,-(map.readptr + data.length)))
  outside : ∀ q, q < map.readptr ∨ map.readptr + data.length < q → next.points q = map.points q

lemma without_listed (h : s.Listed) (xs : List Int) : (s.without xs).Listed := by
  refine ⟨h.sorted,h.zero,fun q => ?_,h.imagePeriod,h.targetPeriod⟩
  simp only [without]
  split
  · simp
  · exact h.keys q

lemma laid_listed (h : s.Listed) (hp : 0 ≤ s.readptr) : (s.laid target backing data).Listed := by
  refine ⟨splice_sorted h.sorted (by omega),mem_splice.mpr ?_,fun q => ?_,
    h.imagePeriod,h.targetPeriod⟩
  · by_cases hz : s.readptr = 0
    · exact .inl hz.symm
    · exact .inr (.inr ⟨h.zero,.inl (by omega)⟩)
  · simp only [laid,update]
    split_ifs
    · simp
    · simp
    · exact h.keys q

lemma laid_written (h : s.Listed) (hp : 0 ≤ s.readptr) :
    s.Written {(s.laid target backing data).without (s.covered data) with
      size := max s.size (s.readptr+data.length)} target backing data := by
  have hld : (s.laid target backing data).Listed := laid_listed h hp
  have hl := without_listed hld (s.covered data)
  have hc : ∀ {q}, q ∈ s.covered data →
      s.readptr ≤ q ∧ q < s.readptr+data.length := fun hq => (mem_between_lt hq).2
  refine ⟨⟨hl.sorted,hl.zero,hl.keys,hl.imagePeriod,hl.targetPeriod⟩,
    rfl,rfl,rfl,rfl,fun hd => ?_,fun q hq hqe => ?_,?_,fun q hq => ?_⟩
  · have hps : 0 < data.length := length_pos_iff.mpr hd
    have hne : s.readptr ≠ s.readptr+data.length := by omega
    simp only [points,line,without,laid,mem_splice,true_or,if_true,some.injEq]
    split
    · rfl
    · simp [update,hne]
  · simp only [points,laid,without,mem_splice]
    rw [if_neg (by omega)]
  · have hn : s.readptr+data.length ∉ s.covered data := fun hq => by
      have := hc hq
      omega
    simp [points,line,without,laid,mem_splice,hn]
  · have hn : q ∉ s.covered data := fun hm => by
      have := hc hm
      omega
    have hqp : q ≠ s.readptr := by omega
    have hqe : q ≠ s.readptr+data.length := by omega
    simp [points,line,without,laid,mem_splice,hn,hqp,hqe,update,hq]

structure Deletes (map : Map) (data : Bytes) : Prop where
  nodup : (map.covered data).Nodup
  targets : ∀ q ∈ map.covered data, q ≠ map.readptr → map.targetUrns q ≠ none

lemma write_returns_iff (h : s.Listed) (hp : 0 ≤ s.readptr)
    (htg : attributes.target = some target) {r : Map × Bytes} :
    s.write attributes backing data = some r ↔ s.Deletes data ∧
      r = ({(s.laid target backing data).without (s.covered data) with
        size := max s.size (s.readptr+data.length)},backing ++ data) := by
  have hk : (∀ q ∈ s.covered data, (s.laid target backing data).targetOffsets q ≠ none ∧
      (s.laid target backing data).targetUrns q ≠ none) ↔
      ∀ q ∈ s.covered data, q ≠ s.readptr → s.targetUrns q ≠ none := by
    refine forall₂_congr fun q hq => ?_
    have hqe : q ≠ s.readptr+data.length := (mem_between_lt hq).2.2.ne
    have hl : (s.laid target backing data).Listed := laid_listed h hp
    rw [ne_eq,hl.keys q,and_self]
    by_cases hqp : q = s.readptr
    · have hu : (s.laid target backing data).targetUrns q = some target :=
        (update_of_ne hqe _ _).trans (hqp ▸ update_self _ _ _)
      exact iff_of_true (by simp [hu]) fun hne => absurd hqp hne
    · simp [laid,update,hqe,hqp]
  rw [write_eq h htg,map_eq_some_iff]
  simp only [run_delPoint_eq_some,hk]
  constructor
  · rintro ⟨_,⟨hd,rfl⟩,rfl⟩
    exact ⟨⟨hd.1,hd.2⟩,rfl⟩
  · rintro ⟨hd,rfl⟩
    exact ⟨_,⟨⟨hd.nodup,hd.targets⟩,rfl⟩,rfl⟩

/-! ### What is read after a write -/

section

variable {others : Oracle} {x : Int}

def Untouched (self : Map) (data : Bytes) (offset : Int) : Prop :=
  offset < self.readptr ∨ ∃ q ∈ self.imageOffsets, self.readptr + data.length < q ∧ q ≤ offset

lemma fetch_of_rules (h : s.Listed) (oracle : Oracle) {v : Option (Urn × Int)}
    (hv : ∀ w, Breakpoints.Rules s.points (x%s.imagePeriod) w → w = v) :
    s.fetch oracle x = v.bind fun r => (oracle r.1).bind fun stream =>
      stream (r.2+x%s.imagePeriod+x/s.imagePeriod*s.targetPeriod) 1 := by
  obtain ⟨w,hw,hl⟩ := lookup_eq h (emod_nonneg x h.imagePeriod.ne')
  rw [fetch_eq h,resolve_eq h,hl,← hv w hw]
  cases w <;> rfl

section

variable (hw : s.Written next target backing data)
include hw

lemma fetch_inside (h : s.Listed)
    (hne : target ≠ nullUrn) (hx : 0 ≤ x) (hs : s.readptr ≤ x%s.imagePeriod)
    (hst : x%s.imagePeriod < s.readptr+data.length) :
    next.fetch (opened others target (backing ++ data)) x = if s.readptr ∈ s.covered data then none
      else some data[(x%s.imagePeriod+x/s.imagePeriod*s.targetPeriod -
        s.readptr).toNat]?.toList := by
  have hd : data ≠ [] := by
    rintro rfl
    simp only [length_nil] at hst
    omega
  rw [fetch_of_rules hw.listed _ fun w hr =>
    (rules_iff_of_gap (hw.imagePeriod ▸ hs) (hw.start hd)
      (fun q hq hqx => hw.inside q hq (by rw [hw.imagePeriod] at hqx; omega)) w).mp hr]
  split
  · rfl
  · have hdv := mul_nonneg (ediv_nonneg hx h.imagePeriod.le) h.targetPeriod.le
    rw [bind_some,opened,if_neg hne,if_pos rfl,bind_some,hw.imagePeriod,
      hw.targetPeriod,imageReader_one _ (by omega),getElem?_append_right (by omega)]
    congr 4
    omega

lemma fetch_behind (hs : s.readptr+data.length ≤ x%s.imagePeriod)
    (hg : ∀ q ∈ s.imageOffsets, s.readptr+data.length < q → x%s.imagePeriod < q) :
    next.fetch (opened others target (backing ++ data)) x = some [0] := by
  rw [fetch_of_rules hw.listed _ fun w hr =>
    (rules_iff_of_gap (hw.imagePeriod ▸ hs) hw.stop (fun q hq hqx => ?_) w).mp hr]
  · simp [opened,padReader]
  · rw [hw.outside q (.inr hq)]
    by_contra hne
    have := hg q (points_ne_none.mp hne) hq
    rw [hw.imagePeriod] at hqx
    omega

lemma fetch_untouched (h : s.Listed) (hun : s.Untouched data (x%s.imagePeriod)) (oracle : Oracle) :
    next.fetch oracle x = s.fetch oracle x := by
  obtain ⟨v,hv,_⟩ := lookup_eq h (emod_nonneg x h.imagePeriod.ne')
  have hr : ∀ w, Breakpoints.Rules next.points (x%next.imagePeriod) w ↔
      Breakpoints.Rules s.points (x%s.imagePeriod) w := by
    intro w
    rw [hw.imagePeriod]
    rcases hun with hlt | ⟨q,hq,hqe,hqx⟩
    · exact rules_congr_below (fun q hq => hw.outside q (.inl (by omega))) w
    · exact rules_congr_above (fun q hq => hw.outside q (.inr hq)) hqe hqx
        (points_ne_none.mpr hq) w
  rw [fetch_of_rules hw.listed oracle fun w hw' => rules_unique ((hr w).mp hw') hv,
    fetch_of_rules h oracle fun w hw' => rules_unique hw' hv,hw.imagePeriod,
    hw.targetPeriod]

end

lemma fetch_append (h : s.Listed) {y : UInt8}
    (hf : s.fetch (opened others target backing) x = some [y]) (data : Bytes) :
    s.fetch (opened others target (backing ++ data)) x = some [y] := by
  rw [fetch_eq h] at hf ⊢
  cases hr : s.resolve x with
  | none => simp [hr] at hf
  | some r =>
    simp only [hr,bind_some,opened] at hf ⊢
    split_ifs at hf ⊢
    · exact hf
    · exact imageReader_append data hf
    · exact hf

lemma untouched_cases (s : Map) (data : Bytes) (offset : Int) :
    (s.readptr ≤ offset ∧ offset < s.readptr+data.length) ∨ (s.readptr+data.length ≤ offset ∧
        ∀ q ∈ s.imageOffsets, s.readptr+data.length < q → offset < q) ∨
      s.Untouched data offset := by
  by_cases hlt : offset < s.readptr
  · exact .inr (.inr (.inl hlt))
  · by_cases hin : offset < s.readptr+data.length
    · exact .inl ⟨by omega,hin⟩
    · by_cases hq : ∃ q ∈ s.imageOffsets, s.readptr+data.length < q ∧ q ≤ offset
      · exact .inr (.inr (.inr hq))
      · refine .inr (.inl ⟨by omega,fun q hm hqe => ?_⟩)
        by_contra hle
        exact hq ⟨q,hm,hqe,by omega⟩

end

/-! ### Runs -/

def ReadsBack (self : Map) (oracle : Oracle) (content : Sparse) : Prop :=
  ∀ x, 0 ≤ x → x < self.size → ((self.seek x 0).read oracle 1).map Prod.fst = some [content.byte x]

/-- When a write of `data` to a map that reads as `content` leaves one that reads as it should. An
offset beyond the image period is looked up at another one, `x % map.imagePeriod`. -/
structure Keeps (map : Map) (others : Oracle) (target : Urn) (backing : Bytes) (content : Sparse)
    (data : Bytes) : Prop where
  deletes : map.Deletes data
  once : data ≠ [] → map.readptr < map.imagePeriod → map.readptr ∉ map.covered data
  folded : ∀ x, map.imagePeriod ≤ x → x < (content.write data).size →
    map.readptr ≤ x%map.imagePeriod → x%map.imagePeriod < map.readptr + data.length →
      data[(x%map.imagePeriod + x/map.imagePeriod*map.targetPeriod - map.readptr).toNat]? =
        some ((content.write data).byte x)
  behind : ∀ x, 0 ≤ x → x < content.size → map.readptr + data.length ≤ x%map.imagePeriod →
    (∀ q ∈ map.imageOffsets, map.readptr + data.length < q → x%map.imagePeriod < q) →
      content.byte x = 0
  elsewhere : ∀ x, 0 ≤ x → x < (content.write data).size →
    map.Untouched data (x%map.imagePeriod) →
      map.readptr ≤ x ∧ x < map.readptr + data.length ∨ content.size ≤ x →
        map.fetch (opened others target (backing ++ data)) x = some [(content.write data).byte x]

section

variable {others : Oracle} {content : Sparse}

structure Tracks (map : Map) (content : Sparse) : Prop where
  listed : map.Listed
  readptr : map.readptr = content.readptr
  nonneg : 0 ≤ content.readptr
  size : map.size = content.size

lemma readsBack_iff (oracle : Oracle) : s.ReadsBack oracle content ↔
    ∀ x, 0 ≤ x → x < s.size → s.fetch oracle x = some [content.byte x] :=
  forall₃_congr fun _ _ hx => by rw [read_one oracle hx]

lemma write_byte_inside (ht : s.Tracks content) {x : Int} (hx : s.readptr ≤ x)
    (hlt : x < s.readptr+data.length) :
    data[(x-s.readptr).toNat]? = some ((content.write data).byte x) := by
  have hin : (x-s.readptr).toNat < data.length := by omega
  rw [ht.readptr] at hx hlt hin ⊢
  simp [Sparse.write,hx,hlt,getElem?_eq_getElem hin]

lemma write_byte_outside (ht : s.Tracks content) {x : Int}
    (hx : ¬ (s.readptr ≤ x ∧ x < s.readptr+data.length)) :
    (content.write data).byte x = content.byte x := by
  rw [ht.readptr] at hx
  exact if_neg hx

lemma fetch_inside_iff (hw : s.Written next target backing data) (ht : s.Tracks content)
    (hne : target ≠ nullUrn) {x : Int} (hx : 0 ≤ x) (hs : s.readptr ≤ x%s.imagePeriod)
    (hst : x%s.imagePeriod < s.readptr+data.length) (y : UInt8) :
    next.fetch (opened others target (backing ++ data)) x = some [y] ↔ s.readptr ∉ s.covered data ∧
        data[(x%s.imagePeriod+x/s.imagePeriod*s.targetPeriod-s.readptr).toNat]? = some y := by
  rw [fetch_inside hw ht.listed hne hx hs hst]
  split
  · next hc => simp [hc]
  · next hc =>
    simp only [some.injEq,hc,not_false_eq_true,true_and]
    cases data[(x%s.imagePeriod+x/s.imagePeriod*s.targetPeriod - s.readptr).toNat]? <;> simp

section

variable (ht : s.Tracks content)
include ht

lemma Tracks.emod_le {x : Int} (hx : 0 ≤ x) : x%s.imagePeriod ≤ x := by
  have hd := mul_nonneg ht.listed.imagePeriod.le (ediv_nonneg hx ht.listed.imagePeriod.le)
  have := mul_ediv_add_emod x s.imagePeriod
  omega

lemma Tracks.write_size : (content.write data).size = max content.size (s.readptr+data.length) := by
  rw [ht.readptr]
  rfl

lemma written_size (hw : s.Written next target backing data) : next.size =
    (content.write data).size := by
  rw [hw.size,ht.size,ht.readptr]
  rfl

lemma keeps_of_readsBack (hne : target ≠ nullUrn)
    (hw : s.Written next target backing data) (hd : s.Deletes data)
    (hn : next.ReadsBack (opened others target (backing ++ data)) (content.write data)) :
    s.Keeps others target backing content data := by
  have hp : 0 ≤ s.readptr := ht.readptr ▸ ht.nonneg
  have hm : (content.write data).size = _ := ht.write_size
  rw [readsBack_iff,written_size ht hw] at hn
  refine ⟨hd,fun hdt hpr => ?_,fun x hx hlt hst hs => ?_,
    fun x hx hlt hs hg => ?_,fun x hx hlt hun _ => ?_⟩
  · have hps : 0 < data.length := length_pos_iff.mpr hdt
    have hsl : s.readptr%s.imagePeriod = s.readptr := emod_eq_of_lt hp hpr
    exact ((fetch_inside_iff hw ht hne hp hsl.ge (by omega) _).mp
      (hn s.readptr hp (by omega))).1
  · have hx := ht.listed.imagePeriod.le.trans hx
    exact ((fetch_inside_iff hw ht hne hx hst hs _).mp (hn x hx hlt)).2
  · have := ht.emod_le hx
    have hf := hn x hx (by omega)
    rw [fetch_behind hw hs hg,write_byte_outside ht (by omega)] at hf
    simpa using hf.symm
  · rw [← fetch_untouched hw ht.listed hun]
    exact hn x hx hlt

lemma readsBack_of_keeps (hne : target ≠ nullUrn)
    (hr : s.ReadsBack (opened others target backing) content)
    (hw : s.Written next target backing data)
    (hk : s.Keeps others target backing content data) :
    next.ReadsBack (opened others target (backing ++ data)) (content.write data) := by
  have hm : (content.write data).size = _ := ht.write_size
  rw [readsBack_iff,ht.size] at hr
  rw [readsBack_iff,written_size ht hw]
  intro x hx hlt
  have := ht.emod_le hx
  rcases untouched_cases s data (x%s.imagePeriod) with
    ⟨hst,hs⟩ | ⟨hs,hg⟩ | hun
  · have hl : data ≠ [] := by
      rintro rfl
      simp only [length_nil] at hs
      omega
    have hp := emod_lt_of_pos x ht.listed.imagePeriod
    refine (fetch_inside_iff hw ht hne hx hst hs _).mpr
      ⟨hk.once hl (by omega),?_⟩
    by_cases hf : x < s.imagePeriod
    · -- in the first period the offset is looked up where it was written
      rw [emod_eq_of_lt hx hf] at hst hs ⊢
      rw [ediv_eq_zero_of_lt hx hf,zero_mul,add_zero]
      exact write_byte_inside ht hst hs
    · exact hk.folded x (by omega) hlt hst hs
  · rw [fetch_behind hw hs hg,write_byte_outside ht (by omega),hk.behind x hx (by omega) hs hg]
  · rw [fetch_untouched hw ht.listed hun]
    by_cases hn : s.readptr ≤ x ∧ x < s.readptr+data.length ∨ content.size ≤ x
    · exact hk.elsewhere x hx hlt hun hn
    · rw [write_byte_outside ht (by omega)]
      exact fetch_append ht.listed (hr x hx (by omega)) data

lemma write_readsBack_iff (hne : target ≠ nullUrn)
    (hr : s.ReadsBack (opened others target backing) content)
    (hw : s.Written next target backing data) (hd : s.Deletes data) :
    next.ReadsBack (opened others target (backing ++ data)) (content.write data) ↔
      s.Keeps others target backing content data :=
  ⟨keeps_of_readsBack ht hne hw hd,readsBack_of_keeps ht hne hr hw⟩

lemma seek_tracks {offset whence : Int} (hn : 0 ≤ (content.seek offset whence).readptr) :
    (s.seek offset whence).Tracks (content.seek offset whence) := by
  refine ⟨seek_listed ht.listed offset whence,?_,hn,ht.size⟩
  simp [seek,Sparse.seek,ht.readptr,ht.size]

lemma written_tracks (hw : s.Written next target backing data) :
    next.Tracks (content.write data) := by
  refine ⟨hw.listed,hw.readptr.trans (by rw [ht.readptr]; rfl),?_,
    hw.size.trans (by rw [ht.size,ht.readptr]; rfl)⟩
  have := ht.nonneg
  simp only [Sparse.write]
  omega

end

lemma seek_readsBack (oracle : Oracle) (offset whence : Int) :
    (s.seek offset whence).ReadsBack oracle (content.seek offset whence) ↔
      s.ReadsBack oracle content := Iff.rfl

end

/-- A map that was written to reads as the latest write of every byte, all along, exactly when
every write meets the condition in the state it is made in. -/
theorem sparse_reads_iff {others : Oracle} (he : attributes.size = 0)
    (htg : attributes.target = some target) (hne : target ≠ nullUrn) (backing : Bytes)
    {ops : List SparseOp} (hsk : ∀ front, front <+: ops → 0 ≤ (Sparse.after front).readptr) :
    (∀ front, front <+: ops → ∃ state,
        run (op attributes) (init attributes,backing) front = some state ∧
          state.1.ReadsBack (opened others target state.2) (Sparse.after front)) ↔
      ∀ front data, front ++ [.write data] <+: ops → ∀ state,
        run (op attributes) (init attributes,backing) front = some state →
          state.1.Keeps others target state.2 (Sparse.after front) data := by
  have ha : ∀ front e, Sparse.after (front ++ [e]) = (Sparse.after front).op e := by
    simp [Sparse.after]
  have hwr : ∀ {map : Map} {b data : Bytes} {content : Sparse} {state : Map × Bytes},
      map.Tracks content → map.write attributes b data = some state →
        map.Written state.1 target b data ∧ state.2 = b ++ data ∧ map.Deletes data := by
    intro map b data content state ht hw
    have hp : 0 ≤ map.readptr := ht.readptr ▸ ht.nonneg
    obtain ⟨hd,rfl⟩ := (write_returns_iff ht.listed hp htg).mp hw
    exact ⟨laid_written ht.listed hp,rfl,hd⟩
  refine (prefixes_iff (P := fun front e => 0 ≤ (Sparse.after (front ++ [e])).readptr)
    (I := fun front (state : Map × Bytes) => state.1.Tracks (Sparse.after front))
    (G := fun front (state : Map × Bytes) =>
      state.1.ReadsBack (opened others target state.2) (Sparse.after front))
    (C := fun front (state : Map × Bytes) e => ∀ data, e = .write data →
      state.1.Keeps others target state.2 (Sparse.after front) data)
    ?_ ?_ ?_ ?_ fun front e hf => hsk _ hf).trans ?_
  · exact ⟨init_listed attributes,rfl,le_rfl,congrArg Nat.cast he⟩
  · intro x hx hlt
    simp only [init,he] at hlt
    omega
  · rintro front (⟨offset,whence⟩ | data) ⟨map,b⟩ state hn ht hs
    · cases hs
      rw [ha] at hn ⊢
      exact seek_tracks ht hn
    · rw [ha]
      exact written_tracks ht (hwr ht hs).1
  · rintro front (⟨offset,whence⟩ | data) ⟨map,b⟩ hn ht hr
    · refine iff_of_true ⟨_,rfl,?_⟩ fun data h => by cases h
      rw [ha]
      exact (seek_readsBack _ offset whence).mpr hr
    · rw [ha]
      constructor
      · rintro ⟨state,hs,hnx⟩ _ ⟨⟩
        obtain ⟨hw,hb,hd⟩ := hwr ht hs
        rw [hb] at hnx
        exact (write_readsBack_iff ht hne hr hw hd).mp hnx
      · intro hk
        have hk := hk data rfl
        have hp : 0 ≤ map.readptr := ht.readptr ▸ ht.nonneg
        refine ⟨_,(write_returns_iff ht.listed hp htg).mpr ⟨hk.deletes,rfl⟩,?_⟩
        exact (write_readsBack_iff ht hne hr (laid_written ht.listed hp)
          hk.deletes).mpr hk
  · constructor
    · intro h front data hf state hst
      exact h front _ hf state hst data rfl
    · rintro h front _ hf state hst data rfl
      exact h front data hf state hst

def sparseAttributes (targetSize : Nat) : MapAttributes := ⟨some (chars ['i']),0,0,0,0,targetSize⟩

def noOthers : Oracle := fun _ => none

def gapOps : List SparseOp := [.write [1,2],.seek 1 1,.write [3]]

lemma gap_keeps {front : List SparseOp} {data : Bytes}
    (hf : front ++ [.write data] <+: gapOps) {state : Map × Bytes}
    (hs : run (op (sparseAttributes 100)) (init (sparseAttributes 100),[]) front = some state) :
    state.1.Keeps noOthers (chars ['i']) state.2 (Sparse.after front) data := by
  match front, hf with
  | [], hf =>
    obtain rfl : data = [1,2] := by simpa [gapOps] using hf
    cases hs
    refine ⟨⟨by decide +kernel,by decide +kernel⟩,by decide +kernel,fun x hx hlt => ?_,
      fun x hx hlt => ?_,fun x hx _ hun => ?_⟩
    · have h2 : x < 2 := lt_of_lt_of_eq hlt (by decide +kernel)
      have h100 : 100 ≤ x := le_of_eq_of_le (by decide +kernel) hx
      omega
    · have h0 : x < 0 := lt_of_lt_of_eq hlt (by decide +kernel)
      omega
    · have hn : ∀ q ∈ (init (sparseAttributes 100)).imageOffsets, ¬ 2 < q := by decide +kernel
      rcases hun with hng | ⟨q,hq,hlt,_⟩
      · have hng : x%100 < 0 := hng
        omega
      · exact absurd hlt (hn q hq)
  | [_], hf => simp [gapOps] at hf
  | [a,b], hf =>
    obtain ⟨rfl,rfl,rfl⟩ : a = .write [1,2] ∧ b = .seek 1 1 ∧ data = [3] := by
      simpa [gapOps,and_assoc] using hf
    cases hs
    refine ⟨⟨by decide +kernel,by decide +kernel⟩,by decide +kernel,fun x hx hlt => ?_,
      fun x hx hlt hst => ?_,fun x hx hlt hun hnw => ?_⟩
    · have h4 : x < 4 := lt_of_lt_of_eq hlt (by decide +kernel)
      have h100 : 100 ≤ x := le_of_eq_of_le (by decide +kernel) hx
      omega
    · have h2 : x < 2 := lt_of_lt_of_eq hlt (by decide +kernel)
      have h4 : 4 ≤ x%100 := le_of_eq_of_le (by decide +kernel) hst
      omega
    · -- the gap: offset 2 is mapped to the null stream
      have h4 : x < 4 := lt_of_lt_of_eq hlt (by decide +kernel)
      have hnw : 3 ≤ x ∧ x < 4 ∨ 2 ≤ x := hnw
      rcases hun with hl | ⟨q,hq,hlt,hqx⟩
      · have hl : x%100 < 3 := hl
        obtain rfl : x = 2 := by omega
        decide +kernel
      · have hqx : q ≤ x%100 := hqx
        have hlt : 4 < q := hlt
        omega
  | _ :: _ :: _ :: rest, hf => simp [gapOps] at hf

theorem gap_reads : ∃ state,
    run (op (sparseAttributes 100)) (init (sparseAttributes 100),[]) gapOps = some state ∧
      state.1.ReadsBack (opened noOthers (chars ['i']) state.2) (Sparse.after gapOps) := by
  have hs : ∀ front ∈ gapOps.inits, 0 ≤ (Sparse.after front).readptr := by decide +kernel
  refine (sparse_reads_iff rfl rfl (by decide) [] fun front hf =>
    hs front ((mem_inits _ _).mpr hf)).mpr ?_ gapOps prefix_rfl
  exact fun front data hf state hst => gap_keeps hf hst

def overwriteOps : List SparseOp := [.write [1,2],.seek 0 0,.write [3]]

def readOverwritten (targetSize : Nat) (x : Int) : Option Bytes :=
  (run (op (sparseAttributes targetSize)) (init (sparseAttributes targetSize),[]) overwriteOps).bind
    fun state => ((state.1.seek x 0).read (opened noOthers (chars ['i']) state.2) 1).map Prod.fst

theorem overwritten_tail_fails : (Sparse.after overwriteOps).byte 1 = 2 ∧
    readOverwritten 0 1 = some [] ∧ readOverwritten 100 1 = some [0] := by
  decide +kernel

end Map

end Aff4.Python
