import Aff4.Lib.Text
import Aff4.PyMap

/-! Closing a map of aff4.py and opening it again. `Map.close` writes a line for each point that the
one before does not predict, to an attribute or a segment; `Map.__init__` parses it. -/

namespace Aff4.Python

open LittleEndian Bisect Text List Option

structure StringEscape where
  encode : Bytes → Bytes
  decode : Bytes → Option Bytes
  decode_encode : ∀ text, decode (encode text) = some text
  encode_ne_nil : ∀ text, text ≠ [] → encode text ≠ []

/-- What is kept of a map: its attributes, `AFF4_MAP_DATA` among them, and the segment `map`. No
stream of an earlier segment is in the resolver's read cache. -/
structure StoredMap where
  attributes : MapAttributes
  mapData : Option Bytes
  segment : Option Bytes

def comma : UInt8 := 44

def mapLine (x targetOffset : Int) (urn : Urn) : Bytes :=
  printInt x ++ comma :: (printInt targetOffset ++ comma :: urn)

/-- `(\d+),` at the beginning of a text: the digits, and what comes after the comma. -/
def matchNumber (text : Bytes) : Option (Bytes × Bytes) :=
  match text.takeWhile isDigit, text.dropWhile isDigit with
  | [], _ => none
  | _ :: _, [] => none
  | d :: ds, c :: rest => if c = comma then some (d :: ds,rest) else none

/-- `line_re.match(line)` for `(\d+),(\d+),(.+)`. -/
def matchLine (line : Bytes) : Option (Bytes × Bytes × Bytes) := do
  let (first,rest) ← matchNumber line
  let (second,rest) ← matchNumber rest
  let third := rest.takeWhile (· != newline)
  if third = [] then none else some (first,second,third)

namespace Map

open Transition

def predicts (self : Map) (previous x : Int) : Option Bool := do
  let urn ← self.targetUrns previous
  let urnAtPoint ← self.targetUrns x
  if urn = urnAtPoint then
    let targetOffset ← self.targetOffsets previous
    let targetOffsetAtPoint ← self.targetOffsets x
    some (x - previous + targetOffset = targetOffsetAtPoint)
  else some false

def closeStep (self : Map) (state : Option Int × Bytes) (x : Int) :
    Option (Option Int × Bytes) := do
  let redundant ← match state.1 with
    | none => some false
    | some previous => self.predicts previous x
  if redundant then some state
  else
    let targetOffset ← self.targetOffsets x
    let urn ← self.targetUrns x
    some (some x,state.2 ++ (mapLine x targetOffset urn ++ [newline]))

def serialise (self : Map) : Option Bytes :=
  (run self.closeStep (none,[]) self.imageOffsets).map Prod.snd

def close (codec : StringEscape) (self : Map) (store : StoredMap) : Option StoredMap :=
  self.serialise.map fun text =>
    let attributes := {store.attributes with size := self.size.toNat}
    if text.length < 1000 then
      {store with attributes := attributes, mapData := some (codec.encode text)}
    else {store with attributes := attributes, segment := some text}

/-- The local variables of `Map.__init__` when it comes to parsing. `line_re` and `fd` have no
value if the map is an attribute. -/
structure Locals where
  mapData : Bytes
  lineRe : Option (Bytes → Option (Bytes × Bytes × Bytes))
  fd : Option Bytes

def locals (codec : StringEscape) (store : StoredMap) : Option Locals :=
  let mapData := store.mapData.getD []
  if mapData ≠ [] then (codec.decode mapData).map fun data => ⟨data,none,none⟩
  else store.segment.map fun data => ⟨data,some matchLine,some data⟩

/-- A line that does not match is passed over. -/
def parseLine (targetUrn : Option Urn) (lineRe : Option (Bytes → Option (Bytes × Bytes × Bytes)))
    (self : Map) (line : Bytes) : Option Map :=
  lineRe.map fun re =>
    match re line with
    | none => self
    | some (first,second,third) =>
        (self.add (numeral first) (numeral second)
          (if third = atUrn then targetUrn.getD [] else third)).1

/-- `Map.__init__` in mode `r`. The stream `fd` is returned to the cache in any case. -/
def openRead (codec : StringEscape) (store : StoredMap) : Option Map := do
  let vars ← locals codec store
  let _ ← vars.fd
  run (parseLine store.attributes.target vars.lineRe) (init store.attributes)
    (splitLines vars.mapData)

inductive BuildOp where
  | add (imageOffset targetOffset : Int) (targetUrn : Urn)
  | writeFrom (targetUrn : Urn) (targetOffset targetLength : Int)

def build (self : Map) : BuildOp → Map
  | .add imageOffset targetOffset targetUrn => (self.add imageOffset targetOffset targetUrn).1
  | .writeFrom targetUrn targetOffset targetLength =>
      self.writeFrom targetUrn targetOffset targetLength

def built (attributes : MapAttributes) (ops : List BuildOp) : Map :=
  ops.foldl build (init attributes)

def Plain (urn : Urn) : Prop := urn ≠ [] ∧ urn ≠ atUrn ∧ SingleLine urn

/-- Every point is at an offset from 0, and has a target that a line can hold and an offset
from 0 there. A new map has a point at 0 for `@`, so one has been put in its place. -/
def Portable (self : Map) : Prop := ∀ q ∈ self.imageOffsets, 0 ≤ q ∧ ∃ urn targetOffset,
  self.targetUrns q = some urn ∧ self.targetOffsets q = some targetOffset ∧
    0 ≤ targetOffset ∧ Plain urn

/-! ### Points -/

variable {self : Map}

lemma add_listed (h : self.Listed) (imageOffset targetOffset : Int) (targetUrn : Urn) :
    (self.add imageOffset targetOffset targetUrn).1.Listed := by
  refine ⟨insort_sorted h.sorted imageOffset,(mem_insort h.sorted).mpr (.inr h.zero),fun q => ?_,
    h.imagePeriod,h.targetPeriod⟩
  by_cases hq : q = imageOffset
  · simp [add,hq]
  · simpa [add,hq] using h.keys q

lemma add_points (h : self.Listed) (imageOffset targetOffset : Int) (targetUrn : Urn) (q : Int) :
    (self.add imageOffset targetOffset targetUrn).1.points q =
      if q = imageOffset then some (some (targetUrn,targetOffset-imageOffset))
      else self.points q := by
  by_cases hq : q = imageOffset
  · simp [points,add,line,mem_insort h.sorted,hq]
  · simp [points,add,line,mem_insort h.sorted,hq]

lemma build_strict (hs : self.imageOffsets.Pairwise (· < ·)) (op : BuildOp) :
    (self.build op).imageOffsets.Pairwise (· < ·) := by
  cases op <;> exact insort_strict hs _

lemma build_listed (h : self.Listed) (op : BuildOp) : (self.build op).Listed := by
  cases op with
  | add imageOffset targetOffset targetUrn => exact add_listed h _ _ _
  | writeFrom targetUrn targetOffset targetLength =>
    have ha := add_listed h self.readptr targetOffset targetUrn
    exact ⟨ha.sorted,ha.zero,ha.keys,ha.imagePeriod,ha.targetPeriod⟩

lemma built_listed (attributes : MapAttributes) (ops : List BuildOp) :
    (built attributes ops).Listed ∧ (built attributes ops).imageOffsets.Pairwise (· < ·) := by
  induction ops using reverseRecOn with
  | nil => exact ⟨init_listed attributes,by simp [built,init]⟩
  | append_singleton ops op ih =>
    rw [built,foldl_append]
    exact ⟨build_listed ih.1 op,build_strict ih.2 op⟩

/-! ### The text -/

def text (self : Map) (q : Int) : Bytes :=
  mapLine q ((self.targetOffsets q).getD 0) ((self.targetUrns q).getD [])

def kept (self : Map) : Option Int → List Int → List Int
  | _, [] => []
  | previous, x :: xs =>
      if previous.map self.line = some (self.line x) then self.kept previous xs
      else x :: self.kept (some x) xs

def Complete (self : Map) : Prop := ∀ q ∈ self.imageOffsets, ∃ urn targetOffset,
  self.targetUrns q = some urn ∧ self.targetOffsets q = some targetOffset

lemma Portable.complete (h : self.Portable) : self.Complete := by
  intro q hq
  obtain ⟨_,urn,targetOffset,hu,ho,_⟩ := h q hq
  exact ⟨urn,targetOffset,hu,ho⟩

section

variable (h : self.Complete)
variable {x : Int}

include h

lemma predicts_eq {p : Int} (hp : p ∈ self.imageOffsets) (hx : x ∈ self.imageOffsets) :
    self.predicts p x = some (decide (self.line p = self.line x)) := by
  obtain ⟨urn,offset,hu,ho⟩ := h p hp
  obtain ⟨urn',offset',hu',ho'⟩ := h x hx
  simp only [predicts,line,hu,hu',ho,ho',bind_eq_bind,bind_some,some.injEq,Prod.mk.injEq]
  by_cases heq : urn = urn'
  · simp only [heq,if_true,true_and,some.injEq,decide_eq_decide]
    omega
  · simp [heq]

lemma closeStep_eq {previous : Option Int}
    (hp : ∀ p ∈ previous, p ∈ self.imageOffsets) (hx : x ∈ self.imageOffsets) (front : Bytes) :
    self.closeStep (previous,front) x =
      if previous.map self.line = some (self.line x) then some (previous,front)
      else some (some x,front ++ (self.text x ++ [newline])) := by
  obtain ⟨urn,offset,hu,ho⟩ := h x hx
  cases previous with
  | none => simp [closeStep,text,hu,ho]
  | some p =>
    by_cases heq : self.line p = self.line x
    · simp [closeStep,predicts_eq h (hp p rfl) hx,heq]
    · simp [closeStep,predicts_eq h (hp p rfl) hx,heq,text,hu,ho]

lemma run_closeStep {xs : List Int} (hxs : ∀ x ∈ xs, x ∈ self.imageOffsets)
    (previous : Option Int) (hp : ∀ p ∈ previous, p ∈ self.imageOffsets) (front : Bytes) :
    ∃ last, run self.closeStep (previous,front) xs = some (last,front ++
      ((self.kept previous xs).map self.text).flatMap fun line => line ++ [newline]) := by
  induction xs generalizing previous front with
  | nil => exact ⟨previous,by simp [run,kept]⟩
  | cons x xs ih =>
    obtain ⟨hx,hxs⟩ := forall_mem_cons.mp hxs
    rw [run,closeStep_eq h hp hx,kept]
    split
    · exact ih hxs previous hp front
    · obtain ⟨last,hl⟩ := ih hxs (some x) (by simpa using hx) (front ++ (self.text x ++ [newline]))
      exact ⟨last,by simpa using hl⟩

lemma serialise_eq : self.serialise = some
    (((self.kept none self.imageOffsets).map self.text).flatMap fun line => line ++ [newline]) := by
  obtain ⟨last,hl⟩ := run_closeStep h (fun x hx => hx) none (by simp) []
  rw [serialise,hl]
  rfl

end

lemma kept_sublist (s : Map) (previous : Option Int) (xs : List Int) :
    (s.kept previous xs).Sublist xs := by
  induction xs generalizing previous with
  | nil => exact .slnil
  | cons x xs ih =>
    rw [kept]
    split
    · exact (ih previous).cons x
    · exact (ih (some x)).cons_cons x

variable {xs : List Int} {q : Int} {urn : Urn} {next : Map}

lemma kept_subset {previous : Option Int} (hq : q ∈ self.kept previous xs) : q ∈ xs :=
  (kept_sublist self previous xs).subset hq

lemma kept_line (s : Map) (previous : Option Int) (hxs : xs.Pairwise (· < ·))
    (hp : ∀ p ∈ previous, ∀ x ∈ xs, p < x) {d : Int} (hd : d ∈ xs) :
    ∃ p, (p ∈ previous ∨ p ∈ s.kept previous xs) ∧ p ≤ d ∧ s.line p = s.line d ∧
      ∀ k ∈ s.kept previous xs, k ≤ d → k ≤ p := by
  induction xs generalizing previous with
  | nil => simp at hd
  | cons x xs ih =>
    obtain ⟨hx,hxs⟩ := pairwise_cons.mp hxs
    rw [kept]
    split
    · next hl =>
      rcases mem_cons.mp hd with rfl | hd
      · obtain ⟨p,rfl,hpx⟩ := map_eq_some_iff.mp hl
        refine ⟨p,.inl rfl,(hp p rfl d mem_cons_self).le,hpx,fun k hk hle => ?_⟩
        exact absurd (hx k (kept_subset hk)) (not_lt.mpr hle)
      · exact ih previous hxs (fun p hpp y hy => hp p hpp y (mem_cons_of_mem _ hy)) hd
    · rcases mem_cons.mp hd with rfl | hd
      · exact ⟨d,.inr mem_cons_self,le_rfl,rfl,fun _ _ hle => hle⟩
      · obtain ⟨p,hm,hle,hl,hmx⟩ := ih (some x) hxs (by simpa using hx) hd
        have hxp : p = x ∨ x < p := by
          rcases hm with hm | hm
          · exact .inl (some.inj hm).symm
          · exact .inr (hx p (kept_subset hm))
        refine ⟨p,.inr ?_,hle,hl,fun k hk hkd => ?_⟩
        · rcases hm with hm | hm
          · exact mem_cons.mpr (.inl (some.inj hm).symm)
          · exact mem_cons_of_mem _ hm
        · rcases mem_cons.mp hk with rfl | hk
          · omega
          · exact hmx k hk hkd

/-! ### Parsing -/

lemma matchNumber_decimal (n : Nat) (rest : Bytes) :
    matchNumber (decimal n ++ comma :: rest) = some (decimal n,rest) := by
  have hcm : ∀ c ∈ (comma :: rest).head?, isDigit c = false := by
    intro c hc
    cases hc
    decide
  obtain ⟨ht,hd⟩ := takeWhile_digits (decimal_digits n) hcm
  rw [matchNumber,ht,hd]
  cases hdc : decimal n with
  | nil => exact absurd hdc (decimal_ne_nil n)
  | cons d ds => rfl

lemma printInt_natCast (n : Nat) : printInt n = decimal n := by
  rw [printInt,if_neg (by omega),Int.natAbs_natCast]

lemma matchLine_mapLine (x targetOffset : Nat) (hne : urn ≠ []) (hu : SingleLine urn) :
    matchLine (mapLine x targetOffset urn) = some (decimal x,decimal targetOffset,urn) := by
  have ht : urn.takeWhile (· != newline) = urn := by
    rw [takeWhile_eq_self_iff]
    intro c hc
    simpa using (hu c hc).1
  simp only [matchLine,mapLine,printInt_natCast,matchNumber_decimal,ht,bind_eq_bind,
    bind_some,if_neg hne]

lemma mapLine_singleLine (x targetOffset : Nat) (hu : SingleLine urn) :
    SingleLine (mapLine x targetOffset urn) := by
  have hd : ∀ n c, c ∈ decimal n → c ≠ newline ∧ c ≠ carriageReturn := by
    intro n c hc
    have hdg := decimal_digits n c hc
    constructor <;> rintro rfl <;> exact absurd hdg (by decide)
  intro c hc
  simp only [mapLine,printInt_natCast,mem_append,mem_cons] at hc
  rcases hc with hc | rfl | hc | rfl | hc
  · exact hd x c hc
  · decide
  · exact hd targetOffset c hc
  · decide
  · exact hu c hc

lemma Portable.text_eq (h : self.Portable) (hq : q ∈ self.imageOffsets) :
    ∃ (x targetOffset : Nat) (urn : Urn), q = x ∧ self.text q = mapLine x targetOffset urn ∧
      Plain urn ∧ self.line q = some (urn,targetOffset-q) := by
  obtain ⟨hq0,urn,targetOffset,hu,ho,ht0,hp⟩ := h q hq
  obtain ⟨x,rfl⟩ := Int.eq_ofNat_of_zero_le hq0
  obtain ⟨t,rfl⟩ := Int.eq_ofNat_of_zero_le ht0
  exact ⟨x,t,urn,rfl,by simp [text,hu,ho],hp,by simp [line,hu,ho]⟩

lemma run_parseLine (h : self.Portable) (target : Option Urn) {ks : List Int}
    (hks : ∀ k ∈ ks, k ∈ self.imageOffsets) {start : Map} (hs : start.Listed) :
    ∃ next, run (parseLine target (some matchLine)) start (ks.map self.text) = some next ∧
      next.Listed ∧ next.imagePeriod = start.imagePeriod ∧
      next.targetPeriod = start.targetPeriod ∧
      ∀ q, next.points q = if q ∈ ks then some (self.line q) else start.points q := by
  induction ks generalizing start with
  | nil => exact ⟨start,rfl,hs,rfl,rfl,fun q => by simp⟩
  | cons k ks ih =>
    obtain ⟨hk,hr⟩ := forall_mem_cons.mp hks
    obtain ⟨x,targetOffset,urn,rfl,htx,⟨hne,hat,hsn⟩,hln⟩ := h.text_eq hk
    have hpr : parseLine target (some matchLine) start (self.text x) =
        some (start.add x targetOffset urn).1 := by
      simp [parseLine,htx,matchLine_mapLine x targetOffset hne hsn,numeral_decimal,hat]
    obtain ⟨next,hrn,hl,hi,ht,hp⟩ := ih hr (add_listed hs x targetOffset urn)
    refine ⟨next,by simpa [run,hpr] using hrn,hl,hi,ht,fun q => ?_⟩
    rw [hp,add_points hs]
    by_cases hqx : q = x
    · simp [hqx,hln]
    · simp [hqx]

/-! ### Closing and opening -/

def closedAttributes (self : Map) (store : StoredMap) : MapAttributes :=
  {store.attributes with size := self.size.toNat}

/-- The same points under the periods that `__init__` works out for the closed map. -/
def refolded (self : Map) (store : StoredMap) : Map :=
  { self with
    imagePeriod := (init (self.closedAttributes store)).imagePeriod
    targetPeriod := (init (self.closedAttributes store)).targetPeriod }

lemma refolded_listed (h : self.Listed) (store : StoredMap) : (self.refolded store).Listed := by
  have hi := init_listed (self.closedAttributes store)
  exact ⟨h.sorted,h.zero,h.keys,hi.imagePeriod,hi.targetPeriod⟩

/-- A map that was stored as an attribute cannot be opened: neither `line_re` nor `fd` has a
value. -/
lemma openRead_attribute (codec : StringEscape) {store : StoredMap}
    (h : store.mapData.getD [] ≠ []) : openRead codec store = none := by
  rw [openRead,locals,if_pos h]
  cases codec.decode (store.mapData.getD []) <;> rfl

lemma zero_mem_kept (h : self.Listed) (hs : self.imageOffsets.Pairwise (· < ·))
    (hpr : self.Portable) : 0 ∈ self.kept none self.imageOffsets := by
  obtain ⟨p,hm,hle,_⟩ := kept_line self none hs (by simp) h.zero
  have hp : p ∈ self.kept none self.imageOffsets := hm.resolve_left (by simp)
  have := (hpr p (kept_subset hp)).1
  obtain rfl : p = 0 := by omega
  exact hp

lemma kept_lookup (hs : self.imageOffsets.Pairwise (· < ·))
    (hn : next.imageOffsets.Pairwise (· ≤ ·)) (hpt : ∀ q, next.points q =
      if q ∈ self.kept none self.imageOffsets then some (self.line q) else none)
    {offset : Int} (ho : ∃ q ∈ self.imageOffsets, q ≤ offset) :
    next.lookup offset = self.lookup offset := by
  have hk : ∀ d ∈ self.imageOffsets, ∃ p ∈ self.kept none self.imageOffsets, p ≤ d ∧
      self.line p = self.line d ∧ ∀ k ∈ self.kept none self.imageOffsets, k ≤ d → k ≤ p := by
    intro d hd
    obtain ⟨p,hp,hle⟩ := kept_line self none hs (by simp) hd
    exact ⟨p,hp.resolve_left (by simp),hle⟩
  have hb : ∃ q ∈ next.imageOffsets, q ≤ offset := by
    obtain ⟨d,hd,hle⟩ := ho
    obtain ⟨p,hp,hpd,_⟩ := hk d hd
    exact ⟨p,points_ne_none.mp (by simp [hpt,hp]),hpd.trans hle⟩
  obtain ⟨v,hv,hl⟩ := lookup_rules (hs.imp le_of_lt) ho
  obtain ⟨w,hw,hl'⟩ := lookup_rules hn hb
  have hr : Breakpoints.Rules next.points offset v := by
    refine Breakpoints.rules_of_sub (fun q hq => ?_) (fun d u hd => ?_) hv
    · rw [hpt,ne_eq,ite_eq_right_iff,not_forall] at hq
      exact points_ne_none.mpr (kept_subset hq.choose)
    · have hm : d ∈ self.imageOffsets := points_ne_none.mp (by simp [hd])
      obtain ⟨p,hp,hle,hln,hmx⟩ := hk d hm
      have hu : self.line d = u := by simpa [points,hm] using hd
      refine ⟨p,hle,by rw [hpt,if_pos hp,hln,hu],fun q hq hne => hmx q ?_ hq⟩
      by_contra hnt
      exact hne (by rw [hpt,if_neg hnt])
  rw [hl,hl',Breakpoints.rules_unique hw hr]

/-- `close` writes some of the points, and these resolve every offset from the first point on as
all of them do. -/
theorem close_keeps_lookup (hs : self.imageOffsets.Pairwise (· < ·)) (hc : self.Complete) :
    ∃ written : List Int, written.Sublist self.imageOffsets ∧
      self.serialise = some (written.flatMap fun q => self.text q ++ [newline]) ∧
      ∀ offset, (∃ q ∈ self.imageOffsets, q ≤ offset) →
        {self with imageOffsets := written}.lookup offset = self.lookup offset := by
  have hsb := kept_sublist self none self.imageOffsets
  refine ⟨self.kept none self.imageOffsets,hsb,?_,fun offset ho => ?_⟩
  · rw [serialise_eq hc,flatMap_map]
  · exact kept_lookup hs ((hs.imp le_of_lt).sublist hsb) (fun q => rfl) ho

def predicted : Map := built ⟨none,0,0,0,0,0⟩
  [.add 0 7 (chars ['a']),.add 5 12 (chars ['a']),.add 9 0 (chars ['b'])]

theorem close_keeps_lookup_predicted : predicted.imageOffsets = [0,5,9] ∧
    ∃ written : List Int, written.Sublist predicted.imageOffsets ∧
      predicted.serialise = some (written.flatMap fun q => predicted.text q ++ [newline]) ∧
      ∀ offset, (∃ q ∈ predicted.imageOffsets, q ≤ offset) →
        {predicted with imageOffsets := written}.lookup offset = predicted.lookup offset := by
  have ho : predicted.imageOffsets = [0,5,9] := by decide +kernel
  refine ⟨ho,close_keeps_lookup (by rw [ho]; decide) fun q hq => ?_⟩
  rw [ho] at hq
  simp only [mem_cons,not_mem_nil,or_false] at hq
  rcases hq with rfl | rfl | rfl
  · exact ⟨_,_,rfl,rfl⟩
  · exact ⟨_,_,rfl,rfl⟩
  · exact ⟨_,_,rfl,rfl⟩

/-- A map whose text is in its segment is opened with the same points, apart from those that
are predicted. -/
lemma openRead_segment (codec : StringEscape) (h : self.Listed)
    (hs : self.imageOffsets.Pairwise (· < ·)) (hp : self.Portable) {store : StoredMap}
    {text : Bytes} (ht : self.serialise = some text) (hd : store.mapData.getD [] = []) :
    ∃ next, openRead codec
        {store with attributes := self.closedAttributes store, segment := some text} = some next ∧
      next.Listed ∧ next.imagePeriod = (self.refolded store).imagePeriod ∧
      next.targetPeriod = (self.refolded store).targetPeriod ∧
      ∀ offset, 0 ≤ offset → next.lookup offset = self.lookup offset := by
  rw [serialise_eq hp.complete,some.injEq] at ht
  have hlns : ∀ line ∈ (self.kept none self.imageOffsets).map self.text, SingleLine line := by
    intro line hln
    obtain ⟨q,hq,rfl⟩ := mem_map.mp hln
    obtain ⟨x,t,urn,_,ht,hpl,_⟩ := hp.text_eq (kept_subset hq)
    exact ht ▸ mapLine_singleLine x t hpl.2.2
  obtain ⟨next,hr,hl,hi,htg,hpt⟩ := run_parseLine hp
    (self.closedAttributes store).target (fun k hk => kept_subset hk)
    (init_listed (self.closedAttributes store))
  have hz := zero_mem_kept h hs hp
  refine ⟨next,?_,hl,hi,htg,fun offset ho =>
    kept_lookup hs hl.sorted (fun q => ?_) ⟨0,h.zero,ho⟩⟩
  · simp only [openRead,locals,hd,ne_eq,not_true_eq_false,if_false,map_some,
      bind_eq_bind,bind_some,← ht,splitLines_flatMap hlns]
    exact hr
  · rw [hpt]
    split
    · rfl
    · next hq =>
      have hq0 : q ≠ 0 := fun h0 => hq (h0 ▸ hz)
      simp [points,init,hq0]

lemma resolve_congr (h : self.Listed) (hn : next.Listed)
    (hi : next.imagePeriod = self.imagePeriod) (ht : next.targetPeriod = self.targetPeriod)
    (hl : ∀ offset, 0 ≤ offset → next.lookup offset = self.lookup offset) (x : Int) :
    next.resolve x = self.resolve x := by
  rw [resolve_eq h,resolve_eq hn,hi,ht,hl _ (Int.emod_nonneg x h.imagePeriod.ne')]

section

variable (codec : StringEscape) (store : StoredMap)

/-- When a closed map can be opened: it has no text as an attribute, neither from this `close`
nor from an earlier one. -/
def Reopens (self : Map) : Prop :=
  store.mapData.getD [] = [] ∧ ∃ text, self.serialise = some text ∧ 1000 ≤ text.length

lemma serialise_ne_nil (h : self.Listed) (hs : self.imageOffsets.Pairwise (· < ·))
    (hp : self.Portable) {text : Bytes} (ht : self.serialise = some text) :
    text ≠ [] := by
  rw [serialise_eq hp.complete,some.injEq] at ht
  have hz := zero_mem_kept h hs hp
  rintro rfl
  rw [flatMap_eq_nil_iff] at ht
  exact absurd (ht _ (mem_map_of_mem hz)) (by simp)

/-- What is opened after a `close`: nothing, or the points of the map under the periods of the
closed one. -/
lemma openRead_close (h : self.Listed) (hs : self.imageOffsets.Pairwise (· < ·))
    (hp : self.Portable) : ∃ stored, self.close codec store = some stored ∧
      (¬ self.Reopens store → openRead codec stored = none) ∧
      (self.Reopens store → ∃ next, openRead codec stored = some next ∧ next.Listed ∧
        next.imagePeriod = (self.refolded store).imagePeriod ∧
        next.targetPeriod = (self.refolded store).targetPeriod ∧
        ∀ offset, 0 ≤ offset → next.lookup offset = self.lookup offset) := by
  have ht := serialise_eq hp.complete
  generalize ((self.kept none self.imageOffsets).map self.text).flatMap (fun line =>
    line ++ [newline]) = text at ht
  by_cases hl : text.length < 1000
  · refine ⟨_,by rw [close,ht,map_some,if_pos hl],fun _ => ?_,?_⟩
    · refine openRead_attribute codec ?_
      exact codec.encode_ne_nil text (serialise_ne_nil h hs hp ht)
    · rintro ⟨_,text',ht',hl'⟩
      rw [ht,some.injEq] at ht'
      exact absurd hl (ht' ▸ not_lt.mpr hl')
  · refine ⟨_,by rw [close,ht,map_some,if_neg hl],fun hn => ?_,fun hre => ?_⟩
    · exact openRead_attribute codec fun hd => hn ⟨hd,text,ht,not_lt.mp hl⟩
    · exact openRead_segment codec h hs hp ht hre.1

end

/-- A map can be opened after `close` exactly when its text goes to a segment. It then has the
points it had; the periods are worked out anew from the size of the closed map. -/
theorem close_open_iff (codec : StringEscape) (attributes : MapAttributes) (ops : List BuildOp)
    (store : StoredMap) (hp : (built attributes ops).Portable) :
    ((∃ stored next, (built attributes ops).close codec store = some stored ∧
        openRead codec stored = some next ∧ ∀ offset, 0 ≤ offset →
          next.lookup offset = (built attributes ops).lookup offset) ↔
      (built attributes ops).Reopens store) ∧
    ((∃ stored next, (built attributes ops).close codec store = some stored ∧
        openRead codec stored = some next ∧
          ∀ x, next.resolve x = (built attributes ops).resolve x) ↔
      (built attributes ops).Reopens store ∧
        ∀ x, ((built attributes ops).refolded store).resolve x =
          (built attributes ops).resolve x) := by
  obtain ⟨hls,hs⟩ := built_listed attributes ops
  generalize built attributes ops = map at hp hls hs ⊢
  obtain ⟨stored,hc,hf,ho⟩ := openRead_close codec store hls hs hp
  have hr : ∀ {stored' next}, map.close codec store = some stored' →
      openRead codec stored' = some next → map.Reopens store := by
    intro stored' next hc' hnx
    rw [hc,some.injEq] at hc'
    by_contra hnt
    rw [← hc',hf hnt] at hnx
    cases hnx
  have hrs : ∀ {next : Map}, next.Listed → next.imagePeriod = (map.refolded store).imagePeriod →
      next.targetPeriod = (map.refolded store).targetPeriod →
      (∀ offset, 0 ≤ offset → next.lookup offset = map.lookup offset) →
        ∀ x, next.resolve x = (map.refolded store).resolve x :=
    fun hn hi ht hl =>
      resolve_congr (refolded_listed hls store) hn hi ht hl
  constructor
  · constructor
    · rintro ⟨stored',next,hc',hnx,_⟩
      exact hr hc' hnx
    · intro hre
      obtain ⟨next,hnx,_,_,_,hl⟩ := ho hre
      exact ⟨stored,next,hc,hnx,hl⟩
  · constructor
    · rintro ⟨stored',next,hc',hnx,hsa⟩
      have hre := hr hc' hnx
      obtain ⟨next',hnx',hn,hi,ht,hl⟩ := ho hre
      rw [hc,some.injEq] at hc'
      rw [← hc',hnx',some.injEq] at hnx
      subst hnx
      exact ⟨hre,fun x => (hrs hn hi ht hl x).symm.trans (hsa x)⟩
    · rintro ⟨hre,hsa⟩
      obtain ⟨next,hnx,hn,hi,ht,hl⟩ := ho hre
      exact ⟨stored,next,hc,hnx,fun x =>
        (hrs hn hi ht hl x).trans (hsa x)⟩

def pythonEscape : StringEscape :=
  ⟨stringEscape,stringUnescape,stringUnescape_stringEscape,fun _ => stringEscape_ne_nil⟩

def unsaved (targetSize : Nat) : StoredMap := ⟨⟨none,0,0,0,0,targetSize⟩,none,none⟩

def longUrn : Urn := replicate 1000 97

def longOps : List BuildOp := [.writeFrom longUrn 7 5,.writeFrom (chars ['b']) 0 5]

lemma longUrn_plain : Plain longUrn := by
  have hl : longUrn.length = 1000 := length_replicate
  refine ⟨fun h => ?_,fun h => ?_,fun c hc => ?_⟩
  · exact absurd (congrArg length h) (by rw [hl]; decide)
  · exact absurd (congrArg length h) (by rw [hl]; decide)
  · rw [eq_of_mem_replicate hc]
    decide

lemma longOps_portable : (built (unsaved 100).attributes longOps).Portable := by
  have ho : (built (unsaved 100).attributes longOps).imageOffsets = [0,5] := by decide +kernel
  intro q hq
  rw [ho,mem_pair] at hq
  rcases hq with rfl | rfl
  · exact ⟨by decide,longUrn,7,rfl,rfl,by decide,longUrn_plain⟩
  · exact ⟨by decide,chars ['b'],0,rfl,rfl,by decide,by decide,by decide,by decide +kernel⟩

theorem close_open_long : ∃ stored next,
    (built (unsaved 100).attributes longOps).close pythonEscape (unsaved 100) =
      some stored ∧ openRead pythonEscape stored = some next ∧
      ∀ x, next.resolve x = (built (unsaved 100).attributes longOps).resolve x := by
  refine (close_open_iff pythonEscape (unsaved 100).attributes longOps (unsaved 100)
    longOps_portable).2.mpr ⟨⟨rfl,?_⟩,fun x => ?_⟩
  · have hl : (built (unsaved 100).attributes longOps).serialise.map length =
        some 1011 := by decide +kernel
    obtain ⟨text,ht,hln⟩ := map_eq_some_iff.mp hl
    exact ⟨text,ht,by omega⟩
  · rfl

/-- Offset 5 in a map that starts with a period of 1, as nothing has a size yet, and that has a
period of 10 when it is opened again. -/
example : (built (unsaved 0).attributes longOps).resolve 5 = some (longUrn,12) ∧
    ((built (unsaved 0).attributes longOps).refolded (unsaved 0)).resolve 5 =
      some (chars ['b'],0) := by
  decide +kernel

def smallOps : List BuildOp := [.add 0 0 (chars ['a'])]

theorem small_map_fails : (built (unsaved 0).attributes smallOps).Portable ∧
    ∃ stored, (built (unsaved 0).attributes smallOps).close pythonEscape (unsaved 0) =
        some stored ∧ stored.mapData = some (chars ['0',',','0',',','a','\\','n']) ∧
      openRead pythonEscape stored = none := by
  have ho : (built (unsaved 0).attributes smallOps).imageOffsets = [0] := by decide +kernel
  refine ⟨fun q hq => ?_,_,rfl,by decide +kernel,openRead_attribute pythonEscape ?_⟩
  · rw [ho,mem_singleton] at hq
    subst hq
    exact ⟨by decide,chars ['a'],0,rfl,rfl,by decide,by decide,by decide,by decide +kernel⟩
  · exact stringEscape_ne_nil (by decide)

end Map

end Aff4.Python
