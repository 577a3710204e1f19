import Mathlib.Algebra.Order.BigOperators.Group.List
import Aff4.JavaMapWriter
import Aff4.JavaStreamReader

/-! The map reader of the Java library (MapReader.java). A read goes to the stream of the point
found for the read pointer. -/

namespace Aff4.Java

open LittleEndian List

def toLong (n : Int) : Int := n.bmod (2^64)

inductive Failure where
  | addressResolution | nullPointer | illegalArgument | classCast | thrown
  deriving DecidableEq

/-- A reader that was opened: `position` with an offset and then `read`. -/
abbrev Source := Int → ReadBuffer → Option (Int × ReadBuffer)

/-- `equals` with a String, which is not a Resource. -/
def Resource.equalsString (_ : Resource) (_ : JavaString) : Bool := false

structure MapReader where
  points : List Point
  size : Int
  readptr : Int

namespace MapReader

/-- `QueryTools.queryValue` for `sameAs`: no value is null, and two are an exception. -/
def sameAs (res : List (Resource × Resource)) (part : Resource) : Option Resource :=
  match res.filter fun q => q.1.getURI = part.getURI with
  | [q] => some q.2
  | _ => none

/-- The point for the object of a `contains` statement. -/
def pointOf (res : List (Resource × Resource)) (part : Resource) : Option Point := do
  let s ← part.slice
  let target ← sameAs res part
  if target.equalsString unknownData then return ⟨s.1,s.2,-1,.ofURI unknownData⟩
  let t ← target.slice
  return ⟨s.1,s.2,t.1,target⟩

/-- An exception has no result. -/
def con (res : List (Resource × Resource)) (size : Int) : Option MapReader := do
  return ⟨← res.mapM fun q => pointOf res q.1,size,0⟩

/-- The loop that looks for the point. It ends at the last one if there is none. -/
def search (readptr : Int) : Option Point → List Point → Option Point
  | p, [] => p
  | _, p :: points =>
    if p.offset ≤ readptr ∧ readptr < toLong (p.offset+p.length) then some p
    else search readptr (some p) points

/-- `partial_read` after the stream of the point was opened. -/
def readPoint (readptr : Int) (p : Point) (bd : Source) (buf : ReadBuffer) :
    Except Failure (Int × ReadBuffer) :=
  let offsetWithinSlice := toLong (readptr-p.offset)
  let availableToRead := min (toLong (p.length-offsetWithinSlice)) (buf.limit-buf.position)
  match buf.setLimit (toInt (buf.position+availableToRead)) with
  | none => .error .illegalArgument
  | some b => match bd (toLong (p.targetOffset+offsetWithinSlice)) b with
    | none => .error .thrown
    | some (read,b) => match b.setLimit buf.limit with
      | none => .error .illegalArgument
      | some b => .ok (read,b)

def partialRead (volume : Resource → Option Source) (self : MapReader) (buf : ReadBuffer) :
    Except Failure (Int × ReadBuffer) :=
  match search self.readptr none self.points with
  | none => .error .nullPointer
  | some p =>
    if p.targetURN.equalsString unknownData then .error .addressResolution
    else match volume p.targetURN with
      | none => .error .nullPointer
      | some bd => readPoint self.readptr p bd buf

def readLoop (volume : Resource → Option Source) : Nat → Int → Int → MapReader → ReadBuffer →
    Option (Except Failure (Int × MapReader × ReadBuffer))
  | 0, _, _, _, _ => none
  | fuel+1, length, readCount, self, buf =>
    if 0 < length then
      match partialRead volume self buf with
      | .error e => some (.error e)
      | .ok (read,buf) =>
        if read = -1 then some (.ok (-1,self,buf))
        else readLoop volume fuel (toInt (length-read)) (toInt (readCount+read))
          {self with readptr := toLong (self.readptr+read)} buf
    else match (buf.setPosition 0).bind fun buf => buf.setLimit readCount with
      | none => some (.error .illegalArgument)
      | some buf => some (.ok (readCount,self,buf))

def read (volume : Resource → Option Source) (fuel : Nat) (self : MapReader) (buf : ReadBuffer) :
    Option (Except Failure (Int × MapReader × ReadBuffer)) :=
  if buf.capacity-buf.position = 0 then some (.ok (0,self,buf))
  else readLoop volume fuel (buf.capacity-buf.position) 0 self buf

end MapReader

namespace Point

def Covers (self : Point) (x : Int) : Prop := self.offset ≤ x ∧ x < self.offset+self.length

/-- Where `partial_read` positions the stream of the point. -/
def target (self : Point) (readptr : Int) : Int :=
  toLong (self.targetOffset+toLong (readptr-self.offset))

/-- The limit that `partial_read` gives the buffer. -/
def window (self : Point) (readptr : Int) (position limit : Nat) : Int :=
  toInt (position+min (toLong (self.length-toLong (readptr-self.offset))) (limit-position))

/-- The numbers of the point are longs, and so is its end. -/
structure InRange (p : Point) : Prop where
  offset : 0 ≤ p.offset
  length : 0 ≤ p.length
  end_lt : p.offset+p.length < 2^63
  target : -2^63 ≤ p.targetOffset ∧ p.targetOffset < 2^63

end Point

namespace MapReader

/-- The read pointer is covered by no point or only by unknown data. -/
def Unresolved (self : MapReader) : Prop :=
  ∀ p ∈ self.points, p.Covers self.readptr → p.targetURN = .ofURI unknownData

/-- Each byte that is delivered is one of a point that covers its position, whatever the buffer
held before. -/
structure Right (volume : Resource → Option Source) (content : Resource → Bytes)
    (reader : MapReader) (buf : ReadBuffer) : Prop where
  unresolved : reader.Unresolved →
    ∃ fuel, reader.read volume fuel buf = some (.error .addressResolution)
  delivered : ∀ i : Nat, ∃ p : Point, ∀ earlier hlength fuel n next buf',
    reader.read volume fuel (buf.holding earlier hlength) = some (.ok (n,next,buf')) → i < n →
      reader.readptr+i < reader.size ∧ p ∈ reader.points ∧ p.Covers (reader.readptr+i) ∧
      buf'.array[buf'.position+i]? =
        (content p.targetURN)[(p.targetOffset+(reader.readptr+i-p.offset)).toNat]?

section

variable {volume : Resource → Option Source} {content : Resource → Bytes} {self : MapReader}
  {buf : ReadBuffer}

/-- A stream of bytes as StreamReader reads it: the position is put back to the start of what was
read, or to its length. Near the stream there is nothing outside of it. -/
structure Reads (bd : Source) (bytes : Bytes) : Prop where
  inside : ∀ (q : Nat) (buf : ReadBuffer) (m : Nat), q < bytes.length →
    m = min (buf.limit-buf.position) (bytes.length-q) →
    ∃ buf' : ReadBuffer, bd q buf = some ((m : Int),buf') ∧
      buf'.array = buf.stored (slice bytes q m) ∧ buf'.position = min buf.position m
  outside : ∀ (q n : Int) (buf buf' : ReadBuffer), -2^31 ≤ q → q ≤ bytes.length+2^31 →
    ¬ (0 ≤ q ∧ q < bytes.length) → bd q buf = some (n,buf') → n = -1 ∨ n = 0

/-- The parts that a read of `length` bytes has: the index of the buffer where each starts and how
long it is. They depend on the lengths of the streams only. -/
inductive Parts (volume : Resource → Option Source) (content : Resource → Bytes)
    (points : List Point) (capacity limit : Nat) : Int → Int → Nat → List (Nat × Nat) → Prop where
  | done {length readptr : Int} {position : Nat} (h : length ≤ 0) :
      Parts volume content points capacity limit length readptr position []
  | part {length readptr : Int} {position e q m : Nat} {p : Point} {parts : List (Nat × Nat)}
      (hlength : 0 < length) (hp : search readptr none points = some p)
      (hopen : (volume p.targetURN).isSome) (he : p.window readptr position limit = e)
      (hroom : e ≤ capacity) (hq : p.target readptr = q) (hlt : q < (content p.targetURN).length)
      (hm : m = min (e-position) ((content p.targetURN).length-q))
      (hrest : Parts volume content points capacity limit (length-m) (toLong (readptr+m))
        (min (min position e) m) parts) :
      Parts volume content points capacity limit length readptr position
        ((min position e,m) :: parts)

def total (parts : List (Nat × Nat)) : Nat := (parts.map Prod.snd).sum

/-- What the parts leave of the bytes of the buffer. -/
def written (content : Resource → Bytes) (points : List Point) :
    Int → Bytes → List (Nat × Nat) → Bytes
  | _, array, [] => array
  | readptr, array, x :: parts =>
    match search readptr none points with
    | none => array
    | some p => written content points (toLong (readptr+x.2))
        (array.take x.1 ++ slice (content p.targetURN) (p.target readptr).toNat x.2 ++
          array.drop (x.1+x.2)) parts

variable {points : List Point} {capacity limit position : Nat} {length readptr : Int}
  {parts : List (Nat × Nat)} {p : Point}

lemma total_cons (x : Nat × Nat) (parts : List (Nat × Nat)) :
    total (x :: parts) = x.2+total parts := by simp [total]

lemma le_total {x : Nat × Nat} (h : x ∈ parts) : x.2 ≤ total parts :=
  le_sum_of_mem (mem_map_of_mem h)

lemma toLong_toLong (a : Int) : toLong (toLong a) = toLong a := Int.bmod_bmod

variable {n : Int} {q : Option Point} {buf' : ReadBuffer} {readCount fuel : Nat}
  {next : MapReader}

lemma toLong_of_lt (hle : -2^63 ≤ n) (hlt : n < 2^63) : toLong n = n := by
  unfold toLong Int.bmod
  dsimp only
  split <;> omega

/-- The target of a position that the read may get to is near the stream. -/
def Near (content : Resource → Bytes) (points : List Point) (start : Int) : Prop :=
  ∀ k : Nat, k < 2^31 → ∀ p, search (toLong (start+k)) none points = some p →
    -2^31 ≤ p.target (toLong (start+k)) ∧
    p.target (toLong (start+k)) ≤ (content p.targetURN).length+2^31

section

variable {bd : Source} {bytes : Bytes} (hrds : Reads bd bytes)
include hrds

end

lemma partialRead_eq {bd : Source} (hp : search self.readptr none self.points = some p)
    (hbd : volume p.targetURN = some bd) :
    partialRead volume self buf = readPoint self.readptr p bd buf := by
  simp [partialRead,hp,Resource.equalsString,hbd]

section

variable (hra : p.InRange) (hc : p.Covers readptr)
include hra hc

lemma toLong_of_covers : toLong readptr = readptr := by
  have ho := hra.offset
  have he := hra.end_lt
  obtain ⟨hle,hlt⟩ := hc
  exact toLong_of_lt (by omega) (by omega)

lemma window_covers {position limit : Nat} (hle : position ≤ limit) (hlt : limit < 2^31) :
    p.window readptr position limit =
      position+min (p.offset+p.length-readptr) (limit-position) := by
  have ho := hra.offset
  have he := hra.end_lt
  obtain ⟨hl,hh⟩ := hc
  rw [Point.window,toLong_of_lt (n := readptr-p.offset) (by omega) (by omega),
    toLong_of_lt (by omega) (by omega),toInt_of_lt (by omega) (by omega)]
  omega

end

/-- Where there is no room for a point although the buffer has some, there is none either after
the position was put back. -/
lemma window_zero (hlt : position < limit)
    (hl : limit < 2^31) (hle : 0 ≤ p.window readptr position limit)
    (hr : p.window readptr position limit ≤ position) : p.window readptr 0 limit ≤ 0 := by
  unfold Point.window toInt at *
  generalize toLong (p.length-toLong (readptr-p.offset)) = a at *
  rcases le_or_gt ((limit : Int)-position) a with hle' | hlt'
  · rw [min_eq_right hle'] at hr
    unfold Int.bmod at hr
    dsimp only at hr
    split at hr <;> omega
  · rw [min_eq_left hlt'.le] at hle hr
    rw [min_eq_left (by omega)]
    unfold Int.bmod at *
    dsimp only at *
    split at hr <;> split <;> omega

namespace Parts

lemma start_zero (h : Parts volume content points capacity limit length readptr position parts)
    (hp : position = 0) : ∀ x ∈ parts, x.1 = 0 := by
  induction h with
  | done => simp
  | part _ _ _ _ _ _ _ _ _ ih =>
    simp only [mem_cons,forall_eq_or_imp]
    exact ⟨by simp [hp],ih (by simp [hp])⟩

lemma length_zero (h : Parts volume content points capacity limit length readptr position parts)
    (hps : position = 0) (hl : toLong readptr = readptr)
    (hp : search readptr none points = some p) (hw : p.window readptr 0 limit ≤ 0) :
    ∀ x ∈ parts, x.2 = 0 := by
  induction h with
  | done => simp
  | @part length readptr position e q m p' parts _ hp' _ he _ _ _ hm _ ih =>
    obtain rfl := Option.some.inj (hp.symm.trans hp')
    subst hps
    have hz : m = 0 := by omega
    subst hz
    rw [Nat.cast_zero,add_zero,hl] at ih
    simp only [mem_cons,forall_eq_or_imp,true_and]
    exact ih (Nat.min_zero _) hl hp hw

/-- Behind the start of the buffer no part gets to its start. -/
lemma start_pos (h : Parts volume content points capacity limit length readptr position parts)
    (hlm : limit < 2^31) (hl : toLong readptr = readptr) (hps : 0 < position)
    (hlt : position < limit) : ∀ x ∈ parts, x.2 = 0 ∨ 0 < x.1 := by
  induction h with
  | done => simp
  | @part length readptr position e q m p parts _ hp _ he _ _ hq hm hr ih =>
    rcases Nat.eq_zero_or_pos m with rfl | hm'
    · simp only [Nat.cast_zero,add_zero,hl] at hr
      have hw := window_zero hlt hlm (show 0 ≤ p.window readptr _ _ by omega) (by omega)
      simp only [mem_cons,forall_eq_or_imp,true_or,true_and]
      exact fun x hx => .inl (hr.length_zero (by simp) hl hp hw x hx)
    · simp only [mem_cons,forall_eq_or_imp]
      exact ⟨.inr (by omega),ih (toLong_toLong _) (by omega) (by omega)⟩

/-- Only one part that starts where the buffer does fills all that is delivered. -/
lemma untouched (h : Parts volume content points capacity limit length readptr position parts)
    (hl : limit < 2^31) (hle : position ≤ limit) (hra : p.InRange)
    (hc : p.Covers readptr) (hp : search readptr none points = some p)
    (hpo : 0 < total parts) (hn : (0,total parts) ∉ parts) :
    ∃ i < total parts, ∀ x ∈ parts, i < x.1 ∨ x.1+x.2 ≤ i := by
  have hlg := toLong_of_covers hra hc
  by_cases hmd : 0 < position ∧ position < limit
  · refine ⟨0,hpo,fun x hx => ?_⟩
    rcases h.start_pos hl hlg hmd.1 hmd.2 x hx with hz | hpo <;> omega
  · have hs : ∀ x ∈ parts, x.2 = 0 ∨ x.1 = 0 := by
      rcases Nat.eq_zero_or_pos position with hz | hps
      · exact fun x hx => .inr (h.start_zero hz x hx)
      · cases h with
        | done => simp
        | part _ hp' _ he _ _ _ hm hr =>
          obtain rfl := Option.some.inj (hp.symm.trans hp')
          rw [window_covers hra hc hle hl] at he
          have hlw := hc.2
          simp only [mem_cons,forall_eq_or_imp]
          exact ⟨.inl (by omega),fun x hx => .inr (hr.start_zero (by omega) x hx)⟩
    refine ⟨total parts-1,by omega,fun x hx => ?_⟩
    have hle := le_total hx
    rcases hs x hx with hz | hz
    · omega
    · have hne : x.2 ≠ total parts := fun heq => hn (by rwa [← heq,← hz])
      omega

end Parts

end

def streamSource (deflater : Deflater) (volume : List Bevvy) (reader : StreamReader) : Source :=
  fun q buf => ((reader.seek q).read deflater volume buf).map fun r => (r.1,r.2.2)

def lettersSource : Source :=
  streamSource plainDeflater lettersVolume (.con (some 4) (some 2) (some 3) (some 8))

/-- The value that is found for a hole is not a slice. -/
lemma pointOf_hole {res : List (Resource × Resource)} {part : Resource}
    (h : (part,.ofURI unknownData) ∈ res) : pointOf res part = none := by
  have hm : (part,.ofURI unknownData) ∈ res.filter fun q => q.1.getURI = part.getURI := by
    simp [h]
  have hv : ∀ target ∈ sameAs res part, target = .ofURI unknownData := by
    rw [sameAs]
    split
    · next ho =>
      rw [ho,mem_singleton] at hm
      simp [← hm]
    · simp
  cases part.slice <;> cases sameAs res part <;> simp_all [pointOf,Resource.equalsString,Resource.ofURI]

open MapWriter Option in
/-- A map with a seek cannot be opened again. One without has no points, and cannot be read. -/
theorem con_close {deflater : Deflater} {urn backingURN : JavaString} {store closed : StreamWriter}
    {ops : List Op} {self : MapWriter} {emitted : List (Resource × Resource)}
    (hrn : Transition.run (step deflater) (.con urn backingURN store) ops = some self)
    (hcl : self.close deflater = some (emitted,closed)) {size : Int} {reader : MapReader}
    (hcn : con emitted size = some reader) : (∀ op ∈ ops, ∃ data, op = .write data) ∧
      ∀ volume fuel buf, buf.position < buf.capacity →
        reader.read volume (fuel+1) buf = some (.error .nullPointer) := by
  have hh : self.points = [] ∨ ∃ p ∈ self.points, p.targetURN = .ofURI unknownData := by
    refine Transition.run_invariant (I := fun w : MapWriter => w.points = [] ∨ ∃ p ∈ w.points,
      p.targetURN = .ofURI unknownData) (fun w op next hw hs => ?_) hrn (.inl rfl)
    cases op with
    | write data =>
      obtain ⟨-,-,rfl⟩ := write_inv hs
      exact hw
    | seek s =>
      cases hs
      simp [MapWriter.seek,or_and_right,exists_or]
  obtain ⟨_,hem,hcl⟩ := bind_eq_some_iff.mp hcl
  obtain ⟨_,-,hpr⟩ := bind_eq_some_iff.mp hcl
  cases hpr
  obtain ⟨points,hps,hr⟩ := bind_eq_some_iff.mp hcn
  cases hr
  rcases hh with hn | ⟨p,hp,ht⟩
  · refine ⟨((run_points hrn).2.2.mp hn).2,fun volume fuel buf hrm => ?_⟩
    rw [hn] at hem
    cases hem
    cases hps
    rw [read,if_neg (by omega),readLoop,if_pos (by omega)]
    rfl
  · have ha := Positions.exists_of_mapM hem
    obtain ⟨e,he⟩ := ha p hp
    rw [Positions.mapM_eq_filterMap ha] at hem
    cases hem
    have hm := mem_filterMap.mpr ⟨p,hp,he⟩
    obtain ⟨_,hu,he⟩ := bind_eq_some_iff.mp he
    rw [ht] at hu
    cases hu
    obtain ⟨part,-,he⟩ := bind_eq_some_iff.mp he
    have hd := Resource.createURI_plain (show openBracket ∉ unknownData by decide)
    simp only [ne_eq,not_true,if_false,hd] at he
    cases he
    simpa [pointOf_hole hm] using Positions.exists_of_mapM hps _ hm

open MapWriter in
theorem con_close_written :
    read (fun _ => some lettersSource) 1 ⟨[],1,0⟩ oneByte = some (.error .nullPointer) :=
  have hr : Transition.run (step plainDeflater) (.con mapURN storeURN freshStore)
    [.write (wholeBuffer [7])] = some _ := rfl
  (con_close hr rfl rfl).2 _ 0 oneByte (by decide)

end MapReader

end Aff4.Java
