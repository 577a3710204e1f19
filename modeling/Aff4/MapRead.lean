import Aff4.Map

/-! Reading through a map, `MapDriver_read` of map.c. Opening a target and reading from it may
fail or give less than was asked for, differently at every turn of the loop. -/

namespace Aff4

open LittleEndian Transition List Option

/-- What opening a target and reading from it comes to. `data` is what the read leaves in the
buffer, of which only as much counts as was asked for. -/
inductive TargetRead where
  | unopened
  | failed (data : Bytes)
  | got (data : Bytes)
  deriving DecidableEq, Repr

/-- The read pointer is signed, as the size is. -/
structure MapDriver where
  map : MapValue
  readptr : UInt64

/-- The loop of `MapDriver_read`: the places in the buffer that were written to, and the result
once there is one. -/
structure MapReading where
  readptr : UInt64
  i : Int
  writes : List (Int × Bytes)
  returned : Option Int
  deriving DecidableEq, Repr

namespace MapDriver

/-- `MapDriver_write_from`. The size is that of the map. -/
def writeFrom (self : MapDriver) (target : Bytes) (targetOffset targetLength : UInt64) :
    Option MapDriver :=
  (self.map.addPoint self.readptr targetOffset target).map fun (_,map) =>
    let readptr := self.readptr+targetLength
    ⟨{map with size := if signed map.size < signed readptr then readptr else map.size},readptr⟩

def asInt (n : UInt64) : Int := Int.bmod n.toNat (2^32)

/-- The result, the read pointer and what was written to the buffer. The result is an `int`. -/
def partialRead (map : MapValue) (readptr length : UInt64) (target : TargetRead) :
    Option (Int × UInt64 × Bytes) :=
  (map.getRange readptr).map fun
    | none => (0,readptr,[])
    | some range =>
        let availableToRead := min range.availableToRead.toNat length.toNat
        match target with
        | .unopened => (-1,readptr,[])
        | .failed data => (-1,readptr,data.take availableToRead)
        | .got data =>
            let data := data.take (min availableToRead (2^31-1))
            (data.length,readptr + UInt64.ofNat data.length,data)

def clip (self : MapDriver) (length : UInt64) : UInt64 :=
  if length < self.map.size - self.readptr then length else self.map.size - self.readptr

/-- The test of the loop compares as `unsigned long`. -/
def test (length : UInt64) (s : MapReading) : MapReading :=
  {s with returned := if UInt64.ofInt s.i < length then none else some s.i}

def start (self : MapDriver) (length : UInt64) : MapReading :=
  test (self.clip length) ⟨self.readptr,0,[],none⟩

def advance (length : UInt64) (s : MapReading) (readLength : Int) : Option MapReading :=
  if s.i + readLength < 2^31 then some (test length {s with i := s.i + readLength}) else none

/-- A turn of the loop. After an error the rest of the buffer is cleared, and the whole length
counts as read. -/
def turn (map : MapValue) (length : UInt64) (s : MapReading) (target : TargetRead) :
    Option MapReading :=
  if s.returned.isSome then some s
  else
    (partialRead map s.readptr (length - UInt64.ofInt s.i) target).bind
      fun (readLength,readptr,data) =>
        let s := {s with readptr := readptr, writes := s.writes ++ [(s.i,data)]}
        if readLength = 0 then some {s with returned := some s.i}
        else if readLength < 0 then
          let cleared := replicate (length - UInt64.ofInt s.i).toNat 0
          advance length {s with writes := s.writes ++ [(s.i,cleared)]} (asInt length)
        else advance length s readLength

def bound (self : MapDriver) (length : UInt64) : Int :=
  min length.toNat (max 0 (signed self.map.size - signed self.readptr))

/-- Nothing is written behind the bound, and no more than the bound is returned. -/
def Bounded (self : MapDriver) (length : UInt64) (s : MapReading) : Prop :=
  (∀ w ∈ s.writes, w.1 + w.2.length ≤ self.bound length) ∧
    ∀ result ∈ s.returned, result ≤ self.bound length

/-- What a turn needs. Data is only read before the end of the stream and within the range of an
`int`; an error also has to come while nothing was read, so that the length is not added to
something. -/
def Allows (self : MapDriver) (length : UInt64) (s : MapReading) (target : TargetRead) : Prop :=
  s.returned = none → ∃ range, self.map.getRange s.readptr = some range ∧
    ∀ r ∈ range, match target with
      | .got data =>
          let n := min data.length (min (min r.availableToRead.toNat
            (self.clip length - UInt64.ofInt s.i).toNat) (2^31-1))
          n = 0 ∨ signed self.readptr ≤ signed self.map.size ∧ s.i + n < 2^31
      | _ => signed self.readptr ≤ signed self.map.size ∧ s.i + asInt (self.clip length) < 2^31 ∧
          s.i + asInt (self.clip length) ≤ (self.clip length).toNat

/-! ### Numbers -/

lemma asInt_bounds (n : UInt64) :
    -2^31 ≤ asInt n ∧ asInt n < 2^31 ∧ (n.toNat : Int)-2^64 ≤ asInt n := by
  have hlt := n.toNat_lt
  unfold asInt Int.bmod
  dsimp only
  split <;> omega

lemma toNat_ofInt (x : Int) : ((UInt64.ofInt x).toNat : Int) = x%2^64 := by
  rw [UInt64.ofInt,UInt64.toNat_ofNat_of_lt' (by simp only [UInt64.size]; omega)]
  omega

lemma toNat_rest {length : UInt64} {i : Int} (h : 0 ≤ i) (hlt : i < length.toNat) :
    ((length-UInt64.ofInt i).toNat : Int) = length.toNat-i := by
  have hl := length.toNat_lt
  have hi := toNat_ofInt i
  rw [UInt64.toNat_sub]
  omega

section

variable (self : MapDriver) (length : UInt64)

lemma bound_eq : (signed self.readptr ≤ signed self.map.size ∧
      self.bound length = (self.clip length).toNat) ∨
    (¬ signed self.readptr ≤ signed self.map.size ∧ self.bound length = 0) := by
  have hsz := self.map.size.toNat_lt
  have hrp := self.readptr.toNat_lt
  have hm : (self.clip length).toNat =
      min length.toNat (self.map.size-self.readptr).toNat := by
    rw [clip,apply_ite UInt64.toNat]
    simp only [UInt64.lt_iff_toNat_lt]
    split <;> omega
  rw [bound,hm,UInt64.toNat_sub,signed_eq,signed_eq]
  split <;> split <;> omega

end

/-! ### One turn -/

/-- While the loop goes on, the count is within the length, and what it counts was written. -/
def Going (length : UInt64) (s : MapReading) : Prop :=
  s.returned = none → 0 ≤ s.i ∧ s.i < length.toNat ∧
    (s.i = 0 ∨ ∃ w ∈ s.writes, s.i ≤ w.1 + w.2.length)

lemma test_returned (length : UInt64) (s : MapReading) :
    (test length s).returned = if s.i%2^64 < length.toNat then none else some s.i := by
  have hi := toNat_ofInt s.i
  simp only [test,UInt64.lt_iff_toNat_lt]
  split <;> split <;> first | rfl | omega

variable {length : UInt64} {s u : MapReading} {n : Int}

lemma advance_eq_some (h : advance length s n = some u) :
    s.i+n < 2^31 ∧ u = test length {s with i := s.i+n} := by
  rw [advance] at h
  split at h
  · next hlt => exact ⟨hlt,(some.inj h).symm⟩
  · cases h

lemma going_advance (h : advance length s n = some u) (hi : 0 ≤ s.i)
    (hn : (length.toNat : Int)-2^64 ≤ n)
    (hw : s.i+n < length.toNat → ∃ w ∈ s.writes, s.i+n ≤ w.1+w.2.length) :
    Going length u := by
  obtain ⟨hlt,rfl⟩ := advance_eq_some h
  intro hno
  rw [test_returned] at hno
  simp only [ite_eq_left_iff,reduceCtorEq,imp_false,not_not] at hno
  -- a negative count is a large one for the test
  have hp : 0 ≤ s.i+n := by omega
  have hl : s.i+n < length.toNat := by omega
  exact ⟨hp,hl,.inr (hw hl)⟩

section

variable {map : MapValue} {r : MapRange}

lemma turn_empty (hs : s.returned = none) (hr : map.getRange s.readptr = some none)
    (target : TargetRead) : turn map length s target =
      some {s with writes := s.writes ++ [(s.i,[])], returned := some s.i} := by
  simp [turn,hs,partialRead,hr]

lemma turn_got (hs : s.returned = none) (hr : map.getRange s.readptr = some (some r))
    {data taken : Bytes} (ht : taken = data.take (min (min r.availableToRead.toNat
      (length-UInt64.ofInt s.i).toNat) (2^31-1))) :
    turn map length s (.got data) =
      let next := {s with
        readptr := s.readptr+UInt64.ofNat taken.length
        writes := s.writes ++ [(s.i,taken)]}
      if taken = [] then some {next with returned := some s.i}
      else advance length next taken.length := by
  simp only [turn,hs,isSome_none,Bool.false_eq_true,if_false,partialRead,hr,map_some,
    bind_some,← ht,Int.natCast_eq_zero,length_eq_zero_iff]
  by_cases hn : taken = []
  · simp only [if_pos hn]
  · simp only [if_neg hn,if_neg (Int.not_lt.mpr (Int.natCast_nonneg taken.length))]

variable (length) in
lemma turn_error (hs : s.returned = none) (hr : map.getRange s.readptr = some (some r))
    {target : TargetRead} (ht : ∀ data, target ≠ .got data) :
    ∃ data : Bytes, data.length ≤ (length-UInt64.ofInt s.i).toNat ∧
      turn map length s target = advance length {s with writes := s.writes ++ [(s.i,data)] ++
        [(s.i,replicate (length-UInt64.ofInt s.i).toNat 0)]} (asInt length) := by
  cases target with
  | unopened => exact ⟨[],Nat.zero_le _,by simp [turn,hs,partialRead,hr]⟩
  | failed data =>
    refine ⟨data.take (min r.availableToRead.toNat (length-UInt64.ofInt s.i).toNat),?_,?_⟩
    · rw [length_take]
      omega
    · simp [turn,hs,partialRead,hr]
  | got data => exact absurd rfl (ht data)

lemma turn_going (hg : Going length s) {target : TargetRead}
    (h : turn map length s target = some u) : Going length u := by
  cases hs : s.returned with
  | some result =>
    simp only [turn,hs,isSome_some,if_true,some.injEq] at h
    exact h ▸ hg
  | none =>
    obtain ⟨hp,hlt,_⟩ := hg hs
    have hrs := toNat_rest hp hlt
    have hbd := asInt_bounds length
    cases hr : map.getRange s.readptr with
    | none => simp [turn,hs,partialRead,hr] at h
    | some range =>
      cases range with
      | none =>
        rw [turn_empty hs hr,some.injEq] at h
        subst h
        intro hn
        cases hn
      | some r =>
        by_cases ht : ∃ data, target = .got data
        · obtain ⟨data,rfl⟩ := ht
          rw [turn_got hs hr rfl] at h
          split at h
          · rw [some.injEq] at h
            subst h
            intro hn
            cases hn
          · have hl := length.toNat_lt
            refine going_advance h hp (by omega) fun _ => ?_
            exact ⟨_,mem_append_right _ mem_cons_self,le_rfl⟩
        · obtain ⟨data,_,heq⟩ := turn_error length hs hr fun data hd => ht ⟨data,hd⟩
          rw [heq] at h
          refine going_advance h hp hbd.2.2 fun hlw =>
            ⟨_,mem_append_right _ mem_cons_self,?_⟩
          simp only [length_replicate] at hlw ⊢
          omega

variable (length) in
lemma advance_bounded_iff {bound : Int} (hbd : bound = length.toNat) :
    (∃ u, advance length s n = some u ∧ u.writes = s.writes ∧
      ∀ result ∈ u.returned, result ≤ bound) ↔ s.i+n < 2^31 ∧ s.i+n ≤ bound := by
  constructor
  · rintro ⟨u,hu,_,hrs⟩
    obtain ⟨hlt,rfl⟩ := advance_eq_some hu
    refine ⟨hlt,?_⟩
    rw [test_returned] at hrs
    by_contra hgt
    have := hrs (s.i+n)
    rw [if_neg (by dsimp only; omega)] at this
    exact hgt (this rfl)
  · rintro ⟨hlt,hle⟩
    refine ⟨test length {s with i := s.i+n},by rw [advance,if_pos hlt],rfl,fun result hrs => ?_⟩
    rw [test_returned] at hrs
    split at hrs
    · cases hrs
    · exact (some.inj hrs) ▸ hle

end

variable {self : MapDriver}

lemma count_le (hg : Going (self.clip length) s) (hb : self.Bounded length s)
    (hs : s.returned = none) : s.i ≤ self.bound length := by
  obtain ⟨_,_,hz | ⟨w,hw,hle⟩⟩ := hg hs
  · rw [hz,bound]
    omega
  · exact hle.trans (hb.1 w hw)

lemma writes_snoc {writes : List (Int × Bytes)} {i bound : Int} {data : Bytes} :
    (∀ w ∈ writes ++ [(i,data)], w.1+w.2.length ≤ bound) ↔
      (∀ w ∈ writes, w.1+w.2.length ≤ bound) ∧ i+data.length ≤ bound := by simp [or_imp,forall_and]

section

variable {r : MapRange} (hg : Going (self.clip length) s) (hb : self.Bounded length s)
  (hs : s.returned = none) (hr : self.map.getRange s.readptr = some (some r))
include hg hb hs hr

lemma got_bounded_iff (data : Bytes) :
    (∃ u, turn self.map (self.clip length) s (.got data) = some u ∧ self.Bounded length u) ↔
      let n := min data.length (min (min r.availableToRead.toNat
        (self.clip length-UInt64.ofInt s.i).toNat) (2^31-1))
      n = 0 ∨ signed self.readptr ≤ signed self.map.size ∧ s.i+n < 2^31 := by
  obtain ⟨hp,hlt,_⟩ := hg hs
  have hc := count_le hg hb hs
  have hrs := toNat_rest hp hlt
  rw [turn_got hs hr rfl]
  generalize hn : min (min r.availableToRead.toNat (self.clip length-UInt64.ofInt s.i).toNat)
    (2^31-1) = n
  have hl : (data.take n).length = min data.length n := by rw [length_take,min_comm]
  rw [← hl]
  by_cases hnl : data.take n = []
  · rw [if_pos hnl,hnl]
    exact iff_of_true ⟨_,rfl,writes_snoc.mpr ⟨hb.1,by simpa using hc⟩,by simpa using hc⟩
      (.inl rfl)
  · have hne : (data.take n).length ≠ 0 := fun h => hnl (length_eq_zero_iff.mp h)
    rw [if_neg hnl,or_iff_right hne]
    rcases self.bound_eq length with ⟨hin,hbd⟩ | ⟨ho,hbd⟩
    · have ha := advance_bounded_iff (self.clip length) (s := {s with
        readptr := s.readptr+UInt64.ofNat (data.take n).length
        writes := s.writes ++ [(s.i,data.take n)]}) (n := (data.take n).length) hbd
      have hf : s.i+(data.take n).length ≤ self.bound length := by omega
      constructor
      · rintro ⟨u,hu,_⟩
        exact ⟨hin,(advance_eq_some hu).1⟩
      · rintro ⟨_,hsm⟩
        obtain ⟨u,hu,hwr,hre⟩ := ha.mpr ⟨hsm,hf⟩
        refine ⟨u,hu,?_,hre⟩
        rw [hwr]
        exact writes_snoc.mpr ⟨hb.1,hf⟩
    · refine iff_of_false ?_ fun h => ho h.1
      rintro ⟨u,hu,hw,_⟩
      obtain ⟨_,rfl⟩ := advance_eq_some hu
      have := (writes_snoc.mp hw).2
      omega

lemma error_bounded_iff {target : TargetRead} (ht : ∀ data, target ≠ .got data) :
    (∃ u, turn self.map (self.clip length) s target = some u ∧ self.Bounded length u) ↔
      signed self.readptr ≤ signed self.map.size ∧ s.i+asInt (self.clip length) < 2^31 ∧
        s.i+asInt (self.clip length) ≤ (self.clip length).toNat := by
  obtain ⟨hp,hlt,_⟩ := hg hs
  have hrs := toNat_rest hp hlt
  obtain ⟨data,hd,heq⟩ := turn_error (self.clip length) hs hr ht
  rw [heq]
  rcases self.bound_eq length with ⟨hin,hbd⟩ | ⟨ho,hbd⟩
  · have ha := advance_bounded_iff (self.clip length) (s := {s with
      writes := s.writes ++ [(s.i,data)] ++
        [(s.i,replicate (self.clip length-UInt64.ofInt s.i).toNat 0)]})
      (n := asInt (self.clip length)) hbd
    have hwrt : ∀ w ∈ s.writes ++ [(s.i,data)] ++
        [(s.i,replicate (self.clip length-UInt64.ofInt s.i).toNat 0)],
        w.1+w.2.length ≤ self.bound length := by
      refine writes_snoc.mpr ⟨writes_snoc.mpr ⟨hb.1,?_⟩,?_⟩
      · omega
      · rw [length_replicate]
        omega
    rw [← hbd]
    constructor
    · rintro ⟨u,hu,_,hre⟩
      obtain ⟨hlt,rfl⟩ := advance_eq_some hu
      exact ⟨hin,ha.mp ⟨_,hu,rfl,hre⟩⟩
    · rintro ⟨_,hf⟩
      obtain ⟨u,hu,hwr,hre⟩ := ha.mpr hf
      exact ⟨u,hu,by rw [hwr]; exact hwrt,hre⟩
  · refine iff_of_false ?_ fun h => ho h.1
    rintro ⟨u,hu,hw,_⟩
    obtain ⟨_,rfl⟩ := advance_eq_some hu
    have := (writes_snoc.mp hw).2
    rw [length_replicate] at this
    omega

end

lemma turn_bounded_iff (hg : Going (self.clip length) s) (hb : self.Bounded length s)
    (target : TargetRead) :
    (∃ u, turn self.map (self.clip length) s target = some u ∧ self.Bounded length u) ↔
      self.Allows length s target := by
  cases hs : s.returned with
  | some result =>
    refine iff_of_true ⟨s,by simp [turn,hs],hb⟩ fun hn => ?_
    rw [hs] at hn
    cases hn
  | none =>
    have hc := count_le hg hb hs
    simp only [Allows,hs,forall_const]
    cases hr : self.map.getRange s.readptr with
    | none => simp [turn,hs,partialRead,hr]
    | some range =>
      cases range with
      | none =>
        refine iff_of_true ⟨_,turn_empty hs hr target,writes_snoc.mpr ⟨hb.1,by simpa using hc⟩,
          by simpa using hc⟩ ⟨none,rfl,by simp⟩
      | some r =>
        simp only [some.injEq,exists_eq_left',mem_def,forall_eq']
        cases target with
        | got data => exact got_bounded_iff hg hb hs hr data
        | unopened => exact error_bounded_iff hg hb hs hr (by simp)
        | failed data => exact error_bounded_iff hg hb hs hr (by simp)

lemma start_going (t : MapDriver) (length : UInt64) :
    Going (t.clip length) (t.start length) := by
  intro hn
  rw [start,test_returned] at hn
  split at hn
  · next h => exact ⟨le_rfl,h,.inl rfl⟩
  · cases hn

lemma start_bounded (t : MapDriver) (length : UInt64) :
    t.Bounded length (t.start length) := by
  refine ⟨by simp [start,test],fun result hrs => ?_⟩
  rw [start,test_returned] at hrs
  split at hrs
  · cases hrs
  · cases hrs
    exact le_min (Int.natCast_nonneg _) (le_max_left _ _)

/-- A read stays within the bound, whatever the targets do, as long as every turn is allowed. -/
theorem read_bounded_iff (self : MapDriver) (length : UInt64) (targets : List TargetRead) :
    (∀ front, front <+: targets → ∃ s,
      run (turn self.map (self.clip length)) (self.start length) front = some s ∧
        self.Bounded length s) ↔
      ∀ front target, front ++ [target] <+: targets → ∀ s,
        run (turn self.map (self.clip length)) (self.start length) front = some s →
          self.Allows length s target :=
  prefixes_iff (P := fun _ _ => True) (I := fun _ s => Going (self.clip length) s)
    (G := fun _ s => self.Bounded length s) (C := fun _ s target => self.Allows length s target)
    (start_going self length) (start_bounded self length)
    (fun _ _ _ _ _ hg ht => turn_going hg ht)
    (fun _ target _ _ hg hb => turn_bounded_iff hg hb target) fun _ _ _ => trivial

def tenBytes (readptr : UInt64) : MapDriver where
  map := ⟨10,1,[RDFURN.set (chars ['a'])],.con 100 0,[⟨0,0,0⟩],-1,-1⟩
  readptr := readptr

/-- 10 bytes are asked for. After 4 of them the target fails, and 14 are returned. -/
theorem error_after_data_fails :
    let self := tenBytes 0
    ∃ s, run (turn self.map (self.clip 10)) (self.start 10)
        [.got (replicate 4 7),.failed []] = some s ∧
      self.bound 10 = 10 ∧ s.returned = some 14 ∧ ¬ self.Bounded 10 s := by
  refine ⟨_,rfl,by decide,by decide +kernel,fun h => ?_⟩
  exact absurd (h.2 14 (by decide +kernel)) (by decide)

/-- Behind the end of the stream there is nothing to read, and 5 bytes are read. -/
example : let self := tenBytes 20
    self.bound 5 = 0 ∧ ∃ s, run (turn self.map (self.clip 5)) (self.start 5)
      [.got (replicate 5 7)] = some s ∧ s.returned = some 5 :=
  ⟨by decide,_,rfl,by decide +kernel⟩

end MapDriver

end Aff4
