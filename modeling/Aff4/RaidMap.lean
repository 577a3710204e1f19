import Aff4.Lib.Strtoll
import Aff4.Memory

/-! Reading the map of a RAID set (`parse_map` of raid_reconstructor.c). -/

namespace Aff4.Raid

open LittleEndian Text List Option Function

/-- The target of a block is given by the number of its disk. -/
structure MapDescription where
  description : Nat × Nat → Int := fun _ => 0
  map : Nat → Option (Nat × Nat) := fun _ => none
  imagePeriod : Int := 0
  targetPeriod : Nat
  blocksize : Int
  size : UInt64

/-- An element at its row and column. It is a number, or none for parity. -/
abbrev Cell := (Nat × Nat) × Option Int

def element (text : Bytes) : Option Int :=
  if text.head? = some 112 ∨ text.head? = some 80 then none else some (wrapInt (strtoll text))

/-- The length of the text is an `int`. -/
def elements (map : Bytes) : List (Option Int) :=
  ((map.take (wrapInt map.length).toNat).splitOn 44).map element

section

variable (disks : Nat)

def cells : Nat → Nat → List (Option Int) → List Cell
  | _, _, [] => []
  | j, k, e :: es => ((k,j),e) :: if disks ≤ j+1 then cells 0 (k+1) es else cells (j+1) k es

/-- A write outside the table has no result. -/
def MapDescription.write (self : MapDescription) (row column : Nat) (value : Int) :
    Option MapDescription :=
  if row < self.targetPeriod ∧ column < disks then
    some { self with description := update self.description (row,column) value }
  else none

def MapDescription.record (self : MapDescription) (p : Nat × Nat) (b : Int) : MapDescription :=
  { self with
    map := update self.map b.toNat (some p), imagePeriod := max self.imagePeriod (b+1) }

/-- The loop of `parse_map`, which returns NULL for a number out of range. Row and column of a
parity element are interchanged. -/
def fill (mapSize : Nat) : List Cell → MapDescription → Option (Option MapDescription)
  | [], self => some (some self)
  | (p,none) :: cs, self => (self.write disks p.2 p.1 (-1)).bind (fill mapSize cs)
  | (p,some b) :: cs, self => (self.write disks p.1 p.2 b).bind fun self =>
      if b < 0 ∨ self.targetPeriod*(disks-1) < b then some none
      else if b < mapSize then fill mapSize cs (self.record p b) else none

/-- The size of the table `map`, of which there is nothing where it cannot be allocated. -/
def mapSize (period : Nat) : Nat :=
  if tallocArray 16 (period*(disks-1)) then period*(disks-1) else 0

/-- `size` is that of the first disk. -/
def parseMap (map : Bytes) (blocksize : Int) (size : UInt64) : Option (Option MapDescription) :=
  let period := (elements map).length/disks
  (toInt (elements map).length).bind fun _ =>
    if (elements map).length%disks ≠ 0 then some none
    else if tallocArray pointerSize period ∧ tallocArray 4 disks then
      fill disks (mapSize disks period) (cells disks 0 0 (elements map))
        { targetPeriod := period, blocksize, size := size*UInt64.ofNat (disks-1) }
    else none

def Recorded (self : MapDescription) : Cell → Prop
  | (p,none) => self.description p = -1
  | (p,some b) => self.description p = b ∧ self.map b.toNat = some p

def Right (cs : List Cell) : Option (Option MapDescription) → Prop
  | none => False
  | some none => True
  | some (some self) => ∀ c ∈ cs, Recorded self c

variable (period : Nat)

/-- The writes up to a number out of range are inside the tables. -/
def Safe : List Cell → Prop
  | [] => True
  | (p,none) :: cs => (p.2 < period ∧ p.1 < disks) ∧ Safe cs
  | (_,some b) :: cs => (b < 0 ∨ period*(disks-1) < b) ∨ b < mapSize disks period ∧ Safe cs

def Ranged (cs : List Cell) : Prop := ∀ c ∈ cs, ∀ b ∈ c.2, 0 ≤ b ∧ b ≤ period*(disks-1)

/-- Parity is symmetric, and no number occurs twice. -/
structure Regular (cs : List Cell) : Prop where
  paired : ∀ p, (p,none) ∈ cs → (p.swap,none) ∈ cs
  distinct : ∀ p q b, (p,some b) ∈ cs → (q,some b) ∈ cs → p = q

/-- The number of elements is refused, or nothing is written outside the tables and the map is
regular unless a number is out of range. -/
def Acceptable (es : List (Option Int)) : Prop :=
  es.length < 2^31 ∧ (es.length%disks ≠ 0 ∨
    ((tallocArray pointerSize (es.length/disks) ∧ tallocArray 4 disks) ∧
      Safe disks (es.length/disks) (cells disks 0 0 es) ∧
      (Ranged disks (es.length/disks) (cells disks 0 0 es) → Regular (cells disks 0 0 es))))

end

/-! Tables after some writes. -/

def put {A B : Type} [DecidableEq A] (f : A → B) (ws : List (A × B)) : A → B :=
  ws.foldl (fun f w => update f w.1 w.2) f

section

variable {A B : Type} [DecidableEq A] {f : A → B} {ws : List (A × B)} {x : A} {v : B}

lemma put_of_not_mem (h : ∀ w ∈ ws, w.1 ≠ x) : put f ws x = f x := by
  induction ws generalizing f with
  | nil => rfl
  | cons w ws ih =>
    refine (ih fun w hw => h w (mem_cons_of_mem _ hw)).trans ?_
    exact update_of_ne (h w mem_cons_self).symm _ _

lemma put_of_mem (hw : ∃ w ∈ ws, w.1 = x) (hv : ∀ w ∈ ws, w.1 = x → w.2 = v) : put f ws x = v := by
  induction ws generalizing f with
  | nil => simp at hw
  | cons w ws ih =>
    by_cases h : ∃ w ∈ ws, w.1 = x
    · exact ih h fun w hw => hv w (mem_cons_of_mem _ hw)
    · obtain ⟨u,hu,rfl⟩ := hw
      obtain rfl | hu := mem_cons.mp hu
      · refine (put_of_not_mem fun w hw hx => h ⟨w,hw,hx⟩).trans ?_
        exact (update_self ..).trans (hv u mem_cons_self rfl)
      · exact absurd ⟨u,hu,rfl⟩ h

end

/-- What a cell writes to `description`, and to `map`. -/
def written : Cell → (Nat × Nat) × Int
  | (p,none) => (p.swap,-1)
  | (p,some b) => (p,b)

def mapped (c : Cell) : Option (Nat × Option (Nat × Nat)) := c.2.map fun b => (b.toNat,some c.1)

def Outcome (disks period : Nat) (self : MapDescription) (cs : List Cell) :
    Option (Option MapDescription) → Prop
  | none => ¬ Safe disks period cs
  | some none => Safe disks period cs ∧ ¬ Ranged disks period cs
  | some (some final) => Safe disks period cs ∧ Ranged disks period cs ∧
      final.description = put self.description (cs.map written) ∧
      final.map = put self.map (cs.filterMap mapped)

variable {disks period : Nat} {s s' : MapDescription} {c : Cell} {cs : List Cell}

lemma Outcome.cons {r : Option (Option MapDescription)} (h : Outcome disks period s' cs r)
    (hs : Safe disks period (c :: cs) ↔ Safe disks period cs)
    (hr : Ranged disks period (c :: cs) ↔ Ranged disks period cs)
    (hd : s'.description = update s.description (written c).1 (written c).2)
    (hm : put s'.map (cs.filterMap mapped) = put s.map ((c :: cs).filterMap mapped)) :
    Outcome disks period s (c :: cs) r := by
  match r, h with
  | none, h => exact fun h' => h (hs.mp h')
  | some none, h => exact ⟨hs.mpr h.1,fun h' => h.2 (hr.mp h')⟩
  | some (some final), ⟨h1,h2,h3,h4⟩ =>
    exact ⟨hs.mpr h1,hr.mpr h2,h3.trans (by rw [hd]; rfl),h4.trans hm⟩

lemma fill_outcome (s : MapDescription) (hin : ∀ c ∈ cs, c.1.1 < s.targetPeriod ∧ c.1.2 < disks) :
    Outcome disks s.targetPeriod s cs (fill disks (mapSize disks s.targetPeriod) cs s) := by
  induction cs generalizing s with
  | nil => exact ⟨trivial,by simp [Ranged],rfl,rfl⟩
  | cons c cs ih =>
    obtain ⟨p,e⟩ := c
    have hrs : ∀ c ∈ cs, _ := fun c hc => hin c (mem_cons_of_mem _ hc)
    cases e with
    | none =>
      rw [fill,MapDescription.write]
      split
      case isFalse h => exact fun hs => h hs.1
      case isTrue h =>
        have hn := ih { s with description := update s.description (p.2,p.1) (-1) } hrs
        exact hn.cons (c := (p,none)) (and_iff_right h) (by simp [Ranged]) rfl rfl
    | some b =>
      rw [fill,MapDescription.write,if_pos (hin _ mem_cons_self),bind_some]
      split
      case isTrue h =>
        refine ⟨.inl h,fun hr => ?_⟩
        have hb := hr _ mem_cons_self b rfl
        dsimp only at h
        omega
      case isFalse h =>
        split
        case isFalse hb => exact fun hs => hs.elim h fun hs => hb hs.1
        case isTrue hb =>
          have hra : 0 ≤ b ∧ b ≤ s.targetPeriod*(disks-1) := by dsimp only at h; omega
          have hn := ih ({ s with description := update s.description p b }.record p b) hrs
          exact hn.cons (c := (p,some b)) ((or_iff_right h).trans (and_iff_right hb))
            (by simp [Ranged,MapDescription.record,hra]) rfl rfl

lemma mem_cells {j k : Nat} (hj : j < disks) {es : List (Option Int)} {p : Nat × Nat}
    {e : Option Int} (h : (p,e) ∈ cells disks j k es) :
    p.2 < disks ∧ ∃ i, p.1*disks+p.2 = k*disks+j+i ∧ es[i]? = some e := by
  induction es generalizing j k with
  | nil => simp [cells] at h
  | cons a es ih =>
    obtain h | h := mem_cons.mp h
    · cases h
      exact ⟨hj,0,rfl,rfl⟩
    · split at h
      · obtain ⟨hp,i,hi,he⟩ := ih (by omega) h
        refine ⟨hp,i+1,?_,he⟩
        rw [hi,Nat.succ_mul]
        omega
      · obtain ⟨hp,i,hi,he⟩ := ih (by omega) h
        exact ⟨hp,i+1,by omega,he⟩

/-- The tables are right exactly for a regular map. -/
lemma right_put_iff (ho : ∀ p e e', (p,e) ∈ cs → (p,e') ∈ cs → e = e')
    (hr : Ranged disks period cs) (hd : s.description = put (fun _ => 0) (cs.map written))
    (hm : s.map = put (fun _ => none) (cs.filterMap mapped)) :
    (∀ c ∈ cs, Recorded s c) ↔ Regular cs := by
  constructor
  · refine fun h => ⟨fun p hp => ?_,fun p q b hp hq => ?_⟩
    · have hrc : s.description p = -1 := h _ hp
      by_contra hn
      rw [hd,put_of_not_mem] at hrc
      · cases hrc
      · rintro w hw rfl
        obtain ⟨⟨q,_ | b⟩,hq,rfl⟩ := mem_map.mp hw
        · exact hn (by simpa [written] using hq)
        · cases ho q _ _ hp hq
    · exact some.inj ((h _ hp).2.symm.trans (h _ hq).2)
  · rintro h ⟨p,_ | b⟩ hc
    · refine (congrFun hd p).trans (put_of_mem ⟨_,mem_map_of_mem (h.paired p hc),by simp [written]⟩ ?_)
      rintro w hw rfl
      obtain ⟨⟨q,_ | b⟩,hq,rfl⟩ := mem_map.mp hw
      · rfl
      · cases ho q _ _ hc hq
    · refine ⟨(congrFun hd p).trans (put_of_mem ⟨_,mem_map_of_mem hc,rfl⟩ ?_),
        (congrFun hm _).trans (put_of_mem ⟨_,mem_filterMap.mpr ⟨_,hc,rfl⟩,rfl⟩ ?_)⟩
      · rintro w hw rfl
        obtain ⟨⟨q,_ | b'⟩,hq,rfl⟩ := mem_map.mp hw
        · cases ho _ _ _ hc (h.paired q hq)
        · exact some.inj (ho _ _ _ hq hc)
      · intro w hw hx
        obtain ⟨⟨q,_ | b'⟩,hq,he⟩ := mem_filterMap.mp hw
        · cases he
        · cases he
          have hb := hr _ hc b rfl
          have hb' := hr _ hq b' rfl
          obtain rfl : b' = b := by simp only at hx; omega
          rw [h.distinct _ _ _ hq hc]

theorem parseMap_right_iff (map : Bytes) (hd : 2 ≤ disks) (blocksize : Int) (size : UInt64) :
    Right (cells disks 0 0 (elements map)) (parseMap disks map blocksize size) ↔
      Acceptable disks (elements map) := by
  generalize hes : elements map = es
  have h1 : ∀ p e e', (p,e) ∈ cells disks 0 0 es → (p,e') ∈ cells disks 0 0 es → e = e' := by
    intro p e e' h h'
    obtain ⟨-,i,hi,he⟩ := mem_cells (by omega) h
    obtain ⟨-,i',hi',he'⟩ := mem_cells (by omega) h'
    obtain rfl : i = i' := by omega
    exact some.inj (he.symm.trans he')
  rw [parseMap,hes,toInt,Acceptable]
  by_cases hl : es.length < 2^31
  case neg => rw [if_neg (by omega)]; exact iff_of_false id fun h => hl h.1
  rw [if_pos (by omega),bind_some,and_iff_right hl]
  by_cases hm : es.length%disks = 0
  case neg => rw [if_pos hm]; exact iff_of_true trivial (.inl hm)
  rw [if_neg (not_not.mpr hm),or_iff_right (not_not.mpr hm)]
  split
  case isFalse h => exact iff_of_false id fun h' => h h'.1
  case isTrue h =>
    rw [and_iff_right h]
    have hin : ∀ c ∈ cells disks 0 0 es, c.1.1 < es.length/disks ∧ c.1.2 < disks := by
      intro c hc
      obtain ⟨hp,i,hi,he⟩ := mem_cells (by omega) hc
      have hlt := (List.getElem?_eq_some_iff.mp he).1
      refine ⟨(Nat.lt_div_iff_mul_lt' (Nat.dvd_of_mod_eq_zero hm) _).mpr ?_,hp⟩
      rw [Nat.mul_comm]
      omega
    have ho := fill_outcome (.mk (fun _ => 0) (fun _ => none) 0 (es.length/disks) blocksize
      (size*UInt64.ofNat (disks-1))) hin
    generalize fill disks (mapSize disks (es.length/disks)) (cells disks 0 0 es) _ =
      outcome at ho ⊢
    rcases outcome with _ | _ | final
    · exact iff_of_false id fun h => ho h.1
    · exact iff_of_true trivial ⟨ho.1,fun h => absurd h ho.2⟩
    · obtain ⟨hs,hr,hds,hmp⟩ := ho
      rw [and_iff_right hs,imp_iff_right hr]
      exact right_put_iff h1 hr hds hmp

theorem parseMap_right_iff_two : Right (cells 2 0 0 (elements [112,44,48,44,49,44,112]))
    (parseMap 2 [112,44,48,44,49,44,112] 512 0) ↔
      Acceptable 2 (elements [112,44,48,44,49,44,112]) :=
  parseMap_right_iff _ (Nat.le_refl 2) 512 0

/-- Of `0,p` for two disks the parity element is written to row 1 of a table of one row. -/
theorem parseMap_writes_outside : elements [48,44,112] = [some 0,none] ∧
    ¬ Right (cells 2 0 0 (elements [48,44,112])) (parseMap 2 [48,44,112] 512 0) := by
  refine ⟨by decide +kernel,fun h => ?_⟩
  rw [isNone_iff_eq_none.mp (by decide +kernel : (parseMap 2 [48,44,112] 512 0).isNone)] at h
  exact h

end Aff4.Raid
