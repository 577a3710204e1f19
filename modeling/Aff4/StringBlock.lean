import Aff4.File
import Aff4.Lib.Buffer
import Aff4.Lib.ByteFile
import Aff4.Lib.Transition

/-! StringIO of stringio.c with its block of memory, and the byte file that it is meant to be. -/

namespace Aff4

open LittleEndian Buffer ByteFile Transition List Option Nat

/-- `data` is all of the block that talloc was asked for last; the first `size` bytes are the
content. With lengths below `2^30` none of the numbers wraps. -/
structure StringBlock where
  data : Bytes
  size : Nat
  allocSize : Nat
  readptr : Nat
  deriving DecidableEq, Repr

def SeekFrom.target (readptr size : Nat) (offset : Int) : SeekFrom → Int
  | .set => offset
  | .cur => readptr+offset
  | .fromEnd => size+offset

/-- The block as far as it goes, and what the memory after it holds. NULL is no block. -/
def tallocRealloc (junk : Junk) (data : Bytes) (size : Nat) : Option Bytes :=
  if tallocNamedConst size then some (overlay junk size (data.take size)) else none

namespace StringBlock

def con (junk : Junk) : StringBlock := ⟨overlay junk 1024 [],0,1024,0⟩

/-- The object with another block. Without one, the content would be longer than the block. -/
def resize (junk : Junk) (self : StringBlock) (size : Nat) : Option StringBlock :=
  (tallocRealloc junk self.data size).map fun data => {self with data := data}

def copyIn (self : StringBlock) (data : Bytes) : Option StringBlock :=
  (writeAt self.data self.readptr data).map fun block =>
    {self with data := block, readptr := self.readptr+data.length}

def write (junk : Junk) (self : StringBlock) (data : Bytes) : Option StringBlock := do
  let last := self.readptr+data.length
  let self ← if self.allocSize ≤ last then
      resize junk {self with allocSize := self.allocSize+last} (self.allocSize+last)
    else some self
  copyIn {self with size := max self.size last} data

/-- `text` is what the format gives. It is copied up to the first NUL. -/
def sprintf (junk : Junk) (self : StringBlock) (text : Bytes) : Option StringBlock := do
  if tallocNamedConst (text.length+1) then
    let data := cstring text
    let last := self.readptr+data.length
    let self ← if self.size < last then resize junk {self with size := last} (last+1)
      else some self
    self.copyIn data
  else none

def read (self : StringBlock) (len : Nat) : Option (Bytes × StringBlock) :=
  let len := if self.size < self.readptr+len then self.size-self.readptr else len
  (readAt self.data self.readptr len).map fun data =>
    (data,{self with readptr := self.readptr+len})

def seek (junk : Junk) (self : StringBlock) (offset : Int) (whence : SeekFrom) :
    Option StringBlock :=
  let readptr := (whence.target self.readptr self.size offset%2^64).toNat
  if self.size < readptr then
    resize junk {self with size := readptr, readptr := readptr} readptr
  else some {self with readptr := readptr}

def truncate (self : StringBlock) (len : Nat) : StringBlock :=
  {self with size := len, readptr := min self.readptr len}

def skip (self : StringBlock) (len : Nat) : Option StringBlock := do
  let len := min len self.size
  let moved ← readAt self.data len (self.size-len)
  let data ← writeAt self.data 0 moved
  some {self with data := data, size := self.size-len, readptr := 0}

inductive Op where
  | write (data : Bytes)
  | sprintf (text : Bytes)
  | seek (offset : Int) (whence : SeekFrom)
  | truncate (len : Nat)
  | skip (len : Nat)
  | read (len : Nat)
  deriving DecidableEq, Repr

/-- A call gives a number, and `read` also some bytes. New memory may hold anything, and
something else at each call. -/
def step (self : StringBlock) : Junk × Op → Option ((Nat × Bytes) × StringBlock)
  | (junk,.write data) => (self.write junk data).map fun s => ((data.length,[]),s)
  | (junk,.sprintf text) => (self.sprintf junk text).map fun s => (((cstring text).length,[]),s)
  | (junk,.seek offset whence) => (self.seek junk offset whence).map fun s => ((s.readptr,[]),s)
  | (_,.truncate len) => some ((0,[]),self.truncate len)
  | (_,.skip len) => (self.skip len).map fun s => ((0,[]),s)
  | (_,.read len) => (self.read len).map fun r => ((r.1.length,r.1),r.2)

/-- The same calls on a byte file. A seek before the start and a truncation to more than there
is are not allowed. -/
def reference (file : ByteFile UInt8) :
    Junk × Op → Option ((Nat × List (Option UInt8)) × ByteFile UInt8)
  | (_,.write data) => some ((data.length,[]),file.write data)
  | (_,.sprintf text) => some (((cstring text).length,[]),file.write (cstring text))
  | (_,.seek offset whence) =>
      let pos := whence.target file.pos file.content.length offset
      if 0 ≤ pos ∧ pos < 2^64 then some ((pos.toNat,[]),file.seek pos.toNat) else none
  | (_,.truncate len) => if len ≤ file.content.length then some ((0,[]),file.truncate len) else none
  | (_,.skip len) => some ((0,[]),file.skip len)
  | (_,.read len) => some (((file.read len).1.length,(file.read len).1),(file.read len).2)

structure Refines (s : StringBlock) (file : ByteFile UInt8) : Prop where
  size : s.size = file.content.length
  readptr : s.readptr = file.pos
  fits : s.size ≤ s.data.length
  content : Matches file.content (s.data.take s.size)

def SameResult (out : Nat × Bytes) (ref : Nat × List (Option UInt8)) : Prop :=
  out.1 = ref.1 ∧ Matches ref.2 out.2

/-- In every call of the run each access is inside the block, and the content and the results
are those of a byte file. -/
def Safe (junk : Junk) (events : List (Junk × Op)) : Prop :=
  Mirrors step reference Refines SameResult (con junk) .empty events

/-- The block that a call leaves holds what the call puts there and all of the content. Only
`write` looks at `allocSize`, which is not the size of the block when `seek` or `sprintf` have
changed that. -/
def Fits (s : StringBlock) : Op → Prop
  | .write data =>
      let last := s.readptr+data.length
      if s.allocSize ≤ last then
        s.allocSize+last < maxTallocSize ∧ s.size ≤ s.allocSize+last
      else last ≤ s.data.length
  | .sprintf text =>
      text.length+1 < maxTallocSize ∧
        (s.size < s.readptr+(cstring text).length →
          s.readptr+(cstring text).length+1 < maxTallocSize)
  | .seek offset whence =>
      let pos := whence.target s.readptr s.size offset
      s.size < pos → pos < maxTallocSize
  | _ => True

section

variable (junk : Junk) {size : Nat}

lemma resize_some (h : size < maxTallocSize) (s : StringBlock) :
    ∃ data, s.resize junk size = some {s with data := data} ∧ data.length = size ∧
      ∀ k, k ≤ size → k ≤ s.data.length → data.take k = s.data.take k := by
  refine ⟨overlay junk size (s.data.take size),?_,?_,fun k hk hd => ?_⟩
  · simp [resize,tallocRealloc,tallocNamedConst,h]
  · simp [overlay]
  · rw [overlay,take_append_of_le_length (by simp; omega),take_take,min_eq_left hk]

lemma resize_none (h : maxTallocSize ≤ size) (s : StringBlock) : s.resize junk size = none := by
  simp [resize,tallocRealloc,tallocNamedConst,not_lt.mpr h]

end

lemma Refines.holds {s : StringBlock} {file : ByteFile UInt8} (hr : s.Refines file) :
    Matches file.content (s.data.take file.content.length) := hr.size ▸ hr.content

section

variable {self t : StringBlock} {file : ByteFile UInt8} {junk : Junk} {data : Bytes}

lemma copyIn_some {n : Nat} (hp : self.readptr ≤ n)
    (hsz : self.size = max n (self.readptr+data.length)) (hf : self.size ≤ self.data.length) :
    ∃ block, self.copyIn data =
        some {self with data := block, readptr := self.readptr+data.length} ∧
      block.length = self.data.length ∧
      block.take self.size = (self.data.take n).take self.readptr ++ data ++
        (self.data.take n).drop (self.readptr+data.length) := by
  obtain ⟨block,hb⟩ : ∃ block, writeAt self.data self.readptr data = some block :=
    ⟨_,writeAt_of_le (by omega)⟩
  refine ⟨block,by rw [copyIn,hb,map_some],(writeAt_length hb).1,?_⟩
  rw [hsz,writeAt_content hb hp]

lemma copyIn_refines (hp : self.readptr = file.pos)
    (hsz : self.size = max file.content.length (file.pos+data.length))
    (hf : self.size ≤ self.data.length)
    (hc : Matches file.content (self.data.take file.content.length)) :
    ∃ t, self.copyIn data = some t ∧ t.Refines (file.write data) := by
  obtain ⟨block,hb,hl,ht⟩ := copyIn_some (hp ▸ file.inside) (hp ▸ hsz) hf
  refine ⟨_,hb,⟨?_,?_,?_,?_⟩⟩
  · rw [write_length]
    exact hsz
  · simp [ByteFile.write,hp]
  · simpa only [hl] using hf
  · simp only [ht,ByteFile.write,← hp]
    exact ((hc.take _).append (matches_some data)).append (hc.drop _)

lemma copyIn_length (h : self.copyIn data = some t) :
    t.data.length = self.data.length ∧ t.size = self.size ∧
      self.readptr+data.length ≤ self.data.length := by
  obtain ⟨block,hb,rfl⟩ := map_eq_some_iff.mp h
  exact ⟨(writeAt_length hb).1,rfl,(writeAt_length hb).2⟩

variable (junk) in
lemma write_refines (hr : self.Refines file) (hf : self.Fits (.write data)) :
    ∃ t, self.write junk data = some t ∧ t.Refines (file.write data) := by
  have hsz := hr.size
  have hp := hr.readptr
  have hin := hr.fits
  have hc := hr.holds
  simp only [Fits] at hf
  rw [write]
  split at hf
  · next hg =>
    obtain ⟨block,hb,hl,hk⟩ := resize_some junk hf.1
      {self with allocSize := self.allocSize+(self.readptr+data.length)}
    rw [if_pos hg,hb]
    refine copyIn_refines hp ?_ ?_ ?_
    · simp [hsz,hp]
    · simp only [hl]
      omega
    · simpa only [hk _ (hsz ▸ hf.2) (hsz ▸ hin)] using hc
  · next hrm =>
    rw [if_neg hrm]
    refine copyIn_refines hp ?_ ?_ hc
    · simp [hsz,hp]
    · simp only
      omega

lemma write_overruns (hf : ¬ self.Fits (.write data)) (h : self.write junk data = some t) :
    t.data.length < t.size := by
  simp only [Fits] at hf
  simp only [write] at h
  split at hf
  · next hg =>
    rw [if_pos hg] at h
    by_cases hm : self.allocSize+(self.readptr+data.length) < maxTallocSize
    · obtain ⟨block,hb,hln,-⟩ := resize_some junk hm
        {self with allocSize := self.allocSize+(self.readptr+data.length)}
      rw [hb] at h
      obtain ⟨hl,hsz,-⟩ := copyIn_length h
      simp only [hln] at hl
      simp only at hsz
      omega
    · rw [resize_none junk (not_lt.mp hm)] at h
      cases h
  · next hr =>
    rw [if_neg hr] at h
    obtain ⟨-,-,he⟩ := copyIn_length h
    simp only at he
    omega

variable (junk) in
lemma sprintf_refines {text : Bytes} (hr : self.Refines file) (hf : self.Fits (.sprintf text)) :
    ∃ t, self.sprintf junk text = some t ∧ t.Refines (file.write (cstring text)) := by
  have hsz := hr.size
  have hp := hr.readptr
  have hin := hr.fits
  have hc := hr.holds
  obtain ⟨ht,hgr⟩ := hf
  simp only [sprintf,tallocNamedConst,ht,decide_true,↓reduceIte]
  by_cases hg : self.size < self.readptr+(cstring text).length
  · obtain ⟨block,hb,hl,hk⟩ := resize_some junk (hgr hg)
      {self with size := self.readptr+(cstring text).length}
    rw [if_pos hg,hb]
    refine copyIn_refines hp ?_ ?_ ?_
    · simp only
      omega
    · simp only [hl]
      omega
    · simpa only [hk _ (by omega) (hsz ▸ hin)] using hc
  · rw [if_neg hg]
    refine copyIn_refines hp ?_ hin hc
    omega

lemma sprintf_none {text : Bytes} (hf : ¬ self.Fits (.sprintf text)) :
    self.sprintf junk text = none := by
  simp only [Fits,Classical.not_and_iff_not_or_not,Classical.not_imp,not_lt] at hf
  rw [sprintf]
  rcases hf with ht | ⟨hg,hm⟩
  · rw [if_neg (by simpa [tallocNamedConst] using ht)]
  · split
    · simp only [if_pos hg,resize_none junk hm]
      rfl
    · rfl

variable (junk) in
lemma seek_refines {pos : Nat} {offset : Int} {whence : SeekFrom} (hr : self.Refines file)
    (hp : whence.target file.pos file.content.length offset = pos) (hlt : pos < 2^64)
    (hf : self.Fits (.seek offset whence)) :
    ∃ t, self.seek junk offset whence = some t ∧ t.Refines (file.seek pos) ∧ t.readptr = pos := by
  have hsz := hr.size
  have hin := hr.fits
  rw [← hr.size,← hr.readptr] at hp
  have hw : (whence.target self.readptr self.size offset%2^64).toNat = pos := by omega
  simp only [Fits,hp,cast_lt] at hf
  simp only [seek,hw]
  by_cases hg : self.size < pos
  · obtain ⟨block,hb,hl,hk⟩ := resize_some junk (hf hg)
      {self with size := pos, readptr := pos}
    rw [if_pos hg,hb]
    refine ⟨_,rfl,⟨?_,rfl,le_of_eq hl.symm,?_⟩,rfl⟩
    · simp only [ByteFile.seek,length_append,length_replicate]
      omega
    · have hsp : block.take pos = self.data.take self.size ++ block.drop self.size := by
        rw [take_of_length_le (le_of_eq hl),← hk self.size (le_of_lt hg) hin,take_append_drop]
      have hn : pos-file.content.length = (block.drop self.size).length := by
        rw [length_drop,hl,hsz]
      simp only [ByteFile.seek,hsp,hn]
      exact hr.content.append (matches_none _)
  · rw [if_neg hg]
    have hsa : file.content ++ replicate (pos-file.content.length) none = file.content := by
      rw [Nat.sub_eq_zero_of_le (by omega),replicate_zero,append_nil]
    refine ⟨_,rfl,⟨?_,rfl,hin,?_⟩,rfl⟩
    · simp only [ByteFile.seek,hsa,hsz]
    · simpa only [ByteFile.seek,hsa] using hr.content

lemma seek_none {pos : Nat} {offset : Int} {whence : SeekFrom} (hr : self.Refines file)
    (hp : whence.target file.pos file.content.length offset = pos) (hlt : pos < 2^64)
    (hf : ¬ self.Fits (.seek offset whence)) : self.seek junk offset whence = none := by
  rw [← hr.size,← hr.readptr] at hp
  have hw : (whence.target self.readptr self.size offset%2^64).toNat = pos := by omega
  simp only [Fits,hp,cast_lt,Classical.not_imp,not_lt] at hf
  simp only [seek,hw]
  rw [if_pos hf.1,resize_none junk hf.2]

lemma truncate_refines {len : Nat} (hr : self.Refines file)
    (hl : len ≤ file.content.length) : (self.truncate len).Refines (file.truncate len) := by
  have hsz := hr.size
  have hin := hr.fits
  refine ⟨?_,?_,?_,?_⟩
  · simp [truncate,ByteFile.truncate,hl]
  · simp [truncate,ByteFile.truncate,hr.readptr]
  · simp only [truncate]
    omega
  · have ht := hr.content.take len
    rw [take_take,Nat.min_eq_left (hsz ▸ hl)] at ht
    exact ht

lemma skip_refines (hr : self.Refines file) (len : Nat) :
    ∃ t, self.skip len = some t ∧ t.Refines (file.skip len) := by
  have hsz := hr.size
  have hin := hr.fits
  have hm : readAt self.data (min len self.size) (self.size-min len self.size) =
      some ((self.data.take self.size).drop (min len self.size)) := by
    rw [readAt_of_le (by omega),drop_take]
  have hcn : ((self.data.take self.size).drop (min len self.size)).length =
      self.size-min len self.size := by
    simp only [length_drop,length_take]
    omega
  have hc := hr.content.drop (min len self.size)
  have hd : file.content.drop (min len self.size) = file.content.drop len := by
    rw [hsz]
    rcases le_total len file.content.length with h | h
    · rw [min_eq_left h]
    · rw [min_eq_right h,drop_length,drop_eq_nil_of_le h]
  generalize (self.data.take self.size).drop (min len self.size) = moved at *
  obtain ⟨block,hb⟩ : ∃ block, writeAt self.data 0 moved = some block :=
    ⟨_,writeAt_of_le (by omega)⟩
  have ht := writeAt_take hb
  rw [zero_add,hcn,take_zero,nil_append] at ht
  have hl := (writeAt_length hb).1
  refine ⟨⟨block,self.size-min len self.size,self.allocSize,0⟩,?_,?_,rfl,?_,?_⟩
  · simp [skip,hm,hb]
  · simp only [ByteFile.skip,length_drop]
    omega
  · simp only
    omega
  · rw [hd] at hc
    simpa only [ByteFile.skip,ht] using hc

lemma read_refines (hr : self.Refines file) (len : Nat) :
    ∃ bytes t, self.read len = some (bytes,t) ∧ Matches (file.read len).1 bytes ∧
      t.Refines (file.read len).2 := by
  have hsz := hr.size
  have hpt := hr.readptr
  have hin := hr.fits
  have hi := file.inside
  have hl : (if self.size < self.readptr+len then self.size-self.readptr else len) =
      min len (self.size-self.readptr) := by split <;> omega
  simp only [read,hl]
  rw [readAt_of_le (by omega)]
  refine ⟨_,_,rfl,?_,?_⟩
  · have hp := (hr.content.drop self.readptr).take len
    rw [drop_take,take_take] at hp
    simpa only [ByteFile.read,hpt] using hp
  · refine ⟨hsz,?_,hin,hr.content⟩
    simp only [ByteFile.read]
    omega

end

lemma sameResult_number (n : Nat) : SameResult (n,[]) (n,[]) := ⟨rfl,.nil⟩

lemma step_refines (s : StringBlock) (file : ByteFile UInt8) (e : Junk × Op)
    (ref : Nat × List (Option UInt8)) (file' : ByteFile UInt8) (hr : s.Refines file)
    (h : reference file e = some (ref,file')) (hf : s.Fits e.2) :
    ∃ out t, s.step e = some (out,t) ∧ SameResult out ref ∧ t.Refines file' := by
  obtain ⟨junk,op⟩ := e
  cases op with
  | write data =>
    cases h
    obtain ⟨t,ht,hrt⟩ := write_refines junk hr hf
    exact ⟨_,t,by rw [step,ht,map_some],sameResult_number _,hrt⟩
  | sprintf text =>
    cases h
    obtain ⟨t,ht,hrt⟩ := sprintf_refines junk hr hf
    exact ⟨_,t,by rw [step,ht,map_some],sameResult_number _,hrt⟩
  | seek offset whence =>
    simp only [reference] at h
    split at h
    · next hps =>
      cases h
      have hn : whence.target file.pos file.content.length offset =
          ((whence.target file.pos file.content.length offset).toNat : Int) := by omega
      obtain ⟨t,ht,hrt,hp⟩ := seek_refines junk hr hn (by omega) hf
      exact ⟨_,t,by rw [step,ht,map_some,hp],sameResult_number _,hrt⟩
    · cases h
  | truncate len =>
    simp only [reference] at h
    split at h
    · next hl =>
      cases h
      exact ⟨_,_,rfl,sameResult_number _,truncate_refines hr hl⟩
    · cases h
  | skip len =>
    cases h
    obtain ⟨t,ht,hrt⟩ := skip_refines hr len
    exact ⟨_,t,by rw [step,ht,map_some],sameResult_number _,hrt⟩
  | read len =>
    cases h
    obtain ⟨bytes,t,ht,hb,hrt⟩ := read_refines hr len
    exact ⟨_,t,by rw [step,ht,map_some],⟨(List.Forall₂.length_eq hb).symm,hb⟩,hrt⟩

lemma step_overruns (s : StringBlock) (file : ByteFile UInt8) (e : Junk × Op)
    (ref : Nat × List (Option UInt8)) (file' : ByteFile UInt8) (out : Nat × Bytes)
    (t : StringBlock) (hr : s.Refines file) (h : reference file e = some (ref,file'))
    (hf : ¬ s.Fits e.2) (ht : s.step e = some (out,t)) : ¬ t.Refines file' := by
  obtain ⟨junk,op⟩ := e
  cases op with
  | write data =>
    obtain ⟨u,hu,heq⟩ := map_eq_some_iff.mp ht
    obtain rfl := (Prod.mk.inj heq).2
    exact fun hrt => not_le.mpr (write_overruns hf hu) hrt.fits
  | sprintf text =>
    rw [step,sprintf_none hf] at ht
    cases ht
  | seek offset whence =>
    simp only [reference] at h
    split at h
    · next hp =>
      have hn : whence.target file.pos file.content.length offset =
          ((whence.target file.pos file.content.length offset).toNat : Int) := by omega
      rw [step,seek_none hr hn (by omega) hf] at ht
      cases ht
    · cases h
  | truncate len => exact absurd trivial hf
  | skip len => exact absurd trivial hf
  | read len => exact absurd trivial hf

lemma con_length (junk : Junk) : (con junk).data.length = 1024 := by simp [con,overlay]

lemma con_refines (junk : Junk) : (con junk).Refines .empty := ⟨rfl,rfl,zero_le _,.nil⟩

/-- For every sequence of calls that a byte file allows, the object is safe exactly as long as
each call fits. -/
theorem safe_iff (junk : Junk) {events : List (Junk × Op)}
    {refs : List (Nat × List (Option UInt8))} {file : ByteFile UInt8}
    (h : trace reference .empty events = some (refs,file)) :
    Safe junk events ↔ Along (post step) (fun s e => s.Fits e.2) (con junk) events :=
  mirrors_iff step_refines step_overruns (con_refines junk) h

theorem safe_write_read :
    Safe (fun _ => 0)
      [(fun _ => 0,.write [97,98]),(fun _ => 0,.seek 0 .set),(fun _ => 0,.read 5)] := by
  have hw : (con fun _ => 0).Fits (.write [97,98]) := by
    simp only [Fits,con_length]
    decide
  have hsk : ∀ s : StringBlock, s.Fits (.seek 0 .set) := fun s hlt =>
    absurd hlt (by simp [SeekFrom.target])
  exact (safe_iff _ rfl).mpr
    ⟨hw,fun s _ => ⟨hsk s,fun _ _ => ⟨trivial,fun _ _ => trivial⟩⟩⟩

/-- The seek makes the block smaller than `allocSize`, which the last write goes by. -/
def shrunken : List (Junk × Op) :=
  [.write (replicate 2100 65),.truncate 0,.seek 5 .set,.write (replicate 100 66)].map
    fun op => (fun _ => 0,op)

theorem safe_shrunken_fails :
    (trace reference .empty shrunken).isSome = true ∧ ¬ Safe (fun _ => 0) shrunken := by
  have hrf : (trace reference .empty shrunken).isSome = true := by decide +kernel
  have hn : (trace step (con fun _ => 0) shrunken).isNone = true := by decide +kernel
  refine ⟨hrf,fun hsf => ?_⟩
  obtain ⟨r,hr⟩ := isSome_iff_exists.mp hrf
  obtain ⟨os,t,ht⟩ := Mirrors.trace hsf hr
  rw [ht] at hn
  cases hn

def content (s : StringBlock) : StringIO := ⟨s.data.take s.size,s.readptr,s.allocSize⟩

structure Synced (s : StringBlock) : Prop where
  readptr : s.readptr ≤ s.size
  size : s.size ≤ s.allocSize
  block : s.data.length = s.allocSize

lemma con_synced (junk : Junk) : (con junk).Synced := ⟨le_refl 0,zero_le _,con_length junk⟩

lemma copyIn_synced (s : StringBlock) (data : Bytes) {n : Nat} (hp : s.readptr ≤ n)
    (hsz : s.size = max n (s.readptr+data.length)) (hf : s.size ≤ s.allocSize)
    (hb : s.data.length = s.allocSize) : ∃ t, s.copyIn data = some t ∧ t.Synced ∧ t.content =
      ⟨store (s.data.take n) s.readptr data,s.readptr+data.length,s.allocSize⟩ := by
  obtain ⟨block,hc,hl,ht⟩ := copyIn_some hp hsz (hb ▸ hf)
  have hst : s.readptr-(s.data.take n).length = 0 := by
    rw [length_take]
    omega
  refine ⟨_,hc,⟨?_,hf,hl.trans hb⟩,?_⟩
  · simp only
    omega
  · simp only [content,ht,store,hst,replicate_zero,append_nil]

section

variable {self : StringBlock} (hs : self.Synced)
include hs

lemma write_synced (junk : Junk) (data : Bytes) :
    (self.write junk data).map content = self.content.write data ∧
      ∀ t, self.write junk data = some t → t.Synced := by
  obtain ⟨hp,hsz,hb⟩ := hs
  have hd : ∀ {result : Option StringBlock} {io : StringIO},
      (∃ t, result = some t ∧ t.Synced ∧ t.content = io) →
      result.map content = some io ∧ ∀ t, result = some t → t.Synced := by
    rintro result io ⟨t,rfl,hsy,rfl⟩
    exact ⟨rfl,fun u hu => some.inj hu ▸ hsy⟩
  rw [write, StringIO.write]
  by_cases hg : self.allocSize ≤ self.readptr+data.length
  · have hf : ¬ self.content.readptr+data.length < self.content.allocSize := not_lt.mpr hg
    rw [if_pos hg,if_neg hf]
    by_cases hm : self.allocSize+(self.readptr+data.length) < maxTallocSize
    · obtain ⟨block,hr,hl,hk⟩ := resize_some junk hm
        {self with allocSize := self.allocSize+(self.readptr+data.length)}
      have hold := hk self.size (by omega) (hb ▸ hsz)
      have hc := copyIn_synced ⟨block,max self.size (self.readptr+data.length),
        self.allocSize+(self.readptr+data.length),self.readptr⟩ data hp rfl (by simp only; omega)
        hl
      rw [hold] at hc
      have htl : tallocNamedConst
          (self.content.allocSize+(self.content.readptr+data.length)) = true :=
        decide_eq_true hm
      rw [if_pos htl,hr]
      exact hd hc
    · have htl : ¬ tallocNamedConst
          (self.content.allocSize+(self.content.readptr+data.length)) = true :=
        fun h => hm (of_decide_eq_true h)
      rw [if_neg htl,resize_none junk (not_lt.mp hm)]
      exact ⟨rfl,fun t ht => by cases ht⟩
  · have hrm : self.content.readptr+data.length < self.content.allocSize := not_le.mp hg
    rw [if_neg hg,if_pos hrm]
    exact hd (copyIn_synced {self with size := max self.size (self.readptr+data.length)} data
      hp rfl (by simp only; omega) hb)

lemma writes_synced (writes : List (Junk × Bytes)) :
    (run (fun s w => write w.1 s w.2) self writes).map content =
      run StringIO.write self.content (writes.map Prod.snd) := by
  induction writes generalizing self with
  | nil => rfl
  | cons w writes ih =>
    obtain ⟨hc,hsy⟩ := write_synced hs w.1 w.2
    rw [map_cons,run,run,← hc]
    cases hw : self.write w.1 w.2 with
    | none => rfl
    | some t => exact ih (hsy t hw)

end

theorem con_writes (junk : Junk) (writes : List (Junk × Bytes)) :
    (run (fun s w => write w.1 s w.2) (con junk) writes).map content =
      run StringIO.write StringIO.con (writes.map Prod.snd) :=
  writes_synced (con_synced junk) writes

end StringBlock

end Aff4
