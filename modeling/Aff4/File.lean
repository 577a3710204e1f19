import Aff4.Memory
import Mathlib.Data.List.Infix

/-! The two byte streams of the library: a file behind file descriptor calls
(file.c) and a growing buffer in memory (stringio.c). -/

namespace Aff4

open LittleEndian List

abbrev Junk := Nat → UInt8

/-- A buffer of `size` bytes that was not initialised before `data` was read into it. -/
def overlay (junk : Junk) (size : Nat) (data : Bytes) : Bytes :=
  data ++ (range (size-data.length)).map junk

variable {data : Bytes}

lemma overlay_full {size : Nat} (h : data.length = size) (junk : Junk) :
    overlay junk size data = data := by simp [overlay,h]

/-- The content after `bytes` were stored at `pos`. A gap is filled with zeros. -/
def store (data : Bytes) (pos : Nat) (bytes : Bytes) : Bytes :=
  data.take pos ++ replicate (pos-data.length) 0 ++ bytes ++ data.drop (pos+bytes.length)

@[simp] lemma store_end (data bytes : Bytes) : store data data.length bytes = data ++ bytes := by
  simp [store]

lemma store_all {bytes : Bytes} (h : data.length = bytes.length) :
    store data 0 bytes = bytes := by simp [store,← h]

inductive Whence where
  | set
  | fromEnd
  deriving DecidableEq, Repr

inductive SeekFrom where
  | set
  | cur
  | fromEnd
  deriving DecidableEq, Repr

structure FileBackedObject where
  data : Bytes
  readptr : Nat
  deriving DecidableEq, Repr

namespace FileBackedObject

def seek (self : FileBackedObject) (offset : Int) : Whence → FileBackedObject
  | .set => {self with readptr := offset.toNat}
  | .fromEnd => {self with readptr := (self.data.length+offset).toNat}

def tell (self : FileBackedObject) : Nat := self.readptr

def read (self : FileBackedObject) (length : Nat) : Bytes × FileBackedObject :=
  let result := slice self.data self.readptr length
  (result,{self with readptr := self.readptr+result.length})

def write (self : FileBackedObject) (buffer : Bytes) : FileBackedObject :=
  if buffer = [] then self
  else ⟨store self.data self.readptr buffer,self.readptr+buffer.length⟩

def rest (self : FileBackedObject) : Bytes := self.data.drop self.readptr

lemma read_fst (s : FileBackedObject) (n : Nat) : (s.read n).1 = s.rest.take n := rfl

@[simp] lemma read_data (s : FileBackedObject) (n : Nat) : (s.read n).2.data = s.data := rfl

lemma read_rest (s : FileBackedObject) (n : Nat) : (s.read n).2.rest = s.rest.drop n := by
  simp only [read,rest,drop_drop]
  rw [slice_length]
  by_cases hn : n ≤ s.data.length-s.readptr
  · rw [min_eq_left hn]
  · rw [min_eq_right (by omega),drop_eq_nil_of_le (by omega),drop_eq_nil_of_le (by omega)]

variable {s : FileBackedObject}

lemma read_piece {piece more : Bytes} {n : Nat}
    (h : s.rest = piece ++ more) (hn : piece.length = n) :
    ∃ fd, s.read n = (piece,fd) ∧ fd.rest = more := by
  refine ⟨(s.read n).2,Prod.ext ?_ rfl,?_⟩
  · rw [read_fst,h]
    exact take_left' hn
  · rw [read_rest,h]
    exact drop_left' hn

@[simp] lemma seek_data (s : FileBackedObject) (offset : Int) (whence : Whence) :
    (s.seek offset whence).data = s.data := by
  cases whence <;> rfl

@[simp] lemma seek_set_rest (s : FileBackedObject) (offset : Nat) :
    (s.seek offset .set).rest = s.data.drop offset := rfl

@[simp] lemma seek_end_readptr (s : FileBackedObject) :
    (s.seek 0 .fromEnd).readptr = s.data.length := by simp [seek]

lemma write_end (h : s.readptr = s.data.length) (buffer : Bytes) :
    s.write buffer = ⟨s.data ++ buffer,s.data.length+buffer.length⟩ := by
  rw [write]
  split
  · next hb =>
    subst hb
    obtain ⟨data,readptr⟩ := s
    simpa using h
  · rw [h,store_end]

lemma foldl_write_end (h : s.readptr = s.data.length)
    (pieces : List Bytes) : (pieces.foldl write s).data = s.data ++ pieces.flatten := by
  induction pieces generalizing s with
  | nil => simp
  | cons piece rest ih =>
    have hw := write_end h piece
    rw [foldl_cons,ih (by rw [hw]; simp),hw,flatten_cons,append_assoc]

end FileBackedObject

/-- Only the first `data.length` bytes of the buffer count as its content. -/
structure StringIO where
  data : Bytes
  readptr : Nat
  allocSize : Nat
  deriving DecidableEq, Repr

namespace StringIO

def con : StringIO := ⟨[],0,1024⟩

/-- Copying into a buffer that could not be grown has no result. -/
def write (self : StringIO) (data : Bytes) : Option StringIO :=
  let last := self.readptr+data.length
  if last < self.allocSize then some ⟨store self.data self.readptr data,last,self.allocSize⟩
  else if tallocNamedConst (self.allocSize+last) then
    some ⟨store self.data self.readptr data,last,self.allocSize+last⟩
  else none

def seek (junk : Junk) (self : StringIO) (offset : Nat) : Option StringIO :=
  if self.data.length < offset then
    if tallocNamedConst offset then
      some {self with data := overlay junk offset self.data, readptr := offset}
    else none
  else some {self with readptr := offset}

def read (self : StringIO) (len : Nat) : Bytes := slice self.data self.readptr len

def seekEnd (self : StringIO) : StringIO := {self with readptr := self.data.length}

def skip (self : StringIO) (len : Nat) : StringIO :=
  {self with data := self.data.drop len, readptr := 0}

variable {data : Bytes} {alloc n : Nat}

lemma write_end {s io : StringIO} (h : s.readptr = s.data.length)
    (hw : s.write data = some io) : io.data = s.data ++ data ∧ io.readptr = io.data.length := by
  have hs : store s.data s.readptr data = s.data ++ data := by rw [h,store_end]
  have hl : s.readptr+data.length = (s.data ++ data).length := by rw [h,length_append]
  rw [write] at hw
  simp only [hs,hl] at hw
  split at hw
  · cases hw
    exact ⟨rfl,rfl⟩
  · split at hw
    · cases hw
      exact ⟨rfl,rfl⟩
    · cases hw

def grow (alloc level : Nat) : Nat := if level < alloc then alloc else alloc+level

def grown (levels : List Nat) : Nat := levels.foldl grow con.allocSize

lemma grow_of_lt {level : Nat} (h : level < alloc) : grow alloc level = alloc := if_pos h

lemma le_grow (alloc level : Nat) : alloc ≤ grow alloc level := by
  rw [grow]
  split <;> omega

lemma lt_grow (h : 0 < alloc) (level : Nat) : level < grow alloc level := by
  rw [grow]
  split <;> omega

lemma grown_pos (levels : List Nat) : 0 < grown levels := by
  induction levels using reverseRecOn with
  | nil => decide
  | append_singleton levels level ih =>
    rw [grown,foldl_concat]
    exact lt_of_lt_of_le ih (le_grow _ _)

/-- A buffer that is written at its end only. There is always room for one more byte. -/
structure Appending (io : StringIO) : Prop where
  atEnd : io.readptr = io.data.length
  room : io.data.length < io.allocSize
  small : io.allocSize < maxTallocSize

lemma con_appending : Appending con := ⟨rfl,by decide,by decide⟩

lemma Appending.write_iff {s : StringIO} (hs : s.Appending) (data : Bytes)
    (io : StringIO) : s.write data = some io ↔
      grow s.allocSize (s.data.length+data.length) < maxTallocSize ∧
      io = ⟨s.data ++ data,s.data.length+data.length,
        grow s.allocSize (s.data.length+data.length)⟩ := by
  have hsm := hs.small
  rw [write,grow,hs.atEnd,store_end]
  by_cases hlt : s.data.length+data.length < s.allocSize
  · simp [hlt,hsm,eq_comm]
  · by_cases hf : s.allocSize+(s.data.length+data.length) < maxTallocSize
    · simp [hlt,hf,tallocNamedConst,eq_comm]
    · simp [hlt,hf,tallocNamedConst]

lemma Appending.write {s io : StringIO} (hs : s.Appending)
    (h : s.write data = some io) : io.Appending := by
  obtain ⟨hf,rfl⟩ := (hs.write_iff data io).mp h
  refine ⟨by simp,?_,hf⟩
  simpa using lt_grow (Nat.zero_lt_of_lt hs.room) _

def growth (lengths : List Nat) : Nat := grown (lengths.inits.map sum)

lemma growth_nil : growth [] = con.allocSize := rfl

lemma growth_snoc (lengths : List Nat) (n : Nat) :
    growth (lengths ++ [n]) = grow (growth lengths) (lengths.sum+n) := by
  simp [growth,grown,inits_append]

lemma growth_prefix {lengths longer : List Nat} (h : lengths <+: longer) :
    growth lengths ≤ growth longer := by
  obtain ⟨rest,rfl⟩ := h
  induction rest using reverseRecOn with
  | nil => simp
  | append_singleton rest n ih =>
    rw [← append_assoc,growth_snoc]
    exact le_trans ih (le_grow _ _)

structure Holding (io : StringIO) (pieces : List Bytes) : Prop where
  data : io.data = pieces.flatten
  appending : io.Appending
  alloc : io.allocSize = growth (pieces.map length)

lemma con_holding : con.Holding [] := ⟨rfl,con_appending,rfl⟩

section

variable {io io' : StringIO} {pieces : List Bytes} (hs : io.Holding pieces)

include hs

lemma Holding.grow_eq (piece : Bytes) : grow io.allocSize (io.data.length+piece.length) =
      growth ((pieces ++ [piece]).map length) := by
  rw [map_append,map_cons,map_nil,growth_snoc,hs.alloc,hs.data,length_flatten]

lemma Holding.write_iff (piece : Bytes) : (∃ io', io.write piece = some io') ↔
    growth ((pieces ++ [piece]).map length) < maxTallocSize := by
  simp only [hs.appending.write_iff,hs.grow_eq]
  exact ⟨fun ⟨_,h,_⟩ => h,fun h => ⟨_,h,rfl⟩⟩

lemma Holding.write {piece : Bytes} (h : io.write piece = some io') :
    io'.Holding (pieces ++ [piece]) := by
  have ha := hs.appending.write h
  obtain ⟨-,rfl⟩ := (hs.appending.write_iff piece io').mp h
  exact ⟨by simp [hs.data],ha,hs.grow_eq piece⟩

lemma Holding.empty : io.Holding (pieces ++ [[]]) := by
  refine ⟨by simp [hs.data],hs.appending,?_⟩
  rw [← hs.grow_eq,length_nil,add_zero,grow_of_lt hs.appending.room]

lemma Holding.length_lt : pieces.flatten.length < maxTallocSize := by
  rw [← hs.data]
  exact lt_trans hs.appending.room hs.appending.small

end

lemma con_seek (junk : Junk) (h : n < maxTallocSize) :
    ∃ io, con.seek junk n = some io ∧ io.data.length = n := by
  by_cases hn : n = 0
  · subst hn
    exact ⟨_,rfl,rfl⟩
  · have hp : con.data.length < n := by
      change 0 < n
      omega
    refine ⟨{con with data := overlay junk n con.data, readptr := n},?_,by simp [overlay,con]⟩
    rw [seek,if_pos hp,tallocNamedConst,decide_eq_true h]
    rfl

lemma con_seek_none (junk : Junk) (h : maxTallocSize ≤ n) : con.seek junk n = none := by
  have hp : con.data.length < n := lt_of_lt_of_le (by decide) h
  rw [seek,if_pos hp,tallocNamedConst,decide_eq_false (Nat.not_lt.mpr h)]
  rfl

end StringIO

end Aff4
