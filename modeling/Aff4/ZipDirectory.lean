import Aff4.File
import Aff4.Names
import Aff4.ZipFormat
import Mathlib.Data.UInt

/-! The central directory of a volume: what `ZipFile_close` writes for the closed
segments and what `load_entry_from_CD` makes of it. -/

namespace Aff4

open LittleEndian List CDFileHeader FileBackedObject

inductive Mode where
  | r
  | w
  deriving DecidableEq, Repr

/-- A member of a volume. The type `σ` is that of zlib's stream states. A segment is
closed when it has no buffer. -/
structure ZipSegment (σ : Type) where
  urn : Option RDFURN
  mode : Mode
  readptr : Nat
  cd : CDFileHeader
  strm : Option σ
  offsetOfFileHeader : UInt64
  filename : Bytes
  buffer : Option StringIO
  magic : cd.magic = CDFileHeader.signature

structure ZipFile (σ : Type) where
  urn : RDFURN
  mode : Mode
  members : List (ZipSegment σ)
  backingStore : FileBackedObject

def zip64Limit : Nat := 2^31-1

variable {σ : Type}

namespace ZipSegment

def isClosed (self : ZipSegment σ) : Bool := self.buffer.isNone

/-- `ZipSegment_Con` at a given time of day, before `finish`. -/
def con (urn : Option RDFURN) (mode : Mode) (dosdate dostime : UInt16) : ZipSegment σ where
  urn := urn
  mode := mode
  readptr := 0
  cd := {
    magic := CDFileHeader.signature
    versionMadeBy := 0x317
    versionNeeded := 0x14
    flags := 0x8
    compressionMethod := 0
    dostime := dostime
    dosdate := dosdate
    crc32 := 0
    compressSize := 0
    fileSize := 0
    fileNameLength := 0
    extraFieldLen := 0
    fileCommentLength := 0
    diskNumberStart := 0
    internalFileAttr := 0
    externalFileAttr := (0o644 : UInt32) <<< (16 : UInt32)
    relativeOffsetLocalHeader := 0}
  strm := none
  offsetOfFileHeader := 0
  filename := []
  buffer := none
  magic := rfl

def zip64Header (self : ZipSegment σ) : Bytes :=
  if zip64Limit < self.offsetOfFileHeader.toNat then
    le16 1 ++ (le16 8 ++ le64 self.offsetOfFileHeader)
  else []

/-- The directory record as `ZipFile_close` completes it. The length of an extra field
that was there before stays. -/
def listed (self : ZipSegment σ) : ZipSegment σ :=
  {self with
    cd := {self.cd with
      relativeOffsetLocalHeader :=
        if zip64Limit < self.offsetOfFileHeader.toNat then 0xFFFFFFFF
        else self.offsetOfFileHeader.toUInt32
      extraFieldLen :=
        if self.zip64Header = [] then self.cd.extraFieldLen
        else UInt16.ofNat self.zip64Header.length
      fileNameLength := UInt16.ofNat self.filename.length}
    magic := self.magic}

def directoryEntry (self : ZipSegment σ) : Bytes :=
  self.listed.cd.encode ++ (self.filename ++ self.zip64Header)

def entry (self : ZipSegment σ) : UInt64 × UInt32 × UInt32 × UInt32 × UInt16 :=
  (self.offsetOfFileHeader,self.cd.fileSize,self.cd.compressSize,self.cd.crc32,
    self.cd.compressionMethod)

def Near (self : ZipSegment σ) : Prop := self.offsetOfFileHeader.toNat ≤ zip64Limit

instance (self : ZipSegment σ) : Decidable self.Near := inferInstanceAs (Decidable (_ ≤ _))

variable {s : ZipSegment σ}

lemma zip64Header_near (h : s.Near) : s.zip64Header = [] := if_neg (Nat.not_lt.mpr h)

lemma zip64Header_far (h : ¬ s.Near) :
    s.zip64Header = le32 0x80001 ++ le64 s.offsetOfFileHeader := by
  have hf : le32 0x80001 = le16 1 ++ le16 8 := by decide
  rw [zip64Header,if_pos (Nat.not_le.mp h),hf,append_assoc]

def ofEntry (cd : CDFileHeader) (magic : cd.magic = CDFileHeader.signature) (name : Bytes) :
    ZipSegment σ where
  urn := none
  mode := .r
  readptr := 0
  cd := cd
  strm := none
  offsetOfFileHeader := cd.relativeOffsetLocalHeader.toUInt64
  filename := unescapeFilename (cstring name)
  buffer := none
  magic := magic

lemma listed_offset (s : ZipSegment σ) :
    s.listed.cd.relativeOffsetLocalHeader.toUInt64 = s.offsetOfFileHeader ↔
      s.Near ∨ s.offsetOfFileHeader = 0xFFFFFFFF := by
  by_cases h : s.Near
  · have hl : s.listed.cd.relativeOffsetLocalHeader = s.offsetOfFileHeader.toUInt32 :=
      if_neg (Nat.not_lt.mpr h)
    have hlt : s.offsetOfFileHeader.toNat < 2^32 := by
      have := h
      simp only [Near,zip64Limit] at this
      omega
    rw [hl,← UInt64.toNat_inj,UInt32.toNat_toUInt64,UInt64.toNat_toUInt32,Nat.mod_eq_of_lt hlt]
    simp [h]
  · have hh : s.listed.cd.relativeOffsetLocalHeader = 0xFFFFFFFF := if_pos (Nat.not_le.mp h)
    rw [hh]
    simp only [h,false_or]
    exact eq_comm

def reloaded (s : ZipSegment σ) : ZipSegment σ := ofEntry s.listed.cd s.magic s.filename

lemma reloaded_offset (h : s.Near) :
    s.reloaded.offsetOfFileHeader = s.offsetOfFileHeader := s.listed_offset.mpr (.inl h)

lemma reloaded_entry (s : ZipSegment σ) :
    s.reloaded.entry = s.entry ↔ s.Near ∨ s.offsetOfFileHeader = 0xFFFFFFFF := by
  rw [← listed_offset]
  simp only [entry,reloaded,ofEntry,Prod.mk.injEq]
  exact and_iff_left ⟨rfl,rfl,rfl,rfl⟩

end ZipSegment

/-- The next segment of the directory, or NULL. The extra field is neither read nor
skipped. -/
def loadEntryFromCD (fd : FileBackedObject) : FileBackedObject × Option (ZipSegment σ) :=
  let (data,fd) := fd.read CDFileHeader.size
  if data.length ≠ CDFileHeader.size then (fd,none)
  else
    let cd := CDFileHeader.decode data
    if magic : cd.magic = CDFileHeader.signature then
      let length := min cd.fileNameLength.toNat (buffSize-1)
      let (name,fd) := fd.read length
      if name.length ≠ length then (fd,none)
      else (fd,some (.ofEntry cd magic name))
    else (fd,none)

/-- The results of the loop of `ZipFile_load_from_backing_store`. -/
def loadEntries : Nat → FileBackedObject → List (Option (ZipSegment σ))
  | 0, _ => []
  | n+1, fd =>
    let (fd,segment) := loadEntryFromCD fd
    segment :: loadEntries n fd

variable {fd : FileBackedObject}

lemma loadEntryFromCD_record {cd : CDFileHeader} {name more : Bytes}
    (magic : cd.magic = signature) (hl : cd.fileNameLength.toNat = name.length)
    (hn : name.length ≤ buffSize-1) (h : fd.rest = cd.encode ++ (name ++ more)) :
    ∃ fd', loadEntryFromCD fd = (fd',some (.ofEntry cd magic name : ZipSegment σ)) ∧
      fd'.rest = more := by
  have hcd : decode cd.encode = cd := by simpa using decode_encode cd []
  have hmn : min cd.fileNameLength.toNat (buffSize-1) = name.length := by
    rw [hl]
    exact min_eq_left hn
  obtain ⟨fd₁,hr,hrs⟩ := read_piece h (encode_length cd)
  obtain ⟨fd₂,hr',hm⟩ := read_piece hrs rfl
  refine ⟨fd₂,?_,hm⟩
  simp [loadEntryFromCD,hr,hcd,magic,hmn,hr']

variable {more : Bytes}

lemma loadEntryFromCD_none {x : UInt32} (hx : x ≠ signature) (h : fd.rest = le32 x ++ more) :
    (loadEntryFromCD fd : FileBackedObject × Option (ZipSegment σ)).2 = none := by
  have hm : (decode (fd.read size).1).magic = x := by
    have ht : (le32 x ++ more).take size =
        le32 x ++ more.take (size-4) := by
      rw [take_append,le32_length,take_of_length_le (by simp [size])]
    rw [decode_magic,read_fst,h,ht,take32_le32]
  rw [loadEntryFromCD]
  generalize fd.read size = p at hm
  obtain ⟨data,fd⟩ := p
  have hne : ¬ (decode data).magic = signature := hm ▸ hx
  by_cases hl : data.length ≠ size
  · simp [hl]
  · simp [hl,hne]

/-- Where the directory keeps every entry: only the last member may lie beyond the limit,
and then only where its offset is the escape value itself. -/
def Kept (l : List (ZipSegment σ)) : Prop :=
  (∀ s ∈ l.dropLast, s.Near) ∧ ∀ s ∈ l.getLast?, s.Near ∨ s.offsetOfFileHeader = 0xFFFFFFFF

lemma kept_singleton (s : ZipSegment σ) :
    Kept [s] ↔ s.Near ∨ s.offsetOfFileHeader = 0xFFFFFFFF := by simp [Kept]

lemma kept_cons_cons (s t : ZipSegment σ) (l : List (ZipSegment σ)) :
    Kept (s :: t :: l) ↔ s.Near ∧ Kept (t :: l) := by simp [Kept,and_assoc]

lemma loadEntryFromCD_directoryEntry {s : ZipSegment σ}
    (hn : s.filename.length ≤ buffSize-1) (h : fd.rest = s.directoryEntry ++ more) :
    ∃ fd', loadEntryFromCD fd = (fd',some s.reloaded) ∧ fd'.rest = s.zip64Header ++ more := by
  have hlt : s.filename.length < 2^16 := by
    simp only [buffSize] at hn
    omega
  refine loadEntryFromCD_record s.listed.magic (UInt16.toNat_ofNat_of_lt' hlt) hn ?_
  rw [h,ZipSegment.directoryEntry,append_assoc,append_assoc]

variable {l : List (ZipSegment σ)}

lemma loadEntries_directory (hn : ∀ s ∈ l, s.filename.length ≤ buffSize-1)
    (h : fd.rest = l.flatMap ZipSegment.directoryEntry ++ more) :
    (loadEntries l.length fd : List (Option (ZipSegment σ))).map (Option.map ZipSegment.entry) =
      l.map (fun s => some s.entry) ↔ Kept l := by
  induction l generalizing fd with
  | nil => simp [loadEntries,Kept]
  | cons s l ih =>
    rw [flatMap_cons,append_assoc] at h
    obtain ⟨fd',hl,hr⟩ := loadEntryFromCD_directoryEntry (hn s mem_cons_self) h
    rw [length_cons,loadEntries,hl]
    simp only [map_cons,Option.map_some,cons.injEq,Option.some.injEq,ZipSegment.reloaded_entry]
    cases l with
    | nil => simp [loadEntries,kept_singleton]
    | cons t l =>
      rw [kept_cons_cons]
      by_cases hs : s.Near
      · rw [ZipSegment.zip64Header_near hs] at hr
        rw [ih (fun t ht => hn t (mem_cons_of_mem s ht)) hr]
        simp [hs]
      · -- The reader takes the extra field for the next record.
        rw [ZipSegment.zip64Header_far hs,append_assoc] at hr
        have hno : (loadEntryFromCD fd' : FileBackedObject × Option (ZipSegment σ)).2 = none :=
          loadEntryFromCD_none (by decide) hr
        simp only [hs,false_and,iff_false,not_and,length_cons,loadEntries]
        intro _ hc
        simp [hno] at hc

lemma loadEntries_prefix (hl : ∀ s ∈ l, s.Near ∧ s.filename.length ≤ buffSize-1)
    (h : fd.rest = l.flatMap ZipSegment.directoryEntry ++ more) {n : Nat} (hn : l.length ≤ n) :
    ∃ rest, loadEntries n fd = l.map (fun s => some s.reloaded) ++ rest := by
  induction l generalizing fd n with
  | nil => exact ⟨_,rfl⟩
  | cons s l ih =>
    obtain ⟨hnr,hnm⟩ := hl s mem_cons_self
    rw [flatMap_cons,append_assoc] at h
    obtain ⟨fd',hld,hr⟩ := loadEntryFromCD_directoryEntry hnm h
    rw [ZipSegment.zip64Header_near hnr,nil_append] at hr
    obtain ⟨m,rfl⟩ := Nat.exists_eq_add_of_le hn
    obtain ⟨rest,htl⟩ := ih (fun t ht => hl t (mem_cons_of_mem s ht)) hr
      (Nat.le_add_right l.length m)
    rw [length_cons,Nat.add_right_comm]
    simp [loadEntries,hld,htl]

namespace ZipFile

def closed (self : ZipFile σ) : List (ZipSegment σ) := self.members.filter ZipSegment.isClosed

/-- The loop of `ZipFile_close`: the file, and the directory bytes not yet flushed to it. -/
def writeDirectory : List (ZipSegment σ) → FileBackedObject × Bytes → FileBackedObject × Bytes
  | [], state => state
  | segment :: rest, (fd,buffer) =>
    if segment.isClosed then
      if buffSize*10 < buffer.length then
        writeDirectory rest (fd.write buffer,segment.directoryEntry)
      else writeDirectory rest (fd,buffer ++ segment.directoryEntry)
    else writeDirectory rest (fd,buffer)

def writeZip64CD (offsetOfEndCd directoryOffset totalEntries : Nat) : Bytes :=
  let endCd : Zip64EndCD := {
    magic := Zip64EndCD.signature
    sizeOfHeader := UInt64.ofNat (Zip64EndCD.size-12)
    versionMadeBy := 0x2d
    versionNeeded := 0x2d
    numberOfDisk := 0
    numberOfDiskWithCd := 0
    numberOfEntriesInVolume := UInt64.ofNat totalEntries
    numberOfEntriesInTotal := UInt64.ofNat totalEntries
    sizeOfCd := UInt64.ofNat (offsetOfEndCd-directoryOffset)
    offsetOfCd := UInt64.ofNat directoryOffset}
  let locator : Zip64CDLocator := {
    magic := Zip64CDLocator.signature
    diskWithCd := 0
    offsetOfEndCd := UInt64.ofNat offsetOfEndCd
    numberOfDisks := 1}
  endCd.encode ++ locator.encode

def endRecord (urn : RDFURN) (startOfCd offsetOfEndCd totalEntries : Nat) : EndCentralDirectory where
  magic := EndCentralDirectory.signature
  numberOfThisDisk := 0
  diskWithCd := 0
  totalEntriesInCdOnDisk := UInt16.ofNat totalEntries
  totalEntriesInCd := UInt16.ofNat totalEntries
  sizeOfCd := UInt32.ofNat (offsetOfEndCd-startOfCd)
  offsetOfCd := if zip64Limit < startOfCd then 0xFFFFFFFF else UInt32.ofNat startOfCd
  commentLen := UInt16.ofNat (urn.value.length+1)

/-- The URN in the comment field, as far as the length of the field reaches. -/
def comment (urn : RDFURN) : Bytes :=
  (zstring urn.value).take (UInt16.ofNat (urn.value.length+1)).toNat

def endBytes (urn : RDFURN) (startOfCd offsetOfEndCd totalEntries : Nat) : Bytes :=
  (endRecord urn startOfCd offsetOfEndCd totalEntries).encode ++ comment urn

def trailer (urn : RDFURN) (startOfCd offsetOfEndCd totalEntries : Nat) : Bytes :=
  (if zip64Limit < startOfCd then writeZip64CD offsetOfEndCd startOfCd totalEntries else []) ++
    endBytes urn startOfCd offsetOfEndCd totalEntries

def close (self : ZipFile σ) : ZipFile σ :=
  if self.mode = .r then self
  else
    let fd := self.backingStore.seek 0 .fromEnd
    let startOfCd := fd.tell
    let (fd,buffer) := writeDirectory self.members (fd,[])
    let offsetOfEndCd := fd.tell+buffer.length
    {self with
      members := self.members.map fun s => if s.isClosed then s.listed else s
      backingStore :=
        fd.write (buffer ++ trailer self.urn startOfCd offsetOfEndCd self.closed.length)}

def startOfCd (self : ZipFile σ) : Nat := self.backingStore.data.length

def directory (self : ZipFile σ) : Bytes := self.closed.flatMap ZipSegment.directoryEntry

def offsetOfEndCd (self : ZipFile σ) : Nat := self.startOfCd+self.directory.length

lemma writeDirectory_spec (l : List (ZipSegment σ)) (fd : FileBackedObject) (buffer : Bytes)
    (h : fd.readptr = fd.data.length) :
    (writeDirectory l (fd,buffer)).1.readptr = (writeDirectory l (fd,buffer)).1.data.length ∧
      (writeDirectory l (fd,buffer)).1.data ++ (writeDirectory l (fd,buffer)).2 = fd.data ++ (buffer ++
        (l.filter ZipSegment.isClosed).flatMap ZipSegment.directoryEntry) := by
  induction l generalizing fd buffer with
  | nil => simp [writeDirectory,h]
  | cons s l ih =>
    by_cases hs : s.isClosed
    · rw [writeDirectory,if_pos hs,filter_cons_of_pos hs,flatMap_cons]
      split
      · have hw := write_end h buffer
        obtain ⟨hp,hd⟩ := ih (fd.write buffer) s.directoryEntry (by rw [hw]; simp)
        refine ⟨hp,hd.trans ?_⟩
        rw [hw]
        simp
      · obtain ⟨hp,hd⟩ := ih fd (buffer ++ s.directoryEntry) h
        exact ⟨hp,hd.trans (by simp)⟩
    · rw [writeDirectory,if_neg hs,filter_cons_of_neg hs]
      exact ih fd buffer h

lemma close_data (t : ZipFile σ) (hw : t.mode = .w) :
    t.close.backingStore.data = t.backingStore.data ++ (t.directory ++
      trailer t.urn t.startOfCd t.offsetOfEndCd t.closed.length) := by
  have hm : ¬ t.mode = .r := by simp [hw]
  have hs : (t.backingStore.seek 0 .fromEnd).tell = t.startOfCd := by simp [FileBackedObject.tell,startOfCd]
  obtain ⟨hp,hd⟩ := writeDirectory_spec t.members (t.backingStore.seek 0 .fromEnd) []
    (by simp)
  simp only [close,if_neg hm,hs]
  generalize writeDirectory t.members (t.backingStore.seek 0 .fromEnd,[]) = p at hp hd
  have ha : p.1.data ++ p.2 = t.backingStore.data ++ t.directory := by
    simpa [directory,closed] using hd
  have he : p.1.tell+p.2.length = t.offsetOfEndCd := by
    have hl := congrArg length ha
    rw [length_append,length_append] at hl
    rw [FileBackedObject.tell,hp]
    exact hl
  rw [he,write_end hp,← append_assoc,ha,append_assoc]

/-- Reading the directory of a closed volume entry by entry gives every closed segment
back exactly where all but the last lie within the limit and the last is not mistaken. -/
theorem loadEntries_close_iff (self : ZipFile σ) (hw : self.mode = .w)
    (hn : ∀ s ∈ self.closed, s.filename.length ≤ buffSize-1) :
    (loadEntries self.closed.length (self.close.backingStore.seek self.startOfCd .set) :
        List (Option (ZipSegment σ))).map (Option.map ZipSegment.entry) =
      self.closed.map (fun s => some s.entry) ↔
    (∀ s ∈ self.closed.dropLast, s.offsetOfFileHeader.toNat ≤ zip64Limit) ∧
      ∀ s ∈ self.closed.getLast?, s.offsetOfFileHeader.toNat ≤ zip64Limit ∨
        s.offsetOfFileHeader = 0xFFFFFFFF := by
  have hr : (self.close.backingStore.seek self.startOfCd .set).rest = self.directory ++
      trailer self.urn self.startOfCd self.offsetOfEndCd self.closed.length := by
    rw [seek_set_rest,self.close_data hw,startOfCd,drop_left]
  exact loadEntries_directory hn hr

def twoMembers (first second : UInt64) : ZipFile Unit where
  urn := .set fqn
  mode := .w
  members := [first,second].map fun offset =>
    {ZipSegment.con none .w 0 0 with
      offsetOfFileHeader := offset, filename := zstring (chars ['a']), magic := rfl}
  backingStore := ⟨[],0⟩

theorem loadEntries_close_near : (loadEntries 2 ((twoMembers 0 40).close.backingStore.seek 0 .set) :
    List (Option (ZipSegment Unit))).map (Option.map ZipSegment.entry) =
      (twoMembers 0 40).closed.map (fun s => some s.entry) :=
  (loadEntries_close_iff (twoMembers 0 40) rfl (by decide)).mpr (by decide)

theorem loadEntries_close_far : (∀ s ∈ (twoMembers (2^31) 40).closed, s.filename.length ≤ buffSize-1) ∧
    (loadEntries 2 ((twoMembers (2^31) 40).close.backingStore.seek 0 .set) :
      List (Option (ZipSegment Unit))).map (Option.map ZipSegment.entry) ≠
        (twoMembers (2^31) 40).closed.map (fun s => some s.entry) := by
  decide +kernel

end ZipFile

end Aff4
