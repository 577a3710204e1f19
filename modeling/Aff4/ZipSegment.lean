import Aff4.ZipDirectory

/-! The life of one segment: `ZipSegment_finish`, `ZipSegment_write`, `ZipSegment_close`
and `ZipSegment_read` with `decompress_segment`. -/

namespace Aff4

open LittleEndian List Option ZipFileHeader FileBackedObject

/-- The calls into zlib. `deflate` and `deflateFinish` give the output of each turn of the
loop around the call; `inflate` gives the output of a stream that ends in the room given. -/
structure Zlib (σ : Type) where
  deflateInit : σ
  deflate : σ → Bytes → σ × List Bytes
  deflateFinish : σ → List Bytes
  inflate : Bytes → Nat → Option Bytes
  crc32 : UInt32 → Bytes → UInt32

variable {σ : Type}

namespace Zlib

def feed (zlib : Zlib σ) : List Bytes → σ × Bytes :=
  foldl (fun (strm,out) input =>
    ((zlib.deflate strm input).1,out ++ (zlib.deflate strm input).2.flatten)) (zlib.deflateInit,[])

def encode (zlib : Zlib σ) (inputs : List Bytes) : Bytes :=
  (zlib.feed inputs).2 ++ (zlib.deflateFinish (zlib.feed inputs).1).flatten

/-- What zlib promises: a complete stream inflates to what went into it, given enough room. -/
def Inverse (zlib : Zlib σ) : Prop :=
  ∀ inputs room, zlib.inflate (zlib.encode inputs) room =
    if inputs.flatten.length ≤ room then some inputs.flatten else none

lemma feed_snoc (zlib : Zlib σ) (inputs : List Bytes) (input : Bytes) :
    zlib.feed (inputs ++ [input]) = ((zlib.deflate (zlib.feed inputs).1 input).1,
        (zlib.feed inputs).2 ++ (zlib.deflate (zlib.feed inputs).1 input).2.flatten) := by
  simp [feed]

end Zlib

def zipStored : UInt16 := 0
def zipDeflate : UInt16 := 8

def dataDescriptorMagic : UInt32 := 0x08074b50
def zipFileHeaderMagic : UInt32 := 0x4034b50

namespace StringIO

def writePieces (self : StringIO) : List Bytes → Option StringIO
  | [] => some self
  | piece :: rest => (self.write piece).bind fun io => io.writePieces rest

lemma writePieces_end {t io : StringIO} {pieces : List Bytes}
    (h : t.readptr = t.data.length) (hw : t.writePieces pieces = some io) :
    io.data = t.data ++ pieces.flatten ∧ io.readptr = io.data.length := by
  induction pieces generalizing t with
  | nil =>
    cases hw
    simpa using h
  | cons piece rest ih =>
    obtain ⟨next,hnx,hrs⟩ := bind_eq_some_iff.mp hw
    obtain ⟨hd,hp⟩ := write_end h hnx
    obtain ⟨hd',hp'⟩ := ih hp hrs
    exact ⟨by rw [hd',hd,flatten_cons,append_assoc],hp'⟩

end StringIO

def segmentName (urn container : RDFURN) : Option Bytes :=
  escapeFilename (urn.relativeName container)

def StringIO.afterRead (self : StringIO) (len : Nat) : StringIO :=
  {self with readptr := self.readptr+(self.read len).length}

/-- `StringIO_read`, whose length is signed. A length that is negative and does not wrap
around the position goes to `memcpy` as it is. -/
def StringIO.readCall (self : StringIO) (length : UInt32) : Option (Bytes × StringIO) :=
  if 2^31 ≤ length.toNat ∧ 2^32 ≤ self.readptr+length.toNat then none
  else some (self.read length.toNat,self.afterRead length.toNat)

namespace ZipSegment

/-- `ZipSegment_finish` for a new segment. Only two methods are supported. -/
def finish (zlib : Zlib σ) (self : ZipSegment σ) (compressionMethod : Nat) :
    Option (ZipSegment σ) :=
  let self := {self with
    buffer := some .con
    cd := {self.cd with compressionMethod := UInt16.ofNat compressionMethod}
    magic := self.magic}
  if self.mode = .w then
    if compressionMethod = zipDeflate.toNat then some {self with strm := some zlib.deflateInit}
    else if compressionMethod = zipStored.toNat then some self
    else none
  else some self

/-- The stream state and the output pieces of one write. A stream that was never set up
or is finished takes nothing and gives nothing. -/
def compress (zlib : Zlib σ) (self : ZipSegment σ) (buffer : Bytes) : Option σ × List Bytes :=
  if self.cd.compressionMethod = zipDeflate then
    match self.strm with
    | none => (none,[])
    | some strm => (some (zlib.deflate strm buffer).1,(zlib.deflate strm buffer).2)
  else (self.strm,[buffer])

/-- `ZipSegment_write`: the number of bytes that went into the buffer, or -1. -/
def write (zlib : Zlib σ) (self : ZipSegment σ) (buffer : Bytes) : Option (Int × ZipSegment σ) :=
  if buffer = [] then some (0,self)
  else match self.buffer with
    | none => some (-1,self)
    | some io =>
      let (strm,pieces) := self.compress zlib buffer
      (io.writePieces pieces).map fun io =>
        (pieces.flatten.length,{self with
          strm := strm
          buffer := some io
          cd := {self.cd with
            crc32 := zlib.crc32 self.cd.crc32 buffer
            compressSize := self.cd.compressSize+UInt32.ofNat pieces.flatten.length
            fileSize := self.cd.fileSize+UInt32.ofNat buffer.length}
          magic := self.magic})

def lastPieces (zlib : Zlib σ) (self : ZipSegment σ) : List Bytes :=
  if self.cd.compressionMethod = zipDeflate then
    match self.strm with
    | none => []
    | some strm => zlib.deflateFinish strm
  else []

def fileHeader (self : ZipSegment σ) : ZipFileHeader where
  magic := zipFileHeaderMagic
  version := 0x14
  flags := 0x08
  compressionMethod := self.cd.compressionMethod
  lastmodtime := self.cd.dostime
  lastmoddate := self.cd.dosdate
  crc32 := 0
  compressSize := 0
  fileSize := 0
  fileNameLength := UInt16.ofNat self.filename.length
  extraFieldLen := 0

def dataDescriptor (self : ZipSegment σ) : Bytes :=
  le32 dataDescriptorMagic ++ le32 self.cd.crc32 ++ le32 self.cd.compressSize ++
    le32 self.cd.fileSize

/-- The segment once it is written out at `offset`, the end of its stream included. -/
def written (self : ZipSegment σ) (offset : Nat) (pieces : List Bytes) (filename : Bytes) :
    ZipSegment σ :=
  {self with
    offsetOfFileHeader := UInt64.ofNat offset
    strm := none
    buffer := none
    filename := zstring filename
    cd := {self.cd with
      compressSize := self.cd.compressSize+UInt32.ofNat pieces.flatten.length}
    magic := self.magic}

/-- `ZipSegment_close` into the file of a volume. Closing a segment that has no buffer, or
no URN, dereferences NULL. -/
def close (zlib : Zlib σ) (self : ZipSegment σ) (container : RDFURN) (fd : FileBackedObject) :
    Option (FileBackedObject × ZipSegment σ) :=
  if self.mode = .r then some (fd,self)
  else do
    let io ← self.buffer
    let fd := fd.seek 0 .fromEnd
    let pieces := self.lastPieces zlib
    let io ← io.writePieces pieces
    let urn ← self.urn
    let filename ← segmentName urn container
    let self := self.written fd.tell pieces filename
    let fd := fd.write self.fileHeader.encode
    let fd := fd.write self.filename
    let fd := fd.write io.data
    let fd := fd.write self.dataDescriptor
    some (fd,self)

/-- The checks of `decompress_segment` on the local header and the name after it, which leave the
file at the content. A failure is told from no result: comparing beyond the array that the name
was read into. -/
def matchHeader (junk : Junk) (fd : FileBackedObject) (self : ZipSegment σ) :
    Option (Option (FileBackedObject × ZipFileHeader)) :=
  let fd := fd.seek self.offsetOfFileHeader.toInt64.toInt .set
  let (data,fd) := fd.read ZipFileHeader.size
  let header := ZipFileHeader.decode (overlay junk ZipFileHeader.size data)
  if header.fileNameLength ≠ self.cd.fileNameLength then some none
  else
    let (name,fd) := fd.read (min buffSize header.fileNameLength.toNat)
    if name.length ≠ header.fileNameLength.toNat then some none
    else if buffSize < self.filename.length then none
    else if (overlay junk buffSize name).take self.filename.length ≠ self.filename then some none
    else some (some (fd,header))

/-- What `decompress_segment` puts into the new buffer, and whether it takes that for a
success. A stream that does not inflate leaves anything behind. -/
def fill (zlib : Zlib σ) (fd : FileBackedObject) (cd : CDFileHeader)
    (compressionMethod : UInt16) (io : StringIO) : Bool × StringIO :=
  if compressionMethod = zipStored then
    let (data,_) := fd.read io.data.length
    (true,{io with data := store io.data 0 data, readptr := data.length})
  else if compressionMethod = zipDeflate then
    if tallocNamedConst cd.compressSize.toNat then
      let (data,_) := fd.read cd.compressSize.toNat
      match zlib.inflate data io.data.length with
      | none => (false,io)
      | some out => (out.length = cd.fileSize.toNat,{io with data := store io.data 0 out})
    else (false,io)
  else (false,io)

/-- `decompress_segment`: whether it succeeded, and the segment with its buffer. The container is
the volume that is open for reading, if there is one. -/
def decompressSegment (zlib : Zlib σ) (junk : Junk) (zip : Option FileBackedObject)
    (self : ZipSegment σ) : Option (Bool × ZipSegment σ) :=
  match zip with
  | none => some (false,self)
  | some fd =>
    (self.matchHeader junk fd).bind fun
      | none => some (false,self)
      | some (fd,header) =>
        ( StringIO.con.seek junk self.cd.fileSize.toNat).map fun io =>
          let (done,io) := fill zlib fd self.cd header.compressionMethod io
          (done,{self with buffer := some io})

/-- The end of `ZipSegment_read`, with the buffer in place. -/
def readBuffer (junk : Junk) (self : ZipSegment σ) (length : UInt32) :
    Option (Option Bytes × ZipSegment σ) :=
  self.buffer.bind fun io =>
    ((io.seek junk self.readptr).bind fun io => io.readCall length).map fun r =>
      (some r.1,{self with buffer := some r.2})

/-- `ZipSegment_read`: the bytes read, or -1. -/
def readCall (zlib : Zlib σ) (junk : Junk) (zip : Option FileBackedObject)
    (self : ZipSegment σ) (length : UInt32) : Option (Option Bytes × ZipSegment σ) :=
  if self.buffer.isSome then self.readBuffer junk length
  else (self.decompressSegment zlib junk zip).bind fun r =>
    if r.1 then r.2.readBuffer junk length else some (none,r.2)

structure Writing (zlib : Zlib σ) (s : ZipSegment σ) (member : RDFURN) (inputs : List Bytes)
    (io : StringIO) : Prop where
  mode : s.mode = .w
  urn : s.urn = some member
  buffer : s.buffer = some io
  atEnd : io.readptr = io.data.length
  compressSize : s.cd.compressSize = UInt32.ofNat io.data.length
  fileSize : s.cd.fileSize = UInt32.ofNat inputs.flatten.length
  content :
    s.cd.compressionMethod = zipDeflate ∧ s.strm = some (zlib.feed inputs).1 ∧
      io.data = (zlib.feed inputs).2 ∨
    s.cd.compressionMethod = zipStored ∧ io.data = inputs.flatten

def Payload (zlib : Zlib σ) (compressionMethod : UInt16) (inputs : List Bytes)
    (payload : Bytes) : Prop :=
  compressionMethod = zipDeflate ∧ payload = zlib.encode inputs ∨
    compressionMethod = zipStored ∧ payload = inputs.flatten

/-- A segment that was closed into the file `data`. -/
structure Stored (zlib : Zlib σ) (s : ZipSegment σ) (member container : RDFURN)
    (inputs : List Bytes) (data : Bytes) : Prop where
  mode : s.mode = .w
  closed : s.buffer = none
  name : ∃ name, segmentName member container = some name ∧ s.filename = zstring name
  fileSize : s.cd.fileSize = UInt32.ofNat inputs.flatten.length
  content : ∃ pre payload post,
    data = pre ++ (s.fileHeader.encode ++ (s.filename ++ (payload ++ post))) ∧
    s.offsetOfFileHeader = UInt64.ofNat pre.length ∧
    s.cd.compressSize = UInt32.ofNat payload.length ∧
    Payload zlib s.cd.compressionMethod inputs payload

lemma finish_cd {zlib : Zlib σ} {s t : ZipSegment σ} {method : Nat} (hm : s.mode = .w)
    (h : s.finish zlib method = some t) :
    t.cd = {s.cd with compressionMethod := UInt16.ofNat method} := by
  simp only [finish,hm,if_true] at h
  split at h
  · exact (some.inj h) ▸ rfl
  · split at h
    · exact (some.inj h) ▸ rfl
    · cases h

lemma finish_writing {zlib : Zlib σ} {s t : ZipSegment σ} {member : RDFURN} {method : Nat}
    (hmd : s.mode = .w) (hu : s.urn = some member) (hsz : s.cd.fileSize = 0)
    (hc : s.cd.compressSize = 0) (h : s.finish zlib method = some t) :
    Writing zlib t member [] .con := by
  simp only [finish,hmd,if_true] at h
  split at h
  · next hm =>
    cases h
    exact ⟨rfl,hu,rfl,rfl,hc,hsz,.inl ⟨by simp [hm],rfl,rfl⟩⟩
  · split at h
    · next hm =>
      cases h
      exact ⟨rfl,hu,rfl,rfl,hc,hsz,.inr ⟨by simp [hm],rfl⟩⟩
    · cases h

variable {inputs : List Bytes} {io : StringIO}

variable {data : Bytes}

lemma write_writing {zlib : Zlib σ} {s t : ZipSegment σ} {member : RDFURN} {n : Int}
    (hs : Writing zlib s member inputs io) (hne : data ≠ []) (h : s.write zlib data = some (n,t)) :
    ∃ io', Writing zlib t member (inputs ++ [data]) io' := by
  rw [write,if_neg hne,hs.buffer] at h
  generalize hp : s.compress zlib data = p at h
  obtain ⟨strm,pieces⟩ := p
  obtain ⟨io',hio,ht⟩ := map_eq_some_iff.mp h
  obtain ⟨hd,hpt⟩ := StringIO.writePieces_end hs.atEnd hio
  cases ht
  refine ⟨io',hs.mode,hs.urn,rfl,hpt,?_,?_,?_⟩
  · simp [hs.compressSize,hd]
  · simp [hs.fileSize]
  · rcases hs.content with ⟨hm,hst,hou⟩ | ⟨hm,hou⟩
    · rw [compress,if_pos hm,hst] at hp
      cases hp
      exact .inl ⟨hm,by rw [zlib.feed_snoc],by rw [hd,hou,zlib.feed_snoc]⟩
    · have hnt : ¬ s.cd.compressionMethod = zipDeflate := by
        rw [hm]
        decide
      rw [compress,if_neg hnt] at hp
      cases hp
      exact .inr ⟨hm,by simp [hd,hou]⟩

lemma write_closed {zlib : Zlib σ} {s t : ZipSegment σ} {n : Int}
    (hs : s.buffer = none) (h : s.write zlib data = some (n,t)) : t = s := by
  rw [write,hs] at h
  split at h
  · exact (Prod.mk.inj (some.inj h)).2.symm
  · exact (Prod.mk.inj (some.inj h)).2.symm

lemma lastPieces_payload {zlib : Zlib σ} {s : ZipSegment σ} {member : RDFURN}
    (hs : Writing zlib s member inputs io) :
    Payload zlib s.cd.compressionMethod inputs (io.data ++ (s.lastPieces zlib).flatten) := by
  rcases hs.content with ⟨hm,hst,hou⟩ | ⟨hm,hou⟩
  · refine .inl ⟨hm,?_⟩
    rw [lastPieces,if_pos hm,hst,hou]
    rfl
  · refine .inr ⟨hm,?_⟩
    have hnt : ¬ s.cd.compressionMethod = zipDeflate := by
      rw [hm]
      decide
    rw [lastPieces,if_neg hnt,hou]
    simp

/-- What closing a segment does: nothing to one that is read, otherwise it appends the header, the
name, the content and the descriptor to the file. -/
lemma close_cases {zlib : Zlib σ} {s t : ZipSegment σ} {container : RDFURN}
    {fd fd' : FileBackedObject} (h : s.close zlib container fd = some (fd',t)) :
    (s.mode = .r ∧ fd' = fd ∧ t = s) ∨
    ∃ io io' urn name, s.buffer = some io ∧ io.writePieces (s.lastPieces zlib) = some io' ∧
      s.urn = some urn ∧ segmentName urn container = some name ∧
      t = s.written fd.data.length (s.lastPieces zlib) name ∧ fd'.data = fd.data ++
        (t.fileHeader.encode ++ (t.filename ++ (io'.data ++ t.dataDescriptor))) := by
  rw [close] at h
  split at h
  · next hm =>
    cases h
    exact .inl ⟨hm,rfl,rfl⟩
  · simp only [bind_eq_bind,bind_eq_some_iff] at h
    obtain ⟨io,hio,io',hio',urn,hu,name,hnm,h⟩ := h
    cases h
    have he : (fd.seek 0 .fromEnd).readptr = (fd.seek 0 .fromEnd).data.length := by simp
    have htl : (fd.seek 0 .fromEnd).tell = fd.data.length := by simp [FileBackedObject.tell]
    rw [htl]
    generalize ht : s.written fd.data.length (s.lastPieces zlib) name = t
    have ha := foldl_write_end he
      [t.fileHeader.encode,t.filename,io'.data,t.dataDescriptor]
    refine .inr ⟨io,io',urn,name,hio,hio',hu,hnm,ht.symm,?_⟩
    simpa using ha

variable {member container : RDFURN}

lemma Writing.close_written {zlib : Zlib σ} {s t : ZipSegment σ} {fd fd' : FileBackedObject}
    (hs : Writing zlib s member inputs io) (h : s.close zlib container fd = some (fd',t)) :
    ∃ io' name, io.writePieces (s.lastPieces zlib) = some io' ∧
      segmentName member container = some name ∧
      t = s.written fd.data.length (s.lastPieces zlib) name ∧
      io'.data = io.data ++ (s.lastPieces zlib).flatten ∧
      t.cd.compressSize = UInt32.ofNat io'.data.length ∧ fd'.data = fd.data ++
        (t.fileHeader.encode ++ (t.filename ++ (io'.data ++ t.dataDescriptor))) := by
  obtain ⟨hm,-⟩ | ⟨io₀,io',urn,name,hio,hio',hu,hnm,rfl,ha⟩ := close_cases h
  · rw [hs.mode] at hm
    cases hm
  · obtain rfl := some.inj (hs.buffer.symm.trans hio)
    obtain rfl := some.inj (hs.urn.symm.trans hu)
    obtain ⟨hd,-⟩ := StringIO.writePieces_end hs.atEnd hio'
    refine ⟨io',name,hio',hnm,rfl,hd,?_,ha⟩
    simp [written,hs.compressSize,hd]

lemma close_writing {zlib : Zlib σ} {s t : ZipSegment σ} {fd fd' : FileBackedObject}
    (hs : Writing zlib s member inputs io) (h : s.close zlib container fd = some (fd',t)) :
    Stored zlib t member container inputs fd'.data := by
  obtain ⟨io',name,-,hnm,rfl,hd,hc,ha⟩ := hs.close_written h
  rw [ha]
  refine ⟨hs.mode,rfl,⟨name,hnm,rfl⟩,hs.fileSize,fd.data,io'.data,_,rfl,rfl,hc,?_⟩
  rw [hd]
  exact lastPieces_payload hs

variable {zlib : Zlib σ} {s : ZipSegment σ} (hs : Stored zlib s member container inputs data)

include hs in
lemma Stored.append (more : Bytes) : Stored zlib s member container inputs (data ++ more) := by
  obtain ⟨pre,payload,post,rfl,ho,hrs⟩ := hs.content
  exact ⟨hs.mode,hs.closed,hs.name,hs.fileSize,pre,payload,post ++ more,by simp,ho,hrs⟩

include hs in
lemma Stored.length_le : size+s.filename.length ≤ data.length := by
  obtain ⟨pre,payload,post,hd,-⟩ := hs.content
  have := congrArg length hd
  simp only [length_append,encode_length] at this
  omega

section

variable (junk : Junk) {fd : FileBackedObject} {s : ZipSegment σ} {header : ZipFileHeader}
  {pre name rest : Bytes}

lemma read_header_at (hd : fd.data = pre ++ (header.encode ++ rest))
    (ho : s.offsetOfFileHeader.toNat = pre.length) (hlt : pre.length < 2^63) :
    ∃ fd', (fd.seek s.offsetOfFileHeader.toInt64.toInt .set).read size =
      (header.encode,fd') ∧ fd'.rest = rest := by
  have hint : s.offsetOfFileHeader.toInt64.toInt = (pre.length : Int) := by
    change s.offsetOfFileHeader.toBitVec.toInt = _
    have hnt : s.offsetOfFileHeader.toBitVec.toNat = pre.length := ho
    rw [BitVec.toInt_eq_toNat_of_lt (by omega),hnt]
  have hrs : (fd.seek s.offsetOfFileHeader.toInt64.toInt .set).rest = header.encode ++ rest := by
    rw [hint,seek_set_rest,hd,drop_left]
  exact read_piece hrs (encode_length header)

variable (hd : fd.data = pre ++ (header.encode ++ (name ++ rest)))
  (ho : s.offsetOfFileHeader.toNat = pre.length) (hn : s.Near)

include hd ho hn in
lemma read_header : ∃ fd', (fd.seek s.offsetOfFileHeader.toInt64.toInt .set).read
      size = (header.encode,fd') ∧ fd'.rest = name ++ rest := by
  refine read_header_at hd ho ?_
  simp only [Near,zip64Limit] at hn
  omega

lemma decode_overlay (junk : Junk) (header : ZipFileHeader) :
    decode (overlay junk size header.encode) = header := by
  rw [overlay_full (encode_length header)]
  simpa using decode_encode header []

include hd ho hn in
lemma matchHeader_pass (hl : header.fileNameLength = s.cd.fileNameLength)
    (hnm : header.fileNameLength.toNat = name.length) (hf : name.length ≤ buffSize)
    (hpr : s.filename <+: name) :
    ∃ fd', s.matchHeader junk fd = some (some (fd',header)) ∧ fd'.rest = rest := by
  obtain ⟨fd₁,hr,hrs⟩ := read_header hd ho hn
  obtain ⟨fd₂,hr',hrs'⟩ := read_piece hrs rfl
  have hle := hpr.length_le
  have ht : (overlay junk buffSize name).take s.filename.length = s.filename := by
    rw [overlay,take_append_of_le_length hle]
    exact (prefix_iff_eq_take.mp hpr).symm
  refine ⟨fd₂,?_,hrs'⟩
  simp only [matchHeader,hr,decode_overlay,hl,ne_eq,not_true,if_false]
  rw [hl] at hnm
  simp only [hnm,min_eq_right hf,hr',not_true,if_false,ht]
  rw [if_neg (by omega)]

lemma matchHeader_mismatch (hd : fd.data = pre ++ (header.encode ++ rest))
    (ho : s.offsetOfFileHeader.toNat = pre.length) (hlt : pre.length < 2^63)
    (hl : header.fileNameLength ≠ s.cd.fileNameLength) : s.matchHeader junk fd = some none := by
  obtain ⟨fd',hr,-⟩ := read_header_at hd ho hlt
  simp only [matchHeader,hr,decode_overlay]
  rw [if_pos hl]

end

section

variable {zlib : Zlib σ} {fd : FileBackedObject} {cd : CDFileHeader} {method : UInt16}
  {inputs : List Bytes} {payload post : Bytes} {io : StringIO}
  (hz : zlib.Inverse) (hrs : fd.rest = payload ++ post)
  (hpy : Payload zlib method inputs payload)
  (hc : cd.compressSize = UInt32.ofNat payload.length)
  (hsm : payload.length < maxTallocSize) (hl : io.data.length = cd.fileSize.toNat)

include hz hrs hpy hc hsm hl

/-- What a member that was written as a whole puts into its buffer. -/
lemma fill_content (h : cd.fileSize.toNat = inputs.flatten.length) :
    ∃ io', fill zlib fd cd method io = (true,io') ∧ io'.data = inputs.flatten := by
  have hcm : cd.compressSize.toNat = payload.length := by
    rw [hc]
    exact UInt32.toNat_ofNat_of_lt' (lt_trans hsm (by decide))
  rw [h] at hl
  rcases hpy with ⟨rfl,hp⟩ | ⟨rfl,hp⟩
  · obtain ⟨fd',hr,-⟩ := read_piece hrs rfl
    have ht : tallocNamedConst cd.compressSize.toNat = true := by
      rw [hcm]
      exact decide_eq_true hsm
    rw [fill,if_neg (by decide),if_pos rfl,if_pos ht,hcm,hr]
    refine ⟨{io with data := store io.data 0 inputs.flatten},?_,store_all hl⟩
    simp only [hp,hl,hz inputs inputs.flatten.length,le_refl,if_true,h,decide_true]
  · obtain ⟨fd',hr,-⟩ := read_piece hrs (congrArg length hp)
    rw [fill,if_pos rfl,hl,hr]
    exact ⟨_,rfl,by rw [hp]; exact store_all hl⟩

/-- A member that is longer than its size says does not inflate into the room it is given. -/
lemma fill_fails (h : maxTallocSize ≤ inputs.flatten.length)
    (hf : cd.fileSize.toNat < maxTallocSize) : (fill zlib fd cd method io).1 = false := by
  rcases hpy with ⟨rfl,hp⟩ | ⟨rfl,hp⟩
  · have hcm : cd.compressSize.toNat = payload.length := by
      rw [hc]
      exact UInt32.toNat_ofNat_of_lt' (lt_trans hsm (by decide))
    obtain ⟨fd',hr,-⟩ := read_piece hrs rfl
    have hrm : ¬ inputs.flatten.length ≤ io.data.length := by omega
    rw [fill,if_neg (by decide),if_pos rfl,hcm,hr]
    simp only [hp,hz inputs io.data.length,if_neg hrm,ite_self]
  · rw [hp] at hsm
    omega

end

/-- Reading from the start of a segment that has its buffer. -/
lemma readBuffer_start {junk : Junk} {s : ZipSegment σ} (hs : s.buffer = some io)
    (hp : s.readptr = 0) (n : UInt32) :
    (s.readBuffer junk n).map Prod.fst = some (some (io.data.take n.toNat)) := by
  have hlt := n.toNat_lt
  have hsk : io.seek junk 0 = some {io with readptr := 0} := rfl
  have hr : ({io with readptr := 0} : StringIO).readCall n = some (io.data.take n.toNat,_) :=
    if_neg (by simp only; omega)
  simp [readBuffer,hs,hp,hsk,hr]

section

variable {more : Bytes} (hz : zlib.Inverse) (hn : s.Near) (hnm : s.filename.length ≤ buffSize-1)
  (hpr : s.reloaded.filename <+: s.filename) (hd : data.length < maxTallocSize) (junk : Junk)
  {fd : FileBackedObject} (hfd : fd.data = data ++ more)

include hz hs hn hnm hpr hd hfd

lemma decompressSegment_reloaded :
    (inputs.flatten.length < maxTallocSize → ∃ io,
      s.reloaded.decompressSegment zlib junk (some fd) =
        some (true,{s.reloaded with buffer := some io}) ∧ io.data = inputs.flatten) ∧
    (maxTallocSize ≤ inputs.flatten.length → ∀ t,
      s.reloaded.decompressSegment zlib junk (some fd) ≠ some (true,t)) := by
  obtain ⟨pre,payload,post,hcn,ho,hc,hpy⟩ := hs.content
  have hmx : maxTallocSize < 2^32 := by decide
  have hl := congrArg length hcn
  simp only [length_append] at hl
  have hp : s.reloaded.offsetOfFileHeader.toNat = pre.length := by
    rw [reloaded_offset hn,ho]
    exact UInt64.toNat_ofNat_of_lt' (by
      rw [UInt64.size]
      omega)
  have hn' : s.reloaded.Near := by
    rw [Near,reloaded_offset hn]
    exact hn
  have hf : fd.data =
      pre ++ (s.fileHeader.encode ++ (s.filename ++ (payload ++ (post ++ more)))) := by
    rw [hfd,hcn]
    simp
  have hw : s.fileHeader.fileNameLength.toNat = s.filename.length :=
    UInt16.toNat_ofNat_of_lt' (by
      rw [buffSize] at hnm
      rw [UInt16.size]
      omega)
  obtain ⟨fd',hm,hrs⟩ := matchHeader_pass junk hf hp hn' rfl hw
    (le_trans hnm (Nat.sub_le _ _)) hpr
  have hc' : s.reloaded.cd.compressSize = UInt32.ofNat payload.length := hc
  have hsz : s.reloaded.cd.fileSize = UInt32.ofNat inputs.flatten.length := hs.fileSize
  rw [decompressSegment,hm,bind_some]
  constructor
  · intro hsm
    have hnt : s.reloaded.cd.fileSize.toNat = inputs.flatten.length := by
      rw [hsz]
      exact UInt32.toNat_ofNat_of_lt' (lt_trans hsm hmx)
    obtain ⟨io,hio,hi⟩ := StringIO.con_seek junk hsm
    obtain ⟨io',hfl,hd'⟩ := fill_content hz hrs hpy hc' (by omega)
      (hi.trans hnt.symm) hnt
    refine ⟨io',?_,hd'⟩
    change ( StringIO.con.seek junk s.reloaded.cd.fileSize.toNat).map (fun io =>
      ((fill zlib fd' s.reloaded.cd s.cd.compressionMethod io).1,{s.reloaded with
        buffer := some (fill zlib fd' s.reloaded.cd s.cd.compressionMethod io).2})) = _
    rw [hnt,hio,map_some,hfl]
  · intro hb t ht
    obtain ⟨io,hio,ht⟩ := map_eq_some_iff.mp ht
    have hdn : (fill zlib fd' s.reloaded.cd s.cd.compressionMethod io).1 = true :=
      congrArg Prod.fst ht
    by_cases hf : maxTallocSize ≤ s.reloaded.cd.fileSize.toNat
    · rw [ StringIO.con_seek_none junk hf] at hio
      cases hio
    · obtain ⟨io',hio',hi⟩ := StringIO.con_seek junk (Nat.not_le.mp hf)
      obtain rfl := some.inj (hio'.symm.trans hio)
      rw [fill_fails hz hrs hpy hc' (by omega) hi hb
        (Nat.not_le.mp hf)] at hdn
      cases hdn

lemma read_reloaded :
    (∀ n, (s.reloaded.readCall zlib junk (some fd) n).map Prod.fst =
      some (some (inputs.flatten.take n.toNat))) ↔ inputs.flatten.length < maxTallocSize := by
  obtain ⟨hf,hb⟩ := decompressSegment_reloaded hs hz hn hnm hpr hd junk hfd
  have hrd : ∀ n, s.reloaded.readCall zlib junk (some fd) n =
      (s.reloaded.decompressSegment zlib junk (some fd)).bind fun r =>
        if r.1 then r.2.readBuffer junk n else some (none,r.2) := fun _ => rfl
  constructor
  · intro h
    by_contra hcn
    have hzr := h 0
    rw [hrd] at hzr
    cases hr : s.reloaded.decompressSegment zlib junk (some fd) with
    | none => simp [hr] at hzr
    | some r =>
      obtain ⟨done,t⟩ := r
      cases done with
      | true => exact hb (Nat.not_lt.mp hcn) t hr
      | false => simp [hr] at hzr
  · intro hsm n
    obtain ⟨io,hio,hi⟩ := hf hsm
    rw [hrd,hio,← hi]
    exact readBuffer_start (s := {s.reloaded with buffer := some io}) rfl rfl n

end

end ZipSegment

end Aff4
