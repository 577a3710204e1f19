import Mathlib.Data.List.DropRight
import Aff4.PyProperties
import Aff4.ZipFormat

/-! Zip archives in aff4.py: `ZipVolume.load_from` fills the resolver from the central directory,
and a `ZipFileStream` reads a member with what the resolver says of it. An exception has no result.
-/

namespace Aff4.Python

open LittleEndian Text Transition List Option

def slash : UInt8 := 47
def percent : UInt8 := 37

/-! ### Names -/

/-- The character with the given number in a name. The characters of a unicode name are kept
in UTF-8. -/
def character (unicode : Bool) (n : Nat) : Bytes :=
  if unicode ∧ 128 ≤ n then [UInt8.ofNat (192 + n/64),UInt8.ofNat (128 + n%64)]
  else [UInt8.ofNat n]

def unescapeFilename (unicode : Bool) : Bytes → Bytes
  | a :: b :: c :: rest =>
      match a == percent,hexNibble b,hexNibble c with
      | true,some high,some low =>
          character unicode (16*high + low) ++ unescapeFilename unicode rest
      | _,_,_ => a :: unescapeFilename unicode (b :: c :: rest)
  | short => short

def normComponent (rooted : Bool) (comps : List Bytes) (comp : Bytes) : List Bytes :=
  if comp = [] ∨ comp = chars ['.'] then comps
  else if comp ≠ chars ['.','.'] ∨ (rooted = false ∧ comps = []) ∨
      comps.getLast? = some (chars ['.','.']) then comps ++ [comp]
  else comps.dropLast

def normpath (path : Bytes) : Bytes :=
  let leading := (path.takeWhile (· == slash)).length
  let initialSlashes := if leading = 2 then 2 else min leading 1
  let comps := (path.splitOn slash).foldl (normComponent (initialSlashes != 0)) []
  match replicate initialSlashes slash ++ [slash].intercalate comps with
  | [] => chars ['.']
  | path => path

def fullyQualifiedName (filename : Bytes) (contextName : Urn) : Urn :=
  if chars [':','/','/'] <:+: filename then filename
  else if fqn.isPrefixOf filename then normpath filename
  else normpath (contextName ++ slash :: filename)

def dirname (path : Bytes) : Bytes :=
  let head := path.rdropWhile (· != slash)
  if head.all (· == slash) then head else head.rdropWhile (· == slash)

/-! ### Loading a volume -/

namespace Attr

def aff4 : Bytes := chars ['a','f','f','4',':']
def stored : Bytes := aff4 ++ chars ['s','t','o','r','e','d']
def type : Bytes := aff4 ++ chars ['t','y','p','e']
def interface : Bytes := aff4 ++ chars ['i','n','t','e','r','f','a','c','e']
def contains : Bytes := aff4 ++ chars ['c','o','n','t','a','i','n','s']
def size : Bytes := aff4 ++ chars ['s','i','z','e']
def timestamp : Bytes := aff4 ++ chars ['t','i','m','e','s','t','a','m','p']
def headerOffset : Bytes :=
  volatileNs ++ chars ['r','e','l','a','t','i','v','e','_','o','f','f','s','e','t','_',
    'l','o','c','a','l','_','h','e','a','d','e','r']
def compressedSize : Bytes :=
  volatileNs ++ chars ['c','o','m','p','r','e','s','s','_','s','i','z','e']
def crc : Bytes := volatileNs ++ chars ['c','r','c','3','2']
def compression : Bytes := volatileNs ++ chars ['c','o','m','p','r','e','s','s','i','o','n']
def fileOffset : Bytes := volatileNs ++ chars ['f','i','l','e','_','o','f','f','s','e','t']
def directoryOffset : Bytes :=
  volatileNs ++ chars ['d','i','r','e','c','t','o','r','y','_','o','f','f','s','e','t']

end Attr

def segmentType : Bytes := chars ['s','e','g','m','e','n','t']

def streamInterface : Bytes := Attr.aff4 ++ chars ['s','t','r','e','a','m']

/-- A `ZipInfo`. The timestamp is what `time.mktime` makes of `date_time`. -/
structure Zinfo where
  filename : Bytes
  unicode : Bool
  headerOffset : Nat
  crc : Nat
  compressSize : Nat
  fileSize : Nat
  compressType : Nat
  timestamp : Int

/-- What the zipfile module finds in an archive; `read` is by name. -/
structure ZipFile where
  comment : Bytes
  infolist : List Zinfo
  startDir : Nat
  read : Bytes → Option Bytes

def sizeFileHeader : Nat := 30

namespace Zinfo

/-- `len(zinfo.filename)`, which counts the characters of a unicode name. -/
def nameLength (zinfo : Zinfo) : Nat :=
  if zinfo.unicode then (zinfo.filename.filter fun c => c &&& 192 != 128).length
  else zinfo.filename.length

def subject (zinfo : Zinfo) (urn : Urn) : Urn :=
  fullyQualifiedName (unescapeFilename zinfo.unicode zinfo.filename) urn

def record (zinfo : Zinfo) (urn : Urn) : List (Bytes × Value) :=
  [(Attr.stored,.str urn),(Attr.type,.str segmentType),(Attr.interface,.str streamInterface),
    (Attr.headerOffset,.int zinfo.headerOffset),
    (Attr.crc,.int zinfo.crc),
    (Attr.compressedSize,.int zinfo.compressSize),
    (Attr.size,.int zinfo.fileSize),
    (Attr.compression,.int zinfo.compressType),
    (Attr.timestamp,.int zinfo.timestamp),
    (Attr.fileOffset,.int (zinfo.headerOffset + sizeFileHeader + zinfo.nameLength))]

end Zinfo

/-- The name of the volume: the comment, or else the member `__URN__`. -/
def ZipFile.urn (zf : ZipFile) : Urn :=
  if fqn.isPrefixOf zf.comment then zf.comment
  else (zf.read (chars ['_','_','U','R','N','_','_'])).getD zf.comment

namespace Resolver

def setAll (self : Resolver) (subject : Urn) (entries : List (Bytes × Value)) : Resolver :=
  entries.foldl (fun self entry => self.set subject entry.1 entry.2) self

def importZinfo (self : Resolver) (urn subject : Urn) (zinfo : Zinfo) : Resolver :=
  (self.add urn Attr.contains (.str subject)).setAll subject (zinfo.record urn)

def loadProperties (zf : ZipFile) (self : Resolver) (zinfo : Zinfo) : Option Resolver :=
  if (chars ['p','r','o','p','e','r','t','i','e','s']).isSuffixOf zinfo.filename then
    (zf.read zinfo.filename).map fun data =>
      self.parseProperties data (dirname (zinfo.subject zf.urn))
  else some self

def loadMember (zf : ZipFile) (self : Resolver) (zinfo : Zinfo) : Option Resolver :=
  (self.loadProperties zf zinfo).map fun self =>
    self.importZinfo zf.urn (zinfo.subject zf.urn) zinfo

def loadFrom (self : Resolver) (filename : Urn) (zf : ZipFile) : Option Resolver :=
  (run (loadMember zf) self zf.infolist).map fun self =>
    ((self.set zf.urn Attr.stored (.str filename)).set filename Attr.contains (.str zf.urn)).set
      zf.urn Attr.directoryOffset (.int zf.startDir)

end Resolver

/-! ### Reading a member -/

def zipStored : Nat := 0
def zipDeflated : Nat := 8

def suffixFactor : Option UInt8 → Nat
  | some 115 => 512
  | some 107 | some 75 => 1024
  | some 109 | some 77 => 1024*1024
  | some 103 | some 71 => 1024*1024*1024
  | _ => 1

/-- A text that is not a number gives a `NoneObject`. -/
def parseInt : Value → Option Int
  | .int n => some n
  | .str s =>
      let base := s.takeWhile isDigit
      if base = [] then none
      else some (numeral base * suffixFactor (s.drop base.length).head?)

/-- `fd.seek(offset)` and `fd.read(length)` of a file. A negative length reads to the end. -/
def fileRead (data : Bytes) (offset length : Int) : Option Bytes :=
  if offset < 0 then none
  else if length < 0 then some (data.drop offset.toNat)
  else some (slice data offset.toNat length.toNat)

def between (data : Bytes) (i j : Int) : Bytes :=
  let index (i : Int) := (if i < 0 then data.length + i else i).toNat
  slice data (index i) (index j - index i)

/-- `data` is empty before it is read. -/
structure ZipFileStream where
  backingFd : Urn
  baseOffset : Int
  compression : Int
  compressSize : Int
  size : Int
  readptr : Int
  data : Bytes

namespace ZipFileStream

def name : Value → Option Urn
  | .str s => some s
  | .int _ => none

/-- Where an attribute is missing the source has a `NoneObject`, which no file is read with. -/
def init (resolver : Resolver) (urn : Urn) : Option ZipFileStream := do
  let volume ← (resolver.resolve urn Attr.stored).bind name
  let backingFd ← (resolver.resolve volume Attr.stored).bind name
  let baseOffset ← (resolver.resolve urn Attr.fileOffset).bind parseInt
  let compression ← (resolver.resolve urn Attr.compression).bind parseInt
  let compressSize ← (resolver.resolve urn Attr.compressedSize).bind parseInt
  let size ← (resolver.resolve urn Attr.size).bind parseInt
  some ⟨backingFd,baseOffset,compression,compressSize,size,0,[]⟩

variable (oracle : Oracle) (inflate : Bytes → Option Bytes)

def getData (self : ZipFileStream) : Option (Bytes × ZipFileStream) :=
  if self.data = [] then do
    let fd ← oracle self.backingFd
    let cdata ← fd self.baseOffset self.compressSize
    let data ← if self.compression = zipDeflated then inflate cdata else some cdata
    some (data,{self with data := data})
  else some (self.data,self)

/-- The result is `None` for a compression that is not known. -/
def read (self : ZipFileStream) (length : Option Int) : Option (Option Bytes × ZipFileStream) :=
  let length := min (self.size - self.readptr) (length.getD self.size)
  if self.compression = zipStored then do
    let fd ← oracle self.backingFd
    let result ← fd (self.baseOffset + self.readptr) length
    some (some result,{self with readptr := self.readptr + result.length})
  else if self.compression = zipDeflated then do
    let (data,self) ← self.getData oracle inflate
    let result := between data self.readptr (self.readptr + length)
    some (some result,{self with readptr := self.readptr + result.length})
  else some (none,self)

end ZipFileStream

/-! ### What the resolver says after loading -/

namespace Resolver

lemma resolve_set (s : Resolver) (uri uri' : Urn) (attr attr' : Bytes) (value : Value) :
    (s.set uri attr value).resolve uri' attr' =
      if uri' = uri ∧ attr' = attr then some value else s.resolve uri' attr' := by
  simp only [resolve,resolveList,set]
  by_cases hu : uri' = uri
  · subst hu
    by_cases ha : attr' = attr
    · subst ha
      simp [URNObject.set,URNObject.getitem]
    · simp [URNObject.set,URNObject.getitem,AList.lookup_insert_ne ha,ha]
  · simp [hu]

variable {s : Resolver} {uri subject : Urn} {attr : Bytes}

lemma resolve_add {uri' : Urn} {attr' : Bytes} {value' : Value}
    (h : s.resolve uri' attr' = some value') (uri : Urn) (attr : Bytes) (value : Value) :
    (s.add uri attr value).resolve uri' attr' = some value' := by
  rw [resolve] at h ⊢
  rw [resolveList_add]
  split
  · rw [head?_append,h]
    rfl
  · exact h

lemma resolve_parse {value : Value}
    (h : s.resolve uri attr = some value) (data : Bytes) (context : Urn) :
    (s.parseProperties data context).resolve uri attr = some value := by
  rw [parseProperties]
  generalize (splitLines data).filterMap (parseLine context) = facts
  induction facts generalizing s with
  | nil => exact h
  | cons fact facts ih => exact ih (resolve_add h _ _ _)

variable {entries : List (Bytes × Value)}

lemma resolve_setAll_of_ne (h : uri = subject → attr ∉ entries.map Prod.fst) (s : Resolver) :
    (s.setAll subject entries).resolve uri attr = s.resolve uri attr := by
  induction entries generalizing s with
  | nil => rfl
  | cons entry entries ih =>
    simp only [map_cons,mem_cons,not_or] at h
    refine (ih (fun hu => (h hu).2) _).trans ?_
    rw [resolve_set,if_neg fun heq => (h heq.1).1 heq.2]

lemma resolve_setAll {entry : Bytes × Value}
    (hk : (entries.map Prod.fst).Nodup) (h : entry ∈ entries) (s : Resolver) :
    (s.setAll subject entries).resolve subject entry.1 = some entry.2 := by
  induction entries generalizing s with
  | nil => cases h
  | cons first entries ih =>
    rw [map_cons,nodup_cons] at hk
    rcases mem_cons.mp h with rfl | hr
    · refine (resolve_setAll_of_ne (fun _ => hk.1) _).trans ?_
      rw [resolve_set,if_pos ⟨rfl,rfl⟩]
    · exact ih hk.2 hr _

end Resolver

lemma Zinfo.record_keys (zinfo : Zinfo) (urn : Urn) :
    (zinfo.record urn).map Prod.fst = [Attr.stored,Attr.type,Attr.interface,Attr.headerOffset,
      Attr.crc,Attr.compressedSize,Attr.size,Attr.compression,Attr.timestamp,Attr.fileOffset] := rfl

lemma Zinfo.record_nodup (zinfo : Zinfo) (urn : Urn) : ((zinfo.record urn).map Prod.fst).Nodup := by
  rw [record_keys]
  decide +kernel

lemma Zinfo.contains_not_mem (zinfo : Zinfo) (urn : Urn) :
    Attr.contains ∉ (zinfo.record urn).map Prod.fst := by
  rw [record_keys]
  decide +kernel

namespace Resolver

def Recorded (self : Resolver) (urn : Urn) (zinfo : Zinfo) : Prop :=
  ∀ entry ∈ zinfo.record urn, self.resolve (zinfo.subject urn) entry.1 = some entry.2

variable {self after : Resolver} {zf : ZipFile} {zinfo member : Zinfo}

lemma loadProperties_keeps (h : self.loadProperties zf zinfo = some after) {uri : Urn}
    {attr : Bytes} {value : Value} (hv : self.resolve uri attr = some value) :
    after.resolve uri attr = some value := by
  unfold loadProperties at h
  split at h
  · obtain ⟨data,-,rfl⟩ := map_eq_some_iff.mp h
    exact resolve_parse hv _ _
  · cases h
    exact hv

lemma loadMember_recorded (h : loadMember zf self zinfo = some after) :
    after.Recorded zf.urn zinfo := by
  obtain ⟨before,-,rfl⟩ := map_eq_some_iff.mp h
  exact fun entry he => resolve_setAll (zinfo.record_nodup _) he _

lemma loadMember_keeps (h : loadMember zf self zinfo = some after)
    (hne : member.subject zf.urn ≠ zinfo.subject zf.urn) (hs : self.Recorded zf.urn member) :
    after.Recorded zf.urn member := by
  obtain ⟨before,hb,rfl⟩ := map_eq_some_iff.mp h
  intro entry he
  rw [importZinfo,resolve_setAll_of_ne fun heq => absurd heq hne]
  exact resolve_add (loadProperties_keeps hb (hs entry he)) _ _ _

lemma run_recorded {members : List Zinfo}
    (hn : (members.map fun zinfo => zinfo.subject zf.urn).Nodup)
    (h : run (loadMember zf) self members = some after) :
    ∀ member ∈ members, after.Recorded zf.urn member := by
  induction members using reverseRecOn generalizing after with
  | nil => simp
  | append_singleton members last ih =>
    rw [run_snoc] at h
    obtain ⟨before,hb,hl⟩ := bind_eq_some_iff.mp h
    rw [map_append,map_singleton,← concat_eq_append,nodup_concat] at hn
    intro member hm
    rcases mem_append.mp hm with hf | hm
    · have hne : member.subject zf.urn ≠ last.subject zf.urn := fun heq =>
        hn.1 (heq ▸ mem_map_of_mem hf)
      exact loadMember_keeps hl hne (ih hn.2 hb member hf)
    · rw [mem_singleton.mp hm]
      exact loadMember_recorded hl

end Resolver

def ZipFile.Distinct (zf : ZipFile) : Prop :=
  (zf.urn :: zf.infolist.map fun zinfo => zinfo.subject zf.urn).Nodup

instance (zf : ZipFile) : Decidable zf.Distinct := inferInstanceAs (Decidable (List.Nodup _))

lemma Resolver.loadFrom_recorded {s after : Resolver} {filename : Urn} {zf : ZipFile}
    (hn : zf.Distinct) (h : s.loadFrom filename zf = some after) :
    (∀ member ∈ zf.infolist, after.Recorded zf.urn member) ∧
      after.resolve zf.urn Attr.stored = some (.str filename) := by
  obtain ⟨hu,hn⟩ := nodup_cons.mp hn
  obtain ⟨before,hr,rfl⟩ := map_eq_some_iff.mp h
  constructor
  · intro member hm entry he
    have hne : member.subject zf.urn ≠ zf.urn := fun heq =>
      hu (mem_map.mpr ⟨member,hm,heq⟩)
    have ha : entry.1 ≠ Attr.contains := fun heq =>
      member.contains_not_mem zf.urn (heq ▸ mem_map_of_mem he)
    rw [resolve_set,if_neg fun heq => hne heq.1,resolve_set,if_neg fun heq => ha heq.2,
      resolve_set,if_neg fun heq => hne heq.1]
    exact run_recorded hn hr member hm entry he
  · have hd : Attr.stored ≠ Attr.directoryOffset := by decide +kernel
    have hc : Attr.stored ≠ Attr.contains := by decide +kernel
    rw [resolve_set,if_neg fun heq => hd heq.2,resolve_set,
      if_neg fun heq => hc heq.2,resolve_set,if_pos ⟨rfl,rfl⟩]

/-! ### The members of an archive -/

namespace Zinfo

variable (data : Bytes) (zinfo : Zinfo)

def localHeader : ZipFileHeader := .decode (slice data zinfo.headerOffset ZipFileHeader.size)

def dataOffset : Nat :=
  zinfo.headerOffset + ZipFileHeader.size + (zinfo.localHeader data).fileNameLength.toNat +
    (zinfo.localHeader data).extraFieldLen.toNat

def content : Bytes := slice data (zinfo.dataOffset data) zinfo.fileSize

structure WellFormed : Prop where
  magic : (zinfo.localHeader data).magic = 0x04034b50
  method : (zinfo.localHeader data).compressionMethod.toNat = zinfo.compressType
  name : slice data (zinfo.headerOffset + ZipFileHeader.size)
    (zinfo.localHeader data).fileNameLength.toNat = zinfo.filename
  room : zinfo.dataOffset data + zinfo.compressSize ≤ data.length
  size : zinfo.compressType = zipStored → zinfo.fileSize = zinfo.compressSize

/-- The local header has no extra field, and each character of the name is one byte. -/
def Plain : Prop :=
  (zinfo.localHeader data).extraFieldLen = 0 ∧ zinfo.nameLength = zinfo.filename.length

variable {data zinfo}

lemma WellFormed.filename_length (h : zinfo.WellFormed data) :
    zinfo.filename.length = (zinfo.localHeader data).fileNameLength.toNat := by
  have hr := h.room
  rw [dataOffset] at hr
  rw [← h.name,slice_length]
  omega

lemma nameLength_le (zinfo : Zinfo) : zinfo.nameLength ≤ zinfo.filename.length := by
  rw [nameLength]
  split
  · exact length_filter_le _ _
  · exact le_rfl

lemma WellFormed.plain_iff (h : zinfo.WellFormed data) :
    zinfo.headerOffset+sizeFileHeader+zinfo.nameLength = zinfo.dataOffset data ↔
      zinfo.Plain data := by
  have hl := h.filename_length
  have hle := zinfo.nameLength_le
  rw [Plain,← UInt16.toNat_inj,dataOffset,sizeFileHeader,ZipFileHeader.size,UInt16.toNat_zero]
  omega

end Zinfo

namespace Resolver

def Locates (self : Resolver) (data : Bytes) (urn : Urn) (zinfo : Zinfo) : Prop :=
  self.resolve (zinfo.subject urn) Attr.fileOffset = some (.int (zinfo.dataOffset data))

def Reads (oracle : Oracle) (inflate : Bytes → Option Bytes) (self : Resolver) (data : Bytes)
    (urn : Urn) (zinfo : Zinfo) (p : Nat) (length : Option Nat) : Prop :=
  ∃ stream next, ZipFileStream.init self (zinfo.subject urn) = some stream ∧
    ({stream with readptr := p} : ZipFileStream).read oracle inflate (length.map Nat.cast) =
      some (some (slice (zinfo.content data) p (length.getD zinfo.fileSize)),next)

variable {self after : Resolver} {filename urn : Urn} {zinfo : Zinfo} {data : Bytes}
  {oracle : Oracle} {inflate : Bytes → Option Bytes}

lemma Recorded.init_eq (h : self.Recorded urn zinfo)
    (hu : self.resolve urn Attr.stored = some (.str filename)) :
    ZipFileStream.init self (zinfo.subject urn) = some ⟨filename,
      zinfo.headerOffset+sizeFileHeader+zinfo.nameLength,zinfo.compressType,
      zinfo.compressSize,zinfo.fileSize,0,[]⟩ := by
  have hs := h (Attr.stored,.str urn) (by simp [Zinfo.record])
  have ho := h (Attr.fileOffset,
    .int (zinfo.headerOffset+sizeFileHeader+zinfo.nameLength)) (by simp [Zinfo.record])
  have hc := h (Attr.compression,.int zinfo.compressType) (by simp [Zinfo.record])
  have hcm := h (Attr.compressedSize,.int zinfo.compressSize) (by simp [Zinfo.record])
  have hsz := h (Attr.size,.int zinfo.fileSize) (by simp [Zinfo.record])
  simp [ZipFileStream.init,ZipFileStream.name,parseInt,hs,hu,ho,hc,hcm,hsz]

lemma Recorded.locates_iff (h : self.Recorded urn zinfo) (hf : zinfo.WellFormed data) :
    self.Locates data urn zinfo ↔ zinfo.Plain data := by
  have ho := h (Attr.fileOffset,
    .int (zinfo.headerOffset+sizeFileHeader+zinfo.nameLength)) (by simp [Zinfo.record])
  rw [Locates,ho,← hf.plain_iff,some_inj,Value.int.injEq]
  omega

lemma content_slice (data : Bytes) (zinfo : Zinfo) (p length : Nat) :
    slice (zinfo.content data) p length =
      slice data (zinfo.dataOffset data+p) (min (zinfo.fileSize-p) length) := by
  rw [Zinfo.content,slice,slice,slice,drop_take,take_take,drop_drop,min_comm]

lemma fileRead_content (data : Bytes) (zinfo : Zinfo) (p length : Nat) :
    fileRead data (zinfo.dataOffset data+p) (min (zinfo.fileSize-p) length) =
        some (slice (zinfo.content data) p length) ↔
      p ≤ zinfo.fileSize ∨ data.length ≤ zinfo.dataOffset data+p := by
  rw [content_slice,fileRead,if_neg (by omega)]
  by_cases hp : p ≤ zinfo.fileSize
  · have hl : (min ((zinfo.fileSize : Int)-p) length).toNat =
        min (zinfo.fileSize-p) length := by omega
    rw [if_neg (by omega),hl]
    exact ⟨fun _ => .inl hp,fun _ => rfl⟩
  · rw [if_pos (by omega),show zinfo.fileSize-p = 0 by omega,Nat.zero_min,slice,take_zero,
      some_inj,drop_eq_nil_iff]
    omega

lemma read_stored {stream : ZipFileStream} {fd : Int → Int → Option Bytes}
    (hfd : oracle stream.backingFd = some fd) (hs : stream.compression = zipStored)
    (length : Option Int) : stream.read oracle inflate length =
      (fd (stream.baseOffset+stream.readptr)
        (min (stream.size-stream.readptr) (length.getD stream.size))).map fun result =>
          (some result,{stream with readptr := stream.readptr+result.length}) := by
  rw [ZipFileStream.read,if_pos hs,hfd]
  exact map_eq_bind.symm

lemma Recorded.reads_iff (h : self.Recorded urn zinfo)
    (hu : self.resolve urn Attr.stored = some (.str filename))
    (hf : oracle filename = some (fileRead data)) (hs : zinfo.compressType = zipStored)
    (ho : zinfo.headerOffset+sizeFileHeader+zinfo.nameLength = zinfo.dataOffset data)
    (p : Nat) (length : Option Nat) : self.Reads oracle inflate data urn zinfo p length ↔
      p ≤ zinfo.fileSize ∨ data.length ≤ zinfo.dataOffset data+p := by
  have hl : (length.map Nat.cast).getD (zinfo.fileSize : Int) =
      (length.getD zinfo.fileSize : Nat) := by cases length <;> rfl
  have hb : ((zinfo.headerOffset : Int)+sizeFileHeader+zinfo.nameLength) =
      zinfo.dataOffset data := by omega
  have hi := h.init_eq hu
  rw [hb,hs] at hi
  rw [← fileRead_content data zinfo p (length.getD zinfo.fileSize),← hl]
  constructor
  · rintro ⟨stream,next,hst,hr⟩
    obtain rfl := some.inj (hi.symm.trans hst)
    rw [read_stored hf rfl] at hr
    obtain ⟨result,hrs,heq⟩ := map_eq_some_iff.mp hr
    rw [hrs,some.inj (Prod.mk.inj heq).1]
  · intro hr
    exact ⟨_,_,hi,(read_stored hf rfl _).trans (map_eq_some_iff.mpr ⟨_,hr,rfl⟩)⟩

/-- The recorded offset of a stored member is right and its stream reads the content at a position
exactly when the local header has no extra field, the name has as many characters as bytes, and the
position is in the member. -/
theorem load_read_iff (oracle : Oracle) (inflate : Bytes → Option Bytes) {zf : ZipFile}
    (hn : zf.Distinct)
    (hf : ∀ zinfo ∈ zf.infolist, zinfo.WellFormed data)
    (hfl : oracle filename = some (fileRead data))
    (hl : self.loadFrom filename zf = some after) :
    ∀ zinfo ∈ zf.infolist, zinfo.compressType = zipStored → ∀ p,
      (after.Locates data zf.urn zinfo ∧
        ∀ length, after.Reads oracle inflate data zf.urn zinfo p length) ↔
      zinfo.Plain data ∧ (p ≤ zinfo.fileSize ∨ data.length ≤ zinfo.dataOffset data + p) := by
  intro zinfo hz hs p
  obtain ⟨hr,hu⟩ := loadFrom_recorded hn hl
  have hm := hr zinfo hz
  rw [hm.locates_iff (hf zinfo hz)]
  refine and_congr_right fun hp => ?_
  have ho := (hf zinfo hz).plain_iff.mpr hp
  simp [hm.reads_iff hu hfl hs ho]

def smallArchive (extra : Bytes) : Bytes :=
  ZipFileHeader.encode ⟨0x04034b50,20,0,0,0,33,0x55bc801d,3,3,1,UInt16.ofNat extra.length⟩ ++
    chars ['a'] ++ extra ++ [1,2,3] ++
    CDFileHeader.encode ⟨CDFileHeader.signature,20,20,0,0,0,33,0x55bc801d,3,3,1,0,0,0,0,0,0⟩ ++
    chars ['a'] ++
    EndCentralDirectory.encode ⟨EndCentralDirectory.signature,0,0,1,1,47,
      UInt32.ofNat (34 + extra.length),10⟩ ++ (fqn ++ chars ['v'])

def smallMember : Zinfo := ⟨chars ['a'],false,0,0x55bc801d,3,3,0,315532800⟩

def smallZip (startDir : Nat) : ZipFile := ⟨fqn ++ chars ['v'],[smallMember],startDir,fun _ => none⟩

def jarMarker : Bytes := [254,202,0,0]

def smallFile : Urn := chars ['f','i','l','e',':','/','/','z']

theorem load_read_small : (smallZip 34).Distinct ∧ smallMember.WellFormed (smallArchive []) ∧
    ∃ after, init.loadFrom smallFile (smallZip 34) = some after ∧
      after.Locates (smallArchive []) (smallZip 34).urn smallMember ∧
        ∀ p ≤ 3, ∀ length, after.Reads (fun _ => some (fileRead (smallArchive []))) some
          (smallArchive []) (smallZip 34).urn smallMember p length := by
  have hn : (smallZip 34).Distinct := by decide +kernel
  have hf : smallMember.WellFormed (smallArchive []) :=
    ⟨by decide +kernel,by decide +kernel,by decide +kernel,by decide +kernel,fun _ => rfl⟩
  have hpl : smallMember.Plain (smallArchive []) := ⟨by decide +kernel,rfl⟩
  obtain ⟨after,hl⟩ := isSome_iff_exists.mp
    (show (init.loadFrom smallFile (smallZip 34)).isSome from rfl)
  have hr := load_read_iff (fun _ => some (fileRead (smallArchive []))) some hn
    (forall_mem_singleton.mpr hf) rfl hl smallMember (mem_singleton_self _) rfl
  exact ⟨hn,hf,after,hl,((hr 0).mpr ⟨hpl,.inl (Nat.zero_le _)⟩).1,
    fun p hp => ((hr p).mpr ⟨hpl,.inl hp⟩).2⟩

/-- With an extra field of four bytes the stream reads that instead of the data. -/
theorem load_read_fails : (smallZip 38).Distinct ∧ smallMember.WellFormed (smallArchive jarMarker) ∧
    ∃ after, init.loadFrom smallFile (smallZip 38) = some after ∧
      ¬ after.Locates (smallArchive jarMarker) (smallZip 38).urn smallMember ∧
        ¬ after.Reads (fun _ => some (fileRead (smallArchive jarMarker))) some
          (smallArchive jarMarker) (smallZip 38).urn smallMember 0 none := by
  have hf : smallMember.WellFormed (smallArchive jarMarker) :=
    ⟨by decide +kernel,by decide +kernel,by decide +kernel,by decide +kernel,fun _ => rfl⟩
  obtain ⟨after,hld⟩ := isSome_iff_exists.mp
    (show (init.loadFrom smallFile (smallZip 38)).isSome from rfl)
  have ho : (init.loadFrom smallFile (smallZip 38)).map (fun after =>
      after.resolve (smallMember.subject (smallZip 38).urn) Attr.fileOffset) =
        some (some (.int 31)) := by decide +kernel
  have hr : (init.loadFrom smallFile (smallZip 38)).bind (fun after =>
      (ZipFileStream.init after (smallMember.subject (smallZip 38).urn)).bind fun stream =>
        (({stream with readptr := (0 : Nat)} : ZipFileStream).read
          (fun _ => some (fileRead (smallArchive jarMarker))) some none).map Prod.fst) =
        some (some [254,202,0]) := by decide +kernel
  rw [hld] at ho hr
  refine ⟨by decide +kernel,hf,after,hld,?_,?_⟩
  · intro hl
    rw [map_some,hl] at ho
    revert ho
    decide +kernel
  · rintro ⟨stream,next,hi,hn⟩
    rw [bind_some,hi,bind_some] at hr
    rw [map_none] at hn
    rw [hn,map_some] at hr
    exact absurd (some.inj (some.inj hr)) (by decide +kernel)

end Resolver
end Aff4.Python
