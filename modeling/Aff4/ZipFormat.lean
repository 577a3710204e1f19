import Aff4.Memory

/-! The packed structures of aff4_zip.h, as `write` puts them into the file and
`read` takes them out again. -/

namespace Aff4

open LittleEndian

structure EndCentralDirectory where
  magic : UInt32
  numberOfThisDisk : UInt16
  diskWithCd : UInt16
  totalEntriesInCdOnDisk : UInt16
  totalEntriesInCd : UInt16
  sizeOfCd : UInt32
  offsetOfCd : UInt32
  commentLen : UInt16
  deriving DecidableEq, Repr

namespace EndCentralDirectory

def signature : UInt32 := 0x6054b50

def size : Nat := 22

def encode (h : EndCentralDirectory) : Bytes :=
  le32 h.magic ++ (le16 h.numberOfThisDisk ++ (le16 h.diskWithCd ++
    (le16 h.totalEntriesInCdOnDisk ++ (le16 h.totalEntriesInCd ++ (le32 h.sizeOfCd ++
    (le32 h.offsetOfCd ++ le16 h.commentLen))))))

def decode (bs : Bytes) : EndCentralDirectory :=
  let (magic,bs) := take32 bs
  let (numberOfThisDisk,bs) := take16 bs
  let (diskWithCd,bs) := take16 bs
  let (totalEntriesInCdOnDisk,bs) := take16 bs
  let (totalEntriesInCd,bs) := take16 bs
  let (sizeOfCd,bs) := take32 bs
  let (offsetOfCd,bs) := take32 bs
  let (commentLen,_) := take16 bs
  ⟨magic,numberOfThisDisk,diskWithCd,totalEntriesInCdOnDisk,totalEntriesInCd,sizeOfCd,offsetOfCd,
    commentLen⟩

@[simp] lemma encode_length (h : EndCentralDirectory) : h.encode.length = size := by
  simp [encode,size]

lemma decode_encode (h : EndCentralDirectory) (rest : Bytes) : decode (h.encode ++ rest) = h := by
  simp [encode,decode]

end EndCentralDirectory

structure CDFileHeader where
  magic : UInt32
  versionMadeBy : UInt16
  versionNeeded : UInt16
  flags : UInt16
  compressionMethod : UInt16
  dostime : UInt16
  dosdate : UInt16
  crc32 : UInt32
  compressSize : UInt32
  fileSize : UInt32
  fileNameLength : UInt16
  extraFieldLen : UInt16
  fileCommentLength : UInt16
  diskNumberStart : UInt16
  internalFileAttr : UInt16
  externalFileAttr : UInt32
  relativeOffsetLocalHeader : UInt32
  deriving DecidableEq, Repr

namespace CDFileHeader

def signature : UInt32 := 0x2014b50

def size : Nat := 46

def encode (h : CDFileHeader) : Bytes :=
  le32 h.magic ++ (le16 h.versionMadeBy ++ (le16 h.versionNeeded ++ (le16 h.flags ++
    (le16 h.compressionMethod ++ (le16 h.dostime ++ (le16 h.dosdate ++ (le32 h.crc32 ++
    (le32 h.compressSize ++ (le32 h.fileSize ++ (le16 h.fileNameLength ++ (le16 h.extraFieldLen ++
    (le16 h.fileCommentLength ++ (le16 h.diskNumberStart ++ (le16 h.internalFileAttr ++
    (le32 h.externalFileAttr ++ le32 h.relativeOffsetLocalHeader)))))))))))))))

def decode (bs : Bytes) : CDFileHeader :=
  let (magic,bs) := take32 bs
  let (versionMadeBy,bs) := take16 bs
  let (versionNeeded,bs) := take16 bs
  let (flags,bs) := take16 bs
  let (compressionMethod,bs) := take16 bs
  let (dostime,bs) := take16 bs
  let (dosdate,bs) := take16 bs
  let (crc32,bs) := take32 bs
  let (compressSize,bs) := take32 bs
  let (fileSize,bs) := take32 bs
  let (fileNameLength,bs) := take16 bs
  let (extraFieldLen,bs) := take16 bs
  let (fileCommentLength,bs) := take16 bs
  let (diskNumberStart,bs) := take16 bs
  let (internalFileAttr,bs) := take16 bs
  let (externalFileAttr,bs) := take32 bs
  let (relativeOffsetLocalHeader,_) := take32 bs
  ⟨magic,versionMadeBy,versionNeeded,flags,compressionMethod,dostime,dosdate,crc32,compressSize,
    fileSize,fileNameLength,extraFieldLen,fileCommentLength,diskNumberStart,internalFileAttr,
    externalFileAttr,relativeOffsetLocalHeader⟩

@[simp] lemma encode_length (h : CDFileHeader) : h.encode.length = size := by simp [encode,size]

lemma decode_magic (bs : Bytes) : (decode bs).magic = (take32 bs).1 := rfl

lemma decode_encode (h : CDFileHeader) (rest : Bytes) : decode (h.encode ++ rest) = h := by
  simp [encode,decode]

end CDFileHeader

structure ZipFileHeader where
  magic : UInt32
  version : UInt16
  flags : UInt16
  compressionMethod : UInt16
  lastmodtime : UInt16
  lastmoddate : UInt16
  crc32 : UInt32
  compressSize : UInt32
  fileSize : UInt32
  fileNameLength : UInt16
  extraFieldLen : UInt16
  deriving DecidableEq, Repr

namespace ZipFileHeader

def size : Nat := 30

def encode (h : ZipFileHeader) : Bytes :=
  le32 h.magic ++ (le16 h.version ++ (le16 h.flags ++ (le16 h.compressionMethod ++
    (le16 h.lastmodtime ++ (le16 h.lastmoddate ++ (le32 h.crc32 ++ (le32 h.compressSize ++
    (le32 h.fileSize ++ (le16 h.fileNameLength ++ le16 h.extraFieldLen)))))))))

def decode (bs : Bytes) : ZipFileHeader :=
  let (magic,bs) := take32 bs
  let (version,bs) := take16 bs
  let (flags,bs) := take16 bs
  let (compressionMethod,bs) := take16 bs
  let (lastmodtime,bs) := take16 bs
  let (lastmoddate,bs) := take16 bs
  let (crc32,bs) := take32 bs
  let (compressSize,bs) := take32 bs
  let (fileSize,bs) := take32 bs
  let (fileNameLength,bs) := take16 bs
  let (extraFieldLen,_) := take16 bs
  ⟨magic,version,flags,compressionMethod,lastmodtime,lastmoddate,crc32,compressSize,fileSize,
    fileNameLength,extraFieldLen⟩

@[simp] lemma encode_length (h : ZipFileHeader) : h.encode.length = size := by simp [encode,size]

lemma decode_encode (h : ZipFileHeader) (rest : Bytes) : decode (h.encode ++ rest) = h := by
  simp [encode,decode]

end ZipFileHeader

structure Zip64EndCD where
  magic : UInt32
  sizeOfHeader : UInt64
  versionMadeBy : UInt16
  versionNeeded : UInt16
  numberOfDisk : UInt32
  numberOfDiskWithCd : UInt32
  numberOfEntriesInVolume : UInt64
  numberOfEntriesInTotal : UInt64
  sizeOfCd : UInt64
  offsetOfCd : UInt64
  deriving DecidableEq, Repr

namespace Zip64EndCD

def signature : UInt32 := 0x06064b50

def size : Nat := 56

def encode (h : Zip64EndCD) : Bytes :=
  le32 h.magic ++ (le64 h.sizeOfHeader ++ (le16 h.versionMadeBy ++ (le16 h.versionNeeded ++
    (le32 h.numberOfDisk ++ (le32 h.numberOfDiskWithCd ++ (le64 h.numberOfEntriesInVolume ++
    (le64 h.numberOfEntriesInTotal ++ (le64 h.sizeOfCd ++ le64 h.offsetOfCd))))))))

def decode (bs : Bytes) : Zip64EndCD :=
  let (magic,bs) := take32 bs
  let (sizeOfHeader,bs) := take64 bs
  let (versionMadeBy,bs) := take16 bs
  let (versionNeeded,bs) := take16 bs
  let (numberOfDisk,bs) := take32 bs
  let (numberOfDiskWithCd,bs) := take32 bs
  let (numberOfEntriesInVolume,bs) := take64 bs
  let (numberOfEntriesInTotal,bs) := take64 bs
  let (sizeOfCd,bs) := take64 bs
  let (offsetOfCd,_) := take64 bs
  ⟨magic,sizeOfHeader,versionMadeBy,versionNeeded,numberOfDisk,numberOfDiskWithCd,
    numberOfEntriesInVolume,numberOfEntriesInTotal,sizeOfCd,offsetOfCd⟩

end Zip64EndCD

structure Zip64CDLocator where
  magic : UInt32
  diskWithCd : UInt32
  offsetOfEndCd : UInt64
  numberOfDisks : UInt32
  deriving DecidableEq, Repr

namespace Zip64CDLocator

def signature : UInt32 := 0x07064b50

def size : Nat := 20

def encode (h : Zip64CDLocator) : Bytes :=
  le32 h.magic ++ (le32 h.diskWithCd ++ (le64 h.offsetOfEndCd ++ le32 h.numberOfDisks))

def decode (bs : Bytes) : Zip64CDLocator :=
  let (magic,bs) := take32 bs
  let (diskWithCd,bs) := take32 bs
  let (offsetOfEndCd,bs) := take64 bs
  let (numberOfDisks,_) := take32 bs
  ⟨magic,diskWithCd,offsetOfEndCd,numberOfDisks⟩

end Zip64CDLocator

end Aff4
