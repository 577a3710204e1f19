import Aff4.Lib.Search
import Aff4.ZipDirectory

/-! Opening a volume: `find_EndCentralDirectory` and `ZipFile_load_from_backing_store`. -/

namespace Aff4

open LittleEndian Search List Nat UInt32 EndCentralDirectory

variable {σ : Type}

/-- The end record as the search finds it, with the rest of the buffer after it. -/
structure Located where
  offset : Nat
  record : EndCentralDirectory
  comment : Bytes

/-- The search of `find_EndCentralDirectory` in a buffer of `B` bytes that was cleared
before `data` was read into it. -/
def scanBuffer (B directoryOffset : Nat) (data : Bytes) : Option Located :=
  let buffer := data ++ replicate (B-data.length) 0
  let i := lastAt (le32 EndCentralDirectory.signature) buffer data.length
  if i = 0 ∨ data.length < i+EndCentralDirectory.size then none
  else some ⟨directoryOffset+i,.decode (slice buffer i EndCentralDirectory.size),
    buffer.drop (i+EndCentralDirectory.size)⟩

/-- The last `B` bytes of the file are searched, but for the four at the very end. -/
def locateEnd (B : Nat) (fd : FileBackedObject) : FileBackedObject × Option Located :=
  let fd := fd.seek (-(B : Int)) .fromEnd
  let directoryOffset := fd.tell
  let (data,fd) := fd.read (B-4)
  (fd,scanBuffer B directoryOffset data)

/-- How many of the last bytes of a file the search does not read. -/
def lost (B size : Nat) : Nat := min (size-(B-4)) 4

variable {B n : Nat}

lemma lost_le_one {size : Nat} (hB : 4 ≤ B) : lost B size ≤ 1 ↔ size ≤ B-3 := by
  rw [lost]
  omega

def Unmistakable (tail : Bytes) : Prop :=
  ∀ j, 0 < j → ¬ At (le32 EndCentralDirectory.signature) tail j

instance (tail : Bytes) : Decidable (Unmistakable tail) :=
  decidable_of_iff (∀ j < tail.length, 0 < j → ¬ At (le32 EndCentralDirectory.signature) tail j) <| by
    refine ⟨fun h j hj hat => ?_,fun h j _ => h j⟩
    have hln := hat.length_le
    have hs : (le32 EndCentralDirectory.signature).length = 4 := rfl
    rw [length_drop] at hln
    exact h j (by omega) hj hat

lemma locateEnd_data (B : Nat) (fd : FileBackedObject) :
    (locateEnd B fd).2 =
      scanBuffer B (fd.data.length-B) (slice fd.data (fd.data.length-B) (B-4)) := by
  have hp : (fd.seek (-(B : Int)) .fromEnd).readptr = fd.data.length-B := by
    simp only [FileBackedObject.seek]
    omega
  simp only [locateEnd,FileBackedObject.read,FileBackedObject.tell,hp,FileBackedObject.seek_data]

/-- The bytes the search reads: the end of what precedes the record, and all but the
lost bytes of the record and its comment. -/
lemma slice_window (front tail : Bytes) (B : Nat) (h4 : 4 ≤ tail.length)
    (hB : tail.length ≤ B) :
    slice (front ++ tail) ((front ++ tail).length-B) (B-4) =
      front.drop ((front ++ tail).length-B) ++
        tail.take (tail.length-lost B (front ++ tail).length) := by
  have hln : (front ++ tail).length = front.length+tail.length := length_append
  have hp : (front.drop ((front ++ tail).length-B)).length ≤ B-4 := by
    rw [length_drop]
    omega
  rw [slice,drop_append_of_le_length (by omega),take_append,take_of_length_le hp,length_drop]
  congr 1
  apply take_eq_take_iff.mpr
  rw [lost]
  omega

lemma signature_ne_nil : le32 EndCentralDirectory.signature ≠ [] := by decide

lemma zero_not_mem_signature : 0 ∉ le32 EndCentralDirectory.signature := by decide

lemma EndCentralDirectory.at_encode {record : EndCentralDirectory}
    (hm : record.magic = signature) (more : Bytes) :
    At (le32 signature) (record.encode ++ more) 0 := by
  rw [At,drop_zero,encode,hm,append_assoc]
  exact prefix_append _ _

/-- The last place at which the signature stands, with a whole record there. -/
structure LastRecord (searched : Bytes) (j : Nat) : Prop where
  stands : At (le32 EndCentralDirectory.signature) searched j
  later : ∀ k, j < k → ¬ At (le32 EndCentralDirectory.signature) searched k
  whole : j+EndCentralDirectory.size ≤ searched.length

lemma lastRecord_drop {searched : Bytes} {d j : Nat} :
    LastRecord (searched.drop d) j ↔ LastRecord searched (d+j) := by
  have hat : ∀ k, At (le32 EndCentralDirectory.signature) (searched.drop d) k ↔
      At (le32 EndCentralDirectory.signature) searched (d+k) := by
    intro k
    rw [At,At,drop_drop]
  constructor
  · rintro ⟨hs,hl,hwh⟩
    rw [length_drop] at hwh
    have hsz : EndCentralDirectory.size = 22 := rfl
    refine ⟨(hat j).mp hs,fun k hk hc => ?_,by omega⟩
    obtain ⟨m,rfl⟩ := Nat.exists_eq_add_of_lt hk
    exact hl (j+m+1) (by omega) ((hat _).mpr (by rwa [← add_assoc,← add_assoc]))
  · rintro ⟨hs,hl,hwh⟩
    refine ⟨(hat j).mpr hs,fun k hk hc => hl (d+k) (by omega) ((hat k).mp hc),?_⟩
    rw [length_drop]
    omega

/-- The record at `j` of what was searched from `base` on, and the rest of the buffer after it. -/
def Located.inside (base : Nat) (searched : Bytes) (k j : Nat) : Located :=
  ⟨base+j,.decode (slice searched j EndCentralDirectory.size),
    searched.drop (j+EndCentralDirectory.size) ++ replicate k 0⟩

variable {pre vis : Bytes}

/-- The search in a buffer comes to the last record there is, unless it is at the very start. -/
lemma scanBuffer_iff {base : Nat} (hv : pre = [] ∨ At (le32 EndCentralDirectory.signature) vis 0)
    {found : Located} :
    scanBuffer B base (pre ++ vis) = some found ↔ ∃ j, 0 < pre.length+j ∧ LastRecord vis j ∧
      found = .inside (base+pre.length) vis (B-(pre ++ vis).length) j := by
  have hsg : (le32 EndCentralDirectory.signature).length = 4 := rfl
  have hsz : EndCentralDirectory.size = 22 := rfl
  have hln : (pre ++ vis).length = pre.length+vis.length := length_append
  have hb : ∀ j, At (le32 EndCentralDirectory.signature) vis j →
      At (le32 EndCentralDirectory.signature)
        (pre ++ vis ++ replicate (B-(pre ++ vis).length) 0) (pre.length+j) := by
    intro j hj
    rw [append_assoc,at_append_right]
    have hle := hj.length_le
    rw [length_drop] at hle
    rw [At,drop_append_of_le_length (by omega)]
    exact hj.trans (prefix_append _ _)
  have hi : ∀ j, j+EndCentralDirectory.size ≤ vis.length →
      (⟨base+(pre.length+j),.decode (slice (pre ++ vis ++ replicate (B-(pre ++ vis).length) 0)
        (pre.length+j) EndCentralDirectory.size),(pre ++ vis ++
          replicate (B-(pre ++ vis).length) 0).drop (pre.length+j+EndCentralDirectory.size)⟩ :
        Located) = .inside (base+pre.length) vis (B-(pre ++ vis).length) j := by
    intro j hj
    rw [Located.inside,slice,slice,append_assoc,Nat.add_assoc pre.length,← drop_drop,drop_left,
      ← drop_drop,drop_left,drop_append_of_le_length (by omega),drop_append_of_le_length hj,
      take_append_of_le_length (by rw [length_drop]; omega),Nat.add_assoc]
  simp only [scanBuffer]
  constructor
  · intro hf
    split at hf
    · cases hf
    · next hcn =>
      obtain ⟨hne,hwh⟩ := not_or.mp hcn
      have hge : pre.length ≤ lastAt (le32 EndCentralDirectory.signature)
          (pre ++ vis ++ replicate (B-(pre ++ vis).length) 0) (pre ++ vis).length := by
        rcases hv with rfl | h0
        · exact Nat.zero_le _
        · exact le_lastAt (by omega) (hb 0 h0)
      obtain ⟨j,hj⟩ := Nat.exists_eq_add_of_le hge
      have hat := (at_of_padded signature_ne_nil zero_not_mem_signature (lastAt_at hne)).2
      rw [hj,at_append_right] at hat
      rw [hj] at hne hwh hf
      refine ⟨j,Nat.pos_of_ne_zero hne,⟨hat,fun k hk hc => ?_,by omega⟩,?_⟩
      · have hle := hc.length_le
        rw [length_drop] at hle
        have hl := le_lastAt (n := (pre ++ vis).length) (by omega) (hb k hc)
        omega
      · rw [← hi j (by omega)]
        exact (Option.some.inj hf).symm
  · rintro ⟨j,hp,⟨hs,hlt,hwh⟩,rfl⟩
    have hl : lastAt (le32 EndCentralDirectory.signature)
        (pre ++ vis ++ replicate (B-(pre ++ vis).length) 0) (pre ++ vis).length = pre.length+j := by
      refine lastAt_eq (by omega) (hb j hs) fun k hk _ hc => ?_
      obtain ⟨m,rfl⟩ := Nat.exists_eq_add_of_le (Nat.le_trans (Nat.le_add_right _ j) (Nat.le_of_lt hk))
      exact hlt m (by omega) ((at_append_right _ pre vis m).mp
        (at_of_padded signature_ne_nil zero_not_mem_signature hc).2)
    rw [hl,if_neg (by omega),hi j hwh]

/-- Where the search of a file ends that ends in `tail`, an end record with its comment: never in
front of it. -/
lemma locateEnd_iff {fd : FileBackedObject} {front tail : Bytes}
    (hd : fd.data = front ++ tail) (hfr : front ≠ []) (hB : 26 ≤ B)
    (hsi : At (le32 EndCentralDirectory.signature) tail 0)
    (ht : EndCentralDirectory.size ≤ tail.length) {found : Located} :
    (locateEnd B fd).2 = some found ↔
      ∃ j, tail.length < j+B ∧ LastRecord (tail.take (tail.length-lost B fd.data.length)) j ∧
        found = .inside front.length (tail.take (tail.length-lost B fd.data.length))
          (B-min (B-4) fd.data.length) j := by
  have hsz : EndCentralDirectory.size = 22 := rfl
  have hln : fd.data.length = front.length+tail.length := by rw [hd,length_append]
  have hls : lost B fd.data.length ≤ 4 := min_le_right _ _
  have hls' : lost B fd.data.length = min (fd.data.length-(B-4)) 4 := rfl
  have hps := length_pos_iff.mpr hfr
  rw [locateEnd_data]
  by_cases hsh : tail.length < B
  · have hwn := slice_window front tail B (by omega) (by omega)
    rw [← hd] at hwn
    have hsg : (le32 EndCentralDirectory.signature).length = 4 := rfl
    have hp : (front.drop (fd.data.length-B)).length = front.length-(fd.data.length-B) :=
      length_drop
    have hv : (front.drop (fd.data.length-B) ++
        tail.take (tail.length-lost B fd.data.length)).length = min (B-4) fd.data.length := by
      rw [length_append,hp,length_take]
      omega
    have hb : fd.data.length-B+(front.drop (fd.data.length-B)).length = front.length := by omega
    rw [hwn,scanBuffer_iff (.inr (at_take_of_le hsi (by omega))),hv,hb]
    refine exists_congr fun j => and_congr_left fun _ => ?_
    omega
  · -- the search stays inside the comment
    have hr : slice fd.data (fd.data.length-B) (B-4) =
        [] ++ (tail.take (tail.length-lost B fd.data.length)).drop (tail.length-B) := by
      rw [hd,slice_append_right _ _ _ _ (by rw [← hd]; omega),← hd,nil_append,drop_take,slice]
      have hs : fd.data.length-B-front.length = tail.length-B := by omega
      have hc : tail.length-lost B fd.data.length-(tail.length-B) = B-4 := by omega
      rw [hs,hc]
    have hrm : (([] : Bytes) ++ (tail.take (tail.length-lost B fd.data.length)).drop
        (tail.length-B)).length = min (B-4) fd.data.length := by
      rw [nil_append,length_drop,length_take]
      omega
    have hi : ∀ k j, Located.inside (fd.data.length-B+([] : Bytes).length)
        ((tail.take (tail.length-lost B fd.data.length)).drop (tail.length-B)) k j =
          .inside front.length (tail.take (tail.length-lost B fd.data.length)) k
            (tail.length-B+j) := by
      intro k j
      rw [Located.inside,Located.inside,slice,slice,drop_drop,drop_drop,length_nil,Nat.add_zero,
        Nat.add_assoc]
      congr 1
      omega
    rw [hr,scanBuffer_iff (.inl rfl),hrm]
    simp only [hi]
    simp only [length_nil,zero_add,lastRecord_drop]
    constructor
    · rintro ⟨j,hj,hl,rfl⟩
      exact ⟨tail.length-B+j,by omega,hl,rfl⟩
    · rintro ⟨j,hj,hl,rfl⟩
      obtain ⟨k,rfl⟩ := Nat.exists_eq_add_of_le (show tail.length-B ≤ j by omega)
      exact ⟨k,by omega,hl,rfl⟩

/-- The URN of the volume is replaced by a comment that is a fully qualified name. -/
def Located.urn (found : Located) (urn : RDFURN) : RDFURN :=
  if 4 < found.record.commentLen.toNat ∧ found.comment.take 4 = chars ['a','f','f','4'] ∧
      found.comment.take fqn.length = fqn then
    .set found.comment
  else urn

/-- The Zip64 branch of `find_EndCentralDirectory`. By now `directory_offset` is the
escape value of the record and no longer the place of the record. The two structures are
not initialised before they are read. -/
def readZip64 (junk : Junk) (fd : FileBackedObject) (record : EndCentralDirectory) :
    FileBackedObject × Option (EndCentralDirectory × UInt64) :=
  let fd := fd.seek (0xFFFFFFFF-Zip64CDLocator.size) .set
  let (data,fd) := fd.read Zip64CDLocator.size
  let locator := Zip64CDLocator.decode (overlay junk Zip64CDLocator.size data)
  if locator.magic ≠ Zip64CDLocator.signature then (fd,none)
  else if locator.diskWithCd ≠ 0 ∨ locator.numberOfDisks ≠ 1 then (fd,none)
  else
    let fd := fd.seek locator.offsetOfEndCd.toInt64.toInt .set
    let (data,fd) := fd.read Zip64EndCD.size
    let endCd := Zip64EndCD.decode (overlay junk Zip64EndCD.size data)
    if endCd.magic ≠ Zip64EndCD.signature then (fd,none)
    else if endCd.numberOfDisk ≠ 0 ∨ endCd.numberOfDiskWithCd ≠ 0 ∨
        endCd.numberOfEntriesInVolume ≠ endCd.numberOfEntriesInTotal then (fd,none)
    else
      (fd.seek endCd.offsetOfCd.toInt64.toInt .set,
        some ({record with totalEntriesInCd := endCd.numberOfEntriesInTotal.toUInt16},
          endCd.offsetOfCd))

def toInt32 (offset : UInt64) : Int := offset.toUInt32.toInt32.toInt

lemma toInt32_lt (offset : UInt64) : toInt32 offset < 2^31 := Int32.toInt_lt _

lemma toInt32_small (h : n < 2^31) : toInt32 (ofNat n).toUInt64 = n := by
  have hn : (ofNat n).toNat = n := toNat_ofNat_of_lt' (by
    rw [UInt32.size]
    omega)
  rw [toInt32,toUInt32_toUInt64]
  change (ofNat n).toBitVec.toInt = n
  have hbv : (ofNat n).toBitVec.toNat = n := hn
  rw [BitVec.toInt_eq_toNat_of_lt (by omega),hbv]

lemma toInt32_eq_iff {offset : UInt32} (h : n < 2^31) :
    toInt32 offset.toUInt64 = n ↔ offset.toNat = n := by
  constructor
  · intro heq
    rw [toInt32,toUInt32_toUInt64] at heq
    change offset.toBitVec.toInt = n at heq
    have hv : offset.toBitVec.toNat = offset.toNat := rfl
    rw [BitVec.toInt_eq_toNat_cond,hv] at heq
    have hlt := offset.toNat_lt
    split at heq <;> omega
  · rintro rfl
    rw [← toInt32_small h,UInt32.ofNat_toNat]

namespace ZipFile

def findEndCentralDirectory (junk : Junk) (self : ZipFile σ) :
    ZipFile σ × Option (EndCentralDirectory × UInt64) :=
  match locateEnd buffSize self.backingStore with
  | (fd,none) => ({self with backingStore := fd},none)
  | (fd,some found) =>
    if found.record.offsetOfCd = 0xFFFFFFFF then
      let (fd,result) := readZip64 junk fd found.record
      ({self with urn := found.urn self.urn, backingStore := fd},result)
    else
      ({self with
          urn := found.urn self.urn
          backingStore := fd.seek found.record.offsetOfCd.toNat .set},
        some (found.record,found.record.offsetOfCd.toUInt64))

/-- The offset of the directory and the number of entries that are read from it. -/
def directoryUsed (found : Option (EndCentralDirectory × UInt64)) : Option (Int × Nat) :=
  match found with
  | none => none
  | some (record,offset) =>
    if toInt32 offset = 0 then none else some (toInt32 offset,record.totalEntriesInCd.toNat)

def loadFromBackingStore (junk : Junk) (self : ZipFile σ) : ZipFile σ :=
  let (self,found) := self.findEndCentralDirectory junk
  match directoryUsed found with
  | none => self
  | some (directoryOffset,total) =>
    let fd := self.backingStore.seek directoryOffset .set
    {self with members := self.members ++ (loadEntries total fd).reduceOption, backingStore := fd}

def ofFile (urn : RDFURN) (mode : Mode) (data : Bytes) : ZipFile σ := ⟨urn,mode,[],⟨data,0⟩⟩

variable {junk : Junk} {start total k : Nat} {mode : Mode} {data : Bytes}

lemma findEndCentralDirectory_none {s : ZipFile σ}
    (h : (locateEnd buffSize s.backingStore).2 = none) :
    (s.findEndCentralDirectory junk).2 = none := by
  rw [findEndCentralDirectory]
  generalize locateEnd buffSize s.backingStore = p at h
  obtain ⟨fd,found⟩ := p
  obtain rfl : found = none := h
  rfl

variable {found : Located}

lemma findEndCentralDirectory_urn (junk : Junk) {s : ZipFile σ}
    (h : (locateEnd buffSize s.backingStore).2 = some found) :
    (s.findEndCentralDirectory junk).1.urn = found.urn s.urn := by
  rw [findEndCentralDirectory]
  generalize locateEnd buffSize s.backingStore = p at h
  obtain ⟨fd,result⟩ := p
  obtain rfl : result = some found := h
  simp only
  split <;> rfl

lemma findEndCentralDirectory_eq (junk : Junk) {s : ZipFile σ}
    (h : (locateEnd buffSize s.backingStore).2 = some found)
    (ho : found.record.offsetOfCd ≠ 0xFFFFFFFF) :
    s.findEndCentralDirectory junk =
      ({s with
          urn := found.urn s.urn
          backingStore := (locateEnd buffSize s.backingStore).1.seek
            found.record.offsetOfCd.toNat .set},
        some (found.record,found.record.offsetOfCd.toUInt64)) := by
  rw [findEndCentralDirectory]
  generalize locateEnd buffSize s.backingStore = p at h
  obtain ⟨fd,result⟩ := p
  obtain rfl : result = some found := h
  simp only [if_neg ho]

lemma directoryUsed_bounds {found : Option (EndCentralDirectory × UInt64)}
    (h : directoryUsed found = some ((start : Int),total)) :
    0 < start ∧ start ≤ zip64Limit ∧ total < 2^16 := by
  match found with
  | none => cases h
  | some (record,offset) =>
    rw [directoryUsed] at h
    split at h
    · cases h
    · next hne =>
      obtain ⟨hs,ht⟩ := Prod.mk.inj (Option.some.inj h)
      have hlt := toInt32_lt offset
      have htt := record.totalEntriesInCd.toNat_lt
      rw [zip64Limit]
      omega

def front (self : ZipFile σ) : Bytes :=
  self.backingStore.data ++ (self.directory ++
    (if zip64Limit < self.startOfCd then
      writeZip64CD self.offsetOfEndCd self.startOfCd self.closed.length
    else []))

def record (self : ZipFile σ) : EndCentralDirectory :=
  endRecord self.urn self.startOfCd self.offsetOfEndCd self.closed.length

def closedSize (self : ZipFile σ) : Nat := self.close.backingStore.data.length

lemma close_data_front (s : ZipFile σ) (hw : s.mode = .w) :
    s.close.backingStore.data = s.front ++ (s.record.encode ++ comment s.urn) := by
  rw [close_data s hw,trailer,front]
  simp only [append_assoc]
  rfl

lemma front_ne_nil {s : ZipFile σ} (h : 0 < s.startOfCd) : s.front ≠ [] :=
  append_ne_nil_of_left_ne_nil (ne_nil_of_length_pos h) _

lemma record_offsetOfCd {s : ZipFile σ} (h : s.startOfCd ≤ zip64Limit) :
    s.record.offsetOfCd = ofNat s.startOfCd := if_neg (not_lt.mpr h)

lemma ofNat_ne_escape {n : Nat} (h : n ≤ zip64Limit) : ofNat n ≠ 0xFFFFFFFF := by
  intro he
  have hn := congrArg toNat he
  rw [zip64Limit] at h
  rw [toNat_ofNat_of_lt' (by rw [UInt32.size]; omega)] at hn
  have : (0xFFFFFFFF : UInt32).toNat = 4294967295 := rfl
  omega

lemma directoryUsed_record {s : ZipFile σ} (hp : 0 < s.startOfCd)
    (hl : s.startOfCd ≤ zip64Limit) :
    directoryUsed (some (s.record,s.record.offsetOfCd.toUInt64)) =
      some ((s.startOfCd : Int),s.closed.length%2^16) := by
  have hlt : s.startOfCd < 2^31 := by
    rw [zip64Limit] at hl
    omega
  have he : s.record.totalEntriesInCd.toNat = s.closed.length%2^16 := UInt16.toNat_ofNat'
  rw [directoryUsed,record_offsetOfCd hl]
  simp only [toInt32_small hlt,he]
  rw [if_neg (by omega)]

/-- Whether the end record and enough of its comment lie in the window of the search. -/
def Visible (self : ZipFile σ) : Prop :=
  EndCentralDirectory.size+(comment self.urn).length < buffSize ∧
    lost buffSize self.closedSize ≤ (comment self.urn).length

/-- What the search reads of the end record and its comment. -/
def searched (self : ZipFile σ) : Bytes :=
  (self.record.encode ++ comment self.urn).take
    (EndCentralDirectory.size+(comment self.urn).length-lost buffSize self.closedSize)

/-- The end record of this volume as the search finds it. -/
def EndFound (self : ZipFile σ) (found : Located) : Prop :=
  found.offset = self.front.length ∧ found.record = self.record ∧ ∃ k, found.comment =
    (comment self.urn).take ((comment self.urn).length-lost buffSize self.closedSize) ++
      replicate k 0

lemma searched_length (s : ZipFile σ) : s.searched.length =
    EndCentralDirectory.size+(comment s.urn).length-lost buffSize s.closedSize := by
  rw [searched,length_take,length_append,EndCentralDirectory.encode_length]
  exact min_eq_left (sub_le _ _)

section

variable {s : ZipFile σ} (hw : s.mode = .w) (hfr : s.front ≠ [])

include hw hfr in
lemma locateEnd_close : (locateEnd buffSize ⟨s.close.backingStore.data,0⟩).2 = some found ↔
    ∃ j, EndCentralDirectory.size+(comment s.urn).length < j+buffSize ∧ LastRecord s.searched j ∧
      found = .inside s.front.length s.searched (buffSize-min (buffSize-4) s.closedSize) j := by
  have ht : (s.record.encode ++ comment s.urn).length =
    EndCentralDirectory.size+(comment s.urn).length := by simp
  have hd : (⟨s.close.backingStore.data,0⟩ : FileBackedObject).data =
    s.front ++ (s.record.encode ++ comment s.urn) := s.close_data_front hw
  rw [locateEnd_iff hd hfr (by decide) (EndCentralDirectory.at_encode rfl _)
    (by rw [ht]; exact le_add_right _ _),ht]
  rfl

lemma inside_zero (k : Nat) (h : LastRecord s.searched 0) :
    s.EndFound (.inside s.front.length s.searched k 0) := by
  have hwh := h.whole
  rw [searched_length] at hwh
  have hl : lost buffSize s.closedSize ≤ 4 := min_le_right _ _
  have hsz : EndCentralDirectory.size = 22 := rfl
  have ht : s.searched = s.record.encode ++
      (comment s.urn).take ((comment s.urn).length-lost buffSize s.closedSize) := by
    have hr : EndCentralDirectory.size+(comment s.urn).length-lost buffSize s.closedSize-
      EndCentralDirectory.size = (comment s.urn).length-lost buffSize s.closedSize := by omega
    rw [searched,take_append,EndCentralDirectory.encode_length,hr,take_of_length_le (by
      rw [EndCentralDirectory.encode_length]
      omega)]
  refine ⟨rfl,?_,k,?_⟩
  · rw [Located.inside,ht,slice,drop_zero,take_left' (by simp)]
    simpa using decode_encode s.record []
  · rw [Located.inside,ht,zero_add,drop_left' (by simp)]

include hw hfr in
/-- A record that nothing behind it can be mistaken for is found if it can be seen. -/
lemma locateEnd_single (hun : Unmistakable (s.record.encode ++ comment s.urn)) :
    (¬ s.Visible → (locateEnd buffSize ⟨s.close.backingStore.data,0⟩).2 = none) ∧
    (s.Visible → ∃ found, (locateEnd buffSize ⟨s.close.backingStore.data,0⟩).2 = some found ∧
      s.EndFound found) := by
  have hsz : EndCentralDirectory.size = 22 := rfl
  have hln := s.searched_length
  constructor
  · intro hv
    cases hf : (locateEnd buffSize ⟨s.close.backingStore.data,0⟩).2 with
    | none => rfl
    | some found =>
      obtain ⟨j,hj,hl,-⟩ := (locateEnd_close hw hfr).mp hf
      have hz : j = 0 := by
        by_contra hne
        exact hun j (pos_of_ne_zero hne) (at_of_take hl.stands)
      have hwh := hl.whole
      refine absurd ⟨?_,?_⟩ hv
      · omega
      · omega
  · rintro ⟨hwn,hs⟩
    have hsg : (le32 EndCentralDirectory.signature).length = 4 := rfl
    have hl : LastRecord s.searched 0 := by
      refine ⟨at_take_of_le (EndCentralDirectory.at_encode rfl _) (by omega),?_,by omega⟩
      exact fun k hk hc => hun k hk (at_of_take hc)
    exact ⟨_,(locateEnd_close hw hfr).mpr ⟨0,by omega,hl,rfl⟩,inside_zero _ hl⟩

include hw hfr in
/-- When the search stops at the record, it has the record, and nothing that it read
behind the record looked like another one. -/
lemma locateEnd_offset (hf : (locateEnd buffSize ⟨s.close.backingStore.data,0⟩).2 = some found)
    (ho : found.offset = s.front.length) :
    s.EndFound found ∧ (lost buffSize s.closedSize ≤ 1 → (comment s.urn).getLast? = some 0 →
      Unmistakable (s.record.encode ++ comment s.urn)) := by
  obtain ⟨j,-,hl,rfl⟩ := (locateEnd_close hw hfr).mp hf
  obtain rfl : j = 0 := add_eq_left.mp ho
  refine ⟨inside_zero _ hl,fun h1 hz j hj hat => hl.later j hj (at_take_of_le hat ?_)⟩
  -- The last byte is no part of a signature.
  obtain ⟨c,hc⟩ := getLast?_eq_some_iff.mp hz
  have he : s.record.encode ++ comment s.urn =
      s.record.encode ++ c ++ replicate 1 (0 : UInt8) := by simp [hc]
  rw [he] at hat
  have hin := (at_of_padded signature_ne_nil zero_not_mem_signature hat).1
  rw [length_append,EndCentralDirectory.encode_length] at hin
  rw [hc,length_append,length_singleton]
  omega

end

lemma locateEnd_fst (B : Nat) (fd : FileBackedObject) : (locateEnd B fd).1.data = fd.data := rfl

lemma readZip64_data (junk : Junk) (fd : FileBackedObject) (record : EndCentralDirectory) :
    readZip64 junk fd record = readZip64 junk ⟨fd.data,0⟩ record := rfl

/-- An end record leads to a directory at `start` with `total` entries in a file with the
content `data`. -/
structure Leads (data : Bytes) (record : EndCentralDirectory) (start total : Nat) : Prop where
  plain : record.offsetOfCd ≠ 0xFFFFFFFF →
    record.offsetOfCd.toNat = start ∧ record.totalEntriesInCd.toNat = total
  escaped : record.offsetOfCd = 0xFFFFFFFF →
    ∀ junk, directoryUsed (readZip64 junk ⟨data,0⟩ record).2 = some ((start : Int),total)

lemma directoryUsed_iff {s : ZipFile σ} (hp : 0 < start) (hl : start ≤ zip64Limit) :
    (∀ junk, directoryUsed (s.findEndCentralDirectory junk).2 = some ((start : Int),total)) ↔
      ∃ found, (locateEnd buffSize s.backingStore).2 = some found ∧
        Leads s.backingStore.data found.record start total := by
  cases hf : (locateEnd buffSize s.backingStore).2 with
  | none =>
    refine iff_of_false (fun h => ?_) (by simp)
    have hu := h fun _ => 0
    rw [findEndCentralDirectory_none hf] at hu
    cases hu
  | some found =>
    simp only [Option.some.injEq,exists_eq_left']
    by_cases hes : found.record.offsetOfCd = 0xFFFFFFFF
    · have heq : ∀ junk, (s.findEndCentralDirectory junk).2 =
          (readZip64 junk ⟨s.backingStore.data,0⟩ found.record).2 := by
        intro junk
        rw [← locateEnd_fst buffSize,← readZip64_data,findEndCentralDirectory]
        generalize locateEnd buffSize s.backingStore = p at hf
        obtain ⟨fd,result⟩ := p
        obtain rfl : result = some found := hf
        simp only [if_pos hes]
      simp only [heq]
      exact ⟨fun h => ⟨fun hne => absurd hes hne,fun _ => h⟩,fun h => h.escaped hes⟩
    · have hlt : start < 2^31 := by
        rw [zip64Limit] at hl
        omega
      have hu : (∀ junk, directoryUsed (s.findEndCentralDirectory junk).2 =
          some ((start : Int),total)) ↔ found.record.offsetOfCd.toNat = start ∧
            found.record.totalEntriesInCd.toNat = total := by
        simp only [findEndCentralDirectory_eq _ hf hes,directoryUsed,forall_const]
        rw [← toInt32_eq_iff hlt]
        split
        · next hz =>
          rw [hz]
          exact iff_of_false (by simp) fun h => by omega
        · simp
      rw [hu]
      exact ⟨fun h => ⟨fun _ => h,fun he => absurd he hes⟩,fun h => h.plain hes⟩

/-- Reopening a volume uses the directory offset and the number of entries it was closed with
exactly when both fit into what the end record and the reader can hold, and the last end record
that is found in the record and its comment leads there. -/
theorem directoryUsed_close_iff (self : ZipFile σ) (hw : self.mode = .w) :
    (∀ (junk : Junk) (urn : RDFURN) (mode : Mode),
      directoryUsed ((ofFile urn mode self.close.backingStore.data : ZipFile σ)
        |>.findEndCentralDirectory junk).2 = some ((self.startOfCd : Int),self.closed.length)) ↔
    0 < self.startOfCd ∧ self.startOfCd ≤ zip64Limit ∧ self.closed.length < 2^16 ∧
      ∃ j, EndCentralDirectory.size+(comment self.urn).length < j+buffSize ∧
        LastRecord self.searched j ∧ Leads self.close.backingStore.data
          (.decode (slice self.searched j EndCentralDirectory.size)) self.startOfCd
          self.closed.length := by
  constructor
  · intro h
    obtain ⟨hp,hl,ht⟩ := directoryUsed_bounds (h (fun _ => 0) self.urn .r)
    obtain ⟨found,hf,hld⟩ := (directoryUsed_iff hp hl).mp fun junk => h junk self.urn .r
    obtain ⟨j,hj,hla,rfl⟩ := (locateEnd_close hw (front_ne_nil hp)).mp hf
    exact ⟨hp,hl,ht,j,hj,hla,hld⟩
  · rintro ⟨hp,hl,ht,j,hj,hla,hld⟩ junk urn mode
    exact (directoryUsed_iff (s := ofFile urn mode self.close.backingStore.data) hp hl).mpr
      ⟨_,(locateEnd_close hw (front_ne_nil hp)).mpr ⟨j,hj,hla,rfl⟩,hld⟩ junk

def reopen (junk : Junk) (urn : RDFURN) (mode : Mode) (data : Bytes) : ZipFile σ :=
  (ofFile urn mode data).loadFromBackingStore junk

variable {urn : RDFURN}

lemma reopen_none (h : (locateEnd buffSize ⟨data,0⟩).2 = none) :
    (reopen junk urn mode data : ZipFile σ).members = [] := by
  rw [reopen,loadFromBackingStore,findEndCentralDirectory]
  change (locateEnd buffSize (ofFile urn mode data : ZipFile σ).backingStore).2 = none at h
  generalize locateEnd buffSize (ofFile urn mode data : ZipFile σ).backingStore = p at h
  obtain ⟨fd,found⟩ := p
  obtain rfl : found = none := h
  rfl

lemma reopen_urn (h : (locateEnd buffSize ⟨data,0⟩).2 = some found) :
    (reopen junk urn mode data : ZipFile σ).urn = found.urn urn := by
  have hu := findEndCentralDirectory_urn junk (s := (ofFile urn mode data : ZipFile σ)) h
  simp only [reopen,loadFromBackingStore]
  split <;> exact hu

lemma findEndCentralDirectory_keeps (junk : Junk) (s : ZipFile σ) :
    (s.findEndCentralDirectory junk).1.members = s.members ∧
    (s.findEndCentralDirectory junk).1.mode = s.mode ∧
    (s.findEndCentralDirectory junk).1.backingStore.data = s.backingStore.data := by
  have hz64 : ∀ fd record, (readZip64 junk fd record).1.data = fd.data := by
    intro fd record
    simp only [readZip64]
    split_ifs <;> simp
  have he : (locateEnd buffSize s.backingStore).1.data = s.backingStore.data := rfl
  rw [findEndCentralDirectory]
  split
  · simp_all
  · split <;> simp_all

lemma reopen_keeps (junk : Junk) (urn : RDFURN) (mode : Mode) (file : Bytes) :
    (reopen junk urn mode file : ZipFile σ).mode = mode ∧
      (reopen junk urn mode file : ZipFile σ).backingStore.data = file := by
  obtain ⟨-,hf⟩ := findEndCentralDirectory_keeps junk (ofFile urn mode file : ZipFile σ)
  simp only [reopen,loadFromBackingStore]
  split <;> exact hf

lemma reopen_close (s : ZipFile σ) (hw : s.mode = .w) (hs : 0 < s.startOfCd)
    (hl : s.startOfCd ≤ zip64Limit)
    (hun : Unmistakable (s.record.encode ++ comment s.urn)) (hv : s.Visible)
    (junk : Junk) (urn : RDFURN) (mode : Mode) :
    ∃ found : Located, s.EndFound found ∧
      reopen junk urn mode s.close.backingStore.data = (⟨found.urn urn,mode,
        (loadEntries (s.closed.length%2^16)
          ⟨s.close.backingStore.data,s.startOfCd⟩).reduceOption,
        ⟨s.close.backingStore.data,s.startOfCd⟩⟩ : ZipFile σ) := by
  obtain ⟨found,hf,he⟩ := (locateEnd_single hw (front_ne_nil hs) hun).2 hv
  refine ⟨found,he,?_⟩
  have hne : found.record.offsetOfCd ≠ 0xFFFFFFFF := by
    rw [he.2.1,record_offsetOfCd hl]
    exact ofNat_ne_escape hl
  have hfi := findEndCentralDirectory_eq junk
    (s := (ofFile urn mode s.close.backingStore.data : ZipFile σ)) hf hne
  rw [reopen,loadFromBackingStore,hfi,he.2.1]
  simp only [directoryUsed_record hs hl]
  rfl

def twoMembersAfter (data : Bytes) : ZipFile Unit := {twoMembers 0 40 with backingStore := ⟨data,0⟩}

theorem directoryUsed_close_small : (twoMembersAfter (zstring [])).closed.length = 2 ∧
    directoryUsed ((ofFile (.set fqn) .r (twoMembersAfter (zstring [])).close.backingStore.data :
      ZipFile Unit).findEndCentralDirectory fun _ => 0).2 = some (1,2) := by
  have hla : LastRecord (twoMembersAfter (zstring [])).searched 0 := by
    have hun : Unmistakable (twoMembersAfter (zstring [])).searched := by decide +kernel
    exact ⟨by decide +kernel,hun,by decide +kernel⟩
  have hl : Leads (twoMembersAfter (zstring [])).close.backingStore.data
      (.decode (slice (twoMembersAfter (zstring [])).searched 0 EndCentralDirectory.size))
      (twoMembersAfter (zstring [])).startOfCd (twoMembersAfter (zstring [])).closed.length := by
    refine ⟨fun _ => by decide +kernel,fun he => absurd he (by decide +kernel)⟩
  have hwn : EndCentralDirectory.size+(comment (twoMembersAfter (zstring [])).urn).length <
    0+buffSize := by decide
  have hu := (directoryUsed_close_iff (twoMembersAfter (zstring [])) rfl).mpr
    ⟨by decide,by decide,by decide,0,hwn,hla,hl⟩
  exact ⟨by decide,hu (fun _ => 0) (.set fqn) .r⟩

/-- The offset of a directory at two gigabytes does not fit into the `int`. -/
theorem directoryUsed_close_big : (twoMembersAfter (replicate (2^31) 0)).closed.length = 2 ∧
    ¬ ∀ (junk : Junk) (urn : RDFURN) (mode : Mode),
      directoryUsed ((ofFile urn mode (twoMembersAfter (replicate (2^31) 0)).close.backingStore.data :
        ZipFile Unit).findEndCentralDirectory junk).2 =
          some (((twoMembersAfter (replicate (2^31) 0)).startOfCd : Int),2) := by
  refine ⟨by decide,fun h => ?_⟩
  have hb := (directoryUsed_bounds (h (fun _ => 0) (.set fqn) .r)).2.1
  have hs : (twoMembersAfter (replicate (2^31) 0)).startOfCd = 2^31 := length_replicate
  rw [hs,zip64Limit] at hb
  omega

lemma comment_length (urn : RDFURN) :
    (comment urn).length = (urn.value.length+1)%2^16 := by
  have hle : (urn.value.length+1)%2^16 ≤ urn.value.length+1 := mod_le _ _
  rw [comment,length_take,zstring_length,UInt16.toNat_ofNat',min_eq_left hle]

lemma comment_eq (h : urn.value.length+1 < 2^16) :
    comment urn = zstring urn.value := by
  rw [comment,UInt16.toNat_ofNat_of_lt' h]
  exact take_of_length_le (by simp)

lemma comment_take {m : Nat} (hm : m ≤ (comment urn).length) :
    (comment urn).take m = urn.value.take m ++ replicate (m-urn.value.length) 0 := by
  have hc := hm
  rw [comment,length_take,zstring_length] at hc
  have hz : m-urn.value.length = 0 ∨ m-urn.value.length = 1 := by omega
  rw [comment,take_take,min_eq_left (by omega),zstring,take_append]
  rcases hz with hz | hz
  · simp [hz]
  · simp [hz]

/-- The URN that a reader has after the search: the one it had before, or the one in the comment. -/
lemma urn_of_comment {t : Bytes} (hc : found.comment = t ++ replicate k 0)
    (hz : ∀ c ∈ t, c ≠ 0) (urn₀ : RDFURN) :
    found.urn urn₀ = urn₀ ∨
    fqn <+: t ∧ cstring found.comment = t ∧ found.urn urn₀ = .set found.comment := by
  rw [Located.urn]
  split
  · next hcn =>
    have hp : At fqn found.comment 0 := prefix_iff_eq_take.mpr hcn.2.2.symm
    rw [hc] at hp
    refine .inr ⟨(at_of_padded (by decide) (by decide) hp).2,?_,rfl⟩
    rw [hc]
    exact cstring_padded hz k
  · exact .inl rfl

/-- A comment that is read from its middle on is shorter than the URN. -/
lemma inside_comment {s : ZipFile σ} {base j : Nat} (hj : 0 < j) : ∃ t n,
    (Located.inside base s.searched k j).comment = t ++ replicate n 0 ∧ (∀ c ∈ t, c ≠ 0) ∧
      t.length < s.urn.value.length := by
  have hp : 0 < s.urn.value.length := length_pos_of_mem s.urn.colon_mem_value
  have hcm := comment_take (le_refl (comment s.urn).length)
  rw [take_length] at hcm
  generalize (comment s.urn).length = m at hcm
  have hd : ∃ n, s.searched.drop (j+EndCentralDirectory.size) = ((comment s.urn).drop j).take n :=
    ⟨_,by rw [searched,drop_take,add_comm j,← drop_drop,drop_left' (by simp)]⟩
  obtain ⟨n,hn⟩ := hd
  rw [hcm,drop_append,take_append,drop_replicate,take_replicate] at hn
  generalize min (_ : Nat) _ = z at hn
  refine ⟨((s.urn.value.take m).drop j).take n,z+k,?_,fun c hc => s.urn.value_ne_zero c ?_,?_⟩
  · rw [Located.inside,hn,append_assoc,replicate_append_replicate]
  · exact mem_of_mem_take (mem_of_mem_drop (mem_of_mem_take hc))
  · simp only [length_take,length_drop]
    omega

/-- The URN of a reader is the one it had before, or the one in the comment, cut short or whole. -/
lemma urn_cases {s : ZipFile σ} (hw : s.mode = .w) (hfr : s.front ≠ [])
    (hf : (locateEnd buffSize ⟨s.close.backingStore.data,0⟩).2 = some found) (urn₀ : RDFURN) :
    found.urn urn₀ = urn₀ ∨
    fqn <+: (found.urn urn₀).value ∧ (found.urn urn₀).value.length < s.urn.value.length ∨
    found.offset = s.front.length ∧ fqn <+: s.urn.value ∧ s.urn.value.length+1 < 2^16 ∧
      lost buffSize s.closedSize ≤ 1 ∧ (found.urn urn₀).value = s.urn.value := by
  have hct : ∀ (t : Bytes) (n : Nat), found.comment = t ++ replicate n 0 → (∀ c ∈ t, c ≠ 0) →
      t.length < s.urn.value.length → found.urn urn₀ = urn₀ ∨
        fqn <+: (found.urn urn₀).value ∧ (found.urn urn₀).value.length < s.urn.value.length := by
    intro t n hcm hz hsh
    refine (urn_of_comment hcm hz urn₀).imp_right fun ⟨hfq,hs,hst⟩ => ?_
    obtain ⟨hv,hln⟩ := RDFURN.set_fqn hs hfq
    rw [hst]
    exact ⟨hv,by omega⟩
  obtain ⟨j,-,hl,rfl⟩ := (locateEnd_close hw hfr).mp hf
  rcases Nat.eq_zero_or_pos j with rfl | hj
  · obtain ⟨ho,-,k,hcm⟩ := inside_zero _ hl
    rw [comment_take (Nat.sub_le _ _),append_assoc,replicate_append_replicate] at hcm
    have hz : ∀ c ∈ s.urn.value.take ((comment s.urn).length-lost buffSize s.closedSize), c ≠ 0 :=
      fun c hc => s.urn.value_ne_zero c (mem_of_mem_take hc)
    rcases lt_or_ge ((comment s.urn).length-lost buffSize s.closedSize) s.urn.value.length with
      hlt | hge
    · rw [← or_assoc]
      refine .inl (hct _ _ hcm hz ?_)
      rw [length_take]
      omega
    · rw [take_of_length_le hge] at hcm hz
      refine (urn_of_comment hcm hz urn₀).imp_right fun ⟨hfq,hs,hst⟩ => .inr ?_
      have hln := comment_length s.urn
      have hsv : 7 ≤ s.urn.value.length := hfq.length_le
      rw [hst]
      exact ⟨ho,hfq,by omega,by omega,RDFURN.set_value s.urn hs⟩
  · obtain ⟨t,n,hcm,hz,hsh⟩ := inside_comment hj
    rw [← or_assoc]
    exact .inl (hct t n hcm hz hsh)

lemma urn_whole {s : ZipFile σ} (h : s.EndFound found)
    (hfq : fqn <+: s.urn.value) (hln : s.urn.value.length+1 < 2^16)
    (hl : lost buffSize s.closedSize ≤ 1) (urn₀ : RDFURN) :
    (found.urn urn₀).value = s.urn.value := by
  obtain ⟨-,hr,k,hc⟩ := h
  have hs : 7 ≤ s.urn.value.length := hfq.length_le
  have hcl : (comment s.urn).length = s.urn.value.length+1 := by
    rw [comment_eq hln,zstring_length]
  rw [comment_take (sub_le _ _),take_of_length_le (by omega),append_assoc,
    replicate_append_replicate] at hc
  have hp : fqn <+: found.comment := by
    rw [hc]
    exact hfq.trans (prefix_append _ _)
  have hcn : 4 < found.record.commentLen.toNat ∧
      found.comment.take 4 = chars ['a','f','f','4'] ∧ found.comment.take fqn.length = fqn := by
    refine ⟨?_,?_,(prefix_iff_eq_take.mp hp).symm⟩
    · have hf : s.record.commentLen.toNat = s.urn.value.length+1 := UInt16.toNat_ofNat_of_lt' hln
      rw [hr,hf]
      omega
    · have hfo : chars ['a','f','f','4'] <+: found.comment := List.IsPrefix.trans (by decide) hp
      exact (prefix_iff_eq_take.mp hfo).symm
  rw [Located.urn,if_pos hcn]
  refine RDFURN.set_value s.urn ?_
  rw [hc]
  exact cstring_padded s.urn.value_ne_zero _

lemma startOfCd_le_closedSize (s : ZipFile σ) (hw : s.mode = .w) :
    s.startOfCd ≤ s.closedSize := by
  rw [closedSize,close_data s hw,length_append]
  exact le_add_right _ _

lemma front_length {s : ZipFile σ} (h : s.startOfCd ≤ zip64Limit) :
    s.front.length = s.offsetOfEndCd := by
  rw [front,if_neg (not_lt.mpr h),append_nil,length_append]
  rfl

lemma closedSize_eq {s : ZipFile σ} (hw : s.mode = .w) (h : s.startOfCd ≤ zip64Limit) :
    s.closedSize =
      s.offsetOfEndCd+(EndCentralDirectory.size+(comment s.urn).length) := by
  rw [closedSize,close_data_front s hw,length_append,front_length h,length_append,
    EndCentralDirectory.encode_length]

lemma directory_ne_nil {t : ZipFile σ} (h : t.closed ≠ []) : t.directory ≠ [] := by
  obtain ⟨s,l,hl⟩ := exists_cons_of_ne_nil h
  rw [directory,hl,flatMap_cons,ZipSegment.directoryEntry]
  apply ne_nil_of_length_pos
  simp only [length_append,CDFileHeader.encode_length,CDFileHeader.size]
  omega

lemma lost_of_identity {s : ZipFile σ} (hw : s.mode = .w) (hfr : s.front ≠ []) {long : RDFURN}
    (hl : s.urn.value.length < long.value.length)
    (hf : (locateEnd buffSize ⟨s.close.backingStore.data,0⟩).2 = some found)
    (hu : (found.urn long).value = s.urn.value) :
    lost buffSize s.closedSize ≤ 1 := by
  rcases urn_cases hw hfr hf long with hc | ⟨-,hc⟩ | ⟨-,-,-,hc,-⟩
  · rw [hc] at hu
    rw [hu] at hl
    exact absurd hl (lt_irrefl _)
  · rw [hu] at hc
    exact absurd hc (lt_irrefl _)
  · exact hc

section

variable {s : ZipFile σ} (hw : s.mode = .w) (hcld : s.closed ≠ [])
  (hln : s.urn.value.length < 4096) (hsz : s.closedSize < 2^31)

include hw hsz in
lemma startOfCd_le_limit : s.startOfCd ≤ zip64Limit := by
  have := s.startOfCd_le_closedSize hw
  rw [zip64Limit]
  omega

include hcld in
lemma front_ne_nil_of_closed : s.front ≠ [] :=
  append_ne_nil_of_right_ne_nil _
    (append_ne_nil_of_left_ne_nil (directory_ne_nil hcld) _)

include hln in
lemma comment_eq_of_lt : comment s.urn = zstring s.urn.value := comment_eq (by omega)

include hln in
lemma record_in_window : EndCentralDirectory.size+(comment s.urn).length < buffSize := by
  rw [comment_eq_of_lt hln,zstring_length,EndCentralDirectory.size,buffSize]
  omega

include hw hcld hsz in
lemma lost_of_recognised {long : RDFURN} (hl : s.urn.value.length < long.value.length)
    (h : ∀ (junk : Junk) (urn : RDFURN) (mode : Mode),
      (locateEnd buffSize (ofFile urn mode s.close.backingStore.data : ZipFile σ).backingStore).2.map
          Located.offset = some s.offsetOfEndCd ∧
        ((ofFile urn mode s.close.backingStore.data : ZipFile σ).findEndCentralDirectory junk).1.urn.value
          = s.urn.value) :
    ∃ found, (locateEnd buffSize ⟨s.close.backingStore.data,0⟩).2 = some found ∧
      found.offset = s.front.length ∧ lost buffSize s.closedSize ≤ 1 := by
  obtain ⟨hof,hu⟩ := h (fun _ => 0) long .r
  obtain ⟨found,hf,ho⟩ := Option.map_eq_some_iff.mp hof
  rw [findEndCentralDirectory_urn _ hf] at hu
  rw [← front_length (startOfCd_le_limit hw hsz)] at ho
  exact ⟨found,hf,ho,lost_of_identity hw (front_ne_nil_of_closed hcld) hl hf hu⟩

end

/-- A reopened volume finds its end record and takes its own URN from it exactly when the
whole file but its last byte is read, and the record is the last thing in it that looks
like one. -/
theorem identity_close_iff (self : ZipFile σ) (hw : self.mode = .w) (hcld : self.closed ≠ [])
    (hfq : fqn <+: self.urn.value) (hln : self.urn.value.length < 4096)
    (hsz : self.closedSize < 2^31) :
    (∀ (junk : Junk) (urn : RDFURN) (mode : Mode),
      (locateEnd buffSize (ofFile urn mode self.close.backingStore.data : ZipFile σ).backingStore).2.map
          Located.offset = some self.offsetOfEndCd ∧
        ((ofFile urn mode self.close.backingStore.data : ZipFile σ).findEndCentralDirectory junk).1.urn.value
          = self.urn.value) ↔
    self.closedSize ≤ buffSize-3 ∧ Unmistakable (self.record.encode ++ comment self.urn) := by
  have hfr := front_ne_nil_of_closed hcld
  have hB := record_in_window hln
  rw [← lost_le_one (by decide : 4 ≤ buffSize)]
  constructor
  · intro h
    obtain ⟨long,hlg⟩ := RDFURN.exists_longer self.urn.value.length
    obtain ⟨found,hf,ho,hl⟩ := lost_of_recognised hw hcld hsz hlg h
    refine ⟨hl,(locateEnd_offset hw hfr hf ho).2 hl ?_⟩
    simp [comment_eq_of_lt hln,zstring]
  · rintro ⟨hl,hun⟩ junk urn mode
    have hc : (comment self.urn).length = self.urn.value.length+1 := by
      rw [comment_eq_of_lt hln,zstring_length]
    obtain ⟨found,hf,he⟩ := (locateEnd_single hw hfr hun).2 ⟨hB,by omega⟩
    have hfl : (locateEnd buffSize (ofFile urn mode self.close.backingStore.data :
      ZipFile σ).backingStore).2 = some found := hf
    refine ⟨?_,?_⟩
    · rw [hfl,Option.map_some,he.1,front_length (startOfCd_le_limit hw hsz)]
    · rw [findEndCentralDirectory_urn _ hfl]
      exact urn_whole he hfq (by omega) hl _

theorem identity_close_small :
    ((ofFile (.set (chars ['x'])) .r (twoMembersAfter (zstring [])).close.backingStore.data :
      ZipFile Unit).findEndCentralDirectory fun _ => 0).1.urn.value = fqn :=
  ((identity_close_iff (twoMembersAfter (zstring [])) rfl (by decide) (by decide) (by decide)
    (by decide +kernel)).mpr ⟨by decide +kernel,by decide +kernel⟩ (fun _ => 0) (.set (chars ['x'])) .r).2

lemma twoMembersAfter_closedSize (h : data.length ≤ zip64Limit) :
    (twoMembersAfter data).closedSize = data.length+96+30 :=
  closedSize_eq rfl h

/-- In a file of 40960 bytes and more the end of the URN is not read. -/
theorem identity_close_large : (twoMembersAfter (replicate buffSize 0)).closed.length = 2 ∧
    (twoMembersAfter (replicate buffSize 0)).closedSize = 41086 ∧
    (twoMembersAfter (replicate buffSize 0)).urn.value = fqn ∧
    ¬ ∀ (junk : Junk) (urn : RDFURN) (mode : Mode),
      (locateEnd buffSize (ofFile urn mode
        (twoMembersAfter (replicate buffSize 0)).close.backingStore.data :
          ZipFile Unit).backingStore).2.map Located.offset =
            some (twoMembersAfter (replicate buffSize 0)).offsetOfEndCd ∧
      ((ofFile urn mode (twoMembersAfter (replicate buffSize 0)).close.backingStore.data :
        ZipFile Unit).findEndCentralDirectory junk).1.urn.value =
          (twoMembersAfter (replicate buffSize 0)).urn.value := by
  have hd : (replicate buffSize (0 : UInt8)).length = 40960 := length_replicate
  have hsz : (twoMembersAfter (replicate buffSize 0)).closedSize = 41086 := by
    rw [twoMembersAfter_closedSize (by rw [hd]; decide),hd]
  refine ⟨by decide,hsz,by decide,fun h => ?_⟩
  obtain ⟨long,hlg⟩ := RDFURN.exists_longer
    (twoMembersAfter (replicate buffSize 0)).urn.value.length
  obtain ⟨-,-,-,hl⟩ := lost_of_recognised rfl (by decide) (by omega) hlg h
  rw [lost_le_one (by decide),hsz] at hl
  exact absurd hl (by decide)

end ZipFile

end Aff4
