import Aff4.Lib.Interleaving
import Aff4.ZipExtents

/-! A volume as a catalog: what stands under each name, without the places that the segments
have in the list and in the file and without the times at which they were made. -/

namespace Aff4

open LittleEndian Transition List Option Function ZipFileHeader

variable {σ : Type}

namespace ZipSegment

def contentStart (record : Bytes) : Nat :=
  let header := ZipFileHeader.decode (record.take ZipFileHeader.size)
  ZipFileHeader.size+(header.fileNameLength.toNat+header.extraFieldLen.toNat)

def decodePayload (zlib : Zlib σ) (cd : CDFileHeader) (payload : Bytes) : Option Bytes :=
  if cd.compressionMethod = zipStored then some payload
  else if cd.compressionMethod = zipDeflate then zlib.inflate payload cd.fileSize.toNat
  else none

/-- The decoded content of a local record, by the method and the sizes in the directory. -/
def content (zlib : Zlib σ) (cd : CDFileHeader) (record : Bytes) : Option Bytes :=
  decodePayload zlib cd (slice record (contentStart record) cd.compressSize.toNat)

def Whole (cd : CDFileHeader) (record : Bytes) : Prop :=
  ZipFileHeader.size ≤ record.length ∧ contentStart record+cd.compressSize.toNat ≤ record.length

variable {record : Bytes}

lemma content_append {zlib : Zlib σ} {cd : CDFileHeader} (h : Whole cd record) (more : Bytes) :
    content zlib cd (record ++ more) = content zlib cd record := by
  have hst : contentStart (record ++ more) = contentStart record := by
    rw [contentStart,contentStart,take_append_of_le_length h.1]
  have := h.2
  rw [content,content,hst,slice,slice,drop_append_of_le_length (by omega),
    take_append_of_le_length (by rw [length_drop]; omega)]

lemma contentStart_encode (header : ZipFileHeader) (rest : Bytes) :
    contentStart (header.encode ++ rest) =
      size+(header.fileNameLength.toNat+header.extraFieldLen.toNat) := by
  have hd : decode header.encode = header := by simpa using decode_encode header []
  rw [contentStart,take_left' (encode_length header),hd]

lemma content_encode (zlib : Zlib σ) (cd : CDFileHeader) (header : ZipFileHeader)
    (rest : Bytes) : content zlib cd (header.encode ++ rest) = decodePayload zlib cd
      (slice rest (header.fileNameLength.toNat+header.extraFieldLen.toNat)
        cd.compressSize.toNat) := by
  rw [content,contentStart_encode,slice,slice,← drop_drop,drop_left' (encode_length header)]

def localRecord (s : ZipSegment σ) (payload : Bytes) : Bytes :=
  s.fileHeader.encode ++ (s.filename ++ (payload ++ s.dataDescriptor))

lemma localRecord_whole {s : ZipSegment σ} {payload : Bytes}
    (h : s.cd.compressSize.toNat = payload.length) : Whole s.cd (s.localRecord payload) := by
  have hn : (UInt16.ofNat s.filename.length).toNat ≤ s.filename.length := by exact Nat.mod_le _ _
  have he : (0 : UInt16).toNat = 0 := rfl
  rw [Whole,localRecord,contentStart_encode,h]
  simp only [fileHeader,length_append,encode_length,he]
  omega

def StandsIn (s : ZipSegment σ) (record data : Bytes) : Prop :=
  ∃ pre post, data = pre ++ (record ++ post) ∧ s.offsetOfFileHeader = UInt64.ofNat pre.length

lemma StandsIn.append {s : ZipSegment σ} {data : Bytes} (hs : s.StandsIn record data)
    (more : Bytes) : s.StandsIn record (data ++ more) := by
  obtain ⟨pre,post,rfl,ho⟩ := hs
  exact ⟨pre,post ++ more,by simp,ho⟩

def decoded (zlib : Zlib σ) (data : Bytes) (s : ZipSegment σ) : Option Bytes :=
  content zlib s.cd (data.drop s.offsetOfFileHeader.toNat)

lemma decoded_eq {zlib : Zlib σ} {s : ZipSegment σ} {data : Bytes}
    (hs : s.StandsIn record data) (hw : Whole s.cd record) (hsz : data.length < 2^64) :
    s.decoded zlib data = content zlib s.cd record := by
  obtain ⟨pre,post,rfl,ho⟩ := hs
  have hp : s.offsetOfFileHeader.toNat = pre.length := by
    rw [ho]
    refine UInt64.toNat_ofNat_of_lt' (lt_of_le_of_lt ?_ hsz)
    simp
  rw [decoded,hp,drop_left,content_append hw]

/-- The segment bears the name that `ZipSegment_close` will give it. -/
def Named (container : RDFURN) (s : ZipSegment σ) : Prop :=
  ∃ urn name, s.urn = some urn ∧ segmentName urn container = some name ∧ s.filename = zstring name

/-- A member of a volume in use: closed, loaded into memory, or open for writing. -/
def Sound (zlib : Zlib σ) (container : RDFURN) (s : ZipSegment σ) : Prop :=
  s.buffer = none ∨ s.mode = .r ∨ s.Open zlib ∧ s.Named container

def erased (s : ZipSegment σ) : ZipSegment σ :=
  {s with
    offsetOfFileHeader := 0
    cd := {s.cd with dosdate := 0, dostime := 0}
    magic := s.magic}

section

variable {zlib : Zlib σ} {container : RDFURN} {s t : ZipSegment σ}

variable {buffer : Bytes} {n : Int} {fd fd' : FileBackedObject}

lemma write_keeps (h : s.write zlib buffer = some (n,t)) :
    t.urn = s.urn ∧ t.filename = s.filename ∧ t.mode = s.mode ∧
      t.offsetOfFileHeader = s.offsetOfFileHeader := by
  rw [write] at h
  split at h
  · cases h
    exact ⟨rfl,rfl,rfl,rfl⟩
  · split at h
    · cases h
      exact ⟨rfl,rfl,rfl,rfl⟩
    · obtain ⟨io,-,h⟩ := map_eq_some_iff.mp h
      cases h
      exact ⟨rfl,rfl,rfl,rfl⟩

lemma Sound.write (hs : s.Sound zlib container)
    (h : s.write zlib buffer = some (n,t)) : t.Sound zlib container := by
  obtain ⟨hu,hf,hm,-⟩ := write_keeps h
  rcases hs with hb | hr | ⟨ho,urn,name,hu',hn,hf'⟩
  · exact .inl (write_closed hb h ▸ hb)
  · exact .inr (.inl (hm.trans hr))
  · exact .inr (.inr ⟨ho.write h,urn,name,hu.trans hu',hn,hf.trans hf'⟩)

lemma Sound.close_keeps (hs : s.Sound zlib container)
    (h : s.close zlib container fd = some (fd',t)) : t.filename = s.filename ∧ t.mode = s.mode := by
  obtain ⟨hm,-,rfl⟩ | ⟨io,_,urn,name,hio,-,hu,hn,rfl,-⟩ := close_cases h
  · exact ⟨rfl,rfl⟩
  · refine ⟨?_,rfl⟩
    rcases hs with hb | hr | ⟨ho,urn',name',hu',hn',hf⟩
    · rw [hb] at hio
      cases hio
    · rw [close,if_pos hr] at h
      exact (congrArg (fun r => r.2.filename) (some.inj h)).symm
    · obtain rfl := some.inj (hu.symm.trans hu')
      obtain rfl := some.inj (hn.symm.trans hn')
      exact hf.symm

lemma Sound.close (hs : s.Sound zlib container)
    (h : s.close zlib container fd = some (fd',t)) : t.Sound zlib container := by
  obtain ⟨-,-,rfl⟩ | ⟨_,_,_,_,-,-,-,-,rfl,-⟩ := close_cases h
  · exact hs
  · exact .inl rfl

lemma write_erased (zlib : Zlib σ) (s : ZipSegment σ) (buffer : Bytes) :
    s.erased.write zlib buffer = (s.write zlib buffer).map fun r => (r.1,r.2.erased) := by
  have hc : s.erased.compress zlib buffer = s.compress zlib buffer := rfl
  have hb : s.erased.buffer = s.buffer := rfl
  rw [write,write,hc,hb]
  split
  · rfl
  · cases s.buffer with
    | none => rfl
    | some io =>
      simp only [Option.map_map]
      rfl

end

/-- The content and the name that `ZipSegment_close` writes for an open segment. They do not
depend on the file. -/
def closing (zlib : Zlib σ) (container : RDFURN) (s : ZipSegment σ) : Option (Bytes × Bytes) := do
  let io ← s.buffer
  let io ← io.writePieces (s.lastPieces zlib)
  let urn ← s.urn
  let name ← segmentName urn container
  some (io.data,name)

lemma close_closing (zlib : Zlib σ) (container : RDFURN) {s : ZipSegment σ}
    (hm : s.mode ≠ .r) (fd : FileBackedObject) :
    Option.Rel (fun r p => r.2 = s.written fd.data.length (s.lastPieces zlib) p.2 ∧
      r.1.data = fd.data ++ r.2.localRecord p.1) (s.close zlib container fd)
      (s.closing zlib container) := by
  cases hc : s.close zlib container fd with
  | some r =>
    obtain ⟨hr,-⟩ | ⟨io,io',urn,name,hio,hio',hu,hn,ht,hd⟩ := close_cases hc
    · exact absurd hr hm
    · simp only [closing,hio,hio',hu,hn,bind_eq_bind,bind_some]
      exact .some ⟨ht,hd⟩
  | none =>
    rw [close,if_neg hm] at hc
    simp only [closing,bind_eq_bind] at hc ⊢
    cases hio : s.buffer with
    | none => exact .none
    | some io =>
      cases hio' : io.writePieces (s.lastPieces zlib) with
      | none => simp [hio']
      | some io' =>
        cases hu : s.urn with
        | none => simp
        | some urn =>
          cases hn : segmentName urn container with
          | none => simp [hn]
          | some name => simp [hio,hio',hu,hn] at hc

lemma content_erased (zlib : Zlib σ) (s : ZipSegment σ) (payload : Bytes) :
    content zlib s.erased.cd (s.erased.localRecord payload) =
      content zlib s.cd (s.localRecord payload) := by
  rw [localRecord,localRecord,content_encode,content_encode]
  rfl

def newStored (member : RDFURN) (name : Bytes) (dosdate dostime : UInt16) : ZipSegment σ :=
  {ZipSegment.con (some member) .w dosdate dostime with
    filename := zstring name, buffer := some .con}

lemma newStored_sound (zlib : Zlib σ) {member container : RDFURN} {name : Bytes}
    (h : segmentName member container = some name) (dosdate dostime : UInt16) :
    (newStored member name dosdate dostime : ZipSegment σ).Sound zlib container := by
  refine .inr (.inr ⟨⟨member,[],.con,⟨rfl,rfl,rfl,rfl,rfl,rfl,.inr ⟨rfl,rfl⟩⟩,?_⟩,?_⟩)
  · exact StringIO.con_appending
  · exact ⟨member,name,rfl,h,rfl⟩

/-- What a catalog has of a segment: all but its place and time, and the content that the file
has of it once it is closed. -/
structure Entry (σ : Type) where
  segment : ZipSegment σ
  content : Option (Option Bytes)

/-- The entry of a segment in a volume with the file `data`. -/
structure Shows (zlib : Zlib σ) (data : Bytes) (s : ZipSegment σ) (e : Entry σ) : Prop where
  segment : e.segment = s.erased
  closed : s.buffer = none → ∃ record, s.StandsIn record data ∧ Whole s.cd record ∧
    e.content = some (content zlib s.cd record)
  opened : s.buffer ≠ none → e.content = none

def stored (zlib : Zlib σ) (data : Bytes) (s : ZipSegment σ) : Option (Option Bytes) :=
  if s.isClosed then some (s.decoded zlib data) else none

namespace Entry

def new (member : RDFURN) (name : Bytes) : Entry σ := ⟨newStored member name 0 0,none⟩

def write (zlib : Zlib σ) (e : Entry σ) (buffer : Bytes) : Option (Entry σ) :=
  (e.segment.write zlib buffer).map fun r => ⟨r.2,e.content⟩

def close (zlib : Zlib σ) (container : RDFURN) (e : Entry σ) : Option (Entry σ) :=
  if e.segment.mode = .r then some e
  else (e.segment.closing zlib container).map fun (payload,name) =>
    let segment := (e.segment.written 0 (e.segment.lastPieces zlib) name).erased
    ⟨segment,some (ZipSegment.content zlib segment.cd (segment.localRecord payload))⟩

end Entry

variable {zlib : Zlib σ} {data : Bytes} {s : ZipSegment σ} {e : Entry σ}

lemma Shows.append (hs : s.Shows zlib data e) (more : Bytes) : s.Shows zlib (data ++ more) e := by
  refine ⟨hs.segment,fun hb => ?_,hs.opened⟩
  obtain ⟨record,hst,hr⟩ := hs.closed hb
  exact ⟨record,hst.append more,hr⟩

lemma Shows.stored_eq (hs : s.Shows zlib data e) (hsz : data.length < 2^64) :
    s.stored zlib data = e.content := by
  cases hb : s.buffer with
  | none =>
    obtain ⟨record,hst,hw,hc⟩ := hs.closed hb
    rw [stored,if_pos (by simp [isClosed,hb]),decoded_eq hst hw hsz,hc]
  | some io =>
    rw [stored,if_neg (by simp [isClosed,hb]),hs.opened (by simp [hb])]

lemma Shows.write (hs : s.Shows zlib data e) (buffer : Bytes) :
    Option.Rel (fun r e' => r.2.Shows zlib data e') (s.write zlib buffer)
      (e.write zlib buffer) := by
  rw [Entry.write,hs.segment,write_erased,Option.map_map]
  cases hw : s.write zlib buffer with
  | none => exact .none
  | some r =>
    refine .some ⟨rfl,fun hb => ?_,fun hb => ?_⟩
    · obtain rfl | ⟨-,-,-,ht⟩ := write_cases hw
      · exact hs.closed hb
      · exact absurd hb ht
    · obtain rfl | ⟨-,-,hs',-⟩ := write_cases hw
      · exact hs.opened hb
      · exact hs.opened hs'

lemma Shows.close {fd : FileBackedObject} {container : RDFURN}
    (hs : s.Shows zlib fd.data e) (hsn : s.Sound zlib container) :
    Option.Rel (fun r e' => r.2.Shows zlib r.1.data e') (s.close zlib container fd)
      (e.close zlib container) := by
  have hm : e.segment.mode = s.mode := by rw [hs.segment]; rfl
  rw [Entry.close,hm]
  by_cases hr : s.mode = .r
  · rw [ZipSegment.close,if_pos hr,if_pos hr]
    exact .some hs
  · have hsa : e.segment.closing zlib container = s.closing zlib container := by
      rw [hs.segment]
      rfl
    rw [if_neg hr,hsa]
    refine rel_map_right (close_closing zlib container hr fd) ?_
    rintro ⟨fd',t⟩ ⟨payload,name⟩ hc ⟨rfl,hd⟩
    have ho : s.Open zlib := by
      obtain ⟨hr',-⟩ | ⟨io,_,_,_,hio,-⟩ := close_cases hc
      · exact absurd hr' hr
      · rcases hsn with hn | hr' | ⟨ho,-⟩
        · rw [hn] at hio
          cases hio
        · exact absurd hr' hr
        · exact ho
    obtain ⟨hf,hof,payload',hd',hsz⟩ := ho.close_record hc
    have hrc := append_cancel_left (hd.symm.trans hd')
    refine ⟨by rw [hs.segment]; rfl,fun _ => ?_,fun hne => absurd hf.2 hne⟩
    refine ⟨_,⟨fd.data,[],by rw [hd,append_nil],hof⟩,?_,?_⟩
    · rw [hrc]
      exact localRecord_whole hsz
    · rw [hs.segment]
      exact congrArg some (content_erased zlib (s.written fd.data.length _ name) payload)

end ZipSegment

lemma cstring_segmentName {urn container : RDFURN} {name : Bytes}
    (h : segmentName urn container = some name) : cstring (zstring name) = name :=
  cstring_zstring fun c hc => (escapeFilename_printable h c hc).ne_zero

namespace ZipFile

open ZipSegment

def place (self : ZipFile σ) (name : Bytes) : Option Nat :=
  self.members.findIdx? fun s => cstring s.filename = name

def named (self : ZipFile σ) (name : Bytes) : Option (ZipSegment σ) :=
  (self.place name).bind fun k => self.members[k]?

def contents (zlib : Zlib σ) (self : ZipFile σ) (name : Bytes) : Option (Option Bytes) :=
  (self.named name).bind (stored zlib self.backingStore.data)

structure Catalogued (zlib : Zlib σ) (container : RDFURN) (catalog : Bytes → Option (Entry σ))
    (volume : ZipFile σ) : Prop where
  urn : volume.urn = container
  mode : volume.mode = .w
  sound : ∀ s ∈ volume.members, s.Sound zlib container
  entries : ∀ name, Option.Rel (Shows zlib volume.backingStore.data) (volume.named name)
    (catalog name)

def KeepsPlaces (volume next : ZipFile σ) : Prop :=
  ∀ name k, volume.place name = some k → next.place name = some k

variable {zlib : Zlib σ} {container : RDFURN} {catalog : Bytes → Option (Entry σ)}
  {volume next : ZipFile σ} {name : Bytes} {k : Nat} {s t : ZipSegment σ} {e : Entry σ}

lemma place_spec (h : volume.place name = some k) :
    ∃ s, volume.members[k]? = some s ∧ cstring s.filename = name := by
  obtain ⟨hlt,hn,-⟩ := findIdx?_eq_some_iff_getElem.mp h
  exact ⟨volume.members[k],getElem?_eq_getElem hlt,of_decide_eq_true hn⟩

lemma place_map (volume : ZipFile σ) (name : Bytes) :
    volume.place name = (volume.members.map fun s => cstring s.filename).findIdx? (· = name) := by
  rw [findIdx?_map]
  rfl

lemma place_set (hm : volume.members[k]? = some s) (hf : t.filename = s.filename)
    (fd : FileBackedObject) (name : Bytes) :
    place {volume with members := volume.members.set k t, backingStore := fd} name =
      volume.place name := by
  have hsa : (volume.members.map fun s => cstring s.filename).set k (cstring t.filename) =
      volume.members.map fun s => cstring s.filename := by
    refine ext_getElem? fun j => ?_
    rw [getElem?_set]
    split
    · next hjk =>
      subst hjk
      obtain ⟨hlt,hs⟩ := List.getElem?_eq_some_iff.mp hm
      simp [hlt,hs,hf]
    · rfl
  rw [place_map,place_map]
  simp only [map_set]
  rw [hsa]

lemma place_concat (hno : volume.place name = none) (hn : cstring t.filename = name)
    (other : Bytes) : place {volume with members := volume.members ++ [t]} other =
      if other = name then some volume.members.length else volume.place other := by
  rw [place,findIdx?_append]
  by_cases ho : other = name
  · subst ho
    rw [if_pos rfl,show volume.members.findIdx? _ = none from hno]
    simp [hn]
  · have hne : ¬ name = other := fun h => ho h.symm
    rw [if_neg ho]
    simp [findIdx?_cons,hn,hne,place]

variable (hs : volume.Catalogued zlib container catalog)

include hs in
lemma Catalogued.set (hp : volume.place name = some k) (hm : volume.members[k]? = some s)
    (hf : t.filename = s.filename) (hsn : t.Sound zlib container) {fd : FileBackedObject}
    {more : Bytes} (hd : fd.data = volume.backingStore.data ++ more)
    (hsh : t.Shows zlib fd.data e) : Catalogued zlib container (update catalog name (some e))
      {volume with members := volume.members.set k t, backingStore := fd} := by
  refine ⟨hs.urn,hs.mode,fun u hu => ?_,fun other => ?_⟩
  · rcases mem_or_eq_of_mem_set hu with hu | rfl
    · exact hs.sound u hu
    · exact hsn
  · rw [named,place_set hm hf]
    by_cases ho : other = name
    · subst ho
      rw [hp,Option.bind_some,update_self]
      rw [List.getElem?_set_self (List.getElem?_eq_some_iff.mp hm).1]
      exact .some hsh
    · have hold := hs.entries other
      rw [update_of_ne ho]
      rw [named] at hold
      refine rel_mono (r := Shows zlib volume.backingStore.data) ?_ fun _ _ _ hshw =>
        hd ▸ hshw.append more
      cases hp' : volume.place other with
      | none =>
        rw [hp'] at hold
        exact hold
      | some j =>
        have hjk : k ≠ j := by
          rintro rfl
          obtain ⟨u,hu,hn⟩ := place_spec hp
          obtain ⟨v,hv,hoth⟩ := place_spec hp'
          rw [hu,some.injEq] at hv
          exact ho (hoth.symm.trans (hv ▸ hn))
        rw [hp',Option.bind_some] at hold
        simp only [Option.bind_some,getElem?_set_ne hjk]
        exact hold

include hs in
lemma Catalogued.concat (hno : volume.place name = none) (hn : cstring t.filename = name)
    (hsn : t.Sound zlib container) (hsh : t.Shows zlib volume.backingStore.data e) :
    Catalogued zlib container (update catalog name (some e))
      {volume with members := volume.members ++ [t]} := by
  refine ⟨hs.urn,hs.mode,fun u hu => ?_,fun other => ?_⟩
  · rcases mem_append.mp hu with hu | hu
    · exact hs.sound u hu
    · exact mem_singleton.mp hu ▸ hsn
  · rw [named,place_concat hno hn]
    by_cases ho : other = name
    · subst ho
      rw [if_pos rfl,Option.bind_some,update_self]
      simp only [getElem?_concat_length]
      exact .some hsh
    · have hold := hs.entries other
      rw [if_neg ho,update_of_ne ho]
      rw [named] at hold
      cases hp : volume.place other with
      | none =>
        rw [hp] at hold
        exact hold
      | some j =>
        obtain ⟨u,hu,-⟩ := place_spec hp
        rw [hp,Option.bind_some] at hold
        simp only [Option.bind_some]
        rwa [List.getElem?_append_left (List.getElem?_eq_some_iff.mp hu).1]

lemma openMember_stored (zlib : Zlib σ) (volume : ZipFile σ) (member : RDFURN)
    (dosdate dostime : UInt16) : volume.openMember zlib member .w zipStored.toNat dosdate dostime =
      (segmentName member volume.urn).map fun name =>
        match volume.place name with
        | some k => (volume,some k)
        | none => ({volume with members := volume.members ++
            [newStored member name dosdate dostime]},some volume.members.length) := by rfl

section

variable (hs : volume.Catalogued zlib container catalog)
include hs

lemma Catalogued.openMember {member : RDFURN}
    (hn : segmentName member container = some name) (dosdate dostime : UInt16) :
    ∃ next k, volume.openMember zlib member .w zipStored.toNat dosdate dostime =
        some (next,some k) ∧
      next.Catalogued zlib container
        (update catalog name (some ((catalog name).getD (.new member name)))) ∧
      next.place name = some k ∧ volume.KeepsPlaces next := by
  have hn' : segmentName member volume.urn = some name := by rw [hs.urn,hn]
  rw [openMember_stored,hn',map_some]
  have hold := hs.entries name
  rw [named] at hold
  cases hp : volume.place name with
  | some k =>
    obtain ⟨s,hm,-⟩ := place_spec hp
    rw [hp,bind_some,hm] at hold
    refine ⟨volume,k,rfl,?_,hp,fun _ _ h => h⟩
    cases he : catalog name with
    | none =>
      rw [he] at hold
      cases hold
    | some e =>
      rw [getD_some,← he,update_eq_self]
      exact hs
  | none =>
    rw [hp] at hold
    have he : catalog name = none := by
      cases he : catalog name with
      | none => rfl
      | some e =>
        rw [he] at hold
        cases hold
    have hf : cstring (newStored member name dosdate dostime : ZipSegment σ).filename = name :=
      cstring_segmentName hn
    refine ⟨_,_,rfl,?_,?_,fun other k hk => ?_⟩
    · rw [he,getD_none]
      exact hs.concat hp hf (newStored_sound zlib hn dosdate dostime)
        ⟨rfl,fun h => (by cases h),fun _ => rfl⟩
    · rw [place_concat hp hf,if_pos rfl]
    · have hne : other ≠ name := by
        rintro rfl
        rw [hp] at hk
        cases hk
      rw [place_concat hp hf,if_neg hne,hk]

lemma Catalogued.entry (hp : volume.place name = some k) : ∃ s e, volume.members[k]? = some s ∧
      catalog name = some e ∧ s.Shows zlib volume.backingStore.data e := by
  obtain ⟨s,hm,-⟩ := place_spec hp
  have hold := hs.entries name
  rw [named,hp,bind_some,hm] at hold
  cases he : catalog name with
  | none =>
    rw [he] at hold
    cases hold
  | some e =>
    rw [he] at hold
    exact ⟨s,e,hm,rfl,rel_some_some.mp hold⟩

/-- The volume after a call that changes the entry of the name to `e`. -/
abbrev Changed (zlib : Zlib σ) (container : RDFURN) (volume : ZipFile σ)
    (catalog : Bytes → Option (Entry σ)) (name : Bytes) (next : ZipFile σ) (e : Entry σ) : Prop :=
  next.Catalogued zlib container (update catalog name (some e)) ∧ volume.KeepsPlaces next

lemma Catalogued.change (hp : volume.place name = some k) (he : catalog name = some e)
    (call : ZipSegment σ → Option (FileBackedObject × ZipSegment σ)) (result : Option (Entry σ))
    (hc : ∀ s, s.Shows zlib volume.backingStore.data e → s.Sound zlib container →
      Option.Rel (fun r e' => r.2.Shows zlib r.1.data e' ∧ r.2.filename = s.filename ∧
        r.2.Sound zlib container ∧ ∃ more, r.1.data = volume.backingStore.data ++ more)
        (call s) result) : Option.Rel (Changed zlib container volume catalog name)
      (volume.members[k]?.bind fun s => (call s).map fun r =>
        {volume with members := volume.members.set k r.2, backingStore := r.1}) result := by
  obtain ⟨s,e',hm,he',hsh⟩ := hs.entry hp
  obtain rfl := some.inj (he.symm.trans he')
  rw [hm,bind_some]
  refine rel_map_left (hc s hsh (hs.sound s (mem_of_getElem? hm))) fun r e' _ h => ?_
  obtain ⟨hsh',hf,hsn,more,hd⟩ := h
  refine ⟨hs.set hp hm hf hsn hd hsh',fun other j hj => ?_⟩
  rw [← hj]
  exact place_set hm hf r.1 other

end

lemma step_write (volume : ZipFile σ) (k : Nat) (data : Bytes) :
    volume.step zlib (.write k data) = volume.members[k]?.bind fun s =>
      ((s.write zlib data).map fun r => (volume.backingStore,r.2)).map fun r =>
        {volume with members := volume.members.set k r.2, backingStore := r.1} := by
  simp only [step,Option.map_map]
  rfl

include hs

lemma Catalogued.write (hp : volume.place name = some k) (he : catalog name = some e)
    (data : Bytes) : Option.Rel (Changed zlib container volume catalog name)
      (volume.step zlib (.write k data)) (e.write zlib data) := by
  rw [step_write]
  refine hs.change hp he _ _ fun s hsh hsn => ?_
  refine rel_map_left (hsh.write data) fun r e' hw hsh' => ?_
  exact ⟨hsh',(write_keeps hw).2.1,hsn.write hw,[],(append_nil _).symm⟩

lemma Catalogued.close (hp : volume.place name = some k) (he : catalog name = some e) :
    Option.Rel (Changed zlib container volume catalog name) (volume.step zlib (.close k))
      (e.close zlib container) := by
  refine hs.change hp he (volume.closeMember zlib) _ fun s hsh hsn => ?_
  rw [closeMember_eq hs.mode,hs.urn]
  refine rel_mono (hsh.close hsn) fun r e' hc hsh' => ?_
  refine ⟨hsh',(hsn.close_keeps hc).1,hsn.close hc,?_⟩
  obtain ⟨-,hfd,-⟩ | ⟨_,_,_,_,-,-,-,-,-,ha⟩ := close_cases hc
  · exact ⟨[],by rw [hfd,append_nil]⟩
  · exact ⟨_,ha⟩

end ZipFile

end Aff4
