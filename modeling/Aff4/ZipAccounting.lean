import Aff4.ZipSession

/-! What a segment records of the data that went into it: the two sizes, the checksum and
the bytes in the file. -/

namespace Aff4

open LittleEndian Transition List Option StringIO

variable {σ : Type}

namespace StringIO

variable {io io' : StringIO} {pieces : List Bytes}

lemma Holding.writePieces_iff (hs : io.Holding pieces) (more : List Bytes) :
    (∃ io', io.writePieces more = some io') ↔
      growth ((pieces ++ more).map length) < maxTallocSize := by
  induction more generalizing io pieces with
  | nil =>
    rw [append_nil,← hs.alloc]
    exact iff_of_true ⟨io,rfl⟩ hs.appending.small
  | cons piece more ih =>
    have ha : pieces ++ piece :: more = (pieces ++ [piece]) ++ more := by simp
    rw [writePieces,ha]
    cases hw : io.write piece with
    | some next => exact ih (hs.write hw)
    | none =>
      have hb : ¬ growth ((pieces ++ [piece]).map length) < maxTallocSize := by
        rw [← hs.write_iff,hw]
        simp
      have hle := growth_prefix ((prefix_append (pieces ++ [piece]) more).map length)
      refine iff_of_false (by simp) ?_
      omega

lemma Holding.writePieces (hs : io.Holding pieces) {more : List Bytes}
    (h : io.writePieces more = some io') : io'.Holding (pieces ++ more) := by
  induction more generalizing io pieces with
  | nil =>
    cases h
    rwa [append_nil]
  | cons piece more ih =>
    obtain ⟨next,hn,hr⟩ := bind_eq_some_iff.mp h
    have := ih (hs.write hn) hr
    rwa [append_assoc] at this

end StringIO

namespace Zlib

structure Incremental (zlib : Zlib σ) : Prop where
  nil : ∀ c, zlib.crc32 c [] = c
  append : ∀ c a b, zlib.crc32 (zlib.crc32 c a) b = zlib.crc32 c (a ++ b)

/-- The stream state and the output of every turn of the loop around `deflate`. -/
def turns (zlib : Zlib σ) : List Bytes → σ × List Bytes :=
  foldl (fun (strm,out) input =>
    ((zlib.deflate strm input).1,out ++ (zlib.deflate strm input).2)) (zlib.deflateInit,[])

lemma turns_snoc (zlib : Zlib σ) (inputs : List Bytes) (input : Bytes) :
    zlib.turns (inputs ++ [input]) = ((zlib.deflate (zlib.turns inputs).1 input).1,
        (zlib.turns inputs).2 ++ (zlib.deflate (zlib.turns inputs).1 input).2) := by simp [turns]

lemma turns_fst (zlib : Zlib σ) (inputs : List Bytes) :
    (zlib.turns inputs).1 = (zlib.feed inputs).1 := by
  induction inputs using reverseRecOn with
  | nil => rfl
  | append_singleton inputs input ih => rw [turns_snoc,feed_snoc,ih]

def pieces (zlib : Zlib σ) (method : UInt16) (inputs : List Bytes) : List Bytes :=
  if method = zipDeflate then (zlib.turns inputs).2 else inputs

lemma pieces_prefix (zlib : Zlib σ) (method : UInt16) (inputs more : List Bytes) :
    zlib.pieces method inputs <+: zlib.pieces method (inputs ++ more) := by
  rw [pieces,pieces]
  split
  · induction more using reverseRecOn with
    | nil => simp
    | append_singleton more input ih =>
      rw [← append_assoc,turns_snoc]
      exact ih.trans (prefix_append _ _)
  · exact prefix_append _ _

def outputs (zlib : Zlib σ) (method : UInt16) (inputs : List Bytes) : List Bytes :=
  zlib.pieces method inputs ++
    if method = zipDeflate then zlib.deflateFinish (zlib.feed inputs).1 else []

lemma pieces_prefix_outputs (zlib : Zlib σ) (method : UInt16) (inputs : List Bytes) :
    zlib.pieces method inputs <+: zlib.outputs method inputs := prefix_append _ _

end Zlib

namespace ZipSegment

/-- What a closed segment says about itself is true of the file before and after it was
closed. -/
structure Accounts (zlib : Zlib σ) (s : ZipSegment σ) (before after data : Bytes) : Prop where
  payload : ∃ payload,
    after = before ++ (s.fileHeader.encode ++ (s.filename ++ (payload ++ s.dataDescriptor))) ∧
    payload.length = s.cd.compressSize.toNat ∧
    (s.cd.compressionMethod = zipDeflate ∧ zlib.inflate payload s.cd.fileSize.toNat = some data ∨
      s.cd.compressionMethod = zipStored ∧ payload = data)
  fileSize : s.cd.fileSize.toNat = data.length
  crc32 : s.cd.crc32 = zlib.crc32 0 data

lemma Accounts.ne {zlib : Zlib σ} {s : ZipSegment σ} {before after content : Bytes}
    (h : s.Accounts zlib before after content) : after ≠ before := by
  obtain ⟨payload,ha,-⟩ := h.payload
  intro he
  have hl := congrArg length (ha.symm.trans he)
  simp only [length_append,ZipFileHeader.encode_length,ZipFileHeader.size] at hl
  omega

structure Filling (zlib : Zlib σ) (s : ZipSegment σ) (member : RDFURN) (method : UInt16)
    (inputs : List Bytes) : Prop where
  writing : ∃ io, Writing zlib s member inputs io ∧ io.Holding (zlib.pieces method inputs)
  method : s.cd.compressionMethod = method
  crc32 : s.cd.crc32 = zlib.crc32 0 inputs.flatten

variable {zlib : Zlib σ} {s t : ZipSegment σ} {member container : RDFURN} {method : UInt16}
  {inputs : List Bytes} {data : Bytes} {fd fd' : FileBackedObject}

lemma Writing.compress_pieces {io : StringIO} (hs : Writing zlib s member inputs io)
    (data : Bytes) : zlib.pieces s.cd.compressionMethod (inputs ++ [data]) =
      zlib.pieces s.cd.compressionMethod inputs ++ (s.compress zlib data).2 := by
  rcases hs.content with ⟨hm,hst,-⟩ | ⟨hm,-⟩
  · simp only [Zlib.pieces,if_pos hm,compress,hst,zlib.turns_snoc,zlib.turns_fst]
  · have hn : ¬ s.cd.compressionMethod = zipDeflate := by
      rw [hm]
      decide
    simp only [Zlib.pieces,if_neg hn,compress]

lemma Writing.lastPieces_outputs {io : StringIO} (hs : Writing zlib s member inputs io) :
    zlib.outputs s.cd.compressionMethod inputs =
      zlib.pieces s.cd.compressionMethod inputs ++ s.lastPieces zlib := by
  rcases hs.content with ⟨hm,hst,-⟩ | ⟨hm,-⟩
  · simp only [Zlib.outputs,lastPieces,if_pos hm,hst]
  · have hn : ¬ s.cd.compressionMethod = zipDeflate := by
      rw [hm]
      decide
    simp only [Zlib.outputs,lastPieces,if_neg hn]

lemma finish_filling {n : Nat} (hcr : zlib.Incremental) (hm : s.mode = .w)
    (hu : s.urn = some member) (hs : s.cd.fileSize = 0) (hc : s.cd.compressSize = 0)
    (hz : s.cd.crc32 = 0) (h : s.finish zlib n = some t) :
    Filling zlib t member (UInt16.ofNat n) [] := by
  have hw := finish_writing hm hu hs hc h
  have hcd := finish_cd hm h
  refine ⟨⟨.con,hw,?_⟩,by rw [hcd],?_⟩
  · have hn : zlib.pieces (UInt16.ofNat n) [] = [] := by
      rw [Zlib.pieces]
      split <;> rfl
    rw [hn]
    exact con_holding
  · rw [hcd,flatten_nil,hcr.nil]
    exact hz

lemma Filling.write_iff (hs : Filling zlib s member method inputs) (hne : data ≠ []) :
    (∃ r, s.write zlib data = some r) ↔
      growth ((zlib.pieces method (inputs ++ [data])).map length) < maxTallocSize := by
  obtain ⟨⟨io,hw,hold⟩,rfl,-⟩ := hs
  rw [hw.compress_pieces,← hold.writePieces_iff,write,if_neg hne,hw.buffer]
  simp [map_eq_some_iff]

lemma Filling.write {n : Int} (hc : zlib.Incremental)
    (hs : Filling zlib s member method inputs) (hne : data ≠ [])
    (h : s.write zlib data = some (n,t)) : Filling zlib t member method (inputs ++ [data]) := by
  obtain ⟨⟨io,hw,hold⟩,rfl,hsm⟩ := hs
  obtain ⟨io',hw'⟩ := write_writing hw hne h
  have hp := hw.compress_pieces data
  rw [ZipSegment.write,if_neg hne,hw.buffer] at h
  obtain ⟨io₁,hio,ht⟩ := map_eq_some_iff.mp h
  cases ht
  obtain rfl : io₁ = io' := some.inj hw'.buffer
  refine ⟨⟨io₁,hw',?_⟩,rfl,?_⟩
  · rw [hp]
    exact hold.writePieces hio
  · simp [hsm,hc.append]

lemma Filling.close_iff (hs : Filling zlib s member method inputs) {name : Bytes}
    (hn : segmentName member container = some name) (fd : FileBackedObject) :
    (∃ r, s.close zlib container fd = some r) ↔
      growth ((zlib.outputs method inputs).map length) < maxTallocSize := by
  obtain ⟨⟨io,hw,hold⟩,rfl,-⟩ := hs
  have hm : ¬ s.mode = .r := by simp [hw.mode]
  rw [hw.lastPieces_outputs,← hold.writePieces_iff,close,if_neg hm,hw.buffer,hw.urn]
  simp only [bind_eq_bind,bind_some,hn]
  cases io.writePieces (s.lastPieces zlib) <;> simp

lemma Filling.close (hz : zlib.Inverse) (hs : Filling zlib s member method inputs)
    (ht : inputs.flatten.length < 2^31) (h : s.close zlib container fd = some (fd',t)) :
    Accounts zlib t fd.data fd'.data inputs.flatten := by
  obtain ⟨⟨io,hw,hold⟩,rfl,hsu⟩ := hs
  obtain ⟨io',name,hio',-,rfl,hd,hc,ha⟩ := hw.close_written h
  have hsm : io'.data.length < 2^32 := by
    have hlt := (hold.writePieces hio').length_lt
    rw [← (hold.writePieces hio').data] at hlt
    exact lt_trans hlt (by decide)
  have hsz : s.cd.fileSize.toNat = inputs.flatten.length := by
    rw [hw.fileSize]
    exact UInt32.toNat_ofNat_of_lt' (lt_trans ht (by decide))
  refine ⟨⟨io'.data,ha,?_,?_⟩,hsz,hsu⟩
  · rw [hc]
    exact (UInt32.toNat_ofNat_of_lt' hsm).symm
  · rw [hd]
    rcases lastPieces_payload hw with ⟨hm,hp⟩ | ⟨hm,hp⟩
    · refine .inl ⟨hm,?_⟩
      change zlib.inflate _ s.cd.fileSize.toNat = _
      rw [hp,hz,hsz,if_pos (le_refl _)]
    · exact .inr ⟨hm,hp⟩

end ZipSegment

namespace ZipFile

def writeAndClose (k : Nat) (inputs : List Bytes) : List Op := inputs.map (.write k) ++ [.close k]

section

variable {zlib : Zlib σ} {volume next : ZipFile σ} {member : RDFURN} {method k : Nat}
  {dosdate dostime : UInt16}

/-- Member `k` is open under a name that the volume can spell. -/
structure FillingAt (zlib : Zlib σ) (volume : ZipFile σ) (k : Nat) (member : RDFURN)
    (method : UInt16) (fd : FileBackedObject) (inputs : List Bytes) : Prop where
  segment : ∃ s, volume.members[k]? = some s ∧ s.Filling zlib member method inputs
  name : ∃ name, segmentName member volume.urn = some name
  backingStore : volume.backingStore = fd

lemma openMember_filling (hc : zlib.Incremental)
    (h : volume.openMember zlib member .w method dosdate dostime = some (next,some k))
    (hk : k = volume.members.length) :
    next.FillingAt zlib k member (UInt16.ofNat method) volume.backingStore [] := by
  subst hk
  obtain ⟨name,hn,-⟩ := map_eq_some_iff.mp h
  obtain ⟨-,hlt⟩ | ⟨segment,segment',filename,-,-,rfl,hf,rfl⟩ := openMember_cases h
  · exact absurd (hlt _ rfl) (lt_irrefl _)
  · exact ⟨⟨segment',by simp,ZipSegment.finish_filling hc rfl rfl rfl rfl rfl hf⟩,⟨name,hn⟩,rfl⟩

variable {fd : FileBackedObject} {tag : UInt16} {inputs : List Bytes} {data : Bytes}

lemma FillingAt.write_iff (hs : volume.FillingAt zlib k member tag fd inputs)
    (hft : growth ((zlib.pieces tag inputs).map length) < maxTallocSize) :
    (∃ u, volume.step zlib (.write k data) = some u) ↔
      growth ((zlib.pieces tag (inputs ++ Op.inputs k (.write k data))).map
        length) < maxTallocSize := by
  obtain ⟨s,hm,hf⟩ := hs.segment
  rw [step,hm,bind_some]
  by_cases hne : data = []
  · have hw : s.write zlib data = some (0,s) := if_pos hne
    rw [hw]
    simp [Op.inputs,hne,hft]
  · simp only [Op.inputs,ne_eq,hne,not_false_iff,and_self,if_true,← hf.write_iff hne]
    cases s.write zlib data <;> simp

lemma FillingAt.write (hc : zlib.Incremental) (hs : volume.FillingAt zlib k member tag fd inputs)
    (h : volume.step zlib (.write k data) = some next) :
    next.FillingAt zlib k member tag fd (inputs ++ Op.inputs k (.write k data)) := by
  obtain ⟨s,hm,hf⟩ := hs.segment
  rw [step,hm,Option.bind_some] at h
  obtain ⟨⟨n,t⟩,hw,rfl⟩ := Option.map_eq_some_iff.mp h
  refine ⟨⟨t,List.getElem?_set_self (List.getElem?_eq_some_iff.mp hm).1,?_⟩,hs.name,
    hs.backingStore⟩
  by_cases hne : data = []
  · have hwr : s.write zlib data = some (0,s) := if_pos hne
    obtain ⟨-,rfl⟩ := Prod.mk.inj (Option.some.inj (hwr.symm.trans hw))
    simpa [Op.inputs,hne] using hf
  · simpa [Op.inputs,hne] using hf.write hc hne hw

lemma FillingAt.close_iff (hs : volume.FillingAt zlib k member tag fd inputs)
    (hw : volume.mode = .w) : (∃ u, volume.step zlib (.close k) = some u) ↔
      growth ((zlib.outputs tag inputs).map length) < maxTallocSize := by
  obtain ⟨s,hm,hf⟩ := hs.segment
  obtain ⟨name,hn⟩ := hs.name
  rw [← hf.close_iff hn volume.backingStore,step,hm,bind_some,closeMember_eq hw]
  cases s.close zlib volume.urn volume.backingStore <;> simp

lemma FillingAt.close (hz : zlib.Inverse) (hs : volume.FillingAt zlib k member tag fd inputs)
    (hw : volume.mode = .w) (ht : inputs.flatten.length < 2^31)
    (h : volume.step zlib (.close k) = some next) : ∃ s, next.members[k]? = some s ∧
      s.Accounts zlib fd.data next.backingStore.data inputs.flatten := by
  obtain ⟨s,hm,hf⟩ := hs.segment
  rw [step,hm,Option.bind_some,closeMember_eq hw,hs.backingStore] at h
  obtain ⟨⟨fd',t⟩,hc,rfl⟩ := Option.map_eq_some_iff.mp h
  exact ⟨t,List.getElem?_set_self (List.getElem?_eq_some_iff.mp hm).1,hf.close hz ht hc⟩

lemma inputs_writes (k : Nat) (inputs : List Bytes) :
    (inputs.map (Op.write k)).flatMap (Op.inputs k) = inputs.filter (· ≠ []) := by
  induction inputs with
  | nil => rfl
  | cons data inputs ih =>
    rw [map_cons,flatMap_cons,ih]
    by_cases hne : data = [] <;> simp [Op.inputs,hne]

lemma flatten_nonempty (inputs : List Bytes) :
    (inputs.filter (· ≠ [])).flatten = inputs.flatten := by
  induction inputs with
  | nil => rfl
  | cons data inputs ih =>
    rw [flatten_cons,← ih]
    by_cases hne : data = [] <;> simp [hne]

lemma FillingAt.writes (hc : zlib.Incremental)
    (hs : volume.FillingAt zlib k member tag fd []) (inputs : List Bytes) :
    ((∃ u, run (step zlib) volume (inputs.map (.write k)) = some u) ↔
      growth ((zlib.pieces tag (inputs.filter (· ≠ []))).map length) < maxTallocSize) ∧
    ∀ u, run (step zlib) volume (inputs.map (.write k)) = some u →
      u.FillingAt zlib k member tag fd (inputs.filter (· ≠ [])) := by
  have hn : zlib.pieces tag [] = [] := by
    rw [Zlib.pieces]
    split <;> rfl
  simp only [← inputs_writes k inputs]
  refine run_returns_iff (P := fun op => ∃ data, op = .write k data)
    (I := fun ops z => FillingAt zlib z k member tag fd (ops.flatMap (Op.inputs k)))
    (C := fun ops => growth ((zlib.pieces tag
      (ops.flatMap (Op.inputs k))).map length) < maxTallocSize)
    hs (by rw [flatMap_nil,hn]; decide) (fun ops op hf => ?_)
    (fun ops op z hop hz hf => ?_) (fun ops op z u hop hz hu => ?_)
    (fun op hop => (mem_map.mp hop).imp fun _ h => h.2.symm)
  · have hle := growth_prefix ((zlib.pieces_prefix tag (ops.flatMap (Op.inputs k))
      (op.inputs k)).map length)
    rw [flatMap_append,flatMap_singleton] at hf
    exact lt_of_le_of_lt hle hf
  · obtain ⟨data,rfl⟩ := hop
    rw [flatMap_append,flatMap_singleton]
    exact hz.write_iff hf
  · obtain ⟨data,rfl⟩ := hop
    rw [flatMap_append,flatMap_singleton]
    exact hz.write hc hu

/-- Closing a member of a volume that is not open for writing leaves the file as it was. -/
lemma FillingAt.close_unowned (hs : volume.FillingAt zlib k member tag fd inputs)
    (hr : volume.mode ≠ .w) (h : volume.step zlib (.close k) = some next) :
    next.backingStore = fd := by
  obtain ⟨s,hm,-⟩ := hs.segment
  rw [step,hm,bind_some,closeMember,own,if_neg hr] at h
  exact (some.inj h) ▸ hs.backingStore

/-- A new segment can be written and closed, and then accounts for its data, exactly when its volume
is open for writing and its buffer never has to grow beyond what the allocator gives. -/
theorem accounts_iff (hz : zlib.Inverse) (hc : zlib.Incremental)
    (ho : volume.openMember zlib member .w method dosdate dostime = some (next,some k))
    (hk : k = volume.members.length) (inputs : List Bytes)
    (ht : inputs.flatten.length < 2^31) :
    (∃ last s, run (step zlib) next (writeAndClose k inputs) = some last ∧
      last.members[k]? = some s ∧
      s.Accounts zlib volume.backingStore.data last.backingStore.data inputs.flatten) ↔
    volume.mode = .w ∧ StringIO.growth ((zlib.outputs (UInt16.ofNat method)
      (inputs.filter (· ≠ []))).map length) < maxTallocSize := by
  obtain ⟨hwr,hf⟩ := (openMember_filling hc ho hk).writes hc inputs
  have hst : volume.step zlib (.openMember member .w method dosdate dostime) = some next := by
    rw [step,ho]
    rfl
  have hm : ∀ u, run (step zlib) next (inputs.map (.write k)) = some u → u.mode = volume.mode :=
    fun u hu => (run_mode hu).trans (step_preserved hst).mode
  simp only [writeAndClose,run_snoc,bind_eq_some_iff]
  constructor
  · rintro ⟨last,s,⟨u,hu,hl⟩,-,ha⟩
    have hw : volume.mode = .w := by
      by_contra hr
      have hs := (hf u hu).close_unowned (by rwa [hm u hu]) hl
      exact ha.ne (by rw [hs])
    exact ⟨hw,((hf u hu).close_iff ((hm u hu).trans hw)).mp ⟨last,hl⟩⟩
  · rintro ⟨hw,hft⟩
    have hle := growth_prefix ((zlib.pieces_prefix_outputs (UInt16.ofNat method)
      (inputs.filter (· ≠ []))).map length)
    obtain ⟨u,hu⟩ := hwr.mpr (Nat.lt_of_le_of_lt hle hft)
    have hw' := (hm u hu).trans hw
    obtain ⟨last,hl⟩ := ((hf u hu).close_iff hw').mpr hft
    obtain ⟨s,hmm,ha⟩ := (hf u hu).close hz hw'
      (by rwa [flatten_nonempty]) hl
    rw [flatten_nonempty] at ha
    exact ⟨last,s,⟨u,hu,hl⟩,hmm,ha⟩

lemma write_big_none (hc : zlib.Incremental)
    (ho : volume.openMember zlib member .w 0 dosdate dostime = some (next,some k))
    (hk : k = volume.members.length) (big : Bytes) (hl : maxTallocSize ≤ 1024+big.length) :
    run (step zlib) next (writeAndClose k [big]) = none := by
  have hm : 2048 < maxTallocSize := by decide
  have hne : big ≠ [] := by
    intro he
    rw [he,length_nil] at hl
    omega
  have hp : zlib.pieces (UInt16.ofNat 0) ([big].filter (· ≠ [])) = [big] := by
    have hn : ¬ UInt16.ofNat 0 = zipDeflate := by decide
    rw [Zlib.pieces,if_neg hn]
    simp [hne]
  have hg : growth ([big].map length) = grow 1024 big.length := by
    have := growth_snoc [] big.length
    rwa [nil_append,sum_nil,zero_add, growth_nil] at this
  obtain ⟨hw,-⟩ := (openMember_filling hc ho hk).writes hc [big]
  rw [hp,hg, grow] at hw
  rw [writeAndClose,run_snoc]
  cases h : run (step zlib) next ([big].map (.write k)) with
  | none => rfl
  | some u =>
    have hlt := hw.mp ⟨u,h⟩
    split at hlt <;> omega

end

def summingZlib : Zlib Unit :=
  {plainZlib with crc32 := fun c data => data.foldl (fun c x => c+x.toUInt32) c}

lemma summingZlib_inverse : summingZlib.Inverse := plainZlib_inverse

lemma summingZlib_incremental : summingZlib.Incremental :=
  ⟨fun _ => rfl,fun _ _ _ => foldl_append.symm⟩

theorem accounts_two_writes :
    ∃ next, newVolume.openMember summingZlib memberA .w 8 0 0 = some (next,some 0) ∧
    ∃ last s, run (step summingZlib) next (writeAndClose 0 [chars ['x','y'],[],chars ['z']]) =
        some last ∧
      last.members[0]? = some s ∧
      s.Accounts summingZlib newVolume.backingStore.data last.backingStore.data
        (chars ['x','y','z']) := by
  have hp : (newVolume.openMember summingZlib memberA .w 8 0 0).map Prod.snd =
      some (some 0) := by decide +kernel
  obtain ⟨⟨next,result⟩,ho,rfl⟩ := map_eq_some_iff.mp hp
  exact ⟨next,ho,(accounts_iff summingZlib_inverse summingZlib_incremental ho rfl
    [chars ['x','y'],[],chars ['z']] (by decide)).mpr ⟨rfl,by decide +kernel⟩⟩

/-- A single write of a quarter of a gigabyte has no result. -/
theorem accounts_fails_quarter_gigabyte :
    (newVolume.openMember summingZlib memberA .w 0 0 0).map Prod.snd = some (some 0) ∧
    ((newVolume.openMember summingZlib memberA .w 0 0 0).bind fun opened =>
      run (step summingZlib) opened.1 (writeAndClose 0 [replicate (2^28-1024) 0])) =
      none := by
  have hp : (newVolume.openMember summingZlib memberA .w 0 0 0).map Prod.snd =
      some (some 0) := by decide +kernel
  obtain ⟨⟨next,result⟩,ho,rfl⟩ := map_eq_some_iff.mp hp
  refine ⟨hp,?_⟩
  have hn := write_big_none summingZlib_incremental ho rfl
    (replicate (2^28-1024) 0) (by rw [length_replicate]; decide)
  rw [ho,bind_some]
  exact hn

end ZipFile

end Aff4
