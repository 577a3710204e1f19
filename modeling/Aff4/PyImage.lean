import Aff4.Lib.LittleEndian
import Aff4.Lib.Transition

/-! The image stream of aff4.py: `Image.write` cuts the data into bevies, a worker stores each with
an index, and `Image.read` finds the chunks through the index and a cache that drops the oldest one.
An exception has no result. -/

namespace Aff4.Python

open LittleEndian List

structure Zlib where
  compress : Bytes → Int → Option Bytes
  decompress : Bytes → Option Bytes

def Zlib.Accepts (zlib : Zlib) (level : Int) : Prop :=
  ∀ data, ∃ cdata, zlib.compress data level = some cdata ∧ zlib.decompress cdata = some data

/-- The segments of an image: `%08d` of the number, and the same with `.idx`. -/
inductive Member where
  | bevy (number : Int)
  | index (number : Int)
  deriving DecidableEq, Repr

def Volume : Type := Member → Option Bytes

def Volume.empty : Volume := fun _ => none

def Volume.writestr (self : Volume) (subject : Member) (data : Bytes) : Volume :=
  fun member => if member = subject then some data else self member

structure ImageParams where
  chunkSize : Nat
  chunksInSegment : Nat
  compression : Int

structure ImageWorker where
  bevyNumber : Nat
  buffer : Bytes

def packL (n : Nat) : Option Bytes := if n < 2^32 then some (leBytes 4 n) else none

namespace ImageParams

def bevySize (self : ImageParams) : Nat := self.chunkSize * self.chunksInSegment

def deflate (self : ImageParams) (zlib : Zlib) (data : Bytes) : Option Bytes :=
  if 0 < self.compression then zlib.compress data self.compression else some data

def inflate (self : ImageParams) (zlib : Zlib) (data : Bytes) : Option Bytes :=
  if 0 < self.compression then zlib.decompress data else some data

end ImageParams

namespace ImageWorker

def write (params : ImageParams) (self : ImageWorker) (data : Bytes) : Bytes × ImageWorker :=
  let availableToRead := min (params.bevySize - self.buffer.length) data.length
  (data.drop availableToRead,{self with buffer := self.buffer ++ data.take availableToRead})

def runLoop (zlib : Zlib) (params : ImageParams) :
    Nat → Bytes → Nat → Bytes → Bytes → Option (Bytes × Bytes)
  | 0, _, _, _, _ => none
  | fuel+1, rest, offset, bevy, bevyIndex =>
      if rest = [] then some (bevy,bevyIndex)
      else
        (params.deflate zlib (rest.take params.chunkSize)).bind fun cdata =>
          (packL offset).bind fun entry =>
            runLoop zlib params fuel (rest.drop params.chunkSize) (offset + cdata.length)
              (bevy ++ cdata) (bevyIndex ++ entry)

def run (zlib : Zlib) (params : ImageParams) (self : ImageWorker) : Option (Bytes × Bytes) :=
  (runLoop zlib params (self.buffer.length + 1) self.buffer 0 [] []).map fun r =>
    (r.1,r.2 ++ leBytes 4 0xFFFFFFFF)

/-- What a thread leaves in the volume. One that ends with an exception leaves nothing. -/
def store (zlib : Zlib) (params : ImageParams) (volume : Volume) (self : ImageWorker) : Volume :=
  match self.run zlib params with
  | none => volume
  | some (bevy,bevyIndex) =>
      (volume.writestr (.bevy self.bevyNumber) bevy).writestr (.index self.bevyNumber) bevyIndex

end ImageWorker

/-- An image open for writing. `running` are the workers that were started. -/
structure ImageWriter where
  readptr : Nat
  size : Nat
  bevyNumber : Nat
  writer : ImageWorker
  running : List ImageWorker

namespace ImageWriter

def new : ImageWriter := ⟨0,0,0,⟨0,[]⟩,[]⟩

def writeLoop (params : ImageParams) : Nat → ImageWriter → Bytes → Option ImageWriter
  | 0, _, _ => none
  | fuel+1, self, data =>
      let r := self.writer.write params data
      if r.1 = [] then some {self with writer := r.2}
      else
        writeLoop params fuel {self with
          running := self.running ++ [r.2]
          bevyNumber := self.bevyNumber + 1
          writer := ⟨self.bevyNumber + 1,[]⟩} r.1

def write (params : ImageParams) (self : ImageWriter) (data : Bytes) : Option ImageWriter :=
  writeLoop params (data.length + 2) {self with
    readptr := self.readptr + data.length
    size := max self.size (self.readptr + data.length)} data

def close (self : ImageWriter) : List ImageWorker := self.running ++ [self.writer]

end ImageWriter

/-- `Store`, a cache of chunks by their number. -/
structure Store where
  age : List Int
  hash : Int → Option Bytes
  limit : Nat

namespace Store

def new : Store := ⟨[],fun _ => none,5⟩

/-- `Store.expire`. Deleting a key that is not there is an error. -/
def expire : Nat → Store → Option Store
  | 0, _ => none
  | fuel+1, self =>
      if self.limit < self.age.length then
        match self.age with
        | [] => none
        | x :: age =>
            if self.hash x = none then none
            else expire fuel {self with age := age, hash := fun k => if k = x then none else self.hash k}
      else some self

def add (self : Store) (urn : Int) (obj : Bytes) : Option Store :=
  expire (self.age.length + 2) {self with
    hash := fun k => if k = urn then some obj else self.hash k
    age := self.age ++ [urn]}

end Store

structure Image where
  params : ImageParams
  readptr : Int
  size : Nat
  chunkCache : Store

/-- Where `seek` of a stream of this size moves its read pointer. -/
def seekTo (readptr size offset whence : Int) : Int :=
  if whence = 0 then offset
  else if whence = 1 then readptr + offset
  else if whence = 2 then size + offset
  else readptr

namespace Image

def seek (self : Image) (offset whence : Int) : Image :=
  {self with readptr := seekTo self.readptr self.size offset whence}

def readAt (content : Bytes) (offset : Nat) (length : Int) : Bytes :=
  slice content offset (min ((content.length : Int) - offset) length).toNat

/-- The part of `partial_read` that gets a chunk from the volume. -/
def loadChunk (zlib : Zlib) (volume : Volume) (params : ImageParams) (chunkId : Int) :
    Option Bytes :=
  let bevy := chunkId / params.chunksInSegment
  let chunkInBevy := chunkId % params.chunksInSegment
  (volume (.index bevy)).bind fun data =>
    let entry := slice data (4 * chunkInBevy).toNat 8
    if entry.length = 8 then
      let offset := leNat (entry.take 4)
      let offsetEnd := leNat (entry.drop 4)
      (volume (.bevy bevy)).bind fun content =>
        params.inflate zlib (readAt content offset (offsetEnd - offset))
    else none

def partialRead (zlib : Zlib) (volume : Volume) (self : Image) (length : Int) :
    Option (Bytes × Image) :=
  let chunkId := self.readptr / self.params.chunkSize
  let chunkOffset := self.readptr % self.params.chunkSize
  let availableToRead := min (self.params.chunkSize - chunkOffset) length
  let data (chunk : Bytes) := slice chunk chunkOffset.toNat availableToRead.toNat
  match self.chunkCache.hash chunkId with
  | some chunk => some (data chunk,self)
  | none =>
      (loadChunk zlib volume self.params chunkId).bind fun chunk =>
        (self.chunkCache.add chunkId chunk).map fun cache =>
          (data chunk,{self with chunkCache := cache})

def readLoop (zlib : Zlib) (volume : Volume) : Nat → Image → Int → Bytes → Option (Bytes × Image)
  | 0, _, _, _ => none
  | fuel+1, self, length, result =>
      if 0 < length then
        (self.partialRead zlib volume length).bind fun r =>
          if r.1 = [] then some (result,r.2)
          else
            readLoop zlib volume fuel {r.2 with readptr := r.2.readptr + r.1.length}
              (length - r.1.length) (result ++ r.1)
      else some (result,self)

def read (zlib : Zlib) (volume : Volume) (self : Image) (length : Option Int) :
    Option (Bytes × Image) :=
  let length := min (self.size - self.readptr) (length.getD self.size)
  readLoop zlib volume (length.toNat + 1) self length []

end Image

/-! ### What the workers store -/

namespace ImageParams

def chunkCount (self : ImageParams) (bevy : Bytes) : Nat :=
  (bevy.length + self.chunkSize - 1) / self.chunkSize

def storedChunk (self : ImageParams) (zlib : Zlib) (bevy : Bytes) (k : Nat) : Bytes :=
  (self.deflate zlib (slice bevy (k*self.chunkSize) self.chunkSize)).getD []

def stored (self : ImageParams) (zlib : Zlib) (bevy : Bytes) (n : Nat) : Bytes :=
  (range n).flatMap (self.storedChunk zlib bevy)

def entries (self : ImageParams) (zlib : Zlib) (bevy : Bytes) (n : Nat) : Bytes :=
  (range n).flatMap fun k => leBytes 4 (self.stored zlib bevy k).length

def bevyData (self : ImageParams) (zlib : Zlib) (bevy : Bytes) : Bytes :=
  self.stored zlib bevy (self.chunkCount bevy)

def indexData (self : ImageParams) (zlib : Zlib) (bevy : Bytes) : Bytes :=
  self.entries zlib bevy (self.chunkCount bevy) ++ leBytes 4 0xFFFFFFFF

def bevyOf (self : ImageParams) (content : Bytes) (k : Nat) : Bytes :=
  slice content (k*self.bevySize) self.bevySize

structure Usable (params : ImageParams) (zlib : Zlib) : Prop where
  chunkSize : 0 < params.chunkSize
  chunksInSegment : 0 < params.chunksInSegment
  zlib : 0 < params.compression → zlib.Accepts params.compression

variable {s : ImageParams} {zlib : Zlib}

lemma Usable.inverse (h : s.Usable zlib) (data : Bytes) :
    ∃ cdata, s.deflate zlib data = some cdata ∧ s.inflate zlib cdata = some data := by
  unfold deflate inflate
  by_cases hc : 0 < s.compression
  · simpa only [hc,if_true] using h.zlib hc data
  · exact ⟨data,by simp [hc]⟩

lemma Usable.stored_chunk (h : s.Usable zlib) (bevy : Bytes) (k : Nat) :
    s.deflate zlib (slice bevy (k*s.chunkSize) s.chunkSize) = some (s.storedChunk zlib bevy k) ∧
      s.inflate zlib (s.storedChunk zlib bevy k) =
        some (slice bevy (k*s.chunkSize) s.chunkSize) := by
  obtain ⟨cdata,hd,hi⟩ := h.inverse (slice bevy (k*s.chunkSize) s.chunkSize)
  have hs : s.storedChunk zlib bevy k = cdata := by simp [storedChunk,hd]
  exact ⟨hs ▸ hd,hs ▸ hi⟩

lemma stored_succ (bevy : Bytes) (n : Nat) :
    s.stored zlib bevy (n+1) = s.stored zlib bevy n ++ s.storedChunk zlib bevy n := by
  simp [stored,range_succ]

lemma entries_succ (bevy : Bytes) (n : Nat) : s.entries zlib bevy (n+1) =
    s.entries zlib bevy n ++ leBytes 4 (s.stored zlib bevy n).length := by simp [entries,range_succ]

lemma stored_split (bevy : Bytes) {k n : Nat} (h : k ≤ n) :
    ∃ rest, s.stored zlib bevy n = s.stored zlib bevy k ++ rest := by
  induction n, h using Nat.le_induction with
  | base => exact ⟨[],by simp⟩
  | succ n _ ih =>
    obtain ⟨rest,hr⟩ := ih
    exact ⟨rest ++ s.storedChunk zlib bevy n,by rw [stored_succ,hr,append_assoc]⟩

lemma entries_length (bevy : Bytes) (n : Nat) :
    (s.entries zlib bevy n).length = 4*n := by
  induction n with
  | zero => rfl
  | succ n ih =>
    rw [entries_succ,length_append,ih,leBytes_length]
    omega

lemma lt_chunkCount_iff (hc : 0 < s.chunkSize) (bevy : Bytes) (k : Nat) :
    k < s.chunkCount bevy ↔ k*s.chunkSize < bevy.length := by
  rw [chunkCount,Nat.lt_div_iff_mul_lt hc]
  omega

end ImageParams

namespace ImageWorker

open ImageParams

variable {params : ImageParams} {zlib : Zlib}

lemma runLoop_stored (h : params.Usable zlib) {bevy : Bytes}
    (hsz : (params.bevyData zlib bevy).length < 2^32) (fuel : Nat) {k : Nat}
    (hk : k ≤ params.chunkCount bevy) (hf : bevy.length-k*params.chunkSize < fuel) :
    runLoop zlib params fuel (bevy.drop (k*params.chunkSize)) (params.stored zlib bevy k).length
        (params.stored zlib bevy k) (params.entries zlib bevy k) =
      some (params.bevyData zlib bevy,params.entries zlib bevy (params.chunkCount bevy)) := by
  induction fuel generalizing k with
  | zero => omega
  | succ fuel ih =>
    have hc := h.chunkSize
    have hlt := lt_chunkCount_iff hc bevy k
    rw [runLoop]
    by_cases hr : bevy.drop (k*params.chunkSize) = []
    · have he : k = params.chunkCount bevy := by
        rw [drop_eq_nil_iff] at hr
        omega
      rw [if_pos hr,bevyData,← he]
    · have hm : k*params.chunkSize < bevy.length := by
        rw [drop_eq_nil_iff] at hr
        omega
      obtain ⟨more,hsp⟩ : ∃ more, params.bevyData zlib bevy =
          params.stored zlib bevy k ++ more := stored_split bevy hk
      have hp : packL (params.stored zlib bevy k).length =
          some (leBytes 4 (params.stored zlib bevy k).length) := by
        refine if_pos (lt_of_le_of_lt ?_ hsz)
        rw [hsp,length_append]
        omega
      have hn : (k+1)*params.chunkSize = k*params.chunkSize+params.chunkSize := Nat.succ_mul _ _
      have hs := ih (k := k+1) (hlt.mpr hm) (by omega)
      rw [stored_succ,entries_succ,length_append,hn,← drop_drop] at hs
      rw [if_neg hr]
      have hd := (h.stored_chunk bevy k).1
      rw [slice] at hd
      rw [hd,Option.bind_some,hp,Option.bind_some,hs]

lemma run_stored (h : params.Usable zlib) {s : ImageWorker}
    (hsz : (params.bevyData zlib s.buffer).length < 2^32) :
    s.run zlib params =
      some (params.bevyData zlib s.buffer,params.indexData zlib s.buffer) := by
  have hl := runLoop_stored h hsz (s.buffer.length+1) (Nat.zero_le _) (by omega)
  rw [Nat.zero_mul,drop_zero] at hl
  have hs : params.stored zlib s.buffer 0 = [] ∧ params.entries zlib s.buffer 0 = [] := ⟨rfl,rfl⟩
  rw [hs.1,hs.2,length_nil] at hl
  rw [run,hl,Option.map_some]
  rfl

variable {data : Bytes}

lemma write_fit {s : ImageWorker} (h : s.buffer.length+data.length ≤ params.bevySize) :
    s.write params data = ([],{s with buffer := s.buffer ++ data}) := by
  have ha : min (params.bevySize-s.buffer.length) data.length = data.length := by omega
  simp [write,ha]

lemma write_rest {s : ImageWorker} (hr : s.buffer.length ≤ params.bevySize)
    (h : params.bevySize < s.buffer.length+data.length) :
    ∃ n, s.buffer.length+n = params.bevySize ∧ s.write params data =
      (data.drop n,{s with buffer := s.buffer ++ data.take n}) := by
  have hs : min (params.bevySize-s.buffer.length) data.length =
      params.bevySize-s.buffer.length := by omega
  refine ⟨params.bevySize-s.buffer.length,by omega,?_⟩
  unfold write
  rw [hs]

end ImageWorker

/-! ### Writing -/

namespace ImageWriter

/-- The workers hold the content: full bevies, and one that takes what comes next. -/
structure Filled (params : ImageParams) (content : Bytes) (writer : ImageWriter) : Prop where
  content : content = (writer.running.map ImageWorker.buffer).flatten ++ writer.writer.buffer
  full : ∀ worker ∈ writer.running, worker.buffer.length = params.bevySize
  room : writer.writer.buffer.length ≤ params.bevySize
  numbers : writer.running.map ImageWorker.bevyNumber = range writer.running.length
  number : writer.writer.bevyNumber = writer.running.length
  next : writer.bevyNumber = writer.running.length

lemma new_filled (params : ImageParams) : new.Filled params [] :=
  ⟨rfl,by simp [new],by simp [new],rfl,rfl,rfl⟩

variable {params : ImageParams} {s : ImageWriter} {content : Bytes}

lemma Filled.take (h : s.Filled params content) {piece : Bytes}
    (hf : s.writer.buffer.length+piece.length ≤ params.bevySize) :
    Filled params (content ++ piece)
      {s with writer := {s.writer with buffer := s.writer.buffer ++ piece}} where
  content := by rw [h.content,append_assoc]
  full := h.full
  room := by simpa using hf
  numbers := h.numbers
  number := h.number
  next := h.next

lemma Filled.start (h : s.Filled params content)
    (hf : s.writer.buffer.length = params.bevySize) :
    Filled params content {s with
      running := s.running ++ [s.writer]
      bevyNumber := s.bevyNumber+1
      writer := ⟨s.bevyNumber+1,[]⟩} where
  content := by simp [h.content]
  full worker hw := by
    rcases mem_append.mp hw with hw | hw
    · exact h.full worker hw
    · exact mem_singleton.mp hw ▸ hf
  room := by simp
  numbers := by simp [h.numbers,h.number,range_succ]
  number := by simp [h.next]
  next := by simp [h.next]

lemma writeLoop_filled (hsz : 0 < params.bevySize) (fuel : Nat) (data : Bytes)
    (h : s.Filled params content)
    (hfu : data.length+(if s.writer.buffer.length = params.bevySize then 1 else 0) < fuel) :
    ∃ next, writeLoop params fuel s data = some next ∧ next.Filled params (content ++ data) ∧
      next.size = s.size ∧ next.readptr = s.readptr := by
  induction fuel generalizing s content data with
  | zero => omega
  | succ fuel ih =>
    have hrm := h.room
    by_cases hft : s.writer.buffer.length+data.length ≤ params.bevySize
    · refine ⟨_,?_,h.take hft,rfl,rfl⟩
      simp [writeLoop,ImageWorker.write_fit hft]
    · obtain ⟨n,hn,hw⟩ := ImageWorker.write_rest hrm (Nat.not_le.mp hft)
      have hl : (data.take n).length = n := by
        rw [length_take]
        omega
      have hne : ¬ data.drop n = [] := by
        rw [drop_eq_nil_iff]
        omega
      have ht : Filled params (content ++ data.take n) {s with
          writer := {s.writer with buffer := s.writer.buffer ++ data.take n}} :=
        h.take (by omega)
      have hst := ht.start (by simp only [length_append,hl]; omega)
      have hm : (data.drop n).length+(if 0 = params.bevySize then 1 else 0) < fuel := by
        have hnt : ¬ 0 = params.bevySize := by omega
        rw [if_neg hnt,length_drop]
        split at hfu <;> omega
      obtain ⟨next,hnx,hf,hs,hr⟩ := ih _ hst hm
      refine ⟨next,?_,?_,hs,hr⟩
      · simpa only [writeLoop,hw,hne,if_false] using hnx
      · rwa [append_assoc,take_append_drop] at hf

lemma run_write_filled (hsi : 0 < params.bevySize) (writes : List Bytes)
    (h : s.Filled params content) (hs : s.size = content.length)
    (hr : s.readptr = content.length) :
    ∃ next, Transition.run (write params) s writes = some next ∧
      next.Filled params (content ++ writes.flatten) ∧
      next.size = (content ++ writes.flatten).length := by
  induction writes generalizing s content with
  | nil => exact ⟨s,rfl,by simpa using h,by simpa using hs⟩
  | cons data writes ih =>
    have hst : Filled params content {s with
        readptr := s.readptr+data.length
        size := max s.size (s.readptr+data.length)} :=
      ⟨h.content,h.full,h.room,h.numbers,h.number,h.next⟩
    obtain ⟨mid,hm,hf,hms,hmr⟩ := writeLoop_filled hsi (data.length+2) data hst (by
      split <;> omega)
    obtain ⟨next,hn,hl,hsz⟩ := ih hf (by simp [hms,hs,hr]) (by simp [hmr,hr])
    refine ⟨next,?_,?_,?_⟩
    · simpa [Transition.run,write,hm] using hn
    · simpa using hl
    · simpa using hsz

lemma Filled.worker (h : s.Filled params content) {k : Nat} (hk : k ≤ s.running.length) :
    ∃ worker ∈ s.close, worker.bevyNumber = k ∧
      worker.buffer = params.bevyOf content k := by
  have hlt : k < s.close.length := by
    simp only [close,length_append,length_singleton]
    omega
  have hn : s.close.map ImageWorker.bevyNumber = range (s.running.length+1) := by
    simp [close,h.numbers,h.number,range_succ]
  refine ⟨s.close.get ⟨k,hlt⟩,get_mem _ _,?_,?_⟩
  · have hk' := congrArg (fun l => l[k]?) hn
    simpa [hlt,Nat.lt_succ_of_le hk] using hk'
  · have hf : ∀ block ∈ s.running.map ImageWorker.buffer,
        block.length = params.bevySize := by
      intro block hbl
      obtain ⟨worker,hw,rfl⟩ := mem_map.mp hbl
      exact h.full worker hw
    rw [h.content]
    refine (slice_blocks hf h.room ?_).symm
    have hb : s.running.map ImageWorker.buffer ++ [s.writer.buffer] =
        s.close.map ImageWorker.buffer := by simp [close]
    rw [hb]
    simp [hlt]

end ImageWriter

/-! ### The volume after the threads have run, in any order -/

namespace ImageWorker

variable {params : ImageParams} {zlib : Zlib}

variable {worker : ImageWorker} {n : Int} {workers : List ImageWorker}

lemma store_other {volume : Volume} (h : (worker.bevyNumber : Int) ≠ n) :
    worker.store zlib params volume (.bevy n) = volume (.bevy n) ∧
      worker.store zlib params volume (.index n) = volume (.index n) := by
  cases hr : worker.run zlib params with
  | none => simp [store,hr]
  | some r => simp [store,hr,Volume.writestr,Ne.symm h]

lemma foldl_store_other
    (h : ∀ worker ∈ workers, (worker.bevyNumber : Int) ≠ n) (volume : Volume) :
    workers.foldl (store zlib params) volume (.bevy n) = volume (.bevy n) ∧
      workers.foldl (store zlib params) volume (.index n) = volume (.index n) := by
  induction workers generalizing volume with
  | nil => simp
  | cons worker workers ih =>
    obtain ⟨hb,hi⟩ : worker.store zlib params volume (.bevy n) = volume (.bevy n) ∧
        worker.store zlib params volume (.index n) = volume (.index n) :=
      store_other (h worker mem_cons_self)
    obtain ⟨hb',hi'⟩ := ih (fun w hw => h w (mem_cons_of_mem _ hw))
      (worker.store zlib params volume)
    exact ⟨hb'.trans hb,hi'.trans hi⟩

lemma foldl_store (hd : (workers.map ImageWorker.bevyNumber).Nodup)
    (hw : worker ∈ workers) {bevy bevyIndex : Bytes}
    (hr : worker.run zlib params = some (bevy,bevyIndex)) (volume : Volume) :
    workers.foldl (store zlib params) volume (.bevy worker.bevyNumber) = some bevy ∧
      workers.foldl (store zlib params) volume (.index worker.bevyNumber) = some bevyIndex := by
  induction workers generalizing volume with
  | nil => simp at hw
  | cons first workers ih =>
    rw [map_cons,nodup_cons] at hd
    rcases mem_cons.mp hw with rfl | hw
    · have ho : ∀ w ∈ workers, (w.bevyNumber : Int) ≠ worker.bevyNumber := by
        intro w hw he
        exact hd.1 (mem_map.mpr ⟨w,hw,by omega⟩)
      obtain ⟨hb,hi⟩ := foldl_store_other ho (worker.store zlib params volume)
      rw [foldl_cons,hb,hi]
      simp [store,hr,Volume.writestr]
    · exact ih hd.2 hw _

end ImageWorker

/-- Every bevy of the content is stored with its index, and there are no others. -/
structure Volume.Holds (volume : Volume) (zlib : Zlib) (params : ImageParams)
    (content : Bytes) : Prop where
  bevy : ∀ k : Nat, k*params.bevySize < content.length →
    volume (.bevy k) = some (params.bevyData zlib (params.bevyOf content k))
  index : ∀ k : Nat, k*params.bevySize < content.length →
    volume (.index k) = some (params.indexData zlib (params.bevyOf content k))
  negative : ∀ n : Int, n < 0 → volume (.index n) = none

def ImageParams.Small (params : ImageParams) (zlib : Zlib) (content : Bytes) : Prop :=
  ∀ k : Nat, (params.bevyData zlib (params.bevyOf content k)).length < 2^32

lemma ImageWriter.Filled.holds {params : ImageParams} {zlib : Zlib} {content : Bytes}
    {s : ImageWriter} (h : s.Filled params content) (hu : params.Usable zlib)
    (hsm : params.Small zlib content) {order : List ImageWorker}
    (ho : order.Perm s.close) :
    Volume.Holds (order.foldl (ImageWorker.store zlib params) .empty) zlib params content := by
  have hnm : s.close.map ImageWorker.bevyNumber = range (s.running.length+1) := by
    simp [ImageWriter.close,h.numbers,h.number,range_succ]
  have hd : (order.map ImageWorker.bevyNumber).Nodup := by
    rw [(ho.map _).nodup_iff,hnm]
    exact nodup_range
  have hs : ∀ k : Nat, k*params.bevySize < content.length →
      ∃ worker ∈ order, worker.bevyNumber = k ∧ worker.run zlib params =
        some (params.bevyData zlib (params.bevyOf content k),
          params.indexData zlib (params.bevyOf content k)) := by
    intro k hk
    have hle : k ≤ s.running.length := by
      have hf : ∀ block ∈ s.running.map ImageWorker.buffer,
          block.length = params.bevySize := by
        intro block hbl
        obtain ⟨worker,hw,rfl⟩ := mem_map.mp hbl
        exact h.full worker hw
      rw [h.content,length_append,blocks_length hf,length_map] at hk
      have hr := h.room
      by_contra hlt
      have := Nat.mul_le_mul_right params.bevySize (Nat.not_le.mp hlt)
      rw [Nat.succ_mul] at this
      omega
    obtain ⟨worker,hw,hn,hb⟩ := h.worker hle
    refine ⟨worker,ho.mem_iff.mpr hw,hn,?_⟩
    rw [← hb]
    exact ImageWorker.run_stored hu (hb ▸ hsm k)
  refine ⟨fun k hk => ?_,fun k hk => ?_,fun n hn => ?_⟩
  · obtain ⟨worker,hw,rfl,hrn⟩ := hs k hk
    exact (ImageWorker.foldl_store hd hw hrn _).1
  · obtain ⟨worker,hw,rfl,hrn⟩ := hs k hk
    exact (ImageWorker.foldl_store hd hw hrn _).2
  · exact (ImageWorker.foldl_store_other (fun worker _ => by omega) .empty).2

end Aff4.Python
