import Aff4.ImageNames
import Aff4.ImageRead
import Aff4.ZipCatalog

/-! The workers of an image at one volume. A worker has the global lock except while it
compresses a chunk, so others take their turns between its chunks. -/

namespace Aff4

open LittleEndian Transition Option Function

variable {σ ι M M' H H' : Type}

/-- What a worker does with a volume: it opens members for writing, at some date and time,
writes to them and closes them. -/
structure MemberOps (M H : Type) where
  openMember : M → RDFURN → UInt16 × UInt16 → Option (M × H)
  write : M → H → Bytes → Option M
  close : M → H → Option M

inductive Stage (H : Type) where
  | ready
  | compressing (segment index : H) (chunkOffset : Nat) (compressedOffset : UInt32)
  | finished
  deriving DecidableEq

namespace ImageWorker

/-- The condition of the loop in `ImageWorker_run`, and what follows the loop. -/
def advance (ops : MemberOps M H) (self : ImageWorker) (volume : M) (segment index : H)
    (chunkOffset : Nat) (compressedOffset : UInt32) : Option (M × Stage H) :=
  if chunkOffset < self.bevy.data.length then
    some (volume,.compressing segment index chunkOffset compressedOffset)
  else do
    let volume ← ops.close volume segment
    let volume ← ops.close volume index
    some (volume,.finished)

/-- `ImageWorker_run` from where it gets the lock to where it gives it up. A chunk that cannot
be compressed ends it with the members open. An image that is not compressed keeps the lock
between its chunks, so that its turns follow each other. -/
def resume (ops : MemberOps M H) (zlib : ChunkZlib) (image : ImageParameters)
    (self : ImageWorker) (times : Times) (volume : M) : Stage H → Option (M × Stage H)
  | .ready => do
    let (volume,segment) ← ops.openMember volume (image.bevyUrn self.segmentCount) times.1
    let (volume,index) ← ops.openMember volume (image.indexUrn self.segmentCount) times.2
    self.advance ops volume segment index 0 0
  | .compressing segment index chunkOffset compressedOffset =>
    let length := min image.chunkSize (self.bevy.data.length-chunkOffset)
    match image.packed zlib (slice self.bevy.data chunkOffset length) with
    | none => some (volume,.finished)
    | some cbuffer => do
      let volume ← ops.write volume index (le32 compressedOffset)
      let volume ← ops.write volume segment cbuffer
      self.advance ops volume segment index (chunkOffset+length)
        (compressedOffset+UInt32.ofNat cbuffer.length)
  | .finished => none

end ImageWorker

structure Workers (M H ι : Type) where
  volume : M
  stage : ι → Stage H

namespace Workers

variable [DecidableEq ι]

def start (volume : M) : Workers M H ι := ⟨volume,fun _ => .ready⟩

def step (ops : MemberOps M H) (zlib : ChunkZlib) (image : ImageParameters)
    (job : ι → ImageWorker) (self : Workers M H ι) (e : ι × Times) : Option (Workers M H ι) :=
  ((job e.1).resume ops zlib image e.2 self.volume (self.stage e.1)).map fun r =>
    ⟨r.1,update self.stage e.1 r.2⟩

end Workers

def Workers.Finished (self : Workers M H ι) : Prop := ∀ i, self.stage i = .finished

def ZipFile.memberOps (zlib : Zlib σ) : MemberOps (ZipFile σ) Nat where
  openMember volume urn time :=
    (volume.openMember zlib urn .w zipStored.toNat time.1 time.2).bind fun r =>
      r.2.map fun segment => (r.1,segment)
  write volume segment data := volume.step zlib (.write segment data)
  close volume segment := volume.step zlib (.close segment)

section

inductive Stage.Rel (P : H → H' → Prop) : Stage H → Stage H' → Prop where
  | ready : Rel P .ready .ready
  | compressing {segment index : H} {segment' index' : H'} (hsegment : P segment segment')
      (hindex : P index index') (chunkOffset : Nat) (compressedOffset : UInt32) :
      Rel P (.compressing segment index chunkOffset compressedOffset)
        (.compressing segment' index' chunkOffset compressedOffset)
  | finished : Rel P .finished .finished

variable {stage' : Stage H'} {m : M} {m' : M'}

lemma Stage.Rel.mono {P Q : H → H' → Prop} (hpq : ∀ h h', P h h' → Q h h') {stage : Stage H}
    (h : Stage.Rel P stage stage') : Stage.Rel Q stage stage' := by
  cases h with
  | ready => exact .ready
  | compressing hs hi o c =>
    exact .compressing (hpq _ _ hs) (hpq _ _ hi) o c
  | finished => exact .finished

/-- The operations on one volume do what those on another do, for the members in `U`. What
stood for each other before an operation still does after it. -/
structure MemberOps.Simulates (ops : MemberOps M H) (ops' : MemberOps M' H') (U : RDFURN → Prop)
    (R : M → M' → Prop) (P : M → H → H' → Prop) : Prop where
  openMember : ∀ m m' urn time time', R m m' → U urn →
    Option.Rel (fun r r' => (R r.1 r'.1 ∧ ∀ h h', P m h h' → P r.1 h h') ∧ P r.1 r.2 r'.2)
      (ops.openMember m urn time) (ops'.openMember m' urn time')
  write : ∀ m m' h h' data, R m m' → P m h h' →
    Option.Rel (fun n n' => R n n' ∧ ∀ h h', P m h h' → P n h h')
      (ops.write m h data) (ops'.write m' h' data)
  close : ∀ m m' h h', R m m' → P m h h' →
    Option.Rel (fun n n' => R n n' ∧ ∀ h h', P m h h' → P n h h')
      (ops.close m h) (ops'.close m' h')

variable {ops : MemberOps M H} {ops' : MemberOps M' H'} {U : RDFURN → Prop} {R : M → M' → Prop}
  {P : M → H → H' → Prop}

/-- Volumes and stages after a turn that began at `m`. -/
abbrev Moved (R : M → M' → Prop) (P : M → H → H' → Prop) (m : M) (r : M × Stage H)
    (r' : M' × Stage H') : Prop :=
  (R r.1 r'.1 ∧ ∀ h h', P m h h' → P r.1 h h') ∧ Stage.Rel (P r.1) r.2 r'.2

lemma MemberOps.Simulates.advance (hops : ops.Simulates ops' U R P) (job : ImageWorker)
    {segment index : H} {segment' index' : H'} (hm : R m m')
    (hs : P m segment segment') (hi : P m index index') (chunkOffset : Nat)
    (compressedOffset : UInt32) :
    Option.Rel (Moved R P m)
      (job.advance ops m segment index chunkOffset compressedOffset)
      (job.advance ops' m' segment' index' chunkOffset compressedOffset) := by
  rw [ImageWorker.advance,ImageWorker.advance]
  split
  · exact .some ⟨⟨hm,fun _ _ h => h⟩,.compressing hs hi _ _⟩
  · refine rel_bind (hops.close m m' _ _ hm hs) fun n n' ⟨hn,hk⟩ => ?_
    refine rel_bind (hops.close n n' _ _ hn (hk _ _ hi)) fun o o' ⟨ho,hk'⟩ => ?_
    exact .some ⟨⟨ho,fun h h' hp => hk' _ _ (hk _ _ hp)⟩,.finished⟩

lemma MemberOps.Simulates.resume (hops : ops.Simulates ops' U R P) (zlib : ChunkZlib)
    (image : ImageParameters) (job : ImageWorker)
    (hU : ∀ urn, image.IsMember job.segmentCount urn → U urn) (times times' : Times)
    (hm : R m m') {stage : Stage H} (hst : Stage.Rel (P m) stage stage') :
    Option.Rel (Moved R P m)
      (job.resume ops zlib image times m stage) (job.resume ops' zlib image times' m' stage') := by
  have hc : ∀ {n : M} {x : Option (M × Stage H)} {x' : Option (M' × Stage H')},
      (∀ h h', P m h h' → P n h h') → Option.Rel (Moved R P n) x x' →
      Option.Rel (Moved R P m) x x' := by
    intro n x x' hk hr
    exact rel_mono hr fun r r' _ h =>
      ⟨⟨h.1.1,fun g g' hp => h.1.2 g g' (hk g g' hp)⟩,h.2⟩
  cases hst with
  | ready =>
    refine rel_bind (hops.openMember m m' _ times.1 times'.1 hm (hU _ (.inl rfl)))
      fun ⟨n,segment⟩ ⟨n',segment'⟩ ⟨⟨hn,hk⟩,hs⟩ => ?_
    refine rel_bind (hops.openMember n n' _ times.2 times'.2 hn (hU _ (.inr rfl)))
      fun ⟨o,index⟩ ⟨o',index'⟩ ⟨⟨ho,hk'⟩,hi⟩ => ?_
    exact hc (fun h h' hp => hk' h h' (hk h h' hp))
      (hops.advance job ho (hk' _ _ hs) hi 0 0)
  | compressing hs hi o c =>
    rw [ImageWorker.resume,ImageWorker.resume]
    split
    · exact .some ⟨⟨hm,fun _ _ h => h⟩,.finished⟩
    · refine rel_bind (hops.write m m' _ _ _ hm hi) fun n n' ⟨hn,hk⟩ => ?_
      refine rel_bind (hops.write n n' _ _ _ hn (hk _ _ hs)) fun o o' ⟨ho,hk'⟩ => ?_
      exact hc (fun h h' hp => hk' h h' (hk h h' hp))
        (hops.advance job ho (hk' _ _ (hk _ _ hs)) (hk' _ _ (hk _ _ hi)) _ _)
  | finished => exact .none

end

namespace ZipSegment

abbrev Catalog (σ : Type) := Bytes → Option (Entry σ)

namespace Catalog

/-- The operations of a volume on its catalog. A member is known by its name. -/
def memberOps (zlib : Zlib σ) (container : RDFURN) : MemberOps (Catalog σ) Bytes where
  openMember catalog urn _ := (segmentName urn container).map fun name =>
    (update catalog name (some ((catalog name).getD (.new urn name))),name)
  write catalog name data := ((catalog name).bind fun e => e.write zlib data).map fun e =>
    update catalog name (some e)
  close catalog name := ((catalog name).bind fun e => e.close zlib container).map fun e =>
    update catalog name (some e)

end Catalog

end ZipSegment

open ZipSegment

section

variable {zlib : Zlib σ} {container : RDFURN}

lemma ZipFile.memberOps_simulates (zlib : Zlib σ) (container : RDFURN) :
    (ZipFile.memberOps zlib).Simulates (Catalog.memberOps zlib container) (fun _ => True)
      (fun volume catalog => volume.Catalogued zlib container catalog)
      (fun volume k name => volume.place name = some k) where
  openMember volume catalog urn time time' hs _ := by
    simp only [ZipFile.memberOps,Catalog.memberOps]
    cases hn : segmentName urn container with
    | none =>
      have hno : segmentName urn volume.urn = none := by rw [hs.urn,hn]
      rw [ZipFile.openMember_stored,hno]
      exact .none
    | some name =>
      obtain ⟨next,k,ho,hnx,hpl,hk⟩ := hs.openMember hn time.1 time.2
      rw [ho]
      exact .some ⟨⟨hnx,fun h h' hp => hk h' h hp⟩,hpl⟩
  write volume catalog k name data hs hpl := by
    obtain ⟨s,e,-,he,-⟩ := hs.entry hpl
    simp only [ZipFile.memberOps,Catalog.memberOps,he,bind_some]
    exact rel_map_right (hs.write hpl he data) fun next e' _ h =>
      ⟨h.1,fun j other hp => h.2 other j hp⟩
  close volume catalog k name hs hpl := by
    obtain ⟨s,e,-,he,-⟩ := hs.entry hpl
    simp only [ZipFile.memberOps,Catalog.memberOps,he,bind_some]
    exact rel_map_right (hs.close hpl he) fun next e' _ h =>
      ⟨h.1,fun j other hp => h.2 other j hp⟩

/-- Two catalogs that agree on the names in `names`, the first of which has everything else
from a third. -/
def Catalog.Agree (names : Bytes → Prop) (base catalog other : Catalog σ) : Prop :=
  (∀ name, names name → catalog name = other name) ∧ ∀ name, ¬ names name → catalog name = base name

variable {names : Bytes → Prop} {base catalog other : Catalog σ}
  (h : Catalog.Agree names base catalog other)

include h in
lemma Catalog.Agree.update {name : Bytes} (hn : names name) (e : Option (Entry σ)) :
    Catalog.Agree names base (update catalog name e) (update other name e) := by
  refine ⟨fun x hx => ?_,fun x hx => ?_⟩
  · rw [update_apply,update_apply,h.1 x hx]
  · have hne : x ≠ name := fun heq => hx (heq ▸ hn)
    rw [update_of_ne hne,h.2 x hx]

include h in
lemma Catalog.Agree.change {name : Bytes} (hn : names name) (x : Option (Entry σ)) :
    Option.Rel (fun next next' => Catalog.Agree names base next next' ∧
        ∀ g g', g = g' ∧ names g → g = g' ∧ names g)
      (x.map fun e => Function.update catalog name (some e))
      (x.map fun e => Function.update other name (some e)) := by
  cases x with
  | none => exact .none
  | some e => exact .some ⟨h.update hn _,fun _ _ hp => hp⟩

lemma Catalog.memberOps_local (zlib : Zlib σ) (container : RDFURN) (names : Bytes → Prop)
    (base : Catalog σ) :
    (Catalog.memberOps zlib container).Simulates (Catalog.memberOps zlib container)
      (fun urn => ∀ name, segmentName urn container = some name → names name)
      (Catalog.Agree names base) (fun _ name name' => name = name' ∧ names name) where
  openMember catalog other urn time time' hs hu := by
    simp only [Catalog.memberOps]
    cases hn : segmentName urn container with
    | none => exact .none
    | some name =>
      have hm := hu name hn
      rw [map_some,map_some,hs.1 name hm]
      exact .some ⟨⟨hs.update hm _,fun _ _ h => h⟩,rfl,hm⟩
  write catalog other name name' data hs hp := by
    obtain ⟨rfl,hm⟩ := hp
    simp only [Catalog.memberOps,hs.1 name hm]
    exact hs.change hm _
  close catalog other name name' hs hp := by
    obtain ⟨rfl,hm⟩ := hp
    simp only [Catalog.memberOps,hs.1 name hm]
    exact hs.change hm _

end

/-! A member that two workers shared would be closed twice, which has no result. So workers that
all come to their end wrote to different members. -/

section

variable {zlib : Zlib σ} {container : RDFURN} {catalog next last : Catalog σ} {name : Bytes}

namespace ZipSegment

variable {e e' : Entry σ}

variable {data : Bytes}

lemma Entry.write_keeps (h : e.write zlib data = some e') : e'.segment.mode = e.segment.mode ∧
      (e.segment.buffer = none → e'.segment.buffer = none) := by
  obtain ⟨⟨n,s⟩,hw,rfl⟩ := map_eq_some_iff.mp h
  exact ⟨(ZipSegment.write_keeps hw).2.2.1,fun hb => write_closed hb hw ▸ hb⟩

lemma Entry.close_cases (h : e.close zlib container = some e') :
    e'.segment.mode = e.segment.mode ∧ (e.segment.mode = .r ∧ e' = e ∨
      e.segment.buffer ≠ none ∧ e'.segment.buffer = none) := by
  rw [Entry.close] at h
  split at h
  · next hr =>
    cases h
    exact ⟨rfl,.inl ⟨hr,rfl⟩⟩
  · obtain ⟨⟨payload,name⟩,hc,rfl⟩ := map_eq_some_iff.mp h
    refine ⟨rfl,.inr ⟨fun hn => ?_,rfl⟩⟩
    simp [closing,hn] at hc

/-- Entries keep their mode, closed entries stay closed, and new entries are for writing. -/
structure Catalog.Follows (catalog next : Catalog σ) : Prop where
  kept : ∀ name e, catalog name = some e → ∃ e', next name = some e' ∧
    e'.segment.mode = e.segment.mode ∧ (e.segment.buffer = none → e'.segment.buffer = none)
  fresh : ∀ name e, next name = some e → e.segment.mode = .r →
    ∃ e₀, catalog name = some e₀ ∧ e₀.segment.mode = .r

lemma Catalog.Follows.refl (catalog : Catalog σ) : catalog.Follows catalog :=
  ⟨fun _ e h => ⟨e,h,rfl,fun hb => hb⟩,fun _ e h hr => ⟨e,h,hr⟩⟩

lemma Catalog.Follows.trans (h : catalog.Follows next) (h' : next.Follows last) :
    catalog.Follows last := by
  refine ⟨fun name e he => ?_,fun name e he hr => ?_⟩
  · obtain ⟨e₁,he₁,hm,hb⟩ := h.kept name e he
    obtain ⟨e₂,he₂,hm',hb'⟩ := h'.kept name e₁ he₁
    exact ⟨e₂,he₂,hm'.trans hm,fun hn => hb' (hb hn)⟩
  · obtain ⟨e₁,he₁,hr₁⟩ := h'.fresh name e he hr
    exact h.fresh name e₁ he₁ hr₁

lemma Catalog.Follows.update (he : catalog name = some e)
    (hm : e'.segment.mode = e.segment.mode)
    (hb : e.segment.buffer = none → e'.segment.buffer = none) :
    catalog.Follows (update catalog name (some e')) := by
  refine ⟨fun other x hx => ?_,fun other x hx hr => ?_⟩
  · by_cases ho : other = name
    · subst ho
      obtain rfl := some.inj (he.symm.trans hx)
      exact ⟨e',update_self ..,hm,hb⟩
    · exact ⟨x,by rw [update_of_ne ho,hx],rfl,fun h => h⟩
  · by_cases ho : other = name
    · subst ho
      rw [update_self] at hx
      cases hx
      exact ⟨e,he,hm.symm.trans hr⟩
    · rw [update_of_ne ho] at hx
      exact ⟨x,hx,hr⟩

lemma Catalog.openMember_follows {urn : RDFURN} {time : UInt16 × UInt16}
    (h : (memberOps zlib container).openMember catalog urn time = some (next,name)) :
    segmentName urn container = some name ∧ catalog.Follows next := by
  obtain ⟨name,hn,heq⟩ := map_eq_some_iff.mp h
  cases heq
  refine ⟨hn,?_⟩
  cases he : catalog name with
  | some e => exact .update he rfl fun hno => hno
  | none =>
    refine ⟨fun other x hx => ?_,fun other x hx hr => ?_⟩
    · have hne : other ≠ name := by
        rintro rfl
        rw [he] at hx
        cases hx
      exact ⟨x,by rw [update_of_ne hne,hx],rfl,fun h => h⟩
    · by_cases ho : other = name
      · subst ho
        rw [update_self] at hx
        cases hx
        cases hr
      · rw [update_of_ne ho] at hx
        exact ⟨x,hx,hr⟩

lemma Catalog.write_follows (h : (memberOps zlib container).write catalog name data = some next) :
    catalog.Follows next := by
  obtain ⟨e',he',rfl⟩ := map_eq_some_iff.mp h
  obtain ⟨e,he,hw⟩ := bind_eq_some_iff.mp he'
  exact .update he (Entry.write_keeps hw).1 (Entry.write_keeps hw).2

/-- The member was not closed before, and it is closed now, if it is not a loaded one. -/
def Catalog.Sealed (catalog next : Catalog σ) (name : Bytes) : Prop :=
  (∀ e, catalog name = some e → e.segment.mode = .r ∨ e.segment.buffer ≠ none) ∧
    ∃ e, next name = some e ∧ (e.segment.mode = .r ∨ e.segment.buffer = none)

lemma Catalog.close_follows (h : (memberOps zlib container).close catalog name = some next) :
    catalog.Follows next ∧ catalog.Sealed next name := by
  obtain ⟨e',he',rfl⟩ := map_eq_some_iff.mp h
  obtain ⟨e,he,hc⟩ := bind_eq_some_iff.mp he'
  obtain ⟨hm,hcs⟩ := Entry.close_cases hc
  refine ⟨.update he hm fun hn => ?_,fun x hx => ?_,e',update_self ..,?_⟩
  · rcases hcs with ⟨-,rfl⟩ | ⟨-,hn'⟩
    · exact hn
    · exact hn'
  · obtain rfl := some.inj (he.symm.trans hx)
    exact hcs.imp (fun h => h.1) (fun h => h.1)
  · exact hcs.imp (fun h => hm.trans h.1) (fun h => h.2)

lemma Catalog.Sealed.mono {catalog' next' : Catalog σ}
    (h : catalog'.Sealed next' name) (hbf : catalog.Follows catalog')
    (ha : next'.Follows next) : catalog.Sealed next name := by
  refine ⟨fun e he => ?_,?_⟩
  · obtain ⟨e',he',hm,hb⟩ := hbf.kept name e he
    exact (h.1 e' he').imp (fun hr => hm.symm.trans hr) fun hne hn => hne (hb hn)
  · obtain ⟨e,he,hs⟩ := h.2
    obtain ⟨e',he',hm,hb⟩ := ha.kept name e he
    exact ⟨e',he',hs.imp (fun hr => hm.trans hr) hb⟩

end ZipSegment

def ImageParameters.MemberName (image : ImageParameters) (container : RDFURN) (k : Nat)
    (name : Bytes) : Prop :=
  ∃ urn, image.IsMember k urn ∧ segmentName urn container = some name

def Stage.Named (image : ImageParameters) (container : RDFURN) (k : Nat) : Stage Bytes → Prop
  | .compressing segment index _ _ => segmentName (image.bevyUrn k) container = some segment ∧
      segmentName (image.indexUrn k) container = some index
  | _ => True

variable {image : ImageParameters} {job : ImageWorker} {stage : Stage Bytes}

lemma ImageWorker.advance_follows {segment index : Bytes} {chunkOffset : Nat}
    {compressedOffset : UInt32}
    (hsg : segmentName (image.bevyUrn job.segmentCount) container = some segment)
    (hi : segmentName (image.indexUrn job.segmentCount) container = some index)
    (h : job.advance (Catalog.memberOps zlib container) catalog segment index chunkOffset
      compressedOffset = some (next,stage)) :
    stage.Named image container job.segmentCount ∧ catalog.Follows next ∧
      (stage = .finished → ∀ name, image.MemberName container job.segmentCount name →
        catalog.Sealed next name) := by
  rw [advance] at h
  split at h
  · cases h
    exact ⟨⟨hsg,hi⟩,.refl _,fun hst => (by cases hst)⟩
  · obtain ⟨closed,hc,h⟩ := bind_eq_some_iff.mp h
    obtain ⟨closed',hc',h⟩ := bind_eq_some_iff.mp h
    cases h
    obtain ⟨hf,hs⟩ := Catalog.close_follows hc
    obtain ⟨hf',hs'⟩ := Catalog.close_follows hc'
    refine ⟨trivial,hf.trans hf',fun _ name ⟨urn,hu,hn⟩ => ?_⟩
    rcases hu with rfl | rfl
    · obtain rfl := some.inj (hsg.symm.trans hn)
      exact hs.mono (.refl _) hf'
    · obtain rfl := some.inj (hi.symm.trans hn)
      exact hs'.mono hf (.refl _)

lemma ImageWorker.resume_follows {chunks : ChunkZlib} {times : Times} {stage' : Stage Bytes}
    (hp : ∀ data, image.packed chunks data ≠ none)
    (hst : stage.Named image container job.segmentCount)
    (h : job.resume (Catalog.memberOps zlib container) chunks image times catalog stage =
      some (next,stage')) : stage'.Named image container job.segmentCount ∧ catalog.Follows next ∧
      (stage' = .finished → ∀ name, image.MemberName container job.segmentCount name →
        catalog.Sealed next name) := by
  cases stage with
  | ready =>
    obtain ⟨⟨opened,segment⟩,ho,h⟩ := bind_eq_some_iff.mp h
    obtain ⟨⟨opened',index⟩,ho',h⟩ := bind_eq_some_iff.mp h
    obtain ⟨hsg,hf⟩ := Catalog.openMember_follows ho
    obtain ⟨hi,hf'⟩ := Catalog.openMember_follows ho'
    obtain ⟨hn,hl,hs⟩ := advance_follows hsg hi h
    have hb := hf.trans hf'
    exact ⟨hn,hb.trans hl,fun hfn name hnm =>
      (hs hfn name hnm).mono hb (.refl _)⟩
  | compressing segment index chunkOffset compressedOffset =>
    rw [resume] at h
    split at h
    · next hno => exact absurd hno (hp _)
    · obtain ⟨written,hw,h⟩ := bind_eq_some_iff.mp h
      obtain ⟨written',hw',h⟩ := bind_eq_some_iff.mp h
      obtain ⟨hn,hl,hs⟩ := advance_follows hst.1 hst.2 h
      have hb := (Catalog.write_follows hw).trans (Catalog.write_follows hw')
      exact ⟨hn,hb.trans hl,fun hfn name hnm =>
        (hs hfn name hnm).mono hb (.refl _)⟩
  | finished => cases h

end

namespace Workers

variable {zlib : Zlib σ} {chunks : ChunkZlib} {image : ImageParameters}
  {container : RDFURN} {job : ι → ImageWorker}

structure Orderly (image : ImageParameters) (container : RDFURN) (job : ι → ImageWorker)
    (s : Workers (Catalog σ) Bytes ι) : Prop where
  short : ∀ name e, s.volume name = some e → e.segment.mode = .r → name.length ≤ buffSize-10
  named : ∀ i, (s.stage i).Named image container (job i).segmentCount
  settled : ∀ i, s.stage i = .finished →
    ∀ name, image.MemberName container (job i).segmentCount name →
      ∃ e, s.volume name = some e ∧ (e.segment.mode = .r ∨ e.segment.buffer = none)
  apart : ∀ i j, i ≠ j → s.stage i = .finished → s.stage j = .finished →
    ∀ name, image.MemberName container (job i).segmentCount name →
      image.MemberName container (job j).segmentCount name → name.length ≤ buffSize-10

lemma Orderly.step [DecidableEq ι] (hp : ∀ data, image.packed chunks data ≠ none)
    {s t : Workers (Catalog σ) Bytes ι} {e : ι × Times} (hs : Orderly image container job s)
    (h : Workers.step (Catalog.memberOps zlib container) chunks image job s e = some t) :
    Orderly image container job t := by
  obtain ⟨⟨next,stage⟩,hrs,rfl⟩ := map_eq_some_iff.mp h
  obtain ⟨k,times⟩ := e
  obtain ⟨hnm,hf,hsl⟩ := ImageWorker.resume_follows hp (hs.named k) hrs
  -- the worker that just finished shares no closed member with one that finished before
  have hnw : ∀ j, j ≠ k → s.stage j = .finished → stage = .finished →
      ∀ name, image.MemberName container (job j).segmentCount name →
        image.MemberName container (job k).segmentCount name → name.length ≤ buffSize-10 := by
    intro j hjk hj hk name hn hn'
    obtain ⟨x,hx,hc⟩ := hs.settled j hj name hn
    rcases hc with hr | hno
    · exact hs.short name x hx hr
    · rcases (hsl hk name hn').1 x hx with hr | hne
      · exact hs.short name x hx hr
      · exact absurd hno hne
  refine ⟨fun name x hx hr => ?_,fun i => ?_,fun i hi name hn => ?_,?_⟩
  · obtain ⟨x₀,hx₀,hr₀⟩ := hf.fresh name x hx hr
    exact hs.short name x₀ hx₀ hr₀
  · by_cases hik : i = k
    · subst hik
      simpa using hnm
    · simpa [hik] using hs.named i
  · by_cases hik : i = k
    · subst hik
      exact (hsl (by simpa using hi) name hn).2
    · obtain ⟨x,hx,hc⟩ := hs.settled i (by simpa [hik] using hi) name hn
      obtain ⟨x',hx',hm,hb⟩ := hf.kept name x hx
      exact ⟨x',hx',hc.imp (fun hr => hm.trans hr) hb⟩
  · intro i j hij hi hj name hn hn'
    by_cases hik : i = k
    · subst hik
      have hji : j ≠ i := fun h => hij h.symm
      exact hnw j hji (by simpa [hji] using hj) (by simpa using hi) name hn' hn
    · by_cases hjk : j = k
      · subst hjk
        exact hnw i hik (by simpa [hik] using hi) (by simpa using hj) name hn hn'
      · exact hs.apart i j hij (by simpa [hik] using hi) (by simpa [hjk] using hj) name hn hn'

structure Shows (zlib : Zlib σ) (container : RDFURN) (s : Workers (ZipFile σ) Nat ι)
    (t : Workers (Catalog σ) Bytes ι) : Prop where
  volume : s.volume.Catalogued zlib container t.volume
  stage : ∀ i, Stage.Rel (fun k name => s.volume.place name = some k) (s.stage i) (t.stage i)

variable {t : Workers (Catalog σ) Bytes ι} {s : Workers (ZipFile σ) Nat ι}

lemma Shows.step [DecidableEq ι]
    (hs : s.Shows zlib container t) (chunks : ChunkZlib) (image : ImageParameters)
    (job : ι → ImageWorker) (e : ι × Times) : Option.Rel (Shows zlib container)
      (Workers.step (ZipFile.memberOps zlib) chunks image job s e)
      (Workers.step (Catalog.memberOps zlib container) chunks image job t e) := by
  refine rel_map ((ZipFile.memberOps_simulates zlib container).resume chunks image (job e.1)
    (fun _ _ => trivial) e.2 e.2 hs.volume (hs.stage e.1)) fun r r' _ h => ?_
  obtain ⟨⟨hv,hk⟩,hst⟩ := h
  refine ⟨hv,fun i => ?_⟩
  by_cases hi : i = e.1
  · subst hi
    simpa using hst
  · simpa [hi] using (hs.stage i).mono hk

lemma Shows.finished (hs : s.Shows zlib container t) : s.Finished ↔ t.Finished := by
  refine forall_congr' fun i => ?_
  have h := hs.stage i
  generalize s.stage i = x at h ⊢
  generalize t.stage i = y at h ⊢
  cases h <;> simp

lemma Shows.contents_eq (hs : s.Shows zlib container t)
    (hsz : s.volume.backingStore.data.length < 2^64) (name : Bytes) :
    s.volume.contents zlib name = (t.volume name).bind fun e => e.content := by
  have h := hs.volume.entries name
  rw [ZipFile.contents]
  generalize s.volume.named name = x at h ⊢
  generalize t.volume name = y at h ⊢
  cases h with
  | none => rfl
  | some h => exact h.stored_eq hsz

def alone (zlib : Zlib σ) (chunks : ChunkZlib) (image : ImageParameters)
    (container : RDFURN) (job : ι → ImageWorker) (i : ι) (state : Catalog σ × Stage Bytes) :
    Option (Catalog σ × Stage Bytes) :=
  (job i).resume (Catalog.memberOps zlib container) chunks image ((0,0),(0,0)) state.1 state.2

/-- Every worker finds its members as it left them, and the rest is as it was. -/
structure Split (image : ImageParameters) (container : RDFURN) (job : ι → ImageWorker)
    (base : Catalog σ) (s : Workers (Catalog σ) Bytes ι) (states : ι → Catalog σ × Stage Bytes) :
    Prop where
  own : ∀ i name, image.MemberName container (job i).segmentCount name →
    s.volume name = (states i).1 name
  stage : ∀ i, Stage.Rel (fun name name' => name = name' ∧
    image.MemberName container (job i).segmentCount name) (s.stage i) (states i).2
  others : ∀ name, (∀ i, ¬ image.MemberName container (job i).segmentCount name) →
    s.volume name = base name

variable {states : ι → Catalog σ × Stage Bytes}

lemma Split.step [DecidableEq ι] {base : Catalog σ} {s : Workers (Catalog σ) Bytes ι}
    (hs : s.Split image container job base states) (zlib : Zlib σ) (chunks : ChunkZlib)
    (hap : ∀ i j, i ≠ j → ∀ name, image.MemberName container (job i).segmentCount name →
      ¬ image.MemberName container (job j).segmentCount name) (e : ι × Times) :
    Option.Rel (Split image container job base)
      (Workers.step (Catalog.memberOps zlib container) chunks image job s e)
      (turn (alone zlib chunks image container job) states e.1) := by
  have ha : Catalog.Agree (image.MemberName container (job e.1).segmentCount) s.volume
      s.volume (states e.1).1 := ⟨hs.own e.1,fun _ _ => rfl⟩
  refine rel_map ((Catalog.memberOps_local zlib container _ s.volume).resume chunks image
    (job e.1) (fun urn hu name hn => ⟨urn,hu,hn⟩) e.2 ((0,0),(0,0)) ha
    (hs.stage e.1)) fun r r' _ h => ?_
  obtain ⟨⟨⟨hown,ho⟩,-⟩,hst⟩ := h
  refine ⟨fun i name hn => ?_,fun i => ?_,fun name hn => ?_⟩
  · by_cases hi : i = e.1
    · subst hi
      rw [update_self]
      exact hown name hn
    · rw [update_of_ne hi,← hs.own i name hn]
      exact ho name (hap i e.1 hi name hn)
  · by_cases hi : i = e.1
    · subst hi
      simpa using hst
    · simpa [hi] using hs.stage i
  · rw [← hs.others name hn]
    exact ho name (hn e.1)

lemma Split.eq {base : Catalog σ} {s t : Workers (Catalog σ) Bytes ι}
    (hs : s.Split image container job base states) (ht : t.Split image container job base states) :
    s.volume = t.volume ∧ (s.Finished ↔ t.Finished) := by
  refine ⟨funext fun name => ?_,forall_congr' fun i => ?_⟩
  · by_cases hn : ∃ i, image.MemberName container (job i).segmentCount name
    · obtain ⟨i,hi⟩ := hn
      rw [hs.own i name hi,ht.own i name hi]
    · have hno : ∀ i, ¬ image.MemberName container (job i).segmentCount name :=
        fun i hi => hn ⟨i,hi⟩
      rw [hs.others name hno,ht.others name hno]
  · have h := hs.stage i
    have h' := ht.stage i
    generalize s.stage i = x at h ⊢
    generalize t.stage i = y at h' ⊢
    generalize (states i).2 = z at h h'
    cases h <;> cases h' <;> simp

end Workers

namespace ZipFile

/-- A volume that is open for writing and whose closed members stand in its file. A name from the
directory was unescaped into a buffer. -/
structure Kept (zlib : Zlib σ) (volume : ZipFile σ) : Prop where
  mode : volume.mode = .w
  sound : ∀ s ∈ volume.members, s.Sound zlib volume.urn
  records : ∀ name s, volume.named name = some s → s.buffer = none →
    ∃ record, s.StandsIn record volume.backingStore.data ∧ Whole s.cd record
  short : ∀ name s, volume.named name = some s → s.mode = .r → name.length ≤ buffSize-10

variable {zlib : Zlib σ} {volume : ZipFile σ} (h : volume.Kept zlib)

include h

lemma Kept.catalogued : ∃ catalog, volume.Catalogued zlib volume.urn catalog := by
  have he : ∀ name, ∃ x, Option.Rel (ZipSegment.Shows zlib volume.backingStore.data)
      (volume.named name) x := by
    intro name
    cases hn : volume.named name with
    | none => exact ⟨none,.none⟩
    | some s =>
      by_cases hb : s.buffer = none
      · obtain ⟨record,hs,hw⟩ := h.records name s hn hb
        exact ⟨some ⟨s.erased,some (content zlib s.cd record)⟩,.some
          ⟨rfl,fun _ => ⟨record,hs,hw,rfl⟩,fun hne => absurd hb hne⟩⟩
      · exact ⟨some ⟨s.erased,none⟩,.some
          ⟨rfl,fun hno => absurd hno hb,fun _ => rfl⟩⟩
  obtain ⟨catalog,hc⟩ := Classical.axiomOfChoice he
  exact ⟨catalog,rfl,h.mode,h.sound,hc⟩

lemma Kept.short_entry {catalog : Catalog σ}
    (hc : volume.Catalogued zlib volume.urn catalog) (name : Bytes) (e : Entry σ)
    (he : catalog name = some e) (hr : e.segment.mode = .r) : name.length ≤ buffSize-10 := by
  have hen := hc.entries name
  rw [he] at hen
  cases hn : volume.named name with
  | none =>
    rw [hn] at hen
    cases hen
  | some s =>
    rw [hn] at hen
    have hs := rel_some_some.mp hen
    rw [hs.segment] at hr
    exact h.short name s hn hr

end ZipFile

namespace Workers

variable {zlib : Zlib σ} {chunks : ChunkZlib} {image : ImageParameters}
  {job : ι → ImageWorker} {volume : ZipFile σ} {catalog : Catalog σ}

lemma run_shows [DecidableEq ι] (hc : volume.Catalogued zlib volume.urn catalog)
    (es : List (ι × Times)) : Option.Rel (Shows zlib volume.urn)
      (run (step (ZipFile.memberOps zlib) chunks image job) (start volume) es)
      (run (step (Catalog.memberOps zlib volume.urn) chunks image job) (start catalog) es) := by
  have hst : (start volume : Workers (ZipFile σ) Nat ι).Shows zlib volume.urn
      (start catalog) := ⟨hc,fun _ => .ready⟩
  have h := run_rel (f := id) (fun s t e hs => hs.step chunks image job e) hst es
  rwa [List.map_id] at h

lemma Orderly.apart_of_finished {container : RDFURN} {s : Workers (Catalog σ) Bytes ι}
    (hs : Orderly image container job s) (hf : s.Finished)
    (hnm : ∀ i, (job i).segmentCount < 2^32)
    (hd : ∀ i j, (job i).segmentCount = (job j).segmentCount → i = j) :
    ∀ i j, i ≠ j → ∀ name, image.MemberName container (job i).segmentCount name →
      ¬ image.MemberName container (job j).segmentCount name := by
  intro i j hij name hn hn'
  have hsh := hs.apart i j hij (hf i) (hf j) name hn hn'
  obtain ⟨u,hu,hsg⟩ := hn
  obtain ⟨w,hw,hsg'⟩ := hn'
  have hl := hu.segmentName_apart hw (hnm i) (hnm j)
    (fun h => hij (hd i j h)) hsg hsg'
  rw [buffSize] at hsh hl
  omega

/-- Workers with different numbers at one volume, and two orders in which they get the lock. If all
come to their end in one order, they do in the other, and the volume has the same content under
every name. -/
theorem run_contents_eq [DecidableEq ι] (hn : ∀ i, (job i).segmentCount < 2^32)
    (hd : ∀ i j, (job i).segmentCount = (job j).segmentCount → i = j)
    (hcm : ∀ data, (chunks.compress2 data).isSome) (hv : volume.Kept zlib)
    {es fs : List (ι × Times)} (hpr : (es.map Prod.fst).Perm (fs.map Prod.fst))
    {t : Workers (ZipFile σ) Nat ι}
    (ht : run (step (ZipFile.memberOps zlib) chunks image job) (start volume) es = some t)
    (hf : t.Finished) (hsz : t.volume.backingStore.data.length < 2^64) :
    ∃ u, run (step (ZipFile.memberOps zlib) chunks image job) (start volume) fs = some u ∧
      u.Finished ∧ (u.volume.backingStore.data.length < 2^64 →
        ∀ name, u.volume.contents zlib name = t.volume.contents zlib name) := by
  have hp : ∀ data, image.packed chunks data ≠ none := by
    intro data
    rw [ImageParameters.packed]
    split
    · simp
    · exact isSome_iff_ne_none.mp (hcm data)
  obtain ⟨catalog,hc⟩ := hv.catalogued
  obtain ⟨t',hr,hsh⟩ := rel_some_left (ht ▸ run_shows hc es)
  have ho : Orderly image volume.urn job t' := run_invariant
    (fun s e t hs h => hs.step hp h) hr
    ⟨hv.short_entry hc,fun _ => trivial,fun _ h => (by cases h), fun _ _ _ h => (by cases h)⟩
  have hdn := hsh.finished.mp hf
  have ha := Orderly.apart_of_finished ho hdn hn hd
  have hsp : (start catalog : Workers (Catalog σ) Bytes ι).Split image volume.urn job catalog
      fun _ => (catalog,.ready) := ⟨fun _ _ _ => rfl,fun _ => .ready,fun _ _ => rfl⟩
  have hb := run_interleaved (f := Prod.fst)
    (fun s states e hs => hs.step zlib chunks ha e) hsp hpr
  obtain ⟨u',hr',states,hst,hst'⟩ := rel_some_left (hr ▸ hb)
  obtain ⟨hvl,hfn⟩ := hst.eq hst'
  obtain ⟨u,hu,hsh'⟩ := rel_some_right (hr' ▸ run_shows hc fs)
  refine ⟨u,hu,hsh'.finished.mpr (hfn.mp hdn),fun hsz' name => ?_⟩
  rw [hsh'.contents_eq hsz',hsh.contents_eq hsz,hvl]

def twoImage : ImageParameters := ⟨.set (fqn ++ chars ['v','/','i']),1,8,2,2⟩

def twoJobs (i : Bool) : ImageWorker :=
  ⟨i.toNat,{ StringIO.con with data := if i then chars ['a','b'] else chars ['c','d']}⟩

def taking (order : List Bool) : List (Bool × Times) := order.map fun i => (i,(0,0),(0,0))

def twoRun (order : List Bool) : Option (Workers (ZipFile Unit) Nat Bool) :=
  run (step (ZipFile.memberOps ZipFile.plainZlib) plainChunkZlib twoImage twoJobs)
    (start ZipFile.newVolume) (taking order)

lemma newVolume_kept : ZipFile.newVolume.Kept ZipFile.plainZlib :=
  ⟨rfl,fun _ h => (by cases h),fun _ _ h => (by cases h),fun _ _ h => (by cases h)⟩

theorem two_workers : ∃ t u, twoRun [true,false,true,false,false,true] = some t ∧
    twoRun [false,false,false,true,true,true] = some u ∧ u.Finished ∧
    (u.volume.backingStore.data.length < 2^64 → ∀ name,
      u.volume.contents ZipFile.plainZlib name = t.volume.contents ZipFile.plainZlib name) := by
  have hch : (twoRun [true,false,true,false,false,true]).map (fun t =>
      (t.stage false,t.stage true,decide (t.volume.backingStore.data.length < 2^64))) =
      some (.finished,.finished,true) := by decide +kernel
  obtain ⟨t,ht,heq⟩ := map_eq_some_iff.mp hch
  obtain ⟨hfl,htr,hs⟩ : t.stage false = .finished ∧ t.stage true = .finished ∧
      decide (t.volume.backingStore.data.length < 2^64) = true := by simpa using heq
  have hf : t.Finished
    | false => hfl
    | true => htr
  have hn : ∀ i, (twoJobs i).segmentCount < 2^32 := by decide
  have hd : ∀ i j, (twoJobs i).segmentCount = (twoJobs j).segmentCount → i = j := by decide
  have hp : ((taking [true,false,true,false,false,true]).map Prod.fst).Perm
      ((taking [false,false,false,true,true,true]).map Prod.fst) := by decide
  obtain ⟨u,hu,hdn,hc⟩ := run_contents_eq hn hd (fun _ => rfl)
    newVolume_kept hp ht hf (of_decide_eq_true hs)
  exact ⟨t,u,ht,hu,hdn,hc⟩

end Workers

end Aff4
