import Mathlib.Data.List.ReduceOption
import Aff4.Lib.Transition
import Aff4.ZipSegment
import Aff4.ZipVolume

/-! A volume in use: members are opened, written and closed in any order, the volume is
closed, and the file is opened again. -/

namespace Aff4.ZipFile

open LittleEndian Search Transition List Option ZipSegment

variable {σ : Type}

/-- `ZipFile_open_member`: the volume afterwards and the place of the segment in its list,
or NULL. -/
def openMember (zlib : Zlib σ) (self : ZipFile σ) (member : RDFURN) (mode : Mode)
    (compressionMethod : Nat) (dosdate dostime : UInt16) : Option (ZipFile σ × Option Nat) :=
  (segmentName member self.urn).map fun filename =>
    match self.members.findIdx? fun s => cstring s.filename = filename with
    | some k => (self,some k)
    | none =>
      if mode = .w then
        let segment : ZipSegment σ :=
          {ZipSegment.con (some member) mode dosdate dostime with filename := zstring filename}
        match segment.finish zlib compressionMethod with
        | none => (self,none)
        | some segment =>
          ({self with members := self.members ++ [segment]},some self.members.length)
      else (self,none)

/-- The calls on a volume and on its segments, which are named by their place in its list. -/
inductive Op where
  | openMember (member : RDFURN) (mode : Mode) (compressionMethod : Nat) (dosdate dostime : UInt16)
  | write (k : Nat) (data : Bytes)
  | close (k : Nat)

/-- `Resolver_own`: a volume is in the cache of the mode it was opened in. -/
def own (self : ZipFile σ) (mode : Mode) : Option FileBackedObject :=
  if self.mode = mode then some self.backingStore else none

/-- `ZipSegment_close`, which fails unless it owns its volume for writing. -/
def closeMember (zlib : Zlib σ) (self : ZipFile σ) (s : ZipSegment σ) :
    Option (FileBackedObject × ZipSegment σ) :=
  match self.own .w with
  | none => some (self.backingStore,s)
  | some fd => s.close zlib self.urn fd

def step (zlib : Zlib σ) (self : ZipFile σ) : Op → Option (ZipFile σ)
  | .openMember member mode compressionMethod dosdate dostime =>
    (self.openMember zlib member mode compressionMethod dosdate dostime).map Prod.fst
  | .write k data =>
    self.members[k]?.bind fun s => (s.write zlib data).map fun r =>
      {self with members := self.members.set k r.2}
  | .close k =>
    self.members[k]?.bind fun s => (self.closeMember zlib s).map fun r =>
      {self with members := self.members.set k r.2, backingStore := r.1}

/-- `ZipSegment_read` of a member: the bytes, or -1, and the volume afterwards. -/
def readSegment (zlib : Zlib σ) (junk : Junk) (self : ZipFile σ) (k : Nat) (length : UInt32) :
    Option (Option Bytes × ZipFile σ) :=
  self.members[k]?.bind fun s => (s.readCall zlib junk (self.own .r) length).map fun r =>
    (r.1,{self with members := self.members.set k r.2})

def readMember (zlib : Zlib σ) (junk : Junk) (self : ZipFile σ) (k : Nat) (length : UInt32) :
    Option (Option Bytes) :=
  (self.readSegment zlib junk k length).map Prod.fst

variable {t next : ZipFile σ} {method : Nat} {dosdate dostime : UInt16}

lemma closeMember_eq (hw : t.mode = .w) (zlib : Zlib σ) (s : ZipSegment σ) :
    t.closeMember zlib s = s.close zlib t.urn t.backingStore := by
  rw [closeMember,own,if_pos hw]

lemma closeMember_cases {zlib : Zlib σ} {s s' : ZipSegment σ}
    {fd : FileBackedObject} (h : t.closeMember zlib s = some (fd,s')) :
    fd = t.backingStore ∧ s' = s ∨ s.close zlib t.urn t.backingStore = some (fd,s') := by
  by_cases hw : t.mode = .w
  · exact .inr (closeMember_eq hw zlib s ▸ h)
  · rw [closeMember,own,if_neg hw] at h
    cases h
    exact .inl ⟨rfl,rfl⟩

def Op.inputs (k : Nat) : Op → List Bytes
  | .write j data => if j = k ∧ data ≠ [] then [data] else []
  | _ => []

/-- Member `k` was created in a session, some inputs were written to it, and it was closed. -/
def Created (zlib : Zlib σ) (start : ZipFile σ) (ops : List Op) (k : Nat) (member : RDFURN)
    (inputs : List Bytes) : Prop :=
  ∃ before during after method dosdate dostime self self',
    ops = before ++ .openMember member .w method dosdate dostime :: (during ++ .close k :: after) ∧
    run (step zlib) start before = some self ∧
    self.openMember zlib member .w method dosdate dostime = some (self',some k) ∧
    k = self.members.length ∧ .close k ∉ during ∧ inputs = during.flatMap (Op.inputs k)

def Op.touches (k : Nat) : Op → Bool
  | .openMember .. => false
  | .write j _ => j = k
  | .close j => j = k

structure Preserved (volume next : ZipFile σ) (op : Op) : Prop where
  urn : next.urn = volume.urn
  mode : next.mode = volume.mode
  data : ∃ more, next.backingStore.data = volume.backingStore.data ++ more
  members : ∀ (k : Nat) (s : ZipSegment σ), op.touches k = false → volume.members[k]? = some s →
    next.members[k]? = some s

lemma openMember_cases {zlib : Zlib σ} {member : RDFURN} {mode : Mode} {result : Option Nat}
    (h : t.openMember zlib member mode method dosdate dostime = some (next,result)) :
    (next = t ∧ ∀ k ∈ result, k < t.members.length) ∨
    ∃ (segment segment' : ZipSegment σ) (filename : Bytes),
      mode = .w ∧ result = some t.members.length ∧
      segment = {con (some member) mode dosdate dostime with
        filename := zstring filename} ∧
      segment.finish zlib method = some segment' ∧
      next = {t with members := t.members ++ [segment']} := by
  obtain ⟨filename,-,h⟩ := map_eq_some_iff.mp h
  split at h
  · next k hk =>
    cases h
    refine .inl ⟨rfl,fun j hj => ?_⟩
    cases hj
    exact (findIdx?_eq_some_iff_getElem.mp hk).1
  · split at h
    · next hw =>
      simp only at h
      split at h
      · cases h
        exact .inl ⟨rfl,fun j hj => by cases hj⟩
      · next segment' hf =>
        cases h
        exact .inr ⟨_,segment',filename,hw,rfl,rfl,hf,rfl⟩
    · cases h
      exact .inl ⟨rfl,fun j hj => by cases hj⟩

lemma step_preserved {zlib : Zlib σ} {u : ZipFile σ} {op : Op}
    (h : u.step zlib op = some next) : Preserved u next op := by
  cases op with
  | openMember member mode method dosdate dostime =>
    obtain ⟨⟨next',result⟩,ho,rfl⟩ := Option.map_eq_some_iff.mp h
    obtain ⟨rfl,-⟩ | ⟨_,segment,_,-,-,-,-,rfl⟩ := openMember_cases ho
    · exact ⟨rfl,rfl,⟨[],by simp⟩,fun _ _ _ hs => hs⟩
    · refine ⟨rfl,rfl,⟨[],by simp⟩,fun k s _ hs => ?_⟩
      exact (List.getElem?_append_left (List.getElem?_eq_some_iff.mp hs).1).trans hs
  | write j data =>
    obtain ⟨s,hs,hw⟩ := Option.bind_eq_some_iff.mp h
    obtain ⟨r,-,rfl⟩ := Option.map_eq_some_iff.mp hw
    refine ⟨rfl,rfl,⟨[],by simp⟩,fun k t hk ht => ?_⟩
    exact (getElem?_set_ne (by simpa [Op.touches] using hk)).trans ht
  | close j =>
    obtain ⟨s,hs,hc⟩ := Option.bind_eq_some_iff.mp h
    obtain ⟨⟨fd,t⟩,hcl,rfl⟩ := Option.map_eq_some_iff.mp hc
    refine ⟨rfl,rfl,?_,fun k t hk ht => ?_⟩
    · obtain ⟨rfl,-⟩ | hcl := closeMember_cases hcl
      · exact ⟨[],by simp⟩
      · obtain ⟨-,rfl,-⟩ | ⟨_,_,_,_,-,-,-,-,-,ha⟩ := close_cases hcl
        · exact ⟨[],by simp⟩
        · exact ⟨_,ha⟩
    · exact (getElem?_set_ne (by simpa [Op.touches] using hk)).trans ht

section

variable {zlib : Zlib σ} {k : Nat} {member : RDFURN}

def WritingAt (zlib : Zlib σ) (self : ZipFile σ) (k : Nat) (member : RDFURN)
    (inputs : List Bytes) : Prop :=
  ∃ s io, self.members[k]? = some s ∧ ZipSegment.Writing zlib s member inputs io

def StoredAt (zlib : Zlib σ) (self : ZipFile σ) (k : Nat) (member : RDFURN)
    (inputs : List Bytes) : Prop :=
  ∃ s, self.members[k]? = some s ∧
    ZipSegment.Stored zlib s member self.urn inputs self.backingStore.data

variable {next : ZipFile σ} {op : Op}

lemma openMember_writing {t : ZipFile σ} {method : Nat} {dosdate dostime : UInt16}
    (h : t.openMember zlib member .w method dosdate dostime = some (next,some k))
    (hk : k = t.members.length) : WritingAt zlib next k member [] := by
  subst hk
  obtain ⟨-,hlt⟩ | ⟨segment,segment',filename,-,-,rfl,hf,rfl⟩ := openMember_cases h
  · exact absurd (hlt _ rfl) (lt_irrefl _)
  · exact ⟨segment',.con,by simp,finish_writing rfl rfl rfl rfl hf⟩

variable {inputs : List Bytes}

variable {self : ZipFile σ} (hs : WritingAt zlib self k member inputs)

include hs in
lemma step_writing (hop : op ≠ .close k)
    (h : self.step zlib op = some next) : WritingAt zlib next k member (inputs ++ op.inputs k) := by
  obtain ⟨s,io,hmm,hwr⟩ := hs
  by_cases ht : op.touches k = false
  · have hin : op.inputs k = [] := by
      cases op with
      | write j data =>
        have hj : j ≠ k := by simpa [Op.touches] using ht
        simp [Op.inputs,hj]
      | _ => rfl
    rw [hin,append_nil]
    exact ⟨s,io,(step_preserved h).members k s ht hmm,hwr⟩
  · cases op with
    | openMember => simp [Op.touches] at ht
    | close j => simp_all [Op.touches]
    | write j data =>
      obtain rfl : j = k := by simpa [Op.touches] using ht
      rw [step,hmm,bind_some] at h
      obtain ⟨⟨n,t⟩,hw,rfl⟩ := Option.map_eq_some_iff.mp h
      have hg : (self.members.set j t)[j]? = some t :=
        List.getElem?_set_self (List.getElem?_eq_some_iff.mp hmm).1
      by_cases hne : data = []
      · have hsl : t = s := by
          rw [write,if_pos hne] at hw
          exact (Prod.mk.inj (some.inj hw)).2.symm
        simp only [Op.inputs,hne,ne_eq,not_true,and_false,if_false,append_nil]
        exact ⟨t,io,hg,hsl ▸ hwr⟩
      · obtain ⟨io',hwr'⟩ := write_writing hwr hne hw
        simp only [Op.inputs,ne_eq,hne,not_false_iff,and_self,if_true]
        exact ⟨t,io',hg,hwr'⟩

include hs in
lemma run_writing {ops : List Op} (ho : .close k ∉ ops)
    (h : run (step zlib) self ops = some next) :
    WritingAt zlib next k member (inputs ++ ops.flatMap (Op.inputs k)) := by
  induction ops generalizing self inputs with
  | nil =>
    cases h
    simpa using hs
  | cons op ops ih =>
    obtain ⟨t,ht,hr⟩ := run_cons h
    have hop : op ≠ .close k := fun he => ho (he ▸ mem_cons_self)
    have := ih (step_writing hs hop ht) (fun hm => ho (mem_cons_of_mem op hm)) hr
    rwa [append_assoc,← flatMap_cons] at this

include hs in
lemma step_close_stored (hw : self.mode = .w)
    (h : self.step zlib (.close k) = some next) : StoredAt zlib next k member inputs := by
  obtain ⟨s,io,hmm,hwr⟩ := hs
  rw [step,hmm,bind_some,closeMember_eq hw] at h
  obtain ⟨⟨fd,t⟩,hc,rfl⟩ := Option.map_eq_some_iff.mp h
  exact ⟨t,List.getElem?_set_self (List.getElem?_eq_some_iff.mp hmm).1,close_writing hwr hc⟩

lemma step_closed {u : ZipFile σ} {s : ZipSegment σ}
    (hmm : u.members[k]? = some s) (hs : s.buffer = none)
    (h : u.step zlib op = some next) : next.members[k]? = some s := by
  by_cases ht : op.touches k = false
  · exact (step_preserved h).members k s ht hmm
  · cases op with
    | openMember => simp [Op.touches] at ht
    | write j data =>
      obtain rfl : j = k := by simpa [Op.touches] using ht
      rw [step,hmm,bind_some] at h
      obtain ⟨⟨n,t⟩,hw,rfl⟩ := Option.map_eq_some_iff.mp h
      obtain rfl := write_closed hs hw
      exact List.getElem?_set_self (List.getElem?_eq_some_iff.mp hmm).1
    | close j =>
      obtain rfl : j = k := by simpa [Op.touches] using ht
      rw [step,hmm,bind_some] at h
      obtain ⟨⟨fd,t⟩,hc,rfl⟩ := Option.map_eq_some_iff.mp h
      have hk := List.getElem?_set_self (a := s) (List.getElem?_eq_some_iff.mp hmm).1
      obtain ⟨-,rfl⟩ | hc := closeMember_cases hc
      · exact hk
      obtain ⟨-,-,rfl⟩ | ⟨io,_,_,_,hio,-⟩ := close_cases hc
      · exact hk
      · -- A segment that was written and closed cannot be closed again.
        rw [hs] at hio
        cases hio

lemma step_stored (t : ZipFile σ) (op : Op) (next : ZipFile σ)
    (hs : StoredAt zlib t k member inputs) (h : t.step zlib op = some next) :
    StoredAt zlib next k member inputs := by
  obtain ⟨s,hmm,hst⟩ := hs
  obtain ⟨hu,-,⟨more,hd⟩,-⟩ := step_preserved h
  refine ⟨s,step_closed hmm hst.closed h,?_⟩
  rw [hu,hd]
  exact hst.append more

end

section

variable {zlib : Zlib σ} {start self : ZipFile σ} {ops : List Op}
  (hrn : run (step zlib) start ops = some self)

include hrn

lemma run_mode : self.mode = start.mode :=
  run_invariant (I := fun z => z.mode = start.mode)
    (fun _ _ _ hz hn => (step_preserved hn).mode.trans hz) hrn rfl

lemma run_data : ∃ more, self.backingStore.data = start.backingStore.data ++ more := by
  refine run_invariant (I := fun z => ∃ more, z.backingStore.data = start.backingStore.data ++ more)
    (fun z op next hz hn => ?_) hrn ⟨[],by simp⟩
  obtain ⟨more,hm⟩ := hz
  obtain ⟨more',hm'⟩ := (step_preserved hn).data
  exact ⟨more ++ more',by rw [hm',hm,append_assoc]⟩

lemma run_closed {k : Nat} {s : ZipSegment σ} (hmm : start.members[k]? = some s)
    (hs : s.buffer = none) : self.members[k]? = some s :=
  run_invariant (I := fun z => z.members[k]? = some s)
    (fun _ _ _ hz hn => step_closed hz hs hn) hrn hmm

end

lemma created_stored {zlib : Zlib σ} {start self : ZipFile σ} {ops : List Op} {k : Nat}
    {member : RDFURN} {inputs : List Bytes} (hw : start.mode = .w)
    (hc : Created zlib start ops k member inputs) (h : run (step zlib) start ops = some self) :
    StoredAt zlib self k member inputs := by
  obtain ⟨before,during,after,method,dosdate,dostime,z,z',rfl,hb,ho,hk,hd,rfl⟩ := hc
  obtain ⟨t,ht,h⟩ := run_append h
  obtain rfl := some.inj (hb.symm.trans ht)
  obtain ⟨t,ht,h⟩ := run_cons h
  have hz : t = z' := by
    rw [step,ho] at ht
    exact (some.inj ht).symm
  subst hz
  obtain ⟨u,hu,h⟩ := run_append h
  obtain ⟨v,hv,h⟩ := run_cons h
  have hwr := run_writing (openMember_writing ho hk) hd hu
  have hm : u.mode = .w :=
    (run_mode hu).trans ((step_preserved ht).mode.trans ((run_mode hb).trans hw))
  exact run_invariant step_stored h (step_close_stored hwr hm hv)

lemma loadedName_ne_of_lost {urn wrong member : RDFURN} {stored lookup : Bytes}
    (hwr : member.value.length < wrong.value.length ∨
      fqn <+: wrong.value ∧ wrong.value.length < urn.value.length)
    (hst : segmentName member urn = some stored)
    (hl : segmentName member wrong = some lookup) : loadedName stored ≠ lookup := by
  have hp : 0 < urn.value.length := length_pos_of_mem urn.colon_mem_value
  rw [segmentName,RDFURN.relativeName] at hst hl
  by_cases hin : urn.value <+: member.value
  · rw [if_pos hin] at hst
    have hle := hin.length_le
    refine loadedName_ne_of_longer hst hl ?_
    by_cases hw : wrong.value <+: member.value
    · have hlt := hw.length_le
      rw [if_pos hw,length_drop,length_drop]
      omega
    · rw [if_neg hw,length_drop]
      omega
  · rw [if_neg hin] at hst
    by_cases hw : wrong.value <+: member.value
    · obtain ⟨hf,-⟩ := hwr.resolve_left (Nat.not_lt.mpr hw.length_le)
      obtain ⟨r,hr⟩ := hf.trans hw
      rw [← hr] at hst
      exact loadedName_ne_of_fqn hl hst
    · rw [if_neg hw,hst] at hl
      cases hl
      exact loadedName_ne_of_escaped hst ⟨colon,member.colon_mem_value,by decide⟩

def listedBefore (self : ZipFile σ) (k : Nat) : List (ZipSegment σ) :=
  (self.members.take k).filter ZipSegment.isClosed

def entryOf (self : ZipFile σ) (k : Nat) : Nat := (self.listedBefore k).length

section

variable {self : ZipFile σ} {k : Nat} {s : ZipSegment σ} (hmm : self.members[k]? = some s)
  (hs : s.buffer = none)

include hmm hs in
lemma listedBefore_succ : self.listedBefore (k+1) = self.listedBefore k ++ [s] := by
  have hc : s.isClosed = true := by simp [isClosed,hs]
  rw [listedBefore,take_add_one,hmm,filter_append]
  simp [listedBefore,hc]

lemma closed_eq (t : ZipFile σ) (k : Nat) :
    t.closed = t.listedBefore k ++ (t.members.drop k).filter isClosed := by
  rw [closed,listedBefore,← filter_append,take_append_drop]

/-- What the reader of a volume needs in order to get to the entry of member `k`. -/
structure Readable (volume : ZipFile σ) (k : Nat) : Prop where
  single : Unmistakable (volume.record.encode ++ comment volume.urn)
  near : volume.startOfCd ≤ zip64Limit
  entries : ∀ s ∈ volume.listedBefore (k+1), s.Near ∧ s.filename.length ≤ buffSize-1

include hmm hs in
/-- A volume that can be read is loaded with the entries up to that of member `k` in order. -/
lemma reopen_members (hw : self.mode = .w) (hp : 0 < self.startOfCd) (hr : self.Readable k)
    (hv : self.Visible) (hf : self.closed.length < 2^16) (junk : Junk) (urn : RDFURN)
    (mode : Mode) : ∃ found rest, self.EndFound found ∧
      reopen junk urn mode self.close.backingStore.data =
        ⟨found.urn urn,mode,(self.listedBefore k).map reloaded ++ s.reloaded :: rest,
          ⟨self.close.backingStore.data,self.startOfCd⟩⟩ := by
  obtain ⟨found,he,ho⟩ := self.reopen_close hw hp hr.near hr.single hv junk urn mode
  have hrs : (⟨self.close.backingStore.data,self.startOfCd⟩ : FileBackedObject).rest =
      (self.listedBefore (k+1)).flatMap directoryEntry ++
        (((self.members.drop (k+1)).filter isClosed).flatMap directoryEntry ++
        trailer self.urn self.startOfCd self.offsetOfEndCd self.closed.length) := by
    rw [FileBackedObject.rest,self.close_data hw,startOfCd,drop_left,directory,
      ← append_assoc,← flatMap_append,← closed_eq]
  have hle : (self.listedBefore (k+1)).length ≤ self.closed.length%2^16 := by
    rw [Nat.mod_eq_of_lt hf,self.closed_eq (k+1),length_append]
    exact Nat.le_add_right _ _
  obtain ⟨rest,hl⟩ := loadEntries_prefix hr.entries hrs hle
  rw [listedBefore_succ hmm hs] at hl
  refine ⟨found,rest.reduceOption,he,?_⟩
  rw [ho,hl,reduceOption_append]
  simp [reduceOption,filterMap_map]

end

lemma findIdx?_append_cons {α : Type} {p : α → Bool} {l rest : List α} {x : α} :
    (l ++ x :: rest).findIdx? p = some l.length ↔ (∀ y ∈ l, p y = false) ∧ p x = true := by
  induction l with
  | nil => cases hx : p x <;> simp [findIdx?_cons,hx]
  | cons y l ih =>
    rw [cons_append,findIdx?_cons,length_cons,forall_mem_cons]
    cases hy : p y
    · simp only [Bool.false_eq_true,if_false,map_eq_some_iff,Nat.add_right_cancel_iff,
        exists_eq_right,ih,true_and]
    · simp

lemma openMember_read {zlib : Zlib σ} {member : RDFURN} {k : Nat}
 :
    (t.openMember zlib member .r method dosdate dostime).map Prod.snd = some (some k) ↔
      ∃ name, segmentName member t.urn = some name ∧
        t.members.findIdx? (fun s => cstring s.filename = name) = some k := by
  rw [openMember]
  cases segmentName member t.urn with
  | none => simp
  | some name =>
    simp only [map_some,some.injEq,exists_eq_left']
    cases t.members.findIdx? (fun s => cstring s.filename = name) with
    | none => simp
    | some j => simp

/-- The file of the closed volume is opened again for reading. -/
def reopened (self : ZipFile σ) (junk : Junk) (urn : RDFURN) : ZipFile σ :=
  reopen junk urn .r self.close.backingStore.data

lemma reopened_keeps (self : ZipFile σ) (junk : Junk) (urn : RDFURN) :
    (self.reopened junk urn).mode = .r ∧
      (self.reopened junk urn).backingStore.data = self.close.backingStore.data :=
  reopen_keeps junk urn .r _

/-- However the file of the closed volume is opened again for reading, `member` is found at the place
of its entry, as what that entry is loaded as, and reading it gives `content`. -/
def Retrieves (zlib : Zlib σ) (volume : ZipFile σ) (k : Nat) (member : RDFURN) (content : Bytes) :
    Prop :=
  ∃ s, volume.members[k]? = some s ∧
    ∀ (junk : Junk) (urn : RDFURN) (method : Nat) (dosdate dostime : UInt16),
      ((volume.reopened junk urn).openMember zlib member .r method dosdate dostime).map Prod.snd =
        some (some (volume.entryOf k)) ∧
      (volume.reopened junk urn).members[volume.entryOf k]? = some s.reloaded ∧
      ∀ length : UInt32, (volume.reopened junk urn).readMember zlib junk (volume.entryOf k) length =
        some (some (content.take length.toNat))

/-- When a reader looks for a member under the name it is loaded with: that name lies below the name
of the volume and needs no escaping, and the URN of the volume is read whole. -/
structure Recognised (volume : ZipFile σ) (member : RDFURN) : Prop where
  inside : volume.urn.value <+: member.value
  qualified : fqn <+: volume.urn.value
  fits : volume.urn.value.length+1 < 2^16
  size : volume.closedSize ≤ buffSize-3
  single : Unmistakable (volume.record.encode ++ comment volume.urn)
  plain : ∀ x ∈ member.relativeName volume.urn, escaped x = false

/-- When a member can be found and read again: it is recognised, the entries before its own can be
read and none goes by the same name, and memory can hold it. -/
structure Findable (volume : ZipFile σ) (k : Nat) (member : RDFURN) (content : Bytes) : Prop
    extends volume.Recognised member where
  near : ∀ s ∈ volume.listedBefore k, s.Near
  first : ∀ s ∈ volume.listedBefore k, cstring s.reloaded.filename ≠ member.relativeName volume.urn
  small : content.length < maxTallocSize

section

variable {zlib : Zlib σ} {self : ZipFile σ} {k : Nat} {s : ZipSegment σ} {member : RDFURN}
  {inputs : List Bytes}

variable {name : Bytes} {urn : RDFURN}

lemma stored_plain (hn : segmentName member self.urn = some name)
    (hf : s.filename = zstring name)
    (hp : ∀ x ∈ member.relativeName self.urn, escaped x = false)
    (hl : s.filename.length ≤ buffSize-10) :
    name = member.relativeName self.urn ∧ s.reloaded.filename = name ∧
      cstring s.reloaded.filename = name := by
  obtain rfl := escapeFilename_plain hn hp
  have hz := fun c hc => (escapeFilename_printable hn c hc).ne_zero
  have hle : (member.relativeName self.urn).length ≤ buffSize-10 := by
    rw [hf,zstring_length] at hl
    omega
  have hr : s.reloaded.filename = member.relativeName self.urn := by
    change unescapeFilename (cstring s.filename) = _
    rw [hf,cstring_zstring hz,unescapeFilename_plain hp hle]
  rw [hr]
  simpa using cstring_padded hz 0

lemma segmentName_congr {urn' : RDFURN} (h : urn.value = urn'.value) :
    segmentName member urn = segmentName member urn' := by
  rw [segmentName,segmentName,RDFURN.relativeName,RDFURN.relativeName,h]

lemma readMember_iff (hzl : zlib.Inverse) (hw : self.mode = .w) (hn : s.Near)
    (hsh : s.filename.length ≤ buffSize-1) (hp : s.reloaded.filename <+: s.filename)
    (hst : ZipSegment.Stored zlib s member self.urn inputs self.backingStore.data)
    (hsz : self.closedSize ≤ buffSize-3) {junk : Junk} {entry : Nat}
    (hg : (self.reopened junk urn).members[entry]? = some s.reloaded) :
    (∀ length, (self.reopened junk urn).readMember zlib junk entry length =
        some (some (inputs.flatten.take length.toNat))) ↔
      inputs.flatten.length < maxTallocSize := by
  have hlt : self.backingStore.data.length < maxTallocSize :=
    lt_of_le_of_lt (le_trans (self.startOfCd_le_closedSize hw) hsz) (by decide)
  obtain ⟨hm,hd⟩ := self.reopened_keeps junk urn
  rw [← read_reloaded hst hzl hn hsh hp hlt junk (hd.trans (self.close_data hw))]
  simp [readMember,readSegment,hg,own,hm]

lemma closed_length_le (t : ZipFile σ) : t.closed.length ≤ t.directory.length := by
  rw [directory]
  induction t.closed with
  | nil => exact le_refl 0
  | cons s l ih =>
    simp only [flatMap_cons,length_append,length_cons,directoryEntry,
      CDFileHeader.encode_length,CDFileHeader.size]
    omega

lemma filename_length_le {t : ZipFile σ} (hs : s ∈ t.closed) :
    s.filename.length ≤ t.directory.length := by
  obtain ⟨a,b,hab⟩ := append_of_mem hs
  rw [directory,hab,flatMap_append,flatMap_cons]
  simp only [length_append,directoryEntry]
  omega

lemma visible_of_size (hw : self.mode = .w) (hn : self.startOfCd ≤ zip64Limit)
    (hf : self.urn.value.length+1 < 2^16) (hsz : self.closedSize ≤ buffSize-3) :
    self.Visible ∧ self.closed.length < 2^16 := by
  have hl := (lost_le_one (by decide : 4 ≤ buffSize)).mpr hsz
  have hc : (comment self.urn).length = self.urn.value.length+1 := by
    rw [comment_eq hf,zstring_length]
  have ht := closedSize_eq hw hn
  have hle := self.closed_length_le
  have hB' : buffSize-3 < 2^16 := by decide
  rw [offsetOfEndCd] at ht
  exact ⟨⟨by omega,by omega⟩,by omega⟩

lemma stored_startOfCd_pos
    (hst : ZipSegment.Stored zlib s member self.urn inputs self.backingStore.data) :
    0 < self.startOfCd :=
  lt_of_lt_of_le (by decide : 0 < ZipFileHeader.size)
    (le_trans (Nat.le_add_right _ _) hst.length_le)

lemma stored_near (hw : self.mode = .w)
    (hst : ZipSegment.Stored zlib s member self.urn inputs self.backingStore.data)
    (hsz : self.closedSize ≤ buffSize-3) : s.Near := by
  obtain ⟨pre,payload,post,hd,ho,-⟩ := hst.content
  have hl := congrArg length hd
  have hle := self.startOfCd_le_closedSize hw
  have hB : buffSize = 40960 := rfl
  rw [startOfCd] at hle
  rw [length_append] at hl
  rw [Near,ho,UInt64.toNat_ofNat_of_lt' (by rw [UInt64.size]; omega),zip64Limit]
  omega

lemma Recognised.readable (h : self.Recognised member) (hw : self.mode = .w)
    (hmm : self.members[k]? = some s)
    (hst : ZipSegment.Stored zlib s member self.urn inputs self.backingStore.data)
    (hn : ∀ t ∈ self.listedBefore k, t.Near) : self.Readable k := by
  have hsz := h.size
  have hstr : self.startOfCd+self.directory.length ≤ self.closedSize := by
    rw [closedSize,self.close_data hw,length_append,length_append,startOfCd]
    omega
  have hB : buffSize = 40960 := rfl
  refine ⟨h.single,by rw [zip64Limit]; omega,fun t ht => ⟨?_,?_⟩⟩
  · rw [listedBefore_succ hmm hst.closed,mem_append,mem_singleton] at ht
    rcases ht with ht | rfl
    · exact hn t ht
    · exact stored_near hw hst hsz
  · have hle := filename_length_le (t := self) (s := t) (by
      rw [self.closed_eq (k+1)]
      exact mem_append_left _ ht)
    omega

lemma stored_filename_length (hw : self.mode = .w)
    (hst : ZipSegment.Stored zlib s member self.urn inputs self.backingStore.data)
    (hsz : self.closedSize ≤ buffSize-3) : s.filename.length ≤ buffSize-10 := by
  have hb := hst.length_le
  have hle := self.startOfCd_le_closedSize hw
  have hh : ZipFileHeader.size = 30 := rfl
  rw [startOfCd] at hle
  omega

lemma stored_loadedName (hn : segmentName member self.urn = some name)
    (hf : s.filename = zstring name) : cstring s.reloaded.filename = loadedName name := by
  change cstring (unescapeFilename (cstring s.filename)) = _
  rw [hf,cstring_zstring fun c hc => (escapeFilename_printable hn c hc).ne_zero]
  rfl

/-- A name without escapes lies below that of the volume: any other name keeps the colon
of its scheme. -/
lemma inside_of_plain (hp : ∀ x ∈ member.relativeName self.urn, escaped x = false) :
    self.urn.value <+: member.value := by
  by_contra hin
  have := hp colon (by
    rw [RDFURN.relativeName,if_neg hin]
    exact member.colon_mem_value)
  exact absurd this (by decide)

lemma recognised_of_retrieves (hw : self.mode = .w) (hmm : self.members[k]? = some s)
    (hst : ZipSegment.Stored zlib s member self.urn inputs self.backingStore.data)
    {content : Bytes} (h : self.Retrieves zlib k member content) : self.Recognised member := by
  obtain ⟨name,hn,hfl⟩ := hst.name
  have hfr := front_ne_nil (stored_startOfCd_pos hst)
  obtain ⟨long,hlg⟩ := RDFURN.exists_longer member.value.length
  obtain ⟨s',hmm',h⟩ := h
  obtain rfl := some.inj (hmm.symm.trans hmm')
  obtain ⟨hopn,hg,-⟩ := h (fun _ => 0) long 0 0 0
  obtain ⟨lookup,hl,hfi⟩ := openMember_read.mp hopn
  have hsa : loadedName name = lookup := by
    obtain ⟨hlt,hn',-⟩ := findIdx?_eq_some_iff_getElem.mp hfi
    rw [getElem?_eq_getElem hlt] at hg
    rw [some.inj hg,decide_eq_true_eq,stored_loadedName hn hfl] at hn'
    exact hn'
  cases hf : (locateEnd buffSize ⟨self.close.backingStore.data,0⟩).2 with
  | none =>
    rw [reopened,reopen_none hf] at hg
    cases hg
  | some found =>
    rw [reopened,reopen_urn hf] at hl
    rcases urn_cases hw hfr hf long with hc | hc | ⟨ho,hfq,hft,hls,hu⟩
    · rw [hc] at hl
      exact absurd hsa (loadedName_ne_of_lost (.inl hlg) hn hl)
    · exact absurd hsa (loadedName_ne_of_lost (.inr hc) hn hl)
    · rw [segmentName_congr hu,hn] at hl
      cases hl
      have hp : ∀ x ∈ member.relativeName self.urn, escaped x = false := by
        intro x hx
        by_contra hes
        exact loadedName_ne_of_escaped hn ⟨x,hx,by simpa using hes⟩ hsa
      have he : (comment self.urn).getLast? = some 0 := by simp [comment_eq hft,zstring]
      exact ⟨inside_of_plain hp,hfq,hft,(lost_le_one (by decide)).mp hls,
        (locateEnd_offset hw hfr hf ho).2 hls he,hp⟩

section

variable (hzl : zlib.Inverse) (hw : self.mode = .w) (hmm : self.members[k]? = some s)
  (hst : ZipSegment.Stored zlib s member self.urn inputs self.backingStore.data)

include hw hmm hst in
/-- A recognised member is loaded as it was listed, and looked for under its loaded name. -/
lemma Recognised.reopen (h : self.Recognised member) (hnr : ∀ t ∈ self.listedBefore k, t.Near)
    (junk : Junk) (urn : RDFURN) : ∃ rest,
      (self.reopened junk urn).members = (self.listedBefore k).map reloaded ++ s.reloaded :: rest ∧
      segmentName member (self.reopened junk urn).urn = some (member.relativeName self.urn) ∧
      s.reloaded.filename <+: s.filename ∧
      cstring s.reloaded.filename = member.relativeName self.urn := by
  obtain ⟨name,hn,hf⟩ := hst.name
  obtain ⟨hv,hfw⟩ := visible_of_size hw (h.readable hw hmm hst hnr).near h.fits h.size
  obtain ⟨found,rest,he,ho⟩ := reopen_members hmm hst.closed hw
    (stored_startOfCd_pos hst) (h.readable hw hmm hst hnr) hv hfw junk urn .r
  obtain ⟨hrl,hr,hl⟩ := stored_plain hn hf h.plain (stored_filename_length hw hst h.size)
  have hu := urn_whole he h.qualified h.fits ((lost_le_one (by decide)).mpr h.size) urn
  rw [reopened,ho,segmentName_congr hu,hn,← hrl,hr,hf]
  exact ⟨rest,rfl,rfl,prefix_append _ _,hr ▸ hl⟩

lemma entryOf_listed (t : ZipFile σ) (k : Nat) :
    ((t.listedBefore k).map reloaded).length = t.entryOf k := by rw [length_map,entryOf]

include hzl hw hmm hst in
lemma findable_of_retrieves (hn : ∀ t ∈ self.listedBefore k, t.Near)
    (h : self.Retrieves zlib k member inputs.flatten) : self.Findable k member inputs.flatten := by
  have hrc := recognised_of_retrieves hw hmm hst h
  obtain ⟨s',hmm',h⟩ := h
  obtain rfl := some.inj (hmm.symm.trans hmm')
  obtain ⟨ho,hg,hr⟩ := h (fun _ => 0) self.urn 0 0 0
  obtain ⟨rest,hm,hnm,hp,-⟩ := hrc.reopen hw hmm hst hn (fun _ => 0) self.urn
  obtain ⟨lookup,hl,hf⟩ := openMember_read.mp ho
  obtain rfl := some.inj (hnm.symm.trans hl)
  rw [hm,← entryOf_listed] at hf
  obtain ⟨hb,-⟩ := findIdx?_append_cons.mp hf
  obtain ⟨hn',hsh⟩ := (hrc.readable hw hmm hst hn).entries s (by
    rw [listedBefore_succ hmm hst.closed]
    simp)
  refine ⟨hrc,hn,fun t ht => ?_,?_⟩
  · simpa using hb t.reloaded (mem_map_of_mem ht)
  · exact (readMember_iff hzl hw hn' hsh hp hst hrc.size hg).mp hr

include hw hmm hst in
lemma Findable.reopen {content : Bytes} (h : self.Findable k member content) (junk : Junk)
    (urn : RDFURN) :
    (s.Near ∧ s.filename.length ≤ buffSize-1 ∧ s.reloaded.filename <+: s.filename) ∧
      (self.reopened junk urn).members[self.entryOf k]? = some s.reloaded ∧
      ∀ method dosdate dostime, ((self.reopened junk urn).openMember zlib member .r method dosdate
        dostime).map Prod.snd = some (some (self.entryOf k)) := by
  have hr := h.toRecognised
  obtain ⟨rest,hm,hn,hp,hl⟩ := hr.reopen hw hmm hst h.near junk urn
  obtain ⟨hnr,hsh⟩ := (hr.readable hw hmm hst h.near).entries s (by
    rw [listedBefore_succ hmm hst.closed]
    simp)
  rw [hm,← entryOf_listed]
  refine ⟨⟨hnr,hsh,hp⟩,by simp,fun method dosdate dostime => ?_⟩
  refine openMember_read.mpr ⟨_,hn,?_⟩
  rw [hm]
  refine findIdx?_append_cons.mpr ⟨fun x hx => ?_,by simpa using hl⟩
  obtain ⟨t,ht,rfl⟩ := mem_map.mp hx
  simpa using h.first t ht

include hzl hw hmm hst in
lemma retrieves_of_findable (h : self.Findable k member inputs.flatten) :
    self.Retrieves zlib k member inputs.flatten := by
  refine ⟨s,hmm,fun junk urn method dosdate dostime => ?_⟩
  obtain ⟨⟨hn,hsh,hp⟩,hg,ho⟩ := h.reopen hw hmm hst junk urn
  exact ⟨ho method dosdate dostime,hg,
    (readMember_iff hzl hw hn hsh hp hst h.size hg).mpr h.small⟩

end

/-- A created member is found and read again after the volume is closed when it is findable, and
only then, unless an entry before its own has an offset that the reader cannot read. -/
theorem retrieves_iff (hzl : zlib.Inverse) {start : ZipFile σ} (hw : start.mode = .w)
    {ops : List Op} (hrn : run (step zlib) start ops = some self)
    (hc : Created zlib start ops k member inputs) :
    (self.Findable k member inputs.flatten → self.Retrieves zlib k member inputs.flatten) ∧
    ((∀ s ∈ self.listedBefore k, s.Near) → self.Retrieves zlib k member inputs.flatten →
      self.Findable k member inputs.flatten) := by
  have hm : self.mode = .w := (run_mode hrn).trans hw
  obtain ⟨s,hmm,hst⟩ := created_stored hw hc hrn
  exact ⟨retrieves_of_findable hzl hm hmm hst,findable_of_retrieves hzl hm hmm hst⟩

end

def plainZlib : Zlib Unit where
  deflateInit := ()
  deflate _ input := ((),[input])
  deflateFinish _ := []
  inflate input room := if input.length ≤ room then some input else none
  crc32 _ _ := 0

lemma plainZlib_inverse : plainZlib.Inverse := by
  intro inputs room
  have hf : ∀ out, (foldl (fun (state : Unit × Bytes) input =>
      ((plainZlib.deflate state.1 input).1,state.2 ++ (plainZlib.deflate state.1 input).2.flatten))
        ((),out) inputs).2 = out ++ inputs.flatten := by
    induction inputs with
    | nil => simp
    | cons input inputs ih =>
      intro out
      rw [foldl_cons,ih]
      simp [plainZlib]
  have he : plainZlib.encode inputs = inputs.flatten := by
    have := hf []
    simpa [Zlib.encode,Zlib.feed,plainZlib] using this
  rw [he]
  rfl

def newVolume : ZipFile Unit := ofFile (.set (fqn ++ chars ['v'])) .w []

def oneMember (name : Bytes) : List Op :=
  [.openMember (.set (fqn ++ chars ['v'] ++ name)) .w 0 0 0,.write 0 (chars ['x']),.close 0]

def oneMemberVolume (name : Bytes) (h : (run (step plainZlib) newVolume (oneMember name)).isSome) :
    ZipFile Unit :=
  (run (step plainZlib) newVolume (oneMember name)).get h

lemma oneMember_runs : (run (step plainZlib) newVolume (oneMember (chars ['/','a']))).isSome := by
  decide +kernel

lemma oneMember_created (name : Bytes)
    (h : (newVolume.openMember plainZlib (.set (fqn ++ chars ['v'] ++ name)) .w 0 0 0).map Prod.snd =
      some (some 0)) :
    Created plainZlib newVolume (oneMember name) 0 (.set (fqn ++ chars ['v'] ++ name))
      [chars ['x']] := by
  obtain ⟨⟨self',result⟩,ho,rfl⟩ := map_eq_some_iff.mp h
  exact ⟨[],[.write 0 (chars ['x'])],[],0,0,0,newVolume,self',rfl,rfl,ho,rfl,by simp,rfl⟩

def memberA : RDFURN := .set (fqn ++ chars ['v','/','a'])

lemma oneMember_findable : (oneMemberVolume (chars ['/','a']) oneMember_runs).Findable 0
    memberA (chars ['x']) :=
  ⟨⟨by decide +kernel,by decide +kernel,by decide +kernel,by decide +kernel,by decide +kernel,
    by decide +kernel⟩,by decide +kernel,by decide +kernel,by decide +kernel⟩

theorem retrieves_plain_name : (oneMemberVolume (chars ['/','a']) oneMember_runs).Retrieves
    plainZlib 0 memberA (chars ['x']) :=
  (retrieves_iff plainZlib_inverse rfl (some_get oneMember_runs).symm
    (oneMember_created (chars ['/','a']) (by decide +kernel))).1 oneMember_findable

/-- A member `a+b` is stored as `a%2Bb`, loaded as `a+b` and looked for as `a%2Bb`. -/
theorem retrieves_escaped_name_fails :
    Created plainZlib newVolume (oneMember (chars ['/','a','+','b'])) 0
      (.set (fqn ++ chars ['v','/','a','+','b'])) [chars ['x']] ∧
    ¬ (oneMemberVolume (chars ['/','a','+','b']) (by decide +kernel)).Retrieves plainZlib 0
      (.set (fqn ++ chars ['v','/','a','+','b'])) (chars ['x']) := by
  refine ⟨oneMember_created (chars ['/','a','+','b']) (by decide +kernel),fun h => ?_⟩
  obtain ⟨s,-,h⟩ := h
  exact absurd (h (fun _ => 0) (.set fqn) 0 0 0).1 (by decide +kernel)

end Aff4.ZipFile
