import Aff4.PacketStruct

/-! What `unpack` does on bytes from outside. A field is complete when its bytes are all
there; the unpackers of strings and of argument arrays go wrong on some that are not. -/

namespace Aff4.Pyflag

open LittleEndian List Nat

def declared : Code → Bytes → Nat
  | .stringAndLength, bytes | .argvArray, bytes => (storeShort (bytes.take 2)).length
  | .stringAndLength32, bytes => (storeInt (bytes.take 4)).length
  | .stringAndLengthLE32, bytes => (storeIntLE (bytes.take 4)).length
  | _, _ => 0

def stringsExtent : Nat → Bytes → Option Nat
  | 0, _ => some 0
  | n+1, bytes => (stringz bytes).bind fun string =>
    (stringsExtent n (bytes.drop string.length)).map fun m => string.length+m

def fixedExtent (size : Nat) (bytes : Bytes) : Option Nat :=
  if size ≤ bytes.length then some size else none

def extent : Code → Bytes → Option Nat
  | .char, bytes => fixedExtent 1 bytes
  | .short, bytes | .shortLE, bytes => fixedExtent 2 bytes
  | .int, bytes | .intLE, bytes => fixedExtent 4 bytes
  | .stringNullTerm, bytes => if 0 ∈ bytes then some (taken bytes) else none
  | .stringAndLength, bytes => (fixedExtent 2 bytes).bind fun _ =>
    fixedExtent (2+declared .stringAndLength bytes) bytes
  | .stringAndLength32, bytes => (fixedExtent 4 bytes).bind fun _ =>
    fixedExtent (4+declared .stringAndLength32 bytes) bytes
  | .stringAndLengthLE32, bytes => (fixedExtent 4 bytes).bind fun _ =>
    fixedExtent (4+declared .stringAndLengthLE32 bytes) bytes
  | .argvArray, bytes => (fixedExtent 2 bytes).bind fun _ =>
    (stringsExtent (declared .argvArray bytes) (bytes.drop 2)).map fun m => 2+m

def extents : List Code → Bytes → Option Nat
  | [], _ => some 0
  | code :: format, bytes => (extent code bytes).bind fun n =>
    (extents format (bytes.drop n)).map fun m => n+m

/-- A complete field whose string is not too long to be allocated. -/
def accepted (code : Code) (bytes : Bytes) : Option Nat :=
  if declared code bytes < maxTallocSize then extent code bytes else none

def Terminated : Nat → Bytes → Prop
  | 0, _ => True
  | n+1, bytes => ∃ string, stringz bytes = some string ∧ string.length < maxTallocSize ∧
    Terminated n (bytes.drop string.length)

/-- Nothing is copied to NULL. After a length that is negative as an `int` this is so only where
the sum with the position is negative too. -/
def NullGuard (size length pos : Nat) (bytes : Bytes) : Prop :=
  size ≤ bytes.length → length < maxTallocSize ∨
    bytes.length = size ∧ (length < 2^31 ∨ pos+size+length < 2^32)

/-- The bytes that an unpacker takes without going wrong, at a position of the input. -/
def Guard : Code → Nat → Bytes → Prop
  | .stringNullTerm, _, bytes => taken bytes < 2^27
  | .stringAndLength32, pos, bytes => NullGuard 4 (declared .stringAndLength32 bytes) pos bytes
  | .argvArray, _, bytes => 2 ≤ bytes.length → Terminated (declared .argvArray bytes) (bytes.drop 2)
  | _, _, _ => True

/-- The bytes that `unpack` takes without going wrong: every field it comes to is guarded, and the
structure is not too long for an `int`. -/
def Guarded : List Code → Nat → Nat → Bytes → Prop
  | [], _, _, _ => True
  | code :: format, offset, pos, bytes => Guard code pos bytes ∧ ∀ n, accepted code bytes = some n →
    offset+structSize code < 2^31 ∧ Guarded format (offset+structSize code) (pos+n) (bytes.drop n)

def Outcome (code : Code) (io : StringIO) (before : Struct) (o : Nat) : Option Unpacked → Prop
  | none => ¬ Guard code io.readptr (rest io)
  | some back => Guard code io.readptr (rest io) ∧ Agree o (structSize code) before back.output ∧
    match accepted code (rest io) with
    | none => back.result = -1
    | some n => back.result = structSize code ∧ back.input = advance io n ∧ n ≤ (rest io).length

section

variable {io : StringIO} (before : Struct) (o : Nat)

variable {size : Nat} {bytes : Bytes}

lemma fixedExtent_of_le (h : size ≤ bytes.length) : fixedExtent size bytes = some size := if_pos h

lemma fixedExtent_of_lt (h : bytes.length < size) :
    fixedExtent size bytes = none := if_neg (not_le.mpr h)

variable {code : Code}

lemma accepted_of_declared
    (h : declared code bytes < maxTallocSize) : accepted code bytes = extent code bytes := if_pos h

lemma unpackNumber_outcome (h : Ready io) (store : Bytes → Slot)
    (hsz : structSize code = size) (hlt : size < 2^32) (hg : Guard code io.readptr (rest io))
    (ha : accepted code (rest io) = fixedExtent size (rest io)) :
    Outcome code io before o (unpackNumber size store io before o) := by
  rw [← hsz] at hlt ha ⊢
  by_cases hle : structSize code ≤ (rest io).length
  · rw [unpackNumber_eq h hlt hle,Outcome,ha,fixedExtent_of_le hle]
    exact ⟨hg,(Agree.refl o _ before).update (structSize_pos code) _,rfl,rfl,hle⟩
  · have hs := not_le.mp hle
    rw [unpackNumber_short h hlt hs,Outcome,ha,fixedExtent_of_lt hs]
    exact ⟨hg,Agree.refl o _ before,rfl⟩

lemma nullStringUnpack_outcome (h : Ready io) :
    Outcome .stringNullTerm io before o (nullStringUnpack io before o) := by
  have ha : accepted .stringNullTerm (rest io) =
      if 0 ∈ rest io then some (taken (rest io)) else none := rfl
  rw [nullStringUnpack_eq h]
  by_cases hg : taken (rest io) < 2^27
  · rw [if_pos hg,Outcome,ha]
    by_cases hm : 0 ∈ rest io
    · rw [if_pos hm,if_pos hm]
      exact ⟨hg,(Agree.refl o _ before).update (structSize_pos _) _,rfl,rfl,taken_le _⟩
    · rw [if_neg hm,if_neg hm]
      exact ⟨hg,Agree.refl o _ before,rfl⟩
  · rw [if_neg hg]
    exact hg

lemma readInto_negative (h : Ready io) {len : Int} (hn : len < 0) (hle : -2^31 ≤ len) :
    readInto io len =
      if io.readptr+len < 0 then some (rest io,advance io (rest io).length) else none := by
  have hi := h.inside
  have hsz := h.size
  rw [readInto]
  by_cases hsm : io.readptr+len < 0
  · have hm : (io.readptr+len)%2^64 = io.readptr+len+2^64 := by
      rw [← Int.add_emod_right,Int.emod_eq_of_lt (by omega) (by omega)]
    have hl : ((io.data.length : Int)-io.readptr).toNat = io.data.length-io.readptr := by omega
    have hs : slice io.data io.readptr (io.data.length-io.readptr) = rest io := by
      rw [rest,slice,take_of_length_le (by rw [length_drop])]
    rw [hm,if_pos hsm]
    simp only [if_pos (show (io.data.length : Int) < io.readptr+len+2^64 by omega)]
    rw [if_pos (by omega),hl,hs,advance,rest_length]
  · have hm : (io.readptr+len)%2^64 = io.readptr+len := Int.emod_eq_of_lt (by omega) (by omega)
    rw [hm,if_neg hsm]
    rw [if_neg (by omega)]

lemma wrapInt_of_ge {n : Nat} (hle : 2^31 ≤ n) (hlt : n < 2^32) : wrapInt n = n-2^32 := by
  unfold wrapInt Int.bmod
  dsimp only
  split <;> omega

lemma copyString_null (h : Ready io) (size : Nat) {length : Nat} (hb : maxTallocSize ≤ length)
    (hl : length < 2^32) : copyString size length (wrapInt length) true io before o =
      if rest io = [] ∧ (length < 2^31 ∨ io.readptr+length < 2^32) then
        some ⟨-1,Function.update before (o+size) (some (.pointer [])),io⟩
      else none := by
  have hp : 0 < length := lt_of_lt_of_le (by decide) hb
  have hn : advance io 0 = io := rfl
  by_cases hint : length < 2^31
  · rw [copyString,wrapInt_of_bounds (by omega) (by omega),readInto_eq h hl,Option.bind_some]
    by_cases hr : rest io = []
    · have hc : rest io = [] ∧ (length < 2^31 ∨ io.readptr+length < 2^32) := ⟨hr,.inl hint⟩
      rw [if_pos hc]
      simp [hr,hp,hn]
    · have ht : (rest io).take length ≠ [] := by simp [hr,ne_of_gt hp]
      simp [hr,ht]
  · have hge := not_lt.mp hint
    rw [copyString,wrapInt_of_ge hge hl,readInto_negative h (by omega) (by omega)]
    by_cases hs : io.readptr+length < 2^32
    · rw [if_pos (by omega),Option.bind_some]
      by_cases hr : rest io = []
      · have hc : rest io = [] ∧ (length < 2^31 ∨ io.readptr+length < 2^32) := ⟨hr,.inr hs⟩
        rw [if_pos hc]
        simp [hr,hp,hn]
      · simp [hr]
    · rw [if_neg (by omega),if_neg (by omega)]
      rfl

lemma sizeStringUnpack_outcome (h : Ready io) {store : Bytes → Slot}
    {checked : Bool} (hsz : structSize code = size+8) (hlt : size < 2^32)
    (hd : ∀ bytes, declared code bytes = (store (bytes.take size)).length)
    (hst : ∀ bytes, (store bytes).length < 2^32)
    (he : ∀ bytes, extent code bytes = (fixedExtent size bytes).bind fun _ =>
      fixedExtent (size+declared code bytes) bytes)
    (hg : ∀ pos bytes, Guard code pos bytes ↔
      checked = true ∨ NullGuard size (declared code bytes) pos bytes) :
    Outcome code io before o (sizeStringUnpack size store checked io before o) := by
  have hu : ∀ slot, Agree o (structSize code) before (Function.update before o slot) :=
    (Agree.refl o _ before).update (structSize_pos code)
  have hu₂ : ∀ slot slot', Agree o (structSize code) before
      (Function.update (Function.update before o slot) (o+size) slot') :=
    fun slot => (hu slot).update (by omega)
  by_cases hle : size ≤ (rest io).length
  · have hr := h.advance hle
    have hrs := rest_advance io size
    have hl : (rest (advance io size)).length = (rest io).length-size := by
      rw [hrs,length_drop]
    by_cases hs : declared code (rest io) < maxTallocSize
    · have hext := he (rest io)
      rw [fixedExtent_of_le hle,Option.bind_some] at hext
      rw [sizeStringUnpack_eq h hlt hle store checked (by rwa [← hd]),← hd,
        copyString_eq hr (lt_trans hs (by decide)),Outcome,accepted_of_declared hs,
        hext,hl]
      refine ⟨(hg _ _).mpr (.inr fun _ => .inl hs),hu₂ _ _,?_⟩
      by_cases hsh : (rest io).length-size < declared code (rest io)
      · rw [fixedExtent_of_lt (by omega),if_pos hsh]
      · have hf : size+declared code (rest io) ≤ (rest io).length := by omega
        rw [fixedExtent_of_le hf,if_neg hsh,min_eq_left (by omega),hsz]
        refine ⟨rfl,?_,hf⟩
        rw [advance,advance,advance,add_assoc]
    · have hb := not_lt.mp hs
      have ha : accepted code (rest io) = none := if_neg hs
      rw [sizeStringUnpack,readInto_eq h hlt,Option.bind_some,
        if_neg (by rw [length_take]; omega),min_eq_left hle,← hd]
      have hnl : (!tallocNamedConst (declared code (rest io))) = true := by
        simp [tallocNamedConst,hb]
      simp only [hnl,Bool.true_and]
      cases checked with
      | true =>
        rw [if_pos rfl,Outcome,ha]
        exact ⟨(hg _ _).mpr (.inl rfl),hu _,rfl⟩
      | false =>
        have hlt32 : declared code (rest io) < 2^32 := by rw [hd]; exact hst _
        rw [if_neg (by simp),copyString_null _ _ hr size hb hlt32]
        by_cases hc : rest (advance io size) = [] ∧ (declared code (rest io) < 2^31 ∨
            (advance io size).readptr+declared code (rest io) < 2^32)
        · rw [if_pos hc,Outcome,ha]
          rw [hc.1,length_nil] at hl
          exact ⟨(hg _ _).mpr (.inr fun _ => .inr ⟨by omega,hc.2⟩),hu₂ _ _,rfl⟩
        · rw [if_neg hc]
          intro hun
          rcases (hg _ _).mp hun with hch | hn
          · cases hch
          · rcases hn hle with hlt' | ⟨hal,hor⟩
            · exact hs hlt'
            · refine hc ⟨eq_nil_of_length_eq_zero ?_,hor⟩
              omega
  · have hsh := not_le.mp hle
    have ha : accepted code (rest io) = none := by
      rw [accepted,he,fixedExtent_of_lt hsh]
      simp
    rw [sizeStringUnpack_short h hlt hsh,Outcome,ha]
    exact ⟨(hg _ _).mpr (.inr fun hle' => absurd hle' hle),Agree.refl o _ before,rfl⟩

lemma stringz_length_le {bytes string : Bytes} (h : stringz bytes = some string) :
    string.length ≤ bytes.length := by
  rw [stringz] at h
  split at h
  · next hm =>
    cases h
    rw [zstring_length]
    by_contra hlt
    have ha : cstring bytes = bytes := by
      have hp : cstring bytes <+: bytes := takeWhile_prefix _
      exact hp.eq_of_length (by have := hp.length_le; omega)
    exact cstring_ne_zero bytes 0 (by rwa [ha]) rfl
  · cases h

lemma argvUnpackLoop_outcome (n : Nat) (h : Ready io) (array : List (Option Bytes)) :
    match argvUnpackLoop n io array with
    | none => ¬ Terminated n (rest io)
    | some r => Terminated n (rest io) ∧ ∃ m, stringsExtent n (rest io) = some m ∧
        r.2 = advance io m ∧ m ≤ (rest io).length := by
  induction n generalizing io array with
  | zero => exact ⟨trivial,0,rfl,rfl,zero_le _⟩
  | succ n ih =>
    rw [argvUnpackLoop,← rest]
    cases hs : stringz (rest io) with
    | none =>
      rintro ⟨string,hsm,-⟩
      rw [hs] at hsm
      cases hsm
    | some string =>
      have hle := stringz_length_le hs
      rw [Option.bind_some]
      by_cases hsml : string.length < maxTallocSize
      · have hn := ih (h.advance hle) (array ++ [some string])
        have hrs := rest_advance io string.length
        rw [tallocMemdup_eq_some hsml,Option.bind_some]
        change match argvUnpackLoop n (advance io string.length) (array ++ [some string]) with
          | none => _
          | some r => _
        rw [hrs] at hn
        cases hl : argvUnpackLoop n (advance io string.length) (array ++ [some string]) with
        | none =>
          rw [hl] at hn
          rintro ⟨string',hsm,-,ht⟩
          rw [hs] at hsm
          cases hsm
          exact hn ht
        | some r =>
          rw [hl] at hn
          obtain ⟨ht,m,hm,hr,hml⟩ := hn
          refine ⟨⟨string,hs,hsml,ht⟩,string.length+m,?_,?_,?_⟩
          · rw [stringsExtent,hs,Option.bind_some,hm,Option.map_some]
          · rw [hr,advance,advance,advance,add_assoc]
          · rw [length_drop] at hml
            omega
      · rw [tallocMemdup_eq_none (not_lt.mp hsml)]
        rintro ⟨string',hsm,hsml',-⟩
        rw [hs] at hsm
        cases hsm
        exact hsml hsml'

lemma declared_argvArray_lt (bytes : Bytes) : declared .argvArray bytes < maxTallocSize :=
  lt_trans (UInt16.toNat_lt _) (by decide)

lemma argvArrayUnpack_outcome (h : Ready io) :
    Outcome .argvArray io before o (argvArrayUnpack io before o) := by
  have he : accepted .argvArray (rest io) = (fixedExtent 2 (rest io)).bind fun _ =>
      (stringsExtent (declared .argvArray (rest io)) ((rest io).drop 2)).map fun m => 2+m :=
    accepted_of_declared (declared_argvArray_lt _)
  have hrd : readInto io 2 = _ := readInto_eq h (n := 2) (by decide)
  rw [argvArrayUnpack,hrd,Option.bind_some]
  by_cases hle : 2 ≤ (rest io).length
  · have hl := argvUnpackLoop_outcome (declared .argvArray (rest io)) (h.advance hle) []
    rw [if_neg (by rw [length_take]; omega),min_eq_left hle]
    rw [fixedExtent_of_le hle,Option.bind_some,← rest_advance] at he
    change Outcome _ _ _ _ ((argvUnpackLoop (declared .argvArray (rest io)) (advance io 2) []).map _)
    cases hrs : argvUnpackLoop (declared .argvArray (rest io)) (advance io 2) [] with
    | none =>
      rw [hrs,rest_advance] at hl
      exact fun hg => hl (hg hle)
    | some r =>
      rw [hrs] at hl
      obtain ⟨ht,m,hm,hr,hml⟩ := hl
      rw [hm,Option.map_some] at he
      rw [Option.map_some,Outcome,he]
      rw [rest_advance,length_drop] at hml
      rw [rest_advance] at ht
      refine ⟨fun _ => ht,?_,rfl,?_,by omega⟩
      · exact ((Agree.refl o _ before).update (structSize_pos _) _).update
          (show 2 < structSize .argvArray by decide) _
      · rw [hr,advance,advance,advance,add_assoc]
  · have hs := not_le.mp hle
    rw [fixedExtent_of_lt hs,Option.bind_none] at he
    rw [if_pos (by rw [length_take]; omega),Outcome,he]
    exact ⟨fun hle' => absurd hle' hle,Agree.refl o _ before,rfl⟩

lemma unpackField_outcome (h : Ready io) (code : Code) :
    Outcome code io before o (unpackField code io before o) := by
  have hh : ∀ bytes, (storeShort bytes).length < 2^32 :=
    fun bytes => lt_trans (UInt16.toNat_lt _) (by decide)
  have hwd : ∀ bytes, (storeInt bytes).length < 2^32 := fun bytes => UInt32.toNat_lt _
  have hw : ∀ bytes, (storeIntLE bytes).length < 2^32 := fun bytes => UInt32.toNat_lt _
  cases code with
  | char => exact unpackNumber_outcome before o h storeChar rfl (by decide) trivial rfl
  | short => exact unpackNumber_outcome before o h storeShort rfl (by decide) trivial rfl
  | shortLE => exact unpackNumber_outcome before o h storeShortLE rfl (by decide) trivial rfl
  | int => exact unpackNumber_outcome before o h storeInt rfl (by decide) trivial rfl
  | intLE => exact unpackNumber_outcome before o h storeIntLE rfl (by decide) trivial rfl
  | stringNullTerm => exact nullStringUnpack_outcome before o h
  | stringAndLength =>
    exact sizeStringUnpack_outcome before o h rfl (by decide) (fun _ => rfl) hh (fun _ => rfl)
      fun _ _ => iff_of_true trivial (.inl rfl)
  | stringAndLength32 =>
    exact sizeStringUnpack_outcome before o h rfl (by decide) (fun _ => rfl) hwd (fun _ => rfl)
      fun _ _ => (or_iff_right (by decide)).symm
  | stringAndLengthLE32 =>
    exact sizeStringUnpack_outcome before o h rfl (by decide) (fun _ => rfl) hw (fun _ => rfl)
      fun _ _ => iff_of_true trivial (.inl rfl)
  | argvArray => exact argvArrayUnpack_outcome before o h

end

lemma extent_of_accepted {code : Code} {bytes : Bytes} {n : Nat}
    (h : accepted code bytes = some n) : extent code bytes = some n := by
  rw [accepted] at h
  split at h
  · exact h
  · cases h

def LoopOutcome (format : List Code) (io : StringIO) (before : Struct) (offset : Nat) :
    Option Unpacked → Prop
  | none => ¬ Guarded format offset io.readptr (rest io)
  | some back => Guarded format offset io.readptr (rest io) ∧
      Agree offset (totalSize format) before back.output ∧
      (extents format (rest io) = none → back.result = -1)

lemma unpackLoop_outcome (format : List Code) (offset : Nat) {io : StringIO} (h : Ready io)
    (before : Struct) :
    LoopOutcome format io before offset (unpackLoop format offset io before) := by
  induction format generalizing offset io before with
  | nil => exact ⟨trivial,Agree.refl offset _ before,fun hno => by cases hno⟩
  | cons code format ih =>
    have ho := unpackField_outcome before offset h code
    rw [unpackLoop]
    cases hf : unpackField code io before offset with
    | none =>
      rw [hf] at ho
      exact fun hg => ho hg.1
    | some back =>
      rw [hf] at ho
      obtain ⟨hgd,hag,hmt⟩ := ho
      rw [Option.bind_some]
      cases ha : accepted code (rest io) with
      | none =>
        rw [ha] at hmt
        rw [if_pos (by omega)]
        refine ⟨⟨hgd,fun n hn => ?_⟩,fun i hi => ?_,fun _ => rfl⟩
        · rw [ha] at hn
          cases hn
        · rw [totalSize_cons] at hi
          exact hag i (by omega)
      | some n =>
        rw [ha] at hmt
        obtain ⟨hr,hin,hn⟩ := hmt
        rw [if_neg (by omega),hr,Int.toNat_natCast,hin]
        cases hadd : addSize offset (structSize code) with
        | none =>
          intro hg
          rw [addSize_eq_some (hg.2 n ha).1] at hadd
          cases hadd
        | some next =>
          have hint : offset+structSize code < 2^31 := by
            by_contra hle
            rw [addSize_eq_none (not_lt.mp hle)] at hadd
            cases hadd
          obtain rfl := Option.some.inj ((addSize_eq_some hint).symm.trans hadd)
          have hnx := ih (offset+structSize code) (h.advance hn) back.output
          rw [Option.bind_some]
          cases hl : unpackLoop format (offset+structSize code) (advance io n) back.output with
          | none =>
            rw [hl,LoopOutcome,rest_advance] at hnx
            exact fun hg => hnx (hg.2 n ha).2
          | some final =>
            rw [hl,LoopOutcome,rest_advance] at hnx
            obtain ⟨hg,hag',hc⟩ := hnx
            refine ⟨⟨hgd,fun m hm => ?_⟩,fun i hi => ?_,fun hno => hc ?_⟩
            · obtain rfl := Option.some.inj (ha.symm.trans hm)
              exact ⟨hint,hg⟩
            · rw [totalSize_cons] at hi
              rw [hag' i (by omega),hag i (by omega)]
            · rwa [extents,extent_of_accepted ha,Option.bind_some,Option.map_eq_none_iff] at hno

/-- `unpack` has a result, writes the structure alone and reports that the input is too short. -/
def Safe (format : List Code) (io : StringIO) (before : Struct) : Prop :=
  ∃ back, unpack format io before = some back ∧ Agree 0 (totalSize format) before back.output ∧
    (extents format (rest io) = none → back.result = -1)

theorem unpack_safe_iff (format : List Code) (io : StringIO) (h : Ready io) (before : Struct) :
    Safe format io before ↔ Guarded format 0 io.readptr (rest io) := by
  have ho := unpackLoop_outcome format 0 h before
  rw [Safe,unpack]
  cases hl : unpackLoop format 0 io before with
  | none =>
    rw [hl] at ho
    exact ⟨fun ⟨_,hs,_⟩ => (by cases hs),fun hg => absurd hg ho⟩
  | some back =>
    rw [hl] at ho
    exact ⟨fun _ => ho.1,fun _ => ⟨back,rfl,ho.2⟩⟩

theorem unpack_safe_iff_truncated : Ready (ofBytes [0,1]) ∧ Safe [.int] (ofBytes [0,1]) fun _ => none :=
  ⟨⟨by decide,by decide⟩,(unpack_safe_iff [.int] (ofBytes [0,1]) ⟨by decide,by decide⟩ _).mpr
    ⟨trivial,fun n hn => by cases hn⟩⟩

/-- One argument that does not end. -/
theorem unpack_unterminated :
    Ready (ofBytes [0,1,65]) ∧ ∀ before, ¬ Safe [.argvArray] (ofBytes [0,1,65]) before := by
  refine ⟨⟨by decide,by decide⟩,?_⟩
  rintro before ⟨back,hb,-⟩
  cases hb

end Aff4.Pyflag
