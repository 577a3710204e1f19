import Aff4.Lib.Bits
import Aff4.Lib.Buffer
import Aff4.Lib.Loop
import Aff4.Memory
import Mathlib.Data.List.Basic

/-! The codecs of encode.c: the tables of `encode_init`, base64 and base32. An access
outside of a buffer and an `int` that overflows have no result. -/

namespace Aff4

open LittleEndian Loop Buffer List UInt8

/-- A table of `LUT_SIZE` bytes, indexed by an `unsigned char`. -/
abbrev Lut := UInt8 → UInt8

def Lut.set (lut : Lut) (j : Nat) (c : UInt8) : Lut := Function.update lut (UInt8.ofNat j) c

/-- The loops that count a character up or down, with `j` the next index. -/
def fillLut (next : UInt8 → UInt8) : Nat → UInt8 → Lut × Nat → Lut × Nat
  | 0, _, s => s
  | count+1, c, (lut,j) => fillLut next count (next c) (lut.set j c,j+1)

def countUp (first last : UInt8) : Lut × Nat → Lut × Nat :=
  fillLut (fun c => c+1) (last.toNat+1-first.toNat) first

def countDown (first last : UInt8) : Lut × Nat → Lut × Nat :=
  fillLut (fun c => c-1) (first.toNat+1-last.toNat) first

def reverseLut (lut : Lut) (n : Nat) : Lut :=
  (range n).foldl (fun r k => r.set (lut (UInt8.ofNat k)).toNat (UInt8.ofNat k)) fun _ => 32

structure Luts where
  encodeLut : Lut
  decodeLut : Lut
  encode64Lut : Lut
  decode64Lut : Lut

/-- `encode_init`. The tables that are safe for URLs are left out; their `j` counts
like that of the base64 table. -/
def encodeInit : Luts :=
  let (encodeLut,_) := countUp 65 90 (countDown 57 48 (countDown 122 98 (fun _ => 32,0)))
  let (encode64Lut,j) := countUp 48 57 (countUp 97 122 (countUp 65 90 (fun _ => 32,0)))
  let j := j-1
  let encode64Lut := encode64Lut.set (j+1) 43
  let encodeLut := encodeLut.set j 47
  let j := j+1
  let encode64Lut := encode64Lut.set (j+1) 47
  let encodeLut := encodeLut.set j 45
  let j := j+1
  let encodeLut := encodeLut.set j 43
  let j := j+1
  ⟨encodeLut,reverseLut encodeLut j,encode64Lut,reverseLut encode64Lut j⟩

structure Codec where
  i : Nat
  o : Nat
  outbuf : Bytes

/-- The end of every loop body: a block is written and both indices move on. -/
def Codec.put (s : Codec) (inStep outStep : Nat) (block : Bytes) : Option (Turn Codec Codec) :=
  (writeAt s.outbuf s.o block).bind fun outbuf =>
    if s.i+inStep < 2^31 ∧ s.o+outStep < 2^31 then
      some (.next ⟨s.i+inStep,s.o+outStep,outbuf⟩)
    else none

/-- The `switch` after an encoding loop: `stuff` takes the place of the symbols that
stand for bytes after the end, when there are at most `most` of these. -/
def Codec.stuff (s : Codec) (len most : Nat) (c : UInt8) : Option Bytes :=
  if s.i-len ≤ most then writeAt s.outbuf (s.o-(s.i-len)) (replicate (s.i-len) c)
  else some s.outbuf

/-- `if(inbuf[i-j]==c) o--`. An `o` from a loop that took a turn does not get below 0. -/
def trim (inbuf : Bytes) (i : Nat) (c : UInt8) (o : Option Nat) (j : Nat) : Option Nat :=
  o.bind fun o =>
    if i < j then none else (inbuf[i-j]?).map fun x => if x = c then o-1 else o

def encodeblock (lut : Lut) (x y z : UInt8) : Bytes :=
  [lut (x >>> 2),lut ((x &&& 0x03) <<< 4 ||| (y &&& 0xf0) >>> 4),
    lut ((y &&& 0x0f) <<< 2 ||| (z &&& 0xc0) >>> 6),
    lut (z &&& 0x3f)]

/-- The bytes written for the four symbols at `i`, which are fewer when fewer than
three are left. -/
def decodeblock (lut : Lut) (inbuf : Bytes) (i left : Nat) : Option Bytes :=
  match left with
  | 0 => some []
  | 1 =>
      (inbuf[i]?).bind fun c => (inbuf[i+1]?).map fun d => [lut c <<< 2 ||| lut d >>> 4]
  | 2 =>
      (inbuf[i]?).bind fun c => (inbuf[i+1]?).bind fun d => (inbuf[i+2]?).map fun e =>
        [lut c <<< 2 ||| lut d >>> 4,lut d <<< 4 ||| lut e >>> 2]
  | _ =>
      (inbuf[i]?).bind fun c => (inbuf[i+1]?).bind fun d => (inbuf[i+2]?).bind fun e =>
        (inbuf[i+3]?).map fun f =>
          [lut c <<< 2 ||| lut d >>> 4,lut d <<< 4 ||| lut e >>> 2,(lut e <<< 6 &&& 0xc0) ||| lut f]

/-- `input` is the memory from `inbuf` on. -/
def encode64Turn (input : Nat → Option UInt8) (len outlen : Nat) (s : Codec) :
    Option (Turn Codec Codec) :=
  if s.i < len ∧ s.o < outlen then
    (input s.i).bind fun x => (input (s.i+1)).bind fun y => (input (s.i+2)).bind fun z =>
      s.put 3 4 (encodeblock encodeInit.encode64Lut x y z)
  else some (.done s)

def encode64 (input : Nat → Option UInt8) (len : Nat) (outbuf : Bytes) (outlen : Nat) :
    Option (Nat × Bytes) :=
  if len*2 < 2^31 then
    (writeAt outbuf 0 (replicate (len*2) 0)).bind fun outbuf =>
      (loop (encode64Turn input len outlen) (len+1) ⟨0,0,outbuf⟩).bind fun s =>
        (s.stuff len 2 61).bind fun outbuf =>
          (writeAt outbuf s.o [0]).map fun outbuf => (s.o,outbuf)
  else none

def decode64Turn (inbuf : Bytes) (len outlen : Nat) (s : Codec) : Option (Turn Codec Codec) :=
  if s.i < len ∧ s.o < outlen then
    (decodeblock encodeInit.decode64Lut inbuf s.i (outlen-s.o)).bind (s.put 4 3)
  else some (.done s)

def decode64 (inbuf : Bytes) (len : Nat) (outbuf : Bytes) (outlen : Nat) : Option (Nat × Bytes) :=
  (loop (decode64Turn inbuf len outlen) (len+1) ⟨0,0,outbuf⟩).bind fun s =>
    ([1,2].foldl (trim inbuf s.i 61) (some s.o)).map fun o => (o,s.outbuf)

def encode32Turn (inbuf : Bytes) (s : Codec) : Option (Turn Codec Codec) :=
  if s.i < inbuf.length then
    let temp := Bits.pack 8 5 fun j => (inbuf.getD (s.i+j) 0).toNat
    s.put 5 8 ((range 8).map fun j =>
      encodeInit.encodeLut (UInt8.ofNat (temp >>> (j*5) &&& 0x1f)))
  else some (.done s)

/-- The size of the output buffer is not looked at. -/
def encode32 (inbuf outbuf : Bytes) : Option (Nat × Bytes) :=
  (loop (encode32Turn inbuf) (inbuf.length+1) ⟨0,0,outbuf⟩).bind fun s =>
    (s.stuff inbuf.length 4 97).bind fun outbuf =>
      (writeAt outbuf s.o [0]).map fun outbuf => (s.o,outbuf)

def decode32Turn (inbuf : Bytes) (len : Nat) (s : Codec) : Option (Turn Codec Codec) :=
  if s.i < len then
    if s.i+8 ≤ inbuf.length then
      let temp := Bits.pack 5 8 fun j => (encodeInit.decodeLut (inbuf.getD (s.i+j) 0)).toNat
      s.put 8 5 ((range 5).map fun j => UInt8.ofNat (temp >>> (j*8) &&& 0xff))
    else none
  else some (.done s)

def decode32 (inbuf : Bytes) (len : Nat) (outbuf : Bytes) : Option (Nat × Bytes) :=
  (loop (decode32Turn inbuf len) (len+1) ⟨0,0,outbuf⟩).bind fun s =>
    ([1,2,3,4].foldl (trim inbuf s.i 97) (some s.o)).map fun o => (o,s.outbuf)

namespace Codec

variable {buf : Bytes} {inStep outStep n fuel : Nat}

lemma put_overwrite {xs block : Bytes} {i : Nat}
    (hft : xs.length+block.length ≤ buf.length) (hi : i+inStep < 2^31)
    (ho : xs.length+outStep < 2^31) : put ⟨i,xs.length,overwrite buf xs⟩ inStep outStep block =
      some (.next ⟨i+inStep,xs.length+outStep,overwrite buf (xs ++ block)⟩) := by
  have hw : writeAt (overwrite buf xs) xs.length block = some (overwrite buf (xs ++ block)) := by
    rw [writeAt_overwrite block (le_refl _) (by omega) hft,take_length]
  simp only [put,hw,Option.bind_some]
  rw [if_pos ⟨hi,ho⟩]

section

variable {turn : Codec → Option (Turn Codec Codec)} {block : Nat → Bytes}
  (hb : ∀ k, (block k).length = outStep)
  (ht : ∀ k (out : Bytes), k < n → turn ⟨k*inStep,k*outStep,out⟩ =
    put ⟨k*inStep,k*outStep,out⟩ inStep outStep (block k))
  (hin : n*inStep < 2^31) (hou : n*outStep < 2^31) (hft : n*outStep ≤ buf.length)

include hb ht hin hou hft

lemma loop_blocks (hf : n ≤ fuel) : loop turn fuel ⟨0,0,buf⟩ = loop turn (fuel-n)
      ⟨n*inStep,n*outStep,overwrite buf ((range n).flatMap block)⟩ := by
  let state : Nat → Codec := fun k =>
    ⟨k*inStep,k*outStep,overwrite buf ((range k).flatMap block)⟩
  have hn : ∀ k, k < n → turn (state k) = some (.next (state (k+1))) := by
    intro k hk
    have hl := flatMap_range_length hb k
    have hi := Nat.mul_le_mul_right inStep (Nat.succ_le_of_lt hk)
    have ho := Nat.mul_le_mul_right outStep (Nat.succ_le_of_lt hk)
    rw [Nat.succ_mul] at hi ho
    have hp := put_overwrite
      (show ((range k).flatMap block).length+(block k).length ≤ buf.length by
        rw [hl,hb]; omega)
      (show k*inStep+inStep < 2^31 by omega)
      (show ((range k).flatMap block).length+outStep < 2^31 by omega)
    rw [hl] at hp
    simp only [state]
    rw [ht k _ hk,hp,Nat.succ_mul,Nat.succ_mul,range_succ,flatMap_append]
    simp
  have hr := loop_counted state hn (Nat.zero_le n) (show n-0 ≤ fuel by omega)
  simpa [state,overwrite] using hr

lemma loop_blocks_done
    (hd : ∀ out : Bytes, turn ⟨n*inStep,n*outStep,out⟩ = some (.done ⟨n*inStep,n*outStep,out⟩))
    (hf : n < fuel) : loop turn fuel ⟨0,0,buf⟩ =
      some ⟨n*inStep,n*outStep,overwrite buf ((range n).flatMap block)⟩ := by
  obtain ⟨rest,hr⟩ : ∃ rest, fuel-n = rest+1 := ⟨fuel-n-1,by omega⟩
  rw [loop_blocks hb ht hin hou hft (le_of_lt hf),hr,loop_done (hd _)]

end

lemma put_cases {s : Codec} {block : Bytes} {turn : Turn Codec Codec}
    (h : s.put inStep outStep block = some turn) :
    ∃ t, turn = .next t ∧ t.i = s.i+inStep ∧ t.o = s.o+outStep ∧ t.o < 2^31 ∧
      t.outbuf.length = s.outbuf.length := by
  obtain ⟨outbuf,hw,h⟩ := Option.bind_eq_some_iff.mp h
  by_cases hint : s.i+inStep < 2^31 ∧ s.o+outStep < 2^31
  · rw [if_pos hint] at h
    exact ⟨_,(Option.some.inj h).symm,rfl,rfl,hint.2,(writeAt_length hw).1⟩
  · rw [if_neg hint] at h
    cases h

end Codec

def stuffed (symbols : Bytes) (r : Nat) (c : UInt8) : Bytes :=
  symbols.take (symbols.length-r) ++ replicate r c

variable {symbols : Bytes}

variable {r i most : Nat}

lemma stuffed_length (h : r ≤ symbols.length) (c : UInt8) :
    (stuffed symbols r c).length = symbols.length := by
  simp [stuffed]
  omega

lemma stuffed_get (h : i < symbols.length-r) (c : UInt8) :
    (stuffed symbols r c)[i]? = symbols[i]? := by
  rw [stuffed,getElem?_append_left (by simp; omega),getElem?_take_of_lt h]

lemma stuffed_get_end (h : symbols.length-r ≤ i)
    (hi : i < symbols.length) (c : UInt8) : (stuffed symbols r c)[i]? = some c := by
  have hl : (symbols.take (symbols.length-r)).length = symbols.length-r := by simp
  rw [stuffed,getElem?_append_right (by omega),getElem?_replicate,if_pos (by omega)]

lemma finish_overwrite (buf symbols : Bytes) {len : Nat} (hr : i-len = r)
    (hm : r ≤ most) (hle : r ≤ symbols.length) (hft : symbols.length < buf.length) (c : UInt8) :
    ((Codec.stuff ⟨i,symbols.length,overwrite buf symbols⟩ len most c).bind fun outbuf =>
      (writeAt outbuf symbols.length [0]).map fun outbuf => (symbols.length,outbuf)) =
      some (symbols.length,overwrite buf (stuffed symbols r c ++ [0])) := by
  have hs : writeAt (overwrite buf symbols) (symbols.length-r) (replicate r c) =
      some (overwrite buf (stuffed symbols r c)) :=
    writeAt_overwrite _ (by omega) (by simp; omega) (by simp; omega)
  have hn : writeAt (overwrite buf (stuffed symbols r c)) symbols.length [0] =
      some (overwrite buf (stuffed symbols r c ++ [0])) := by
    have hl := stuffed_length hle c
    rw [writeAt_overwrite [0] (by omega) (by omega) (by simp; omega),take_of_length_le (by omega)]
  simp [Codec.stuff,hr,hm,hs,hn]

lemma trim_stuffed {inbuf symbols : Bytes} {c : UInt8} (hm : most ≤ symbols.length)
    (hin : ∀ i, i < symbols.length → inbuf[i]? = (stuffed symbols r c)[i]?)
    (hc : ∀ x ∈ symbols, x ≠ c) (o : Nat) :
    (range' 1 most).foldl (trim inbuf symbols.length c) (some o) = some (o-min most r) := by
  induction most with
  | zero => simp
  | succ most ih =>
    rw [range'_concat,foldl_append,ih (by omega)]
    have hg := hin (symbols.length-(1+most)) (by omega)
    simp only [Nat.one_mul,foldl_cons,foldl_nil,trim,Option.bind_some]
    rw [if_neg (by omega),hg]
    by_cases he : most < r
    · rw [stuffed_get_end (by omega) (by omega)]
      simp
      omega
    · rw [stuffed_get (by omega),getElem?_eq_getElem (by omega)]
      have hne := hc _ (getElem_mem (show symbols.length-(1+most) < symbols.length by omega))
      simp [hne]
      omega

lemma reverseLut_apply {lut : Lut} {n : Nat}
    (h : ((range n).map fun k => lut (ofNat k)).Nodup) {k : Nat} (hk : k < n) :
    reverseLut lut n (lut (ofNat k)) = ofNat k := by
  induction n with
  | zero => omega
  | succ n ih =>
    have hs : reverseLut lut (n+1) = Function.update (reverseLut lut n) (lut (ofNat n))
        (ofNat n) := by simp [reverseLut,range_succ,Lut.set]
    rw [range_succ,map_append,nodup_append] at h
    by_cases hkn : k = n
    · rw [hs,hkn,Function.update_self]
    · have hne : lut (ofNat k) ≠ lut (ofNat n) :=
        h.2.2 _ (mem_map.mpr ⟨k,mem_range.mpr (by omega),rfl⟩) _ (by simp)
      rw [hs,Function.update_of_ne hne]
      exact ih h.1 (by omega)

lemma fillLut_index (next : UInt8 → UInt8) (count : Nat) (c : UInt8) (s : Lut × Nat) :
    (fillLut next count c s).2 = s.2+count := by
  induction count generalizing c s with
  | zero => rfl
  | succ count ih =>
    rw [fillLut,ih]
    omega

lemma decode64Lut_eq : encodeInit.decode64Lut = reverseLut encodeInit.encode64Lut 64 := by
  simp [encodeInit,countUp,fillLut_index]

lemma decodeLut_eq : encodeInit.decodeLut = reverseLut encodeInit.encodeLut 64 := by
  simp [encodeInit,countUp,fillLut_index]

lemma encode64Lut_nodup : ((range 64).map fun k => encodeInit.encode64Lut (ofNat k)).Nodup := by
  decide +kernel

lemma encodeLut_nodup : ((range 64).map fun k => encodeInit.encodeLut (ofNat k)).Nodup := by
  decide +kernel

end Aff4
