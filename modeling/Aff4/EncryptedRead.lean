import Aff4.Lib.Buffer
import Aff4.Encrypted

/-! Reading an encrypted stream (encrypt.c). Both `Encrypted_read` and `Encrypted_partialread`
advance the read pointer. -/

namespace Aff4

open LittleEndian Buffer Loop Transition Option

def asUnsigned (n : Int) : Nat := (n%2^64).toNat

structure Decrypting where
  stream : Encrypted
  buff : Bytes
  offset : Int
  deriving DecidableEq, Repr

namespace Encrypted

/-- Reads into the buffer at `offset` and gives the result, the buffer and the stream. A copy
outside the buffer or outside the chunk has no result. -/
def partialread (cipher : Cipher) (self : Encrypted) (buff : Bytes) (offset len : Nat) :
    Option (Int × Bytes × Encrypted) := do
  let chunkSize := asUnsigned self.chunkSize
  if chunkSize = 0 then none
  else
    let chunkId : Nat := asUnsigned self.readptr/chunkSize%2^32
    let chunkOffset := wrapInt (asUnsigned self.readptr%chunkSize : Nat)
    let availableToRead := wrapInt (min len (asUnsigned (chunkSize-chunkOffset)) : Nat)
    let cbuff := slice self.backing (wrapLong (chunkId*chunkSize : Nat)).toNat chunkSize
    if cbuff.length < chunkSize then some (-1,buff,self)
    else
      let dbuff := cipher.decrypt (wrapInt chunkId) cbuff
      if chunkOffset < 0 ∨ availableToRead < 0 then none
      else
        let data ← readAt dbuff chunkOffset.toNat availableToRead.toNat
        let buff ← writeAt buff offset data
        let readptr ← toLong (self.readptr+availableToRead)
        some (availableToRead,buff,{self with readptr := readptr})

def readTurn (cipher : Cipher) (length : Nat) (s : Decrypting) :
    Option (Turn Decrypting (Int × Bytes × Encrypted)) :=
  if asUnsigned s.offset < length then do
    let rest ← toLong (s.stream.size-s.stream.readptr)
    let availableToRead := wrapInt (min length (asUnsigned rest) : Nat)
    if availableToRead = 0 then some (.done (s.offset,s.buff,s.stream))
    else
      let (readLength,buff,stream) ←
        s.stream.partialread cipher s.buff s.offset.toNat (asUnsigned availableToRead)
      if readLength < 0 then some (.done (-1,buff,stream))
      else if readLength = 0 then some (.done (s.offset,buff,stream))
      else
        let offset ← toInt (s.offset+readLength)
        let readptr ← toLong (stream.readptr+readLength)
        some (.next ⟨{stream with readptr := readptr},buff,offset⟩)
  else some (.done (s.offset,s.buff,s.stream))

def read (cipher : Cipher) (self : Encrypted) (buff : Bytes) : Option (Int × Bytes × Encrypted) :=
  loop (readTurn cipher buff.length) (buff.length+1) ⟨self,buff,0⟩

end Encrypted

structure ClosedStream (cipher : Cipher) where
  chunkSize : Nat
  positive : 0 < chunkSize
  aligned : cipher.blocksize ∣ chunkSize
  writes : List Bytes
  stream : Encrypted
  closed : (run (Encrypted.write cipher) (.con chunkSize) writes).bind (Encrypted.close cipher) =
    some stream

namespace ClosedStream

variable {cipher : Cipher}

def plain (s : ClosedStream cipher) : Bytes := s.writes.flatten

def count (s : ClosedStream cipher) (p n : Nat) : Nat := min n (s.stream.size-p).toNat

/-- A read gives the bytes that are there and moves the read pointer past them, whatever the
buffer of `n` bytes held before. -/
def Reads (s : ClosedStream cipher) (p n : Nat) : Prop :=
  ∀ buff : Bytes, buff.length = n → ∃ out after,
    Encrypted.read cipher {s.stream with readptr := p} buff = some ((s.count p n : Int),out,after) ∧
      out.length = n ∧ out.take (s.count p n) = slice s.plain p (s.count p n) ∧
      after.readptr = p+s.count p n

end ClosedStream

namespace Encrypted

variable {cipher : Cipher} {u : Encrypted}

variable {after : Encrypted} {buff out : Bytes}

variable {count : Int} {length : Nat} {s : Decrypting}

lemma partialread_moves {offset len : Nat}
    (h : u.partialread cipher buff offset len = some (count,out,after))
    (hc : 0 ≤ count) : after.readptr = u.readptr+count ∧ out.length = buff.length ∧
      offset+count ≤ buff.length := by
  simp only [partialread,bind_eq_bind] at h
  split at h
  · cases h
  · split at h
    · cases h
      omega
    · split at h
      · cases h
      · obtain ⟨data,hd,h⟩ := bind_eq_some_iff.mp h
        obtain ⟨written,hw,h⟩ := bind_eq_some_iff.mp h
        obtain ⟨readptr,hr,h⟩ := bind_eq_some_iff.mp h
        simp only [some.injEq,Prod.mk.injEq] at h
        obtain ⟨rfl,rfl,rfl⟩ := h
        obtain ⟨hl,hrm⟩ := writeAt_length hw
        rw [readAt_length hd] at hrm
        exact ⟨(toLong_eq_some hr).1,hl,by omega⟩

lemma readTurn_next {t : Decrypting} (h : readTurn cipher length s = some (.next t)) :
    s.offset < t.offset ∧ t.stream.readptr-s.stream.readptr = 2*(t.offset-s.offset) ∧
      t.buff.length = s.buff.length ∧ s.offset.toNat+(t.offset-s.offset) ≤ s.buff.length := by
  simp only [readTurn,bind_eq_bind] at h
  split at h
  · obtain ⟨rest,-,h⟩ := bind_eq_some_iff.mp h
    split at h
    · cases h
    · obtain ⟨⟨count,buff,stream⟩,hp,h⟩ := bind_eq_some_iff.mp h
      dsimp only at h
      split at h
      · cases h
      · split at h
        · cases h
        · obtain ⟨offset,ho,h⟩ := bind_eq_some_iff.mp h
          obtain ⟨readptr,hr,h⟩ := bind_eq_some_iff.mp h
          cases h
          obtain ⟨hm,hl,hrm⟩ := partialread_moves hp (by omega)
          have := (toLong_eq_some hr).1
          have := (toInt_eq_some ho).1
          simp only
          omega
  · cases h

variable {result : Int × Bytes × Encrypted}

def Ahead (p : Int) (s : Decrypting) : Prop := s.stream.readptr = p+2*s.offset

lemma readTurn_done {p : Int}
    (hs : Ahead p s) (h : readTurn cipher length s = some (.done result)) (hc : 0 ≤ result.1) :
    result.2.2.readptr = p+2*result.1 := by
  simp only [readTurn,bind_eq_bind] at h
  split at h
  · obtain ⟨rest,-,h⟩ := bind_eq_some_iff.mp h
    split at h
    · cases h
      exact hs
    · obtain ⟨⟨count,buff,stream⟩,hp,h⟩ := bind_eq_some_iff.mp h
      split at h
      · cases h
        simp at hc
      · split at h
        · cases h
          have hm := (partialread_moves hp (by omega)).1
          rw [Ahead] at hs
          simp only
          omega
        · obtain ⟨offset,-,h⟩ := bind_eq_some_iff.mp h
          obtain ⟨readptr,-,h⟩ := bind_eq_some_iff.mp h
          cases h
  · cases h
    exact hs

lemma read_readptr (h : u.read cipher buff = some (count,out,after)) (hc : 0 ≤ count) :
    after.readptr = u.readptr+2*count := by
  refine loop_rule (Ahead u.readptr)
    (fun result => 0 ≤ result.1 → result.2.2.readptr = u.readptr+2*result.1)
    (fun s t hs ht => ?_) (fun s r hs hr => readTurn_done hs hr) ?_ h hc
  · have hm := (readTurn_next ht).2.1
    rw [Ahead] at hs ⊢
    omega
  · simp [Ahead]

end Encrypted

namespace ClosedStream

variable {cipher : Cipher}

/-- The only reads that are right are those of no bytes and at the end of the stream. -/
theorem read_iff (s : ClosedStream cipher) (p n : Nat) (hp : (p : Int) ≤ s.stream.size) :
    s.Reads p n ↔ n = 0 ∨ (p : Int) = s.stream.size := by
  constructor
  · intro h
    obtain ⟨out,after,hr,-,-,ha⟩ := h (List.replicate n 0) List.length_replicate
    have ht := Encrypted.read_readptr hr (by omega)
    have hz : s.count p n = 0 := by
      simp only at ht
      omega
    rw [count] at hz
    omega
  · intro h buff hb
    have hc : s.count p n = 0 := by
      rw [count]
      omega
    have hd : Encrypted.readTurn cipher buff.length ⟨{s.stream with readptr := p},buff,0⟩ =
        some (.done (0,buff,{s.stream with readptr := p})) := by
      rcases h with rfl | he
      · simp [Encrypted.readTurn,hb]
      · simp [Encrypted.readTurn,← he,toLong,asUnsigned,wrapInt]
    refine ⟨buff,{s.stream with readptr := p},?_,hb,by simp [hc,slice],by simp [hc]⟩
    rw [Encrypted.read,loop_done hd,hc]
    rfl

def eight : ClosedStream Encrypted.shift where
  chunkSize := 2
  positive := by decide
  aligned := by decide
  writes := [[1,2,3],[4,5,6,7,8]]
  stream := ⟨2,10,8,⟨[],0,1024⟩,[1,2,4,5,7,8,10,11,4,4]⟩
  closed := by decide +kernel

theorem read_at_end : (8 : Int) ≤ eight.stream.size ∧ eight.Reads 8 3 :=
  ⟨by decide,(eight.read_iff 8 3 (by decide)).mpr (.inr rfl)⟩

/-- After the first chunk the next one is passed over. -/
theorem read_spanning_fails : (0 : Int) ≤ eight.stream.size ∧ ¬ eight.Reads 0 6 := by
  refine ⟨by decide,fun h => ?_⟩
  obtain ⟨out,after,hr,-⟩ := h [0,0,0,0,0,0] rfl
  have hs : (Encrypted.read Encrypted.shift {eight.stream with readptr := 0}
      [0,0,0,0,0,0]).map (fun r => (r.1,r.2.1)) = some (4,[1,2,5,6,0,0]) := by decide +kernel
  have hc := hs.symm.trans (congrArg (Option.map fun r => (r.1,r.2.1)) hr)
  simp only [Option.map_some,Option.some.injEq,Prod.mk.injEq] at hc
  exact absurd hc.1 (by decide)

end ClosedStream

end Aff4
