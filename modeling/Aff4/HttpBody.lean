import Aff4.Lib.Strtoll
import Aff4.MapRead
import Aff4.Readline

/-! The body of an HTTP message (`handle_encoding` of HTTP.py), which is read with `readline` of
file.c. -/

namespace Aff4.Pyflag.Http

open LittleEndian Text List Option FileBackedObject

/-- `int` of Python 2 for a string. -/
def pyInt (base : Nat) (text : Bytes) : Option Int :=
  let (negative,text) := takeSign (text.dropWhile isSpace)
  let text := if base = 16 ∧ (text.take 2 = [48,120] ∨ text.take 2 = [48,88])
    then text.drop 2 else text
  let digits := text.takeWhile (inBase base)
  let value : Int := numeralIn base digits
  if digits ≠ [] ∧ (text.dropWhile (inBase base)).all isSpace then
    some (if negative then -value else value)
  else none

structure Headers where
  contentLength : Option Bytes
  transferEncoding : Option Bytes
  connection : Option Bytes

def lower (text : Bytes) : Bytes := text.map fun c => if 65 ≤ c ∧ c ≤ 90 then c+32 else c

/-- The calls of `write_from`, by offset and length. -/
abbrev Parts := List (Nat × Int)

/-- The map that the calls make. The binding takes 64-bit numbers as their low bits. -/
def built (urn : Bytes) (parts : Parts) : Option MapDriver :=
  parts.foldlM (fun map p => map.writeFrom urn (UInt64.ofNat p.1) (UInt64.ofInt p.2)) ⟨.con,0⟩

/-- `seek` relative to the current position. -/
def seekCur (fd : FileBackedObject) (offset : Int) : Option FileBackedObject :=
  let readptr := fd.readptr+Int.bmod offset (2^64)
  if readptr < 2^63 then some {fd with readptr := readptr.toNat} else none

def chunks : Nat → FileBackedObject → Parts → Option (Parts × FileBackedObject)
  | 0, _, _ => none
  | fuel+1, fd, parts =>
      let r := fd.readline 1024
      match pyInt 16 r.line with
      | none => some (parts,r.fd)
      | some length =>
          if length = 0 then some (parts,r.fd)
          else (seekCur r.fd (length+2)).bind fun fd =>
            chunks fuel fd (parts ++ [(r.fd.tell,length)])

def closing (headers : Headers) (fd : FileBackedObject) : Parts :=
  if headers.connection.any fun s => chars ['c','l','o','s','e'] <:+: lower s then
    [(fd.tell,fd.data.length-fd.tell)]
  else []

/-- `handle_encoding`, if the loop over the chunks ends within `fuel` turns. -/
def handleEncoding (fuel : Nat) (headers : Headers) (fd : FileBackedObject) :
    Option (Parts × FileBackedObject) :=
  match headers.contentLength with
  | some text => (pyInt 10 text).bind fun skip =>
      (seekCur fd skip).map fun next => ([(fd.tell,skip)],next)
  | none =>
      if headers.transferEncoding.any fun s => chars ['c','h','u','n','k','e','d'] <:+: lower s then
        chunks fuel fd []
      else some (closing headers fd,fd)

/-- A chunk with its size as it was sent. -/
structure Chunk where
  digits : Bytes
  extension : Bytes
  data : Bytes
  nonempty : digits ≠ []
  hexadecimal : ∀ c ∈ digits, inBase 16 c = true
  size : numeralIn 16 digits = data.length
  extended : extension ≠ [] → extension.head? = some 59
  clean : ∀ c ∈ extension, c ≠ 0 ∧ c ≠ carriageReturn ∧ c ≠ newline

lemma hex_plain {c : UInt8} (h : inBase 16 c = true) :
    isSpace c = false ∧ c ∉ [0,10,13,43,45,59,88,120] := by
  have ha : ∀ n : Fin 256, inBase 16 (UInt8.ofNat n) = true →
      isSpace (UInt8.ofNat n) = false ∧ UInt8.ofNat n ∉ [0,10,13,43,45,59,88,120] := by decide +kernel
  simpa using ha ⟨c.toNat,c.toNat_lt⟩ (by simpa using h)

namespace Chunk

def line (c : Chunk) : TextLine where
  text := c.digits ++ c.extension
  crlf := true
  nonempty := by simp [c.nonempty]
  clean x hx := by
    rcases mem_append.mp hx with hx | hx
    · have := (hex_plain (c.hexadecimal x hx)).2
      simp_all [carriageReturn,newline]
    · exact c.clean x hx

def bytes (c : Chunk) : Bytes := c.line.bytes ++ c.data ++ [carriageReturn,newline]

lemma pyInt_line (c : Chunk) :
    pyInt 16 c.line.text = if c.extension = [] then some (c.data.length : Int) else none := by
  obtain ⟨digits,extension,data,hne,hh,hsz,he,_⟩ := c
  obtain ⟨hb,ha,hal⟩ : extension.takeWhile (inBase 16) = [] ∧
      extension.dropWhile (inBase 16) = extension ∧
        extension.all isSpace = decide (extension = []) := by
    cases extension with
    | nil => simp
    | cons x extension =>
      obtain rfl : x = 59 := some.inj (he (by simp))
      exact ⟨rfl,rfl,by simp [show isSpace 59 = false by decide]⟩
  have ht : (digits ++ extension).takeWhile _ = _ := takeWhile_append_of_pos hh
  have hdr : (digits ++ extension).dropWhile _ = _ := dropWhile_append_of_pos hh
  obtain ⟨d,ds,rfl⟩ := exists_cons_of_ne_nil hne
  obtain ⟨hsp,hd⟩ := hex_plain (hh d (by simp))
  have hsg : takeSign (d :: (ds ++ extension)) = (false,d :: (ds ++ extension)) := by
    rw [takeSign] <;> grind
  have hm : ¬ ((d :: (ds ++ extension)).take 2 = [48,120] ∨
      (d :: (ds ++ extension)).take 2 = [48,88]) := by
    cases ds with
    | nil => cases extension <;> simp_all
    | cons e ds =>
      have := (hex_plain (hh e (by simp))).2
      simp_all
  rw [hb,append_nil] at ht
  rw [ha] at hdr
  simp only [pyInt,line,cons_append,dropWhile_cons,hsp,Bool.false_eq_true,if_false,hsg,hm,
    and_false] at ht hdr ⊢
  rw [ht,hdr,hal,hsz]
  simp

lemma length_bytes (c : Chunk) :
    c.bytes.length = c.line.bytes.length+(c.data.length+2) := by simp [bytes]

/-- The line with the size fits into a call of `readline`. -/
def Short (c : Chunk) : Prop := c.line.bytes.length ≤ 1024

lemma readline_short {c : Chunk} (hs : c.Short) {fd : FileBackedObject} {rest : Bytes}
    (h : fd.rest = c.bytes ++ rest) : (fd.readline 1024).line = c.line.text ∧
      (fd.readline 1024).fd = {fd with readptr := fd.readptr+c.line.bytes.length} := by
  rw [bytes,append_assoc,append_assoc] at h
  have hf : c.line.Found (min (min (1024 : UInt32).toNat readLimit)
      (c.line.bytes ++ (c.data ++ ([carriageReturn,newline] ++ rest))).length) := by
    have hlm : min (1024 : UInt32).toNat readLimit = 1024 := by decide
    have hl : c.line.bytes.length ≤ 1024 := hs
    rw [TextLine.Found,if_pos (show c.line.crlf = true from rfl),hlm,length_append]
    omega
  obtain ⟨hl,hp⟩ := readline_found h hf
  exact ⟨hl,by rw [← hp,← readline_data fd 1024]⟩

end Chunk

lemma rest_after {fd : FileBackedObject} {front rest : Bytes} (h : fd.rest = front ++ rest) :
    FileBackedObject.rest ⟨fd.data,fd.readptr+front.length⟩ = rest := by
  rw [FileBackedObject.rest,← drop_drop,← FileBackedObject.rest,h,drop_left]

def body (cs : List Chunk) (last : Chunk) : Bytes := (cs ++ [last]).flatMap Chunk.bytes

/-- How the loop divides what is left of the stream, from the line it reads next on: the calls of
`write_from` and where it stops. -/
inductive Takes : FileBackedObject → Parts → FileBackedObject → Prop
  | stop {fd : FileBackedObject} (h : (pyInt 16 (fd.readline 1024).line).getD 0 = 0) :
      Takes fd [] (fd.readline 1024).fd
  | piece {fd mid next : FileBackedObject} {length : Int} {parts : Parts}
      (hline : pyInt 16 (fd.readline 1024).line = some length) (hne : length ≠ 0)
      (hseek : seekCur (fd.readline 1024).fd (length+2) = some mid) (h : Takes mid parts next) :
      Takes fd (((fd.readline 1024).fd.tell,length) :: parts) next

lemma chunks_iff_takes {fd next : FileBackedObject} {parts all : Parts} :
    (∃ fuel, chunks fuel fd parts = some (all,next)) ↔
      ∃ more, all = parts ++ more ∧ Takes fd more next := by
  constructor
  · rintro ⟨fuel,h⟩
    induction fuel generalizing fd parts with
    | zero => cases h
    | succ fuel ih =>
      rw [chunks] at h
      cases hl : pyInt 16 (fd.readline 1024).line with
      | none =>
        simp only [hl,some.injEq,Prod.mk.injEq] at h
        exact ⟨[],by rw [append_nil,h.1],h.2 ▸ .stop (by rw [hl,getD_none])⟩
      | some length =>
        simp only [hl] at h
        split at h
        · next hz =>
          simp only [some.injEq,Prod.mk.injEq] at h
          exact ⟨[],by rw [append_nil,h.1],h.2 ▸ .stop (by rw [hl,getD_some,hz])⟩
        · next hne =>
          obtain ⟨mid,hsk,hr⟩ := bind_eq_some_iff.mp h
          obtain ⟨more,rfl,hm⟩ := ih hr
          exact ⟨_ :: more,by rw [append_assoc]; rfl,.piece hl hne hsk hm⟩
  · rintro ⟨more,rfl,ht⟩
    induction ht generalizing parts with
    | @stop fd h =>
      refine ⟨1,?_⟩
      rw [chunks,append_nil]
      cases hl : pyInt 16 (fd.readline 1024).line with
      | none => rfl
      | some length =>
        rw [hl,getD_some] at h
        exact if_pos h
    | piece hl hne hsk _ ih =>
      obtain ⟨fuel,hf⟩ := @ih (parts ++ [(_,_)])
      refine ⟨fuel+1,?_⟩
      rw [chunks,hl]
      simp only [if_neg hne,hsk,bind_some]
      rw [hf,append_assoc]
      rfl

section

variable {c : Chunk} (hs : c.Short) {fd next : FileBackedObject} {rest : Bytes}
  (hr : fd.rest = c.bytes ++ rest) {parts : Parts}

include hs hr

/-- The last chunk, or one with an extension, ends the loop behind its line. -/
lemma takes_last (hla : c.extension = [] → c.data = []) (h : Takes fd parts next) :
    next.readptr = fd.readptr+c.line.bytes.length := by
  obtain ⟨hln,hfd⟩ := c.readline_short hs hr
  cases h with
  | stop => rw [hfd]
  | piece hl hne =>
    rw [hln,c.pyInt_line] at hl
    split at hl
    · next he =>
      simp only [some.injEq,hla he,length_nil] at hl
      exact absurd hl.symm hne
    · cases hl

lemma takes_cons (he : c.extension = []) (hd : c.data ≠ [])
    (hen : fd.readptr+c.bytes.length < 2^63) :
    Takes fd parts next ↔ ∃ more, parts = (fd.readptr+c.line.bytes.length,(c.data.length : Int)) :: more ∧
      Takes {fd with readptr := fd.readptr+c.bytes.length} more next := by
  obtain ⟨hln,hfd⟩ := c.readline_short hs hr
  have hl : pyInt 16 (fd.readline 1024).line = some (c.data.length : Int) := by
    rw [hln,c.pyInt_line,if_pos he]
  have hps : 0 < c.data.length := length_pos_of_ne_nil hd
  have hb := c.length_bytes
  have hsk : seekCur (fd.readline 1024).fd (c.data.length+2) =
      some {fd with readptr := fd.readptr+c.bytes.length} := by
    have hm : Int.bmod (c.data.length+2) (2^64) = c.data.length+2 := by
      rw [Int.bmod_eq_of_le] <;> omega
    have hpt : (fd.readptr+c.line.bytes.length : Nat)+((c.data.length : Int)+2) =
        (fd.readptr+c.bytes.length : Nat) := by omega
    simp only [seekCur,hfd,hm,hpt,Int.toNat_natCast]
    rw [if_pos (by omega)]
  constructor
  · intro h
    cases h with
    | stop h =>
      rw [hl,getD_some] at h
      omega
    | piece hln' hne hsk' h =>
      obtain rfl := some.inj (hl.symm.trans hln')
      obtain rfl := some.inj (hsk.symm.trans hsk')
      refine ⟨_,?_,h⟩
      rw [hfd]
      rfl
  · rintro ⟨more,rfl,h⟩
    have hp := Takes.piece hl (by omega) hsk h
    rw [hfd] at hp
    exact hp

end

/-- What the loop makes of chunks that it reads in the right way. -/
def partsOf : Nat → List Chunk → Parts
  | _, [] => []
  | pos, c :: cs => (pos+c.line.bytes.length,c.data.length) :: partsOf (pos+c.bytes.length) cs

lemma takes_front {front : List Chunk} {fd next : FileBackedObject} {rest : Bytes} {parts : Parts}
    (hf : ∀ c ∈ front, (c.Short ∧ c.extension = []) ∧ c.data ≠ [])
    (hr : fd.rest = front.flatMap Chunk.bytes ++ rest) (hsz : fd.data.length < 2^63) :
    Takes fd parts next ↔ ∃ more, parts = partsOf fd.readptr front ++ more ∧
      Takes {fd with readptr := fd.readptr+(front.flatMap Chunk.bytes).length} more next := by
  induction front generalizing fd parts with
  | nil => simp [partsOf]
  | cons c front ih =>
    obtain ⟨⟨hs,he⟩,hdt⟩ := hf c mem_cons_self
    rw [flatMap_cons,append_assoc] at hr
    have hl := congrArg length hr
    rw [FileBackedObject.rest,length_drop,length_append] at hl
    have hp : 0 < c.bytes.length := by
      rw [c.length_bytes]
      omega
    rw [takes_cons hs hr he hdt (by omega)]
    have hst := fun more : Parts =>
      (ih (fun d hd => hf d (mem_cons_of_mem c hd)) (rest_after hr) hsz : Takes _ more next ↔ _)
    simp only [hst,flatMap_cons,length_append,partsOf,add_assoc]
    constructor
    · rintro ⟨_,rfl,more,rfl,h⟩
      exact ⟨more,rfl,h⟩
    · rintro ⟨more,rfl,h⟩
      exact ⟨_,rfl,more,rfl,h⟩

/-- The bytes of the map, which has one target. -/
structure Reads (urn data : Bytes) (map : MapValue) (content : Bytes) : Prop where
  size : map.size.toNat = content.length
  byte : ∀ i < content.length, ∃ range, map.getRange (UInt64.ofNat i) = some (some range) ∧
    range.target.value = (RDFURN.set urn).value ∧ data[range.targetOffset.toNat]? = content[i]?

/-- The map has the data of the chunks, and the stream is behind the body. -/
def Right (urn : Bytes) (fd : FileBackedObject) (cs : List Chunk) (last : Chunk) (parts : Parts)
    (next : FileBackedObject) : Prop :=
  next.readptr = fd.readptr+(body cs last).length ∧
    ∃ map, built urn parts = some map ∧ Reads urn fd.data map.map (cs.flatMap Chunk.data)

lemma exists_first {P : Chunk → Prop} {cs : List Chunk} (h : ∃ c ∈ cs, ¬ P c) :
    ∃ front c back, cs = front ++ c :: back ∧ (∀ d ∈ front, P d) ∧ ¬ P c := by
  induction cs with
  | nil => simp at h
  | cons c cs ih =>
    by_cases hc : P c
    · obtain ⟨front,d,back,rfl,hf,hd⟩ := ih (by simpa [hc] using h)
      exact ⟨c :: front,d,back,rfl,by simpa [hc] using hf,hd⟩
    · exact ⟨[],c,cs,rfl,by simp,hc⟩

/-- A chunked body is handled in the right way only when a size line is too long for `readline`,
the chunks before it have no extension, and what the loop takes from there on happens to be right. -/
theorem handleEncoding_chunked_iff (urn : Bytes) {headers : Headers}
    (hl : headers.contentLength = none)
    (hch : headers.transferEncoding.any fun s =>
      chars ['c','h','u','n','k','e','d'] <:+: lower s)
    {cs : List Chunk} (hcs : ∀ c ∈ cs, c.data ≠ []) {last : Chunk} (hla : last.data = [])
    {fd : FileBackedObject} {after : Bytes} (hr : fd.rest = body cs last ++ after)
    (hsz : fd.data.length < 2^63) :
    (∃ fuel parts next, handleEncoding fuel headers fd = some (parts,next) ∧
      Right urn fd cs last parts next) ↔
    ∃ front c back, cs ++ [last] = front ++ c :: back ∧
      (∀ d ∈ front, d.Short ∧ d.extension = []) ∧ ¬ c.Short ∧
      ∃ parts next, Takes {fd with readptr := fd.readptr+(front.flatMap Chunk.bytes).length} parts next ∧
        Right urn fd cs last (partsOf fd.readptr front ++ parts) next := by
  have hrtr : (∃ fuel parts next, handleEncoding fuel headers fd = some (parts,next) ∧
      Right urn fd cs last parts next) ↔ ∃ parts next, Takes fd parts next ∧
        Right urn fd cs last parts next := by
    simp only [handleEncoding,hl,hch,if_true]
    constructor
    · rintro ⟨fuel,parts,next,hre,hrt⟩
      obtain ⟨more,hm,ht⟩ := chunks_iff_takes.mp ⟨fuel,hre⟩
      rw [nil_append] at hm
      exact ⟨parts,next,hm ▸ ht,hrt⟩
    · rintro ⟨parts,next,ht,hrt⟩
      obtain ⟨fuel,hre⟩ := chunks_iff_takes.mpr ⟨parts,(nil_append parts).symm,ht⟩
      exact ⟨fuel,parts,next,hre,hrt⟩
  -- every chunk before the one at which the list is split has data
  have hdt : ∀ front c back, cs ++ [last] = front ++ c :: back → ∀ d ∈ front, d.data ≠ [] := by
    intro front c back hsp d hd
    have hf : front <+: cs := by
      refine prefix_of_prefix_length_le (hsp ▸ prefix_append _ _ : front <+: cs ++ [last])
        (prefix_append _ _) ?_
      have := congrArg length hsp
      simp only [length_append,length_cons,length_nil] at this
      omega
    exact hcs d (hf.subset hd)
  have hb : ∀ front c back, cs ++ [last] = front ++ c :: back → fd.rest =
      front.flatMap Chunk.bytes ++ (c.bytes ++ (back.flatMap Chunk.bytes ++ after)) := by
    intro front c back hsp
    rw [hr,body,hsp]
    simp
  rw [hrtr]
  constructor
  · rintro ⟨parts,next,ht,hrt⟩
    obtain ⟨front,c,back,hsp,hf,hc⟩ := exists_first
      (P := fun c => (c.Short ∧ c.extension = []) ∧ c.data ≠ [])
      ⟨last,(by simp : last ∈ cs ++ [last]),by simp [hla]⟩
    have hr' := hb front c back hsp
    obtain ⟨more,rfl,hm⟩ := (takes_front hf hr' hsz).mp ht
    refine ⟨front,c,back,hsp,fun d hd => (hf d hd).1,fun hs => ?_,more,next,hm,hrt⟩
    -- the loop ends behind the line of the chunk, before the body ends
    have hst := takes_last hs (rest_after hr') (fun he => by
      by_contra hne
      exact hc ⟨⟨hs,he⟩,hne⟩) hm
    have hen := hrt.1
    have hl : (body cs last).length =
        (front.flatMap Chunk.bytes).length+(c.bytes.length+(back.flatMap Chunk.bytes).length) := by
      rw [body,hsp]
      simp only [flatMap_append,flatMap_cons,length_append]
    have hbs := c.length_bytes
    simp only at hst
    omega
  · rintro ⟨front,c,back,hsp,hf,-,parts,next,ht,hrt⟩
    refine ⟨_,next,(takes_front (fun d hd => ⟨hf d hd,hdt front c back hsp d hd⟩)
      (hb front c back hsp) hsz).mpr ⟨parts,rfl,ht⟩,hrt⟩

def lastChunk : Chunk := ⟨[48],[],[],by simp,by simp; rfl,rfl,by simp,by simp⟩

def plainChunk : Chunk := ⟨[49],[],[7],by simp,by simp; rfl,rfl,by simp,by simp⟩

def extendedChunk : Chunk := ⟨[49],[59],[7],by simp,by simp; rfl,rfl,by simp,by simp; decide⟩

def chunkedHeaders : Headers := ⟨none,some (chars ['c','h','u','n','k','e','d']),none⟩

/-- A chunk of 17 bytes with 1023 zeros in front of its size. The first 1024 digits are read as the
size 1, and the rest of the line as the data. -/
def longChunk : Chunk where
  digits := replicate 1023 48 ++ [49,49]
  extension := []
  data := [49,48,13,10,48,13,10,48,13,10,48,13,10,48,13,10,48]
  nonempty := append_ne_nil_of_right_ne_nil _ (by simp)
  hexadecimal := by decide +kernel
  size := by decide +kernel
  extended := by simp
  clean := by simp

lemma longChunk_data : ∀ c ∈ [longChunk], c.data ≠ [] := by
  intro c hc
  rw [mem_singleton.mp hc]
  decide

/-- The size and the bytes of the map that the loop makes of the body with the long line. -/
lemma longChunk_map : (built [120] [(1024,1),(1031,16)]).all (fun map => decide (map.map.size.toNat = 17 ∧
    ∀ i < 17, ((map.map.getRange (UInt64.ofNat i)).bind id).map (fun range =>
      (range.target.value,(body [longChunk] lastChunk)[range.targetOffset.toNat]?)) =
        some ((RDFURN.set [120]).value,longChunk.data[i]?))) = true ∧
    (built [120] [(1024,1),(1031,16)]).isSome = true := by
  decide +kernel

theorem handleEncoding_chunked_iff_long : ¬ longChunk.Short ∧ ∃ fuel parts next,
    handleEncoding fuel chunkedHeaders ⟨body [longChunk] lastChunk,0⟩ = some (parts,next) ∧
      Right [120] ⟨body [longChunk] lastChunk,0⟩ [longChunk] lastChunk parts next := by
  have hs : ¬ longChunk.Short := by
    rw [Chunk.Short]
    decide +kernel
  have hch : chunks 3 ⟨body [longChunk] lastChunk,0⟩ [] =
      some ([(1024,1),(1031,16)],⟨body [longChunk] lastChunk,1051⟩) := by decide +kernel
  obtain ⟨parts,hp,ht⟩ := chunks_iff_takes.mp ⟨3,hch⟩
  obtain ⟨map,hm⟩ := isSome_iff_exists.mp longChunk_map.2
  have hc := longChunk_map.1
  rw [hm,all_some,decide_eq_true_eq] at hc
  refine ⟨hs,(handleEncoding_chunked_iff [120] rfl (by decide +kernel) longChunk_data rfl
    (append_nil _).symm (by decide +kernel)).mpr ⟨[],longChunk,[lastChunk],rfl,by simp,hs,
      parts,_,ht,by decide +kernel,map,hp ▸ hm,?_⟩⟩
  refine ⟨hc.1,fun i hi => ?_⟩
  have hb := hc.2 i hi
  simp only [map_eq_some_iff,bind_eq_some_iff,id] at hb
  obtain ⟨range,⟨found,hf,hra⟩,heq⟩ := hb
  refine ⟨range,hra ▸ hf,(Prod.mk.inj heq).1,?_⟩
  simpa using (Prod.mk.inj heq).2

/-- The end of the body is 11, and a chunk with an extension is lost. -/
theorem handleEncoding_stops_early : (body [plainChunk] lastChunk).length = 11 ∧
    handleEncoding 2 chunkedHeaders ⟨body [plainChunk] lastChunk,0⟩ =
      some ([(3,1)],⟨body [plainChunk] lastChunk,9⟩) ∧
    handleEncoding 1 chunkedHeaders ⟨body [extendedChunk] lastChunk,0⟩ =
      some ([],⟨body [extendedChunk] lastChunk,4⟩) := by
  decide +kernel

end Aff4.Pyflag.Http
