import Mathlib.Data.List.Forall2

/-! A file in memory with a position, in which some places may be left unspecified, and when a
list of values is a possible content of it. -/

namespace ByteFile

variable {α : Type}

def Matches (spec : List (Option α)) (xs : List α) : Prop :=
  List.Forall₂ (fun place x => ∀ a ∈ place, a = x) spec xs

variable {spec spec' : List (Option α)} {xs xs' : List α}

lemma Matches.append (h : Matches spec xs) (h' : Matches spec' xs') :
    Matches (spec ++ spec') (xs ++ xs') := List.rel_append h h'

lemma Matches.take (h : Matches spec xs) (n : Nat) : Matches (spec.take n) (xs.take n) :=
  List.forall₂_take n h

lemma Matches.drop (h : Matches spec xs) (n : Nat) : Matches (spec.drop n) (xs.drop n) :=
  List.forall₂_drop n h

lemma matches_some (xs : List α) : Matches (xs.map some) xs := by
  induction xs with
  | nil => exact .nil
  | cons x xs ih => exact .cons (by simp) ih

lemma matches_none (xs : List α) : Matches (List.replicate xs.length none) xs := by
  induction xs with
  | nil => exact .nil
  | cons x xs ih => exact .cons (by simp) ih

end ByteFile

structure ByteFile (α : Type) where
  content : List (Option α)
  pos : Nat
  inside : pos ≤ content.length

namespace ByteFile

variable {α : Type}

def empty : ByteFile α := ⟨[],0,Nat.le_refl 0⟩

def write (file : ByteFile α) (xs : List α) : ByteFile α where
  content := file.content.take file.pos ++ xs.map some ++ file.content.drop (file.pos+xs.length)
  pos := file.pos+xs.length
  inside := by
    have := file.inside
    simp
    omega

/-- The places between the end of the file and the new position are not specified. -/
def seek (file : ByteFile α) (pos : Nat) : ByteFile α where
  content := file.content ++ List.replicate (pos-file.content.length) none
  pos := pos
  inside := by
    simp
    omega

def truncate (file : ByteFile α) (len : Nat) : ByteFile α where
  content := file.content.take len
  pos := min file.pos len
  inside := by
    have := file.inside
    simp
    omega

def skip (file : ByteFile α) (len : Nat) : ByteFile α := ⟨file.content.drop len,0,Nat.zero_le _⟩

def read (file : ByteFile α) (len : Nat) : List (Option α) × ByteFile α :=
  ((file.content.drop file.pos).take len,
    ⟨file.content,file.pos+min len (file.content.length-file.pos),by
      have := file.inside
      omega⟩)

lemma write_length (file : ByteFile α) (xs : List α) :
    (file.write xs).content.length = max file.content.length (file.pos+xs.length) := by
  have := file.inside
  simp [write]
  omega

end ByteFile
