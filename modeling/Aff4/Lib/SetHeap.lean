import Mathlib.Data.Finset.Lattice.Basic
import Mathlib.Data.Finset.Insert

/-! Mutable finite sets behind references. -/

/-- A reference is a number, and the references given out are below `next`. -/
structure SetHeap (α : Type) where
  cells : Nat → Finset α
  next : Nat

namespace SetHeap

variable {α : Type}

def empty : SetHeap α := ⟨fun _ => ∅,0⟩

def newSet (heap : SetHeap α) : Nat × SetHeap α :=
  (heap.next,⟨Function.update heap.cells heap.next ∅,heap.next+1⟩)

def assign (heap : SetHeap α) (ref : Nat) (s : Finset α) : SetHeap α :=
  { heap with cells := Function.update heap.cells ref s }

@[simp] lemma assign_self (heap : SetHeap α) (ref : Nat) (s : Finset α) :
    (heap.assign ref s).cells ref = s := Function.update_self ..

lemma assign_of_ne (heap : SetHeap α) {ref other : Nat} (h : other ≠ ref) (s : Finset α) :
    (heap.assign ref s).cells other = heap.cells other := Function.update_of_ne h ..

structure Keeps (heap heap' : SetHeap α) : Prop where
  next_le : heap.next ≤ heap'.next
  cells_eq : ∀ ref < heap.next, heap'.cells ref = heap.cells ref

lemma Keeps.refl (heap : SetHeap α) : heap.Keeps heap := ⟨le_refl _,fun _ _ => rfl⟩

lemma keeps_newSet (heap : SetHeap α) : heap.Keeps heap.newSet.2 where
  next_le := Nat.le_succ _
  cells_eq _ hlt := Function.update_of_ne (ne_of_lt hlt) ..

lemma newSet_cells (heap : SetHeap α) : heap.newSet.2.cells heap.newSet.1 = ∅ :=
  Function.update_self ..

lemma Keeps.assign {heap heap' : SetHeap α} (h : heap.Keeps heap') {ref : Nat}
    (hf : heap.next ≤ ref) (s : Finset α) : heap.Keeps (heap'.assign ref s) where
  next_le := h.next_le
  cells_eq other hlt := by rw [assign_of_ne _ (ne_of_lt (hlt.trans_le hf)),h.cells_eq other hlt]

variable [DecidableEq α]

def add (heap : SetHeap α) (ref : Nat) (a : α) : SetHeap α :=
  heap.assign ref (insert a (heap.cells ref))

def addAll (heap : SetHeap α) (ref other : Nat) : SetHeap α :=
  heap.assign ref (heap.cells ref ∪ heap.cells other)

def retainAll (heap : SetHeap α) (ref other : Nat) : SetHeap α :=
  heap.assign ref (heap.cells ref ∩ heap.cells other)

end SetHeap
