import Mathlib.Data.List.Basic

/-!
# A heap of cells addressed by allocation order

Pointers are the positions of an append-only list. Allocation never reuses an
address, a write changes one cell, and nothing is freed: a cell stays readable
through every pointer that still refers to it.
-/

namespace FastGoZero.Lib

universe u
variable {α : Type u}

/-- Cells in allocation order. -/
structure Heap (α : Type u) where
  cells : List α

namespace Heap

def empty : Heap α := ⟨[]⟩

/-- The next address that an allocation returns. -/
def size (heap : Heap α) : Nat := heap.cells.length

def read (heap : Heap α) (pointer : Nat) : Option α := heap.cells[pointer]?

def modify (heap : Heap α) (pointer : Nat) (change : α → α) : Heap α :=
  ⟨heap.cells.modify pointer change⟩

def alloc (heap : Heap α) (cell : α) : Heap α := ⟨heap.cells ++ [cell]⟩

section

variable (heap : Heap α)

include heap

variable (pointer : Nat) (change : α → α)

@[simp] theorem size_modify : (heap.modify pointer change).size = heap.size := by
  simp [size, modify]

@[simp] theorem size_alloc (cell : α) : (heap.alloc cell).size = heap.size + 1 := by
  simp [size, alloc]

theorem read_modify (pointer probe : Nat) (change : α → α) :
    (heap.modify pointer change).read probe =
      if probe = pointer then (heap.read probe).map change else heap.read probe := by
  simp only [read, modify, List.getElem?_modify]
  by_cases same : pointer = probe
  · simp [same]
  · have other : ¬ probe = pointer := fun equal => same equal.symm
    simp [same, other]

@[simp] theorem read_modify_self :
    (heap.modify pointer change).read pointer = (heap.read pointer).map change := by
  simp [read_modify]

theorem read_modify_of_ne {pointer probe : Nat} (other : probe ≠ pointer) :
    (heap.modify pointer change).read probe = heap.read probe := by
  simp [read_modify, other]

@[simp] theorem read_alloc_new (cell : α) : (heap.alloc cell).read heap.size = some cell := by
  simp [read, alloc, size]

theorem read_alloc_old (cell : α) {probe : Nat} (allocated : probe < heap.size) :
    (heap.alloc cell).read probe = heap.read probe := by
  exact List.getElem?_append_left allocated

theorem read_isSome_iff : (heap.read pointer).isSome ↔ pointer < heap.size := by
  simp [read, size]

end

theorem lt_size_of_read {heap : Heap α} {pointer : Nat} {cell : α}
    (stored : heap.read pointer = some cell) : pointer < heap.size := by
  rw [← read_isSome_iff, stored]
  rfl

end Heap

end FastGoZero.Lib
