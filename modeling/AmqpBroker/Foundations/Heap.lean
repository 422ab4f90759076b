import Mathlib.Data.Nat.Notation
import Mathlib.Logic.Basic

/-!
# A heap of cells

Allocation hands out an address that was never used before, a freed cell stays empty, and
the field of the structure keeps every address from the allocation mark on empty.
-/

namespace Foundations

/-- Cells by address, with the next address to hand out. -/
structure Heap (α : Type) where
  cells : ℕ → Option α
  next : ℕ
  fresh : ∀ a, next ≤ a → cells a = none

namespace Heap

variable {α : Type}

/-- No cell allocated. -/
def empty : Heap α := ⟨fun _ => none, 0, fun _ _ => rfl⟩

/-- The heap after an allocation at the allocation mark. -/
def alloc (h : Heap α) (value : α) : Heap α where
  cells a := if a = h.next then some value else h.cells a
  next := h.next + 1
  fresh a ha := by
    rw [if_neg (by omega)]
    exact h.fresh a (by omega)

/-- The heap after an allocation at an address of the allocator's choice. -/
def allocAt (h : Heap α) (a : ℕ) (value : α) : Heap α where
  cells b := if b = a then some value else h.cells b
  next := max h.next (a + 1)
  fresh b hb := by
    rw [if_neg (by omega)]
    exact h.fresh b (by omega)

/-- Change the value of a cell; an empty cell stays empty. -/
def modify (h : Heap α) (a : ℕ) (change : α → α) : Heap α where
  cells b := if b = a then (h.cells b).map change else h.cells b
  next := h.next
  fresh b hb := by
    rw [h.fresh b hb]
    simp

/-- Give a cell back. -/
def free (h : Heap α) (a : ℕ) : Heap α where
  cells b := if b = a then none else h.cells b
  next := h.next
  fresh b hb := by
    rw [h.fresh b hb, ite_self]

/-- Nothing is allocated in the empty heap. -/
@[simp] theorem empty_cells (a : ℕ) : (empty : Heap α).cells a = none := rfl

/-- An allocation fills one cell. -/
theorem alloc_cells (h : Heap α) (value : α) (a : ℕ) :
    (h.alloc value).cells a = if a = h.next then some value else h.cells a := rfl

/-- An allocation at a given address fills the cell there. -/
theorem allocAt_cells (h : Heap α) (a b : ℕ) (value : α) :
    (h.allocAt a value).cells b = if b = a then some value else h.cells b := rfl

/-- An assignment changes one cell, if it is allocated. -/
theorem modify_cells (h : Heap α) (a b : ℕ) (change : α → α) :
    (h.modify a change).cells b = if b = a then (h.cells b).map change else h.cells b := rfl

/-- `free` empties one cell. -/
theorem free_cells (h : Heap α) (a b : ℕ) :
    (h.free a).cells b = if b = a then none else h.cells b := rfl

/-- The new cell holds its value. -/
@[simp] theorem alloc_cells_next (h : Heap α) (value : α) :
    (h.alloc value).cells h.next = some value := by
  simp [alloc_cells]

/-- The next address moves on by one. -/
@[simp] theorem alloc_next (h : Heap α) (value : α) : (h.alloc value).next = h.next + 1 := rfl

/-- An assignment takes no address. -/
@[simp] theorem modify_next (h : Heap α) (a : ℕ) (change : α → α) :
    (h.modify a change).next = h.next := rfl

/-- `free` gives no address back. -/
@[simp] theorem free_next (h : Heap α) (a : ℕ) : (h.free a).next = h.next := rfl

/-- A live cell lies below the allocation mark. -/
theorem lt_next_of_cells {h : Heap α} {a : ℕ} {value : α} (hcell : h.cells a = some value) :
    a < h.next := by
  refine Nat.lt_of_not_le fun hge => ?_
  rw [h.fresh a hge] at hcell
  cases hcell

/-- Allocation keeps the live cells. -/
theorem alloc_cells_of_live {h : Heap α} {a : ℕ} {value : α} (new : α)
    (hcell : h.cells a = some value) : (h.alloc new).cells a = some value := by
  have hlt := lt_next_of_cells hcell
  rw [alloc_cells, if_neg (by omega), hcell]

/-- The cell that is assigned to. -/
@[simp] theorem modify_cells_self (h : Heap α) (a : ℕ) (change : α → α) :
    (h.modify a change).cells a = (h.cells a).map change := by
  simp [modify_cells]

/-- Changing a live cell. -/
theorem modify_cells_of_live {h : Heap α} {a : ℕ} {value : α} (hcell : h.cells a = some value)
    (change : α → α) : (h.modify a change).cells a = some (change value) := by
  rw [modify_cells_self, hcell]
  rfl

/-- Changing one cell leaves the others alone. -/
theorem modify_cells_ne (h : Heap α) {a b : ℕ} (change : α → α) (hne : b ≠ a) :
    (h.modify a change).cells b = h.cells b := by
  simp [modify_cells, hne]

/-- Changing a cell keeps every live cell live. -/
theorem exists_modify_cells {h : Heap α} {b : ℕ} (a : ℕ) (change : α → α)
    (hlive : ∃ value, h.cells b = some value) :
    ∃ value, (h.modify a change).cells b = some value := by
  obtain ⟨value, hcell⟩ := hlive
  by_cases hba : b = a
  · subst hba
    exact ⟨change value, modify_cells_of_live hcell change⟩
  · exact ⟨value, (modify_cells_ne h change hba).trans hcell⟩

/-- Two changes of one cell are one change. -/
theorem modify_modify (h : Heap α) (a : ℕ) (first second : α → α) :
    (h.modify a first).modify a second = h.modify a (second ∘ first) := by
  unfold modify
  congr
  funext b
  by_cases hb : b = a <;> simp [hb]

/-- Freeing one cell leaves the others alone. -/
theorem free_cells_ne (h : Heap α) {a b : ℕ} (hne : b ≠ a) :
    (h.free a).cells b = h.cells b := by
  simp [free_cells, hne]

end Heap

end Foundations
