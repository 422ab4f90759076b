import AmqpBroker.Foundations.Heap
import Mathlib.Data.List.Nodup
import Mathlib.Data.List.Perm.Subperm

/-!
# Singly linked chains in a heap

The cells reached from a start link by following one link field until it is null. The
chain is a relation on addresses; the executable walk computes it when it is given at
least as many steps as the chain has cells.
-/

namespace Foundations

variable {α : Type}

/-- Following `link` from `start` visits exactly `addresses` and then meets null. -/
inductive Chain (heap : Heap α) (link : α → Option ℕ) : Option ℕ → List ℕ → Prop
  | nil : Chain heap link none []
  | cons {a : ℕ} {value : α} {addresses : List ℕ} : heap.cells a = some value →
      Chain heap link (link value) addresses → Chain heap link (some a) (a :: addresses)

/-- The cells met in at most `steps` steps along `link`, with their addresses. -/
def walk (heap : Heap α) (link : α → Option ℕ) : ℕ → Option ℕ → List (ℕ × α)
  | 0, _ => []
  | _, none => []
  | steps + 1, some a =>
    match heap.cells a with
    | none => []
    | some value => (a, value) :: walk heap link steps (link value)

namespace Chain

variable {heap heap' : Heap α} {link : α → Option ℕ} {start : Option ℕ} {addresses : List ℕ}

/-- A chain is determined by its start. -/
theorem unique {addresses' : List ℕ} (h : Chain heap link start addresses)
    (h' : Chain heap link start addresses') : addresses = addresses' := by
  induction h generalizing addresses' with
  | nil =>
    cases h'
    rfl
  | @cons a value addresses hcell _ ih =>
    cases h' with
    | @cons _ value' addresses' hcell' hrest' =>
      obtain rfl : value = value' := Option.some.inj (hcell.symm.trans hcell')
      rw [ih hrest']

/-- The start is the head of the chain. -/
theorem start_eq (h : Chain heap link start addresses) : start = addresses.head? := by
  cases h <;> rfl

/-- Every cell of a chain is live. -/
theorem live (h : Chain heap link start addresses) :
    ∀ a ∈ addresses, ∃ value, heap.cells a = some value := by
  induction h with
  | nil => simp
  | @cons a value addresses hcell _ ih =>
    intro b hb
    rcases List.mem_cons.mp hb with rfl | hmem
    · exact ⟨value, hcell⟩
    · exact ih b hmem

/-- A change outside the chain leaves the chain alone. -/
theorem congr (h : Chain heap link start addresses)
    (hsame : ∀ a ∈ addresses, heap'.cells a = heap.cells a) :
    Chain heap' link start addresses := by
  induction h with
  | nil => exact .nil
  | @cons a value addresses hcell _ ih =>
    exact .cons ((hsame a List.mem_cons_self).trans hcell)
      (ih fun b hb => hsame b (List.mem_cons_of_mem a hb))

/-- The executable walk visits the cells of the chain in order. -/
theorem walk_eq (h : Chain heap link start addresses) (steps : ℕ) (hsteps : addresses.length ≤ steps) :
    walk heap link steps start = addresses.filterMap fun a => (heap.cells a).map (a, ·) := by
  induction h generalizing steps with
  | nil => cases steps <;> rfl
  | @cons a value addresses hcell _ ih =>
    obtain ⟨steps, rfl⟩ := Nat.exists_eq_succ_of_ne_zero
      (by simp only [List.length_cons] at hsteps; omega : steps ≠ 0)
    simp only [List.length_cons, Nat.succ_eq_add_one, Nat.add_le_add_iff_right] at hsteps
    simp only [walk, hcell, List.filterMap_cons, Option.map_some, ih steps hsteps]

/-- A chain without repetition is no longer than the heap. -/
theorem length_le_next (h : Chain heap link start addresses) (hnodup : addresses.Nodup) :
    addresses.length ≤ heap.next := by
  have hsub : addresses ⊆ List.range heap.next := by
    intro a ha
    obtain ⟨value, hcell⟩ := h.live a ha
    exact List.mem_range.mpr (Heap.lt_next_of_cells hcell)
  simpa using (List.subperm_of_subset hnodup hsub).length_le

/-- A new cell linked at the end of a chain extends it by one. -/
theorem append_new {setLink : α → α} {value : α} {new : ℕ}
    (hset : ∀ cell, link (setLink cell) = some new)
    (hnull : link value = none)
    (h : Chain heap link start addresses) (hnodup : addresses.Nodup)
    (hnew : new ∉ addresses)
    (hcell : heap'.cells new = some value)
    (hlast : ∀ last ∈ addresses.getLast?, heap'.cells last = (heap.cells last).map setLink)
    (hother : ∀ a ∈ addresses, some a ≠ addresses.getLast? → heap'.cells a = heap.cells a)
    (hstart : start ≠ none) :
    Chain heap' link start (addresses ++ [new]) := by
  have hend : Chain heap' link (some new) [new] := by
    refine .cons hcell ?_
    rw [hnull]
    exact .nil
  induction h with
  | nil => exact absurd rfl hstart
  | @cons a cell addresses hhead hrest ih =>
    have hlink := hrest.start_eq
    cases addresses with
    | nil =>
      have hcell' := hlast a rfl
      rw [hhead] at hcell'
      refine .cons hcell' ?_
      rw [hset]
      exact hend
    | cons b addresses =>
      have hlastEq : (a :: b :: addresses).getLast? = (b :: addresses).getLast? :=
        List.getLast?_cons_cons
      have hne : some a ≠ (a :: b :: addresses).getLast? := by
        intro hsome
        rw [hlastEq] at hsome
        exact (List.nodup_cons.mp hnodup).1 (List.mem_of_getLast? hsome.symm)
      refine .cons ((hother a List.mem_cons_self hne).trans hhead) ?_
      refine ih (List.nodup_cons.mp hnodup).2 (fun hmem => hnew (List.mem_cons_of_mem a hmem)) ?_ ?_ ?_
      · intro last hmem
        exact hlast last (hlastEq ▸ hmem)
      · intro c hc hcne
        exact hother c (List.mem_cons_of_mem a hc) (hlastEq ▸ hcne)
      · simp [hlink]

end Chain

end Foundations
