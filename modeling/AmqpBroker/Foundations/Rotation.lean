import AmqpBroker.Foundations.Ring
import Mathlib.Data.List.Perm.Basic

/-!
# The order around a circle

A circle is a list up to the place where it is read from. Who comes before whom when it
is read from a moving start changes only when the start passes one of the two: joins behind
the last member and departures keep the order of those who stay.
-/

namespace Foundations

variable {ι : Type}

/-- `round` is the circle of these members, read from `start` on. -/
def ReadsFrom (members : List ι) (start : ι) (round : List ι) : Prop :=
  ∃ before after, members = before ++ start :: after ∧ round = start :: (after ++ before)

variable {members round rest : List ι} {start a b x : ι}

/-- A circle can be read from each of its members. -/
theorem exists_readsFrom (h : start ∈ members) : ∃ round, ReadsFrom members start round := by
  obtain ⟨before, after, hmembers⟩ := List.append_of_mem h
  exact ⟨start :: (after ++ before), before, after, hmembers, rfl⟩

namespace ReadsFrom

/-- Reading a circle from elsewhere meets the same members. -/
theorem perm (h : ReadsFrom members start round) : round.Perm members := by
  obtain ⟨before, after, rfl, rfl⟩ := h
  change ((start :: after) ++ before).Perm _
  exact List.perm_append_comm

/-- A reading of a circle meets its members. -/
theorem mem_iff (h : ReadsFrom members start round) : a ∈ round ↔ a ∈ members := h.perm.mem_iff

/-- A reading of a circle meets nobody twice. -/
theorem nodup (h : ReadsFrom members start round) (hnodup : members.Nodup) : round.Nodup :=
  h.perm.nodup_iff.mpr hnodup

/-- The start is read first. -/
theorem head_eq (h : ReadsFrom members start (a :: rest)) : a = start := by
  obtain ⟨before, after, -, hround⟩ := h
  exact (List.cons.inj hround).1

/-- The start moves on to the next member. -/
theorem pass {next prev : ι → ι} (h : ReadsFrom members start (start :: rest))
    (hring : Ring next prev members) : ReadsFrom members (next start) (rest ++ [start]) := by
  obtain ⟨before, after, rfl, hround⟩ := h
  obtain rfl := (List.cons.inj hround).2
  have hread : Ring next prev (start :: (after ++ before)) := by simpa using hring.rotate
  cases after with
  | cons b after =>
    rw [(Ring.consecutive [] hread).1]
    refine ⟨before ++ [start], after, ?_, ?_⟩
    · simp
    · simp
  | nil =>
    cases before with
    | nil =>
      rw [(hread.closed start rfl start rfl).1]
      exact ⟨[], [], rfl, rfl⟩
    | cons b before =>
      rw [(Ring.consecutive [] hread).1]
      exact ⟨[], before ++ [start], by simp, by simp⟩

/-- A new member behind the last one keeps the order of the others. -/
theorem append (h : ReadsFrom members start round) (new : ι) :
    ∃ round', ReadsFrom (members ++ [new]) start round' ∧ round.Sublist round' := by
  obtain ⟨before, after, rfl, rfl⟩ := h
  refine ⟨start :: (after ++ [new] ++ before), ⟨before, after ++ [new], by simp, rfl⟩, ?_⟩
  apply List.Sublist.cons_cons
  exact (List.sublist_append_left after [new]).append (List.Sublist.refl before)

variable [DecidableEq ι]

/-- A member other than the start leaves. -/
theorem erase (h : ReadsFrom members start round) (hnodup : members.Nodup) (hx : x ≠ start) :
    ReadsFrom (members.erase x) start (round.erase x) := by
  obtain ⟨before, after, rfl, rfl⟩ := h
  have hother : ¬ (start == x) = true := by simpa using hx.symm
  rw [List.erase_cons_tail hother]
  by_cases hbefore : x ∈ before
  · have hafter : x ∉ after := by
      intro hmem
      exact (List.disjoint_of_nodup_append hnodup) hbefore (List.mem_cons_of_mem start hmem)
    rw [List.erase_append_left _ hbefore, List.erase_append_right _ hafter]
    exact ⟨before.erase x, after, rfl, rfl⟩
  · rw [List.erase_append_right _ hbefore, List.erase_cons_tail hother]
    by_cases hafter : x ∈ after
    · rw [List.erase_append_left _ hafter]
      exact ⟨before, after.erase x, rfl, rfl⟩
    · rw [List.erase_append_right _ hafter, List.erase_of_not_mem hafter,
        List.erase_of_not_mem hbefore]
      exact ⟨before, after, rfl, rfl⟩

/-- The start leaves: the circle is read from the next member on. -/
theorem erase_start (h : ReadsFrom members start (start :: b :: rest)) (hnodup : members.Nodup) :
    ReadsFrom (members.erase start) b (b :: rest) := by
  obtain ⟨before, after, rfl, hround⟩ := h
  have hrest := (List.cons.inj hround).2
  have hbefore : start ∉ before := by
    intro hmem
    exact (List.disjoint_of_nodup_append hnodup) hmem List.mem_cons_self
  rw [List.erase_append_right _ hbefore, List.erase_cons_head]
  cases after with
  | cons c after =>
    obtain ⟨rfl, rfl⟩ := List.cons.inj hrest
    exact ⟨before, after, rfl, rfl⟩
  | nil =>
    rw [List.nil_append] at hrest
    rw [← hrest, List.append_nil]
    exact ⟨[], rest, rfl, by rw [List.append_nil]⟩

end ReadsFrom

/-- Passing a third member keeps the order of two. -/
theorem before_of_pass (h : [a, b].Sublist (x :: rest)) (hx : x ≠ a) :
    [a, b].Sublist (rest ++ [x]) := by
  cases h with
  | cons _ hrest => exact hrest.trans (List.sublist_append_left rest [x])
  | cons_cons => exact absurd rfl hx

/-- Passing the first of two turns their order around. -/
theorem before_of_passed (h : b ∈ rest) : [b, a].Sublist (rest ++ [a]) := by
  change ([b] ++ [a]).Sublist _
  exact (List.singleton_sublist.mpr h).append (List.Sublist.refl [a])

/-- The member that is read first comes after nobody. -/
theorem not_before_head (h : [a, b].Sublist (b :: rest)) (hnodup : (b :: rest).Nodup) : a = b := by
  cases h with
  | cons _ hrest =>
    have hmem : b ∈ rest := hrest.subset (by simp)
    exact absurd hmem (List.nodup_cons.mp hnodup).1
  | cons_cons => rfl

end Foundations
