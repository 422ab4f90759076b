import Mathlib.Logic.Basic

/-!
# What is left of a critical section

The holder of a mutex changes the data access by access, and nobody else does. So what the
rest of the section makes of the data is settled at every moment in it, by running the rest
with no other thread in between; each access leaves it as it is.
-/

namespace Foundations

variable {δ π ε : Type}

/-- Left alone, the holder at this point makes `final` of the data. -/
inductive Completes (access : δ → π → Except ε (δ × π)) (done : π → Bool) : δ → π → δ → Prop
  | done {d : δ} {point : π} : done point = true → Completes access done d point d
  | access {d d' final : δ} {point point' : π} : done point = false →
      access d point = .ok (d', point') → Completes access done d' point' final →
        Completes access done d point final

namespace Completes

variable {access : δ → π → Except ε (δ × π)} {done : π → Bool} {d d' final : δ} {point point' : π}

/-- At the end of the section the data is final. -/
theorem eq_of_done (h : Completes access done d point final) (hdone : done point = true) :
    final = d := by
  cases h with
  | done => rfl
  | access hnot =>
    rw [hdone] at hnot
    cases hnot

/-- The next access of a section that completes succeeds, and what is left completes too. -/
theorem exists_access (h : Completes access done d point final) (hnot : done point = false) :
    ∃ d' point', access d point = .ok (d', point') ∧ Completes access done d' point' final := by
  cases h with
  | done hdone =>
    rw [hnot] at hdone
    cases hdone
  | access _ haccess hrest => exact ⟨_, _, haccess, hrest⟩

/-- What no access changes from here on is final. -/
theorem view_eq {α : Type} {view : δ → α} {past : π → Bool}
    (hkeeps : ∀ d point d' point', past point = true → access d point = .ok (d', point') →
      view d' = view d ∧ past point' = true)
    (h : Completes access done d point final) (hpast : past point = true) : view final = view d := by
  induction h with
  | done => rfl
  | access _ haccess _ ih =>
    obtain ⟨hview, hpast'⟩ := hkeeps _ _ _ _ hpast haccess
    rw [ih hpast', hview]

end Completes

end Foundations
