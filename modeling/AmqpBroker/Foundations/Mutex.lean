import Mathlib.Logic.Function.Basic

/-!
# Who holds a mutex

Threads with a program point each, and a mutex with its holder. The points between a lock
and its unlock are known from the code; the holder is the one thread that stands at such a
point.
-/

namespace Foundations

variable {ι π : Type}

/-- The mutex is held by exactly the thread that stands inside the section. -/
def Holds (inside : π → Bool) (holder : Option ι) (threads : ι → π) : Prop :=
  ∀ i, holder = some i ↔ inside (threads i) = true

namespace Holds

variable {inside : π → Bool} {holder : Option ι} {threads : ι → π} {i j : ι} {point : π}

/-- One thread at most is inside. -/
theorem eq (h : Holds inside holder threads) (hi : inside (threads i) = true)
    (hj : inside (threads j) = true) : i = j :=
  Option.some.inj (((h i).mpr hi).symm.trans ((h j).mpr hj))

/-- Nobody is inside as long as nobody holds the mutex. -/
theorem outside (h : Holds inside none threads) (i : ι) : inside (threads i) = false := by
  cases hi : inside (threads i) with
  | false => rfl
  | true => cases (h i).mpr hi

variable [DecidableEq ι]

/-- A thread that moves on but neither in nor out. -/
theorem move (h : Holds inside holder threads) (hpoint : inside point = inside (threads i)) :
    Holds inside holder (Function.update threads i point) := by
  intro j
  by_cases hj : j = i
  · subst hj
    rw [Function.update_self, hpoint]
    exact h j
  · rw [Function.update_of_ne hj]
    exact h j

/-- A thread that takes the free mutex. -/
theorem lock (h : Holds inside none threads) (hpoint : inside point = true) :
    Holds inside (some i) (Function.update threads i point) := by
  intro j
  by_cases hj : j = i
  · subst hj
    rw [Function.update_self]
    exact iff_of_true rfl hpoint
  · rw [Function.update_of_ne hj, h.outside j]
    exact iff_of_false (fun heq => hj (Option.some.inj heq).symm) (by simp)

/-- The holder gives the mutex back. -/
theorem unlock (h : Holds inside holder threads) (hi : inside (threads i) = true)
    (hpoint : inside point = false) : Holds inside none (Function.update threads i point) := by
  intro j
  refine iff_of_false (by simp) ?_
  by_cases hj : j = i
  · subst hj
    rw [Function.update_self, hpoint]
    simp
  · rw [Function.update_of_ne hj]
    exact fun hinside => hj (h.eq hinside hi)

end Holds

end Foundations
