import Mathlib.Logic.Basic
import Mathlib.Order.Defs.Unbundled

/-!
# Programs over a state that may stop

Imperative code as state passing functions whose result may be a stop. The rules here
take a sequence apart into its two halves, so that a proof about a handler is assembled
from the facts about the functions it calls.
-/

namespace Foundations

variable {σ ε α β : Type}

/-- A program over states `σ` which stops with an `ε` or returns a value and a state. -/
abbrev Program (σ ε : Type) := StateT σ (Except ε)

namespace Program

/-- Read a component of the state. -/
def read (view : σ → α) : Program σ ε α := fun s => .ok (view s, s)

/-- Update the state. -/
def update (change : σ → σ) : Program σ ε Unit := fun s => .ok ((), change s)

/-- Stop without a result. -/
def stop (reason : ε) : Program σ ε α := fun _ => .error reason

/-- Returning a value leaves the state alone. -/
@[simp] theorem pure_apply (a : α) (s : σ) : (pure a : Program σ ε α) s = .ok (a, s) := rfl

/-- Reading leaves the state alone. -/
@[simp] theorem read_apply (view : σ → α) (s : σ) :
    (read view : Program σ ε α) s = .ok (view s, s) := rfl

/-- An update always succeeds. -/
@[simp] theorem update_apply (change : σ → σ) (s : σ) :
    (update change : Program σ ε Unit) s = .ok ((), change s) := rfl

/-- A stop never returns. -/
@[simp] theorem stop_apply (reason : ε) (s : σ) :
    (stop reason : Program σ ε α) s = .error reason := rfl

/-- A sequence whose first half returned continues with the second. -/
theorem bind_of_ok {x : Program σ ε α} {s s' : σ} {a : α} (h : x s = .ok (a, s'))
    (f : α → Program σ ε β) : (x >>= f) s = f a s' := by
  change (x s >>= fun p => f p.1 p.2) = _
  rw [h]
  rfl

/-- A sequence whose first half stopped has stopped. -/
theorem bind_of_error {x : Program σ ε α} {s : σ} {reason : ε} (h : x s = .error reason)
    (f : α → Program σ ε β) : (x >>= f) s = .error reason := by
  change (x s >>= fun p => f p.1 p.2) = _
  rw [h]
  rfl

/-- A sequence returned exactly when both halves did. -/
theorem bind_eq_ok {x : Program σ ε α} {f : α → Program σ ε β} {s : σ} {r : β × σ} :
    (x >>= f) s = .ok r ↔ ∃ a s', x s = .ok (a, s') ∧ f a s' = .ok r := by
  cases h : x s with
  | error reason => simp [bind_of_error h]
  | ok p =>
    obtain ⟨a, s'⟩ := p
    constructor
    · intro hf
      exact ⟨a, s', rfl, by rwa [bind_of_ok h] at hf⟩
    · rintro ⟨b, t, hb, hf⟩
      cases hb
      rwa [bind_of_ok h]

/-- A sequence stopped exactly when one of its halves did. -/
theorem bind_eq_error {x : Program σ ε α} {f : α → Program σ ε β} {s : σ} {reason : ε} :
    (x >>= f) s = .error reason ↔
      x s = .error reason ∨ ∃ a s', x s = .ok (a, s') ∧ f a s' = .error reason := by
  cases h : x s with
  | error reason' => simp [bind_of_error h]
  | ok p =>
    obtain ⟨a, s'⟩ := p
    rw [bind_of_ok h]
    constructor
    · intro hf
      exact Or.inr ⟨a, s', rfl, hf⟩
    · rintro (hb | ⟨b, t, hb, hf⟩)
      · cases hb
      · cases hb
        exact hf

/-- A value is passed on in the same state. -/
@[simp] theorem pure_bind_apply (a : α) (f : α → Program σ ε β) (s : σ) :
    ((pure a : Program σ ε α) >>= f) s = f a s := rfl

/-- What is read is passed on in the same state. -/
@[simp] theorem read_bind_apply (view : σ → α) (f : α → Program σ ε β) (s : σ) :
    (read view >>= f) s = f (view s) s := rfl

/-- The rest runs in the updated state. -/
@[simp] theorem update_bind_apply (change : σ → σ) (f : Unit → Program σ ε β) (s : σ) :
    (update change >>= f) s = f () (change s) := rfl

/-- Nothing runs behind a stop. -/
@[simp] theorem stop_bind_apply (reason : ε) (f : α → Program σ ε β) (s : σ) :
    ((stop reason : Program σ ε α) >>= f) s = .error reason := rfl

/-- Every run that returns relates its two states by `R`. -/
def Keeps (R : σ → σ → Prop) (x : Program σ ε α) : Prop :=
  ∀ s a s', x s = .ok (a, s') → R s s'

section Keeps

variable {R : σ → σ → Prop}

/-- Returning a value changes nothing. -/
theorem Keeps.pure [Std.Refl R] (a : α) : Keeps R (Pure.pure a : Program σ ε α) := by
  rintro s b s' h
  cases h
  exact Std.Refl.refl s

/-- Reading changes nothing. -/
theorem Keeps.read [Std.Refl R] (view : σ → α) : Keeps R (Program.read view : Program σ ε α) := by
  rintro s b s' h
  cases h
  exact Std.Refl.refl s

/-- An assignment that respects the relation. -/
theorem Keeps.update {change : σ → σ} (h : ∀ s, R s (change s)) :
    Keeps R (Program.update change : Program σ ε Unit) := by
  rintro s b s' hs
  cases hs
  exact h s

/-- A stop leaves no state behind. -/
theorem Keeps.stop (reason : ε) : Keeps R (Program.stop reason : Program σ ε α) := by
  rintro s b s' h
  cases h

/-- A transitive relation is kept by a sequence when both halves keep it. -/
theorem Keeps.bind [IsTrans σ R] {x : Program σ ε α} {f : α → Program σ ε β} (hx : Keeps R x)
    (hf : ∀ a, Keeps R (f a)) : Keeps R (x >>= f) := by
  intro s b s'' h
  obtain ⟨a, s', hfirst, hsecond⟩ := bind_eq_ok.mp h
  exact IsTrans.trans _ _ _ (hx s a s' hfirst) (hf a s' b s'' hsecond)

/-- Both branches of a test. -/
theorem Keeps.ite {c : Prop} [Decidable c] {x y : Program σ ε α} (hx : Keeps R x)
    (hy : Keeps R y) : Keeps R (if c then x else y) := by
  split
  · exact hx
  · exact hy

end Keeps

/-- No run stops for one of these reasons. -/
def Avoids (bad : ε → Prop) (x : Program σ ε α) : Prop :=
  ∀ s reason, x s = .error reason → ¬ bad reason

section Avoids

variable {bad : ε → Prop}

/-- Returning a value does not stop. -/
theorem Avoids.pure (a : α) : Avoids bad (Pure.pure a : Program σ ε α) := by
  intro s reason h
  cases h

/-- Reading does not stop. -/
theorem Avoids.read (view : σ → α) : Avoids bad (Program.read view : Program σ ε α) := by
  intro s reason h
  cases h

/-- An assignment does not stop. -/
theorem Avoids.update (change : σ → σ) : Avoids bad (Program.update change : Program σ ε Unit) := by
  intro s reason h
  cases h

/-- A stop for a reason that is not bad. -/
theorem Avoids.stop {reason : ε} (h : ¬ bad reason) :
    Avoids bad (Program.stop reason : Program σ ε α) := by
  intro s reason' hs
  cases hs
  exact h

/-- Code that avoids every reason returns. -/
theorem Avoids.returns {x : Program σ ε α} (h : Avoids (fun _ => True) x) (s : σ) :
    ∃ a s', x s = .ok (a, s') := by
  cases hrun : x s with
  | error reason => exact absurd trivial (h s reason hrun)
  | ok result => exact ⟨result.1, result.2, rfl⟩

/-- A sequence avoids a reason when both halves do. -/
theorem Avoids.bind {x : Program σ ε α} {f : α → Program σ ε β} (hx : Avoids bad x)
    (hf : ∀ a, Avoids bad (f a)) : Avoids bad (x >>= f) := by
  intro s reason h
  rcases bind_eq_error.mp h with hfirst | ⟨a, s', -, hsecond⟩
  · exact hx s reason hfirst
  · exact hf a s' reason hsecond

/-- A sequence avoids a reason when its second half does from what the first returns. -/
theorem Avoids.bind_of_ok {x : Program σ ε α} {f : α → Program σ ε β} (hx : Avoids bad x)
    (hf : ∀ s a s', x s = .ok (a, s') → Avoids bad (f a)) : Avoids bad (x >>= f) := by
  intro s reason h
  rcases bind_eq_error.mp h with hfirst | ⟨a, s', hrun, hsecond⟩
  · exact hx s reason hfirst
  · exact hf s a s' hrun s' reason hsecond

/-- Both branches of a test. -/
theorem Avoids.ite {c : Prop} [Decidable c] {x y : Program σ ε α} (hx : Avoids bad x)
    (hy : Avoids bad y) : Avoids bad (if c then x else y) := by
  split
  · exact hx
  · exact hy

end Avoids

end Program

end Foundations
