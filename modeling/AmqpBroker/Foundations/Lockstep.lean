import AmqpBroker.Foundations.Execution
import AmqpBroker.Foundations.Program

/-!
# Two runs in lockstep

Two states related by `R` that a program cannot tell apart: it stops for the same reason
from both, or returns the same value from both in related states. Programs assembled from
such parts are such programs, and so are whole runs of a system whose steps are.
-/

namespace Foundations

variable {σ ε α β : Type}

/-- Both results are the same stop, or related. -/
inductive Matched (R : β → β → Prop) : Except ε β → Except ε β → Prop
  | ok {b b' : β} : R b b' → Matched R (.ok b) (.ok b')
  | error (reason : ε) : Matched R (.error reason) (.error reason)

/-- Matched results, taken apart. -/
theorem Matched.cases {R : β → β → Prop} {left right : Except ε β} (h : Matched R left right) :
    (∃ b b', left = .ok b ∧ right = .ok b' ∧ R b b') ∨
      ∃ reason, left = .error reason ∧ right = .error reason := by
  cases h with
  | ok h => exact Or.inl ⟨_, _, rfl, rfl, h⟩
  | error reason => exact Or.inr ⟨reason, rfl, rfl⟩

/-- Whatever related states have in common is the same all along two runs. -/
theorem states_matched {R : σ → σ → Prop} {step : σ → α → Except ε σ} {view : σ → β}
    (hstep : ∀ s s' a, R s s' → Matched R (step s a) (step s' a))
    (hview : ∀ s s', R s s' → view s = view s') {s s' : σ} (h : R s s') (labels : List α) :
    (states step s labels).map view = (states step s' labels).map view := by
  induction labels generalizing s s' with
  | nil => simp [states, hview s s' h]
  | cons a rest ih =>
    rw [states, states]
    rcases (hstep s s' a h).cases with ⟨b, b', hb, hb', hrel⟩ | ⟨reason, hs, hs'⟩
    · rw [hb, hb']
      simp only [List.map_cons, hview s s' h, ih hrel]
    · rw [hs, hs']
      simp only [List.map_cons, List.map_nil, hview s s' h]

namespace Program

/-- The program does not tell related states apart. -/
def Lockstep (R : σ → σ → Prop) (x : Program σ ε α) : Prop :=
  ∀ s s', R s s' → Matched (fun p p' => p.1 = p'.1 ∧ R p.2 p'.2) (x s) (x s')

variable {R : σ → σ → Prop}

/-- Returning a value looks at nothing. -/
theorem Lockstep.pure (a : α) : Lockstep R (Pure.pure a : Program σ ε α) :=
  fun _ _ h => .ok ⟨rfl, h⟩

/-- Two related states agree on what is read. -/
theorem Lockstep.read {view : σ → α} (hview : ∀ s s', R s s' → view s = view s') :
    Lockstep R (Program.read view : Program σ ε α) :=
  fun s s' h => .ok ⟨hview s s' h, h⟩

/-- An assignment that respects the relation. -/
theorem Lockstep.update {change : σ → σ} (hchange : ∀ s s', R s s' → R (change s) (change s')) :
    Lockstep R (Program.update change : Program σ ε Unit) :=
  fun s s' h => .ok ⟨rfl, hchange s s' h⟩

/-- Both runs stop for the same reason. -/
theorem Lockstep.stop (reason : ε) : Lockstep R (Program.stop reason : Program σ ε α) :=
  fun _ _ _ => .error reason

/-- A sequence is in lockstep when both halves are. -/
theorem Lockstep.bind {x : Program σ ε α} {f : α → Program σ ε β} (hx : Lockstep R x)
    (hf : ∀ a, Lockstep R (f a)) : Lockstep R (x >>= f) := by
  intro s s' h
  rcases (hx s s' h).cases with ⟨⟨a, t⟩, ⟨a', t'⟩, ha, ha', hsame, hrel⟩ | ⟨reason, hs, hs'⟩
  · obtain rfl : a = a' := hsame
    rw [bind_of_ok ha, bind_of_ok ha']
    exact hf a t t' hrel
  · rw [bind_of_error hs, bind_of_error hs']
    exact .error reason

/-- A test on what both runs know. -/
theorem Lockstep.ite {c : Prop} [Decidable c] {x y : Program σ ε α} (hx : Lockstep R x)
    (hy : Lockstep R y) : Lockstep R (if c then x else y) := by
  split
  · exact hx
  · exact hy

/-- What follows on a value that may be missing. -/
theorem Lockstep.option {f : Option α → Program σ ε β} (hnone : Lockstep R (f none))
    (hsome : ∀ a, Lockstep R (f (some a))) (a : Option α) : Lockstep R (f a) := by
  cases a with
  | none => exact hnone
  | some a => exact hsome a

end Program

end Foundations
