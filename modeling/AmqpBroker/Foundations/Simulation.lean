import AmqpBroker.Foundations.Execution

/-!
# Simulations between two transition systems

Each step of a concrete system is matched by a run of an abstract one, possibly an empty
one. The relation between the two sees all the abstract labels so far, so that it can tie
them to what the concrete state has recorded.
-/

namespace Foundations

variable {σ α ε τ β δ : Type}

/-- A relation between a state of the concrete system, the abstract labels that match the
run to it, and the state these labels lead to. -/
structure Simulates (cstep : σ → α → Except ε σ) (guard : σ → α → Prop)
    (astep : τ → β → Except δ τ) (R : σ → List β → τ → Prop) : Prop where
  matched : ∀ s labels t a s', R s labels t → guard s a → cstep s a = .ok s' →
    ∃ more t', exec astep t more = .ok t' ∧ R s' (labels ++ more) t'

namespace Simulates

variable {cstep : σ → α → Except ε σ} {guard : σ → α → Prop} {astep : τ → β → Except δ τ}
  {R : σ → List β → τ → Prop} {start s : σ} {astart : τ}

/-- A run from related states on is matched by a run of the abstract system. -/
theorem exists_exec_of {labels : List β} {t : τ} (h : Simulates cstep guard astep R)
    (hstart : R start labels t) (hreach : Reaches cstep guard start s) :
    ∃ more t', exec astep t more = .ok t' ∧ R s (labels ++ more) t' := by
  induction hreach with
  | refl => exact ⟨[], t, rfl, by rwa [List.append_nil]⟩
  | tail _ hguard hstep ih =>
    obtain ⟨more, t', hexec, hrel⟩ := ih
    obtain ⟨last, t'', hlast, hrel'⟩ := h.matched _ _ t' _ _ hrel hguard hstep
    rw [List.append_assoc] at hrel'
    exact ⟨more ++ last, t'', exec_append_eq_ok.mpr ⟨t', hexec, hlast⟩, hrel'⟩

/-- Every state that the concrete system reaches is matched by a run of the abstract one. -/
theorem exists_exec (h : Simulates cstep guard astep R) (hstart : R start [] astart)
    (hreach : Reaches cstep guard start s) :
    ∃ labels t, exec astep astart labels = .ok t ∧ R s labels t := h.exists_exec_of hstart hreach

end Simulates

end Foundations
