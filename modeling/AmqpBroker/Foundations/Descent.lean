import AmqpBroker.Foundations.Execution
import Mathlib.Data.Nat.Count
import Mathlib.Order.OrderIsoNat

/-!
# Runs under an endless schedule

A schedule offers one label after another, for ever. A label that the state does not allow
changes nothing, as when a sleeping thread is scheduled. What is needed of such a run to
come to an end is a rank that never goes up: it goes down only so often.
-/

namespace Foundations

variable {σ ε α : Type} {step : σ → α → Except ε σ} {guard : σ → α → Prop} {start s s' : σ} {a : α}

/-- The state after a label was offered. -/
def offer (step : σ → α → Except ε σ) (s : σ) (a : α) : σ :=
  match step s a with
  | .ok s' => s'
  | .error _ => s

/-- The states of the run under a schedule. -/
def follow (step : σ → α → Except ε σ) (schedule : ℕ → α) (start : σ) : ℕ → σ
  | 0 => start
  | n + 1 => offer step (follow step schedule start n) (schedule n)

/-- A label that is allowed is taken. -/
theorem offer_of_ok (h : step s a = .ok s') : offer step s a = s' := by rw [offer, h]

/-- A label that is not allowed is passed over. -/
theorem offer_of_error {reason : ε} (h : step s a = .error reason) : offer step s a = s := by
  rw [offer, h]

/-- What every step keeps is kept when a label is offered. -/
theorem offer_induction {P : σ → Prop} (hs : P s) (hstep : ∀ s', step s a = .ok s' → P s') :
    P (offer step s a) := by
  cases h : step s a with
  | error reason => rwa [offer_of_error h]
  | ok s' =>
    rw [offer_of_ok h]
    exact hstep s' h

/-- A run under a schedule passes through reachable states. -/
theorem reaches_follow (h : Reaches step (fun _ _ => True) start s) (schedule : ℕ → α) (n : ℕ) :
    Reaches step (fun _ _ => True) start (follow step schedule s n) := by
  induction n with
  | zero => exact h
  | succ n ih => exact offer_induction ih fun _ hs => .tail ih trivial hs

/-- A rank that never goes up is constant from some point on. -/
theorem exists_settled {r : ℕ → ℕ} (hstay : ∀ n, r (n + 1) ≤ r n) :
    ∃ n, ∀ k, n ≤ k → r k = r n := by
  have hanti : Antitone r := antitone_nat_of_succ_le hstay
  let chain : ℕ →o ℕᵒᵈ := ⟨fun k => OrderDual.toDual (r k), hanti.dual_right⟩
  obtain ⟨n, hn⟩ := WellFoundedGT.monotone_chain_condition chain
  exact ⟨n, fun k hk => (hn k hk).symm⟩

/-- A rank bounds how often it can go down. -/
theorem count_add_le_of_descent {r : ℕ → ℕ} {p : ℕ → Prop} [DecidablePred p] {n : ℕ}
    (h : ∀ k, k < n → r (k + 1) + (if p k then 1 else 0) ≤ r k) :
    Nat.count p n + r n ≤ r 0 := by
  induction n with
  | zero => simp
  | succ n ih =>
    have hbefore := ih fun k hk => h k (by omega)
    have hlast := h n (Nat.lt_succ_self n)
    rw [Nat.count_succ]
    omega

end Foundations
