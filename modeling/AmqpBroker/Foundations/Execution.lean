import Mathlib.Logic.Basic

/-!
# Runs of a labelled transition system

A deterministic step function on states and labels, with a reason when a label is not
possible. A run is a list of labels; reachability under a guard keeps only the runs each
of whose steps meets a condition on the state before it.
-/

namespace Foundations

variable {σ α ε : Type}

/-- Take the labels of a run one after the other. -/
def exec (step : σ → α → Except ε σ) : σ → List α → Except ε σ
  | s, [] => .ok s
  | s, a :: rest =>
    match step s a with
    | .ok s' => exec step s' rest
    | .error reason => .error reason

/-- The states that a run passes through, up to its end or the step that is not possible. -/
def states (step : σ → α → Except ε σ) : σ → List α → List σ
  | s, [] => [s]
  | s, a :: rest =>
    match step s a with
    | .ok s' => s :: states step s' rest
    | .error _ => [s]

/-- The states that a run reaches whose steps all meet `guard`. -/
inductive Reaches (step : σ → α → Except ε σ) (guard : σ → α → Prop) (start : σ) : σ → Prop
  | refl : Reaches step guard start start
  | tail {s s' : σ} {a : α} : Reaches step guard start s → guard s a → step s a = .ok s' →
      Reaches step guard start s'

/-- Take the labels of a run as long as the guard allows them. -/
def guardedExec (step : σ → α → Except ε σ) (guard : σ → α → Prop) [∀ s, DecidablePred (guard s)] :
    σ → List α → Option σ
  | s, [] => some s
  | s, a :: rest =>
    if guard s a then
      match step s a with
      | .ok s' => guardedExec step guard s' rest
      | .error _ => none
    else none

variable {step : σ → α → Except ε σ} {guard : σ → α → Prop} {start : σ}

/-- A property of the start that every guarded step preserves holds in every state reached. -/
theorem Reaches.invariant {P : σ → Prop} (hstart : P start)
    (hstep : ∀ s a s', P s → guard s a → step s a = .ok s' → P s') {s : σ}
    (h : Reaches step guard start s) : P s := by
  induction h with
  | refl => exact hstart
  | tail _ hguard hs ih => exact hstep _ _ _ ih hguard hs

/-- A run under a guard is a run under any weaker one. -/
theorem Reaches.weaken {guard' : σ → α → Prop} (hweak : ∀ s a, guard s a → guard' s a) {s : σ}
    (h : Reaches step guard start s) : Reaches step guard' start s := by
  induction h with
  | refl => exact .refl
  | tail _ hguard hs ih => exact .tail ih (hweak _ _ hguard) hs

/-- Runs compose. -/
theorem Reaches.trans {middle s : σ} (hfirst : Reaches step guard start middle)
    (hsecond : Reaches step guard middle s) : Reaches step guard start s := by
  induction hsecond with
  | refl => exact hfirst
  | tail _ hguard hs ih => exact .tail ih hguard hs

/-- No action leaves the state as it is. -/
@[simp] theorem exec_nil (s : σ) : exec step s [] = .ok s := rfl

/-- A run starts with its first step. -/
theorem exec_cons (s : σ) (a : α) (rest : List α) {s' : σ} (h : step s a = .ok s') :
    exec step s (a :: rest) = exec step s' rest := by
  rw [exec, h]

/-- A run of a nonempty list splits after its first step. -/
theorem exec_cons_eq_ok {s s' : σ} {a : α} {rest : List α} :
    exec step s (a :: rest) = .ok s' ↔ ∃ m, step s a = .ok m ∧ exec step m rest = .ok s' := by
  cases h : step s a <;> simp [exec, h]

/-- A run of two lists is a run of the first followed by a run of the second. -/
theorem exec_append_eq_ok {s s' : σ} {left right : List α} :
    exec step s (left ++ right) = .ok s' ↔
      ∃ m, exec step s left = .ok m ∧ exec step m right = .ok s' := by
  induction left generalizing s with
  | nil => simp
  | cons a left ih =>
    simp only [List.cons_append, exec_cons_eq_ok, ih]
    constructor
    · rintro ⟨m, hm, m', hleft, hright⟩
      exact ⟨m', ⟨m, hm, hleft⟩, hright⟩
    · rintro ⟨m', ⟨m, hm, hleft⟩, hright⟩
      exact ⟨m, hm, m', hleft, hright⟩

/-- The step that makes a run longer by one. -/
theorem step_of_exec {s s' s'' : σ} {labels : List α} {a : α} (h : exec step s labels = .ok s')
    (hlonger : exec step s (labels ++ [a]) = .ok s'') : step s' a = .ok s'' := by
  obtain ⟨m, hfirst, hsecond⟩ := exec_append_eq_ok.mp hlonger
  obtain rfl := Except.ok.inj (h.symm.trans hfirst)
  obtain ⟨m', hstep, hnil⟩ := exec_cons_eq_ok.mp hsecond
  obtain rfl := Except.ok.inj hnil
  exact hstep

/-- A run passes through its final state. -/
theorem mem_states_of_exec {s s' : σ} {labels : List α} (h : exec step s labels = .ok s') :
    s' ∈ states step s labels := by
  induction labels generalizing s with
  | nil =>
    cases h
    exact List.mem_singleton.mpr rfl
  | cons a rest ih =>
    obtain ⟨m, hm, hrest⟩ := exec_cons_eq_ok.mp h
    rw [states, hm]
    exact List.mem_cons_of_mem s (ih hrest)

/-- Executing a list of labels reaches its final state, under any guard that they all meet. -/
theorem reaches_of_exec_of_forall {P : α → Prop} {s s' : σ} {labels : List α}
    (h : exec step s labels = .ok s') (hall : ∀ a ∈ labels, P a) :
    Reaches step (fun _ a => P a) s s' := by
  induction labels generalizing s with
  | nil =>
    cases h
    exact .refl
  | cons a rest ih =>
    obtain ⟨m, hm, hrest⟩ := exec_cons_eq_ok.mp h
    exact Reaches.trans (.tail .refl (hall a List.mem_cons_self) hm)
      (ih hrest fun b hb => hall b (List.mem_cons_of_mem a hb))

/-- Executing a list of labels reaches its final state. -/
theorem reaches_of_exec {s s' : σ} {labels : List α} (h : exec step s labels = .ok s') :
    Reaches step (fun _ _ => True) s s' :=
  reaches_of_exec_of_forall h fun _ _ => trivial

/-- Executing a list of labels that the guard allows reaches its final state. -/
theorem reaches_of_guardedExec [∀ s, DecidablePred (guard s)] {s s' : σ} {labels : List α}
    (h : guardedExec step guard s labels = some s') : Reaches step guard s s' := by
  induction labels generalizing s with
  | nil =>
    cases h
    exact .refl
  | cons a rest ih =>
    rw [guardedExec] at h
    split at h
    · rename_i hguard
      cases hs : step s a with
      | error reason =>
        rw [hs] at h
        cases h
      | ok m =>
        rw [hs] at h
        exact Reaches.trans (.tail .refl hguard hs) (ih h)
    · cases h

/-- Something observed at the end of a run is true of a state that the run reaches. -/
theorem exec_observed {β : Type} {view : σ → β} {s : σ} {labels : List α} {seen : β}
    (h : (exec step s labels).toOption.map view = some seen) :
    ∃ s', exec step s labels = .ok s' ∧ view s' = seen := by
  obtain ⟨s', hrun, hview⟩ := Option.map_eq_some_iff.mp h
  cases hexec : exec step s labels with
  | error reason =>
    rw [hexec] at hrun
    cases hrun
  | ok s'' =>
    rw [hexec] at hrun
    cases hrun
    exact ⟨s', rfl, hview⟩

end Foundations
