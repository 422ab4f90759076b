import AmqpBroker.Foundations.Execution
import Mathlib.Logic.Function.Basic

/-!
# Objects that serve one call at a time

A shared object as its callers see it: a call begins, takes effect at some point of its own
choosing, and returns what it was answered. The effects are single steps, one after the
other, so the answers are those of a sequence of calls; since each effect lies between the
beginning and the return of its call, the sequence respects the order of calls that do not
overlap. A history of an implementation that such an object also has is linearizable.
-/

namespace Foundations

variable {ι σ κ ρ : Type}

/-- Where a caller is with its call. -/
inductive Standing (κ ρ : Type) where
  | idle
  | waiting (call : κ)
  | served (answer : ρ)

/-- What is seen of a call from outside. -/
inductive CallEvent (ι κ ρ : Type) where
  | begins (caller : ι) (call : κ)
  | returns (caller : ι) (answer : ρ)
  deriving DecidableEq

/-- What can happen at an object. -/
inductive ObjectAct (ι κ : Type) where
  | begins (caller : ι) (call : κ)
  | effect (caller : ι)
  | returns (caller : ι)

/-- The state of an object, where its callers are, and what has been seen so far. -/
structure AtomicObject (ι σ κ ρ : Type) where
  state : σ
  callers : ι → Standing κ ρ
  history : List (CallEvent ι κ ρ)

namespace AtomicObject

/-- Nobody has called yet. -/
def initial (state : σ) : AtomicObject ι σ κ ρ := ⟨state, fun _ => .idle, []⟩

variable [DecidableEq ι]

/-- The next state, where `serve` is what a call answers and makes of the state. -/
def step (serve : κ → σ → ρ × σ) (o : AtomicObject ι σ κ ρ) :
    ObjectAct ι κ → Except Unit (AtomicObject ι σ κ ρ)
  | .begins i call =>
    match o.callers i with
    | .idle => .ok { o with
        callers := Function.update o.callers i (.waiting call)
        history := o.history ++ [.begins i call] }
    | _ => .error ()
  | .effect i =>
    match o.callers i with
    | .waiting call => .ok { o with
        state := (serve call o.state).2
        callers := Function.update o.callers i (.served (serve call o.state).1) }
    | _ => .error ()
  | .returns i =>
    match o.callers i with
    | .served answer => .ok { o with
        callers := Function.update o.callers i .idle
        history := o.history ++ [.returns i answer] }
    | _ => .error ()

/-- The states of an object that starts in a given state. -/
abbrev Possible (serve : κ → σ → ρ × σ) (start : σ) (o : AtomicObject ι σ κ ρ) : Prop :=
  Reaches (step serve) (fun _ _ => True) (initial start) o

namespace Possible

variable {serve : κ → σ → ρ × σ} {start : σ} {o : AtomicObject ι σ κ ρ} {i : ι} {call : κ}
  {answer : ρ}

/-- An idle caller may begin a call. -/
theorem begins (h : Possible serve start o) (hi : o.callers i = .idle) :
    Possible serve start { o with
      callers := Function.update o.callers i (.waiting call)
      history := o.history ++ [.begins i call] } :=
  .tail (a := .begins i call) h trivial (by rw [step, hi])

/-- A call that waits may take effect. -/
theorem effect (h : Possible serve start o) (hi : o.callers i = .waiting call) :
    Possible serve start { o with
      state := (serve call o.state).2
      callers := Function.update o.callers i (.served (serve call o.state).1) } :=
  .tail (a := .effect i) h trivial (by rw [step, hi])

/-- A call that took effect may return. -/
theorem returns (h : Possible serve start o) (hi : o.callers i = .served answer) :
    Possible serve start { o with
      callers := Function.update o.callers i .idle
      history := o.history ++ [.returns i answer] } :=
  .tail (a := .returns i) h trivial (by rw [step, hi])

end Possible

end AtomicObject

end Foundations
