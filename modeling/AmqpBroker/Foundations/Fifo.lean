import Mathlib.Data.List.Basic

/-!
# First in, first out

A sequence on which one call puts an element behind the others and the other call takes
the first one. Nothing is lost or reordered: what a list of calls took out, followed by
what is left, is what was there at first, followed by what was put in.
-/

namespace Foundations

namespace Fifo

variable {α : Type}

/-- A call on the sequence. -/
inductive Call (α : Type) where
  | put (a : α)
  | take

/-- The sequence after a call. -/
def Call.after : Call α → List α → List α
  | .put a, contents => contents ++ [a]
  | .take, contents => contents.tail

/-- What a call hands back. -/
def Call.answer : Call α → List α → Option α
  | .put _, _ => none
  | .take, contents => contents.head?

/-- The sequence after a list of calls. -/
def contents (start : List α) : List (Call α) → List α
  | [] => start
  | call :: rest => contents (call.after start) rest

/-- What the calls of a list hand back, one after the other. -/
def answers (start : List α) : List (Call α) → List (Option α)
  | [] => []
  | call :: rest => call.answer start :: answers (call.after start) rest

/-- The elements put in by a list of calls. -/
def puts : List (Call α) → List α
  | [] => []
  | .put a :: rest => a :: puts rest
  | .take :: rest => puts rest

/-- Without a call the contents stay. -/
@[simp] theorem contents_nil (start : List α) : contents start [] = start := rfl

/-- Without a call there is no answer. -/
@[simp] theorem answers_nil (start : List α) : answers start [] = [] := rfl

/-- The first call works on the contents at the start. -/
@[simp] theorem contents_cons (start : List α) (call : Call α) (rest : List (Call α)) :
    contents start (call :: rest) = contents (call.after start) rest := rfl

/-- The first answer is that of the first call. -/
@[simp] theorem answers_cons (start : List α) (call : Call α) (rest : List (Call α)) :
    answers start (call :: rest) = call.answer start :: answers (call.after start) rest := rfl

/-- What one call takes out and leaves is what was there and was put in. -/
theorem Call.conserved (call : Call α) (start : List α) :
    (call.answer start).toList ++ call.after start = start ++ puts [call] := by
  cases call with
  | put a => rfl
  | take => cases start <;> simp [Call.answer, Call.after, puts]

/-- What goes in, call by call. -/
theorem puts_cons (call : Call α) (rest : List (Call α)) :
    puts (call :: rest) = puts [call] ++ puts rest := by
  cases call <;> rfl

/-- What a list of calls takes out and leaves is what was there and was put in, in order. -/
theorem conserved (start : List α) (calls : List (Call α)) :
    (answers start calls).flatMap Option.toList ++ contents start calls = start ++ puts calls := by
  induction calls generalizing start with
  | nil => simp [puts]
  | cons call rest ih =>
    calc (answers start (call :: rest)).flatMap Option.toList ++ contents start (call :: rest)
        = (call.answer start).toList ++
            ((answers (call.after start) rest).flatMap Option.toList ++
              contents (call.after start) rest) := by
          rw [answers_cons, contents_cons, List.flatMap_cons, List.append_assoc]
      _ = ((call.answer start).toList ++ call.after start) ++ puts rest := by
          rw [ih, List.append_assoc]
      _ = start ++ puts (call :: rest) := by
          rw [call.conserved, puts_cons call rest, List.append_assoc]

end Fifo

end Foundations
