import Mathlib.Data.List.Basic
import Mathlib.Logic.Function.Basic

/-!
# Histories of several agents

A history is the list of the events of many agents in the order in which they happened.
An event may name a key, which the agent then keeps until it names another one, and may
move an item. The items attributed to a key are those moved by agents that had named it
last; how they accumulate is settled here once for every choice of keys and items.
-/

namespace Foundations

variable {τ ε κ ω : Type} [DecidableEq τ] [DecidableEq κ]

/-- The keys of the agents after one event. -/
def note (named : ε → Option κ) (keys : τ → Option κ) (entry : τ × ε) : τ → Option κ :=
  match named entry.2 with
  | some key => Function.update keys entry.1 (some key)
  | none => keys

/-- The latest key of every agent after a history. -/
def latest (named : ε → Option κ) (keys : τ → Option κ) (history : List (τ × ε)) : τ → Option κ :=
  history.foldl (note named) keys

/-- The items moved by agents whose latest key is `key`, in order. -/
def attributed (named : ε → Option κ) (moved : ε → Option ω) (key : κ) :
    (τ → Option κ) → List (τ × ε) → List ω
  | _, [] => []
  | keys, entry :: rest =>
    (if note named keys entry entry.1 = some key then (moved entry.2).toList else []) ++
      attributed named moved key (note named keys entry) rest

variable {named : ε → Option κ} {moved : ε → Option ω} {key : κ} {keys : τ → Option κ}

omit [DecidableEq κ] in
/-- The latest names after two stretches of a history. -/
@[simp] theorem latest_append (left right : List (τ × ε)) :
    latest named keys (left ++ right) = latest named (latest named keys left) right :=
  List.foldl_append

/-- The second part of a history goes on with the keys of the first. -/
@[simp] theorem attributed_append (left right : List (τ × ε)) :
    attributed named moved key keys (left ++ right) =
      attributed named moved key keys left ++
        attributed named moved key (latest named keys left) right := by
  induction left generalizing keys with
  | nil => rfl
  | cons entry left ih =>
    simp only [List.cons_append, attributed, ih, List.append_assoc]
    rfl

omit [DecidableEq κ] in
/-- Events of one agent leave the keys of the others alone. -/
theorem latest_of_ne {agent other : τ} (events : List ε) (h : other ≠ agent) :
    latest named keys (events.map fun event => (agent, event)) other = keys other := by
  induction events generalizing keys with
  | nil => rfl
  | cons event events ih =>
    change latest named (note named keys (agent, event)) _ other = _
    rw [ih]
    cases hkey : named event with
    | none => simp only [note, hkey]
    | some key => simp only [note, hkey, Function.update_of_ne h]

omit [DecidableEq κ] in
/-- Events that name no key leave every key alone. -/
theorem latest_of_silent {agent : τ} {events : List ε} (h : ∀ event ∈ events, named event = none) :
    latest named keys (events.map fun event => (agent, event)) = keys := by
  induction events generalizing keys with
  | nil => rfl
  | cons event events ih =>
    change latest named (note named keys (agent, event)) _ = _
    rw [ih fun other hother => h other (List.mem_cons_of_mem event hother)]
    simp only [note, h event List.mem_cons_self]

/-- Events that move nothing add no item. -/
theorem attributed_of_silent {agent : τ} {events : List ε} (h : ∀ event ∈ events, moved event = none) :
    attributed named moved key keys (events.map fun event => (agent, event)) = [] := by
  induction events generalizing keys with
  | nil => rfl
  | cons event events ih =>
    simp only [List.map_cons, attributed, h event List.mem_cons_self, Option.toList_none, ite_self,
      List.nil_append]
    exact ih fun other hother => h other (List.mem_cons_of_mem event hother)

/-- An event that moves an item without naming a key. -/
theorem attributed_singleton {agent : τ} {event : ε} (h : named event = none) :
    attributed named moved key keys [(agent, event)] =
      if keys agent = some key then (moved event).toList else [] := by
  simp only [attributed, note, h, List.append_nil]

end Foundations
