import Mathlib.Data.List.Basic
import Mathlib.Logic.Function.Basic

/-!
# Who has what

Agents take items, one at a time, and settle or drop what they have taken. The accounts of
a history say what every agent holds and what was settled and dropped; an item that was
taken by an agent without one is in exactly one place after it.
-/

namespace Foundations

variable {τ ε α : Type} [DecidableEq τ]

/-- What an event does with the item of its agent. -/
inductive Transfer (α : Type) where
  /-- The agent takes an item, or comes back with none. -/
  | take (item : Option α)
  | settle
  | drop

/-- What the agents hold, and what has become of the rest. -/
structure Accounts (τ α : Type) where
  held : τ → Option α
  settled : List α
  dropped : List α

namespace Accounts

/-- Nobody has taken anything. -/
def empty : Accounts τ α := { held := fun _ => none, settled := [], dropped := [] }

/-- The accounts after one event of an agent. -/
def post (transfer : ε → Option (Transfer α)) (accounts : Accounts τ α) (entry : τ × ε) :
    Accounts τ α :=
  match transfer entry.2 with
  | none => accounts
  | some (.take item) => { accounts with held := Function.update accounts.held entry.1 item }
  | some .settle =>
    { accounts with
      held := Function.update accounts.held entry.1 none
      settled := accounts.settled ++ (accounts.held entry.1).toList }
  | some .drop =>
    { accounts with
      held := Function.update accounts.held entry.1 none
      dropped := accounts.dropped ++ (accounts.held entry.1).toList }

/-- The accounts after a history. -/
def after (transfer : ε → Option (Transfer α)) (accounts : Accounts τ α)
    (history : List (τ × ε)) : Accounts τ α := history.foldl (post transfer) accounts

variable {transfer : ε → Option (Transfer α)} {accounts : Accounts τ α} {agent : τ} {event : ε}

/-- No transfer changes nothing. -/
@[simp] theorem after_nil : after transfer accounts [] = accounts := rfl

/-- Transfers are booked one after the other. -/
theorem after_append (left right : List (τ × ε)) :
    after transfer accounts (left ++ right) =
      after transfer (after transfer accounts left) right := List.foldl_append

/-- Events without a transfer leave the accounts alone. -/
theorem after_of_silent {events : List ε} (h : ∀ event ∈ events, transfer event = none) :
    after transfer accounts (events.map fun event => (agent, event)) = accounts := by
  induction events with
  | nil => rfl
  | cons event events ih =>
    have hpost : post transfer accounts (agent, event) = accounts := by
      simp only [post, h event List.mem_cons_self]
    change after transfer (post transfer accounts (agent, event)) _ = _
    rw [hpost]
    exact ih fun other hother => h other (List.mem_cons_of_mem event hother)

/-- Events of an agent that holds nothing and takes nothing leave the accounts alone. -/
theorem after_of_idle {events : List ε} (hheld : accounts.held agent = none)
    (h : ∀ event ∈ events, ∀ item, transfer event ≠ some (.take item)) :
    after transfer accounts (events.map fun event => (agent, event)) = accounts := by
  have hsame : Function.update accounts.held agent none = accounts.held := by
    rw [← hheld, Function.update_eq_self]
  induction events with
  | nil => rfl
  | cons event events ih =>
    have hpost : post transfer accounts (agent, event) = accounts := by
      cases htransfer : transfer event with
      | none => simp only [post, htransfer]
      | some kind =>
        cases kind with
        | take item => exact absurd htransfer (h event List.mem_cons_self item)
        | settle => simp only [post, htransfer, hheld, hsame, Option.toList_none, List.append_nil]
        | drop => simp only [post, htransfer, hheld, hsame, Option.toList_none, List.append_nil]
    change after transfer (post transfer accounts (agent, event)) _ = _
    rw [hpost]
    exact ih fun other hother => h other (List.mem_cons_of_mem event hother)

/-- Events of one agent leave what the others hold alone. -/
theorem held_after_of_ne {other : τ} (h : other ≠ agent) (events : List ε) :
    (after transfer accounts (events.map fun event => (agent, event))).held other =
      accounts.held other := by
  induction events generalizing accounts with
  | nil => rfl
  | cons event events ih =>
    change (after transfer (post transfer accounts (agent, event)) _).held other = _
    rw [ih, post]
    split <;> simp [Function.update_of_ne h]

/-- Where an item that was taken is. -/
inductive Fate (τ : Type) where
  | held (agent : τ)
  | settled
  | dropped
  deriving DecidableEq

/-- The item has this fate. -/
def Has (accounts : Accounts τ α) (item : α) : Fate τ → Prop
  | .held agent => accounts.held agent = some item
  | .settled => item ∈ accounts.settled
  | .dropped => item ∈ accounts.dropped

variable {item taken : α} {fate : Fate τ}

/-- An agent without an item takes one: that item is held, and no other moves. -/
theorem has_take (h : transfer event = some (.take (some taken)))
    (hheld : accounts.held agent = none) :
    (post transfer accounts (agent, event)).Has item fate ↔
      accounts.Has item fate ∨ (item = taken ∧ fate = .held agent) := by
  cases fate with
  | held other =>
    simp only [Has, post, h, Function.update_apply, Fate.held.injEq]
    by_cases hagent : other = agent
    · simp [hagent, hheld, eq_comm]
    · simp [hagent]
  | settled => simp [Has, post, h]
  | dropped => simp [Has, post, h]

/-- An agent comes back without an item. -/
theorem post_take_none (h : transfer event = some (.take none))
    (hheld : accounts.held agent = none) : post transfer accounts (agent, event) = accounts := by
  have hsame : Function.update accounts.held agent none = accounts.held := by
    rw [← hheld, Function.update_eq_self]
  simp only [post, h, hsame]

/-- An agent settles: what it held is settled, and no other item moves. -/
theorem has_settle (h : transfer event = some .settle) (hheld : accounts.held agent = some taken) :
    (post transfer accounts (agent, event)).Has item fate ↔
      (accounts.Has item fate ∧ ¬ (item = taken ∧ fate = .held agent)) ∨
        (item = taken ∧ fate = .settled) := by
  cases fate with
  | held other =>
    simp only [Has, post, h, Function.update_apply, Fate.held.injEq]
    by_cases hagent : other = agent
    · simp [hagent, hheld, eq_comm]
    · simp [hagent]
  | settled => simp [Has, post, h, hheld]
  | dropped => simp [Has, post, h]

/-- An agent drops: what it held is dropped, and no other item moves. -/
theorem has_drop (h : transfer event = some .drop) (hheld : accounts.held agent = some taken) :
    (post transfer accounts (agent, event)).Has item fate ↔
      (accounts.Has item fate ∧ ¬ (item = taken ∧ fate = .held agent)) ∨
        (item = taken ∧ fate = .dropped) := by
  cases fate with
  | held other =>
    simp only [Has, post, h, Function.update_apply, Fate.held.injEq]
    by_cases hagent : other = agent
    · simp [hagent, hheld, eq_comm]
    · simp [hagent]
  | settled => simp [Has, post, h]
  | dropped => simp [Has, post, h, hheld]

end Accounts

/-- The known items lie in exactly one place each, and no others do. -/
structure Placed {π : Type} (known : α → Prop) (lies : α → π → Prop) : Prop where
  isKnown : ∀ item place, lies item place → known item
  unique : ∀ item, known item → ∃! place, lies item place

namespace Placed

variable {π : Type} {known known' : α → Prop} {lies lies' : α → π → Prop} {item : α} {old new : π}

/-- Nothing moves. -/
theorem congr (h : Placed known lies) (hknown : ∀ x, known' x ↔ known x)
    (hlies : ∀ x place, lies' x place ↔ lies x place) : Placed known' lies' where
  isKnown x place hx := (hknown x).mpr (h.isKnown x place ((hlies x place).mp hx))
  unique x hx := by
    simp only [hlies]
    exact h.unique x ((hknown x).mp hx)

/-- One item moves. -/
theorem move (h : Placed known lies) (hold : lies item old)
    (hlies : ∀ x place, lies' x place ↔
      (lies x place ∧ ¬ (x = item ∧ place = old)) ∨ (x = item ∧ place = new)) :
    Placed known lies' := by
  have hknown := h.isKnown item old hold
  refine ⟨fun x place hx => ?_, fun x hx => ?_⟩
  · rcases (hlies x place).mp hx with hstays | hmoved
    · exact h.isKnown x place hstays.1
    · rwa [hmoved.1]
  · by_cases hitem : x = item
    · refine ⟨new, (hlies x new).mpr (Or.inr ⟨hitem, rfl⟩), fun place hplace => ?_⟩
      rcases (hlies x place).mp hplace with hstays | hmoved
      · rw [hitem] at hstays
        have hsame := (h.unique item hknown).unique hstays.1 hold
        exact absurd ⟨rfl, hsame⟩ hstays.2
      · exact hmoved.2
    · simp only [hlies, hitem, false_and, not_false_eq_true, and_true, or_false]
      exact h.unique x hx

/-- A new item comes in. -/
theorem add (h : Placed known lies) (hfresh : ¬ known item)
    (hknown : ∀ x, known' x ↔ known x ∨ x = item)
    (hlies : ∀ x place, lies' x place ↔ lies x place ∨ (x = item ∧ place = new)) :
    Placed known' lies' := by
  refine ⟨fun x place hx => (hknown x).mpr ?_, fun x hx => ?_⟩
  · rcases (hlies x place).mp hx with hlie | hnew
    · exact Or.inl (h.isKnown x place hlie)
    · exact Or.inr hnew.1
  · by_cases hitem : x = item
    · refine ⟨new, (hlies x new).mpr (Or.inr ⟨hitem, rfl⟩), fun place hplace => ?_⟩
      rcases (hlies x place).mp hplace with hlie | hnew
      · rw [hitem] at hlie
        exact absurd (h.isKnown item place hlie) hfresh
      · exact hnew.2
    · simp only [hlies, hitem, false_and, or_false]
      exact h.unique x (((hknown x).mp hx).resolve_right hitem)

end Placed

end Foundations
