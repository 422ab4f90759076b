import AmqpBroker.Foundations.Execution
import AmqpBroker.Foundations.Rota
import Mathlib.Logic.Function.Basic

/-!
# What a message broker is for

Queues under names, agents that put messages into them and agents attached to them that take
the messages out in turns: the oldest message goes to the agent that has the turn, which then
passes it on. An agent that has taken a message can send it out until it is settled, and an
agent that is detached loses the message it has.
-/

namespace AmqpBroker

open Foundations

/-- A queue: its messages, oldest first, the agents attached to it, and whether the one that
has the turn has taken its message. -/
structure MessageQueue (τ μ : Type) where
  messages : List μ
  rota : Rota τ
  dealt : Bool

/-- What an agent can do: nothing yet, put messages into the queue it has named, or take
messages from it, with the message that it has in hand. -/
inductive Role (ν μ : Type) where
  | idle
  | named (name : ν)
  | attached (name : ν) (hand : Option μ)
  deriving DecidableEq

/-- The queues that have been declared and what the agents do with them. -/
structure MessageBroker (ν τ μ : Type) where
  queues : ν → Option (MessageQueue τ μ)
  role : τ → Role ν μ

/-- What can happen at a broker. -/
inductive MessageOp (ν τ μ : Type) where
  /-- An agent starts anew. -/
  | connect (agent : τ)
  /-- An agent names a queue, which is there from then on. -/
  | declare (agent : τ) (name : ν)
  /-- An agent names a queue, which may not be there. -/
  | select (agent : τ) (name : ν)
  | publish (agent : τ) (message : μ)
  | attach (agent : τ)
  | take (agent : τ) (message : μ)
  | pass (agent : τ)
  | send (agent : τ) (message : μ)
  | settle (agent : τ)
  | detach (agent : τ)
  deriving DecidableEq

/-- Why something cannot happen. -/
inductive Refusal where
  /-- The agent is attached to a queue. -/
  | attached
  | notAttached
  /-- The agent has named no queue that is there. -/
  | noQueue
  | notItsTurn
  /-- It is not the message in question. -/
  | otherMessage
  deriving DecidableEq

/-- A queue nobody has used. -/
def MessageQueue.empty {τ μ : Type} : MessageQueue τ μ :=
  { messages := [], rota := .empty, dealt := false }

namespace MessageBroker

variable {ν τ μ : Type} [DecidableEq ν] [DecidableEq τ] [DecidableEq μ]

def initial : MessageBroker ν τ μ := { queues := fun _ => none, role := fun _ => .idle }

def setRole (b : MessageBroker ν τ μ) (t : τ) (role : Role ν μ) : MessageBroker ν τ μ :=
  { b with role := Function.update b.role t role }

def setQueue (b : MessageBroker ν τ μ) (name : ν) (q : MessageQueue τ μ) : MessageBroker ν τ μ :=
  { b with queues := Function.update b.queues name (some q) }

/-- An agent that is not attached takes up another role. -/
def takeUp (b : MessageBroker ν τ μ) (t : τ) (role : Role ν μ) :
    Except Refusal (MessageBroker ν τ μ) :=
  match b.role t with
  | .attached _ _ => .error .attached
  | _ => .ok (b.setRole t role)

/-- The queue that an agent has named and is not attached to. -/
def namedBy (b : MessageBroker ν τ μ) (t : τ) : Except Refusal (ν × MessageQueue τ μ) :=
  match b.role t with
  | .named name =>
    match b.queues name with
    | some q => .ok (name, q)
    | none => .error .noQueue
  | .idle => .error .noQueue
  | .attached _ _ => .error .attached

/-- The queue that an agent is attached to, with what it has in hand. -/
def attachedTo (b : MessageBroker ν τ μ) (t : τ) :
    Except Refusal (ν × MessageQueue τ μ × Option μ) :=
  match b.role t with
  | .attached name hand =>
    match b.queues name with
    | some q => .ok (name, q, hand)
    | none => .error .noQueue
  | _ => .error .notAttached

/-- What happens next. -/
def step (b : MessageBroker ν τ μ) : MessageOp ν τ μ → Except Refusal (MessageBroker ν τ μ)
  | .connect t => b.takeUp t .idle
  | .declare t name => do
    let b ← b.takeUp t (.named name)
    pure (b.setQueue name ((b.queues name).getD .empty))
  | .select t name => b.takeUp t (if (b.queues name).isSome then .named name else .idle)
  | .publish t message => do
    let (name, q) ← b.namedBy t
    pure (b.setQueue name { q with messages := q.messages ++ [message] })
  | .attach t => do
    let (name, q) ← b.namedBy t
    if h : t ∉ q.rota.members then
      pure ((b.setQueue name { q with rota := q.rota.join t h }).setRole t (.attached name none))
    else .error .attached
  | .take t message => do
    let (name, q, hand) ← b.attachedTo t
    if q.rota.holder ≠ some t ∨ q.dealt ∨ hand.isSome then .error .notItsTurn
    else if q.messages.head? ≠ some message then .error .otherMessage
    else
      pure ((b.setQueue name { q with messages := q.messages.tail, dealt := true }).setRole t
        (.attached name (some message)))
  | .pass t => do
    let (name, q, _) ← b.attachedTo t
    if q.rota.holder ≠ some t ∨ ¬ q.dealt then .error .notItsTurn
    else pure (b.setQueue name { q with rota := q.rota.pass, dealt := false })
  | .send t message => do
    let (_, _, hand) ← b.attachedTo t
    if hand = some message then pure b else .error .otherMessage
  | .settle t =>
    match b.role t with
    | .attached name _ => .ok (b.setRole t (.attached name none))
    | _ => .ok b
  | .detach t => do
    let (name, q, _) ← b.attachedTo t
    if q.rota.holder = some t ∧ q.dealt then .error .notItsTurn
    else pure ((b.setQueue name { q with rota := q.rota.leave t }).setRole t (.named name))

/-- Everything that can happen, with what it needs and what it leaves. -/
inductive Happens (b : MessageBroker ν τ μ) : MessageOp ν τ μ → MessageBroker ν τ μ → Prop
  | connect {t : τ} (hfree : ∀ name hand, b.role t ≠ .attached name hand) :
      Happens b (.connect t) (b.setRole t .idle)
  | declare {t : τ} {name : ν} (hfree : ∀ name hand, b.role t ≠ .attached name hand) :
      Happens b (.declare t name)
        ((b.setRole t (.named name)).setQueue name ((b.queues name).getD .empty))
  | select {t : τ} {name : ν} (hfree : ∀ name hand, b.role t ≠ .attached name hand) :
      Happens b (.select t name)
        (b.setRole t (if (b.queues name).isSome then .named name else .idle))
  | publish {t : τ} {name : ν} {q : MessageQueue τ μ} {message : μ} (hrole : b.role t = .named name)
      (hq : b.queues name = some q) :
      Happens b (.publish t message)
        (b.setQueue name { q with messages := q.messages ++ [message] })
  | attach {t : τ} {name : ν} {q : MessageQueue τ μ} (hrole : b.role t = .named name)
      (hq : b.queues name = some q) (hnew : t ∉ q.rota.members) :
      Happens b (.attach t)
        ((b.setQueue name { q with rota := q.rota.join t hnew }).setRole t (.attached name none))
  | take {t : τ} {name : ν} {q : MessageQueue τ μ} {message : μ} {rest : List μ}
      (hrole : b.role t = .attached name none) (hq : b.queues name = some q)
      (hturn : q.rota.holder = some t) (hdealt : q.dealt = false)
      (hmessages : q.messages = message :: rest) :
      Happens b (.take t message)
        ((b.setQueue name { q with messages := rest, dealt := true }).setRole t
          (.attached name (some message)))
  | pass {t : τ} {name : ν} {q : MessageQueue τ μ} {hand : Option μ}
      (hrole : b.role t = .attached name hand) (hq : b.queues name = some q)
      (hturn : q.rota.holder = some t) (hdealt : q.dealt = true) :
      Happens b (.pass t) (b.setQueue name { q with rota := q.rota.pass, dealt := false })
  | send {t : τ} {name : ν} {q : MessageQueue τ μ} {message : μ}
      (hrole : b.role t = .attached name (some message)) (hq : b.queues name = some q) :
      Happens b (.send t message) b
  | settle {t : τ} {name : ν} {hand : Option μ} (hrole : b.role t = .attached name hand) :
      Happens b (.settle t) (b.setRole t (.attached name none))
  | settled {t : τ} (hfree : ∀ name hand, b.role t ≠ .attached name hand) : Happens b (.settle t) b
  | detach {t : τ} {name : ν} {q : MessageQueue τ μ} {hand : Option μ}
      (hrole : b.role t = .attached name hand) (hq : b.queues name = some q)
      (hturn : q.rota.holder = some t → q.dealt = false) :
      Happens b (.detach t)
        ((b.setQueue name { q with rota := q.rota.leave t }).setRole t (.named name))

variable {b b' : MessageBroker ν τ μ} {t : τ}

omit [DecidableEq ν] [DecidableEq μ] in
/-- A client that takes up a role was not attached to a queue. -/
theorem takeUp_eq_ok {role : Role ν μ} (h : b.takeUp t role = .ok b') :
    (∀ name hand, b.role t ≠ .attached name hand) ∧ b' = b.setRole t role := by
  unfold takeUp at h
  split at h
  · cases h
  · rename_i hfree
    exact ⟨hfree, (Except.ok.inj h).symm⟩

omit [DecidableEq ν] [DecidableEq μ] in
/-- A client that is not attached to a queue may take up a role. -/
theorem takeUp_of_free {role : Role ν μ} (hfree : ∀ name hand, b.role t ≠ .attached name hand) :
    b.takeUp t role = .ok (b.setRole t role) := by
  unfold takeUp
  split
  · rename_i name hand hrole
    exact absurd hrole (hfree name hand)
  · rfl

omit [DecidableEq ν] [DecidableEq τ] [DecidableEq μ] in
/-- The queue that a client has named exists. -/
theorem namedBy_eq_ok {name : ν} {q : MessageQueue τ μ} (h : b.namedBy t = .ok (name, q)) :
    b.role t = .named name ∧ b.queues name = some q := by
  unfold namedBy at h
  split at h
  · rename_i name' hrole
    split at h
    · rename_i q' hq
      cases h
      exact ⟨hrole, hq⟩
    · cases h
  · cases h
  · cases h

omit [DecidableEq ν] [DecidableEq τ] [DecidableEq μ] in
/-- The queue that a client is attached to exists. -/
theorem attachedTo_eq_ok {name : ν} {q : MessageQueue τ μ} {hand : Option μ}
    (h : b.attachedTo t = .ok (name, q, hand)) :
    b.role t = .attached name hand ∧ b.queues name = some q := by
  unfold attachedTo at h
  split at h
  · rename_i name' hand' hrole
    split at h
    · rename_i q' hq
      cases h
      exact ⟨hrole, hq⟩
    · cases h
  · cases h

/-- What the conditions say is what happens. -/
theorem Happens.step_eq {op : MessageOp ν τ μ} (h : Happens b op b') : b.step op = .ok b' := by
  cases h with
  | connect hfree => exact takeUp_of_free hfree
  | declare hfree =>
    simp only [step, takeUp_of_free hfree]
    rfl
  | select hfree => exact takeUp_of_free hfree
  | publish hrole hq =>
    simp only [step, namedBy, hrole, hq]
    rfl
  | attach hrole hq hnew =>
    simp only [step, namedBy, hrole, hq]
    exact dif_pos hnew
  | take hrole hq hturn hdealt hmessages =>
    simp only [step, attachedTo, hrole, hq]
    simp [bind, Except.bind, pure, Except.pure, hturn, hdealt, hmessages]
  | pass hrole hq hturn hdealt =>
    simp only [step, attachedTo, hrole, hq]
    simp [bind, Except.bind, pure, Except.pure, hturn, hdealt]
  | send hrole hq =>
    simp only [step, attachedTo, hrole, hq]
    exact if_pos rfl
  | settle hrole => simp only [step, hrole]
  | settled hfree =>
    simp only [step]
  | detach hrole hq hturn =>
    simp only [step, attachedTo, hrole, hq]
    refine if_neg ?_
    rintro ⟨hhas, hdealt⟩
    rw [hturn hhas] at hdealt
    cases hdealt

/-- A sequence of two operations succeeds when both do. -/
theorem bind_ok {ε α β : Type} {x : Except ε α} {f : α → Except ε β} {y : β}
    (h : x >>= f = .ok y) : ∃ a, x = .ok a ∧ f a = .ok y := by
  cases x with
  | error reason => cases h
  | ok a => exact ⟨a, rfl, h⟩

/-- What happens meets the conditions. -/
theorem happens_of_step {op : MessageOp ν τ μ} (h : b.step op = .ok b') : Happens b op b' := by
  cases op with
  | connect t =>
    obtain ⟨hfree, rfl⟩ := takeUp_eq_ok h
    exact .connect hfree
  | declare t name =>
    obtain ⟨m, htake, hset⟩ := bind_ok h
    obtain ⟨hfree, rfl⟩ := takeUp_eq_ok htake
    cases hset
    exact .declare hfree
  | select t name =>
    obtain ⟨hfree, rfl⟩ := takeUp_eq_ok h
    exact .select hfree
  | publish t message =>
    obtain ⟨⟨name, q⟩, hnamed, hset⟩ := bind_ok h
    obtain ⟨hrole, hq⟩ := namedBy_eq_ok hnamed
    cases hset
    exact .publish hrole hq
  | attach t =>
    obtain ⟨⟨name, q⟩, hnamed, hset⟩ := bind_ok h
    obtain ⟨hrole, hq⟩ := namedBy_eq_ok hnamed
    simp only at hset
    split at hset
    · rename_i hnew
      cases hset
      exact .attach hrole hq hnew
    · cases hset
  | take t message =>
    obtain ⟨⟨name, q, hand⟩, hat, hset⟩ := bind_ok h
    obtain ⟨hrole, hq⟩ := attachedTo_eq_ok hat
    simp only at hset
    split at hset
    · cases hset
    · rename_i hfits
      split at hset
      · cases hset
      · rename_i hmessage
        simp only [not_or, not_not, Bool.not_eq_true, Option.isSome_eq_false_iff,
          Option.isNone_iff_eq_none] at hfits hmessage
        obtain ⟨hturn, hdealt, rfl⟩ := hfits
        obtain ⟨rest, hrest⟩ := List.head?_eq_some_iff.mp hmessage
        cases hset
        rw [hrest]
        exact .take hrole hq hturn hdealt hrest
  | pass t =>
    obtain ⟨⟨name, q, hand⟩, hat, hset⟩ := bind_ok h
    obtain ⟨hrole, hq⟩ := attachedTo_eq_ok hat
    simp only at hset
    split at hset
    · cases hset
    · rename_i hfits
      simp only [not_or, not_not] at hfits
      cases hset
      exact .pass hrole hq hfits.1 hfits.2
  | send t message =>
    obtain ⟨⟨name, q, hand⟩, hat, hset⟩ := bind_ok h
    obtain ⟨hrole, hq⟩ := attachedTo_eq_ok hat
    simp only at hset
    split at hset
    · rename_i hhand
      subst hhand
      cases hset
      exact .send hrole hq
    · cases hset
  | settle t =>
    simp only [step] at h
    split at h
    · rename_i name hand hrole
      cases h
      exact .settle hrole
    · rename_i hfree
      cases h
      exact .settled hfree
  | detach t =>
    obtain ⟨⟨name, q, hand⟩, hat, hset⟩ := bind_ok h
    obtain ⟨hrole, hq⟩ := attachedTo_eq_ok hat
    simp only at hset
    split at hset
    · cases hset
    · rename_i hfits
      cases hset
      exact .detach hrole hq fun hhas => by simpa using fun hdealt => hfits ⟨hhas, hdealt⟩

end MessageBroker

end AmqpBroker
