import AmqpBroker.Spec.MessageBroker

/-!
# Messages are dealt out evenly

Two agents that stay attached to a queue take messages from it in alternation, whoever else
comes and goes: in any stretch of a run one of them has taken at most one more than the other.
-/

namespace AmqpBroker

open Foundations

variable {ν τ μ : Type}

/-- Two agents are attached to a queue, and the first will take a message before the second. -/
structure MessageBroker.Before (b : MessageBroker ν τ μ) (name : ν) (s t : τ) : Prop where
  first : ∃ hand, b.role s = .attached name hand
  second : ∃ hand, b.role t = .attached name hand
  order : ∃ q, b.queues name = some q ∧ [s, t].Sublist (q.rota.upcoming q.dealt)

variable [DecidableEq ν] [DecidableEq τ]

/-- The agent takes a message. -/
def MessageOp.isTake (t : τ) : MessageOp ν τ μ → Bool
  | .take agent _ => agent = t
  | _ => false

/-- How many messages an agent takes. -/
def takes (t : τ) (ops : List (MessageOp ν τ μ)) : ℕ := ops.countP (MessageOp.isTake t)

namespace MessageBroker

variable {b b' : MessageBroker ν τ μ} {name name' : ν} {s t x : τ} {op : MessageOp ν τ μ}
  {ops : List (MessageOp ν τ μ)} {q q' : MessageQueue τ μ}

omit [DecidableEq ν] in
/-- A new role is that of one client only. -/
theorem role_setRole_of_ne {role : Role ν μ} (h : t ≠ x) : (b.setRole x role).role t = b.role t :=
  Function.update_of_ne h _ _

/-- An agent stays attached until it is detached. -/
theorem Happens.stays (h : Happens b op b') (hrole : ∃ hand, b.role t = .attached name hand)
    (hop : op ≠ .detach t) : ∃ hand, b'.role t = .attached name hand := by
  obtain ⟨hand, hrole⟩ := hrole
  have hfree : ∀ {x : τ} {role : Role ν μ}, (∀ name hand, b.role x ≠ .attached name hand) →
      (b.setRole x role).role t = .attached name hand := by
    intro x role hfree
    rw [role_setRole_of_ne (by rintro rfl; exact hfree name hand hrole), hrole]
  have hsame : ∀ {x : τ} {name' : ν} {hand' hand'' : Option μ} {b'' : MessageBroker ν τ μ},
      b.role x = .attached name' hand' → b''.role = b.role →
        ∃ hand, (b''.setRole x (.attached name' hand'')).role t = .attached name hand := by
    intro x name' hand' hand'' b'' hx hb''
    by_cases ht : t = x
    · subst ht
      obtain ⟨rfl, -⟩ := Role.attached.inj (hrole.symm.trans hx)
      exact ⟨hand'', Function.update_self _ _ _⟩
    · exact ⟨hand, by rw [role_setRole_of_ne ht, hb'', hrole]⟩
  cases h with
  | connect hx | declare hx | select hx => exact ⟨hand, hfree hx⟩
  | publish _ _ | pass _ _ _ _ | send _ _ | settled _ => exact ⟨hand, hrole⟩
  | attach hx _ _ =>
    refine ⟨hand, ?_⟩
    rw [role_setRole_of_ne (by rintro rfl; rw [hrole] at hx; cases hx)]
    exact hrole
  | take hx _ _ _ _ => exact hsame hx rfl
  | settle hx => exact hsame hx rfl
  | detach _ _ _ =>
    refine ⟨hand, ?_⟩
    rw [role_setRole_of_ne (by rintro rfl; exact hop rfl)]
    exact hrole

omit [DecidableEq τ] in
/-- Two agents keep their order when one queue is replaced by another that keeps it. -/
theorem order_setQueue {s' t' : τ} (hq : b.queues name' = some q)
    (hkeeps : name' = name → [s, t].Sublist (q.rota.upcoming q.dealt) →
      [s', t'].Sublist (q'.rota.upcoming q'.dealt))
    (hother : name' ≠ name → [s', t'] = [s, t])
    (h : ∃ q, b.queues name = some q ∧ [s, t].Sublist (q.rota.upcoming q.dealt)) :
    ∃ q, (b.setQueue name' q').queues name = some q ∧
      [s', t'].Sublist (q.rota.upcoming q.dealt) := by
  obtain ⟨q₀, hq₀, hbefore⟩ := h
  by_cases hname : name' = name
  · subst hname
    obtain rfl := Option.some.inj (hq.symm.trans hq₀)
    exact ⟨q', Function.update_self _ _ _, hkeeps rfl hbefore⟩
  · rw [hother hname]
    exact ⟨q₀, (Function.update_of_ne (Ne.symm hname) _ _).trans hq₀, hbefore⟩

/-- Two agents keep their order until the first takes a message, and the second takes none. -/
theorem Before.kept (h : b.Before name s t) (hop : Happens b op b') (hs : op ≠ .detach s)
    (ht : op ≠ .detach t) (hnone : op.isTake s = false) (hne : s ≠ t) :
    b'.Before name s t ∧ op.isTake t = false := by
  have hmember : ∀ q : MessageQueue τ μ, [s, t].Sublist (q.rota.upcoming q.dealt) →
      s ∈ q.rota.members := fun q hbefore => Rota.mem_upcoming.mp (hbefore.subset (by simp))
  suffices horder : (∃ q, b'.queues name = some q ∧ [s, t].Sublist (q.rota.upcoming q.dealt)) ∧
      op.isTake t = false from ⟨⟨hop.stays h.first hs, hop.stays h.second ht, horder.1⟩, horder.2⟩
  cases hop with
  | connect _ | select _ | send _ _ | settle _ | settled _ => exact ⟨h.order, rfl⟩
  | @declare x name' _ =>
    obtain ⟨q, hq, hbefore⟩ := h.order
    refine ⟨?_, rfl⟩
    by_cases hname : name = name'
    · subst hname
      exact ⟨q, by simp [setQueue, hq], hbefore⟩
    · exact ⟨q, (Function.update_of_ne hname _ _).trans hq, hbefore⟩
  | publish _ hq =>
    exact ⟨order_setQueue hq (fun _ hbefore => hbefore) (fun _ => rfl) h.order, rfl⟩
  | attach _ hq hnew =>
    refine ⟨order_setQueue hq (fun _ hbefore => ?_) (fun _ => rfl) h.order, rfl⟩
    exact Rota.before_join hnew (hmember _ hbefore) hbefore
  | @take x name' q message rest hrole hq hturn hdealt _ =>
    have hxs : x ≠ s := by simpa [MessageOp.isTake] using hnone
    have hxt : x ≠ t := by
      rintro rfl
      obtain ⟨hand, hsecond⟩ := h.second
      obtain ⟨rfl, -⟩ := Role.attached.inj (hrole.symm.trans hsecond)
      obtain ⟨q', hq', hbefore⟩ := h.order
      obtain rfl := Option.some.inj (hq.symm.trans hq')
      rw [hdealt] at hbefore
      exact hne (Rota.eq_of_before_holder hturn hbefore)
    refine ⟨order_setQueue hq (fun _ hbefore => ?_) (fun _ => rfl) h.order,
      by simpa [MessageOp.isTake] using hxt⟩
    rw [hdealt] at hbefore
    exact Rota.before_gain_of_ne hturn hxs hbefore
  | pass _ hq _ hdealt =>
    refine ⟨order_setQueue hq (fun _ hbefore => ?_) (fun _ => rfl) h.order, rfl⟩
    rwa [hdealt] at hbefore
  | @detach x name' q hand _ hq hturn =>
    have hxs : x ≠ s := fun hx => hs (by rw [hx])
    have hxt : x ≠ t := fun hx => ht (by rw [hx])
    refine ⟨order_setQueue hq (fun _ hbefore => ?_) (fun _ => rfl) h.order, rfl⟩
    exact Rota.before_leave hturn (hmember _ hbefore) hxs hxt hbefore

/-- When the first of two agents takes a message, the second comes before it. -/
theorem Before.taken (h : b.Before name s t) (hop : Happens b op b') (htake : op.isTake s = true)
    (hne : s ≠ t) : b'.Before name t s ∧ op.isTake t = false := by
  cases hop with
  | @take x name' q message rest hrole hq hturn hdealt hmessages =>
    obtain rfl : x = s := by simpa [MessageOp.isTake] using htake
    obtain ⟨hand, hfirst⟩ := h.first
    obtain ⟨rfl, -⟩ := Role.attached.inj (hrole.symm.trans hfirst)
    have hhappens := Happens.take hrole hq hturn hdealt hmessages
    refine ⟨⟨hhappens.stays h.second (by simp), hhappens.stays h.first (by simp), ?_⟩,
      by simpa [MessageOp.isTake] using hne⟩
    refine order_setQueue hq (fun _ hbefore => ?_) (fun hother => absurd rfl hother) h.order
    exact Rota.before_gain hturn (Rota.mem_upcoming.mp (hbefore.subset (by simp))) hne
  | _ => cases htake

variable [DecidableEq μ]

/-- Two agents that stay attached take messages in alternation. -/
theorem Before.alternate (h : b.Before name s t) (hne : s ≠ t)
    (hexec : exec MessageBroker.step b ops = .ok b') (hs : .detach s ∉ ops) (ht : .detach t ∉ ops) :
    (b'.Before name s t ∧ takes s ops = takes t ops) ∨
      (b'.Before name t s ∧ takes s ops = takes t ops + 1) := by
  induction ops generalizing b s t with
  | nil =>
    obtain rfl := Except.ok.inj hexec
    exact .inl ⟨h, rfl⟩
  | cons op rest ih =>
    obtain ⟨m, hstep, hrest⟩ := exec_cons_eq_ok.mp hexec
    have hop := happens_of_step hstep
    obtain ⟨hsop, hsrest⟩ := not_or.mp (mt List.mem_cons.mpr hs)
    obtain ⟨htop, htrest⟩ := not_or.mp (mt List.mem_cons.mpr ht)
    have hcount : ∀ x, takes x (op :: rest) = takes x rest + if op.isTake x then 1 else 0 :=
      fun x => List.countP_cons
    rw [hcount s, hcount t]
    cases htake : op.isTake s with
    | false =>
      obtain ⟨hkept, hnone⟩ := h.kept hop (Ne.symm hsop) (Ne.symm htop) htake hne
      simpa [hnone] using ih hkept hne hrest hsrest htrest
    | true =>
      obtain ⟨hturned, hnone⟩ := h.taken hop htake hne
      obtain ⟨hbefore, hsame⟩ | ⟨hbefore, hmore⟩ := ih hturned hne.symm hrest htrest hsrest
      · exact .inr ⟨hbefore, by simp [hnone, hsame]⟩
      · exact .inl ⟨hbefore, by simp [hnone, hmore]⟩

/-- Whoever else comes and goes, two agents that stay attached to a queue are dealt messages
evenly. -/
theorem takes_even (hq : b.queues name = some q) (hs : s ∈ q.rota.members) (ht : t ∈ q.rota.members)
    (hfirst : ∃ hand, b.role s = .attached name hand)
    (hsecond : ∃ hand, b.role t = .attached name hand)
    (hexec : exec MessageBroker.step b ops = .ok b') (hsops : .detach s ∉ ops)
    (htops : .detach t ∉ ops) : takes s ops ≤ takes t ops + 1 := by
  by_cases hne : s = t
  · rw [hne]
    exact Nat.le_succ _
  · obtain hbefore | hbefore := Rota.before_or_before q.dealt hs ht hne
    · obtain ⟨-, hsame⟩ | ⟨-, hmore⟩ :=
        Before.alternate ⟨hfirst, hsecond, q, hq, hbefore⟩ hne hexec hsops htops
      · omega
      · omega
    · obtain ⟨-, hsame⟩ | ⟨-, hmore⟩ :=
        Before.alternate ⟨hsecond, hfirst, q, hq, hbefore⟩ (Ne.symm hne) hexec htops hsops
      · omega
      · omega

end MessageBroker

end AmqpBroker
