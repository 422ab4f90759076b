import AmqpBroker.Verification.Transfers

/-!
# Where every message is

A message that was enqueued is in its queue, held by the one connection that took it,
acknowledged, or given up. What is given up is not put back: a connection that leaves
WAIT_CONSUME_ACK for FAIL takes its message with it.
-/

namespace AmqpBroker

open Foundations Program MachineState

/-- The message was enqueued into the queue at `p`. -/
def WasEnqueued (history : List (ℤ × Event)) (p : ℕ) (item : ℕ × List UInt8) : Prop :=
  ∃ t, (t, Event.qEnqueue (some p) item.1 item.2) ∈ history

/-- What the connections hold, what was acknowledged and what was given up. -/
def accountsOf (history : List (ℤ × Event)) : Accounts ℤ (ℕ × List UInt8) :=
  Accounts.empty.after transferOf history

/-- Where a message can be. -/
inductive Place where
  | queue (p : ℕ)
  | away (fate : Accounts.Fate ℤ)
  deriving DecidableEq

/-- The message is at this place. -/
def Broker.LiesAt (s : Broker) (item : ℕ × List UInt8) : Place → Prop
  | .queue p => item ∈ s.store.messages p
  | .away fate => (accountsOf s.history).Has item fate

/-- Every message is somewhere, and the connections that hold one are the ones between their
`q_dequeue` and the end of WAIT_CONSUME_ACK. -/
structure Broker.Accounted (s : Broker) : Prop where
  placed : Placed (fun item => ∃ p, WasEnqueued s.history p item) s.LiesAt
  holders : ∀ t item, (accountsOf s.history).held t = some item →
    ∃ c, s.conns t = some c ∧ c.machine.holding c.point = true
  fresh : ∀ p item, WasEnqueued s.history p item → item.1 < s.store.nodes.next
  sole : ∀ p p' item item', WasEnqueued s.history p item → WasEnqueued s.history p' item' →
    item.1 = item'.1 → p = p' ∧ item = item'
  home : ∀ p, ∀ item ∈ s.store.messages p, WasEnqueued s.history p item

variable {store : Store} {s s' : Broker} {t : ℤ} {c : Conn} {m m' : MachineState}
  {p : ℕ} {w w' : World} {grain : Grain} {point point' : DequeuePoint}
  {item : ℕ × List UInt8} {place : Place} {events : List Event} {history : List (ℤ × Event)}

/-- The messages of a queue are different nodes. -/
theorem messages_nodup (h : ListsOk store) (p : ℕ) : (store.messages p).Nodup := by
  obtain ⟨lists, hlists⟩ := h
  rw [hlists.messages_eq, bodiesAt]
  apply List.Nodup.filterMap
  · intro a a' b hb hb'
    obtain ⟨_, -, rfl⟩ := Option.map_eq_some_iff.mp hb
    obtain ⟨_, -, heq⟩ := Option.map_eq_some_iff.mp hb'
    exact (Prod.mk.inj heq).1.symm
  · cases hcell : store.queues.cells p with
    | none =>
      rw [hlists.dead p hcell]
      exact List.nodup_nil
    | some queue => exact (hlists.linked p queue hcell).nodup

/-- The calls of one thread are booked behind the history. -/
theorem accountsOf_append (history : List (ℤ × Event)) (events : List Event) :
    accountsOf (history ++ events.map fun event => (t, event)) =
      (accountsOf history).after transferOf (events.map fun event => (t, event)) :=
  Accounts.after_append _ _

/-- A message was enqueued before the calls or by one of them. -/
theorem wasEnqueued_append :
    WasEnqueued (history ++ events.map fun event => (t, event)) p item ↔
      WasEnqueued history p item ∨ .qEnqueue (some p) item.1 item.2 ∈ events := by
  unfold WasEnqueued
  simp only [List.mem_append, List.mem_map, Prod.mk.injEq, exists_or]
  simp

namespace Broker

/-- A connection that is not between `q_dequeue` and its acknowledgement holds nothing. -/
theorem Accounted.held_eq_none (h : s.Accounted) (hc : s.conns t = some c)
    (hidle : c.machine.holding c.point = false) : (accountsOf s.history).held t = none := by
  by_contra hsome
  obtain ⟨item, hitem⟩ := Option.ne_none_iff_exists'.mp hsome
  obtain ⟨c', hc', hholding⟩ := h.holders t item hitem
  obtain rfl := Option.some.inj (hc.symm.trans hc')
  rw [hidle] at hholding
  cases hholding

/-- The step of one thread leaves what another one holds. -/
theorem held_commit_of_ne {t' : ℤ} (h : t' ≠ t) :
    (accountsOf (s.commit t m point w).history).held t' = (accountsOf s.history).held t' := by
  change (accountsOf (s.history ++ _)).held t' = _
  rw [accountsOf_append, Accounts.held_after_of_ne h]

/-- Who holds messages after a step of one connection. -/
theorem Accounted.holders_commit (h : s.Accounted)
    (hself : (accountsOf (s.commit t m point w).history).held t = none ∨ m.holding point = true)
    (t' : ℤ) (item : ℕ × List UInt8)
    (hheld : (accountsOf (s.commit t m point w).history).held t' = some item) :
    ∃ c, (s.commit t m point w).conns t' = some c ∧ c.machine.holding c.point = true := by
  by_cases ht : t' = t
  · subst ht
    have hnow := hself.resolve_left (by rw [hheld]; simp)
    exact ⟨_, s.commit_conns_self t' m point w, hnow⟩
  · rw [held_commit_of_ne ht] at hheld
    obtain ⟨c', hc', hholds⟩ := h.holders t' item hheld
    exact ⟨c', (s.commit_conns_of_ne ht m point w).trans hc', hholds⟩

/-- A step that enqueues nothing. -/
theorem wasEnqueued_commit (hevents : ∀ event ∈ w.trace, enqueuedItem event = none) :
    WasEnqueued (s.commit t m point w).history p item ↔ WasEnqueued s.history p item := by
  change WasEnqueued (s.history ++ _) p item ↔ _
  rw [wasEnqueued_append, or_iff_left]
  intro hmem
  simpa [enqueuedItem] using hevents _ hmem

/-- A step that enqueues nothing keeps what is known of the nodes. -/
theorem Accounted.commit (h : s.Accounted) (hnext : w.store.nodes.next = s.store.nodes.next)
    (hevents : ∀ event ∈ w.trace, enqueuedItem event = none)
    (hshrinks : ∀ p, ∀ item ∈ w.store.messages p, item ∈ s.store.messages p)
    (hself : (accountsOf (s.commit t m point w).history).held t = none ∨ m.holding point = true)
    (hplaced : Placed (fun item => ∃ p, WasEnqueued s.history p item)
      (s.commit t m point w).LiesAt) : (s.commit t m point w).Accounted where
  placed := hplaced.congr (fun _ => exists_congr fun _ => wasEnqueued_commit hevents)
    fun _ _ => Iff.rfl
  holders := h.holders_commit hself
  fresh p item hitem := (h.fresh p item ((wasEnqueued_commit hevents).mp hitem)).trans_eq hnext.symm
  sole p p' item item' hitem hitem' := h.sole p p' item item'
    ((wasEnqueued_commit hevents).mp hitem) ((wasEnqueued_commit hevents).mp hitem')
  home p item hmem := (wasEnqueued_commit hevents).mpr (h.home p item (hshrinks p item hmem))

/-- A step that moves no message between places. -/
theorem Accounted.commit_same (h : s.Accounted) (hsame : SameMessages s.store w.store)
    (haccounts : (accountsOf s.history).after transferOf (w.trace.map fun event => (t, event)) =
      accountsOf s.history)
    (hevents : ∀ event ∈ w.trace, enqueuedItem event = none)
    (hholding : (accountsOf s.history).held t = none ∨ m.holding point = true) :
    (s.commit t m point w).Accounted := by
  have hthen : accountsOf (s.commit t m point w).history = accountsOf s.history :=
    (accountsOf_append _ _).trans haccounts
  apply h.commit hsame.next hevents
  · exact fun p item hmem => (hsame.messages p) ▸ hmem
  · rwa [hthen]
  · apply h.placed.congr fun _ => Iff.rfl
    intro item place
    cases place with
    | queue p => exact iff_of_eq (congrArg (item ∈ ·) (hsame.messages p))
    | away fate => simp only [LiesAt, hthen]

/-- A step that takes the first message of a queue. -/
theorem Accounted.commit_take (h : s.Accounted) (hlists : ListsOk s.store)
    (hheld : (accountsOf s.history).held t = none)
    (hdequeued : Dequeued s.store w.store p (some item))
    (htrace : w.trace = [.qDequeue (some p) (some item)]) (hholding : m.holding point = true) :
    (s.commit t m point w).Accounted := by
  have hthen : accountsOf (s.commit t m point w).history =
      (accountsOf s.history).post transferOf (t, .qDequeue (some p) (some item)) := by
    change accountsOf (s.history ++ _) = _
    rw [accountsOf_append, htrace]
    rfl
  have hmessages : s.store.messages p = item :: w.store.messages p := hdequeued.messages
  have hnodup := messages_nodup hlists p
  rw [hmessages, List.nodup_cons] at hnodup
  apply h.commit hdequeued.next
  · rw [htrace]
    exact List.forall_mem_singleton.mpr rfl
  · intro p' x hx
    by_cases hp : p' = p
    · rw [hp, hmessages]
      rw [hp] at hx
      exact List.mem_cons_of_mem item hx
    · rwa [hdequeued.others p' hp] at hx
  · exact Or.inr hholding
  · have hold : s.LiesAt item (.queue p) := by
      rw [LiesAt, hmessages]
      exact List.mem_cons_self
    have hmoved : ∀ x place, (s.commit t m point w).LiesAt x place ↔
        (s.LiesAt x place ∧ ¬ (x = item ∧ place = .queue p)) ∨
          (x = item ∧ place = .away (.held t)) := by
      intro x place
      cases place with
      | queue p' =>
        by_cases hp : p' = p
        · subst hp
          simp only [LiesAt, Broker.commit, hmessages, List.mem_cons]
          constructor
          · intro hx
            exact Or.inl ⟨Or.inr hx, fun hitem => hnodup.1 (hitem.1 ▸ hx)⟩
          · rintro (⟨hx | hx, hne⟩ | ⟨-, hplace⟩)
            · exact absurd ⟨hx, trivial⟩ hne
            · exact hx
            · cases hplace
        · simp [LiesAt, Broker.commit, hdequeued.others p' hp, hp]
      | away fate =>
        have hhas : ((accountsOf s.history).post transferOf
            (t, .qDequeue (some p) (some item))).Has x fate ↔
              (accountsOf s.history).Has x fate ∨ (x = item ∧ fate = .held t) :=
          Accounts.has_take rfl hheld
        simp [LiesAt, hthen, hhas]
    exact h.placed.move hold hmoved

/-- A step that ends the way of the message that its connection holds. -/
theorem Accounted.commit_end (h : s.Accounted) (hsame : SameMessages s.store w.store)
    (fate : Accounts.Fate ℤ) (hheld : (accountsOf s.history).held t = some item)
    (hevents : ∀ event ∈ w.trace, enqueuedItem event = none)
    (hafter : (accountsOf (s.commit t m point w).history).held t = none)
    (hhas : ∀ x place, (accountsOf (s.commit t m point w).history).Has x place ↔
      ((accountsOf s.history).Has x place ∧ ¬ (x = item ∧ place = .held t)) ∨
        (x = item ∧ place = fate)) : (s.commit t m point w).Accounted := by
  apply h.commit hsame.next hevents
  · exact fun p x hx => (hsame.messages p) ▸ hx
  · exact Or.inl hafter
  · have hold : s.LiesAt item (.away (.held t)) := hheld
    have hmoved : ∀ x place, (s.commit t m point w).LiesAt x place ↔
        (s.LiesAt x place ∧ ¬ (x = item ∧ place = .away (.held t))) ∨
          (x = item ∧ place = .away fate) := by
      intro x place
      cases place with
      | queue p =>
        simp only [LiesAt, Broker.commit, hsame.messages, reduceCtorEq, and_false,
          not_false_eq_true, and_true, or_false]
      | away fate' => simp [LiesAt, hhas]
    exact h.placed.move hold hmoved

/-- A step that enqueues a message. -/
theorem Accounted.commit_enqueue (h : s.Accounted) {node : ℕ} {body : List UInt8}
    (henqueued : Enqueued s.store w.store p node body)
    (htrace : w.trace = [.qEnqueue (some p) node body])
    (hholding : (accountsOf s.history).held t = none) : (s.commit t m point w).Accounted := by
  have hthen : accountsOf (s.commit t m point w).history = accountsOf s.history := by
    change accountsOf (s.history ++ _) = _
    rw [accountsOf_append, htrace]
    exact Accounts.after_of_silent (List.forall_mem_singleton.mpr rfl)
  have hwas : ∀ p' x, WasEnqueued (s.commit t m point w).history p' x ↔
      WasEnqueued s.history p' x ∨ (p' = p ∧ x = (node, body)) := by
    intro p' x
    change WasEnqueued (s.history ++ _) p' x ↔ _
    rw [wasEnqueued_append, htrace, List.mem_singleton, Event.qEnqueue.injEq, Option.some.injEq,
      Prod.ext_iff]
  have hfresh : ∀ p' x, WasEnqueued s.history p' x → x.1 ≠ node := by
    intro p' x hx hnode
    have hlt := h.fresh p' x hx
    rw [hnode, henqueued.fresh] at hlt
    exact lt_irrefl _ hlt
  have hlies : ∀ x place, (s.commit t m point w).LiesAt x place ↔
      s.LiesAt x place ∨ (x = (node, body) ∧ place = .queue p) := by
    intro x place
    cases place with
    | queue p' =>
      by_cases hp : p' = p
      · simp [LiesAt, Broker.commit, hp, henqueued.messages]
      · simp [LiesAt, Broker.commit, hp, henqueued.others p' hp]
    | away fate => simp [LiesAt, hthen]
  have hnew : ¬ ∃ p', WasEnqueued s.history p' (node, body) := by
    rintro ⟨p', hx⟩
    exact hfresh p' _ hx rfl
  refine ⟨h.placed.add hnew ?_ hlies, ?_, ?_, ?_, ?_⟩
  · intro x
    simp only [hwas, exists_or, exists_and_right, exists_eq, true_and]
  · apply h.holders_commit
    rw [hthen]
    exact Or.inl hholding
  · intro p' x hx
    rw [show (s.commit t m point w).store.nodes.next = s.store.nodes.next + 1 from henqueued.next]
    rcases (hwas p' x).mp hx with hold | ⟨-, hnew⟩
    · exact (h.fresh p' x hold).trans (Nat.lt_succ_self _)
    · rw [hnew, henqueued.fresh]
      exact Nat.lt_succ_self _
  · intro p₁ p₂ x₁ x₂ hx₁ hx₂ hnode
    rcases (hwas p₁ x₁).mp hx₁ with hold₁ | ⟨rfl, rfl⟩
    · rcases (hwas p₂ x₂).mp hx₂ with hold₂ | ⟨-, hnew₂⟩
      · exact h.sole p₁ p₂ x₁ x₂ hold₁ hold₂ hnode
      · rw [hnew₂] at hnode
        exact absurd hnode (hfresh p₁ x₁ hold₁)
    · rcases (hwas p₂ x₂).mp hx₂ with hold₂ | ⟨rfl, rfl⟩
      · exact absurd hnode.symm (hfresh p₂ x₂ hold₂)
      · exact ⟨rfl, rfl⟩
  · intro p' x hx
    rcases (hlies x (.queue p')).mp hx with hold | ⟨hnew, hplace⟩
    · exact (hwas p' x).mpr (Or.inl (h.home p' x hold))
    · exact (hwas p' x).mpr (Or.inr ⟨Place.queue.inj hplace, hnew⟩)

/-- The accounts after a connection has given up its message. -/
theorem accountsOf_giveUp {reads : List Event} {q : Option ℕ}
    (htrace : w.trace = reads ++ [.removeSubscriber q])
    (hreads : ∀ event ∈ reads, ∃ method, event = .readMethod method ∧ method ≠ ackMethod) :
    accountsOf (s.commit t m point w).history =
      (accountsOf s.history).post transferOf (t, .removeSubscriber q) := by
  have hsilent : ∀ event ∈ reads, transferOf event = none := by
    intro event hevent
    obtain ⟨method, rfl, hne⟩ := hreads event hevent
    exact if_neg hne
  change accountsOf (s.history ++ _) = _
  rw [accountsOf_append, htrace, List.map_append, Accounts.after_append,
    Accounts.after_of_silent hsilent]
  rfl

/-- Every step of a connection keeps every message in one place. -/
theorem Accounted.transfers (h : s.Accounted) (hok : s.Ok) (hc : s.conns t = some c)
    (htransfers : Transfers s c m point w) : (s.commit t m point w).Accounted := by
  cases htransfers with
  | idle hbefore hafter hsame hevents =>
    have hheld := h.held_eq_none hc hbefore
    have haccounts := Accounts.after_of_idle hheld fun event hevent => (hevents event hevent).2
    exact h.commit_same hsame haccounts (fun event hevent => (hevents event hevent).1)
      (Or.inl hheld)
  | enqueue hbefore _ henqueued htrace =>
    exact h.commit_enqueue henqueued htrace (h.held_eq_none hc hbefore)
  | @take p taken hbefore hafter _ hdequeued _ htrace =>
    have hheld := h.held_eq_none hc hbefore
    cases taken with
    | none =>
      have hsame : SameMessages s.store w.store := by
        refine ⟨fun p' => ?_, hdequeued.next⟩
        by_cases hp : p' = p
        · rw [hp]
          exact hdequeued.messages.symm
        · exact hdequeued.others p' hp
      refine h.commit_same hsame ?_ ?_ (Or.inl hheld)
      · rw [htrace]
        exact Accounts.post_take_none rfl hheld
      · rw [htrace]
        exact List.forall_mem_singleton.mpr rfl
    | some item => exact h.commit_take hok.lists hheld hdequeued htrace hafter
  | carry _ hafter hsame hwrites _ =>
    refine h.commit_same hsame (Accounts.after_of_silent fun event hevent => ?_)
      (fun event hevent => ?_) (Or.inr hafter)
    · obtain ⟨bytes, rfl⟩ := hwrites event hevent
      rfl
    · obtain ⟨bytes, rfl⟩ := hwrites event hevent
      rfl
  | acknowledge hm _ _ hsame htrace =>
    have hevents : ∀ event ∈ w.trace, enqueuedItem event = none := by
      rw [htrace]
      exact List.forall_mem_singleton.mpr rfl
    have hthen : accountsOf (s.commit t m point w).history =
        (accountsOf s.history).post transferOf (t, .readMethod ackMethod) := by
      change accountsOf (s.history ++ _) = _
      rw [accountsOf_append, htrace]
      rfl
    cases hheld : (accountsOf s.history).held t with
    | none =>
      refine h.commit_same hsame (Accounts.after_of_idle hheld ?_) hevents (Or.inl hheld)
      rw [htrace]
      exact List.forall_mem_singleton.mpr nofun
    | some item =>
      refine h.commit_end hsame .settled hheld hevents ?_ (fun x place => ?_)
      · rw [hthen]
        exact Function.update_self _ _ _
      · rw [hthen]
        exact Accounts.has_settle rfl hheld
  | @giveUp reads q hm _ hsame htrace hreads =>
    have hsilent : ∀ event ∈ reads, enqueuedItem event = none ∧ transferOf event = none := by
      intro event hevent
      obtain ⟨method, rfl, hne⟩ := hreads event hevent
      exact ⟨rfl, if_neg hne⟩
    have hevents : ∀ event ∈ w.trace, enqueuedItem event = none := by
      intro event hevent
      rw [htrace] at hevent
      rcases List.mem_append.mp hevent with hread | hremove
      · exact (hsilent event hread).1
      · rw [List.mem_singleton.mp hremove]
        rfl
    have hthen : accountsOf (s.commit t m point w).history =
        (accountsOf s.history).post transferOf (t, .removeSubscriber q) :=
      accountsOf_giveUp htrace hreads
    cases hheld : (accountsOf s.history).held t with
    | none =>
      refine h.commit_same hsame (Accounts.after_of_idle hheld ?_) hevents (Or.inl hheld)
      rw [htrace]
      intro event hevent item
      rcases List.mem_append.mp hevent with hread | hremove
      · rw [(hsilent event hread).2]
        exact nofun
      · rw [List.mem_singleton.mp hremove]
        exact nofun
    | some item =>
      refine h.commit_end hsame .dropped hheld hevents ?_ (fun x place => ?_)
      · rw [hthen]
        exact Function.update_self _ _ _
      · rw [hthen]
        exact Accounts.has_drop rfl hheld

/-- Accepting and closing connections keeps every message in one place. -/
theorem Accounted.replace (h : s.Accounted) {next : Option Conn}
    (hreplaces : Replaces s t next s') : s'.Accounted := by
  rw [hreplaces.state]
  refine ⟨h.placed.congr (fun _ => Iff.rfl) fun item place => ?_, fun t' item hheld => ?_, h.fresh,
    h.sole, h.home⟩
  · cases place with
    | queue p => exact Iff.rfl
    | away fate => exact Iff.rfl
  · obtain ⟨c, hc, hholding⟩ := h.holders t' item hheld
    by_cases ht : t' = t
    · rw [ht] at hc
      rw [hreplaces.before c hc] at hholding
      cases hholding
    · exact ⟨c, (Function.update_of_ne ht _ _).trans hc, hholding⟩

/-- Every step keeps the books. -/
theorem Accounted.step (h : s.Accounted) (hok : s.Ok) {act : Act}
    (hstep : Broker.step grain s act = .ok s') : s'.Accounted := by
  rcases transfers_of_step hok hstep with
    ⟨t, c, m', point', w', hc, hs', htransfers⟩ | ⟨t, next, hreplaces⟩
  · rw [hs']
    exact h.transfers hok hc htransfers
  · exact h.replace hreplaces

/-- The books of a broker that nobody has called yet. -/
theorem accounted_initial : initial.Accounted := by
  have hnone : ∀ p item, ¬ WasEnqueued initial.history p item := by
    rintro p item ⟨t, hmem⟩
    cases hmem
  have hnowhere : ∀ item place, ¬ initial.LiesAt item place := by
    intro item place hlies
    cases place with
    | queue p => cases hlies
    | away fate => cases fate <;> cases hlies
  refine ⟨⟨fun item place hlies => absurd hlies (hnowhere item place), ?_⟩, nofun, ?_, ?_, ?_⟩
  · rintro item ⟨p, hitem⟩
    exact absurd hitem (hnone p item)
  · exact fun p item hitem => absurd hitem (hnone p item)
  · exact fun p _ item _ hitem => absurd hitem (hnone p item)
  · exact fun p item hmem => absurd hmem (hnowhere item (.queue p))

/-- Every reachable state accounts for every message. -/
theorem accounted_of_reaches {guard : Broker → Act → Prop}
    (h : Reaches (Broker.step grain) guard initial s) : s.Accounted := by
  have hboth : s.Ok ∧ s.Accounted :=
    h.invariant (P := fun s => s.Ok ∧ s.Accounted) ⟨ok_initial, accounted_initial⟩
      fun _ _ _ hinv _ hstep => ⟨hinv.1.step hstep, hinv.2.step hinv.1 hstep⟩
  exact hboth.2

/-- A connection that leaves WAIT_CONSUME_ACK for FAIL leaves every queue as it is, and its
message is given up. -/
theorem drops_of_fail {writes : List WriteResult} (hok : s.Ok) {c' : Conn}
    (hc : s.conns t = some c) (hm : c.machine = waitConsumeAck)
    (hstep : Broker.step grain s (.run t writes) = .ok s') (hc' : s'.conns t = some c')
    (hfail : c'.machine = fail) :
    (∀ p, s'.store.messages p = s.store.messages p) ∧
      ∀ item, s.LiesAt item (.away (.held t)) → s'.LiesAt item (.away .dropped) := by
  cases step_cases hstep with
  | @handler _ c₁ m' w' _ hc₁ haction heffect hs' =>
    obtain rfl := Option.some.inj (hc.symm.trans hc₁)
    rw [hs', commit_conns_self] at hc'
    cases hc'
    have hm' : m' = fail := hfail
    have hholding : c.machine.holding c.point = true := by
      rw [hm]
      rfl
    cases transfers_of_handler hok haction heffect with
    | idle hbefore | enqueue hbefore | take hbefore =>
      rw [hholding] at hbefore
      cases hbefore
    | carry _ hafter =>
      rw [hm'] at hafter
      cases hafter
    | acknowledge _ hnext =>
      rw [hm'] at hnext
      cases hnext
    | giveUp _ _ hsame htrace hreads =>
      rw [hs']
      refine ⟨hsame.messages, fun item hheld => ?_⟩
      rw [LiesAt, accountsOf_giveUp htrace hreads]
      exact (Accounts.has_drop rfl hheld).mpr (Or.inr ⟨rfl, rfl⟩)
  | dequeue hc₁ hm₁ _ _ _ _ =>
    obtain rfl := Option.some.inj (hc.symm.trans hc₁)
    rw [hm] at hm₁
    cases hm₁

/-- In every reachable state every message ever enqueued is in exactly one place: the queue that
it was enqueued into, the one live connection that took it, among the acknowledged ones, or among
the dropped ones; a connection that leaves WAIT_CONSUME_ACK for FAIL drops its message and puts
nothing back into any queue. -/
theorem every_message_in_one_place {guard : Broker → Act → Prop}
    (h : Reaches (Broker.step grain) guard initial s) :
    (∀ p item, WasEnqueued s.history p item → ∃! place, s.LiesAt item place) ∧
      (∀ p p' item, WasEnqueued s.history p item → s.LiesAt item (.queue p') → p' = p) ∧
      (∀ t item, s.LiesAt item (.away (.held t)) →
        ∃ c, s.conns t = some c ∧ c.machine.holding c.point = true) ∧
      ∀ t c writes s' c', s.conns t = some c → c.machine = waitConsumeAck →
        Broker.step grain s (.run t writes) = .ok s' → s'.conns t = some c' → c'.machine = fail →
        (∀ p, s'.store.messages p = s.store.messages p) ∧
          ∀ item, s.LiesAt item (.away (.held t)) → s'.LiesAt item (.away .dropped) := by
  have haccounted := accounted_of_reaches h
  refine ⟨fun p item hitem => haccounted.placed.unique item ⟨p, hitem⟩,
    fun p p' item hitem hlies => ?_, fun t item hlies => haccounted.holders t item hlies,
    fun t c writes s' c' hc hm hstep hc' hfail => ?_⟩
  · exact (haccounted.sole p' p item item (haccounted.home p' item hlies) hitem rfl).1
  · exact drops_of_fail (ok_of_reaches h) hc hm hstep hc' hfail

/-- A client that publishes a message, consumes it and goes away. -/
def consumeAndLeave : List Act :=
  session 0 (openingFrames ++ declareFrame [113] ++ publishFrame [] [113] ++ headerFrame 1 ++
    bodyFrame [33] ++ reopenFrames ++ consumeFrame [113]) 26

/-- What is seen of the message of this client. -/
structure Sight where
  machine : Option MachineState
  enqueued : Bool
  contents : List (ℕ × List UInt8)
  held : Option (ℕ × List UInt8)
  dropped : List (ℕ × List UInt8)
  deriving DecidableEq

/-- Look at the first connection and at its message. -/
def sight (s : Broker) : Sight where
  machine := (s.conns 0).map Conn.machine
  enqueued := decide ((0, Event.qEnqueue (some 0) 0 [33]) ∈ s.history)
  contents := s.store.contents [113]
  held := (accountsOf s.history).held 0
  dropped := (accountsOf s.history).dropped

/-- A message whose consumer waits for the acknowledgement is in one place. -/
theorem every_message_in_one_place_held :
    ∃ s, exec (Broker.step .fine) initial consumeAndLeave = .ok s ∧
      WasEnqueued s.history 0 (0, [33]) ∧ ∃! place, s.LiesAt (0, [33]) place := by
  have hobserved : (exec (Broker.step .fine) initial consumeAndLeave).toOption.map sight =
      some ⟨some waitConsumeAck, true, [], some (0, [33]), []⟩ := by decide +kernel
  obtain ⟨s, hrun, hview⟩ := exec_observed hobserved
  have hwas : WasEnqueued s.history 0 (0, [33]) :=
    ⟨0, of_decide_eq_true (congrArg Sight.enqueued hview)⟩
  exact ⟨s, hrun, hwas, (every_message_in_one_place (reaches_of_exec hrun)).1 0 _ hwas⟩

/-- A message whose consumer goes away without an acknowledgement is in no queue, with no
consumer, and not acknowledged. -/
theorem consumeAndLeave_loses :
    ∃ s s' c c', Reaches (Broker.step .fine) (fun _ _ => True) initial s ∧ s.conns 0 = some c ∧
      c.machine = waitConsumeAck ∧ s.LiesAt (0, [33]) (.away (.held 0)) ∧
      Broker.step .fine s (.run 0) = .ok s' ∧ s'.conns 0 = some c' ∧ c'.machine = fail ∧
      s'.store.contents [113] = [] ∧ WasEnqueued s'.history 0 (0, [33]) ∧
      ∀ place, s'.LiesAt (0, [33]) place → place = .away .dropped := by
  have hobserved : (exec (Broker.step .fine) initial consumeAndLeave).toOption.map sight =
      some ⟨some waitConsumeAck, true, [], some (0, [33]), []⟩ := by decide +kernel
  have hobserved' : (exec (Broker.step .fine) initial (consumeAndLeave ++ [.run 0])).toOption.map
      sight = some ⟨some fail, true, [], none, [(0, [33])]⟩ := by decide +kernel
  obtain ⟨s, hrun, hview⟩ := exec_observed hobserved
  obtain ⟨s', hrun', hview'⟩ := exec_observed hobserved'
  obtain ⟨c, hc, hm⟩ := Option.map_eq_some_iff.mp (congrArg Sight.machine hview)
  obtain ⟨c', hc', hm'⟩ := Option.map_eq_some_iff.mp (congrArg Sight.machine hview')
  have hheld : s.LiesAt (0, [33]) (.away (.held 0)) := congrArg Sight.held hview
  have hwas : WasEnqueued s'.history 0 (0, [33]) :=
    ⟨0, of_decide_eq_true (congrArg Sight.enqueued hview')⟩
  have hdropped : (accountsOf s'.history).dropped = [(0, [33])] := congrArg Sight.dropped hview'
  have hlost : s'.LiesAt (0, [33]) (.away .dropped) := by
    rw [LiesAt, Accounts.Has, hdropped]
    exact List.mem_singleton_self _
  refine ⟨s, s', c, c', reaches_of_exec hrun, hc, hm, hheld, step_of_exec hrun hrun', hc', hm',
    congrArg Sight.contents hview', hwas, fun place hplace => ?_⟩
  have haccounted := accounted_of_reaches (reaches_of_exec hrun')
  exact (haccounted.placed.unique _ ⟨0, hwas⟩).unique hplace hlost

end Broker

end AmqpBroker
