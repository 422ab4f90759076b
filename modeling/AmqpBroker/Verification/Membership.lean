import AmqpBroker.Verification.Routing

/-!
# The ring of a queue and its consumers

The ids that the scheduler links, read off by following `next`, are the connections that
consume from the queue. The state machines keep the two together: an id enters the ring
in BASIC_CONSUME_RECEIVED only, where it is not linked, and leaves it in WAIT_CONSUME_ACK
only, where it is.
-/

namespace AmqpBroker

open Foundations Program MachineState

/-- The ids met by following `next` from `first`, `count` of them. -/
def RoundRobinScheduler.linked (rr : RoundRobinScheduler) : List ℤ :=
  List.iterate (fun i => (rr.subs i).next) rr.first rr.count.toNat

variable {s s' : Broker} {t : ℤ} {c : Conn} {p : ℕ} {queue : Queue} {grain : Grain}
  {rr : RoundRobinScheduler} {members : List ℤ}

/-- What the scheduler links are its members. -/
theorem Subscribed.linked_eq (h : Subscribed rr members) : rr.linked = members := by
  rw [RoundRobinScheduler.linked, h.count, Int.toNat_natCast]
  cases members with
  | nil => rfl
  | cons first rest =>
    rw [h.first first rfl]
    exact h.ring.iterate_eq

namespace Broker

/-- A queue's scheduler links exactly its consumers, each of them once, in a circle. -/
structure RingIsConsumers (s : Broker) (p : ℕ) (rr : RoundRobinScheduler) : Prop where
  circle : Ring (fun i => (rr.subs i).next) (fun i => (rr.subs i).prev) rr.linked
  once : ∀ t, rr.linked.count t = 1 ↔ s.SubscribedTo t p
  never : ∀ t, rr.linked.count t = 0 ↔ ¬ s.SubscribedTo t p

/-- The ring of a queue has the connections that consume from it. -/
theorem Ok.ringIsConsumers (h : s.Ok) (hcell : s.store.queues.cells p = some queue) :
    s.RingIsConsumers p queue.rr := by
  obtain ⟨members, hsubscribed, hmem⟩ := h.rings p queue hcell
  constructor
  · rw [hsubscribed.linked_eq]
    exact hsubscribed.ring
  · intro t
    rw [hsubscribed.linked_eq, ← hmem t]
    exact ⟨fun hcount => List.count_pos_iff.mp (by omega),
      List.count_eq_one_of_mem hsubscribed.ring.nodup⟩
  · intro t
    rw [hsubscribed.linked_eq, ← hmem t]
    exact List.count_eq_zero

/-- Whoever is linked has a connection in one of the three consuming states. -/
theorem RingIsConsumers.mem_iff (h : s.RingIsConsumers p rr) (t : ℤ) :
    t ∈ rr.linked ↔ s.SubscribedTo t p := by
  rw [← not_iff_not, ← h.never t]
  exact List.count_eq_zero.symm

/-- A connection outside the consuming states is linked nowhere. -/
theorem RingIsConsumers.not_linked (h : s.RingIsConsumers p rr) (hc : s.conns t = some c)
    (hm : c.machine.subscribed = false) : t ∉ rr.linked := by
  rw [h.mem_iff]
  rintro ⟨c', hc', hsub, -⟩
  rw [hc] at hc'
  obtain rfl := Option.some.inj hc'
  rw [hm] at hsub
  cases hsub

end Broker

/-- The call a ring event records is one that a state makes on its current queue. -/
structure RingCall (m : MachineState) (w : World) (event : Event) : Prop where
  add : ∀ q, event = .qAddSubscriber q → m = basicConsumeReceived ∧ q = w.cs.currentQueue
  remove : ∀ q, event = .removeSubscriber q → m = waitConsumeAck ∧ q = w.cs.currentQueue

/-- An event of another kind is no ring call. -/
theorem RingCall.other {m : MachineState} {w : World} {event : Event}
    (hadd : ∀ q, event ≠ .qAddSubscriber q) (hremove : ∀ q, event ≠ .removeSubscriber q) :
    RingCall m w event :=
  ⟨fun q h => absurd h (hadd q), fun q h => absurd h (hremove q)⟩

/-- A quiet call is no call of the ring. -/
theorem RingCall.quiet {m : MachineState} {w : World} {event : Event} (h : event.IsQuiet) :
    RingCall m w event := by
  apply RingCall.other
  · rintro q rfl
    rcases h with ⟨_, h⟩ | ⟨_, h⟩ <;> cases h
  · rintro q rfl
    rcases h with ⟨_, h⟩ | ⟨_, h⟩ <;> cases h

/-- A lookup records no ring call. -/
theorem ringCall_recorded {m : MachineState} {w w' : World} {first second : Event}
    (h : Recorded w w' [first, second]) (htrace : w.trace = []) (hfirst : RingCall m w first)
    (hsecond : RingCall m w second) : ∀ event ∈ w'.trace, RingCall m w event := by
  have hevents : ∀ event ∈ [first, second], RingCall m w event := by
    intro event hevent
    simp only [List.mem_cons, List.not_mem_nil, or_false] at hevent
    rcases hevent with rfl | rfl
    · exact hfirst
    · exact hsecond
  exact h.forall htrace (fun event => RingCall.quiet) hevents

/-- The ring calls of a handler. -/
theorem Effect.ringCall {m m' : MachineState} {w w' : World} (h : Effect m w w' m')
    (htrace : w.trace = []) : ∀ event ∈ w'.trace, RingCall m w event := by
  cases h with
  | quiet _ hgrows =>
    obtain ⟨events, hevents, hquiet⟩ := hgrows.trace
    rw [hevents, htrace]
    exact fun event hevent => RingCall.quiet (hquiet event hevent)
  | declare _ _ _ hrecorded =>
    exact ringCall_recorded hrecorded htrace (.other nofun nofun) (.other nofun nofun)
  | publish _ _ _ hrecorded =>
    exact ringCall_recorded hrecorded htrace (.other nofun nofun) (.other nofun nofun)
  | consume _ _ _ hrecorded =>
    exact ringCall_recorded hrecorded htrace (.other nofun nofun) (.other nofun nofun)
  | enqueue _ _ _ hevents =>
    rw [hevents, htrace]
    simp only [List.nil_append, List.mem_cons, List.not_mem_nil, or_false, forall_eq]
    exact .other nofun nofun
  | subscribe hfrom _ _ hevents hframes =>
    rw [hevents, htrace]
    intro event hevent
    simp only [List.nil_append, List.mem_append, List.mem_cons, List.not_mem_nil, or_false] at hevent
    rcases hevent with rfl | hframe
    · refine ⟨fun q hq => ?_, nofun⟩
      cases hq
      exact ⟨hfrom, rfl⟩
    · exact RingCall.quiet (Or.inr (hframes event hframe))
  | ack _ _ _ hevents =>
    rw [hevents, htrace]
    simp only [List.nil_append, List.mem_cons, List.not_mem_nil, or_false, forall_eq]
    exact .other nofun nofun
  | reject hfrom _ _ hevents hreads =>
    rw [hevents, htrace]
    intro event hevent
    simp only [List.nil_append, List.mem_append, List.mem_cons, List.not_mem_nil, or_false] at hevent
    rcases hevent with hread | rfl
    · obtain ⟨method, hmethod, -⟩ := hreads event hread
      exact RingCall.quiet (Or.inl ⟨method, hmethod⟩)
    · refine ⟨nofun, fun q hq => ?_⟩
      cases hq
      exact ⟨hfrom, rfl⟩

namespace Broker

/-- A ring call that a step makes on a queue: the thread and the state it makes the call in. -/
theorem ringCall_of_step {act : Act} {i : ℤ} {event : Event} (hstep : Broker.step grain s act = .ok s')
    (hevent : ∃ events, s'.history = s.history ++ events ∧ (i, event) ∈ events) :
    ∃ c, s.conns i = some c ∧ RingCall c.machine (s.world c) event := by
  obtain ⟨events, hhistory, hmem⟩ := hevent
  have hcommit : ∀ {t : ℤ} {m : MachineState} {point : DequeuePoint} {w : World},
      s' = s.commit t m point w → i = t ∧ event ∈ w.trace := by
    rintro t m point w rfl
    have hevents := List.append_cancel_left hhistory
    rw [← hevents] at hmem
    obtain ⟨event', hevent', heq⟩ := List.mem_map.mp hmem
    cases heq
    exact ⟨rfl, hevent'⟩
  have hsilent : s'.history = s.history → False := by
    intro hsame
    rw [hsame, List.self_eq_append_right] at hhistory
    rw [hhistory] at hmem
    cases hmem
  cases step_cases hstep with
  | accept _ _ _ hs' => exact (hsilent (by rw [hs'])).elim
  | close _ _ hs' => exact (hsilent (by rw [hs'])).elim
  | handler hc _ heffect hs' =>
    obtain ⟨rfl, htrace⟩ := hcommit hs'
    exact ⟨_, hc, heffect.ringCall rfl event htrace⟩
  | spurious hc _ _ _ _ hs' => exact absurd (hcommit hs').2 List.not_mem_nil
  | dequeue hc _ _ hcell heffect hs' =>
    obtain ⟨rfl, htrace⟩ := hcommit hs'
    refine ⟨_, hc, ?_⟩
    rcases dequeueEffect_kind hcell heffect with ⟨-, -, -, -, hsame⟩ |
      ⟨-, -, taken, -, -, -, hsame⟩ | ⟨-, -, next, rr, -, rfl⟩
    · rw [hsame] at htrace
      cases htrace
    · rw [hsame] at htrace
      obtain rfl := List.mem_singleton.mp htrace
      exact .other nofun nofun
    · cases htrace

/-- The ring calls of a step find the ring as they need it: `add_subscriber` an id that is
not linked, `remove_subscriber` one that is. -/
structure CallsFit (s s' : Broker) (p : ℕ) (rr : RoundRobinScheduler) : Prop where
  add : ∀ t, (∃ events, s'.history = s.history ++ events ∧
    (t, Event.qAddSubscriber (some p)) ∈ events) → t ∉ rr.linked
  remove : ∀ t, (∃ events, s'.history = s.history ++ events ∧
    (t, Event.removeSubscriber (some p)) ∈ events) → t ∈ rr.linked

/-- The calls of a step fit the ring. -/
theorem RingIsConsumers.callsFit {act : Act} (h : s.RingIsConsumers p rr)
    (hstep : Broker.step grain s act = .ok s') : s.CallsFit s' p rr := by
  constructor
  · intro t hevent
    obtain ⟨c, hc, hcall⟩ := ringCall_of_step hstep hevent
    obtain ⟨hm, -⟩ := hcall.add (some p) rfl
    exact h.not_linked hc (by rw [hm]; rfl)
  · intro t hevent
    obtain ⟨c, hc, hcall⟩ := ringCall_of_step hstep hevent
    obtain ⟨hm, hp⟩ := hcall.remove (some p) rfl
    exact (h.mem_iff t).mpr ⟨c, hc, by rw [hm]; rfl, hp.symm⟩

/-- In every reachable state the ring of every queue links exactly the live connections that
consume from it, each once; so every step subscribes only ids that are not linked and
unsubscribes only ids that are, and a connection that has ended is linked nowhere. -/
theorem ring_is_live_consumers {guard : Broker → Act → Prop}
    (h : Reaches (Broker.step grain) guard initial s) (hcell : s.store.queues.cells p = some queue) :
    s.RingIsConsumers p queue.rr ∧
      (∀ act s', Broker.step grain s act = .ok s' → s.CallsFit s' p queue.rr) ∧
      ∀ t c, s.conns t = some c → c.machine = fail ∨ c.machine = finished →
        t ∉ queue.rr.linked := by
  have hring := (ok_of_reaches h).ringIsConsumers hcell
  refine ⟨hring, fun act s' hstep => hring.callsFit hstep, fun t c hc hm => ?_⟩
  apply hring.not_linked hc
  rcases hm with hm | hm <;> rw [hm] <;> rfl

/-- The ring of the first queue after the run of `consumeOneOfTwo`. -/
def firstRing (s : Broker) : Option (List ℤ) := (s.store.queues.cells 0).map fun q => q.rr.linked

/-- The only consumer is the ring. -/
theorem ring_is_live_consumers_consumeOneOfTwo :
    ∃ s queue, exec (Broker.step .fine) initial consumeOneOfTwo = .ok s ∧
      s.store.queues.cells 0 = some queue ∧ queue.rr.linked = [0] ∧
      s.RingIsConsumers 0 queue.rr ∧
      (∀ act s', Broker.step .fine s act = .ok s' → s.CallsFit s' 0 queue.rr) ∧
      ∀ t c, s.conns t = some c → c.machine = fail ∨ c.machine = finished →
        t ∉ queue.rr.linked := by
  have hobserved : (exec (Broker.step .fine) initial consumeOneOfTwo).toOption.map firstRing =
      some (some [0]) := by decide +kernel
  obtain ⟨s, hrun, hview⟩ := exec_observed hobserved
  obtain ⟨queue, hcell, hlinked⟩ := Option.map_eq_some_iff.mp hview
  exact ⟨s, queue, hrun, hcell, hlinked, ring_is_live_consumers (reaches_of_exec hrun) hcell⟩

end Broker

end AmqpBroker
