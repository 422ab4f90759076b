import AmqpBroker.Foundations.Custody
import AmqpBroker.Verification.Exchange
import AmqpBroker.Verification.Routing

/-!
# What a step does with messages

A message is enqueued, taken by a connection, carried until its BODY frame is sent and the
acknowledgement is awaited, and then acknowledged or given up. Every step of the broker does
one of these, or nothing with any message.
-/

namespace AmqpBroker

open Foundations Program MachineState

/-- A connection between its `q_dequeue` and the end of WAIT_CONSUME_ACK. -/
def MachineState.holding (m : MachineState) (point : DequeuePoint) : Bool :=
  match m with
  | waitValueDequeue => point = .nextThread
  | valueDequeueReceived => true
  | waitConsumeAck => true
  | _ => false

/-- What a call does with the message of its connection. -/
def transferOf : Event → Option (Transfer (ℕ × List UInt8))
  | .qDequeue _ taken => some (.take taken)
  | .readMethod method => if method = ackMethod then some .settle else none
  | .removeSubscriber _ => some .drop
  | _ => none

/-- The queues hold the same messages, and no node was made. -/
structure SameMessages (store store' : Store) : Prop where
  messages : ∀ p, store'.messages p = store.messages p
  next : store'.nodes.next = store.nodes.next

/-- Calls that neither enqueue nor dequeue. -/
def MovesNothing (events : List Event) : Prop :=
  ∀ event ∈ events, enqueuedItem event = none ∧ ∀ item, transferOf event ≠ some (.take item)

variable {store store' : Store} {s s' : Broker} {t : ℤ} {c : Conn} {m m' : MachineState}
  {p : ℕ} {queue : Queue} {w w' : World} {grain : Grain} {point point' : DequeuePoint}
  {events : List Event}

/-- What a step of a connection does with messages. -/
inductive Transfers (s : Broker) (c : Conn) (m' : MachineState) (point' : DequeuePoint)
    (w' : World) : Prop
  | idle : c.machine.holding c.point = false → m'.holding point' = false →
      SameMessages s.store w'.store → MovesNothing w'.trace → Transfers s c m' point' w'
  | enqueue {p node : ℕ} {body : List UInt8} : c.machine.holding c.point = false →
      m'.holding point' = false → Enqueued s.store w'.store p node body →
      w'.trace = [.qEnqueue (some p) node body] → Transfers s c m' point' w'
  | take {p : ℕ} {taken : Option (ℕ × List UInt8)} : c.machine.holding c.point = false →
      m'.holding point' = true → m' ≠ waitConsumeAck → Dequeued s.store w'.store p taken →
      w'.cs = c.cs.afterDequeue taken → w'.trace = [.qDequeue (some p) taken] →
      Transfers s c m' point' w'
  | carry : c.machine.holding c.point = true → m'.holding point' = true →
      SameMessages s.store w'.store → (∀ event ∈ w'.trace, ∃ bytes, event = .write bytes) →
      (m' ≠ waitConsumeAck → w'.cs = c.cs ∧ c.machine ≠ waitConsumeAck) → Transfers s c m' point' w'
  | acknowledge : c.machine = waitConsumeAck → m' = waitValueDequeue → point' = .testRound →
      SameMessages s.store w'.store → w'.trace = [.readMethod ackMethod] → Transfers s c m' point' w'
  | giveUp {reads : List Event} {q : Option ℕ} : c.machine = waitConsumeAck → m' = fail →
      SameMessages s.store w'.store → w'.trace = reads ++ [.removeSubscriber q] →
      (∀ event ∈ reads, ∃ method, event = .readMethod method ∧ method ≠ ackMethod) →
      Transfers s c m' point' w'

/-- Untouched memory has the same messages. -/
theorem SameMessages.refl (store : Store) : SameMessages store store := ⟨fun _ => rfl, rfl⟩

/-- The same lists have the same messages. -/
theorem SameLists.sameMessages (h : SameLists store store') : SameMessages store store' :=
  ⟨h.messages, by rw [h.nodes]⟩

/-- A lookup moves no message. -/
theorem LookedUp.sameMessages (h : LookedUp store store') : SameMessages store store' := by
  refine ⟨fun p => ?_, by rw [h.nodes]⟩
  rw [Store.messages, Store.messages, h.nodes, h.queues]

/-- A new queue moves no message. -/
theorem Inserted.sameMessages {name : List UInt8} {q : ℕ} (h : Inserted store store' name q) :
    SameMessages store store' := by
  refine ⟨fun p => ?_, by rw [h.nodes]⟩
  have hinsert := messages_insert store store'.trie name p
  rwa [← h.queues, ← h.nodes] at hinsert

/-- A quiet call moves no message. -/
theorem Event.IsQuiet.movesNothing {event : Event} (h : event.IsQuiet) :
    enqueuedItem event = none ∧ ∀ item, transferOf event ≠ some (.take item) := by
  rcases h with ⟨method, rfl⟩ | ⟨bytes, rfl⟩
  · refine ⟨rfl, fun item => ?_⟩
    simp only [transferOf]
    split <;> simp
  · exact ⟨rfl, nofun⟩

/-- Calls that read, parse and look up. -/
theorem Recorded.movesNothing {first second : Event} (h : Recorded w w' [first, second])
    (htrace : w.trace = [])
    (hfirst : enqueuedItem first = none ∧ transferOf first = none)
    (hsecond : enqueuedItem second = none ∧ transferOf second = none) : MovesNothing w'.trace := by
  apply h.forall htrace (fun _ hquiet => hquiet.movesNothing)
  intro event hevent
  rcases List.mem_pair.mp hevent with heq | heq
  · rw [heq]
    exact ⟨hfirst.1, by simp [hfirst.2]⟩
  · rw [heq]
    exact ⟨hsecond.1, by simp [hsecond.2]⟩

/-- A quiet edge starts and ends without a message, except the one that delivers it. -/
theorem quietNext_holding (h : m' ∈ quietNext m) (hdeliver : m ≠ valueDequeueReceived)
    (point : DequeuePoint) : m.holding point = false ∧ m'.holding .testRound = false := by
  cases m <;> simp only [quietNext, List.mem_cons, List.not_mem_nil, or_false] at h <;>
    rcases h with rfl | rfl | rfl <;> first | exact ⟨rfl, rfl⟩ | exact absurd rfl hdeliver

/-- What a handler does with messages. -/
theorem transfers_of_handler (hok : s.Ok) (haction : actions c.machine (s.world c) = .ok (m', w'))
    (heffect : Effect c.machine (s.world c) w' m') : Transfers s c m' .testRound w' := by
  cases heffect with
  | quiet hedge hgrows =>
    have hsame : SameMessages s.store w'.store := by
      rw [hgrows.store]
      exact .refl s.store
    obtain ⟨events, htrace, hevents⟩ := hgrows.trace
    by_cases hdeliver : c.machine = valueDequeueReceived
    · rw [hdeliver] at haction
      obtain ⟨body, -, rfl, hsends⟩ := actionValueDequeueReceived_sends haction
      refine .carry (by rw [hdeliver]; rfl) rfl hsame (fun event hevent => ?_) fun h => absurd rfl h
      rw [hsends.trace] at hevent
      obtain ⟨frame, -, hframe⟩ := List.mem_map.mp hevent
      exact ⟨frame, hframe.symm⟩
    · obtain ⟨hbefore, hafter⟩ := quietNext_holding hedge hdeliver c.point
      refine .idle hbefore hafter hsame fun event hevent => ?_
      rw [htrace] at hevent
      exact (hevents event hevent).movesNothing
  | declare hfrom _ hstore hrecorded =>
    refine .idle (by rw [hfrom]; rfl) rfl ?_ (hrecorded.movesNothing rfl ⟨rfl, rfl⟩ ⟨rfl, rfl⟩)
    rcases createQueue_eq_ok hok.pool hstore with ⟨-, hlooked⟩ | hinserted
    · exact hlooked.sameMessages
    · exact hinserted.sameMessages
  | publish hfrom _ hstore hrecorded =>
    obtain ⟨-, hlooked⟩ := getQueue_eq_ok hok.pool hstore
    refine .idle ?_ rfl hlooked.sameMessages (hrecorded.movesNothing rfl ⟨rfl, rfl⟩ ⟨rfl, rfl⟩)
    rcases hfrom with hfrom | hfrom <;> rw [hfrom] <;> rfl
  | consume hfrom _ hstore hrecorded =>
    obtain ⟨-, hlooked⟩ := getQueue_eq_ok hok.pool hstore
    exact .idle (by rw [hfrom]; rfl) rfl hlooked.sameMessages
      (hrecorded.movesNothing rfl ⟨rfl, rfl⟩ ⟨rfl, rfl⟩)
  | enqueue hfrom _ hstore htrace =>
    obtain ⟨p, hp, -, henqueued⟩ := qEnqueue_eq_ok hok.lists hstore
    rw [hp] at htrace
    exact .enqueue (by rw [hfrom]; rfl) rfl henqueued htrace
  | subscribe hfrom _ hstore htrace hframes =>
    obtain ⟨p, queue, rr, -, -, -, hw⟩ := onRing_unit_eq_ok hstore
    have hlists : SameLists s.store w'.store := hw ▸ sameLists_withRing s.store p rr
    refine .idle (by rw [hfrom]; rfl) rfl hlists.sameMessages fun event hevent => ?_
    rw [htrace] at hevent
    rcases List.mem_cons.mp hevent with heq | hmem
    · rw [heq]
      exact ⟨rfl, nofun⟩
    · exact Event.IsQuiet.movesNothing (Or.inr (hframes event hmem))
  | ack hfrom _ hstore htrace =>
    refine .acknowledge hfrom rfl rfl ?_ htrace
    rw [hstore]
    exact .refl s.store
  | reject hfrom _ hstore htrace hreads =>
    obtain ⟨p, queue, rr, -, -, -, hw⟩ := onRing_unit_eq_ok hstore
    have hlists : SameLists s.store w'.store := hw ▸ sameLists_withRing s.store p rr
    exact .giveUp hfrom rfl hlists.sameMessages htrace hreads

/-- What a step inside `q_dequeue_rr` does with messages. -/
theorem transfers_of_dequeue (hok : s.Ok) (hm : c.machine = waitValueDequeue)
    (hcell : s.store.queues.cells p = some queue)
    (heffect : DequeueEffect grain p queue (s.world c) w' c.point m' point') :
    Transfers s c m' point' w' := by
  have hidle : ∀ {before after : DequeuePoint}, c.point = before → before ≠ .nextThread →
      after ≠ .nextThread → SameLists s.store w'.store → w'.trace = [] →
      Transfers s c waitValueDequeue after w' := by
    intro before after hpoint hbefore hafter hlists htrace
    refine .idle ?_ ?_ hlists.sameMessages (by rw [htrace]; exact nofun)
    · simp [hm, holding, hpoint, hbefore]
    · simp [holding, hafter]
  generalize hpoint : c.point = point at heffect
  cases heffect with
  | turn _ hw | noTurn _ _ hw | wakeRound _ hw | message _ hw | noMessage _ hw | wakeMsg _ hw =>
    refine hidle hpoint (by decide) (by decide) ?_ ?_
    · rw [hw]
      exact .refl s.store
    · rw [hw]
      rfl
  | noTurnSleep _ _ _ hw | sleepRound _ hw =>
    refine hidle hpoint (by decide) (by decide) ?_ ?_
    · rw [hw]
      exact sameLists_withRing s.store p _
    · rw [hw]
      rfl
  | sleepMsg hw =>
    refine hidle hpoint (by decide) (by decide) ?_ ?_
    · rw [hw]
      exact (sameButSleepers_withSleeper hcell _).lists
    · rw [hw]
      rfl
  | dequeue hstore hcs _ htrace =>
    obtain ⟨p', hp', -, hdequeued⟩ := qDequeue_eq_ok hok.lists hstore
    obtain rfl := Option.some.inj hp'
    exact .take (by simp [hm, holding, hpoint]) rfl nofun hdequeued hcs htrace
  | nextThread _ hw =>
    refine .carry (by simp [hm, holding, hpoint]) rfl ?_ ?_ ?_
    · rw [hw]
      exact (sameLists_withRing s.store p _).sameMessages
    · rw [hw]
      exact nofun
    · intro _
      rw [hw, hm]
      exact ⟨rfl, nofun⟩

/-- A connection that is woken has no message. -/
theorem Woken.holding (h : Woken p queue t store c.point store') (hm : c.machine = waitValueDequeue) :
    c.machine.holding c.point = false := by
  generalize hpoint : c.point = point at h
  cases h with
  | wakeRound | wakeMsg => simp [hm, MachineState.holding]

/-- The connection in a slot is replaced: nobody who carries a message comes or goes. -/
structure Replaces (s : Broker) (t : ℤ) (next : Option Conn) (s' : Broker) : Prop where
  state : s' = { s with conns := Function.update s.conns t next }
  before : ∀ c, s.conns t = some c → c.machine.holding c.point = false
  after : ∀ c, next = some c → c.machine.holding c.point = false

/-- Every step of the broker does one thing with messages. -/
theorem transfers_of_step (hok : s.Ok) {act : Act} (hstep : Broker.step grain s act = .ok s') :
    (∃ t c m' point' w', s.conns t = some c ∧ s' = s.commit t m' point' w' ∧
      Transfers s c m' point' w') ∨ ∃ t next, Replaces s t next s' := by
  cases step_cases hstep with
  | accept _ _ hfree hs' =>
    refine Or.inr ⟨_, _, hs', fun c hc => ?_, fun c hnext => ?_⟩
    · rw [hfree] at hc
      cases hc
    · obtain rfl := Option.some.inj hnext
      rfl
  | handler hc haction heffect hs' =>
    exact Or.inl ⟨_, _, _, _, _, hc, hs', transfers_of_handler hok haction heffect⟩
  | dequeue hc hm _ hcell heffect hs' =>
    exact Or.inl ⟨_, _, _, _, _, hc, hs', transfers_of_dequeue hok hm hcell heffect⟩
  | close hc hleft hs' =>
    refine Or.inr ⟨_, _, hs', fun c hc' => ?_, of_noConn⟩
    obtain rfl := Option.some.inj (hc.symm.trans hc')
    rcases hleft with hm | hm <;> rw [hm] <;> rfl
  | spurious hc hm _ hcell hwoken hs' =>
    have hlists := (hwoken.sameButSleepers hcell).lists
    have hasleep := hwoken.holding hm
    exact Or.inl ⟨_, _, _, _, _, hc, hs', .idle hasleep hasleep hlists.sameMessages nofun⟩

end AmqpBroker
