import AmqpBroker.Verification.Fidelity
import AmqpBroker.Verification.TurnHolder

/-!
# Only dequeued messages are delivered

The calls of a connection between its `q_dequeue` and its BODY frame: what is sent is the body
of the node that the call before it unlinked, and no node is taken twice. The handlers do not
look at the result of `q_dequeue`, so this rests on the queue not being empty there. A wait
that returns by itself breaks it: the frame then carries what the frame reader left in
`recvline`.
-/

namespace AmqpBroker

open Foundations Program MachineState

/-- The calls of `q_dequeue` and the BODY frames. -/
def Event.delivers : Event → Bool
  | .qDequeue _ _ => true
  | .write bytes => bytes.head? = some MsgFormat.body
  | _ => false

/-- What a thread does with deliveries. -/
def deliveryCalls (events : List Event) : List Event := events.filter Event.delivers

/-- Every `q_dequeue` that unlinks a node is answered by the BODY frame of this node, and one that
finds the queue empty by nothing. -/
inductive Served : List Event → Prop
  | start : Served []
  | empty {calls : List Event} (q : Option ℕ) : Served calls → Served (calls ++ [.qDequeue q none])
  | sent {calls : List Event} (q : Option ℕ) (item : ℕ × List UInt8) : Served calls →
      Served (calls ++ [.qDequeue q (some item), .write (bodyFrame item.2)])

/-- The same, with the last frame perhaps still to come. -/
inductive OnlyDequeued : List Event → Prop
  | served {calls : List Event} : Served calls → OnlyDequeued calls
  | owing {calls : List Event} (q : Option ℕ) (item : ℕ × List UInt8) : Served calls →
      OnlyDequeued (calls ++ [.qDequeue q (some item)])

/-- The nodes that were unlinked, in order. -/
def takenNodes (history : List (ℤ × Event)) : List ℕ :=
  history.filterMap fun entry => (dequeuedItem entry.2).map Prod.fst

/-- A connection with a message in `recvline` that it has not sent. -/
def MachineState.owes (m : MachineState) (point : DequeuePoint) : Bool :=
  match m with
  | waitValueDequeue => point = .nextThread
  | valueDequeueReceived => true
  | _ => false

namespace Broker

/-- The step does not call `q_dequeue` on an empty queue. -/
def DequeuesMessage (s : Broker) : Act → Prop
  | .run t _ => ∀ c ∈ s.conns t, c.machine = waitValueDequeue → c.point = .dequeue →
      ∀ p ∈ c.cs.currentQueue, ∀ queue ∈ s.store.queues.cells p, queue.size ≠ 0
  | _ => True

instance (s : Broker) : DecidablePred (DequeuesMessage s)
  | .run t _ => inferInstanceAs (Decidable (∀ c ∈ s.conns t, c.machine = waitValueDequeue →
      c.point = .dequeue → ∀ p ∈ c.cs.currentQueue, ∀ queue ∈ s.store.queues.cells p,
        queue.size ≠ 0))
  | .accept _ _ _ => isTrue trivial
  | .close _ => isTrue trivial
  | .spurious _ => isTrue trivial

/-- Each connection sends the bodies of the nodes that it has unlinked, one after the other; these
nodes had been enqueued there, and none was unlinked twice. -/
structure DeliversOnlyDequeued (s : Broker) : Prop where
  calls : ∀ t, OnlyDequeued (deliveryCalls (callsOf t s.history))
  enqueued : ∀ t q item, (t, Event.qDequeue q (some item)) ∈ s.history →
    ∃ p, q = some p ∧ WasEnqueued s.history p item
  once : (takenNodes s.history).Nodup

/-- A step whose `q_dequeue` returns a message unlinks the oldest node of the queue that the
connection consumes from. -/
def UnlinksOwn (grain : Grain) (s : Broker) : Prop :=
  ∀ t c writes s' q item, s.conns t = some c → Broker.step grain s (.run t writes) = .ok s' →
    s'.history = s.history ++ [(t, .qDequeue q (some item))] →
    ∃ p, c.cs.currentQueue = some p ∧ q = some p ∧
      s.store.messages p = item :: s'.store.messages p

end Broker

variable {grain : Grain} {w w' : World} {s s' : Broker} {t : ℤ} {c : Conn} {m m' : MachineState}
  {point point' : DequeuePoint} {calls events : List Event} {item : ℕ × List UInt8} {p : ℕ}
  {queue : Queue} {act : Act}

/-- A BODY frame carries what the call of `q_dequeue` right before it returned. -/
theorem Served.body_of_dequeued (h : Served calls) {before after : List Event} {bytes : List UInt8}
    (hcalls : calls = before ++ .write bytes :: after) :
    ∃ earlier q item, before = earlier ++ [.qDequeue q (some item)] ∧ bytes = bodyFrame item.2 := by
  induction h generalizing after with
  | start => simp at hcalls
  | empty q _ ih =>
    cases after using List.reverseRecOn with
    | nil => simpa using congrArg List.getLast? hcalls
    | append_singleton after last _ =>
      rw [← List.cons_append, ← List.append_assoc] at hcalls
      exact ih (List.append_inj_left' hcalls rfl)
  | sent q item _ ih =>
    cases after using List.reverseRecOn with
    | nil =>
      rw [List.append_cons] at hcalls
      obtain ⟨hbefore, hlast⟩ := List.append_inj' hcalls rfl
      exact ⟨_, q, item, hbefore.symm, (Event.write.inj (List.singleton_inj.mp hlast)).symm⟩
    | append_singleton after last _ =>
      rw [← List.cons_append, ← List.append_assoc, List.append_cons] at hcalls
      have hinit := List.append_inj_left' hcalls rfl
      cases after using List.reverseRecOn with
      | nil => simpa using congrArg List.getLast? hinit
      | append_singleton after last _ =>
        rw [← List.cons_append, ← List.append_assoc] at hinit
        exact ih (List.append_inj_left' hinit rfl)

/-- A BODY frame that was sent has the body that was dequeued just before it. -/
theorem OnlyDequeued.body_of_dequeued (h : OnlyDequeued calls) {before after : List Event}
    {bytes : List UInt8} (hcalls : calls = before ++ .write bytes :: after) :
    ∃ earlier q item, before = earlier ++ [.qDequeue q (some item)] ∧ bytes = bodyFrame item.2 := by
  cases h with
  | served h => exact h.body_of_dequeued hcalls
  | owing q item h =>
    cases after using List.reverseRecOn with
    | nil => simpa using congrArg List.getLast? hcalls
    | append_singleton after last _ =>
      rw [← List.cons_append, ← List.append_assoc] at hcalls
      exact h.body_of_dequeued (List.append_inj_left' hcalls rfl)

/-- The calls of a delivery in two stretches. -/
theorem deliveryCalls_append (left right : List Event) :
    deliveryCalls (left ++ right) = deliveryCalls left ++ deliveryCalls right :=
  List.filter_append _ _

/-- Where nothing is dequeued or sent as a body there is no delivery. -/
theorem deliveryCalls_eq_nil (h : ∀ event ∈ events, event.delivers = false) :
    deliveryCalls events = [] := by
  apply List.filter_eq_nil_iff.mpr
  intro event hevent
  rw [h event hevent]
  nofun

/-- Of the three frames of a delivery the last one is its BODY frame. -/
theorem deliveryCalls_frames (body : List UInt8) :
    deliveryCalls ((deliveryFrames body).map Event.write) = [.write (bodyFrame body)] := by
  have hother : MsgFormat.method ≠ MsgFormat.body ∧ MsgFormat.contentHeader ≠ MsgFormat.body := by
    decide
  simp [deliveryCalls, deliveryFrames, Event.delivers, bodyFrame, hother]

/-- The call an event records is one that a handler may make on a list of messages. -/
structure MessageCall (m m' : MachineState) (event : Event) : Prop where
  enqueue : ∀ q node body, event = .qEnqueue q node body →
    m = waitPublishContent ∧ m' = waitPublishContent
  dequeue : ∀ q taken, event ≠ .qDequeue q taken

/-- An event of another kind is no such call. -/
theorem MessageCall.other {event : Event} (henqueue : ∀ q node body, event ≠ .qEnqueue q node body)
    (hdequeue : ∀ q taken, event ≠ .qDequeue q taken) : MessageCall m m' event :=
  ⟨fun q node body h => absurd h (henqueue q node body), hdequeue⟩

/-- A quiet call moves no message. -/
theorem MessageCall.quiet {event : Event} (h : event.IsQuiet) : MessageCall m m' event := by
  rcases h with ⟨method, rfl⟩ | ⟨bytes, rfl⟩ <;> exact .other nofun nofun

/-- No handler calls `q_dequeue`, and one calls `q_enqueue`. -/
theorem Effect.messageCall (h : Effect m w w' m') (htrace : w.trace = []) :
    ∀ event ∈ w'.trace, MessageCall m m' event := by
  have hpair : ∀ {first second : Event}, Recorded w w' [first, second] → MessageCall m m' first →
      MessageCall m m' second → ∀ event ∈ w'.trace, MessageCall m m' event := by
    intro first second hrecorded hfirst hsecond
    apply hrecorded.forall htrace fun event => MessageCall.quiet
    intro event hevent
    rcases List.mem_pair.mp hevent with heq | heq
    · rwa [heq]
    · rwa [heq]
  cases h with
  | quiet _ hgrows =>
    obtain ⟨events, hevents, hquiet⟩ := hgrows.trace
    rw [hevents, htrace]
    exact fun event hevent => .quiet (hquiet event hevent)
  | declare _ _ _ hrecorded => exact hpair hrecorded (.other nofun nofun) (.other nofun nofun)
  | publish _ _ _ hrecorded => exact hpair hrecorded (.other nofun nofun) (.other nofun nofun)
  | consume _ _ _ hrecorded => exact hpair hrecorded (.other nofun nofun) (.other nofun nofun)
  | enqueue hfrom _ _ hevents =>
    rw [hevents, htrace]
    exact List.forall_mem_singleton.mpr ⟨fun _ _ _ _ => ⟨hfrom, rfl⟩, nofun⟩
  | subscribe _ _ _ hevents hframes =>
    rw [hevents, htrace]
    intro event hevent
    rcases List.mem_cons.mp hevent with heq | hframe
    · rw [heq]
      exact .other nofun nofun
    · exact .quiet (Or.inr (hframes event hframe))
  | ack _ _ _ hevents =>
    rw [hevents, htrace]
    exact List.forall_mem_singleton.mpr (.other nofun nofun)
  | reject _ _ _ hevents hreads =>
    rw [hevents, htrace]
    intro event hevent
    rcases List.mem_append.mp hevent with hread | hremove
    · obtain ⟨method, hmethod, -⟩ := hreads event hread
      exact .quiet (Or.inl ⟨method, hmethod⟩)
    · rw [List.mem_singleton.mp hremove]
      exact .other nofun nofun

/-- A call that is neither a `write` nor a `q_dequeue` delivers nothing. -/
theorem delivers_eq_false {event : Event} (hsent : NotSent event)
    (hdequeue : ∀ q taken, event ≠ .qDequeue q taken) : event.delivers = false := by
  cases event with
  | write bytes => cases hsent
  | qDequeue q taken => exact absurd rfl (hdequeue q taken)
  | _ => rfl

/-- Every handler but the one that delivers sends METHOD frames at most. -/
theorem actions_deliver_nothing (hdeliver : m ≠ valueDequeueReceived) (htrace : w.trace = [])
    (heffect : Effect m w w' m') (h : actions m w = .ok (m', w')) :
    ∀ event ∈ w'.trace, event.delivers = false := by
  have hother : MsgFormat.method ≠ MsgFormat.body := by decide
  have hanswer : ∀ {channel : UInt16} {payload : List UInt8},
      Sends [encodeFrame MsgFormat.method channel payload] w w' →
      ∀ event ∈ w'.trace, event.delivers = false := by
    intro channel payload hsends
    rw [hsends.trace, htrace]
    simp [Event.delivers, hother]
  by_cases hsends : m.sends = false
  · obtain ⟨events, hevents, hall⟩ := (built_actions_of_not_sends hsends).records _ _ _ h
    have hcalls := heffect.messageCall htrace
    rw [hevents, htrace, List.nil_append] at hcalls ⊢
    exact fun event hevent => delivers_eq_false (hall event hevent) (hcalls event hevent).dequeue
  · cases m with
    | headerReceived => exact hanswer (answer_eq_ok h).2
    | startOkReceived => exact hanswer (answer_eq_ok h).2
    | openConnectionReceived => exact hanswer (answer_eq_ok h).2
    | closeConnectionReceived => exact hanswer (answer_eq_ok h).2
    | openChannelReceived => exact hanswer (answer_eq_ok h).2
    | closeChannelReceived => exact hanswer (answer_eq_ok h).2
    | queueDeclareReceived =>
      obtain ⟨arguments, hsends⟩ := actionQueueDeclareReceived_sends h
      exact hanswer hsends
    | basicConsumeReceived =>
      rw [(actionBasicConsumeReceived_sends h).2.1, htrace]
      simp [Event.delivers, hother]
    | valueDequeueReceived => exact absurd rfl hdeliver
    | _ => exact absurd rfl hsends

/-- What a step of a connection does with deliveries. -/
inductive DeliveryStep (s : Broker) (c : Conn) (m' : MachineState) (point' : DequeuePoint)
    (w' : World) : Prop
  | other : m'.owes point' = c.machine.owes c.point → (c.machine.owes c.point = true → w'.trace = []) →
      (∀ event ∈ w'.trace, event.delivers = false) → DeliveryStep s c m' point' w'
  | dequeue {p : ℕ} {queue : Queue} {taken : Option (ℕ × List UInt8)} :
      c.machine = waitValueDequeue → c.point = .dequeue → c.cs.currentQueue = some p →
      s.store.queues.cells p = some queue → m'.owes point' = true →
      qDequeue (some p) s.store = .ok (taken, w'.store) →
      w'.trace = [.qDequeue (some p) taken] → DeliveryStep s c m' point' w'
  | deliver {body : List UInt8} : c.machine = valueDequeueReceived → m'.owes point' = false →
      c.cs.recvline.cstring maxLine 0 = some body →
      w'.trace = (deliveryFrames body).map Event.write → DeliveryStep s c m' point' w'

/-- A handler that does not deliver starts and ends where nothing is owed. -/
theorem Effect.owes (h : Effect m w w' m') (hdeliver : m ≠ valueDequeueReceived)
    (point : DequeuePoint) : m.owes point = false ∧ m'.owes .testRound = false := by
  cases h with
  | quiet hedge _ =>
    cases m <;> simp only [quietNext, List.mem_cons, List.not_mem_nil, or_false] at hedge <;>
      rcases hedge with rfl | rfl | rfl <;> first | exact ⟨rfl, rfl⟩ | exact absurd rfl hdeliver
  | publish hfrom _ _ _ => rcases hfrom with rfl | rfl <;> exact ⟨rfl, rfl⟩
  | declare hfrom _ _ _ | consume hfrom _ _ _ | enqueue hfrom _ _ _ | subscribe hfrom _ _ _ _
  | ack hfrom _ _ _ | reject hfrom _ _ _ _ =>
    subst hfrom
    exact ⟨rfl, rfl⟩

/-- What a handler does with deliveries. -/
theorem deliveryStep_of_handler (haction : actions c.machine (s.world c) = .ok (m', w'))
    (heffect : Effect c.machine (s.world c) w' m') : DeliveryStep s c m' .testRound w' := by
  by_cases hdeliver : c.machine = valueDequeueReceived
  · rw [hdeliver] at haction
    obtain ⟨body, hbody, rfl, hsends⟩ := actionValueDequeueReceived_sends haction
    exact .deliver hdeliver rfl hbody hsends.trace
  · obtain ⟨hbefore, hafter⟩ := heffect.owes hdeliver c.point
    apply DeliveryStep.other
    · rw [hafter, hbefore]
    · rw [hbefore]
      nofun
    · exact actions_deliver_nothing hdeliver rfl heffect haction

/-- What a step inside `q_dequeue_rr` does with deliveries. -/
theorem deliveryStep_of_dequeue (hm : c.machine = waitValueDequeue)
    (hp : c.cs.currentQueue = some p) (hcell : s.store.queues.cells p = some queue)
    (heffect : DequeueEffect grain p queue (s.world c) w' c.point m' point') :
    DeliveryStep s c m' point' w' := by
  have hother : m'.owes point' = c.machine.owes c.point → w'.trace = [] →
      DeliveryStep s c m' point' w' := by
    intro howes htrace
    apply DeliveryStep.other howes fun _ => htrace
    rw [htrace]
    nofun
  generalize hpoint : c.point = before at heffect
  cases heffect with
  | turn _ hw | noTurn _ _ hw | wakeRound _ hw | message _ hw | noMessage _ hw | wakeMsg _ hw
  | noTurnSleep _ _ _ hw | sleepRound _ hw | sleepMsg hw | nextThread _ hw =>
    apply hother
    · rw [hm, hpoint]
      rfl
    · rw [hw]
      rfl
  | dequeue hstore _ _ htrace => exact .dequeue hm hpoint hp hcell rfl hstore htrace

/-- A body that is enqueued is a string. -/
theorem actionWaitPublishContent_string
    (h : actionWaitPublishContent w = .ok (waitPublishContent, w')) :
    ∃ (q : Option ℕ) (node : ℕ) (body : List UInt8) (buffer : Buffer),
      w'.trace = w.trace ++ [.qEnqueue q node body] ∧ buffer.cstring maxLine 0 = some body := by
  obtain ⟨messageHeader, w₁, hread, h⟩ := bind_eq_ok.mp h
  have hsilent : Silent w w₁ := keeps_readMessageHeader _ _ _ hread
  cases messageHeader with
  | none => cases h
  | some messageHeader =>
    simp only at h
    split at h
    · obtain ⟨method, w₂, hmethod, h⟩ := bind_eq_ok.mp h
      cases method with
      | none => cases h
      | some method =>
        obtain ⟨next, w₃, hswitch, h⟩ := bind_eq_ok.mp h
        obtain ⟨rfl, -⟩ := finishDispatch_result h
        exact absurd rfl (publishContentSwitch_effect hswitch).2
    · split at h
      · obtain ⟨_, w₂, hbody, h⟩ := bind_eq_ok.mp h
        have hsilent' : Silent w₁ w₂ := keeps_readBody _ _ _ _ hbody
        obtain ⟨_, w₃, henqueue, h⟩ := bind_eq_ok.mp h
        obtain ⟨body, node, hstring, -, hw₃⟩ := enqueueBody_eq_ok henqueue
        cases h
        refine ⟨w₂.cs.currentQueue, node, body, _, ?_, hstring⟩
        rw [hw₃, hsilent'.trace_eq, hsilent.trace_eq]
      · cases h

namespace Broker

/-- Whatever is enqueued is a string that fits the buffers. -/
def EnqueuesStrings (s : Broker) : Prop :=
  ∀ p item, WasEnqueued s.history p item →
    item.2.takeWhile (· ≠ 0) = item.2 ∧ item.2.length < maxLine

/-- A step that enqueues nothing. -/
theorem EnqueuesStrings.commit (h : s.EnqueuesStrings)
    (hevents : ∀ p (item : ℕ × List UInt8), .qEnqueue (some p) item.1 item.2 ∈ w.trace →
      item.2.takeWhile (· ≠ 0) = item.2 ∧ item.2.length < maxLine) :
    (s.commit t m point w).EnqueuesStrings := by
  intro p item hitem
  rcases wasEnqueued_append.mp hitem with hbefore | hnow
  · exact h p item hbefore
  · exact hevents p item hnow

/-- Every step enqueues strings. -/
theorem EnqueuesStrings.step (h : s.EnqueuesStrings) (hstep : Broker.step grain s act = .ok s') :
    s'.EnqueuesStrings := by
  cases step_cases hstep with
  | accept _ _ _ hs' | close _ _ hs' =>
    rw [hs']
    exact h
  | @handler t c m' w' _ _ haction heffect hs' =>
    rw [hs']
    apply h.commit
    intro p item hitem
    obtain ⟨hm, hm'⟩ := (heffect.messageCall rfl _ hitem).enqueue _ _ _ rfl
    rw [hm, hm'] at haction
    obtain ⟨q, node, body, buffer, htrace, hstring⟩ := actionWaitPublishContent_string haction
    rw [htrace] at hitem
    obtain ⟨-, -, rfl⟩ := Event.qEnqueue.inj (List.mem_singleton.mp hitem)
    constructor
    · apply (takeWhile_ne_zero_eq_self _).mpr
      exact fun hzero => buffer.cstring_nonzero _ _ _ hstring 0 hzero rfl
    · exact buffer.cstring_length_lt _ _ _ hstring
  | dequeue _ _ _ _ heffect hs' =>
    rw [hs']
    apply h.commit
    intro p item hitem
    rcases (Thread.dequeueEffect_calls heffect).2 with ⟨-, -, -, taken, htrace⟩ | ⟨-, -, htrace⟩ |
      ⟨-, -, -, -, htrace⟩
    · rw [htrace] at hitem
      cases List.mem_singleton.mp hitem
    · rw [htrace] at hitem
      cases hitem
    · rw [htrace] at hitem
      cases hitem
  | spurious _ _ _ _ _ hs' =>
    rw [hs']
    exact h.commit nofun

/-- What was unlinked had been enqueued there, has left its queue, and was unlinked once. -/
structure TakesOnce (s : Broker) : Prop where
  enqueued : ∀ t q item, (t, Event.qDequeue q (some item)) ∈ s.history →
    ∃ p, q = some p ∧ WasEnqueued s.history p item
  gone : ∀ t q item, (t, Event.qDequeue q (some item)) ∈ s.history →
    ∀ p, item ∉ s.store.messages p
  once : (takenNodes s.history).Nodup

/-- A node that was taken was taken by some call. -/
theorem exists_of_mem_takenNodes {history : List (ℤ × Event)} {node : ℕ}
    (h : node ∈ takenNodes history) :
    ∃ t q item, (t, Event.qDequeue q (some item)) ∈ history ∧ item.1 = node := by
  obtain ⟨⟨t, event⟩, hmem, hnode⟩ := List.mem_filterMap.mp h
  obtain ⟨item, hitem, rfl⟩ := Option.map_eq_some_iff.mp hnode
  cases event with
  | qDequeue q taken =>
    obtain rfl : taken = some item := hitem
    exact ⟨t, q, item, hmem, rfl⟩
  | _ => cases hitem

/-- The nodes taken by a step come behind those taken before. -/
theorem takenNodes_commit : takenNodes (s.commit t m point w).history =
    takenNodes s.history ++ w.trace.filterMap fun event => (dequeuedItem event).map Prod.fst := by
  change takenNodes (s.history ++ _) = _
  rw [takenNodes, List.filterMap_append, List.filterMap_map]
  rfl

/-- A call after a step is an earlier one or one of the step. -/
theorem mem_commit_history {u : ℤ} {event : Event}
    (h : (u, event) ∈ (s.commit t m point w).history) : (u, event) ∈ s.history ∨ event ∈ w.trace := by
  rcases List.mem_append.mp h with hold | hnew
  · exact Or.inl hold
  · obtain ⟨event', hmem, heq⟩ := List.mem_map.mp hnew
    cases heq
    exact Or.inr hmem

/-- A step that unlinks nothing. -/
theorem TakesOnce.commit (h : s.TakesOnce) (haccounted : s.Accounted)
    (hevents : ∀ event ∈ w.trace, dequeuedItem event = none)
    (hmessages : ∀ p, ∀ item ∈ w.store.messages p,
      item ∈ s.store.messages p ∨ item.1 = s.store.nodes.next) :
    (s.commit t m point w).TakesOnce := by
  have hbefore : ∀ {u q item}, (u, Event.qDequeue q (some item)) ∈ (s.commit t m point w).history →
      (u, Event.qDequeue q (some item)) ∈ s.history := by
    intro u q item hmem
    apply (mem_commit_history hmem).resolve_right
    intro hnow
    cases hevents _ hnow
  refine ⟨fun u q item hmem => ?_, fun u q item hmem p hqueue => ?_, ?_⟩
  · obtain ⟨p, hq, hwas⟩ := h.enqueued u q item (hbefore hmem)
    exact ⟨p, hq, wasEnqueued_append.mpr (Or.inl hwas)⟩
  · rcases hmessages p item hqueue with hold | hfresh
    · exact h.gone u q item (hbefore hmem) p hold
    · obtain ⟨p', -, hwas⟩ := h.enqueued u q item (hbefore hmem)
      have hlt := haccounted.fresh p' item hwas
      rw [hfresh] at hlt
      exact lt_irrefl _ hlt
  · rw [takenNodes_commit, List.filterMap_eq_nil_iff.mpr, List.append_nil]
    · exact h.once
    · intro event hevent
      rw [hevents event hevent]
      rfl

/-- A step that unlinks the first message of a queue. -/
theorem TakesOnce.commit_take (h : s.TakesOnce) (haccounted : s.Accounted)
    (hnext : (s.commit t m point w).Accounted) (hdequeued : Dequeued s.store w.store p (some item))
    (htrace : w.trace = [.qDequeue (some p) (some item)]) :
    (s.commit t m point w).TakesOnce := by
  have hfirst : item ∈ s.store.messages p := by
    rw [hdequeued.messages]
    exact List.mem_cons_self
  have hshrinks : ∀ p' x, x ∈ w.store.messages p' → x ∈ s.store.messages p' := by
    intro p' x hx
    by_cases hp : p' = p
    · rw [hp, hdequeued.messages]
      rw [hp] at hx
      exact List.mem_cons_of_mem item hx
    · rwa [hdequeued.others p' hp] at hx
  have hwas := haccounted.home p item hfirst
  have hnow : (accountsOf (s.commit t m point w).history).held t = some item := by
    change (accountsOf (s.history ++ _)).held t = _
    rw [accountsOf_append, htrace]
    exact Function.update_self _ _ _
  have hnew : ∀ {u q x}, (u, Event.qDequeue q (some x)) ∈ (s.commit t m point w).history →
      (u, Event.qDequeue q (some x)) ∈ s.history ∨ (q = some p ∧ x = item) := by
    intro u q x hmem
    rcases mem_commit_history hmem with hold | hevent
    · exact Or.inl hold
    · rw [htrace] at hevent
      obtain ⟨hq, hx⟩ := Event.qDequeue.inj (List.mem_singleton.mp hevent)
      exact Or.inr ⟨hq, Option.some.inj hx⟩
  refine ⟨fun u q x hmem => ?_, fun u q x hmem p' hqueue => ?_, ?_⟩
  · rcases hnew hmem with hold | ⟨hq, rfl⟩
    · obtain ⟨p', hq, hbefore⟩ := h.enqueued u q x hold
      exact ⟨p', hq, wasEnqueued_append.mpr (Or.inl hbefore)⟩
    · exact ⟨p, hq, wasEnqueued_append.mpr (Or.inl hwas)⟩
  · rcases hnew hmem with hold | ⟨-, rfl⟩
    · exact h.gone u q x hold p' (hshrinks p' x hqueue)
    · have hthere : (s.commit t m point w).LiesAt x (.queue p') := hqueue
      have haway : (s.commit t m point w).LiesAt x (.away (.held t)) := hnow
      have hone := hnext.placed.unique x (hnext.placed.isKnown x _ hthere)
      cases hone.unique hthere haway
  · rw [takenNodes_commit, htrace]
    apply List.nodup_append.mpr
    refine ⟨h.once, List.nodup_singleton _, fun node hnode node' hnode' heq => ?_⟩
    obtain ⟨u, q, x, hx, hsame⟩ := exists_of_mem_takenNodes hnode
    obtain ⟨p', -, hbefore⟩ := h.enqueued u q x hx
    have hitem : x.1 = item.1 := by rw [hsame, heq, List.mem_singleton.mp hnode']
    obtain ⟨-, rfl⟩ := haccounted.sole p' p x item hbefore hwas hitem
    exact h.gone u q x hx p hfirst

/-- Calls without a transfer unlink nothing. -/
theorem dequeuedItem_eq_none {event : Event} (h : ∀ item, transferOf event ≠ some (.take item)) :
    dequeuedItem event = none := by
  cases event with
  | qDequeue q taken => exact absurd rfl (h taken)
  | _ => rfl

/-- Every step of a connection unlinks a node once. -/
theorem TakesOnce.transfers (h : s.TakesOnce) (haccounted : s.Accounted)
    (hnext : (s.commit t m point w).Accounted) (htransfers : Transfers s c m point w) :
    (s.commit t m point w).TakesOnce := by
  have hkeeps : SameMessages s.store w.store → ∀ p, ∀ item ∈ w.store.messages p,
      item ∈ s.store.messages p ∨ item.1 = s.store.nodes.next := by
    intro hsame p item hitem
    rw [hsame.messages] at hitem
    exact Or.inl hitem
  cases htransfers with
  | idle _ _ hsame hevents =>
    exact h.commit haccounted (fun event hevent => dequeuedItem_eq_none (hevents event hevent).2)
      (hkeeps hsame)
  | @enqueue p node body _ _ henqueued htrace =>
    apply h.commit haccounted
    · rw [htrace]
      exact List.forall_mem_singleton.mpr rfl
    · intro p' item hitem
      by_cases hp : p' = p
      · rw [hp, henqueued.messages] at hitem
        rcases List.mem_append.mp hitem with hold | hnew
        · rw [hp]
          exact Or.inl hold
        · rw [List.mem_singleton.mp hnew]
          exact Or.inr henqueued.fresh
      · rw [henqueued.others p' hp] at hitem
        exact Or.inl hitem
  | @take p taken _ _ _ hdequeued _ htrace =>
    cases taken with
    | none =>
      apply h.commit haccounted
      · rw [htrace]
        exact List.forall_mem_singleton.mpr rfl
      · intro p' item hitem
        by_cases hp : p' = p
        · rw [hp, hdequeued.messages]
          rw [hp] at hitem
          exact Or.inl hitem
        · rw [hdequeued.others p' hp] at hitem
          exact Or.inl hitem
    | some item => exact h.commit_take haccounted hnext hdequeued htrace
  | carry _ _ hsame hwrites _ =>
    apply h.commit haccounted _ (hkeeps hsame)
    intro event hevent
    obtain ⟨bytes, rfl⟩ := hwrites event hevent
    rfl
  | acknowledge _ _ _ hsame htrace =>
    apply h.commit haccounted _ (hkeeps hsame)
    rw [htrace]
    exact List.forall_mem_singleton.mpr rfl
  | giveUp _ _ hsame htrace hreads =>
    apply h.commit haccounted _ (hkeeps hsame)
    rw [htrace]
    intro event hevent
    rcases List.mem_append.mp hevent with hread | hremove
    · obtain ⟨method, rfl, -⟩ := hreads event hread
      rfl
    · rw [List.mem_singleton.mp hremove]
      rfl

/-- Every step takes only nodes that nobody took before. -/
theorem TakesOnce.step (h : s.TakesOnce) (hok : s.Ok) (haccounted : s.Accounted)
    (hstep : Broker.step grain s act = .ok s') : s'.TakesOnce := by
  have hnext := haccounted.step hok hstep
  rcases transfers_of_step hok hstep with
    ⟨t, c, m', point', w', -, hs', htransfers⟩ | ⟨t, next, hreplaces⟩
  · rw [hs'] at hnext ⊢
    exact h.transfers haccounted hnext htransfers
  · rw [hreplaces.state]
    exact ⟨h.enqueued, h.gone, h.once⟩

/-- The deliveries of every thread fit its state: a connection that owes a frame holds the message
that its last `q_dequeue` unlinked. -/
structure Delivering (s : Broker) : Prop where
  idle : ∀ t, (∀ c, s.conns t = some c → c.machine.owes c.point = false) →
    Served (deliveryCalls (callsOf t s.history))
  owing : ∀ t c, s.conns t = some c → c.machine.owes c.point = true → ∃ calls q item,
    deliveryCalls (callsOf t s.history) = calls ++ [.qDequeue q (some item)] ∧ Served calls ∧
      (accountsOf s.history).held t = some item

/-- Every thread delivers what it has dequeued. -/
theorem Delivering.onlyDequeued (h : s.Delivering) (t : ℤ) :
    OnlyDequeued (deliveryCalls (callsOf t s.history)) := by
  by_cases howes : ∃ c, s.conns t = some c ∧ c.machine.owes c.point = true
  · obtain ⟨c, hc, howes⟩ := howes
    obtain ⟨calls, q, item, hcalls, hserved, -⟩ := h.owing t c hc howes
    rw [hcalls]
    exact .owing q item hserved
  · apply OnlyDequeued.served
    apply h.idle t
    intro c hc
    cases hm : c.machine.owes c.point with
    | false => rfl
    | true => exact absurd ⟨c, hc, hm⟩ howes

/-- A connection that owes nothing has served all that it unlinked. -/
theorem Delivering.served (h : s.Delivering) (hc : s.conns t = some c)
    (howes : c.machine.owes c.point = false) : Served (deliveryCalls (callsOf t s.history)) := by
  apply h.idle t
  intro c' hc'
  obtain rfl := Option.some.inj (hc.symm.trans hc')
  exact howes

/-- The calls of a step come behind those of its thread. -/
theorem deliveryCalls_commit_self :
    deliveryCalls (callsOf t (s.commit t m point w).history) =
      deliveryCalls (callsOf t s.history) ++ deliveryCalls w.trace := by
  change deliveryCalls (callsOf t (s.history ++ _)) = _
  rw [callsOf_append_self, deliveryCalls_append]

/-- The other threads deliver what they delivered. -/
theorem Delivering.commit (h : s.Delivering)
    (hidle : m.owes point = false →
      Served (deliveryCalls (callsOf t (s.commit t m point w).history)))
    (howing : m.owes point = true → ∃ calls q item,
      deliveryCalls (callsOf t (s.commit t m point w).history) =
        calls ++ [.qDequeue q (some item)] ∧ Served calls ∧
      (accountsOf (s.commit t m point w).history).held t = some item) :
    (s.commit t m point w).Delivering := by
  have hcalls : ∀ {u}, u ≠ t →
      callsOf u (s.commit t m point w).history = callsOf u s.history :=
    fun hu => callsOf_append_of_ne (Ne.symm hu) _ _
  constructor
  · intro u hu
    by_cases hut : u = t
    · rw [hut] at hu ⊢
      exact hidle (hu _ (s.commit_conns_self t m point w))
    · rw [hcalls hut]
      rw [s.commit_conns_of_ne hut] at hu
      exact h.idle u hu
  · intro u d hd howes
    by_cases hut : u = t
    · rw [hut] at hd ⊢
      rw [commit_conns_self] at hd
      obtain rfl := Option.some.inj hd
      exact howing howes
    · rw [hcalls hut, held_commit_of_ne hut]
      rw [s.commit_conns_of_ne hut] at hd
      exact h.owing u d hd howes

/-- A connection that owes nothing comes or goes. -/
theorem Delivering.replace (h : s.Delivering) {next : Option Conn}
    (hbefore : ∀ c, s.conns t = some c → c.machine.owes c.point = false)
    (hafter : ∀ c, next = some c → c.machine.owes c.point = false) :
    ({ s with conns := Function.update s.conns t next } : Broker).Delivering := by
  constructor
  · intro u hu
    by_cases hut : u = t
    · rw [hut]
      exact h.idle t hbefore
    · apply h.idle u
      intro c hc
      exact hu c ((Function.update_of_ne hut _ _).trans hc)
  · intro u d hd howes
    rcases replaced_cases hd with ⟨-, hnext⟩ | ⟨-, hd⟩
    · rw [hafter d hnext] at howes
      cases howes
    · exact h.owing u d hd howes

/-- Every step of a connection that unlinks a message where it calls `q_dequeue`. -/
theorem Delivering.deliveryStep (h : s.Delivering) (haccounted : s.Accounted) (hcarried : s.Carried)
    (hstrings : s.EnqueuesStrings) (hc : s.conns t = some c) (hstep : DeliveryStep s c m point w)
    (hmessage : ∀ q, w.trace ≠ [.qDequeue q none]) : (s.commit t m point w).Delivering := by
  cases hstep with
  | other hsame hnothing hevents =>
    have hcalls : deliveryCalls (callsOf t (s.commit t m point w).history) =
        deliveryCalls (callsOf t s.history) := by
      rw [deliveryCalls_commit_self, deliveryCalls_eq_nil hevents, List.append_nil]
    apply h.commit
    · intro howes
      rw [hcalls]
      exact h.served hc (hsame.symm.trans howes)
    · intro howes
      have hbefore := hsame.symm.trans howes
      have hhistory : (s.commit t m point w).history = s.history := by
        rw [Broker.commit, hnothing hbefore]
        exact List.append_nil _
      rw [hhistory]
      exact h.owing t c hc hbefore
  | @dequeue p queue taken hm hpoint _ _ howes _ htrace =>
    cases taken with
    | none => exact absurd htrace (hmessage _)
    | some item =>
      apply h.commit
      · intro hnone
        rw [howes] at hnone
        cases hnone
      · intro _
        refine ⟨deliveryCalls (callsOf t s.history), some p, item, ?_, ?_, ?_⟩
        · rw [deliveryCalls_commit_self, htrace]
          rfl
        · apply h.served hc
          rw [hm, hpoint]
          rfl
        · change (accountsOf (s.history ++ _)).held t = _
          rw [accountsOf_append, htrace]
          exact Function.update_self _ _ _
  | @deliver body hm howes hbody htrace =>
    have hbefore : c.machine.owes c.point = true := by
      rw [hm]
      rfl
    obtain ⟨calls, q, item, hcalls, hserved, hheld⟩ := h.owing t c hc hbefore
    obtain ⟨p, hwas⟩ := haccounted.placed.isKnown item (.away (.held t)) hheld
    obtain ⟨hstring, hroom⟩ := hstrings p item hwas
    have hline := hcarried t c item hc (by rw [hm]; decide) hheld hroom
    rw [hstring, hbody] at hline
    obtain rfl := Option.some.inj hline
    apply h.commit
    · intro _
      rw [deliveryCalls_commit_self, htrace, deliveryCalls_frames, hcalls, List.append_assoc]
      exact .sent q item hserved
    · intro hsome
      rw [howes] at hsome
      cases hsome

/-- Under the guard a step of `q_dequeue` comes back with a message. -/
theorem DequeuesMessage.not_empty {writes : List WriteResult}
    (hguard : s.DequeuesMessage (.run t writes)) (hok : s.Ok) (hc : s.conns t = some c)
    (hstep : DeliveryStep s c m point w) (q : Option ℕ) :
    w.trace ≠ [.qDequeue q none] := by
  intro hempty
  cases hstep with
  | other _ _ hevents =>
    rw [hempty] at hevents
    cases hevents _ (List.mem_singleton_self _)
  | @dequeue p queue taken hm hpoint hp hcell _ hstore htrace =>
    rw [hempty] at htrace
    obtain ⟨-, rfl⟩ := Event.qDequeue.inj (List.singleton_inj.mp htrace)
    rcases qDequeue_store hok.lists hcell hstore with ⟨-, hsize, -⟩ | ⟨_, _, hsome, -⟩
    · exact hguard c hc hm hpoint p hp queue hcell hsize
    · cases hsome
  | deliver _ _ _ htrace =>
    rw [hempty] at htrace
    cases List.head_eq_of_cons_eq htrace

/-- Every step under the guard. -/
theorem Delivering.step (h : s.Delivering) (hok : s.Ok) (haccounted : s.Accounted)
    (hcarried : s.Carried) (hstrings : s.EnqueuesStrings) (hguard : s.DequeuesMessage act)
    (hstep : Broker.step grain s act = .ok s') : s'.Delivering := by
  have hthread : ∀ {t writes c m point w}, act = .run t writes → s.conns t = some c →
      DeliveryStep s c m point w → (s.commit t m point w).Delivering := by
    intro t writes c m point w hact hc hdelivery
    rw [hact] at hguard
    exact h.deliveryStep haccounted hcarried hstrings hc hdelivery (hguard.not_empty hok hc hdelivery)
  cases step_cases hstep with
  | accept _ _ hfree hs' =>
    rw [hs']
    apply h.replace
    · intro c hc
      rw [hfree] at hc
      cases hc
    · intro c hnext
      obtain rfl := Option.some.inj hnext
      rfl
  | handler hc haction heffect hs' =>
    rw [hs']
    exact hthread rfl hc (deliveryStep_of_handler haction heffect)
  | dequeue hc hm hp hcell heffect hs' =>
    rw [hs']
    exact hthread rfl hc (deliveryStep_of_dequeue hm hp hcell heffect)
  | close hc hleft hs' =>
    rw [hs']
    apply h.replace
    · intro c' hc'
      obtain rfl := Option.some.inj (hc.symm.trans hc')
      rcases hleft with hm | hm <;> rw [hm] <;> rfl
    · exact of_noConn
  | spurious hc _ _ _ _ hs' =>
    rw [hs']
    apply h.deliveryStep haccounted hcarried hstrings hc
    · exact .other rfl (fun _ => rfl) nofun
    · nofun

/-- What holds in every state of a run whose calls of `q_dequeue` all find a message. -/
structure InOrder (s : Broker) : Prop where
  ok : s.Ok
  accounted : s.Accounted
  carried : s.Carried
  strings : s.EnqueuesStrings
  takesOnce : s.TakesOnce
  delivering : s.Delivering

/-- Nothing has been delivered yet. -/
theorem inOrder_initial : initial.InOrder where
  ok := ok_initial
  accounted := accounted_initial
  carried := carried_initial
  strings := by
    rintro p item ⟨t, hmem⟩
    cases hmem
  takesOnce := ⟨nofun, nofun, List.nodup_nil⟩
  delivering := by
    constructor
    · intro t _
      exact Served.start
    · intro t c hc
      cases hc

/-- The order holds in every state that is reached. -/
theorem inOrder_of_reaches (h : Reaches (Broker.step grain) DequeuesMessage initial s) : s.InOrder := by
  apply h.invariant inOrder_initial
  intro s act s' hs hguard hstep
  exact
    { ok := hs.ok.step hstep
      accounted := hs.accounted.step hs.ok hstep
      carried := hs.carried.step hs.ok hs.accounted hstep
      strings := hs.strings.step hstep
      takesOnce := hs.takesOnce.step hs.ok hs.accounted hstep
      delivering := hs.delivering.step hs.ok hs.accounted hs.carried hs.strings hguard hstep }

/-- The step that returns a message unlinks it from the connection's own queue. -/
theorem Ok.unlinksOwn (hok : s.Ok) (grain : Grain) : s.UnlinksOwn grain := by
  intro t c writes s' q item hc hstep hhistory
  have htrace : ∀ {m point w}, s' = s.commit t m point w →
      .qDequeue q (some item) ∈ w.trace := by
    intro m point w hs'
    have hmem : (t, Event.qDequeue q (some item)) ∈
        w.trace.map (fun event => (t, event)) := by
      rw [hs', Broker.commit] at hhistory
      rw [List.append_cancel_left hhistory]
      exact List.mem_singleton_self _
    obtain ⟨event, hevent, heq⟩ := List.mem_map.mp hmem
    rwa [← (Prod.mk.inj heq).2]
  cases step_cases hstep with
  | @handler _ c' _ w' _ hc' _ heffect hs' =>
    exact absurd rfl ((heffect.messageCall rfl _ (htrace hs')).dequeue q _)
  | @dequeue _ c' p _ _ _ w' _ hc' hm hp hcell heffect hs' =>
    obtain rfl := Option.some.inj (hc.symm.trans hc')
    have hevent := htrace hs'
    cases deliveryStep_of_dequeue hm hp hcell heffect with
    | other _ _ hevents => cases hevents _ hevent
    | dequeue _ _ hp' _ _ hstore hcall =>
      rw [hcall] at hevent
      obtain ⟨hq, rfl⟩ := Event.qDequeue.inj (List.mem_singleton.mp hevent)
      obtain ⟨p'', hp'', -, hdequeued⟩ := qDequeue_eq_ok hok.lists hstore
      obtain rfl := Option.some.inj hp''
      rw [hs']
      exact ⟨_, hp', hq, hdequeued.messages⟩
    | deliver hother _ _ _ =>
      rw [hm] at hother
      cases hother

/-- In every run, whatever wakeups there are, in which no thread calls `q_dequeue` on an empty
queue, every BODY frame carries the body of the node that the `q_dequeue` of its connection right
before it unlinked, and every node is unlinked, and sent, once. -/
theorem only_dequeued_delivered (h : Reaches (Broker.step grain) DequeuesMessage initial s) :
    s.DeliversOnlyDequeued ∧ s.UnlinksOwn grain := by
  have hall := inOrder_of_reaches h
  exact ⟨⟨hall.delivering.onlyDequeued, hall.takesOnce.enqueued, hall.takesOnce.once⟩,
    hall.ok.unlinksOwn grain⟩

/-- A consumer sleeps on an empty queue and its wait returns by itself; then a message comes. -/
def wokenEarly : List Act :=
  session 0 (openingFrames ++ declareFrame [113] ++ consumeFrame [113]) 16 ++
    .spurious 0 :: session 1 (openingFrames ++ publishFrame [] [113] ++ headerFrame 1 ++
      bodyFrame [33]) 13 ++ List.replicate 4 (.run 0)

/-- A consumer sleeps on an empty queue and its wait returns by itself; no message comes. -/
def wokenAlone : List Act :=
  session 0 (openingFrames ++ declareFrame [113] ++ consumeFrame [113]) 16 ++
    .spurious 0 :: List.replicate 4 (.run 0)

/-- A spurious wakeup does no harm when the message is there in time. -/
theorem only_dequeued_delivered_wokenEarly :
    ∃ s, guardedExec (Broker.step .fine) DequeuesMessage initial wokenEarly = some s ∧
      deliveryCalls (callsOf 0 s.history) =
        [.qDequeue (some 0) (some (0, [33])), .write (bodyFrame [33])] ∧
      s.DeliversOnlyDequeued ∧ s.UnlinksOwn .fine := by
  have hobserved : (guardedExec (Broker.step .fine) DequeuesMessage initial wokenEarly).map
      (fun s => deliveryCalls (callsOf 0 s.history)) =
        some [.qDequeue (some 0) (some (0, [33])), .write (bodyFrame [33])] := by decide +kernel
  obtain ⟨s, hrun, hcalls⟩ := Option.map_eq_some_iff.mp hobserved
  exact ⟨s, hrun, hcalls, only_dequeued_delivered (reaches_of_guardedExec hrun)⟩

/-- Runs without spurious wakeups meet the condition. -/
theorem dequeuesMessage_of_noSpurious
    (h : Reaches (Broker.step grain) (fun _ act => act.isSpurious = false) initial s) :
    Reaches (Broker.step grain) DequeuesMessage initial s := by
  induction h with
  | refl => exact .refl
  | @tail s s' act hrun _ hstep ih =>
    apply Reaches.tail ih _ hstep
    cases act with
    | run t writes =>
      intro c hc hm hpoint p hp queue hcell
      apply (round_sound hrun hcell).2.seen t
      change s.pointAt p t = _
      rw [pointAt_of_conn hc, if_pos ⟨hm, hp⟩, hpoint]
    | accept | close | spurious => trivial

/-- A BODY frame after a `q_dequeue` that found the queue empty carries no message. -/
theorem not_deliversOnlyDequeued {q : Option ℕ} {bytes : List UInt8} {after : List Event}
    (hcalls : deliveryCalls (callsOf t s.history) =
      calls ++ [.qDequeue q none] ++ .write bytes :: after) : ¬ s.DeliversOnlyDequeued := by
  intro h
  obtain ⟨earlier, q', item, hbefore, -⟩ := (h.calls t).body_of_dequeued hcalls
  have hlast := (List.append_inj' hbefore rfl).2
  cases List.singleton_inj.mp hlast

/-- A connection whose `q_dequeue` found the queue empty sends a BODY frame all the same. -/
theorem sends_stale {q : Option ℕ} (hc : s.conns t = some c) (hm : c.machine = valueDequeueReceived)
    (hcalls : deliveryCalls (callsOf t s.history) = calls ++ [.qDequeue q none])
    (hstep : Broker.step grain s (.run t) = .ok s') : ¬ s'.DeliversOnlyDequeued := by
  cases step_cases hstep with
  | @handler _ c' _ w' _ hc' haction _ hs' =>
    obtain rfl := Option.some.inj (hc.symm.trans hc')
    rw [hm] at haction
    obtain ⟨body, -, -, hsends⟩ := actionValueDequeueReceived_sends haction
    have htrace : w'.trace = (deliveryFrames body).map Event.write := hsends.trace
    have hafter : deliveryCalls (callsOf t s'.history) =
        calls ++ [.qDequeue q none] ++ [.write (bodyFrame body)] := by
      rw [hs', deliveryCalls_commit_self, hcalls, htrace, deliveryCalls_frames]
    exact not_deliversOnlyDequeued hafter
  | dequeue hc' hm' =>
    obtain rfl := Option.some.inj (hc.symm.trans hc')
    rw [hm] at hm'
    cases hm'

/-- A wait that returns by itself makes a consumer deliver two bytes of its own Basic.Consume
frame. -/
theorem wokenAlone_stale :
    ¬ ∀ s, Reaches (Broker.step .fine) (fun _ _ => True) initial s → s.DeliversOnlyDequeued := by
  intro hall
  have hobserved : (exec (Broker.step .fine) initial wokenAlone).toOption.map
      (fun s => deliveryCalls (callsOf 0 s.history)) =
        some [.qDequeue (some 0) none, .write (bodyFrame [206, 60])] := by decide +kernel
  obtain ⟨s, hrun, hcalls⟩ := exec_observed hobserved
  have hshape : deliveryCalls (callsOf 0 s.history) =
      [] ++ [.qDequeue (some 0) none] ++ [.write (bodyFrame [206, 60])] := hcalls
  exact not_deliversOnlyDequeued hshape (hall s (reaches_of_exec hrun))

end Broker

end AmqpBroker
