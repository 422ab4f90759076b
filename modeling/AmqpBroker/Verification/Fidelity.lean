import AmqpBroker.Verification.Deliveries
import AmqpBroker.Verification.Fates
import AmqpBroker.Verification.Publishing

/-!
# What becomes of a payload

A payload is copied as a string four times on its way from the BODY frame of its publisher to
the BODY frame of its consumer. Every copy keeps the bytes before the first zero byte, so
the payload that arrives is the payload that was sent exactly when it has none.
-/

namespace AmqpBroker

open Foundations Program MachineState

/-- The frame-max that Connection.Tune announces. -/
def frameMax : ℕ := ofBE ((connectionTuneArgs.drop 2).take 4)

/-- The BODY frames among the calls of a thread. -/
def bodyFramesSent (events : List Event) : List (List UInt8) :=
  (framesSent events).filter fun frame => frame.head? = some MsgFormat.body

/-- The connection sends a BODY frame with this payload in its next step, and no other. -/
def SendsBody (grain : Grain) (s : Broker) (u : ℤ) (payload : List UInt8) : Prop :=
  ∃ s' events, Broker.step grain s (.run u) = .ok s' ∧
    s'.history = s.history ++ events.map (fun event => (u, event)) ∧
    bodyFramesSent events = [bodyFrame payload]

/-- A connection that has not delivered its message yet has it as a string in `recvline`. -/
def Broker.Carried (s : Broker) : Prop :=
  ∀ u d item, s.conns u = some d → d.machine ≠ waitConsumeAck →
    (accountsOf s.history).held u = some item → item.2.length < maxLine →
    d.cs.recvline.cstring maxLine 0 = some (item.2.takeWhile (· ≠ 0))

variable {grain : Grain} {w w' : World} {s s' s₁ s₂ : Broker} {t u : ℤ} {c d : Conn}
  {body payload rest : List UInt8} {m m' : MachineState} {point : DequeuePoint}
  {item : ℕ × List UInt8} {p q : ℕ}

/-- The frame-max is 128 KiB. -/
theorem frameMax_eq : frameMax = 131072 := by decide

/-- A BODY frame is eight bytes longer than its payload. -/
theorem bodyFrame_length (payload : List UInt8) :
    (bodyFrame payload).length = payload.length + 8 :=
  encodeFrame_length MsgFormat.body 1 payload

/-- A BODY frame determines its payload. -/
theorem bodyFrame_injective : Function.Injective bodyFrame := by
  intro left right h
  have hlength := congrArg List.length h
  rw [bodyFrame_length, bodyFrame_length] at hlength
  simp only [bodyFrame, encodeFrame, List.append_assoc] at h
  obtain ⟨-, hpayload⟩ := List.append_inj h (by simp)
  exact (List.append_inj hpayload (by omega)).1

/-- The string that `q_dequeue` copies to the start of a buffer. -/
theorem cstring_write_string (buffer : Buffer) (hroom : body.length < maxLine) :
    (buffer.write 0 (body ++ [0])).cstring maxLine 0 = some (body.takeWhile (· ≠ 0)) := by
  have hend : buffer.write 0 (body ++ [0]) (0 + body.length) = 0 := by
    rw [Buffer.write_apply_of_lt _ _ _ _ (by simp)]
    simp
  have hslice : (buffer.write 0 (body ++ [0])).slice 0 body.length = body := by
    rw [Buffer.slice_write_zero _ _ _ (by simp), List.take_left]
  rw [Buffer.cstring_eq_takeWhile _ _ _ _ hend hroom, hslice]

/-- A connection sends one BODY frame at most. -/
theorem SendsBody.unique {left right : List UInt8} (hleft : SendsBody grain s u left)
    (hright : SendsBody grain s u right) : left = right := by
  obtain ⟨s', events, hstep, hhistory, hbodies⟩ := hleft
  obtain ⟨s'', events', hstep', hhistory', hbodies'⟩ := hright
  obtain rfl := Except.ok.inj (hstep.symm.trans hstep')
  have hevents : events = events' := by
    apply List.map_injective_iff.mpr (Prod.mk_right_injective u)
    exact List.append_cancel_left (hhistory.symm.trans hhistory')
  rw [hevents, hbodies'] at hbodies
  exact bodyFrame_injective (List.singleton_inj.mp hbodies).symm

/-- A string in `recvline` is sent in one BODY frame. -/
theorem sendsBody_of_string (grain : Grain) (hd : s.conns u = some d)
    (hm : d.machine = valueDequeueReceived)
    (hstring : d.cs.recvline.cstring maxLine 0 = some body) (hroom : body.length + 8 ≤ maxLine) :
    SendsBody grain s u body := by
  obtain ⟨w', haction, hsends⟩ :=
    actionValueDequeueReceived_returns hstring hroom (s.world_writesReturn d)
  have hstep := step_run_of_machine hd hm (by decide) (by decide) haction grain
  have htrace : w'.trace = (deliveryFrames body).map Event.write := hsends.trace
  refine ⟨_, w'.trace, hstep, rfl, ?_⟩
  rw [bodyFramesSent, htrace, framesSent_map_write]
  rfl

namespace Broker

/-- Every step of a connection keeps what the connections carry. -/
theorem Carried.transfers (h : s.Carried) (hc : s.conns t = some c)
    (hnext : (s.commit t m point w).Accounted) (htransfers : Transfers s c m point w) :
    (s.commit t m point w).Carried := by
  intro u d item hd hm hheld hlength
  by_cases hu : u = t
  · obtain ⟨d', hd', hholding⟩ := hnext.holders u item hheld
    rw [hu, commit_conns_self] at hd'
    rw [hu] at hheld
    obtain rfl := Option.some.inj hd'
    rw [hu, commit_conns_self] at hd
    obtain rfl := Option.some.inj hd
    cases htransfers with
    | idle _ hafter | enqueue _ hafter =>
      rw [hafter] at hholding
      cases hholding
    | acknowledge _ hm' hpoint =>
      rw [hm', hpoint] at hholding
      cases hholding
    | giveUp _ hm' =>
      rw [hm'] at hholding
      cases hholding
    | take _ _ _ _ hcs htrace =>
      have htaken : accountsOf (s.commit t m point w).history =
          (accountsOf s.history).after transferOf (w.trace.map fun event => (t, event)) :=
        accountsOf_append _ _
      rw [htaken, htrace] at hheld
      have hitem := (Function.update_self _ _ _).symm.trans hheld
      rw [hcs, hitem]
      exact cstring_write_string c.cs.recvline hlength
    | carry _ _ _ hwrites hkeeps =>
      obtain ⟨hcs, hbefore⟩ := hkeeps hm
      have hsame : accountsOf (s.commit t m point w).history = accountsOf s.history := by
        apply (accountsOf_append _ _).trans
        apply Accounts.after_of_silent
        intro event hevent
        obtain ⟨bytes, rfl⟩ := hwrites event hevent
        rfl
      rw [hsame] at hheld
      rw [hcs]
      exact h t c item hc hbefore hheld hlength
  · rw [s.commit_conns_of_ne hu] at hd
    rw [held_commit_of_ne hu] at hheld
    exact h u d item hd hm hheld hlength

/-- Accepting and closing connections keeps what the connections carry. -/
theorem Carried.replace (h : s.Carried) (haccounted : s.Accounted) {next : Option Conn}
    (hreplaces : Replaces s t next s') : s'.Carried := by
  rw [hreplaces.state]
  intro u d item hd hm hheld hlength
  by_cases hu : u = t
  · obtain ⟨c, hc, hholding⟩ := haccounted.holders u item hheld
    rw [hu] at hc
    rw [hreplaces.before c hc] at hholding
    cases hholding
  · exact h u d item ((Function.update_of_ne hu _ _).symm.trans hd) hm hheld hlength

/-- Every step keeps the message of a consumer in `recvline`. -/
theorem Carried.step (h : s.Carried) (hok : s.Ok) (haccounted : s.Accounted) {act : Act}
    (hstep : Broker.step grain s act = .ok s') : s'.Carried := by
  have hnext := haccounted.step hok hstep
  rcases transfers_of_step hok hstep with
    ⟨t, c, m', point', w', hc, hs', htransfers⟩ | ⟨t, next, hreplaces⟩
  · rw [hs'] at hnext ⊢
    exact h.transfers hc hnext htransfers
  · exact h.replace haccounted hreplaces

/-- Nobody carries anything at the start. -/
theorem carried_initial : initial.Carried := by
  intro u d item hd
  cases hd

/-- In every reachable state the connections carry the messages that they hold. -/
theorem carried_of_reaches {guard : Broker → Act → Prop}
    (h : Reaches (Broker.step grain) guard initial s) : s.Carried := by
  have hall : s.Ok ∧ s.Accounted ∧ s.Carried :=
    h.invariant (P := fun s => s.Ok ∧ s.Accounted ∧ s.Carried)
      ⟨ok_initial, accounted_initial, carried_initial⟩ fun _ _ _ hinv _ hstep =>
        ⟨hinv.1.step hstep, hinv.2.1.step hinv.1 hstep, hinv.2.2.step hinv.1 hinv.2.1 hstep⟩
  exact hall.2.2

/-- A connection that holds a message delivers it up to its first zero byte. -/
theorem sendsBody_of_held {guard : Broker → Act → Prop}
    (h : Reaches (Broker.step grain) guard initial s) (hd : s.conns u = some d)
    (hm : d.machine = valueDequeueReceived) (hheld : (accountsOf s.history).held u = some item)
    (hroom : item.2.length + 8 ≤ maxLine) :
    SendsBody grain s u (item.2.takeWhile (· ≠ 0)) := by
  have hstring := carried_of_reaches h u d item hd (by rw [hm]; decide) hheld (by omega)
  have hlength : (item.2.takeWhile (· ≠ 0)).length ≤ item.2.length :=
    (List.takeWhile_prefix _).length_le
  exact sendsBody_of_string grain hd hm hstring (by omega)

/-- A step keeps what was enqueued. -/
theorem wasEnqueued_step (hok : s.Ok) {act : Act} (hstep : Broker.step grain s act = .ok s')
    (h : WasEnqueued s.history p item) : WasEnqueued s'.history p item := by
  rcases transfers_of_step hok hstep with ⟨t, c, m', point', w', -, hs', -⟩ | ⟨t, next, hreplaces⟩
  · rw [hs']
    exact wasEnqueued_append.mpr (Or.inl h)
  · rw [hreplaces.state]
    exact h

/-- A run keeps what was enqueued. -/
theorem wasEnqueued_reaches (hok : s.Ok) {guard : Broker → Act → Prop}
    (h : Reaches (Broker.step grain) guard s s') (hitem : WasEnqueued s.history p item) :
    WasEnqueued s'.history p item := by
  have hboth : s'.Ok ∧ WasEnqueued s'.history p item :=
    h.invariant (P := fun s => s.Ok ∧ WasEnqueued s.history p item) ⟨hok, hitem⟩
      fun _ _ _ hinv _ hstep => ⟨hinv.1.step hstep, wasEnqueued_step hinv.1 hstep hinv.2⟩
  exact hboth.2

/-- A BODY frame for a declared queue is enqueued up to its first zero byte. -/
theorem publishes_body (hok : s.Ok) (hc : s.conns t = some c) (hm : c.machine = waitPublishContent)
    (hq : c.cs.currentQueue = some q) (hbytes : c.socket.Delivers (bodyFrame payload ++ rest))
    (hroom : payload.length < maxLine) (grain : Grain) :
    ∃ s₁, Broker.step grain s (.run t) = .ok s₁ ∧ s₁.history = s.history ++
      [(t, .qEnqueue (some q) s.store.nodes.next (payload.takeWhile (· ≠ 0)))] := by
  obtain ⟨queue, hcell⟩ := hok.chosen t c q hc hq
  obtain ⟨w', haction, hpublishes⟩ := actionWaitPublishContent_body (w := s.world c) hbytes hroom hq
    ⟨hok.pool, hok.lists, hok.pool.pooled q queue hcell⟩
  have htrace : w'.trace = [.qEnqueue (some q) s.store.nodes.next (payload.takeWhile (· ≠ 0))] := by
    have hmessages : enqueuesOf w'.trace = [(some q, payload.takeWhile (· ≠ 0))] :=
      hpublishes.messages
    cases effect_of_action (by decide) (by decide) haction with
    | quiet hedge => simp [quietNext] at hedge
    | @enqueue node body _ _ hstore htrace =>
      obtain ⟨p, -, -, henqueued⟩ := qEnqueue_eq_ok hok.lists hstore
      have hcall : w'.trace = [.qEnqueue (some q) node body] := by
        rw [← hq]
        exact htrace
      rw [hcall] at hmessages
      have hbody := (Prod.mk.inj (List.singleton_inj.mp hmessages)).2
      have hfresh : node = s.store.nodes.next := henqueued.fresh
      rw [hcall, hfresh, hbody]
  refine ⟨_, step_run_of_machine hc hm (by decide) (by decide) haction grain, ?_⟩
  rw [commit, htrace]
  rfl

/-- The message of a node that a connection holds is the one that was enqueued. -/
theorem Accounted.held_eq (h : s.Accounted) {taken : ℕ × List UInt8}
    (hheld : (accountsOf s.history).held u = some taken) (hitem : WasEnqueued s.history p item)
    (hnode : taken.1 = item.1) : taken = item := by
  obtain ⟨p', htaken⟩ := h.placed.isKnown taken (.away (.held u)) hheld
  exact (h.sole p' p taken item htaken hitem hnode).2

/-- A payload that fits a frame of the announced size, published in one BODY frame to a declared
queue, is enqueued; and whenever a consumer has taken this message and is about to deliver it,
its BODY frame carries the payload if and only if the payload has no zero byte. -/
theorem payload_carried_iff {guard : Broker → Act → Prop}
    (hreach : Reaches (Broker.step grain) guard initial s) (hc : s.conns t = some c)
    (hm : c.machine = waitPublishContent) (hq : c.cs.currentQueue = some q)
    (hbytes : c.socket.Delivers (bodyFrame payload ++ rest))
    (hsize : (bodyFrame payload).length ≤ frameMax) :
    ∃ (s₁ : Broker) (item : ℕ × List UInt8), Broker.step grain s (.run t) = .ok s₁ ∧
      s₁.history = s.history ++ [(t, .qEnqueue (some q) item.1 item.2)] ∧
      ∀ s₂ u d taken, Reaches (Broker.step grain) guard s₁ s₂ → s₂.conns u = some d →
        d.machine = valueDequeueReceived → (accountsOf s₂.history).held u = some taken →
        taken.1 = item.1 → (SendsBody grain s₂ u payload ↔ 0 ∉ payload) := by
  rw [bodyFrame_length, frameMax_eq] at hsize
  have hmax : maxLine = 131073 := rfl
  have hok := ok_of_reaches hreach
  obtain ⟨s₁, hstep, hhistory⟩ := publishes_body hok hc hm hq hbytes (by omega) grain
  refine ⟨s₁, (s.store.nodes.next, payload.takeWhile (· ≠ 0)), hstep, hhistory, ?_⟩
  intro s₂ u d taken hlater hd hdm hheld hnode
  have hall : Reaches (Broker.step grain) (fun _ _ => True) initial s₂ :=
    ((hreach.weaken fun _ _ _ => trivial).tail trivial hstep).trans
      (hlater.weaken fun _ _ _ => trivial)
  have hwas : WasEnqueued s₁.history q (s.store.nodes.next, payload.takeWhile (· ≠ 0)) := by
    refine ⟨t, ?_⟩
    rw [hhistory]
    exact List.mem_append_right _ (List.mem_singleton_self _)
  have hitem := (accounted_of_reaches hall).held_eq hheld
    (wasEnqueued_reaches (hok.step hstep) hlater hwas) hnode
  rw [hitem] at hheld
  have hlength : (payload.takeWhile (· ≠ 0)).length ≤ payload.length :=
    (List.takeWhile_prefix _).length_le
  have hsends := sendsBody_of_held hall hd hdm hheld (by dsimp only; omega)
  have hidem : (payload.takeWhile (· ≠ 0)).takeWhile (· ≠ 0) = payload.takeWhile (· ≠ 0) := by
    apply (takeWhile_ne_zero_eq_self _).mpr
    intro hzero
    simpa using List.mem_takeWhile_imp hzero
  rw [hidem] at hsends
  rw [← takeWhile_ne_zero_eq_self]
  constructor
  · exact fun hwhole => hsends.unique hwhole
  · intro hwhole
    rwa [hwhole] at hsends

/-- A client that declares the queue "q", publishes this payload there and consumes it. -/
def publishAndConsume (payload : List UInt8) (steps : ℕ) : List Act :=
  session 0 (openingFrames ++ declareFrame [113] ++ publishFrame [] [113] ++
    headerFrame payload.length ++ bodyFrame payload ++ reopenFrames ++ consumeFrame [113]) steps

/-- What is seen of this client. -/
structure ClientView where
  machine : MachineState
  queue : Option ℕ
  socket : Socket
  call : Option (ℤ × Event)
  held : Option (ℕ × List UInt8)
  deriving DecidableEq

/-- Look at the first connection. -/
def clientView (s : Broker) : Option ClientView :=
  (s.conns 0).map fun c =>
    ⟨c.machine, c.cs.currentQueue, c.socket, s.history.getLast?, (accountsOf s.history).held 0⟩

/-- What is seen of the only client. -/
theorem clientView_eq_some {view : ClientView} (h : clientView s = some view) :
    ∃ c, s.conns 0 = some c ∧ c.machine = view.machine ∧ c.cs.currentQueue = view.queue ∧
      c.socket = view.socket ∧ s.history.getLast? = view.call ∧
      (accountsOf s.history).held 0 = view.held := by
  obtain ⟨c, hc, hview⟩ := Option.map_eq_some_iff.mp h
  cases hview
  exact ⟨c, hc, rfl, rfl, rfl, rfl, rfl⟩

/-- What this client does with its payload. -/
structure Carries (payload stored : List UInt8) : Prop where
  before : (exec (Broker.step .fine) initial (publishAndConsume payload 14)).toOption.map
    clientView = some (some ⟨waitPublishContent, some 0,
      Socket.chunk (bodyFrame payload ++ (reopenFrames ++ consumeFrame [113])),
      some (0, .getQueue [113] (some 0)), none⟩)
  enqueued : (exec (Broker.step .fine) initial (publishAndConsume payload 15)).toOption.map
    clientView = some (some ⟨waitPublishContent, some 0,
      Socket.chunk (reopenFrames ++ consumeFrame [113]), some (0, .qEnqueue (some 0) 0 stored), none⟩)
  taken : ((exec (Broker.step .fine) initial (publishAndConsume payload 25)).toOption.map
    clientView).map (Option.map fun view => (view.machine, view.held)) =
      some (some (valueDequeueReceived, some (0, stored)))

/-- The states of this client before and after its publish, and before its delivery. -/
structure CarryStates (payload stored : List UInt8) (s s₁ s₂ : Broker) (c d : Conn) : Prop where
  reaches : Reaches (Broker.step .fine) (fun _ _ => True) initial s
  publisher : s.conns 0 = some c
  waits : c.machine = waitPublishContent
  queue : c.cs.currentQueue = some 0
  delivers : c.socket.Delivers (bodyFrame payload ++ (reopenFrames ++ consumeFrame [113]))
  step : Broker.step .fine s (.run 0) = .ok s₁
  call : s₁.history.getLast? = some (0, .qEnqueue (some 0) 0 stored)
  later : Reaches (Broker.step .fine) (fun _ _ => True) s₁ s₂
  consumer : s₂.conns 0 = some d
  received : d.machine = valueDequeueReceived
  held : (accountsOf s₂.history).held 0 = some (0, stored)

/-- The states between which the payload is carried. -/
theorem Carries.states {stored : List UInt8} (h : Carries payload stored) :
    ∃ s s₁ s₂ c d, exec (Broker.step .fine) initial (publishAndConsume payload 25) = .ok s₂ ∧
      CarryStates payload stored s s₁ s₂ c d := by
  obtain ⟨s, hrun, hview⟩ := exec_observed h.before
  obtain ⟨s₁, hrun₁, hview₁⟩ := exec_observed h.enqueued
  obtain ⟨view, htaken, hview₂⟩ := Option.map_eq_some_iff.mp h.taken
  obtain ⟨s₂, hrun₂, hlook⟩ := exec_observed htaken
  obtain ⟨c, hc, hm, hq, hsocket, -, -⟩ := clientView_eq_some hview
  obtain ⟨c₁, -, -, -, -, hcall, -⟩ := clientView_eq_some hview₁
  obtain ⟨view', hview', hseen⟩ := Option.map_eq_some_iff.mp hview₂
  obtain ⟨d, hd, hdm, -, -, -, hheld⟩ := clientView_eq_some (hlook.trans hview')
  obtain ⟨hmachine, hstored⟩ := Prod.mk.inj hseen
  have hstep : Broker.step .fine s (.run 0) = .ok s₁ := step_of_exec hrun hrun₁
  have hsplit : publishAndConsume payload 25 =
      publishAndConsume payload 15 ++ List.replicate 10 (.run 0) := rfl
  have hlater := hrun₂
  rw [hsplit] at hlater
  obtain ⟨m, hfirst, hrest⟩ := exec_append_eq_ok.mp hlater
  obtain rfl := Except.ok.inj (hrun₁.symm.trans hfirst)
  refine ⟨s, s₁, s₂, c, d, hrun₂, reaches_of_exec hrun, hc, hm, hq, ?_, hstep, hcall,
    reaches_of_exec hrest, hd, hdm.trans hmachine, hheld.trans hstored⟩
  rw [hsocket]
  exact Socket.chunk_delivers (bodyFrame payload ++ (reopenFrames ++ consumeFrame [113]))

/-- A payload of one byte arrives. -/
theorem carries_oneByte : Carries [33] [33] :=
  ⟨by decide +kernel, by decide +kernel, by decide +kernel⟩

/-- A payload arrives up to its zero byte. -/
theorem carries_zeroByte : Carries [104, 0, 105] [104] :=
  ⟨by decide +kernel, by decide +kernel, by decide +kernel⟩

/-- A payload without a zero byte is delivered as it was published. -/
theorem payload_carried_iff_oneByte :
    ∃ s, exec (Broker.step .fine) initial (publishAndConsume [33] 25) = .ok s ∧
      SendsBody .fine s 0 [33] := by
  obtain ⟨s, s₁, s₂, c, d, hrun, hstates⟩ := carries_oneByte.states
  have hsize : (bodyFrame [33]).length ≤ frameMax := by
    rw [bodyFrame_length, frameMax_eq]
    decide
  obtain ⟨s', item, hstep, hhistory, hall⟩ := payload_carried_iff hstates.reaches
    hstates.publisher hstates.waits hstates.queue hstates.delivers hsize
  obtain rfl := Except.ok.inj (hstates.step.symm.trans hstep)
  have hnode : item.1 = 0 := by
    have hcall := hstates.call
    rw [hhistory, List.getLast?_append_of_ne_nil _ (by simp), List.getLast?_singleton] at hcall
    exact (Event.qEnqueue.inj (Prod.mk.inj (Option.some.inj hcall)).2).2.1
  have hiff := hall s₂ 0 d (0, [33]) hstates.later hstates.consumer hstates.received hstates.held
    hnode.symm
  exact ⟨s₂, hrun, hiff.mpr (by decide)⟩

/-- A payload with a zero byte is delivered as another one. -/
theorem zeroByte_cut :
    ∃ s s₁ s₂ c d, Reaches (Broker.step .fine) (fun _ _ => True) initial s ∧ s.conns 0 = some c ∧
      c.machine = waitPublishContent ∧ c.cs.currentQueue = some 0 ∧
      c.socket.Delivers (bodyFrame [104, 0, 105] ++ (reopenFrames ++ consumeFrame [113])) ∧
      (bodyFrame [104, 0, 105]).length ≤ frameMax ∧ Broker.step .fine s (.run 0) = .ok s₁ ∧
      s₁.history.getLast? = some (0, .qEnqueue (some 0) 0 [104]) ∧
      Reaches (Broker.step .fine) (fun _ _ => True) s₁ s₂ ∧ s₂.conns 0 = some d ∧
      d.machine = valueDequeueReceived ∧ (accountsOf s₂.history).held 0 = some (0, [104]) ∧
      SendsBody .fine s₂ 0 [104] ∧ ¬ SendsBody .fine s₂ 0 [104, 0, 105] := by
  obtain ⟨s, s₁, s₂, c, d, hrun, h⟩ := carries_zeroByte.states
  have hsize : (bodyFrame [104, 0, 105]).length ≤ frameMax := by
    rw [bodyFrame_length, frameMax_eq]
    decide
  have hshort : ∀ item : ℕ × List UInt8, item = (0, [104]) → item.2.length + 8 ≤ maxLine := by
    intro item hitem
    rw [hitem, show maxLine = 131073 from rfl]
    decide
  have hcut := sendsBody_of_held (reaches_of_exec hrun) h.consumer h.received h.held (hshort _ rfl)
  have hstring : ((0, [104]) : ℕ × List UInt8).2.takeWhile (· ≠ 0) = [104] := by decide
  rw [hstring] at hcut
  refine ⟨s, s₁, s₂, c, d, h.reaches, h.publisher, h.waits, h.queue, h.delivers, hsize, h.step,
    h.call, h.later, h.consumer, h.received, h.held, hcut, fun hwhole => ?_⟩
  have hsame : [(104 : UInt8)] = [104, 0, 105] := hcut.unique hwhole
  simp at hsame

end Broker

end AmqpBroker
