import AmqpBroker.Verification.Invariant
import AmqpBroker.Verification.Sessions
import AmqpBroker.Verification.Stops

/-!
# Method dispatch

The case labels of the seven handlers that wait for a method, as a table. A handler names
the state of the label for every method, except where a `break` is missing in
`action_wait_functional`; the methods that reach the missing `break` are listed here.
-/

namespace AmqpBroker

open Foundations Program MachineState

/-- The methods that a handler has case labels for, with the states they name. -/
def caseLabels : MachineState → List (MethodHeader × MachineState)
  | waitStartOk => [(⟨ClassId.connection, MethodId.connectionStartOk⟩, startOkReceived)]
  | waitTuneOk => [(⟨ClassId.connection, MethodId.connectionTuneOk⟩, waitOpenConnection)]
  | waitOpenConnection => [(⟨ClassId.connection, MethodId.connectionOpen⟩, openConnectionReceived)]
  | waitOpenChannel =>
    [(⟨ClassId.channel, MethodId.channelOpen⟩, openChannelReceived),
      (⟨ClassId.connection, MethodId.connectionClose⟩, closeConnectionReceived)]
  | waitFunctional =>
    [(⟨ClassId.channel, MethodId.channelClose⟩, closeChannelReceived),
      (⟨ClassId.connection, MethodId.connectionClose⟩, closeConnectionReceived),
      (declareMethod, queueDeclareReceived), (publishMethod, basicPublishReceived),
      (consumeMethod, basicConsumeReceived)]
  | waitPublishContent =>
    [(⟨ClassId.channel, MethodId.channelClose⟩, closeChannelReceived),
      (publishMethod, basicPublishReceived),
      (⟨ClassId.connection, MethodId.connectionClose⟩, closeConnectionReceived)]
  | waitConsumeAck => [(ackMethod, waitValueDequeue)]
  | _ => []

/-- The state that the case labels name for a method, and FAIL for every other method. -/
def dispatch (m : MachineState) (method : MethodHeader) : MachineState :=
  ((caseLabels m).lookup method).getD fail

/-- The methods that reach a `case` of another class in `action_wait_functional`. -/
def FallsThrough (m : MachineState) (method : MethodHeader) : Prop :=
  m = waitFunctional ∧
    ((method.classId = ClassId.channel ∧
        (method.methodId = MethodId.connectionClose ∨ method.methodId = MethodId.queueDeclare)) ∨
      (method.classId = ClassId.connection ∧ method.methodId = MethodId.queueDeclare))

/-- The state that `action_wait_functional` names. -/
def functionalNext (method : MethodHeader) : MachineState :=
  let inChannel : Prop := method.classId = ClassId.channel
  let inConnection : Prop := inChannel ∨ method.classId = ClassId.connection
  let inQueue : Prop := inConnection ∨ method.classId = ClassId.queue
  let next := fail
  let next :=
    if inChannel ∧ method.methodId = MethodId.channelClose then closeChannelReceived else next
  let next :=
    if inConnection ∧ method.methodId = MethodId.connectionClose then closeConnectionReceived
    else next
  if inQueue then
    if method.methodId = MethodId.queueDeclare then queueDeclareReceived else next
  else if method.classId = ClassId.basic then
    if method.methodId = MethodId.basicPublish then basicPublishReceived
    else if method.methodId = MethodId.basicConsume then basicConsumeReceived
    else next
  else next

/-- The state that a handler names for a method. -/
def namedState (m : MachineState) (method : MethodHeader) : MachineState :=
  if m = waitFunctional then functionalNext method else dispatch m method

variable {m m' : MachineState} {w w' : World} {method : MethodHeader} {arguments rest : List UInt8}
  {channel : UInt16}

/-- A table entry answers for its own key only. -/
theorem lookup_cons_eq {key : MethodHeader} {value : MachineState}
    {rest : List (MethodHeader × MachineState)} :
    ((key, value) :: rest).lookup method =
      if method = key then some value else rest.lookup method := by
  by_cases h : method = key
  · rw [if_pos h, h, List.lookup_cons_self]
  · simp only [if_neg h, List.lookup_cons, beq_eq_false_iff_ne.mpr h]

/-- The switch of WAIT_FUNCTIONAL always returns. -/
theorem functionalSwitch_returns (method : MethodHeader) (w : World) :
    ∃ w', functionalSwitch method w = .ok (functionalNext method, w') := by
  obtain ⟨_, declared, hdeclare⟩ := avoids_declareQueue.returns w
  obtain ⟨name, parsed, hpublish⟩ := avoids_parseBasicPublishArgs.returns w
  obtain ⟨_, published, hselect⟩ := (avoids_selectQueue name).returns parsed
  obtain ⟨name', parsed', hconsume⟩ := avoids_parseBasicConsumeArgs.returns w
  obtain ⟨_, consumed, hselect'⟩ := (avoids_selectQueue name').returns parsed'
  unfold functionalSwitch functionalNext
  by_cases hqueue : (method.classId = ClassId.channel ∨ method.classId = ClassId.connection) ∨
      method.classId = ClassId.queue
  · simp only [if_pos hqueue]
    by_cases hdeclared : method.methodId = MethodId.queueDeclare
    · simp only [if_pos hdeclared, bind_of_ok hdeclare]
      exact ⟨declared, rfl⟩
    · simp only [if_neg hdeclared]
      exact ⟨w, rfl⟩
  · simp only [if_neg hqueue]
    by_cases hbasic : method.classId = ClassId.basic
    · simp only [if_pos hbasic]
      by_cases hpublished : method.methodId = MethodId.basicPublish
      · simp only [if_pos hpublished, bind_of_ok hpublish, bind_of_ok hselect]
        exact ⟨published, rfl⟩
      · simp only [if_neg hpublished]
        by_cases hconsumed : method.methodId = MethodId.basicConsume
        · simp only [if_pos hconsumed, bind_of_ok hconsume, bind_of_ok hselect']
          exact ⟨consumed, rfl⟩
        · simp only [if_neg hconsumed]
          exact ⟨w, rfl⟩
    · simp only [if_neg hbasic]
      exact ⟨w, rfl⟩

/-- The class ids differ from one another. -/
theorem classIds_distinct : ClassId.connection ≠ ClassId.channel ∧
    ClassId.connection ≠ ClassId.queue ∧ ClassId.connection ≠ ClassId.basic ∧
    ClassId.channel ≠ ClassId.queue ∧ ClassId.channel ≠ ClassId.basic ∧
    ClassId.queue ≠ ClassId.basic := by decide

/-- The two switches without fall-through are their tables. -/
theorem dispatch_waitOpenChannel (method : MethodHeader) :
    dispatch waitOpenChannel method = openChannelSwitch method := by
  obtain ⟨hconnChannel, -⟩ := classIds_distinct
  obtain ⟨classId, methodId⟩ := method
  simp only [dispatch, caseLabels, lookup_cons_eq, openChannelSwitch, MethodHeader.mk.injEq,
    List.lookup_nil]
  split_ifs <;> simp_all [eq_comm]

/-- The switch of WAIT_PUBLISH_CONTENT always returns. -/
theorem publishContentSwitch_returns (method : MethodHeader) (w : World) :
    ∃ w', publishContentSwitch method w = .ok (dispatch waitPublishContent method, w') := by
  obtain ⟨name, parsed, hpublish⟩ := avoids_parseBasicPublishArgs.returns w
  obtain ⟨_, published, hselect⟩ := (avoids_selectQueue name).returns parsed
  have hdispatch : dispatch waitPublishContent method =
      if method.classId = ClassId.channel then
        if method.methodId = MethodId.channelClose then closeChannelReceived else fail
      else if method.classId = ClassId.basic then
        if method.methodId = MethodId.basicPublish then basicPublishReceived else fail
      else if method.classId = ClassId.connection then
        if method.methodId = MethodId.connectionClose then closeConnectionReceived else fail
      else fail := by
    obtain ⟨hconnChannel, -, hconnBasic, -⟩ := classIds_distinct
    obtain ⟨classId, methodId⟩ := method
    simp only [dispatch, caseLabels, lookup_cons_eq, publishMethod, MethodHeader.mk.injEq,
      List.lookup_nil]
    split_ifs <;> simp_all [eq_comm]
  rw [hdispatch]
  unfold publishContentSwitch
  by_cases hchannel : method.classId = ClassId.channel
  · simp only [if_pos hchannel]
    split
    · exact ⟨w, rfl⟩
    · exact ⟨w, rfl⟩
  · simp only [if_neg hchannel]
    by_cases hbasic : method.classId = ClassId.basic
    · simp only [if_pos hbasic]
      by_cases hpublished : method.methodId = MethodId.basicPublish
      · simp only [if_pos hpublished, bind_of_ok hpublish, bind_of_ok hselect]
        exact ⟨published, rfl⟩
      · simp only [if_neg hpublished]
        exact ⟨w, rfl⟩
    · simp only [if_neg hbasic]
      split
      · split
        · exact ⟨w, rfl⟩
        · exact ⟨w, rfl⟩
      · exact ⟨w, rfl⟩

/-- A method without fall-through is dispatched as the case labels say, and the others are not. -/
theorem namedState_eq_dispatch_iff (m : MachineState) (method : MethodHeader) :
    namedState m method = dispatch m method ↔ ¬ FallsThrough m method := by
  unfold namedState FallsThrough
  by_cases hm : m = waitFunctional
  · obtain ⟨hconnChannel, hconnQueue, hconnBasic, hchannelQueue, hchannelBasic, hqueueBasic⟩ :=
      classIds_distinct
    obtain ⟨classId, methodId⟩ := method
    simp only [hm, if_true, true_and, functionalNext, dispatch, caseLabels, lookup_cons_eq,
      declareMethod, publishMethod, consumeMethod, MethodHeader.mk.injEq, List.lookup_nil]
    -- one goal for each branch of the switch against each row of the table
    split_ifs <;> simp_all [eq_comm]
    tauto
  · simp [hm]

/-- The end of a switch always returns. -/
theorem finishDispatch_returns (method : MethodHeader) (next : MachineState) (w : World) :
    ∃ w', finishDispatch method next w = .ok (next, w') := by
  obtain ⟨m, w', hrun⟩ := (avoids_finishDispatch method next).returns w
  obtain ⟨rfl, -⟩ := finishDispatch_result hrun
  exact ⟨w', hrun⟩

/-- The handlers compare the two ids of a method one by one. -/
theorem ids_ne_iff {expected : MethodHeader} :
    method.classId ≠ expected.classId ∨ method.methodId ≠ expected.methodId ↔ method ≠ expected := by
  cases method
  cases expected
  simp only [ne_eq, MethodHeader.mk.injEq, not_and_or]

/-- The table of a state with one case label. -/
theorem dispatch_of_single {expected : MethodHeader} {next : MachineState}
    (h : caseLabels m = [(expected, next)]) (method : MethodHeader) :
    dispatch m method = if method = expected then next else fail := by
  rw [dispatch, h, lookup_cons_eq]
  split <;> rfl

/-- What a handler that dispatches does with a method that it has read. -/
theorem actions_of_method (hm : caseLabels m ≠ []) {messageHeader : MessageHeader} {v v' : World}
    (hheader : readMessageHeader w = .ok (some messageHeader, v))
    (htype : m = waitPublishContent → messageHeader.msgType = MsgFormat.method)
    (hmethod : readMethod (toInt messageHeader.length) v = .ok (some method, v'))
    (hready : m = waitConsumeAck → ∃ v'', unsubscribe v' = .ok ((), v'')) :
    ∃ w', actions m w = .ok (namedState m method, w') := by
  have hframe : readFrame w = .ok (some method, v') := by
    rw [readFrame, bind_of_ok hheader]
    simp only
    rw [bind_of_ok hmethod]
    rfl
  have hawait : ∀ expected message next, actions m = awaitMethod expected message next →
      caseLabels m = [(expected, next)] → m ≠ waitFunctional →
        ∃ w', actions m w = .ok (namedState m method, w') := by
    intro expected message next haction hlabels hother
    rw [namedState, if_neg hother, dispatch_of_single hlabels, haction, awaitMethod,
      bind_of_ok hframe]
    simp only [ids_ne_iff]
    by_cases hexpected : method = expected
    · simp only [hexpected, ne_eq, not_true_eq_false, if_false, if_true]
      exact ⟨_, rfl⟩
    · simp only [hexpected, ne_eq, not_false_eq_true, if_true, if_false]
      exact ⟨_, rfl⟩
  cases m with
  | waitStartOk =>
    rw [namedState, if_neg (by decide), dispatch_of_single rfl]
    change ∃ w', actionWaitStartOk w = _
    rw [actionWaitStartOk, bind_of_ok hheader]
    simp only
    rw [bind_of_ok hmethod]
    have hids := @ids_ne_iff method ⟨ClassId.connection, MethodId.connectionStartOk⟩
    simp only at hids
    simp only [hids]
    by_cases hexpected : method = ⟨ClassId.connection, MethodId.connectionStartOk⟩
    · simp only [hexpected, ne_eq, not_true_eq_false, if_false, if_true]
      exact ⟨_, rfl⟩
    · simp only [hexpected, ne_eq, not_false_eq_true, if_true, if_false]
      exact ⟨_, rfl⟩
  | waitTuneOk => exact hawait _ _ _ rfl rfl (by decide)
  | waitOpenConnection => exact hawait _ _ _ rfl rfl (by decide)
  | waitOpenChannel =>
    rw [namedState, if_neg (by decide), dispatch_waitOpenChannel]
    change ∃ w', actionWaitOpenChannel w = _
    rw [actionWaitOpenChannel, bind_of_ok hframe]
    exact finishDispatch_returns _ _ _
  | waitFunctional =>
    rw [namedState, if_pos rfl]
    change ∃ w', actionWaitFunctional w = _
    rw [actionWaitFunctional, bind_of_ok hframe]
    obtain ⟨_, hswitch⟩ := functionalSwitch_returns method v'
    simp only
    rw [bind_of_ok hswitch]
    exact finishDispatch_returns _ _ _
  | waitPublishContent =>
    rw [namedState, if_neg (by decide)]
    change ∃ w', actionWaitPublishContent w = _
    rw [actionWaitPublishContent, bind_of_ok hheader]
    obtain ⟨_, hswitch⟩ := publishContentSwitch_returns method v'
    simp only [htype rfl, if_true]
    rw [bind_of_ok hmethod]
    simp only
    rw [bind_of_ok hswitch]
    exact finishDispatch_returns _ _ _
  | waitConsumeAck =>
    rw [namedState, if_neg (by decide), dispatch_of_single rfl]
    change ∃ w', actionWaitConsumeAck w = _
    rw [actionWaitConsumeAck, bind_of_ok hheader]
    simp only
    rw [bind_of_ok hmethod]
    have hids := @ids_ne_iff method ackMethod
    simp only [ackMethod] at hids
    simp only [hids]
    by_cases hack : method = ackMethod
    · simp only [hack, ackMethod, ne_eq, not_true_eq_false, if_false, if_true]
      exact ⟨_, rfl⟩
    · obtain ⟨_, hunsubscribe⟩ := hready rfl
      have hother : method ≠ ⟨ClassId.basic, MethodId.basicAck⟩ := hack
      simp only [hack, hother, ne_eq, not_false_eq_true, if_true, if_false]
      rw [bind_of_ok hunsubscribe]
      exact ⟨_, rfl⟩
  | _ => exact absurd rfl hm

/-- What a handler that dispatches does with a METHOD frame that fits the buffers. -/
theorem actions_dispatch (hm : caseLabels m ≠ [])
    (h : w.socket.Delivers
      (encodeFrame MsgFormat.method channel (encodeMethod method arguments) ++ rest))
    (hroom : (encodeMethod method arguments).length + 3 ≤ maxLine)
    (hready : m = waitConsumeAck → ∀ v, SameSelf w v → v.store = w.store →
      ∃ v', unsubscribe v = .ok ((), v')) :
    ∃ w', actions m w = .ok (namedState m method, w') := by
  have hmax : maxLine < 2 ^ 32 := by decide
  obtain ⟨hheader, hpayload⟩ := readMessageHeader_frame h (by omega)
  obtain ⟨hmethod, -⟩ := readMethod_frame hpayload hroom
  exact actions_of_method hm hheader (fun _ => rfl) hmethod
    fun hack => hready hack _ ⟨rfl, rfl, rfl⟩ rfl

/-- A method that cannot be read fails every handler that dispatches. -/
theorem actions_of_no_method (hm : caseLabels m ≠ []) {messageHeader : MessageHeader} {v v' : World}
    (hheader : readMessageHeader w = .ok (some messageHeader, v))
    (htype : m = waitPublishContent → messageHeader.msgType = MsgFormat.method)
    (hmethod : readMethod (toInt messageHeader.length) v = .ok (none, v'))
    (hready : m = waitConsumeAck → ∃ v'', unsubscribe v' = .ok ((), v'')) :
    ∃ w', actions m w = .ok (fail, w') := by
  obtain ⟨v₁, hframe⟩ : ∃ v₁, readFrame w = .ok (none, v₁) := by
    rw [readFrame, bind_of_ok hheader]
    simp only
    rw [bind_of_ok hmethod]
    exact ⟨_, rfl⟩
  cases m with
  | waitStartOk =>
    change ∃ w', actionWaitStartOk w = _
    rw [actionWaitStartOk, bind_of_ok hheader]
    simp only
    rw [bind_of_ok hmethod]
    exact ⟨_, rfl⟩
  | waitTuneOk => exact ⟨_, bind_of_ok hframe _⟩
  | waitOpenConnection => exact ⟨_, bind_of_ok hframe _⟩
  | waitOpenChannel => exact ⟨_, bind_of_ok hframe _⟩
  | waitFunctional => exact ⟨_, bind_of_ok hframe _⟩
  | waitPublishContent =>
    change ∃ w', actionWaitPublishContent w = _
    rw [actionWaitPublishContent, bind_of_ok hheader]
    simp only [htype rfl, if_true]
    rw [bind_of_ok hmethod]
    exact ⟨_, rfl⟩
  | waitConsumeAck =>
    obtain ⟨_, hunsubscribe⟩ := hready rfl
    change ∃ w', actionWaitConsumeAck w = _
    rw [actionWaitConsumeAck, bind_of_ok hheader]
    simp only
    rw [bind_of_ok hmethod]
    simp only
    rw [bind_of_ok hunsubscribe]
    exact ⟨_, rfl⟩
  | _ => exact absurd rfl hm

/-- A reader of methods that stops also stops every handler that dispatches. -/
theorem actions_of_method_error (hm : caseLabels m ≠ []) {messageHeader : MessageHeader} {v : World}
    {reason : Abort} (hheader : readMessageHeader w = .ok (some messageHeader, v))
    (htype : m = waitPublishContent → messageHeader.msgType = MsgFormat.method)
    (hmethod : readMethod (toInt messageHeader.length) v = .error reason) :
    actions m w = .error reason := by
  have hframe : readFrame w = .error reason := by
    rw [readFrame, bind_of_ok hheader]
    exact bind_of_error hmethod _
  cases m with
  | waitStartOk =>
    change actionWaitStartOk w = _
    rw [actionWaitStartOk, bind_of_ok hheader]
    exact bind_of_error hmethod _
  | waitTuneOk => exact bind_of_error hframe _
  | waitOpenConnection => exact bind_of_error hframe _
  | waitOpenChannel => exact bind_of_error hframe _
  | waitFunctional => exact bind_of_error hframe _
  | waitPublishContent =>
    change actionWaitPublishContent w = _
    rw [actionWaitPublishContent, bind_of_ok hheader]
    simp only [htype rfl, if_true]
    exact bind_of_error hmethod _
  | waitConsumeAck =>
    change actionWaitConsumeAck w = _
    rw [actionWaitConsumeAck, bind_of_ok hheader]
    exact bind_of_error hmethod _
  | _ => exact absurd rfl hm

/-- A METHOD frame that does not fit the buffers stops every handler that dispatches. -/
theorem actions_dispatch_overrun (hm : caseLabels m ≠ [])
    (h : w.socket.Delivers
      (encodeFrame MsgFormat.method channel (encodeMethod method arguments) ++ rest))
    (hlength : (encodeMethod method arguments).length < 2 ^ 32)
    (hover : maxLine < (encodeMethod method arguments).length + 3) :
    actions m w = .error .bufferRange := by
  obtain ⟨hheader, hpayload⟩ := readMessageHeader_frame h hlength
  exact actions_of_method_error hm hheader (fun _ => rfl)
    (readMethod_frame_overrun hpayload hlength hover)

/-- The step that reads a method does what the case labels say and no more. -/
structure Dispatched (s s' : Broker) (t : ℤ) (c c' : Conn) (method : MethodHeader) : Prop where
  conn : s'.conns t = some c'
  machine : c'.machine = dispatch c.machine method
  pool : c'.machine = fail → SameLists s.store s'.store
  store : c'.machine = fail → c.machine ≠ waitConsumeAck → s'.store = s.store
  currentQueue : c'.machine = fail → c'.cs.currentQueue = c.cs.currentQueue
  currentQueueName : c'.machine = fail → c'.cs.currentQueueName = c.cs.currentQueueName
  creates : ∃ events, s'.history = s.history ++ events ∧
    ∀ name q, (t, Event.createQueue name q) ∈ events → method = declareMethod

/-- The frame is read, and dispatched as the case labels say. -/
def DispatchesExactly (grain : Grain) (s : Broker) (t : ℤ) (c : Conn) (method : MethodHeader) :
    Prop :=
  ∃ s' c', Broker.step grain s (.run t) = .ok s' ∧ Dispatched s s' t c c' method

variable {s : Broker} {t : ℤ} {c : Conn} {grain : Grain}

/-- A handler that dispatches is neither the blocking one nor a final one. -/
theorem running_of_caseLabels (hm : caseLabels m ≠ []) :
    m ≠ waitValueDequeue ∧ m ≠ finished ∧ m ≠ fail := by
  refine ⟨?_, ?_, ?_⟩ <;> rintro rfl <;> exact hm rfl

/-- Queue.Declare is the only method with a label that names QUEUE_DECLARE_RECEIVED. -/
theorem eq_declareMethod_of_dispatch (h : dispatch waitFunctional method = queueDeclareReceived) :
    method = declareMethod := by
  simp only [dispatch, caseLabels, lookup_cons_eq, List.lookup_nil] at h
  split_ifs at h with _ _ hdeclare
  · cases h
  · cases h
  · exact hdeclare
  · cases h
  · cases h
  · cases h

/-- A quiet step creates no queue. -/
theorem Event.IsQuiet.ne_createQueue {event : Event} (h : event.IsQuiet) (name : List UInt8) (q : ℕ) :
    event ≠ .createQueue name q := by
  rintro rfl
  obtain ⟨method, heq⟩ | ⟨bytes, heq⟩ := h
  · cases heq
  · cases heq

/-- What else is true of a handler that named the right state. -/
theorem dispatched_of_effect
    (heffect : Effect c.machine (s.world c) w' m') (hm : m' = dispatch c.machine method) :
    Dispatched s (s.commit t m' .testRound w') t c ⟨m', .testRound, w'.cs, w'.socket⟩ method := by
  have hconn := s.commit_conns_self t m' .testRound w'
  have hevents : (∀ name q, Event.createQueue name q ∈ w'.trace → method = declareMethod) →
      ∃ events, (s.commit t m' .testRound w').history = s.history ++ events ∧
        ∀ name q, (t, Event.createQueue name q) ∈ events → method = declareMethod := by
    intro htrace
    refine ⟨_, rfl, fun name q hmem => ?_⟩
    obtain ⟨event, hevent, heq⟩ := List.mem_map.mp hmem
    cases heq
    exact htrace name q hevent
  have hpassed : m' ≠ fail →
      (∀ name q, Event.createQueue name q ∈ w'.trace → method = declareMethod) →
      Dispatched s (s.commit t m' .testRound w') t c ⟨m', .testRound, w'.cs, w'.socket⟩ method :=
    fun hne htrace => ⟨hconn, hm, fun h => absurd h hne, fun h => absurd h hne,
      fun h => absurd h hne, fun h => absurd h hne, hevents htrace⟩
  have hselected : ∀ {name q} {first second : Event}, m' ≠ fail → Selects (s.world c) w' name q →
      Recorded (s.world c) w' [first, second] → (∀ name q, first ≠ .createQueue name q) →
      (∀ name q, second ≠ .createQueue name q) →
      Dispatched s (s.commit t m' .testRound w') t c ⟨m', .testRound, w'.cs, w'.socket⟩ method := by
    intro name q first second hne _ hrecorded hfirst hsecond
    have hnone : ∀ event ∈ w'.trace, ∀ name q, event ≠ Event.createQueue name q :=
      hrecorded.forall rfl (fun _ hquiet => hquiet.ne_createQueue) (by simpa using ⟨hfirst, hsecond⟩)
    exact hpassed hne fun name q hmem => absurd rfl (hnone _ hmem name q)
  cases heffect with
  | quiet hedge hgrows =>
    obtain ⟨events, htrace, hquiet⟩ := hgrows.trace
    refine ⟨hconn, hm, fun _ => ?_, fun _ _ => hgrows.store, fun _ => hgrows.currentQueue,
      fun _ => hgrows.currentQueueName, hevents fun name q hmem => ?_⟩
    · have hstore : (s.commit t m' .testRound w').store = s.store := hgrows.store
      rw [hstore]
      exact .refl s.store
    · rw [htrace] at hmem
      exact absurd rfl ((hquiet _ hmem).ne_createQueue name q)
  | declare hfrom hselects hstore hrecorded =>
    exact hpassed (by decide) fun _ _ _ => eq_declareMethod_of_dispatch (hfrom ▸ hm.symm)
  | publish hfrom hselects hstore hrecorded =>
    exact hselected (by decide) hselects hrecorded nofun nofun
  | consume hfrom hselects hstore hrecorded =>
    exact hselected (by decide) hselects hrecorded nofun nofun
  | enqueue hfrom hself hstore htrace =>
    refine hpassed (by decide) fun name q hmem => ?_
    rw [htrace] at hmem
    simp [Broker.world] at hmem
  | subscribe hfrom hself hstore htrace hframes =>
    refine hpassed (by decide) fun name q hmem => ?_
    simp only [htrace, Broker.world, List.nil_append, List.mem_append, List.mem_singleton] at hmem
    rcases hmem with hadd | hframe
    · cases hadd
    · obtain ⟨bytes, hwrite⟩ := hframes _ hframe
      cases hwrite
  | ack hfrom hself hstore htrace =>
    refine hpassed (by decide) fun name q hmem => ?_
    rw [htrace] at hmem
    simp [Broker.world] at hmem
  | reject hfrom hself hstore htrace hreads =>
    obtain ⟨p, queue, rr, hp, hcell, -, hw⟩ := onRing_unit_eq_ok hstore
    have hlists : SameLists s.store w'.store := hw ▸ sameLists_withRing s.store p rr
    refine ⟨hconn, hm, fun _ => hlists, fun _ hother => absurd hfrom hother,
      fun _ => hself.currentQueue, fun _ => hself.currentQueueName, hevents fun name q hmem => ?_⟩
    simp only [htrace, Broker.world, List.nil_append, List.mem_append, List.mem_singleton] at hmem
    rcases hmem with hread | hremove
    · obtain ⟨method, heq, -⟩ := hreads _ hread
      cases heq
    · cases hremove

/-- In every reachable state, a handler that waits for a method dispatches a METHOD frame
as its case labels say exactly when the payload fits the buffers and the method does not
reach a missing `break`. -/
theorem dispatchesExactly_iff {guard : Broker → Act → Prop}
    (h : Reaches (Broker.step grain) guard Broker.initial s) (hc : s.conns t = some c)
    (hm : caseLabels c.machine ≠ []) (hlength : (encodeMethod method arguments).length < 2 ^ 32)
    (hframe : c.socket.Delivers
      (encodeFrame MsgFormat.method channel (encodeMethod method arguments) ++ rest)) :
    DispatchesExactly grain s t c method ↔
      (encodeMethod method arguments).length ≤ maxLine - 3 ∧ ¬ FallsThrough c.machine method := by
  have hmax : maxLine = 131073 := rfl
  obtain ⟨hdequeue, hrunning⟩ := running_of_caseLabels hm
  have hok := Broker.ok_of_reaches h
  by_cases hroom : (encodeMethod method arguments).length ≤ maxLine - 3
  · obtain ⟨w', hrun⟩ := actions_dispatch (w := s.world c) hm hframe (by omega)
      fun hack v hself hstore => hok.unsubscribe hc (by rw [hack]; rfl) hself hstore
    have hstep := step_run_of_ok hc hdequeue hrunning hrun grain
    rw [← namedState_eq_dispatch_iff]
    constructor
    · rintro ⟨s', c', hstep', hdispatched⟩
      obtain rfl := Except.ok.inj (hstep.symm.trans hstep')
      have hconn := hdispatched.conn
      rw [Broker.commit_conns_self] at hconn
      obtain rfl := Option.some.inj hconn
      exact ⟨hroom, hdispatched.machine⟩
    · rintro ⟨-, hnamed⟩
      exact ⟨_, _, hstep,
        dispatched_of_effect (effect_of_action hdequeue hrunning hrun) hnamed⟩
  · have hrun := actions_dispatch_overrun (w := s.world c) hm hframe hlength (by omega)
    have hstep := step_run_of_error hc hdequeue hrunning hrun grain
    constructor
    · rintro ⟨s', c', hstep', -⟩
      rw [hstep] at hstep'
      cases hstep'
    · exact fun hfits => absurd hfits.1 hroom

/-- A Start-Ok frame is dispatched as its case label says. -/
theorem dispatchesExactly_startOk :
    ∃ s c, Reaches (Broker.step .fine) (fun _ _ => True) Broker.initial s ∧ s.conns 0 = some c ∧
      c.machine = waitStartOk ∧
      DispatchesExactly .fine s 0 c ⟨ClassId.connection, MethodId.connectionStartOk⟩ := by
  have hobserved : (exec (Broker.step .fine) Broker.initial (session 0 (defaultAmqpHeader ++
      methodFrame ⟨ClassId.connection, MethodId.connectionStartOk⟩ []) 2)).toOption.map
        Broker.firstConn = some (some (waitStartOk,
          Socket.chunk (methodFrame ⟨ClassId.connection, MethodId.connectionStartOk⟩ []))) := by
    decide +kernel
  obtain ⟨s, hrun, hview⟩ := exec_observed hobserved
  obtain ⟨c, hc, hm, hsocket⟩ := Broker.firstConn_eq_some hview
  have hreaches := reaches_of_exec hrun
  have hdelivers : c.socket.Delivers (encodeFrame MsgFormat.method 1
      (encodeMethod ⟨ClassId.connection, MethodId.connectionStartOk⟩ []) ++ []) := by
    rw [hsocket, List.append_nil]
    exact Socket.chunk_delivers _
  have hlabels : caseLabels c.machine ≠ [] := by
    rw [hm]
    decide
  refine ⟨s, c, hreaches, hc, hm,
    (dispatchesExactly_iff hreaches hc hlabels (by decide) hdelivers).mpr ⟨by decide, ?_⟩⟩
  rintro ⟨hfunctional, -⟩
  rw [hm] at hfunctional
  cases hfunctional

/-- In WAIT_FUNCTIONAL a second Channel.Open runs `create_queue` instead of failing. -/
theorem channelOpen_declares_queue :
    ∃ s s' c c', Reaches (Broker.step .fine) (fun _ _ => True) Broker.initial s ∧
      s.conns 0 = some c ∧ c.machine = waitFunctional ∧
      c.socket.Delivers (encodeFrame MsgFormat.method 1
        (encodeMethod ⟨ClassId.channel, MethodId.channelOpen⟩ [0, 0, 1, 113])) ∧
      dispatch waitFunctional ⟨ClassId.channel, MethodId.channelOpen⟩ = fail ∧
      Broker.step .fine s (.run 0) = .ok s' ∧ s'.conns 0 = some c' ∧
      c'.machine = queueDeclareReceived ∧ s.store.queueOf [113] = none ∧
      s'.store.queueOf [113] = some 0 ∧
      ¬ DispatchesExactly .fine s 0 c ⟨ClassId.channel, MethodId.channelOpen⟩ := by
  have hobserved : (exec (Broker.step .fine) Broker.initial (session 0 (openingFrames ++
      methodFrame ⟨ClassId.channel, MethodId.channelOpen⟩ [0, 0, 1, 113]) 9)).toOption.map
        (fun s => (s.firstConn, s.store.queueOf [113])) = some (some (waitFunctional, Socket.chunk
          (methodFrame ⟨ClassId.channel, MethodId.channelOpen⟩ [0, 0, 1, 113])), none) := by
    decide +kernel
  have hobserved' : (exec (Broker.step .fine) Broker.initial (session 0 (openingFrames ++
      methodFrame ⟨ClassId.channel, MethodId.channelOpen⟩ [0, 0, 1, 113]) 9 ++
        [.run 0])).toOption.map (fun s => (s.firstConn, s.store.queueOf [113])) =
          some (some (queueDeclareReceived, []), some 0) := by
    decide +kernel
  obtain ⟨s, hrun, hview⟩ := exec_observed hobserved
  obtain ⟨s', hrun', hview'⟩ := exec_observed hobserved'
  obtain ⟨c, hc, hm, hsocket⟩ := Broker.firstConn_eq_some (congrArg Prod.fst hview)
  obtain ⟨c', hc', hm', -⟩ := Broker.firstConn_eq_some (congrArg Prod.fst hview')
  have hstep := step_of_exec hrun hrun'
  refine ⟨s, s', c, c', reaches_of_exec hrun, hc, hm, ?_, by decide, hstep, hc', hm',
    congrArg Prod.snd hview, congrArg Prod.snd hview', ?_⟩
  · rw [hsocket]
    exact Socket.chunk_delivers _
  · rintro ⟨s'', c'', hstep', hdispatched⟩
    obtain rfl := Except.ok.inj (hstep.symm.trans hstep')
    obtain rfl := Option.some.inj (hc'.symm.trans hdispatched.conn)
    have hfail := hdispatched.machine
    rw [hm, hm'] at hfail
    revert hfail
    decide

end AmqpBroker
