import AmqpBroker.Model.AmqpMessage

/-!
# The state machine of a connection

The states and the handler of each. A handler reads at most one frame, makes at most one
call on the shared memory, sends its answer and names the next state. The consume
handler's call is the one that can block.
-/

namespace AmqpBroker

open Foundations

/-- `machine_state`. -/
inductive MachineState where
  | wait
  | headerReceived
  | waitStartOk
  | startOkReceived
  | waitTuneOk
  | waitOpenConnection
  | openConnectionReceived
  | closeConnectionReceived
  | waitOpenChannel
  | openChannelReceived
  | closeChannelReceived
  | waitFunctional
  | queueDeclareReceived
  | basicPublishReceived
  | waitPublishContentHeader
  | waitPublishContent
  | basicConsumeReceived
  | waitValueDequeue
  | valueDequeueReceived
  | waitConsumeAck
  | finished
  | fail
  deriving DecidableEq, Repr

open MachineState

/-- `sprintf(cs->error_msg, "Unexpected class %d method %d", ...)`. -/
def setUnexpected (header : MethodHeader) : Action Unit :=
  setError s!"Unexpected class {header.classId} method {header.methodId}"

/-- `action_wait`. -/
def actionWait : Action MachineState := do
  if ← readProtocolHeader then pure headerReceived
  else do
    setError "Error reading protocol header"
    pure fail

/-- `action_header_received`. -/
def actionHeaderReceived : Action MachineState := do
  sendMethod ⟨ClassId.connection, MethodId.connectionStart⟩ 0 connectionStartArgs
  pure waitStartOk

/-- `action_wait_start_ok`; a method that cannot be read leaves the error message alone. -/
def actionWaitStartOk : Action MachineState := do
  match ← readMessageHeader with
  | none => do
    setError "Error reading protocol header"
    pure fail
  | some messageHeader => do
    match ← readMethod (toInt messageHeader.length) with
    | none => pure fail
    | some method =>
      if method.classId ≠ ClassId.connection ∨ method.methodId ≠ MethodId.connectionStartOk then do
        setUnexpected method
        pure fail
      else pure startOkReceived

/-- `action_start_ok_received`. -/
def actionStartOkReceived : Action MachineState := do
  sendMethod ⟨ClassId.connection, MethodId.connectionTune⟩ 0 connectionTuneArgs
  pure waitTuneOk

/-- Read the header and the method of a frame, or name the reader that failed. -/
def readFrame : Action (Option MethodHeader) := do
  match ← readMessageHeader with
  | none => do
    setError "Error reading message header"
    pure none
  | some messageHeader => do
    match ← readMethod (toInt messageHeader.length) with
    | none => do
      setError "Error reading method"
      pure none
    | some method => pure (some method)

/-- The two handlers that wait for one method of the handshake. -/
def awaitMethod (expected : MethodHeader) (message : String) (next : MachineState) :
    Action MachineState := do
  match ← readFrame with
  | none => pure fail
  | some method =>
    if method.classId ≠ expected.classId ∨ method.methodId ≠ expected.methodId then do
      setError message
      pure fail
    else pure next

/-- `action_wait_tune_ok`. -/
def actionWaitTuneOk : Action MachineState :=
  awaitMethod ⟨ClassId.connection, MethodId.connectionTuneOk⟩ "Did not receive tune ok"
    waitOpenConnection

/-- `action_wait_open_connection`. -/
def actionWaitOpenConnection : Action MachineState :=
  awaitMethod ⟨ClassId.connection, MethodId.connectionOpen⟩ "Did not receive open"
    openConnectionReceived

/-- `action_open_connection_received`. -/
def actionOpenConnectionReceived : Action MachineState := do
  sendMethod ⟨ClassId.connection, MethodId.connectionOpenOk⟩ 0 connectionOpenOkArgs
  pure waitOpenChannel

/-- `action_close_connection_received`. -/
def actionCloseConnectionReceived : Action MachineState := do
  sendMethod ⟨ClassId.connection, MethodId.connectionCloseOk⟩ 0 argsEmpty
  pure finished

/-- The tail of the dispatching handlers: a method without a case is an error. -/
def finishDispatch (method : MethodHeader) (next : MachineState) : Action MachineState := do
  if next = fail then setUnexpected method
  pure next

/-- The switch of `action_wait_open_channel`. -/
def openChannelSwitch (method : MethodHeader) : MachineState :=
  if method.classId = ClassId.channel then
    if method.methodId = MethodId.channelOpen then openChannelReceived else fail
  else if method.classId = ClassId.connection then
    if method.methodId = MethodId.connectionClose then closeConnectionReceived else fail
  else fail

/-- `action_wait_open_channel`. -/
def actionWaitOpenChannel : Action MachineState := do
  match ← readFrame with
  | none => pure fail
  | some method => finishDispatch method (openChannelSwitch method)

/-- `action_open_channel_received`. -/
def actionOpenChannelReceived : Action MachineState := do
  sendMethod ⟨ClassId.channel, MethodId.channelOpenOk⟩ 1 channelOpenOkArgs
  pure waitFunctional

/-- `action_close_channel_received`. -/
def actionCloseChannelReceived : Action MachineState := do
  sendMethod ⟨ClassId.channel, MethodId.channelCloseOk⟩ 1 argsEmpty
  pure waitOpenChannel

/-- `create_queue(cs->q_pool, cs->current_queue_name)` into `current_queue`. -/
def declareQueue : Action Unit := do
  let name ← parseQueueDeclareArgs
  let q ← onStore (createQueue name)
  record (.createQueue name q)
  assign fun cs => { cs with currentQueue := some q }

/-- `get_queue(cs->q_pool, cs->current_queue_name)` into `current_queue`. -/
def selectQueue (name : List UInt8) : Action Unit := do
  let q ← onStore (getQueue name)
  record (.getQueue name q)
  assign fun cs => { cs with currentQueue := q }

/-- The switch of `action_wait_functional`.

`case CHANNEL` and `case CONNECTION` have no `break` after their inner switches: control
falls from the first into the second and from there into `case QUEUE`. -/
def functionalSwitch (method : MethodHeader) : Action MachineState := do
  let inChannel : Prop := method.classId = ClassId.channel
  let inConnection : Prop := inChannel ∨ method.classId = ClassId.connection
  let inQueue : Prop := inConnection ∨ method.classId = ClassId.queue
  let next := fail
  let next :=
    if inChannel ∧ method.methodId = MethodId.channelClose then closeChannelReceived else next
  let next :=
    if inConnection ∧ method.methodId = MethodId.connectionClose then closeConnectionReceived
    else next
  if inQueue then
    if method.methodId = MethodId.queueDeclare then do
      declareQueue
      pure queueDeclareReceived
    else pure next
  else if method.classId = ClassId.basic then
    if method.methodId = MethodId.basicPublish then do
      selectQueue (← parseBasicPublishArgs)
      pure basicPublishReceived
    else if method.methodId = MethodId.basicConsume then do
      selectQueue (← parseBasicConsumeArgs)
      pure basicConsumeReceived
    else pure next
  else pure next

/-- `action_wait_functional`. -/
def actionWaitFunctional : Action MachineState := do
  match ← readFrame with
  | none => pure fail
  | some method => finishDispatch method (← functionalSwitch method)

/-- `action_queue_declare_received`. -/
def actionQueueDeclareReceived : Action MachineState := do
  let size ← onStore (qSize (← field (·.currentQueue)))
  match (← field (·.currentQueueName)).cstring maxQueueName 0 with
  | none => Program.stop .bufferRange
  | some name => do
    sendQueueDeclareOk 1 name (UInt32.ofInt size) 0
    pure waitFunctional

/-- `action_basic_publish_received`. -/
def actionBasicPublishReceived : Action MachineState := pure waitPublishContentHeader

/-- `action_wait_publish_content_header`: the parsed header is dropped, even when it is NULL. -/
def actionWaitPublishContentHeader : Action MachineState := do
  match ← readMessageHeader with
  | none => do
    setError "Error reading message header"
    pure fail
  | some messageHeader => do
    let _ ← readContentHeader (toInt messageHeader.length)
    pure waitPublishContent

/-- The switch on the method in `action_wait_publish_content`. -/
def publishContentSwitch (method : MethodHeader) : Action MachineState := do
  if method.classId = ClassId.channel then
    if method.methodId = MethodId.channelClose then pure closeChannelReceived else pure fail
  else if method.classId = ClassId.basic then
    if method.methodId = MethodId.basicPublish then do
      selectQueue (← parseBasicPublishArgs)
      pure basicPublishReceived
    else pure fail
  else if method.classId = ClassId.connection then
    if method.methodId = MethodId.connectionClose then pure closeConnectionReceived else pure fail
  else pure fail

/-- `q_enqueue(cs->current_queue, body)` with the body in `parsed`. -/
def enqueueBody : Action Unit := do
  let body ← stringOf (← field (·.parsed))
  let q ← field (·.currentQueue)
  let node ← onStore (qEnqueue q body)
  record (.qEnqueue q node body)

/-- `action_wait_publish_content`. -/
def actionWaitPublishContent : Action MachineState := do
  match ← readMessageHeader with
  | none => do
    setError "Error reading message header"
    pure fail
  | some messageHeader =>
    if messageHeader.msgType = MsgFormat.method then do
      match ← readMethod (toInt messageHeader.length) with
      | none => do
        setError "Error reading method"
        pure fail
      | some method => finishDispatch method (← publishContentSwitch method)
    else if messageHeader.msgType = MsgFormat.body then do
      readBody (toInt messageHeader.length)
      enqueueBody
      pure waitPublishContent
    else do
      setError s!"Unexpected message type {messageHeader.msgType}"
      pure fail

/-- `action_basic_consume_received`. -/
def actionBasicConsumeReceived : Action MachineState := do
  let q ← field (·.currentQueue)
  onStore (qAddSubscriber q (← field (·.threadId)))
  record (.qAddSubscriber q)
  sendMethod ⟨ClassId.basic, MethodId.basicConsumeOk⟩ 1
    (basicConsumeOkArgs (← field (·.pastConsumeOkArgs)))
  pure waitValueDequeue

/-- `q_dequeue(q, cs->recvline)`: the string is copied with its terminator. -/
def dequeueInto (q : Option ℕ) : Action Unit := do
  let taken ← onStore (qDequeue q)
  record (.qDequeue q taken)
  match taken with
  | none => pure ()
  | some (_, body) => do
    checkRange 0 (body.length + 1)
    assign fun cs => { cs with recvline := cs.recvline.write 0 (body ++ [0]) }

/-- `q_dequeue_rr(q, thread_id, cs->recvline)` of a thread that nobody disturbs: it returns
when it has the turn and the queue has a message, and is blocked otherwise. -/
def qDequeueRr (q : Option ℕ) (threadId : ℤ) : Action Unit := do
  if ← onStore (testRound q threadId) then
    if ← onStore (testMsg q) then do
      dequeueInto q
      let _ ← onStore (qNextThread q)
    else Program.stop .blocked
  else Program.stop .blocked

/-- `action_wait_value_dequeue`. -/
def actionWaitValueDequeue : Action MachineState := do
  qDequeueRr (← field (·.currentQueue)) (← field (·.threadId))
  pure valueDequeueReceived

/-- `action_value_dequeue_received`. -/
def actionValueDequeueReceived : Action MachineState := do
  let body ← stringOf (← field (·.recvline))
  sendMethod ⟨ClassId.basic, MethodId.basicDeliver⟩ 1 basicDeliverArgs
  sendContentHeader 1
    { classId := ClassId.basic, weight := 0, bodySize := UInt64.ofNat body.length,
      propertyFlags := 0x1000 }
    contentHeaderProperties
  sendBody 1 body
  pure waitConsumeAck

/-- `remove_subscriber(&cs->current_queue->rr, cs->thread_id)`. -/
def unsubscribe : Action Unit := do
  let q ← field (·.currentQueue)
  onStore (qRemoveSubscriber q (← field (·.threadId)))
  record (.removeSubscriber q)

/-- `action_wait_consume_ack`. -/
def actionWaitConsumeAck : Action MachineState := do
  match ← readMessageHeader with
  | none => do
    unsubscribe
    setError "Error reading message header"
    pure fail
  | some messageHeader => do
    match ← readMethod (toInt messageHeader.length) with
    | none => do
      unsubscribe
      setError "Error reading method"
      pure fail
    | some method =>
      if method.classId ≠ ClassId.basic ∨ method.methodId ≠ MethodId.basicAck then do
        unsubscribe
        setUnexpected method
        pure fail
      else pure waitValueDequeue

/-- `action_noop`. -/
def actionNoop : Action MachineState := pure fail

/-- `actions`. -/
def actions : MachineState → Action MachineState
  | wait => actionWait
  | headerReceived => actionHeaderReceived
  | waitStartOk => actionWaitStartOk
  | startOkReceived => actionStartOkReceived
  | waitTuneOk => actionWaitTuneOk
  | waitOpenConnection => actionWaitOpenConnection
  | openConnectionReceived => actionOpenConnectionReceived
  | closeConnectionReceived => actionCloseConnectionReceived
  | waitOpenChannel => actionWaitOpenChannel
  | openChannelReceived => actionOpenChannelReceived
  | closeChannelReceived => actionCloseChannelReceived
  | waitFunctional => actionWaitFunctional
  | queueDeclareReceived => actionQueueDeclareReceived
  | basicPublishReceived => actionBasicPublishReceived
  | waitPublishContentHeader => actionWaitPublishContentHeader
  | waitPublishContent => actionWaitPublishContent
  | basicConsumeReceived => actionBasicConsumeReceived
  | waitValueDequeue => actionWaitValueDequeue
  | valueDequeueReceived => actionValueDequeueReceived
  | waitConsumeAck => actionWaitConsumeAck
  | finished => actionNoop
  | fail => actionNoop

/-- The `connection_state` that `state_machine_main` builds; the unnamed fields are zeroed. -/
def ConnectionState.initial (threadId : ℤ) (past : PastConsumeOkArgs := {}) : ConnectionState :=
  { threadId := threadId
    currentQueue := none
    recvline := fun _ => 0
    sendline := fun _ => 0
    parsed := fun _ => 0
    currentQueueName := fun _ => 0
    errorMsg := "Unknown"
    pastConsumeOkArgs := past }

end AmqpBroker
