import AmqpBroker.Model.Broker
import AmqpBroker.Verification.Quiet

/-!
# Everything a step can do

One statement for each way a thread can change what other threads see: a handler either
keeps to itself, or makes exactly one call on the shared memory with the arguments given
here. Every invariant of the broker is a case analysis over these effects.
-/

namespace AmqpBroker

open Foundations Program

/-- A read method or a written frame. -/
def Event.IsQuiet (event : Event) : Prop :=
  (∃ method, event = .readMethod method) ∨ ∃ bytes, event = .write bytes

/-- The acknowledgement method. -/
def ackMethod : MethodHeader := ⟨ClassId.basic, MethodId.basicAck⟩

namespace MachineState

/-- The successors a handler can name without touching the shared memory, other than by
reading an acknowledgement. -/
def quietNext : MachineState → List MachineState
  | wait => [headerReceived, fail]
  | headerReceived => [waitStartOk]
  | waitStartOk => [startOkReceived, fail]
  | startOkReceived => [waitTuneOk]
  | waitTuneOk => [waitOpenConnection, fail]
  | waitOpenConnection => [openConnectionReceived, fail]
  | openConnectionReceived => [waitOpenChannel]
  | closeConnectionReceived => [finished]
  | waitOpenChannel => [openChannelReceived, closeConnectionReceived, fail]
  | openChannelReceived => [waitFunctional]
  | closeChannelReceived => [waitOpenChannel]
  | waitFunctional => [closeChannelReceived, closeConnectionReceived, fail]
  | queueDeclareReceived => [waitFunctional]
  | basicPublishReceived => [waitPublishContentHeader]
  | waitPublishContentHeader => [waitPublishContent, fail]
  | waitPublishContent => [closeChannelReceived, closeConnectionReceived, fail]
  | valueDequeueReceived => [waitConsumeAck]
  | _ => []

/-- The states in which the connection is linked in the ring of its queue. -/
def subscribed : MachineState → Bool
  | waitValueDequeue => true
  | valueDequeueReceived => true
  | waitConsumeAck => true
  | _ => false

/-- The states after an accepted Basic.Consume. -/
def consuming : MachineState → Bool
  | basicConsumeReceived => true
  | m => m.subscribed

/-- The states after an accepted Basic.Publish. -/
def publishing : MachineState → Bool
  | basicPublishReceived => true
  | waitPublishContentHeader => true
  | waitPublishContent => true
  | _ => false

/-- The states whose handlers use the chosen queue, now or after the next frame. -/
def usesQueue (m : MachineState) : Bool := m = queueDeclareReceived || m.publishing || m.consuming

end MachineState

open MachineState

/-- The thread, its queue and the name of the queue are the same. -/
structure SameSelf (w w' : World) : Prop where
  threadId : w'.cs.threadId = w.cs.threadId
  currentQueue : w'.cs.currentQueue = w.cs.currentQueue
  currentQueueName : w'.cs.currentQueueName = w.cs.currentQueueName

/-- These events were recorded, after some quiet ones. -/
def Recorded (w w' : World) (events : List Event) : Prop :=
  ∃ reads, w'.trace = w.trace ++ reads ++ events ∧ ∀ event ∈ reads, event.IsQuiet

/-- The thread has chosen a queue by this name. -/
structure Selects (w w' : World) (name : List UInt8) (q : Option ℕ) : Prop where
  threadId : w'.cs.threadId = w.cs.threadId
  currentQueue : w'.cs.currentQueue = q
  named : w'.cs.currentQueueName.cstring maxQueueName 0 = some name

/-- What a handler other than the blocking one can do. -/
inductive Effect (m : MachineState) (w w' : World) : MachineState → Prop
  | quiet {m' : MachineState} : m' ∈ quietNext m → Grows Event.IsQuiet w w' → Effect m w w' m'
  | declare {name : List UInt8} {q : ℕ} : m = waitFunctional → Selects w w' name (some q) →
      createQueue name w.store = .ok (q, w'.store) →
      Recorded w w' [.parseQueueDeclareArgs name, .createQueue name q] →
      Effect m w w' queueDeclareReceived
  | publish {name : List UInt8} {q : Option ℕ} : m = waitFunctional ∨ m = waitPublishContent →
      Selects w w' name q → getQueue name w.store = .ok (q, w'.store) →
      Recorded w w' [.parseBasicPublishArgs name, .getQueue name q] →
      Effect m w w' basicPublishReceived
  | consume {name : List UInt8} {q : Option ℕ} : m = waitFunctional → Selects w w' name q →
      getQueue name w.store = .ok (q, w'.store) →
      Recorded w w' [.parseBasicConsumeArgs name, .getQueue name q] →
      Effect m w w' basicConsumeReceived
  | enqueue {node : ℕ} {body : List UInt8} : m = waitPublishContent → SameSelf w w' →
      qEnqueue w.cs.currentQueue body w.store = .ok (node, w'.store) →
      w'.trace = w.trace ++ [.qEnqueue w.cs.currentQueue node body] →
      Effect m w w' waitPublishContent
  | subscribe {frames : List Event} : m = basicConsumeReceived → SameSelf w w' →
      qAddSubscriber w.cs.currentQueue w.cs.threadId w.store = .ok ((), w'.store) →
      w'.trace = w.trace ++ [.qAddSubscriber w.cs.currentQueue] ++ frames →
      (∀ event ∈ frames, ∃ bytes, event = .write bytes) → Effect m w w' waitValueDequeue
  | ack : m = waitConsumeAck → SameSelf w w' → w'.store = w.store →
      w'.trace = w.trace ++ [.readMethod ackMethod] → Effect m w w' waitValueDequeue
  | reject {reads : List Event} : m = waitConsumeAck → SameSelf w w' →
      qRemoveSubscriber w.cs.currentQueue w.cs.threadId w.store = .ok ((), w'.store) →
      w'.trace = w.trace ++ reads ++ [.removeSubscriber w.cs.currentQueue] →
      (∀ event ∈ reads, ∃ method, event = .readMethod method ∧ method ≠ ackMethod) →
      Effect m w w' fail

variable {m m' : MachineState} {w w' w'' : World}

/-- The handlers that do not block are those of the other states. -/
theorem Effect.ne_waitValueDequeue (h : Effect m w w' m') : m ≠ waitValueDequeue := by
  intro hm
  rw [hm] at h
  cases h with
  | quiet hedge _ => cases hedge
  | publish hfrom _ _ _ => rcases hfrom with hfrom | hfrom <;> cases hfrom
  | declare hfrom _ _ _ | consume hfrom _ _ _ | enqueue hfrom _ _ _ | subscribe hfrom _ _ _ _
  | ack hfrom _ _ _ | reject hfrom _ _ _ _ => cases hfrom

/-- A growing trace is that of the same connection. -/
theorem Grows.sameSelf {P : Event → Prop} (h : Grows P w w') : SameSelf w w' :=
  ⟨h.threadId, h.currentQueue, h.currentQueueName⟩

/-- A step without any call is quiet. -/
theorem Silent.quiet (h : Silent w w') : Grows Event.IsQuiet w w' := h.mono fun _ => False.elim

/-- A step that only writes is quiet. -/
theorem Writes.quiet (h : Writes w w') : Grows Event.IsQuiet w w' := h.mono fun _ => Or.inr

/-- Reading a method is quiet, whether it succeeds or not. -/
theorem MethodOutcome.quiet {result : Option MethodHeader} (h : MethodOutcome w result w') :
    Grows Event.IsQuiet w w' := by
  cases result with
  | none => exact Silent.quiet h
  | some method =>
    obtain ⟨v, hv, rfl⟩ := h
    exact hv.quiet.trans ⟨rfl, rfl, rfl, rfl, [.readMethod method], rfl, fun event hevent =>
      Or.inl ⟨method, List.mem_singleton.mp hevent⟩⟩

/-- Quiet steps may come before the recorded calls. -/
theorem Recorded.before {events : List Event} (hbefore : Grows Event.IsQuiet w w')
    (h : Recorded w' w'' events) : Recorded w w'' events := by
  obtain ⟨first, hfirst, hquiet⟩ := hbefore.trace
  obtain ⟨reads, htrace, hreads⟩ := h
  refine ⟨first ++ reads, by rw [htrace, hfirst]; simp, fun event hevent => ?_⟩
  rcases List.mem_append.mp hevent with hmem | hmem
  · exact hquiet event hmem
  · exact hreads event hmem

/-- Silent steps may come after the recorded calls. -/
theorem Recorded.after {events : List Event} (h : Recorded w w' events) (hafter : Silent w' w'') :
    Recorded w w'' events := by
  obtain ⟨reads, htrace, hreads⟩ := h
  exact ⟨reads, hafter.trace_eq.trans htrace, hreads⟩

/-- What holds of quiet events and of the recorded ones holds of a whole step. -/
theorem Recorded.forall {P : Event → Prop} {events : List Event} (h : Recorded w w' events)
    (htrace : w.trace = []) (hquiet : ∀ event : Event, event.IsQuiet → P event)
    (hevents : ∀ event ∈ events, P event) : ∀ event ∈ w'.trace, P event := by
  obtain ⟨reads, hrecorded, hreads⟩ := h
  intro event hevent
  rw [hrecorded, htrace, List.nil_append] at hevent
  rcases List.mem_append.mp hevent with hmem | hmem
  · exact hquiet event (hreads event hmem)
  · exact hevents event hmem

/-- Reading a frame first does not change the effect of a handler that dispatches it. -/
theorem Effect.before (hm : m = waitFunctional ∨ m = waitPublishContent)
    (hbefore : Grows Event.IsQuiet w w') (hself : m' ≠ waitPublishContent)
    (h : Effect m w' w'' m') : Effect m w w'' m' := by
  cases h with
  | quiet hedge hgrows => exact .quiet hedge (hbefore.trans hgrows)
  | declare hfrom hselects hstore htrace =>
    exact .declare hfrom ⟨hselects.threadId.trans hbefore.threadId, hselects.currentQueue,
      hselects.named⟩ (hbefore.store ▸ hstore) (htrace.before hbefore)
  | publish hfrom hselects hstore htrace =>
    exact .publish hfrom ⟨hselects.threadId.trans hbefore.threadId, hselects.currentQueue,
      hselects.named⟩ (hbefore.store ▸ hstore) (htrace.before hbefore)
  | consume hfrom hselects hstore htrace =>
    exact .consume hfrom ⟨hselects.threadId.trans hbefore.threadId, hselects.currentQueue,
      hselects.named⟩ (hbefore.store ▸ hstore) (htrace.before hbefore)
  | enqueue => exact absurd rfl hself
  | subscribe hfrom => simp [hfrom] at hm
  | ack hfrom => simp [hfrom] at hm
  | reject hfrom => simp [hfrom] at hm

/-- Setting the error message last does not change the effect of a handler. -/
theorem Effect.after (hm : m = waitFunctional ∨ m = waitPublishContent)
    (hself : m' ≠ waitPublishContent) (h : Effect m w w' m') (hafter : Silent w' w'') :
    Effect m w w'' m' := by
  cases h with
  | quiet hedge hgrows => exact .quiet hedge (hgrows.trans hafter.quiet)
  | declare hfrom hselects hstore htrace =>
    exact .declare hfrom ⟨hafter.threadId.trans hselects.threadId,
      hafter.currentQueue.trans hselects.currentQueue, hafter.currentQueueName ▸ hselects.named⟩
      (hafter.store ▸ hstore) (htrace.after hafter)
  | publish hfrom hselects hstore htrace =>
    exact .publish hfrom ⟨hafter.threadId.trans hselects.threadId,
      hafter.currentQueue.trans hselects.currentQueue, hafter.currentQueueName ▸ hselects.named⟩
      (hafter.store ▸ hstore) (htrace.after hafter)
  | consume hfrom hselects hstore htrace =>
    exact .consume hfrom ⟨hafter.threadId.trans hselects.threadId,
      hafter.currentQueue.trans hselects.currentQueue, hafter.currentQueueName ▸ hselects.named⟩
      (hafter.store ▸ hstore) (htrace.after hafter)
  | enqueue => exact absurd rfl hself
  | subscribe hfrom => simp [hfrom] at hm
  | ack hfrom => simp [hfrom] at hm
  | reject hfrom => simp [hfrom] at hm

/-- Code on the shared memory changes nothing else. -/
theorem onStore_eq_ok {α : Type} {x : Shared α} {a : α} (h : onStore x w = .ok (a, w')) :
    x w.store = .ok (a, w'.store) ∧ w' = { w with store := w'.store } := by
  unfold onStore at h
  split at h
  · rename_i b store heq
    cases h
    exact ⟨heq, rfl⟩
  · cases h

/-- The end of the argument parsers: only the queue name changes, and it holds the result. -/
theorem storeQueueName_eq_ok {bytes name : List UInt8} (h : storeQueueName bytes w = .ok (name, w')) :
    ∃ queueName, w' = { w with cs := { w.cs with currentQueueName := queueName } } ∧
      queueName.cstring maxQueueName 0 = some name := by
  obtain ⟨_, w₁, hassign, h⟩ := bind_eq_ok.mp h
  cases hassign
  obtain ⟨queueName, w₂, hfield, h⟩ := bind_eq_ok.mp h
  cases hfield
  cases hstring : ((w.cs.currentQueueName.write 0 bytes).write bytes.length [0]).cstring
      maxQueueName 0 with
  | none =>
    simp only [hstring] at h
    cases h
  | some string =>
    simp only [hstring] at h
    cases h
    exact ⟨_, rfl, hstring⟩

/-- The queue name of Queue.Declare is a string of `queue_name`. -/
theorem parseQueueDeclareArgs_eq_ok {name : List UInt8}
    (h : parseQueueDeclareArgs w = .ok (name, w')) :
    ∃ queueName, queueName.cstring maxQueueName 0 = some name ∧
      w' = { w with
        cs := { w.cs with currentQueueName := queueName }
        trace := w.trace ++ [.parseQueueDeclareArgs name] } := by
  obtain ⟨args, w₁, hargs, h⟩ := bind_eq_ok.mp h
  cases hargs
  obtain ⟨name', w₂, hstore, h⟩ := bind_eq_ok.mp h
  obtain ⟨queueName, rfl, hname⟩ := storeQueueName_eq_ok hstore
  cases h
  exact ⟨queueName, hname, rfl⟩

/-- The routing key of Basic.Publish is a string of `queue_name`. -/
theorem parseBasicPublishArgs_eq_ok {name : List UInt8}
    (h : parseBasicPublishArgs w = .ok (name, w')) :
    ∃ queueName, queueName.cstring maxQueueName 0 = some name ∧
      w' = { w with
        cs := { w.cs with currentQueueName := queueName }
        trace := w.trace ++ [.parseBasicPublishArgs name] } := by
  obtain ⟨args, w₁, hargs, h⟩ := bind_eq_ok.mp h
  cases hargs
  obtain ⟨name', w₂, hstore, h⟩ := bind_eq_ok.mp h
  obtain ⟨queueName, rfl, hname⟩ := storeQueueName_eq_ok hstore
  cases h
  exact ⟨queueName, hname, rfl⟩

/-- The queue name of Basic.Consume is a string of `queue_name`. -/
theorem parseBasicConsumeArgs_eq_ok {name : List UInt8}
    (h : parseBasicConsumeArgs w = .ok (name, w')) :
    ∃ queueName, queueName.cstring maxQueueName 0 = some name ∧
      w' = { w with
        cs := { w.cs with currentQueueName := queueName }
        trace := w.trace ++ [.parseBasicConsumeArgs name] } := by
  obtain ⟨args, w₁, hargs, h⟩ := bind_eq_ok.mp h
  cases hargs
  obtain ⟨name', w₂, hstore, h⟩ := bind_eq_ok.mp h
  obtain ⟨queueName, rfl, hname⟩ := storeQueueName_eq_ok hstore
  cases h
  exact ⟨queueName, hname, rfl⟩

/-- `get_queue` is called once, and its queue becomes the current one. -/
theorem selectQueue_eq_ok {name : List UInt8} (h : selectQueue name w = .ok ((), w')) :
    ∃ q, getQueue name w.store = .ok (q, w'.store) ∧
      w' = { w with
        cs := { w.cs with currentQueue := q }
        store := w'.store
        trace := w.trace ++ [.getQueue name q] } := by
  obtain ⟨q, w₁, hstore, h⟩ := bind_eq_ok.mp h
  obtain ⟨hget, hw₁⟩ := onStore_eq_ok hstore
  obtain ⟨_, w₂, hrecord, h⟩ := bind_eq_ok.mp h
  cases hrecord
  cases h
  refine ⟨q, hget, ?_⟩
  rw [hw₁]

/-- `create_queue` is called once, with the name that was parsed. -/
theorem declareQueue_eq_ok (h : declareQueue w = .ok ((), w')) :
    ∃ name q queueName, queueName.cstring maxQueueName 0 = some name ∧
      createQueue name w.store = .ok (q, w'.store) ∧
      w' = { w with
        cs := { w.cs with currentQueueName := queueName, currentQueue := some q }
        store := w'.store
        trace := w.trace ++ [.parseQueueDeclareArgs name, .createQueue name q] } := by
  obtain ⟨name, w₁, hparse, h⟩ := bind_eq_ok.mp h
  obtain ⟨queueName, hname, rfl⟩ := parseQueueDeclareArgs_eq_ok hparse
  obtain ⟨q, w₂, hstore, h⟩ := bind_eq_ok.mp h
  obtain ⟨hcreate, hw₂⟩ := onStore_eq_ok hstore
  obtain ⟨_, w₃, hrecord, h⟩ := bind_eq_ok.mp h
  cases hrecord
  cases h
  refine ⟨name, q, queueName, hname, hcreate, ?_⟩
  rw [hw₂]
  simp

/-- A handler that only sends names one state. -/
theorem send_result {x : Action Unit} {next : MachineState} (hx : Keeps Writes x)
    (h : (do x; pure next : Action MachineState) w = .ok (m', w')) :
    m' = next ∧ Grows Event.IsQuiet w w' := by
  obtain ⟨_, w₁, hsend, h⟩ := bind_eq_ok.mp h
  cases h
  exact ⟨rfl, Writes.quiet (hx _ _ _ hsend)⟩

/-- `send_method` only writes. -/
theorem keeps_sendMethod (header : MethodHeader) (channel : UInt16) (arguments : List UInt8) :
    Keeps Writes (sendMethod header channel arguments) := keeps_sendFrame _

/-- `send_content_header` only writes. -/
theorem keeps_sendContentHeader (channel : UInt16) (header : ContentHeader)
    (properties : List UInt8) : Keeps Writes (sendContentHeader channel header properties) :=
  keeps_sendFrame _

/-- `send_body` only writes. -/
theorem keeps_sendBody (channel : UInt16) (payload : List UInt8) :
    Keeps Writes (sendBody channel payload) := keeps_sendFrame _

/-- `send_queue_declare_ok` only writes. -/
theorem keeps_sendQueueDeclareOk (channel : UInt16) (queueName : List UInt8)
    (messageCount consumerCount : UInt32) :
    Keeps Writes (sendQueueDeclareOk channel queueName messageCount consumerCount) :=
  Keeps.bind (keeps_onLocal _) fun _ => keeps_sendFrame _

/-- Where WAIT leads to. -/
theorem actionWait_result (h : actionWait w = .ok (m', w')) :
    m' ∈ [headerReceived, fail] ∧ Grows Event.IsQuiet w w' := by
  obtain ⟨good, w₁, hread, h⟩ := bind_eq_ok.mp h
  have hquiet := keeps_readProtocolHeader (P := Event.IsQuiet) _ _ _ hread
  cases good with
  | true =>
    cases h
    exact ⟨by simp, hquiet⟩
  | false =>
    cases h
    exact ⟨by simp, hquiet.trans ⟨rfl, rfl, rfl, rfl, [], by simp, by simp⟩⟩

/-- Where WAIT_START_OK leads to. -/
theorem actionWaitStartOk_result (h : actionWaitStartOk w = .ok (m', w')) :
    m' ∈ [startOkReceived, fail] ∧ Grows Event.IsQuiet w w' := by
  obtain ⟨messageHeader, w₁, hread, h⟩ := bind_eq_ok.mp h
  have hquiet := keeps_readMessageHeader (P := Event.IsQuiet) _ _ _ hread
  cases messageHeader with
  | none =>
    cases h
    exact ⟨by simp, hquiet.trans ⟨rfl, rfl, rfl, rfl, [], by simp, by simp⟩⟩
  | some messageHeader =>
    obtain ⟨method, w₂, hmethod, h⟩ := bind_eq_ok.mp h
    have hread₂ := hquiet.trans (readMethod_outcome hmethod).quiet
    cases method with
    | none =>
      cases h
      exact ⟨by simp, hread₂⟩
    | some method =>
      simp only at h
      split at h
      · cases h
        exact ⟨by simp, hread₂.trans ⟨rfl, rfl, rfl, rfl, [], by simp, by simp⟩⟩
      · cases h
        exact ⟨by simp, hread₂⟩

/-- A handler that waits for one method goes on with it or fails. -/
theorem awaitMethod_result {expected : MethodHeader} {message : String} {next : MachineState}
    (h : awaitMethod expected message next w = .ok (m', w')) :
    m' ∈ [next, fail] ∧ Grows Event.IsQuiet w w' := by
  obtain ⟨method, w₁, hread, h⟩ := bind_eq_ok.mp h
  have hquiet := (readFrame_outcome hread).quiet
  cases method with
  | none =>
    cases h
    exact ⟨by simp, hquiet⟩
  | some method =>
    simp only at h
    split at h
    · cases h
      exact ⟨by simp, hquiet.trans ⟨rfl, rfl, rfl, rfl, [], by simp, by simp⟩⟩
    · cases h
      exact ⟨by simp, hquiet⟩

/-- Where the switch of WAIT_OPEN_CHANNEL leads to. -/
theorem openChannelSwitch_mem (method : MethodHeader) :
    openChannelSwitch method ∈ [openChannelReceived, closeConnectionReceived, fail] := by
  unfold openChannelSwitch
  split_ifs <;> simp

/-- Where WAIT_OPEN_CHANNEL leads to. -/
theorem actionWaitOpenChannel_result (h : actionWaitOpenChannel w = .ok (m', w')) :
    m' ∈ [openChannelReceived, closeConnectionReceived, fail] ∧ Grows Event.IsQuiet w w' := by
  obtain ⟨method, w₁, hread, h⟩ := bind_eq_ok.mp h
  have hquiet := (readFrame_outcome hread).quiet
  cases method with
  | none =>
    cases h
    exact ⟨by simp, hquiet⟩
  | some method =>
    obtain ⟨rfl, hsilent⟩ := finishDispatch_result h
    exact ⟨openChannelSwitch_mem method, hquiet.trans hsilent.quiet⟩

/-- Where QUEUE_DECLARE_RECEIVED leads to. -/
theorem actionQueueDeclareReceived_result (h : actionQueueDeclareReceived w = .ok (m', w')) :
    m' = waitFunctional ∧ Grows Event.IsQuiet w w' := by
  obtain ⟨q, w₁, hq, h⟩ := bind_eq_ok.mp h
  cases hq
  obtain ⟨size, w₂, hsize, h⟩ := bind_eq_ok.mp h
  obtain ⟨hread, hw₂⟩ := onStore_eq_ok hsize
  have hstore : w₂.store = w.store := by
    obtain ⟨⟨p, queue⟩, store, hderef, hpure⟩ := bind_eq_ok.mp hread
    have hsame : store = w.store := by
      unfold derefQueue at hderef
      split at hderef
      · cases hderef
      · split at hderef
        · cases hderef
        · cases hderef
          rfl
    cases hpure
    exact hsame
  have hw : w₂ = w := by rw [hw₂, hstore]
  rw [hw] at h
  obtain ⟨queueName, w₃, hname, h⟩ := bind_eq_ok.mp h
  cases hname
  cases hstring : w.cs.currentQueueName.cstring maxQueueName 0 with
  | none =>
    simp only [hstring] at h
    cases h
  | some name =>
    simp only [hstring] at h
    exact send_result (keeps_sendQueueDeclareOk _ _ _ _) h

/-- Where WAIT_PUBLISH_CONTENT_HEADER leads to. -/
theorem actionWaitPublishContentHeader_result
    (h : actionWaitPublishContentHeader w = .ok (m', w')) :
    m' ∈ [waitPublishContent, fail] ∧ Grows Event.IsQuiet w w' := by
  obtain ⟨messageHeader, w₁, hread, h⟩ := bind_eq_ok.mp h
  have hquiet := keeps_readMessageHeader (P := Event.IsQuiet) _ _ _ hread
  cases messageHeader with
  | none =>
    cases h
    exact ⟨by simp, hquiet.trans ⟨rfl, rfl, rfl, rfl, [], by simp, by simp⟩⟩
  | some messageHeader =>
    obtain ⟨header, w₂, hheader, h⟩ := bind_eq_ok.mp h
    cases h
    exact ⟨by simp, hquiet.trans (keeps_readContentHeader _ _ _ _ hheader)⟩

/-- Where VALUE_DEQUEUE_RECEIVED leads to. -/
theorem actionValueDequeueReceived_result (h : actionValueDequeueReceived w = .ok (m', w')) :
    m' = waitConsumeAck ∧ Grows Event.IsQuiet w w' := by
  obtain ⟨recvline, w₁, hrecvline, h⟩ := bind_eq_ok.mp h
  cases hrecvline
  obtain ⟨body, w₂, hbody, h⟩ := bind_eq_ok.mp h
  have hstring := keeps_stringOf (P := Event.IsQuiet) _ _ _ _ hbody
  obtain ⟨_, w₃, hmethod, h⟩ := bind_eq_ok.mp h
  obtain ⟨_, w₄, hheader, h⟩ := bind_eq_ok.mp h
  obtain ⟨rfl, hsend⟩ := send_result (keeps_sendBody _ _) h
  have hdeliver := Writes.quiet (keeps_sendMethod _ _ _ _ _ _ hmethod)
  have hcontent := Writes.quiet (keeps_sendContentHeader _ _ _ _ _ _ hheader)
  exact ⟨rfl, hstring.trans (hdeliver.trans (hcontent.trans hsend))⟩

/-- What the switch of WAIT_FUNCTIONAL does to the shared memory. -/
theorem functionalSwitch_effect {method : MethodHeader}
    (h : functionalSwitch method w = .ok (m', w')) : Effect waitFunctional w w' m' := by
  unfold functionalSwitch at h
  have hplain : ∀ next, next ∈ quietNext waitFunctional →
      (pure next : Action MachineState) w = .ok (m', w') → Effect waitFunctional w w' m' := by
    intro next hnext hpure
    cases hpure
    exact .quiet hnext (Grows.refl w)
  split at h
  · split at h
    · obtain ⟨_, w₁, hdeclare, h⟩ := bind_eq_ok.mp h
      obtain ⟨name, q, queueName, hname, hcreate, hw₁⟩ := declareQueue_eq_ok hdeclare
      cases h
      rw [hw₁] at hcreate ⊢
      exact .declare rfl ⟨rfl, rfl, hname⟩ hcreate ⟨[], by simp, by simp⟩
    · refine hplain _ ?_ h
      split_ifs <;> simp [quietNext]
  · split at h
    · split at h
      · obtain ⟨name, w₁, hparse, h⟩ := bind_eq_ok.mp h
        obtain ⟨queueName, hname, rfl⟩ := parseBasicPublishArgs_eq_ok hparse
        obtain ⟨_, w₂, hselect, h⟩ := bind_eq_ok.mp h
        obtain ⟨q, hget, hw₂⟩ := selectQueue_eq_ok hselect
        cases h
        rw [hw₂] at hget ⊢
        exact .publish (Or.inl rfl) ⟨rfl, rfl, hname⟩ hget ⟨[], by simp, by simp⟩
      · split at h
        · obtain ⟨name, w₁, hparse, h⟩ := bind_eq_ok.mp h
          obtain ⟨queueName, hname, rfl⟩ := parseBasicConsumeArgs_eq_ok hparse
          obtain ⟨_, w₂, hselect, h⟩ := bind_eq_ok.mp h
          obtain ⟨q, hget, hw₂⟩ := selectQueue_eq_ok hselect
          cases h
          rw [hw₂] at hget ⊢
          exact .consume rfl ⟨rfl, rfl, hname⟩ hget ⟨[], by simp, by simp⟩
        · refine hplain _ ?_ h
          split_ifs <;> simp [quietNext]
    · refine hplain _ ?_ h
      split_ifs <;> simp [quietNext]

/-- The switch of WAIT_PUBLISH_CONTENT leaves that state. -/
theorem publishContentSwitch_effect {method : MethodHeader}
    (h : publishContentSwitch method w = .ok (m', w')) :
    Effect waitPublishContent w w' m' ∧ m' ≠ waitPublishContent := by
  unfold publishContentSwitch at h
  have hplain : ∀ next, next ∈ quietNext waitPublishContent →
      (pure next : Action MachineState) w = .ok (m', w') →
      Effect waitPublishContent w w' m' ∧ m' ≠ waitPublishContent := by
    intro next hnext hpure
    cases hpure
    refine ⟨.quiet hnext (Grows.refl w), ?_⟩
    rintro rfl
    simp [quietNext] at hnext
  split at h
  · split at h <;> exact hplain _ (by simp [quietNext]) h
  · split at h
    · split at h
      · obtain ⟨name, w₁, hparse, h⟩ := bind_eq_ok.mp h
        obtain ⟨queueName, hname, rfl⟩ := parseBasicPublishArgs_eq_ok hparse
        obtain ⟨_, w₂, hselect, h⟩ := bind_eq_ok.mp h
        obtain ⟨q, hget, hw₂⟩ := selectQueue_eq_ok hselect
        cases h
        rw [hw₂] at hget ⊢
        exact ⟨.publish (Or.inr rfl) ⟨rfl, rfl, hname⟩ hget ⟨[], by simp, by simp⟩, by simp⟩
      · exact hplain _ (by simp [quietNext]) h
    · split at h
      · split at h <;> exact hplain _ (by simp [quietNext]) h
      · exact hplain _ (by simp [quietNext]) h

/-- What WAIT_FUNCTIONAL does to the shared memory. -/
theorem actionWaitFunctional_effect (h : actionWaitFunctional w = .ok (m', w')) :
    Effect waitFunctional w w' m' := by
  obtain ⟨method, w₁, hread, h⟩ := bind_eq_ok.mp h
  have hquiet := (readFrame_outcome hread).quiet
  cases method with
  | none =>
    cases h
    exact .quiet (by simp [quietNext]) hquiet
  | some method =>
    obtain ⟨next, w₂, hswitch, h⟩ := bind_eq_ok.mp h
    obtain ⟨rfl, hsilent⟩ := finishDispatch_result h
    have heffect := functionalSwitch_effect hswitch
    have hne : m' ≠ waitPublishContent := by
      rintro rfl
      cases heffect with
      | quiet hedge => simp [quietNext] at hedge
      | enqueue hfrom => cases hfrom
    exact (heffect.before (Or.inl rfl) hquiet hne).after (Or.inl rfl) hne hsilent

/-- A string that was found in a buffer. -/
theorem stringOf_eq_ok {buffer : Buffer} {string : List UInt8}
    (h : stringOf buffer w = .ok (string, w')) :
    buffer.cstring maxLine 0 = some string ∧ w' = w := by
  unfold stringOf at h
  cases hstring : buffer.cstring maxLine 0 with
  | none =>
    rw [hstring] at h
    cases h
  | some found =>
    rw [hstring] at h
    cases h
    exact ⟨rfl, rfl⟩

/-- The body is the string of `parsed`, and it goes to the current queue. -/
theorem enqueueBody_eq_ok (h : enqueueBody w = .ok ((), w')) :
    ∃ body node, w.cs.parsed.cstring maxLine 0 = some body ∧
      qEnqueue w.cs.currentQueue body w.store = .ok (node, w'.store) ∧
      w' = { w with
        store := w'.store
        trace := w.trace ++ [.qEnqueue w.cs.currentQueue node body] } := by
  obtain ⟨parsed, w₁, hparsed, h⟩ := bind_eq_ok.mp h
  cases hparsed
  obtain ⟨body, w₂, hbody, h⟩ := bind_eq_ok.mp h
  obtain ⟨hstring, hw₂⟩ := stringOf_eq_ok hbody
  rw [hw₂] at h
  obtain ⟨q, w₃, hq, h⟩ := bind_eq_ok.mp h
  cases hq
  obtain ⟨node, w₄, hstore, h⟩ := bind_eq_ok.mp h
  obtain ⟨henqueue, hw₄⟩ := onStore_eq_ok hstore
  cases h
  refine ⟨body, node, hstring, henqueue, ?_⟩
  rw [hw₄]

/-- What WAIT_PUBLISH_CONTENT does to the shared memory. -/
theorem actionWaitPublishContent_effect (h : actionWaitPublishContent w = .ok (m', w')) :
    Effect waitPublishContent w w' m' := by
  obtain ⟨messageHeader, w₁, hread, h⟩ := bind_eq_ok.mp h
  have hquiet := keeps_readMessageHeader (P := Event.IsQuiet) _ _ _ hread
  have hsilent : Silent w w₁ := keeps_readMessageHeader _ _ _ hread
  cases messageHeader with
  | none =>
    cases h
    exact .quiet (by simp [quietNext])
      (hquiet.trans ⟨rfl, rfl, rfl, rfl, [], by simp, by simp⟩)
  | some messageHeader =>
    simp only at h
    split at h
    · obtain ⟨method, w₂, hmethod, h⟩ := bind_eq_ok.mp h
      have hread₂ := hquiet.trans (readMethod_outcome hmethod).quiet
      cases method with
      | none =>
        cases h
        exact .quiet (by simp [quietNext])
          (hread₂.trans ⟨rfl, rfl, rfl, rfl, [], by simp, by simp⟩)
      | some method =>
        obtain ⟨next, w₃, hswitch, h⟩ := bind_eq_ok.mp h
        obtain ⟨rfl, hlast⟩ := finishDispatch_result h
        obtain ⟨heffect, hne⟩ := publishContentSwitch_effect hswitch
        exact (heffect.before (Or.inr rfl) hread₂ hne).after (Or.inr rfl) hne hlast
    · split at h
      · obtain ⟨_, w₂, hbody, h⟩ := bind_eq_ok.mp h
        have hread₂ : Silent w w₂ := hsilent.trans (keeps_readBody _ _ _ _ hbody)
        obtain ⟨_, w₃, henqueue, h⟩ := bind_eq_ok.mp h
        obtain ⟨body, node, -, hstore, hw₃⟩ := enqueueBody_eq_ok henqueue
        cases h
        have hself : SameSelf w₂ w' := by
          rw [hw₃]
          exact ⟨rfl, rfl, rfl⟩
        refine @Effect.enqueue _ _ _ node body rfl ?_ ?_ ?_
        · exact ⟨hself.threadId.trans hread₂.threadId,
            hself.currentQueue.trans hread₂.currentQueue,
            hself.currentQueueName.trans hread₂.currentQueueName⟩
        · rw [← hread₂.currentQueue, ← hread₂.store]
          exact hstore
        · rw [hw₃, hread₂.trace_eq, hread₂.currentQueue]
      · cases h
        exact .quiet (by simp [quietNext])
          (hquiet.trans ⟨rfl, rfl, rfl, rfl, [], by simp, by simp⟩)

/-- What BASIC_CONSUME_RECEIVED does to the shared memory. -/
theorem actionBasicConsumeReceived_effect (h : actionBasicConsumeReceived w = .ok (m', w')) :
    Effect basicConsumeReceived w w' m' := by
  obtain ⟨q, w₁, hq, h⟩ := bind_eq_ok.mp h
  cases hq
  obtain ⟨threadId, w₂, hthread, h⟩ := bind_eq_ok.mp h
  cases hthread
  obtain ⟨_, w₃, hadd, h⟩ := bind_eq_ok.mp h
  obtain ⟨hstore, hw₃⟩ := onStore_eq_ok hadd
  obtain ⟨_, w₄, hrecord, h⟩ := bind_eq_ok.mp h
  cases hrecord
  obtain ⟨past, w₅, hpast, h⟩ := bind_eq_ok.mp h
  cases hpast
  obtain ⟨_, w₆, hsend, h⟩ := bind_eq_ok.mp h
  have hwrites := keeps_sendMethod _ _ _ _ _ _ hsend
  cases h
  obtain ⟨frames, htrace, hframes⟩ := hwrites.trace
  have hself := hwrites.sameSelf
  rw [hw₃] at hself htrace
  refine @Effect.subscribe _ _ _ frames rfl ⟨hself.threadId, hself.currentQueue,
    hself.currentQueueName⟩ ?_ htrace hframes
  rw [hwrites.store]
  exact hstore

/-- The thread leaves the ring of its current queue. -/
theorem unsubscribe_eq_ok (h : unsubscribe w = .ok ((), w')) :
    qRemoveSubscriber w.cs.currentQueue w.cs.threadId w.store = .ok ((), w'.store) ∧
      w' = { w with
        store := w'.store
        trace := w.trace ++ [.removeSubscriber w.cs.currentQueue] } := by
  obtain ⟨q, w₁, hq, h⟩ := bind_eq_ok.mp h
  cases hq
  obtain ⟨threadId, w₂, hthread, h⟩ := bind_eq_ok.mp h
  cases hthread
  obtain ⟨_, w₃, hremove, h⟩ := bind_eq_ok.mp h
  obtain ⟨hstore, hw₃⟩ := onStore_eq_ok hremove
  cases h
  refine ⟨hstore, ?_⟩
  rw [hw₃]

/-- The three failure exits of `action_wait_consume_ack` differ in what was read only. -/
theorem reject_effect (reads : List Event) {message : Action Unit}
    (hmessage : Keeps Silent message) (hbefore : SameSelf w w') (hstore : w'.store = w.store)
    (htrace : w'.trace = w.trace ++ reads)
    (hreads : ∀ event ∈ reads, ∃ method, event = .readMethod method ∧ method ≠ ackMethod)
    (h : (do unsubscribe; message; pure fail : Action MachineState) w' = .ok (m', w'')) :
    Effect waitConsumeAck w w'' m' := by
  obtain ⟨_, w₁, hunsubscribe, h⟩ := bind_eq_ok.mp h
  obtain ⟨hremove, hw₁⟩ := unsubscribe_eq_ok hunsubscribe
  obtain ⟨_, w₂, herror, h⟩ := bind_eq_ok.mp h
  have hsilent := hmessage _ _ _ herror
  cases h
  have hself : SameSelf w' w₁ := by
    rw [hw₁]
    exact ⟨rfl, rfl, rfl⟩
  refine @Effect.reject _ _ _ reads rfl ⟨?_, ?_, ?_⟩ ?_ ?_ hreads
  · rw [hsilent.threadId, hself.threadId, hbefore.threadId]
  · rw [hsilent.currentQueue, hself.currentQueue, hbefore.currentQueue]
  · rw [hsilent.currentQueueName, hself.currentQueueName, hbefore.currentQueueName]
  · rw [hsilent.store, ← hbefore.currentQueue, ← hbefore.threadId, ← hstore]
    exact hremove
  · rw [hsilent.trace_eq, hw₁, htrace, hbefore.currentQueue]

/-- What WAIT_CONSUME_ACK does to the shared memory. -/
theorem actionWaitConsumeAck_effect (h : actionWaitConsumeAck w = .ok (m', w')) :
    Effect waitConsumeAck w w' m' := by
  obtain ⟨messageHeader, w₁, hread, h⟩ := bind_eq_ok.mp h
  have hsilent : Silent w w₁ := keeps_readMessageHeader _ _ _ hread
  cases messageHeader with
  | none =>
    exact reject_effect [] (keeps_setError _) hsilent.sameSelf hsilent.store
      (by simpa using hsilent.trace_eq) (by simp) h
  | some messageHeader =>
    obtain ⟨method, w₂, hmethod, h⟩ := bind_eq_ok.mp h
    have houtcome := MethodOutcome.after hsilent (readMethod_outcome hmethod)
    cases method with
    | none =>
      have hsilent₂ : Silent w w₂ := houtcome
      exact reject_effect [] (keeps_setError _) hsilent₂.sameSelf hsilent₂.store
        (by simpa using hsilent₂.trace_eq) (by simp) h
    | some method =>
      obtain ⟨v, hv, hw₂⟩ := houtcome
      have hself : SameSelf w w₂ := by
        rw [hw₂]
        exact ⟨hv.threadId, hv.currentQueue, hv.currentQueueName⟩
      have hstore : w₂.store = w.store := by
        rw [hw₂]
        exact hv.store
      have htrace : w₂.trace = w.trace ++ [.readMethod method] := by
        rw [hw₂, hv.trace_eq]
      simp only at h
      split at h
      · rename_i hother
        refine reject_effect _ (keeps_setUnexpected method) hself hstore htrace ?_ h
        intro event hevent
        refine ⟨method, List.mem_singleton.mp hevent, ?_⟩
        rintro rfl
        simp [ackMethod] at hother
      · rename_i hack
        have hequal : method = ackMethod := by
          obtain ⟨hclass, hid⟩ := not_or.mp hack
          cases method
          simp only [ne_eq, Decidable.not_not] at hclass hid
          rw [hclass, hid, ackMethod]
        cases h
        exact .ack rfl hself hstore (hequal ▸ htrace)

/-- Everything a handler does that does not block. -/
theorem effect_of_action (hm : m ≠ waitValueDequeue) (hrunning : m ≠ finished ∧ m ≠ fail)
    (h : actions m w = .ok (m', w')) : Effect m w w' m' := by
  have hquiet : m' ∈ quietNext m ∧ Grows Event.IsQuiet w w' → Effect m w w' m' :=
    fun hstep => .quiet hstep.1 hstep.2
  have hsend : ∀ {next}, quietNext m = [next] → m' = next ∧ Grows Event.IsQuiet w w' →
      Effect m w w' m' := by
    intro next hnext hstep
    exact .quiet (by rw [hnext, hstep.1]; exact List.mem_singleton_self _) hstep.2
  cases m with
  | wait => exact hquiet (actionWait_result h)
  | headerReceived => exact hsend rfl (send_result (keeps_sendMethod _ _ _) h)
  | waitStartOk => exact hquiet (actionWaitStartOk_result h)
  | startOkReceived => exact hsend rfl (send_result (keeps_sendMethod _ _ _) h)
  | waitTuneOk => exact hquiet (awaitMethod_result h)
  | waitOpenConnection => exact hquiet (awaitMethod_result h)
  | openConnectionReceived => exact hsend rfl (send_result (keeps_sendMethod _ _ _) h)
  | closeConnectionReceived => exact hsend rfl (send_result (keeps_sendMethod _ _ _) h)
  | waitOpenChannel => exact hquiet (actionWaitOpenChannel_result h)
  | openChannelReceived => exact hsend rfl (send_result (keeps_sendMethod _ _ _) h)
  | closeChannelReceived => exact hsend rfl (send_result (keeps_sendMethod _ _ _) h)
  | waitFunctional => exact actionWaitFunctional_effect h
  | queueDeclareReceived => exact hsend rfl (actionQueueDeclareReceived_result h)
  | basicPublishReceived =>
    cases h
    exact hquiet ⟨by simp [quietNext], Grows.refl w⟩
  | waitPublishContentHeader => exact hquiet (actionWaitPublishContentHeader_result h)
  | waitPublishContent => exact actionWaitPublishContent_effect h
  | basicConsumeReceived => exact actionBasicConsumeReceived_effect h
  | waitValueDequeue => exact absurd rfl hm
  | valueDequeueReceived => exact hsend rfl (actionValueDequeueReceived_result h)
  | waitConsumeAck => exact actionWaitConsumeAck_effect h
  | finished => exact absurd rfl hrunning.1
  | fail => exact absurd rfl hrunning.2

end AmqpBroker
