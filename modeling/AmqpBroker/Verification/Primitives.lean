import AmqpBroker.Model.Thread
import AmqpBroker.Verification.Frames

/-!
# What handlers are made of

Every handler, and every step inside `q_dequeue_rr`, is put together from a few primitives:
looking at fields and assigning to them, calls on the shared memory, records of calls,
`read_until`, and `write` without a look at what it returns. A property of whole handlers that
each primitive has and that sequencing preserves is proved by induction on how the handler is
built.
-/

namespace AmqpBroker

open Foundations Program MachineState

variable {grain : Grain}

/-- The bytes given to `write`. -/
def Event.sent : Event → Option (List UInt8)
  | .write bytes => some bytes
  | _ => none

/-- The frames sent in a sequence of calls. -/
def framesSent (trace : List Event) : List (List UInt8) := trace.filterMap Event.sent

/-- The call is not one of `write`. -/
abbrev NotSent (event : Event) : Prop := event.sent = none

/-- Any call. -/
abbrev AnyCall (_ : Event) : Prop := True

/-- The program is put together from primitives and records only calls that `P` allows. -/
inductive Built (P : Event → Prop) : {α : Type} → Action α → Prop
  | pure {α : Type} (a : α) : Built P (Pure.pure a : Action α)
  | stop {α : Type} (reason : Abort) : Built P (Program.stop reason : Action α)
  | bind {α β : Type} {x : Action α} {f : α → Action β} : Built P x → (∀ a, Built P (f a)) →
      Built P (x >>= f)
  | field {α : Type} (view : ConnectionState → α) : Built P (field view)
  | assign (change : ConnectionState → ConnectionState) : Built P (assign change)
  | onStore {α : Type} (x : Shared α) : Built P (onStore x)
  | record {event : Event} : P event → Built P (record event)
  | write {α : Type} {bytes : List UInt8} {x : Action α} : P (.write bytes) → Built P x →
      Built P (write bytes >>= fun _ => x)
  | readUntil {size : ℕ} : size < sizeRange → Built P (readUntil size)

/-- A test between two programs. -/
theorem Built.ite {P : Event → Prop} {α : Type} {c : Prop} [Decidable c] {x y : Action α}
    (hx : Built P x) (hy : Built P y) : Built P (if c then x else y) := by
  split
  · exact hx
  · exact hy

/-- What follows on a value that may be missing. -/
theorem Built.option {P : Event → Prop} {α β : Type} {f : Option α → Action β}
    (hnone : Built P (f none)) (hsome : ∀ a, Built P (f (some a))) (a : Option α) :
    Built P (f a) := by
  cases a with
  | none => exact hnone
  | some a => exact hsome a

/-- Allowing more calls. -/
theorem Built.mono {P Q : Event → Prop} (hPQ : ∀ event, P event → Q event) {α : Type}
    {x : Action α} (h : Built P x) : Built Q x := by
  induction h with
  | pure a => exact .pure a
  | stop reason => exact .stop reason
  | bind _ _ ihx ihf => exact .bind ihx ihf
  | field view => exact .field view
  | assign change => exact .assign change
  | onStore x => exact .onStore x
  | record h => exact .record (hPQ _ h)
  | write h _ ihx => exact .write (hPQ _ h) ihx
  | readUntil h => exact .readUntil h

/-- Any call is allowed. -/
theorem Built.any {P : Event → Prop} {α : Type} {x : Action α} (h : Built P x) :
    Built AnyCall x := h.mono fun _ _ => trivial

/-- Recording a call that is not sent. -/
theorem built_record {event : Event} (h : NotSent event) : Built NotSent (record event) := .record h

/-- Setting an error. -/
theorem built_setError (message : String) : Built NotSent (setError message) := .assign _

/-- Setting the error of an unexpected method. -/
theorem built_setUnexpected (header : MethodHeader) : Built NotSent (setUnexpected header) :=
  built_setError _

/-- A test of a range. -/
theorem built_checkRange (offset count : ℕ) : Built NotSent (checkRange offset count) :=
  Built.ite (Built.pure _) (Built.stop _)

/-- Looking for the end of a string. -/
theorem built_stringOf (buffer : Buffer) : Built NotSent (stringOf buffer) := by
  unfold stringOf
  split
  · exact Built.pure _
  · exact Built.stop _

/-- A `size_t` has 64 bits. -/
theorem toSize_lt (n : ℤ) : toSize n < sizeRange := by
  rw [toSize, sizeRange]
  omega

/-- Reading the protocol header. -/
theorem built_readProtocolHeader : Built NotSent readProtocolHeader := by
  apply Built.bind (Built.readUntil (by decide))
  intro n
  apply Built.ite (Built.pure _)
  exact Built.bind (Built.field _) fun _ => Built.pure _

/-- Reading a frame header. -/
theorem built_readMessageHeader : Built NotSent readMessageHeader := by
  apply Built.bind (Built.readUntil (by decide))
  intro n
  apply Built.ite (Built.pure _)
  exact Built.bind (Built.field _) fun _ => Built.pure _

/-- Parsing a method. -/
theorem built_parseMethod (n : ℕ) : Built NotSent (parseMethod n) := by
  apply Built.ite (Built.pure _)
  apply Built.bind (built_checkRange _ _)
  intro _
  apply Built.bind (Built.assign _)
  intro _
  apply Built.bind (Built.field _)
  intro _
  exact Built.bind (Built.assign _) fun _ => Built.pure _

/-- Reading a method. -/
theorem built_readMethod (length : ℤ) : Built NotSent (readMethod length) := by
  apply Built.bind (Built.readUntil (toSize_lt length))
  intro n
  apply Built.ite (Built.pure _)
  apply Built.bind (built_parseMethod n)
  apply Built.option
  · exact Built.pure _
  · intro method
    apply Built.bind (Built.readUntil (by decide))
    intro n
    apply Built.ite (Built.pure _)
    exact Built.bind (built_record rfl) fun _ => Built.pure _

/-- Reading a content header. -/
theorem built_readContentHeader (length : ℤ) :
    Built NotSent (readContentHeader length) := by
  have hparse : ∀ n, Built NotSent (parseContentHeader n) := by
    intro n
    apply Built.ite (Built.pure _)
    apply Built.bind (Built.assign _)
    intro _
    apply Built.bind (Built.field _)
    intro _
    exact Built.bind (Built.assign _) fun _ => Built.pure _
  apply Built.bind (Built.readUntil (toSize_lt length))
  intro _
  apply Built.bind (hparse _)
  intro _
  exact Built.bind (Built.readUntil (by decide)) fun _ => Built.pure _

/-- Reading a body. -/
theorem built_readBody (length : ℤ) : Built NotSent (readBody length) := by
  apply Built.ite (Built.stop _)
  apply Built.bind (Built.readUntil (toSize_lt _))
  intro n
  apply Built.bind (built_checkRange _ _)
  intro _
  apply Built.bind (Built.assign _)
  intro _
  apply Built.ite (Built.stop _)
  exact Built.bind (built_checkRange _ _) fun _ => Built.assign _

/-- Sending a frame. -/
theorem built_sendFrame (frame : List UInt8) : Built AnyCall (sendFrame frame) := by
  apply Built.bind (built_checkRange _ _).any
  intro _
  apply Built.bind (Built.assign _)
  intro _
  apply Built.bind (Built.field _)
  intro sendline
  exact Built.write trivial (Built.pure _)

/-- Work on an array of its own. -/
theorem built_onLocal {P : Event → Prop} {α : Type} (x : Program Buffer Abort α) :
    Built P (onLocal x) := by
  unfold onLocal
  split
  · exact Built.pure _
  · exact Built.stop _

/-- A sender and then the next state. -/
theorem built_send {P : Event → Prop} {x : Action Unit} (hx : Built P x) (next : MachineState) :
    Built P (do x; pure next : Action MachineState) :=
  Built.bind hx fun _ => Built.pure _

/-- Storing the name of a queue. -/
theorem built_storeQueueName (bytes : List UInt8) : Built NotSent (storeQueueName bytes) := by
  apply Built.bind (Built.assign _)
  intro _
  apply Built.bind (Built.field _)
  intro _
  split
  · exact Built.pure _
  · exact Built.stop _

/-- An argument parser: it reads `parsed`, stores the name and records the call. -/
theorem built_parseArgs (name : Buffer → List UInt8) {event : List UInt8 → Event}
    (hevent : ∀ name, NotSent (event name)) :
    Built NotSent (do
      let args ← field (·.parsed)
      let name ← storeQueueName (name args)
      record (event name)
      pure name) := by
  apply Built.bind (Built.field _)
  intro _
  apply Built.bind (built_storeQueueName _)
  intro _
  exact Built.bind (built_record (hevent _)) fun _ => Built.pure _

/-- Choosing a queue. -/
theorem built_selectQueue (name : List UInt8) : Built NotSent (selectQueue name) := by
  apply Built.bind (Built.onStore _)
  intro _
  exact Built.bind (built_record rfl) fun _ => Built.assign _

/-- Declaring a queue. -/
theorem built_declareQueue : Built NotSent declareQueue := by
  apply Built.bind (built_parseArgs _ fun _ => rfl)
  intro _
  apply Built.bind (Built.onStore _)
  intro _
  exact Built.bind (built_record rfl) fun _ => Built.assign _

/-- Basic.Publish and Basic.Consume: a name is parsed and its queue selected. -/
theorem built_choose {parse : Action (List UInt8)} (hparse : Built NotSent parse)
    (next : MachineState) :
    Built NotSent (do selectQueue (← parse); pure next : Action MachineState) := by
  apply Built.bind hparse
  intro name
  exact Built.bind (built_selectQueue name) fun _ => Built.pure _

/-- The switch of WAIT_FUNCTIONAL. -/
theorem built_functionalSwitch (method : MethodHeader) :
    Built NotSent (functionalSwitch method) := by
  unfold functionalSwitch
  apply Built.ite
  · exact Built.ite (built_send built_declareQueue _) (Built.pure _)
  · apply Built.ite _ (Built.pure _)
    apply Built.ite (built_choose (built_parseArgs _ fun _ => rfl) _)
    exact Built.ite (built_choose (built_parseArgs _ fun _ => rfl) _) (Built.pure _)

/-- The switch of WAIT_PUBLISH_CONTENT. -/
theorem built_publishContentSwitch (method : MethodHeader) :
    Built NotSent (publishContentSwitch method) := by
  unfold publishContentSwitch
  apply Built.ite
  · exact Built.ite (Built.pure _) (Built.pure _)
  · apply Built.ite
    · exact Built.ite (built_choose (built_parseArgs _ fun _ => rfl) _) (Built.pure _)
    · exact Built.ite (Built.ite (Built.pure _) (Built.pure _)) (Built.pure _)

/-- The end of a switch. -/
theorem built_finishDispatch (method : MethodHeader) (next : MachineState) :
    Built NotSent (finishDispatch method next) := by
  unfold finishDispatch
  split
  · exact Built.bind (built_setUnexpected method) fun _ => Built.pure _
  · exact Built.pure _

/-- Failing with a message. -/
theorem built_fail (message : String) :
    Built NotSent (do setError message; pure fail : Action MachineState) :=
  Built.bind (built_setError _) fun _ => Built.pure _

/-- Code that begins with the header of a frame. -/
inductive StartsFrame (P : Event → Prop) {α : Type} : Action α → Prop
  | intro {f : Option MessageHeader → Action α} : (∀ header, Built P (f header)) →
      StartsFrame P (readMessageHeader >>= f)

/-- Code that starts with a frame is built from the primitives. -/
theorem StartsFrame.built {α : Type} {x : Action α} (h : StartsFrame NotSent x) :
    Built NotSent x := by
  cases h with
  | intro hf => exact Built.bind built_readMessageHeader hf

/-- Code that reads a whole frame begins with its header. -/
theorem startsFrame_readFrame {α : Type} {g : Option MethodHeader → Action α}
    (hg : ∀ method, Built NotSent (g method)) : StartsFrame NotSent (readFrame >>= g) := by
  unfold readFrame
  rw [bind_assoc]
  apply StartsFrame.intro
  intro header
  apply Built.bind _ hg
  cases header with
  | none => exact Built.bind (built_setError _) fun _ => Built.pure _
  | some header =>
    apply Built.bind (built_readMethod _)
    apply Built.option
    · exact Built.bind (built_setError _) fun _ => Built.pure _
    · exact fun _ => Built.pure _

/-- A handler that waits for one method starts with a frame. -/
theorem startsFrame_awaitMethod (expected : MethodHeader) (message : String)
    (next : MachineState) : StartsFrame NotSent (awaitMethod expected message next) := by
  apply startsFrame_readFrame
  apply Built.option
  · exact Built.pure _
  · intro method
    exact Built.ite (built_fail _) (Built.pure _)

/-- WAIT. -/
theorem built_actionWait : Built NotSent actionWait := by
  apply Built.bind built_readProtocolHeader
  intro valid
  exact Built.ite (Built.pure _) (built_fail _)

/-- WAIT_START_OK starts with a frame. -/
theorem startsFrame_actionWaitStartOk : StartsFrame NotSent actionWaitStartOk := by
  apply StartsFrame.intro
  apply Built.option
  · exact built_fail _
  · intro messageHeader
    apply Built.bind (built_readMethod _)
    apply Built.option
    · exact Built.pure _
    · intro method
      exact Built.ite (built_fail _) (Built.pure _)

/-- WAIT_OPEN_CHANNEL starts with a frame. -/
theorem startsFrame_actionWaitOpenChannel : StartsFrame NotSent actionWaitOpenChannel := by
  apply startsFrame_readFrame
  apply Built.option
  · exact Built.pure _
  · exact fun method => built_finishDispatch method _

/-- WAIT_FUNCTIONAL starts with a frame. -/
theorem startsFrame_actionWaitFunctional : StartsFrame NotSent actionWaitFunctional := by
  apply startsFrame_readFrame
  apply Built.option
  · exact Built.pure _
  · intro method
    exact Built.bind (built_functionalSwitch method) (built_finishDispatch method)

/-- QUEUE_DECLARE_RECEIVED sends. -/
theorem built_actionQueueDeclareReceived : Built AnyCall actionQueueDeclareReceived := by
  apply Built.bind (Built.field _)
  intro q
  apply Built.bind (Built.onStore _)
  intro size
  apply Built.bind (Built.field _)
  intro name
  split
  · exact Built.stop _
  · exact built_send (Built.bind (built_onLocal _) fun _ => built_sendFrame _) _

/-- WAIT_PUBLISH_CONTENT_HEADER starts with a frame. -/
theorem startsFrame_actionWaitPublishContentHeader :
    StartsFrame NotSent actionWaitPublishContentHeader := by
  apply StartsFrame.intro
  apply Built.option
  · exact built_fail _
  · intro messageHeader
    exact Built.bind (built_readContentHeader _) fun _ => Built.pure _

/-- Enqueueing the body. -/
theorem built_enqueueBody : Built NotSent enqueueBody := by
  apply Built.bind (Built.field _)
  intro parsed
  apply Built.bind (built_stringOf _)
  intro body
  apply Built.bind (Built.field _)
  intro q
  exact Built.bind (Built.onStore _) fun _ => built_record rfl

/-- WAIT_PUBLISH_CONTENT starts with a frame. -/
theorem startsFrame_actionWaitPublishContent : StartsFrame NotSent actionWaitPublishContent := by
  apply StartsFrame.intro
  apply Built.option
  · exact built_fail _
  · intro messageHeader
    apply Built.ite
    · apply Built.bind (built_readMethod _)
      apply Built.option
      · exact built_fail _
      · intro method
        exact Built.bind (built_publishContentSwitch method) (built_finishDispatch method)
    · apply Built.ite
      · apply Built.bind (built_readBody _)
        intro _
        exact built_send built_enqueueBody _
      · exact built_fail _

/-- BASIC_CONSUME_RECEIVED sends. -/
theorem built_actionBasicConsumeReceived : Built AnyCall actionBasicConsumeReceived := by
  apply Built.bind (Built.field _)
  intro q
  apply Built.bind (Built.field _)
  intro threadId
  apply Built.bind (Built.onStore _)
  intro _
  apply Built.bind (Built.record trivial)
  intro _
  exact Built.bind (Built.field _) fun past => built_send (built_sendFrame _) _

/-- Taking a message into `recvline`. -/
theorem built_dequeueInto (q : Option ℕ) : Built NotSent (dequeueInto q) := by
  apply Built.bind (Built.onStore _)
  intro taken
  refine Built.bind (built_record rfl) fun _ => ?_
  cases taken with
  | none => exact Built.pure _
  | some found => exact Built.bind (built_checkRange _ _) fun _ => Built.assign _

/-- WAIT_VALUE_DEQUEUE sends nothing. -/
theorem built_actionWaitValueDequeue : Built NotSent actionWaitValueDequeue := by
  apply Built.bind (Built.field _)
  intro q
  apply Built.bind (Built.field _)
  intro threadId
  apply built_send
  apply Built.bind (Built.onStore _)
  intro turn
  apply Built.ite _ (Built.stop _)
  apply Built.bind (Built.onStore _)
  intro message
  apply Built.ite _ (Built.stop _)
  apply Built.bind (built_dequeueInto q)
  intro _
  exact Built.bind (Built.onStore _) fun _ => Built.pure _

/-- VALUE_DEQUEUE_RECEIVED sends. -/
theorem built_actionValueDequeueReceived : Built AnyCall actionValueDequeueReceived := by
  apply Built.bind (Built.field _)
  intro recvline
  apply Built.bind (built_stringOf _).any
  intro body
  apply Built.bind (built_sendFrame _)
  intro _
  apply Built.bind (built_sendFrame _)
  intro _
  exact built_send (built_sendFrame _) _

/-- Leaving the ring. -/
theorem built_unsubscribe : Built NotSent unsubscribe := by
  apply Built.bind (Built.field _)
  intro q
  apply Built.bind (Built.field _)
  intro threadId
  exact Built.bind (Built.onStore _) fun _ => built_record rfl

/-- WAIT_CONSUME_ACK starts with a frame. -/
theorem startsFrame_actionWaitConsumeAck : StartsFrame NotSent actionWaitConsumeAck := by
  have hreject : ∀ message, Built NotSent
      (do unsubscribe; setError message; pure fail : Action MachineState) :=
    fun message => Built.bind built_unsubscribe fun _ => built_fail message
  apply StartsFrame.intro
  apply Built.option
  · exact hreject _
  · intro messageHeader
    apply Built.bind (built_readMethod _)
    apply Built.option
    · exact hreject _
    · intro method
      exact Built.ite (hreject _) (Built.pure _)

/-- The states whose handlers send. -/
def MachineState.sends : MachineState → Bool
  | headerReceived | startOkReceived | openConnectionReceived | closeConnectionReceived
  | openChannelReceived | closeChannelReceived | queueDeclareReceived | basicConsumeReceived
  | valueDequeueReceived => true
  | _ => false

/-- The other handlers send nothing. -/
theorem built_actions_of_not_sends {m : MachineState} (h : m.sends = false) :
    Built NotSent (actions m) := by
  cases m with
  | wait => exact built_actionWait
  | waitStartOk => exact startsFrame_actionWaitStartOk.built
  | waitTuneOk => exact (startsFrame_awaitMethod _ _ _).built
  | waitOpenConnection => exact (startsFrame_awaitMethod _ _ _).built
  | waitOpenChannel => exact startsFrame_actionWaitOpenChannel.built
  | waitFunctional => exact startsFrame_actionWaitFunctional.built
  | basicPublishReceived => exact Built.pure _
  | waitPublishContentHeader => exact startsFrame_actionWaitPublishContentHeader.built
  | waitPublishContent => exact startsFrame_actionWaitPublishContent.built
  | waitValueDequeue => exact built_actionWaitValueDequeue
  | waitConsumeAck => exact startsFrame_actionWaitConsumeAck.built
  | finished => exact Built.pure _
  | fail => exact Built.pure _
  | _ => cases h

/-- Every handler is put together from the primitives. -/
theorem built_actions (m : MachineState) : Built AnyCall (actions m) := by
  by_cases h : m.sends = false
  · exact (built_actions_of_not_sends h).any
  · cases m with
    | headerReceived => exact built_send (built_sendFrame _) _
    | startOkReceived => exact built_send (built_sendFrame _) _
    | openConnectionReceived => exact built_send (built_sendFrame _) _
    | closeConnectionReceived => exact built_send (built_sendFrame _) _
    | openChannelReceived => exact built_send (built_sendFrame _) _
    | closeChannelReceived => exact built_send (built_sendFrame _) _
    | queueDeclareReceived => exact built_actionQueueDeclareReceived
    | basicConsumeReceived => exact built_actionBasicConsumeReceived
    | valueDequeueReceived => exact built_actionValueDequeueReceived
    | _ => exact absurd rfl h

/-- A step inside `q_dequeue_rr` sends nothing. -/
theorem built_dequeueStep (point : DequeuePoint) :
    Built NotSent (dequeueStep grain point) := by
  apply Built.bind (Built.field _)
  intro q
  apply Built.bind (Built.field _)
  intro threadId
  cases point with
  | testRound =>
    apply Built.bind (Built.onStore _)
    intro turn
    apply Built.ite (Built.pure _)
    apply Built.ite (Built.pure _)
    exact Built.bind (Built.onStore _) fun _ => Built.pure _
  | sleepRound => exact Built.bind (Built.onStore _) fun _ => Built.pure _
  | wakeRound =>
    exact Built.bind (Built.onStore _) fun _ => Built.ite (Built.stop _) (Built.pure _)
  | testMsg =>
    exact Built.bind (Built.onStore _) fun _ => Built.ite (Built.pure _) (Built.pure _)
  | sleepMsg => exact Built.bind (Built.onStore _) fun _ => Built.pure _
  | wakeMsg =>
    exact Built.bind (Built.onStore _) fun _ => Built.ite (Built.stop _) (Built.pure _)
  | dequeue => exact Built.bind (built_dequeueInto q) fun _ => Built.pure _
  | nextThread => exact Built.bind (Built.onStore _) fun _ => Built.pure _

/-- Every step of a thread is put together from the primitives. -/
theorem built_threadStep (m : MachineState) (point : DequeuePoint) :
    Built AnyCall (threadStep grain m point) := by
  unfold threadStep
  split
  · exact Built.stop _
  · exact Built.stop _
  · exact (built_dequeueStep point).any
  · exact Built.bind (built_actions _) fun _ => Built.pure _

end AmqpBroker
