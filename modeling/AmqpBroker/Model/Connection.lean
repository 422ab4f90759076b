import AmqpBroker.Foundations.Buffer
import AmqpBroker.Foundations.Stream
import AmqpBroker.Model.HardcodedValues
import AmqpBroker.Model.QueuePool

/-!
# The state of a connection

The `connection_state` of a handler together with its socket and the shared memory. The
trace is a history variable: it records the calls a handler makes with their arguments
and results, and no handler reads it.
-/

namespace AmqpBroker

open Foundations

/-- `MAXLINE` of `config.h`. -/
def maxLine : ℕ := 131073

/-- `amqp_method_header`. -/
structure MethodHeader where
  classId : UInt16
  methodId : UInt16
  deriving DecidableEq, Repr

/-- `amqp_message_header`. -/
structure MessageHeader where
  msgType : UInt8
  channel : UInt16
  length : UInt32
  deriving DecidableEq, Repr

/-- `amqp_content_header_header`. -/
structure ContentHeader where
  classId : UInt16
  weight : UInt16
  bodySize : UInt64
  propertyFlags : UInt16
  deriving DecidableEq, Repr

/-- The calls recorded in the trace. -/
inductive Event where
  /-- `read_method` returned this method. -/
  | readMethod (header : MethodHeader)
  /-- `write` was given these bytes. -/
  | write (bytes : List UInt8)
  | parseQueueDeclareArgs (name : List UInt8)
  | parseBasicPublishArgs (name : List UInt8)
  | parseBasicConsumeArgs (name : List UInt8)
  | createQueue (name : List UInt8) (q : ℕ)
  | getQueue (name : List UInt8) (q : Option ℕ)
  /-- `q_enqueue` linked the node with this body. -/
  | qEnqueue (q : Option ℕ) (node : ℕ) (body : List UInt8)
  /-- `q_dequeue` unlinked this node, or found the queue empty. -/
  | qDequeue (q : Option ℕ) (taken : Option (ℕ × List UInt8))
  | qAddSubscriber (q : Option ℕ)
  | removeSubscriber (q : Option ℕ)
  deriving DecidableEq, Repr

/-- What a call of `write` comes to. -/
inductive WriteResult where
  /-- It returns with the number of bytes it took, or with -1. -/
  | returned (n : ℤ)
  /-- It does not return: the client does not read and the socket is full. -/
  | blocked
  /-- The client has gone, and the process has no handler for `SIGPIPE`. -/
  | brokenPipe
  deriving DecidableEq, Repr

/-- Why the step with the call does not return. -/
def WriteResult.stop : WriteResult → Option Abort
  | .returned _ => none
  | .blocked => some .blocked
  | .brokenPipe => some .brokenPipe

/-- `connection_state`; the descriptor is the socket and the pool the store of `World`. The
last field is no part of it, but memory that the connection reads and nobody writes. -/
structure ConnectionState where
  threadId : ℤ
  currentQueue : Option ℕ
  recvline : Buffer
  sendline : Buffer
  parsed : Buffer
  currentQueueName : Buffer
  errorMsg : String
  pastConsumeOkArgs : PastConsumeOkArgs

/-- Everything a handler can touch. What its calls of `write` come to is an input: the next
ones come to `writes`, and those after that take all they are given. -/
structure World where
  cs : ConnectionState
  socket : Socket
  store : Store
  trace : List Event
  writes : List WriteResult := []

/-- Code run by the thread of a connection. -/
abbrev Action := Program World Abort

/-- Read a field of the connection state. -/
def field {α : Type} (view : ConnectionState → α) : Action α := Program.read fun w => view w.cs

/-- Assign to fields of the connection state. -/
def assign (change : ConnectionState → ConnectionState) : Action Unit :=
  Program.update fun w => { w with cs := change w.cs }

/-- Run code on the shared memory. -/
def onStore {α : Type} (x : Shared α) : Action α := fun w =>
  match x w.store with
  | .ok (a, store) => .ok (a, { w with store := store })
  | .error reason => .error reason

/-- Record a call. -/
def record (event : Event) : Action Unit :=
  Program.update fun w => { w with trace := w.trace ++ [event] }

/-- `write(cs->connfd, bytes, size)`. -/
def write (bytes : List UInt8) : Action ℤ := fun w =>
  let called := { w with trace := w.trace ++ [.write bytes], writes := w.writes.tail }
  match w.writes with
  | [] => .ok (bytes.length, called)
  | .returned n :: _ => .ok (n, called)
  | .blocked :: _ => .error .blocked
  | .brokenPipe :: _ => .error .brokenPipe

/-- Run code on an array of its own, and drop the array. -/
def onLocal {α : Type} (x : Program Buffer Abort α) : Action α :=
  match x fun _ => 0 with
  | .ok (a, _) => pure a
  | .error reason => Program.stop reason

/-- `strcpy(cs->error_msg, ...)` and `sprintf(cs->error_msg, ...)`. -/
def setError (message : String) : Action Unit := assign fun cs => { cs with errorMsg := message }

/-- Stop when an array access of `count` bytes from `offset` leaves a buffer of the connection. -/
def checkRange (offset count : ℕ) : Action Unit :=
  if offset + count ≤ maxLine then pure () else Program.stop .bufferRange

/-- The string at the start of a buffer of the connection. -/
def stringOf (buffer : Buffer) : Action (List UInt8) :=
  match buffer.cstring maxLine 0 with
  | some string => pure string
  | none => Program.stop .bufferRange

end AmqpBroker
