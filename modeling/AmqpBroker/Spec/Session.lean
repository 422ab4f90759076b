import AmqpBroker.Spec.MessageBroker
import AmqpBroker.Verification.Sessions

/-!
# The session of a client

What a client may send, frame by frame, in which order, and what it asks for with it: an
operation of the message broker, an answer, or both. Nothing here knows of buffers, of the
states of the broker or of the queues of other clients.
-/

namespace AmqpBroker

open Foundations

/-- A frame of a client. The broker goes by the names and the body; the rest of the arguments
and the payload of a content header are the client's own. -/
inductive ClientFrame where
  | startOk (arguments : List UInt8)
  | tuneOk (arguments : List UInt8)
  | openConnection (arguments : List UInt8)
  | closeConnection (arguments : List UInt8)
  | openChannel (arguments : List UInt8)
  | closeChannel (arguments : List UInt8)
  | declare (ticket : UInt16) (name after : List UInt8)
  | publish (ticket : UInt16) (exchange key after : List UInt8)
  | contentHeader (payload : List UInt8)
  | body (payload : List UInt8)
  | consume (ticket : UInt16) (name after : List UInt8)
  | ack (arguments : List UInt8)
  deriving DecidableEq

/-- Arguments that begin with a ticket and the name of a queue. -/
def namingArguments (ticket : UInt16) (name after : List UInt8) : List UInt8 :=
  toBE 2 ticket.toNat ++ shortString name ++ after

/-- The arguments of Basic.Publish, whose routing key names the queue. -/
def keyArguments (ticket : UInt16) (exchange key after : List UInt8) : List UInt8 :=
  toBE 2 ticket.toNat ++ shortString exchange ++ shortString key ++ after

namespace ClientFrame

/-- The method of a METHOD frame with its arguments. -/
def method : ClientFrame → Option (MethodHeader × List UInt8)
  | startOk arguments => some (⟨ClassId.connection, MethodId.connectionStartOk⟩, arguments)
  | tuneOk arguments => some (⟨ClassId.connection, MethodId.connectionTuneOk⟩, arguments)
  | openConnection arguments => some (⟨ClassId.connection, MethodId.connectionOpen⟩, arguments)
  | closeConnection arguments => some (⟨ClassId.connection, MethodId.connectionClose⟩, arguments)
  | openChannel arguments => some (⟨ClassId.channel, MethodId.channelOpen⟩, arguments)
  | closeChannel arguments => some (⟨ClassId.channel, MethodId.channelClose⟩, arguments)
  | declare ticket name after => some (declareMethod, namingArguments ticket name after)
  | publish ticket exchange key after =>
    some (publishMethod, keyArguments ticket exchange key after)
  | contentHeader _ => none
  | body _ => none
  | consume ticket name after => some (consumeMethod, namingArguments ticket name after)
  | ack arguments => some (ackMethod, arguments)

/-- The payload on the wire. -/
def payload : ClientFrame → List UInt8
  | contentHeader payload => payload
  | body payload => payload
  | frame => (frame.method.map fun entry => encodeMethod entry.1 entry.2).getD []

/-- The type octet on the wire. -/
def msgType : ClientFrame → UInt8
  | contentHeader _ => MsgFormat.contentHeader
  | body _ => MsgFormat.body
  | _ => MsgFormat.method

/-- A frame as the client writes it. -/
def encode (channel : UInt16) (frame : ClientFrame) : List UInt8 :=
  encodeFrame frame.msgType channel frame.payload

/-- The short strings among the arguments. -/
def shortStrings : ClientFrame → List (List UInt8)
  | declare _ name _ => [name]
  | publish _ exchange key _ => [exchange, key]
  | consume _ name _ => [name]
  | _ => []

/-- The short strings have lengths of one octet, and the payload fits the buffers of a
connection; a frame within the announced frame-max always does. -/
structure Fits (frame : ClientFrame) : Prop where
  room : frame.payload.length + 3 ≤ maxLine
  strings : ∀ string ∈ frame.shortStrings, string.length < 256

instance (frame : ClientFrame) : Decidable frame.Fits :=
  decidable_of_iff (frame.payload.length + 3 ≤ maxLine ∧
    ∀ string ∈ frame.shortStrings, string.length < 256) ⟨fun h => ⟨h.1, h.2⟩, fun h => ⟨h.1, h.2⟩⟩

/-- A string as C sees it. -/
def string (bytes : List UInt8) : List UInt8 := bytes.takeWhile (· ≠ 0)

/-- What the client asks of the message broker. -/
def requests (t : ℤ) : ClientFrame → List (MessageOp (List UInt8) ℤ (List UInt8))
  | declare _ name _ => [.declare t (string name)]
  | publish _ _ key _ => [.select t (string key)]
  | body payload => [.publish t (string payload)]
  | consume _ name _ => [.select t (string name), .attach t]
  | ack _ => [.settle t]
  | _ => []

/-- The methods that answer the frame. -/
def answers : ClientFrame → List MethodHeader
  | startOk _ => [⟨ClassId.connection, MethodId.connectionTune⟩]
  | openConnection _ => [⟨ClassId.connection, MethodId.connectionOpenOk⟩]
  | closeConnection _ => [⟨ClassId.connection, MethodId.connectionCloseOk⟩]
  | openChannel _ => [⟨ClassId.channel, MethodId.channelOpenOk⟩]
  | closeChannel _ => [⟨ClassId.channel, MethodId.channelCloseOk⟩]
  | declare _ _ _ => [⟨ClassId.queue, MethodId.queueDeclareOk⟩]
  | consume _ _ _ => [⟨ClassId.basic, MethodId.basicConsumeOk⟩]
  | _ => []

end ClientFrame

/-- How far a session is: what the client may send next. -/
inductive Phase where
  | startOk
  | tuneOk
  | openConnection
  /-- A connection without a channel. -/
  | outside
  | ready
  /-- A message was announced, and its content header is due. -/
  | header
  | content
  | consuming
  | closed
  deriving DecidableEq, Repr

namespace Phase

/-- The phase after a frame, if the client may send it. -/
def follow : Phase → ClientFrame → Option Phase
  | startOk, .startOk _ => some tuneOk
  | tuneOk, .tuneOk _ => some openConnection
  | openConnection, .openConnection _ => some outside
  | outside, .openChannel _ => some ready
  | outside, .closeConnection _ => some closed
  | ready, .declare _ _ _ => some ready
  | ready, .publish _ _ _ _ => some header
  | ready, .consume _ _ _ => some consuming
  | ready, .closeChannel _ => some outside
  | ready, .closeConnection _ => some closed
  | header, .contentHeader _ => some content
  | content, .body _ => some content
  | content, .publish _ _ _ _ => some header
  | content, .closeChannel _ => some outside
  | content, .closeConnection _ => some closed
  | consuming, .ack _ => some consuming
  | _, _ => none

/-- The frames are in an order in which the client may send them. -/
def Allows : Phase → List ClientFrame → Prop
  | _, [] => True
  | phase, frame :: rest => ∃ next, phase.follow frame = some next ∧ next.Allows rest

instance decidableAllows : (phase : Phase) → (frames : List ClientFrame) →
    Decidable (phase.Allows frames)
  | _, [] => .isTrue trivial
  | phase, frame :: rest =>
    match hfollow : phase.follow frame with
    | none => .isFalse fun ⟨_, h, _⟩ => by cases hfollow.symm.trans h
    | some next =>
      match decidableAllows next rest with
      | .isTrue h => .isTrue ⟨next, hfollow, h⟩
      | .isFalse h => .isFalse fun ⟨_, hnext, hrest⟩ =>
        h (Option.some.inj (hfollow.symm.trans hnext) ▸ hrest)

end Phase

/-- The frames of a client, each with its channel, as it writes them one after the other. -/
def encodeScript (script : List (UInt16 × ClientFrame)) : List UInt8 :=
  (script.map fun entry => entry.2.encode entry.1).flatten

/-- A client that does what it may, and sends nothing that does not fit. -/
structure Legal (script : List (UInt16 × ClientFrame)) : Prop where
  order : Phase.startOk.Allows (script.map Prod.snd)
  fits : ∀ entry ∈ script, entry.2.Fits

instance (script : List (UInt16 × ClientFrame)) : Decidable (Legal script) :=
  decidable_of_iff (Phase.startOk.Allows (script.map Prod.snd) ∧ ∀ entry ∈ script, entry.2.Fits)
    ⟨fun h => ⟨h.1, h.2⟩, fun h => ⟨h.1, h.2⟩⟩

end AmqpBroker
