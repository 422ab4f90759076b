import AmqpBroker.Verification.Effects
import AmqpBroker.Verification.Frames

/-!
# What clients send

The frames of a client in network order, and what the readers make of a complete one: the
header, the payload and the end octet are taken from the stream and nothing behind them
is touched.
-/

namespace AmqpBroker

open Foundations Program MachineState

/-- A short string of the protocol. -/
def shortString (string : List UInt8) : List UInt8 := UInt8.ofNat string.length :: string

/-- A METHOD frame on the first channel. -/
def methodFrame (header : MethodHeader) (arguments : List UInt8) : List UInt8 :=
  encodeFrame MsgFormat.method 1 (encodeMethod header arguments)

/-- A CONTENT_HEADER frame that announces a body of this size. -/
def headerFrame (bodySize : ℕ) : List UInt8 :=
  encodeFrame MsgFormat.contentHeader 1
    (toBE 2 ClassId.basic.toNat ++ toBE 2 0 ++ toBE 8 bodySize ++ toBE 2 0)

/-- A BODY frame. -/
def bodyFrame (payload : List UInt8) : List UInt8 := encodeFrame MsgFormat.body 1 payload

/-- The method of Queue.Declare. -/
def declareMethod : MethodHeader := ⟨ClassId.queue, MethodId.queueDeclare⟩

/-- The method of Basic.Publish. -/
def publishMethod : MethodHeader := ⟨ClassId.basic, MethodId.basicPublish⟩

/-- The method of Basic.Consume. -/
def consumeMethod : MethodHeader := ⟨ClassId.basic, MethodId.basicConsume⟩

/-- A Queue.Declare frame. -/
def declareFrame (name : List UInt8) : List UInt8 :=
  methodFrame declareMethod ([0, 0] ++ shortString name ++ [0, 0, 0, 0, 0])

/-- A Basic.Publish frame; the queue is named by the routing key. -/
def publishFrame (exchange key : List UInt8) : List UInt8 :=
  methodFrame publishMethod ([0, 0] ++ shortString exchange ++ shortString key ++ [0])

/-- A Basic.Consume frame. -/
def consumeFrame (name : List UInt8) : List UInt8 :=
  methodFrame consumeMethod ([0, 0] ++ shortString name ++ shortString [] ++ [0, 0, 0, 0, 0])

/-- What a client sends to close its channel and open it again. -/
def reopenFrames : List UInt8 :=
  methodFrame ⟨ClassId.channel, MethodId.channelClose⟩ [] ++
    methodFrame ⟨ClassId.channel, MethodId.channelOpen⟩ []

/-- What a client sends to open a connection and a channel. -/
def openingFrames : List UInt8 :=
  defaultAmqpHeader ++ methodFrame ⟨ClassId.connection, MethodId.connectionStartOk⟩ [] ++
    methodFrame ⟨ClassId.connection, MethodId.connectionTuneOk⟩ [] ++
    methodFrame ⟨ClassId.connection, MethodId.connectionOpen⟩ [] ++
    methodFrame ⟨ClassId.channel, MethodId.channelOpen⟩ []

/-- A connection is accepted with these bytes to read, and its thread takes some steps. -/
def session (threadId : ℤ) (bytes : List UInt8) (steps : ℕ) : List Act :=
  .accept threadId (Socket.chunk bytes) :: List.replicate steps (.run threadId)

/-- Why a step has no successor. -/
def stopReason {α : Type} : Except Abort α → Option Abort
  | .ok _ => none
  | .error reason => some reason

/-- The reason of a stop. -/
theorem eq_error_of_stopReason {α : Type} {result : Except Abort α} {reason : Abort}
    (h : stopReason result = some reason) : result = .error reason := by
  cases result with
  | ok a => cases h
  | error reason' =>
    cases h
    rfl

/-- What is seen of the first connection. -/
def Broker.firstConn (s : Broker) : Option (MachineState × Socket) :=
  (s.conns 0).map fun c => (c.machine, c.socket)

/-- What is seen of the first connection. -/
theorem Broker.firstConn_eq_some {s : Broker} {m : MachineState} {socket : Socket}
    (h : s.firstConn = some (m, socket)) :
    ∃ c, s.conns 0 = some c ∧ c.machine = m ∧ c.socket = socket := by
  obtain ⟨c, hc, heq⟩ := Option.map_eq_some_iff.mp h
  cases heq
  exact ⟨c, hc, rfl, rfl⟩

variable {w w' : World} {payload rest : List UInt8} {msgType : UInt8} {channel : UInt16}
  {method : MethodHeader} {arguments : List UInt8}

/-- A method has four bytes before its arguments. -/
@[simp] theorem encodeMethod_length (method : MethodHeader) (arguments : List UInt8) :
    (encodeMethod method arguments).length = arguments.length + 4 := by
  simp [encodeMethod]
  omega

/-- The length field of a payload that fits the buffers is its length. -/
theorem toNat_ofNat_length {n : ℕ} (h : n < 2 ^ 32) : (UInt32.ofNat n).toNat = n := by
  rw [UInt32.toNat_ofNat']
  exact Nat.mod_eq_of_lt h

/-- A length that fits the buffers is requested as it is. -/
theorem requested_ofNat {n : ℕ} (h : n ≤ maxLine) : requested (UInt32.ofNat n) = n := by
  have hmax : maxLine < 2 ^ 32 := by decide
  have hnat := toNat_ofNat_length (n := n) (by omega)
  rw [requested_of_le (by omega), hnat]

/-- The header of a frame is read and the payload is next. -/
theorem readMessageHeader_frame
    (h : w.socket.Delivers (encodeFrame msgType channel payload ++ rest))
    (hlength : payload.length < 2 ^ 32) :
    readMessageHeader w = .ok (some ⟨msgType, channel, UInt32.ofNat payload.length⟩,
        w.receive (encodeHeader msgType channel payload.length)) ∧
      (w.receive (encodeHeader msgType channel payload.length)).socket.Delivers
        (payload ++ frameEnd :: rest) := by
  have hseven := encodeHeader_length msgType channel payload.length
  have hsplit : encodeFrame msgType channel payload ++ rest =
      encodeHeader msgType channel payload.length ++ (payload ++ frameEnd :: rest) := by
    simp [encodeFrame]
  rw [hsplit] at h
  obtain ⟨hread, hrest⟩ := readMessageHeader_of_part hseven h
  rw [decodeHeader_encodeHeader _ _ _ hlength] at hread
  exact ⟨hread, hrest⟩

/-- The payload of a METHOD frame that fits the buffers is read as its method. -/
theorem readMethod_frame (h : w.socket.Delivers (encodeMethod method arguments ++ frameEnd :: rest))
    (hroom : (encodeMethod method arguments).length + 3 ≤ maxLine) :
    readMethod (toInt (UInt32.ofNat (encodeMethod method arguments).length)) w =
        .ok (some method, w.afterMethod (encodeMethod method arguments) frameEnd) ∧
      (w.afterMethod (encodeMethod method arguments) frameEnd).socket.Delivers rest := by
  have hrequest := requested_ofNat (n := (encodeMethod method arguments).length) (by omega)
  have hfour : 4 ≤ (encodeMethod method arguments).length := by simp
  have hbound : requested (UInt32.ofNat (encodeMethod method arguments).length) <
      (encodeMethod method arguments ++ frameEnd :: rest).length := by
    rw [hrequest, List.length_append, List.length_cons]
    omega
  have hread := readMethod_complete h
    (show 4 ≤ requested (UInt32.ofNat (encodeMethod method arguments).length) by omega) (by omega)
    hbound
  have hend := parsedMethod_delivers h
    (show (encodeMethod method arguments).length ≤ _ by rw [List.length_append]; omega)
  have htake : (encodeMethod method arguments ++ frameEnd :: rest).take
      (requested (UInt32.ofNat (encodeMethod method arguments).length)) =
        encodeMethod method arguments := by
    rw [hrequest, List.take_left]
  have hlast : (encodeMethod method arguments ++ frameEnd :: rest)[requested
      (UInt32.ofNat (encodeMethod method arguments).length)] = frameEnd := by
    simp only [hrequest, List.getElem_append_right (Nat.le_refl _), Nat.sub_self,
      List.getElem_cons_zero]
  rw [htake, decodeMethod_encodeMethod, hlast] at hread
  rw [List.take_left, List.drop_left] at hend
  have hdelivers := receive_delivers hend (show 1 ≤ (frameEnd :: rest).length by simp)
  exact ⟨hread, hdelivers⟩

/-- The world after a complete METHOD frame was read. -/
def World.afterFrame (w : World) (channel : UInt16) (method : MethodHeader)
    (arguments : List UInt8) : World :=
  (w.receive (encodeHeader MsgFormat.method channel
    (encodeMethod method arguments).length)).afterMethod (encodeMethod method arguments) frameEnd

/-- A METHOD frame that fits the buffers is read as its method. -/
theorem readFrame_frame
    (h : w.socket.Delivers
      (encodeFrame MsgFormat.method channel (encodeMethod method arguments) ++ rest))
    (hroom : (encodeMethod method arguments).length + 3 ≤ maxLine) :
    readFrame w = .ok (some method, w.afterFrame channel method arguments) ∧
      (w.afterFrame channel method arguments).socket.Delivers rest := by
  have hmax : maxLine < 2 ^ 32 := by decide
  obtain ⟨hheader, hpayload⟩ := readMessageHeader_frame h (by omega)
  obtain ⟨hmethod, hrest⟩ := readMethod_frame hpayload hroom
  refine ⟨?_, hrest⟩
  rw [readFrame, bind_of_ok hheader]
  simp only
  rw [bind_of_ok hmethod]
  rfl

/-- A METHOD frame that does not fit the buffers stops `read_method`. -/
theorem readMethod_frame_overrun (h : w.socket.Delivers (payload ++ frameEnd :: rest))
    (hlength : payload.length < 2 ^ 32) (hover : maxLine < payload.length + 3) :
    readMethod (toInt (UInt32.ofNat payload.length)) w = .error .bufferRange := by
  have hmax : maxLine < 2 ^ 31 := by decide
  have hrequest := requested_eq (UInt32.ofNat payload.length)
  rw [toNat_ofNat_length hlength] at hrequest
  have hbytes : payload.length < (payload ++ frameEnd :: rest).length := by
    rw [List.length_append, List.length_cons]
    omega
  apply readMethod_overrun h
  split at hrequest
  · exact Or.inr ⟨by omega, by omega⟩
  · exact Or.inl (by omega)

end AmqpBroker
