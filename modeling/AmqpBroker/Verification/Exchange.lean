import AmqpBroker.Verification.Dispatch
import AmqpBroker.Verification.Primitives

/-!
# Frames taken and frames sent

What a handler takes from the client's stream and what it writes, byte for byte: a handler
that goes on after a method has taken exactly the frame of that method, and every sender
writes one frame in network order.
-/

namespace AmqpBroker

open Foundations Program MachineState

variable {w w' w'' : World} {m m' : MachineState} {bytes : List UInt8} {P : Event → Prop}

/-- A frame as the readers of methods take it: header, payload and one more octet. Neither
the type octet nor the end octet is looked at. -/
def FrameOf (method : MethodHeader) (frame : List UInt8) : Prop :=
  ∃ header payload endOctet, frame = header ++ payload ++ [endOctet] ∧ header.length = 7 ∧
    payload.length = (decodeHeader header).length.toNat ∧ 4 ≤ payload.length ∧
    decodeMethod payload = method

/-- From the one stream to the other exactly the frame of a method was taken. -/
def Takes (method : MethodHeader) (w w' : World) : Prop :=
  ∀ bytes, w.socket.Delivers bytes →
    ∃ frame rest, bytes = frame ++ rest ∧ FrameOf method frame ∧ w'.socket.Delivers rest

/-- Some bytes were taken, perhaps none. -/
def Consumes (w w' : World) : Prop :=
  ∀ bytes, w.socket.Delivers bytes → ∃ taken rest, bytes = taken ++ rest ∧ w'.socket.Delivers rest

/-- A step that does not read takes nothing. -/
theorem Consumes.of_eq (h : w'.socket = w.socket) : Consumes w w' :=
  fun bytes hw => ⟨[], bytes, rfl, by rwa [h]⟩

instance : Std.Refl Consumes := ⟨fun _ => .of_eq rfl⟩

instance : IsTrans World Consumes where
  trans _ _ _ h h' bytes hw := by
    obtain ⟨left, middle, rfl, hmiddle⟩ := h bytes hw
    obtain ⟨right, rest, rfl, hrest⟩ := h' middle hmiddle
    exact ⟨left ++ right, rest, (List.append_assoc _ _ _).symm, hrest⟩

/-- `read_until` takes bytes from the front of the stream. -/
theorem keeps_consumes_readUntil {size : ℕ} (hsize : size < sizeRange) :
    Keeps Consumes (readUntil size) := by
  intro w n w' h bytes hw
  have hloop := readIntoLoop_delivers hw size 0 w.cs.recvline (Nat.zero_le _) hsize (Nat.zero_le _)
  unfold readUntil at h
  rw [hloop] at h
  by_cases hroom : maxLine < 0 + min (size - 0) bytes.length
  · rw [if_pos hroom] at h
    cases h
  · rw [if_neg hroom] at h
    by_cases hlong : size - 0 ≤ bytes.length
    · rw [if_pos hlong] at h
      cases h
      exact ⟨bytes.take size, bytes.drop size, (List.take_append_drop size bytes).symm,
        hw.advance size⟩
    · rw [if_neg hlong] at h
      cases h
      exact ⟨bytes, [], (List.append_nil bytes).symm, .nil⟩

/-- Whatever is built from the primitives takes bytes from the front of the stream. -/
theorem Built.consumes {α : Type} {x : Action α} (h : Built P x) : Keeps Consumes x := by
  induction h with
  | pure a => exact Keeps.pure a
  | stop reason => exact Keeps.stop reason
  | bind _ _ ihx ihf => exact Keeps.bind ihx ihf
  | field view => exact Keeps.read _
  | assign change => exact Keeps.update fun _ => .of_eq rfl
  | onStore x =>
    intro w a w' h
    rw [(onStore_eq_ok h).2]
    exact .of_eq rfl
  | record _ => exact Keeps.update fun _ => .of_eq rfl
  | write _ _ ihx =>
    refine Keeps.bind (fun w n w' h => ?_) fun _ => ihx
    rw [write_eq_ok h]
    exact .of_eq rfl
  | readUntil hsize => exact keeps_consumes_readUntil hsize

/-- The trace has grown by calls that `P` allows. -/
def Records (P : Event → Prop) (w w' : World) : Prop :=
  ∃ events, w'.trace = w.trace ++ events ∧ ∀ event ∈ events, P event

/-- A step that calls nothing records nothing. -/
theorem Records.of_eq (h : w'.trace = w.trace) : Records P w w' :=
  ⟨[], by rw [h, List.append_nil], by simp⟩

instance : Std.Refl (Records P) := ⟨fun _ => .of_eq rfl⟩

instance : IsTrans World (Records P) where
  trans _ _ _ h h' := by
    obtain ⟨left, hleft, hleftP⟩ := h
    obtain ⟨right, hright, hrightP⟩ := h'
    refine ⟨left ++ right, by rw [hright, hleft, List.append_assoc], ?_⟩
    intro event hevent
    rcases List.mem_append.mp hevent with hmem | hmem
    · exact hleftP event hmem
    · exact hrightP event hmem

/-- Reading is not recorded. -/
theorem keeps_records_readUntil (size : ℕ) : Keeps (Records P) (readUntil size) := by
  intro w n w' h
  unfold readUntil at h
  split at h
  · cases h
    exact .of_eq rfl
  · cases h

/-- Whatever is built from the primitives records only the calls it may. -/
theorem Built.records {α : Type} {x : Action α} (h : Built P x) : Keeps (Records P) x := by
  induction h with
  | pure a => exact Keeps.pure a
  | stop reason => exact Keeps.stop reason
  | bind _ _ ihx ihf => exact Keeps.bind ihx ihf
  | field view => exact Keeps.read _
  | assign change => exact Keeps.update fun _ => .of_eq rfl
  | onStore x =>
    intro w a w' h
    rw [(onStore_eq_ok h).2]
    exact .of_eq rfl
  | @record event hevent =>
    apply Keeps.update
    intro w
    exact ⟨[event], rfl, by simpa using hevent⟩
  | @write _ bytes _ hbytes _ ihx =>
    refine Keeps.bind (fun w n w' h => ?_) fun _ => ihx
    rw [write_eq_ok h]
    exact ⟨[.write bytes], rfl, by simpa using hbytes⟩
  | readUntil _ => exact keeps_records_readUntil _

/-- A payload and the octet behind it were taken from the stream. -/
theorem afterMethod_delivers (h : w.socket.Delivers bytes) {count : ℕ} (hcount : count < bytes.length) :
    (w.afterMethod (bytes.take count) bytes[count]).socket.Delivers (bytes.drop (count + 1)) := by
  have hrest := parsedMethod_delivers h (Nat.le_of_lt hcount)
  have hend := hrest.advance 1
  rwa [List.drop_drop] at hend

/-- A header, a payload and one more octet make up the front of a stream. -/
theorem split_frame {count : ℕ} (hcount : count < (bytes.drop 7).length) :
    bytes = bytes.take 7 ++ (bytes.drop 7).take count ++ [(bytes.drop 7)[count]] ++
      (bytes.drop 7).drop (count + 1) := by
  have hpayload : (bytes.drop 7).take count ++ [(bytes.drop 7)[count]] ++
      (bytes.drop 7).drop (count + 1) = bytes.drop 7 := by
    rw [List.append_assoc, List.singleton_append, List.getElem_cons_drop, List.take_append_drop]
  rw [List.append_assoc (bytes.take 7), List.append_assoc (bytes.take 7), hpayload,
    List.take_append_drop]

/-- A method that was read is a frame that was taken. -/
theorem readMethod_takes {messageHeader : MessageHeader} {method : MethodHeader}
    (hheader : readMessageHeader w = .ok (some messageHeader, w'))
    (hmethod : readMethod (toInt messageHeader.length) w' = .ok (some method, w'')) :
    Takes method w w'' := by
  intro bytes hw
  by_cases hseven : 7 ≤ bytes.length
  · rw [readMessageHeader_complete hw hseven] at hheader
    cases hheader
    have hrest := receive_delivers hw hseven
    obtain ⟨hbytes, hlong, hroom, rfl, rfl⟩ := readMethod_eq_some hrest hmethod
    have hlength := requested_of_le
      (le_trans (le_requested (decodeHeader (bytes.take 7)).length) (by omega))
    have hheader7 : (bytes.take 7).length = 7 := by rw [List.length_take]; omega
    have hpayload : ((bytes.drop 7).take
        (requested (decodeHeader (bytes.take 7)).length)).length =
        requested (decodeHeader (bytes.take 7)).length := by
      rw [List.length_take]
      omega
    refine ⟨_, _, split_frame hbytes, ⟨_, _, _, rfl, hheader7, ?_, ?_, rfl⟩,
      afterMethod_delivers hrest hbytes⟩
    · rw [hpayload, hlength]
    · rw [hpayload]
      exact hlong
  · rw [readMessageHeader_short hw (by omega)] at hheader
    cases hheader

/-- A 16-bit field on the wire. -/
theorem toLE_ntohs (n : UInt16) : toLE 2 (ntohs n).toNat = toBE 2 n.toNat := by
  have hlt : swapBytes 2 n.toNat < 2 ^ 16 := swapBytes_lt 2 n.toNat
  rw [ntohs, UInt16.toNat_ofNat', Nat.mod_eq_of_lt hlt, toLE_swapBytes]

/-- A 32-bit field on the wire. -/
theorem toLE_ntohl (n : UInt32) : toLE 4 (ntohl n).toNat = toBE 4 n.toNat := by
  have hlt : swapBytes 4 n.toNat < 2 ^ 32 := swapBytes_lt 4 n.toNat
  rw [ntohl, UInt32.toNat_ofNat', Nat.mod_eq_of_lt hlt, toLE_swapBytes]

/-- The header of a sent frame is in network order. -/
theorem unparseMessageHeader_eq (msgType : UInt8) (channel : UInt16) {length : ℕ}
    (h : length < 2 ^ 32) :
    unparseMessageHeader ⟨msgType, channel, UInt32.ofNat length⟩ =
      encodeHeader msgType channel length := by
  rw [unparseMessageHeader, encodeHeader, toLE_ntohs, toLE_ntohl, toNat_ofNat_length h,
    List.cons_append]

/-- The class and method of a sent frame are in network order. -/
theorem unparseMethodHeader_append (header : MethodHeader) (arguments : List UInt8) :
    unparseMethodHeader header ++ arguments = encodeMethod header arguments := by
  rw [unparseMethodHeader, encodeMethod, toLE_ntohs, toLE_ntohs]

/-- These frames were written and nothing was read. -/
structure Sends (frames : List (List UInt8)) (w w' : World) : Prop where
  trace : w'.trace = w.trace ++ frames.map Event.write
  socket : w'.socket = w.socket
  writes : w'.writes = w.writes.drop frames.length

/-- Frames are sent one after the other. -/
theorem Sends.append {left right : List (List UInt8)} (h : Sends left w w')
    (h' : Sends right w' w'') : Sends (left ++ right) w w'' where
  trace := by rw [h'.trace, h.trace, List.map_append, List.append_assoc]
  socket := h'.socket.trans h.socket
  writes := by rw [h'.writes, h.writes, List.drop_drop, List.length_append]

/-- The calls of `write` that are left return if all do. -/
theorem Sends.writesReturn {frames : List (List UInt8)} (h : Sends frames w w')
    (hreturns : w.WritesReturn) : w'.WritesReturn := by
  intro result hresult
  rw [h.writes] at hresult
  exact hreturns result (List.mem_of_mem_drop hresult)

/-- A frame that does not fit the buffer is not sent. -/
theorem sendFrame_of_le {frame : List UInt8} (h : maxLine ≤ frame.length) (w : World) :
    sendFrame frame w = .error .bufferRange := by
  have hrange : checkRange 0 (frame.length + 1) w = .error .bufferRange := by
    rw [checkRange, if_neg (by omega)]
    rfl
  rw [sendFrame, bind_of_error hrange]

/-- A frame that fits is completed in `sendline` and handed to `write`. -/
theorem sendFrame_of_lt {frame : List UInt8} (h : frame.length < maxLine) (w : World) :
    ∃ v, sendFrame frame w = (write (frame ++ [frameEnd]) >>= fun _ => pure ()) v ∧
      v.trace = w.trace ∧ v.socket = w.socket ∧ v.writes = w.writes := by
  have hrange : checkRange 0 (frame.length + 1) w = .ok ((), w) := by
    rw [checkRange, if_pos (by omega)]
    rfl
  have hslice : ((w.cs.sendline.write 0 frame).write frame.length [frameEnd]).slice 0
      (frame.length + 1) = frame ++ [frameEnd] := by
    have happend := Buffer.write_write_append w.cs.sendline 0 frame [frameEnd]
    rw [Nat.zero_add] at happend
    rw [happend, Buffer.slice_write_zero _ _ _ (by simp), List.take_of_length_le (by simp)]
  refine ⟨{ w with cs := { w.cs with
    sendline := (w.cs.sendline.write 0 frame).write frame.length [frameEnd] } }, ?_, rfl, rfl, rfl⟩
  rw [sendFrame, bind_of_ok hrange, ← hslice]
  rfl

/-- A sender writes its frame and the end octet. -/
theorem sendFrame_sends {frame : List UInt8} (h : sendFrame frame w = .ok ((), w')) :
    Sends [frame ++ [frameEnd]] w w' ∧ frame.length < maxLine := by
  by_cases hlength : frame.length < maxLine
  · obtain ⟨v, hrun, htrace, hsocket, hwrites⟩ := sendFrame_of_lt hlength w
    rw [hrun] at h
    obtain ⟨n, v', hwrite, h⟩ := bind_eq_ok.mp h
    cases h
    rw [write_eq_ok hwrite]
    exact ⟨⟨by rw [htrace]; rfl, hsocket, by rw [hwrites]; exact List.drop_one.symm⟩, hlength⟩
  · cases (sendFrame_of_le (Nat.le_of_not_lt hlength) w).symm.trans h

/-- A sender stops where its frame leaves the buffer, or in `write`. -/
theorem sendFrame_eq_error {frame : List UInt8} {reason : Abort}
    (h : sendFrame frame w = .error reason) :
    (maxLine ≤ frame.length ∧ reason = .bufferRange) ∨
      ∃ result ∈ w.writes, result.stop = some reason := by
  by_cases hlength : frame.length < maxLine
  · obtain ⟨v, hrun, -, -, hwrites⟩ := sendFrame_of_lt hlength w
    rw [hrun] at h
    rcases bind_eq_error.mp h with hwrite | ⟨_, v', -, h⟩
    · rw [← hwrites]
      exact Or.inr (write_eq_error hwrite)
    · cases h
  · have hlong := Nat.le_of_not_lt hlength
    cases (sendFrame_of_le hlong w).symm.trans h
    exact Or.inl ⟨hlong, rfl⟩

/-- A sender does not return where its `write` does not. -/
theorem sendFrame_of_stop {frame : List UInt8} {result : WriteResult} {later : List WriteResult}
    {reason : Abort} (h : frame.length < maxLine) (hwrites : w.writes = result :: later)
    (hstop : result.stop = some reason) : sendFrame frame w = .error reason := by
  obtain ⟨v, hrun, -, -, hv⟩ := sendFrame_of_lt h w
  rw [hrun]
  exact bind_of_error (write_of_stop (hv.trans hwrites) hstop) _

/-- A frame that fits the buffer is sent when `write` returns. -/
theorem sendFrame_returns {frame : List UInt8} (h : frame.length < maxLine)
    (hreturns : w.WritesReturn) : ∃ w', sendFrame frame w = .ok ((), w') := by
  cases hrun : sendFrame frame w with
  | ok result => exact ⟨result.2, rfl⟩
  | error reason =>
    rcases sendFrame_eq_error hrun with ⟨hlong, -⟩ | ⟨result, hmem, hstop⟩
    · exact absurd hlong (by omega)
    · cases (hreturns result hmem).symm.trans hstop

/-- `send_method` writes a METHOD frame. -/
theorem sendMethod_sends {header : MethodHeader} {channel : UInt16} {arguments : List UInt8}
    (h : sendMethod header channel arguments w = .ok ((), w')) :
    Sends [encodeFrame MsgFormat.method channel (encodeMethod header arguments)] w w' := by
  obtain ⟨hsends, hlength⟩ := sendFrame_sends h
  have hmax : maxLine + 4 < 2 ^ 32 := by decide
  simp only [List.length_append] at hlength
  rwa [unparseMessageHeader_eq _ _ (by omega), List.append_assoc (encodeHeader _ _ _),
    unparseMethodHeader_append, ← encodeMethod_length header arguments] at hsends

/-- `send_content_header` writes a CONTENT_HEADER frame when its flags announce its properties. -/
theorem sendContentHeader_sends {channel : UInt16} {header : ContentHeader}
    {properties : List UInt8} (hflags : bitCardinality16 header.propertyFlags = properties.length)
    (h : sendContentHeader channel header properties w = .ok ((), w')) :
    Sends [encodeFrame MsgFormat.contentHeader channel (unparseContentHeader header ++ properties)]
      w w' := by
  obtain ⟨hsends, hlength⟩ := sendFrame_sends h
  have hmax : maxLine + 14 < 2 ^ 32 := by decide
  have hpayload : (unparseContentHeader header ++ properties).length = 14 + properties.length := by
    simp [unparseContentHeader]
    omega
  rw [hflags, List.take_length, List.append_assoc] at hsends hlength
  simp only [List.length_append] at hlength
  rwa [unparseMessageHeader_eq _ _ (by omega), ← hpayload] at hsends

/-- `send_body` writes a BODY frame. -/
theorem sendBody_sends {channel : UInt16} {payload : List UInt8}
    (h : sendBody channel payload w = .ok ((), w')) :
    Sends [encodeFrame MsgFormat.body channel payload] w w' := by
  obtain ⟨hsends, hlength⟩ := sendFrame_sends h
  have hmax : maxLine < 2 ^ 32 := by decide
  simp only [List.length_append] at hlength
  rwa [unparseMessageHeader_eq _ _ (by omega)] at hsends

/-- The method of a METHOD frame. -/
def methodOf (frame : List UInt8) : Option MethodHeader :=
  if frame.head? = some MsgFormat.method then some (decodeMethod (frame.drop 7)) else none

/-- The methods sent in a sequence of calls. -/
def methodsSent (trace : List Event) : List MethodHeader := (framesSent trace).filterMap methodOf

/-- The methods of two stretches of calls. -/
theorem methodsSent_append (left right : List Event) :
    methodsSent (left ++ right) = methodsSent left ++ methodsSent right := by
  rw [methodsSent, framesSent, List.filterMap_append, List.filterMap_append]
  rfl

/-- Where nothing was written no method was. -/
theorem framesSent_eq_nil {events : List Event} (h : ∀ event ∈ events, NotSent event) :
    framesSent events = [] := List.filterMap_eq_nil_iff.mpr h

/-- The frames of a sequence of writes. -/
@[simp] theorem framesSent_map_write (frames : List (List UInt8)) :
    framesSent (frames.map Event.write) = frames := by
  induction frames with
  | nil => rfl
  | cons frame rest ih =>
    rw [List.map_cons, framesSent, List.filterMap_cons]
    exact congrArg (frame :: ·) ih

/-- The frame of a method, seen from outside. -/
@[simp] theorem methodOf_encodeFrame (channel : UInt16) (header : MethodHeader)
    (arguments : List UInt8) :
    methodOf (encodeFrame MsgFormat.method channel (encodeMethod header arguments)) =
      some header := by
  have hhead : (encodeFrame MsgFormat.method channel (encodeMethod header arguments)).head? =
      some MsgFormat.method := rfl
  have hpayload : encodeMethod header arguments ++ [frameEnd] =
      encodeMethod header (arguments ++ [frameEnd]) := List.append_assoc _ _ _
  rw [methodOf, if_pos hhead, encodeFrame, List.append_assoc,
    List.drop_left' (encodeHeader_length _ _ _), hpayload, decodeMethod_encodeMethod]

/-- Other frames carry no method. -/
theorem methodOf_encodeFrame_of_ne {msgType : UInt8} (h : msgType ≠ MsgFormat.method)
    (channel : UInt16) (payload : List UInt8) :
    methodOf (encodeFrame msgType channel payload) = none := by
  have hhead : (encodeFrame msgType channel payload).head? = some msgType := rfl
  rw [methodOf, if_neg]
  rw [hhead, Option.some.injEq]
  exact h

/-- The method that the handler of a state sends. -/
def MachineState.reply : MachineState → Option MethodHeader
  | headerReceived => some ⟨ClassId.connection, MethodId.connectionStart⟩
  | startOkReceived => some ⟨ClassId.connection, MethodId.connectionTune⟩
  | openConnectionReceived => some ⟨ClassId.connection, MethodId.connectionOpenOk⟩
  | closeConnectionReceived => some ⟨ClassId.connection, MethodId.connectionCloseOk⟩
  | openChannelReceived => some ⟨ClassId.channel, MethodId.channelOpenOk⟩
  | closeChannelReceived => some ⟨ClassId.channel, MethodId.channelCloseOk⟩
  | queueDeclareReceived => some ⟨ClassId.queue, MethodId.queueDeclareOk⟩
  | basicConsumeReceived => some ⟨ClassId.basic, MethodId.basicConsumeOk⟩
  | valueDequeueReceived => some ⟨ClassId.basic, MethodId.basicDeliver⟩
  | _ => none

/-- The handlers that only answer. -/
theorem answer_eq_ok {header : MethodHeader} {channel : UInt16} {arguments : List UInt8}
    {next : MachineState}
    (h : (do sendMethod header channel arguments; pure next : Action MachineState) w = .ok (m', w')) :
    m' = next ∧
      Sends [encodeFrame MsgFormat.method channel (encodeMethod header arguments)] w w' := by
  obtain ⟨_, v, hsend, h⟩ := bind_eq_ok.mp h
  cases h
  exact ⟨rfl, sendMethod_sends hsend⟩

/-- The subscription is made and answered. -/
theorem actionBasicConsumeReceived_sends (h : actionBasicConsumeReceived w = .ok (m', w')) :
    m' = waitValueDequeue ∧
      w'.trace = w.trace ++ [.qAddSubscriber w.cs.currentQueue,
        .write (encodeFrame MsgFormat.method 1
          (encodeMethod ⟨ClassId.basic, MethodId.basicConsumeOk⟩
            (basicConsumeOkArgs w.cs.pastConsumeOkArgs)))] ∧
      w'.socket = w.socket := by
  obtain ⟨q, w₁, hq, h⟩ := bind_eq_ok.mp h
  cases hq
  obtain ⟨threadId, w₂, hthread, h⟩ := bind_eq_ok.mp h
  cases hthread
  obtain ⟨_, w₃, hadd, h⟩ := bind_eq_ok.mp h
  obtain ⟨_, w₄, hrecord, h⟩ := bind_eq_ok.mp h
  cases hrecord
  obtain ⟨hm', hsends⟩ := answer_eq_ok h
  rw [(onStore_eq_ok hadd).2] at hsends
  refine ⟨hm', ?_, hsends.socket⟩
  rw [hsends.trace, List.append_assoc]
  rfl

/-- `send_queue_declare_ok` writes a METHOD frame with what it put into its array. -/
theorem sendQueueDeclareOk_writes {channel : UInt16} {name : List UInt8}
    {messageCount consumerCount : UInt32}
    (h : sendQueueDeclareOk channel name messageCount consumerCount w = .ok ((), w')) :
    ∃ arguments, Sends [encodeFrame MsgFormat.method channel
      (encodeMethod ⟨ClassId.queue, MethodId.queueDeclareOk⟩ arguments)] w w' := by
  obtain ⟨arguments, v, hfill, h⟩ := bind_eq_ok.mp h
  rw [(onLocal_eq_ok hfill).2] at h
  exact ⟨arguments, sendMethod_sends h⟩

/-- The answer to Queue.Declare. -/
theorem actionQueueDeclareReceived_sends (h : actionQueueDeclareReceived w = .ok (m', w')) :
    ∃ arguments, Sends [encodeFrame MsgFormat.method 1
      (encodeMethod ⟨ClassId.queue, MethodId.queueDeclareOk⟩ arguments)] w w' := by
  obtain ⟨q, w₁, hq, h⟩ := bind_eq_ok.mp h
  cases hq
  obtain ⟨size, w₂, hsize, h⟩ := bind_eq_ok.mp h
  obtain ⟨buffer, w₃, hbuffer, h⟩ := bind_eq_ok.mp h
  cases hbuffer
  cases hname : w₂.cs.currentQueueName.cstring maxQueueName 0 with
  | none =>
    simp only [hname] at h
    cases h
  | some name =>
    simp only [hname] at h
    obtain ⟨_, v, hsend, h⟩ := bind_eq_ok.mp h
    cases h
    obtain ⟨arguments, hsends⟩ := sendQueueDeclareOk_writes hsend
    rw [(onStore_eq_ok hsize).2] at hsends
    exact ⟨arguments, hsends.trace, hsends.socket, hsends.writes⟩

/-- The frames of a delivery. -/
def deliveryFrames (body : List UInt8) : List (List UInt8) :=
  [encodeFrame MsgFormat.method 1
      (encodeMethod ⟨ClassId.basic, MethodId.basicDeliver⟩ basicDeliverArgs),
    encodeFrame MsgFormat.contentHeader 1
      (unparseContentHeader
        { classId := ClassId.basic, weight := 0, bodySize := UInt64.ofNat body.length,
          propertyFlags := 0x1000 } ++ contentHeaderProperties),
    encodeFrame MsgFormat.body 1 body]

/-- A delivery is three frames. -/
theorem actionValueDequeueReceived_sends (h : actionValueDequeueReceived w = .ok (m', w')) :
    ∃ body, w.cs.recvline.cstring maxLine 0 = some body ∧ m' = waitConsumeAck ∧
      Sends (deliveryFrames body) w w' := by
  obtain ⟨recvline, _, hrecvline, h⟩ := bind_eq_ok.mp h
  cases hrecvline
  obtain ⟨body, v, hbody, h⟩ := bind_eq_ok.mp h
  obtain ⟨hstring, hv⟩ := stringOf_eq_ok hbody
  rw [hv] at h
  obtain ⟨_, v₁, hdeliver, h⟩ := bind_eq_ok.mp h
  obtain ⟨_, v₂, hheader, h⟩ := bind_eq_ok.mp h
  obtain ⟨_, v₃, hsent, h⟩ := bind_eq_ok.mp h
  cases h
  refine ⟨body, hstring, rfl, ?_⟩
  have hflags : bitCardinality16 0x1000 = contentHeaderProperties.length := by decide
  have hfirst := sendMethod_sends hdeliver
  have hsecond := sendContentHeader_sends (by exact hflags) hheader
  have hthird := sendBody_sends hsent
  exact hfirst.append (hsecond.append hthird)

/-- A string in `recvline` is delivered. -/
theorem actionValueDequeueReceived_returns
    {body : List UInt8}
    (hstring : w.cs.recvline.cstring maxLine 0 = some body) (hroom : body.length + 8 ≤ maxLine)
    (hreturns : w.WritesReturn) : ∃ w', actions valueDequeueReceived w = .ok (waitConsumeAck, w') ∧
      Sends (deliveryFrames body) w w' := by
  have hbody : stringOf w.cs.recvline w = .ok (body, w) := by
    rw [stringOf, hstring]
    rfl
  obtain ⟨w₁, hdeliver⟩ : ∃ w₁, sendMethod ⟨ClassId.basic, MethodId.basicDeliver⟩ 1
      basicDeliverArgs w = .ok ((), w₁) := sendFrame_returns (by decide) hreturns
  have hreturns₁ := (sendMethod_sends hdeliver).writesReturn hreturns
  obtain ⟨w₂, hheader⟩ : ∃ w₂, sendContentHeader 1
      { classId := ClassId.basic, weight := 0, bodySize := UInt64.ofNat body.length,
        propertyFlags := 0x1000 } contentHeaderProperties w₁ = .ok ((), w₂) := by
    apply sendFrame_returns _ hreturns₁
    simp [unparseMessageHeader, unparseContentHeader]
    decide
  have hflags : bitCardinality16 0x1000 = contentHeaderProperties.length := by decide
  have hreturns₂ := (sendContentHeader_sends (by exact hflags) hheader).writesReturn hreturns₁
  obtain ⟨w₃, hsent⟩ : ∃ w₃, sendBody 1 body w₂ = .ok ((), w₃) := by
    apply sendFrame_returns _ hreturns₂
    simp [unparseMessageHeader]
    omega
  have hrun : actions valueDequeueReceived w = .ok (waitConsumeAck, w₃) := by
    change actionValueDequeueReceived w = _
    rw [actionValueDequeueReceived, field_bind_apply, bind_of_ok hbody, bind_of_ok hdeliver,
      bind_of_ok hheader, bind_of_ok hsent]
    rfl
  obtain ⟨body', hbody', -, hsends⟩ := actionValueDequeueReceived_sends hrun
  rw [hstring] at hbody'
  obtain rfl := Option.some.inj hbody'
  exact ⟨w₃, hrun, hsends⟩

/-- A handler sends the method of its state and no other. -/
theorem actions_methodsSent (h : actions m w = .ok (m', w')) :
    ∃ events, w'.trace = w.trace ++ events ∧ methodsSent events = m.reply.toList := by
  have hanswer : ∀ {header : MethodHeader} {channel : UInt16} {arguments : List UInt8},
      Sends [encodeFrame MsgFormat.method channel (encodeMethod header arguments)] w w' →
      ∃ events, w'.trace = w.trace ++ events ∧ methodsSent events = [header] := by
    intro header channel arguments hsends
    refine ⟨_, hsends.trace, ?_⟩
    rw [methodsSent, framesSent_map_write, List.filterMap_cons, methodOf_encodeFrame]
    rfl
  by_cases hsends : m.sends = false
  · obtain ⟨events, htrace, hevents⟩ := (built_actions_of_not_sends hsends).records _ _ _ h
    refine ⟨events, htrace, ?_⟩
    rw [methodsSent, framesSent_eq_nil hevents]
    cases m with
    | wait | waitStartOk | waitTuneOk | waitOpenConnection | waitOpenChannel | waitFunctional
    | basicPublishReceived | waitPublishContentHeader | waitPublishContent | waitValueDequeue
    | waitConsumeAck | finished | fail => rfl
    | _ => cases hsends
  · cases m with
    | headerReceived => exact hanswer (answer_eq_ok h).2
    | startOkReceived => exact hanswer (answer_eq_ok h).2
    | openConnectionReceived => exact hanswer (answer_eq_ok h).2
    | closeConnectionReceived => exact hanswer (answer_eq_ok h).2
    | openChannelReceived => exact hanswer (answer_eq_ok h).2
    | closeChannelReceived => exact hanswer (answer_eq_ok h).2
    | queueDeclareReceived =>
      obtain ⟨arguments, hsends⟩ := actionQueueDeclareReceived_sends h
      exact hanswer hsends
    | basicConsumeReceived =>
      refine ⟨_, (actionBasicConsumeReceived_sends h).2.1, ?_⟩
      change [_].filterMap methodOf = _
      rw [List.filterMap_cons, methodOf_encodeFrame]
      rfl
    | valueDequeueReceived =>
      obtain ⟨body, -, -, hsends⟩ := actionValueDequeueReceived_sends h
      refine ⟨_, hsends.trace, ?_⟩
      rw [methodsSent, framesSent_map_write, deliveryFrames, List.filterMap_cons,
        methodOf_encodeFrame, List.filterMap_cons, methodOf_encodeFrame_of_ne (by decide),
        List.filterMap_cons, methodOf_encodeFrame_of_ne (by decide)]
      rfl
    | _ => exact absurd rfl hsends

end AmqpBroker
