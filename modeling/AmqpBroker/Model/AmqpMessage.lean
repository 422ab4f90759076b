import AmqpBroker.Model.Util

/-!
# AMQP messages

The readers and senders of `amqp_message.c`. Readers work on `recvline` and `parsed`,
which keep whatever earlier frames left in them; senders build the frame in `sendline`
and hand it to `write`, and do not look at what `write` returns.
-/

namespace AmqpBroker

open Foundations

/-- `enum msg_format`. -/
abbrev MsgFormat.method : UInt8 := 1
abbrev MsgFormat.contentHeader : UInt8 := 2
abbrev MsgFormat.body : UInt8 := 3
abbrev MsgFormat.heartbeat : UInt8 := 4

/-- `enum class`. -/
abbrev ClassId.connection : UInt16 := 10
abbrev ClassId.channel : UInt16 := 20
abbrev ClassId.exchange : UInt16 := 40
abbrev ClassId.queue : UInt16 := 50
abbrev ClassId.basic : UInt16 := 60

/-- `enum method`; methods of different classes share numbers. -/
abbrev MethodId.connectionStart : UInt16 := 10
abbrev MethodId.connectionStartOk : UInt16 := 11
abbrev MethodId.connectionTune : UInt16 := 30
abbrev MethodId.connectionTuneOk : UInt16 := 31
abbrev MethodId.connectionOpen : UInt16 := 40
abbrev MethodId.connectionOpenOk : UInt16 := 41
abbrev MethodId.connectionClose : UInt16 := 50
abbrev MethodId.connectionCloseOk : UInt16 := 51
abbrev MethodId.channelOpen : UInt16 := 10
abbrev MethodId.channelOpenOk : UInt16 := 11
abbrev MethodId.channelClose : UInt16 := 40
abbrev MethodId.channelCloseOk : UInt16 := 41
abbrev MethodId.queueDeclare : UInt16 := 10
abbrev MethodId.queueDeclareOk : UInt16 := 11
abbrev MethodId.basicConsume : UInt16 := 20
abbrev MethodId.basicConsumeOk : UInt16 := 21
abbrev MethodId.basicPublish : UInt16 := 40
abbrev MethodId.basicDeliver : UInt16 := 60
abbrev MethodId.basicAck : UInt16 := 80

/-- The last octet of a frame. -/
def frameEnd : UInt8 := 0xce

/-- `default_amqp_header`. -/
def defaultAmqpHeader : List UInt8 := [0x41, 0x4d, 0x51, 0x50, 0, 0, 9, 1]

/-- Offset of `arguments` in the parsed method. -/
def argumentsOffset : ℕ := 4

/-- The bytes that `strncpy` of `count` bytes writes: up to the terminator, then zeros. -/
def strncpyBytes (source : List UInt8) : List UInt8 :=
  let string := source.takeWhile (· ≠ 0)
  string ++ List.replicate (source.length - string.length) 0

/-- The end of the three argument parsers: the copied bytes and the terminator after them. -/
def storeQueueName (bytes : List UInt8) : Action (List UInt8) := do
  assign fun cs => { cs with
    currentQueueName := (cs.currentQueueName.write 0 bytes).write bytes.length [0] }
  match (← field (·.currentQueueName)).cstring maxQueueName 0 with
  | some name => pure name
  | none => Program.stop .bufferRange

/-- `parse_queue_declare_args(method->arguments, cs->current_queue_name)`, returning the name. -/
def parseQueueDeclareArgs : Action (List UInt8) := do
  let args ← field (·.parsed)
  let size := (args (argumentsOffset + 2)).toNat
  let name ← storeQueueName (args.slice (argumentsOffset + 3) size)
  record (.parseQueueDeclareArgs name)
  pure name

/-- `parse_basic_publish_args(method->arguments, cs->current_queue_name)`, returning the name. -/
def parseBasicPublishArgs : Action (List UInt8) := do
  let args ← field (·.parsed)
  let exchangeSize := (args (argumentsOffset + 2)).toNat
  let queueShortStr := argumentsOffset + 3 + exchangeSize
  let size := (args queueShortStr).toNat
  let name ← storeQueueName (strncpyBytes (args.slice (queueShortStr + 1) size))
  record (.parseBasicPublishArgs name)
  pure name

/-- `parse_basic_consume_args(method->arguments, cs->current_queue_name)`, returning the name. -/
def parseBasicConsumeArgs : Action (List UInt8) := do
  let args ← field (·.parsed)
  let size := (args (argumentsOffset + 2)).toNat
  let name ← storeQueueName (strncpyBytes (args.slice (argumentsOffset + 3) size))
  record (.parseBasicConsumeArgs name)
  pure name

/-- `read_protocol_header`: whether the header was read and is the AMQP 0-9-1 one. -/
def readProtocolHeader : Action Bool := do
  let n ← readUntil 8
  if n < 8 then pure false
  else pure (decide ((← field (·.recvline)).slice 0 8 = defaultAmqpHeader))

/-- `parse_message_header` on bytes of `recvline`. -/
def parseMessageHeader (s : Buffer) : MessageHeader :=
  { msgType := s 0, channel := ntohs (loadU16 s 1), length := ntohl (loadU32 s 3) }

/-- `read_message_header`. -/
def readMessageHeader : Action (Option MessageHeader) := do
  let n ← readUntil 7
  if n < 7 then pure none
  else pure (some (parseMessageHeader (← field (·.recvline))))

/-- `parse_method(cs->recvline, n, cs->parsed)`.

The copy takes three bytes more than were read; the two ids are converted in place. -/
def parseMethod (n : ℕ) : Action (Option MethodHeader) := do
  if n < 4 then pure none
  else do
    let count := (n + 3) % sizeRange
    checkRange 0 count
    assign fun cs => { cs with parsed := cs.parsed.write 0 (cs.recvline.slice 0 count) }
    let parsed ← field (·.parsed)
    let header : MethodHeader := ⟨ntohs (loadU16 parsed 0), ntohs (loadU16 parsed 2)⟩
    assign fun cs => { cs with
      parsed := cs.parsed.write 0
        (toLE 2 header.classId.toNat ++ toLE 2 header.methodId.toNat) }
    pure (some header)

/-- `read_method`. -/
def readMethod (length : ℤ) : Action (Option MethodHeader) := do
  let n ← readUntil (toSize length)
  if n = 0 then pure none
  else do
    match ← parseMethod n with
    | none => pure none
    | some header => do
      let n ← readUntil 1
      if n = 0 then pure none
      else do
        record (.readMethod header)
        pure (some header)

/-- `parse_content_header(cs->recvline, n, cs->parsed)`. -/
def parseContentHeader (n : ℕ) : Action (Option ContentHeader) := do
  if n < 14 then pure none
  else do
    assign fun cs => { cs with parsed := cs.parsed.write 0 (cs.recvline.slice 0 14) }
    let parsed ← field (·.parsed)
    let header : ContentHeader :=
      { classId := ntohs (loadU16 parsed 0)
        weight := ntohs (loadU16 parsed 2)
        bodySize := swipeEndianness64 (loadU64 parsed 4)
        propertyFlags := ntohs (loadU16 parsed 12) }
    assign fun cs => { cs with
      parsed := cs.parsed.write 0
        (toLE 2 header.classId.toNat ++ toLE 2 header.weight.toNat ++
          toLE 8 header.bodySize.toNat ++ toLE 2 header.propertyFlags.toNat) }
    pure (some header)

/-- `read_content_header`: the result of the first read is not looked at. -/
def readContentHeader (length : ℤ) : Action (Option ContentHeader) := do
  let _ ← readUntil (toSize length)
  let header ← parseContentHeader (toSize length)
  let n ← readUntil 1
  pure (if n = 0 then none else header)

/-- `read_body`: payload and end octet in one read, whose result only sizes the copy. -/
def readBody (length : ℤ) : Action Unit := do
  if intMax < length + 1 then Program.stop .signedOverflow
  else do
    let n ← readUntil (toSize (length + 1))
    let count := toSize (sizeToInt n)
    checkRange 0 count
    assign fun cs => { cs with parsed := cs.parsed.write 0 (cs.recvline.slice 0 count) }
    if length < 0 then Program.stop .bufferRange
    else do
      checkRange length.toNat 1
      assign fun cs => { cs with parsed := cs.parsed.write length.toNat [0] }

/-- The bytes of an `amqp_message_header` converted for the wire. -/
def unparseMessageHeader (header : MessageHeader) : List UInt8 :=
  header.msgType :: toLE 2 (ntohs header.channel).toNat ++ toLE 4 (ntohl header.length).toNat

/-- The bytes of an `amqp_method_header` converted for the wire. -/
def unparseMethodHeader (header : MethodHeader) : List UInt8 :=
  toLE 2 (ntohs header.classId).toNat ++ toLE 2 (ntohs header.methodId).toNat

/-- `unparse_content_header_header`. -/
def unparseContentHeader (header : ContentHeader) : List UInt8 :=
  toLE 2 (ntohs header.classId).toNat ++ toLE 2 (ntohs header.weight).toNat ++
    toLE 8 (swipeEndianness64 header.bodySize).toNat ++ toLE 2 (ntohs header.propertyFlags).toNat

/-- The end of every sender: complete the frame in `sendline` and `write` it. -/
def sendFrame (frame : List UInt8) : Action Unit := do
  checkRange 0 (frame.length + 1)
  assign fun cs => { cs with
    sendline := (cs.sendline.write 0 frame).write frame.length [frameEnd] }
  let sendline ← field (·.sendline)
  let _ ← write (sendline.slice 0 (frame.length + 1))
  pure ()

/-- `send_method`. -/
def sendMethod (header : MethodHeader) (channel : UInt16) (arguments : List UInt8) : Action Unit :=
  let messageHeader : MessageHeader :=
    { msgType := MsgFormat.method, channel := channel, length := UInt32.ofNat (arguments.length + 4) }
  sendFrame (unparseMessageHeader messageHeader ++ unparseMethodHeader header ++ arguments)

/-- The size of the array `arguments` in `send_queue_declare_ok`. -/
def declareOkRoom : ℕ := 300

/-- `sizeof(amqp_short_string)`: the size byte and the first byte of the string. -/
def shortStringSize : ℕ := 2

/-- Store bytes in a local array of `room` bytes. -/
def putBytes (room offset : ℕ) (bytes : List UInt8) : Program Buffer Abort Unit := fun array =>
  if offset + bytes.length ≤ room then .ok ((), array.write offset bytes) else .error .bufferRange

/-- Load bytes of a local array of `room` bytes. -/
def getBytes (room offset count : ℕ) : Program Buffer Abort (List UInt8) := fun array =>
  if offset + count ≤ room then .ok (array.slice offset count, array) else .error .bufferRange

/-- `fill_short_string` at the start of a local array of `room` bytes. -/
def fillShortString (room : ℕ) (str : List UInt8) : Program Buffer Abort ℕ := do
  let size := str.length
  putBytes room 0 [UInt8.ofNat size]
  putBytes room 1 (str ++ [0])
  pure size

/-- `send_queue_declare_ok` on its array `arguments`, up to the bytes it hands to
`send_method`. -/
def fillDeclareOkArgs (queueName : List UInt8) (messageCount consumerCount : UInt32) :
    Program Buffer Abort (List UInt8) := do
  let nameSize ← fillShortString declareOkRoom queueName
  let count := toLE 4 (ntohl messageCount).toNat ++ toLE 4 (ntohl consumerCount).toNat
  putBytes declareOkRoom (shortStringSize + nameSize - 1) count
  let argsSize := shortStringSize + nameSize - 1 + count.length
  getBytes declareOkRoom 0 argsSize

/-- `send_queue_declare_ok`. -/
def sendQueueDeclareOk (channel : UInt16) (queueName : List UInt8)
    (messageCount consumerCount : UInt32) : Action Unit := do
  let arguments ← onLocal (fillDeclareOkArgs queueName messageCount consumerCount)
  sendMethod ⟨ClassId.queue, MethodId.queueDeclareOk⟩ channel arguments

/-- `send_content_header`. -/
def sendContentHeader (channel : UInt16) (header : ContentHeader) (properties : List UInt8) :
    Action Unit :=
  let propertiesSize := bitCardinality16 header.propertyFlags
  let messageHeader : MessageHeader :=
    { msgType := MsgFormat.contentHeader, channel := channel
      length := UInt32.ofNat (14 + propertiesSize) }
  sendFrame (unparseMessageHeader messageHeader ++ unparseContentHeader header ++
    properties.take propertiesSize)

/-- `send_body`. -/
def sendBody (channel : UInt16) (payload : List UInt8) : Action Unit :=
  let messageHeader : MessageHeader :=
    { msgType := MsgFormat.body, channel := channel, length := UInt32.ofNat payload.length }
  sendFrame (unparseMessageHeader messageHeader ++ payload)

end AmqpBroker
