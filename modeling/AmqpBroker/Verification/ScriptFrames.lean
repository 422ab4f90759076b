import AmqpBroker.Spec.Session
import AmqpBroker.Verification.Publishing
import AmqpBroker.Verification.QueueNames
import AmqpBroker.Verification.Refinement

/-!
# What the handlers make of the frames of a session

One handler at a time, on a stream that begins with a frame that the client may send: the
frame is taken, the phase is the next one, and what the frame asks for is done or still owed.
-/

namespace AmqpBroker

open Foundations Program MachineState

/-- An operation that the client asks for; the others follow from the turns of the queues. -/
def MessageOp.isRequest {ν τ μ : Type} : MessageOp ν τ μ → Bool
  | .declare _ _ | .select _ _ | .publish _ _ | .attach _ | .settle _ => true
  | _ => false

/-- What a call of a thread is among the requests of its client. -/
def requestOf (t : ℤ) (event : Event) : Option SpecOp := (opOf t event).filter MessageOp.isRequest

/-- The requests among the calls of a thread. -/
def requestsOf (t : ℤ) (events : List Event) : List SpecOp := events.filterMap (requestOf t)

/-- The method that comes with a message. -/
def deliverMethod : MethodHeader := ⟨ClassId.basic, MethodId.basicDeliver⟩

/-- The methods sent as answers. -/
def answersOf (events : List Event) : List MethodHeader :=
  (methodsSent events).filter fun method => method ≠ deliverMethod

/-- Connection.Start, which answers the protocol header. -/
def startMethod : MethodHeader := ⟨ClassId.connection, MethodId.connectionStart⟩

namespace MachineState

/-- The phase of the session; a connection that has failed is in none. -/
def phase : MachineState → Option Phase
  | wait | headerReceived | waitStartOk => some .startOk
  | startOkReceived | waitTuneOk => some .tuneOk
  | waitOpenConnection => some .openConnection
  | openConnectionReceived | waitOpenChannel | closeChannelReceived => some .outside
  | openChannelReceived | waitFunctional | queueDeclareReceived => some .ready
  | basicPublishReceived | waitPublishContentHeader => some .header
  | waitPublishContent => some .content
  | basicConsumeReceived | waitValueDequeue | valueDequeueReceived | waitConsumeAck =>
    some .consuming
  | closeConnectionReceived | finished => some .closed
  | fail => none

/-- What the client has asked for and the handlers have not done yet. -/
def owedRequests (t : ℤ) : MachineState → List SpecOp
  | basicConsumeReceived => [.attach t]
  | _ => []

/-- The answers still to be sent. -/
def owedAnswers : MachineState → List MethodHeader
  | wait => [startMethod]
  | valueDequeueReceived => []
  | m => m.reply.toList

/-- The bytes that come before the next frame. -/
def preamble : MachineState → List UInt8
  | wait => defaultAmqpHeader
  | _ => []

end MachineState

/-- From the one state to the other the requests and the answers were done, or are owed. -/
def Settles (t : ℤ) (m m' : MachineState) (w w' : World) (requests : List SpecOp)
    (answers : List MethodHeader) : Prop :=
  ∃ events, w'.trace = w.trace ++ events ∧
    requestsOf t events ++ m'.owedRequests t = m.owedRequests t ++ requests ∧
    answersOf events ++ m'.owedAnswers = m.owedAnswers ++ answers

variable {t : ℤ} {m m' : MachineState} {w w' v : World} {channel : UInt16} {method : MethodHeader}
  {arguments payload rest name exchange key after : List UInt8} {ticket : UInt16}

/-- The requests of two stretches of calls. -/
@[simp] theorem requestsOf_append (t : ℤ) (left right : List Event) :
    requestsOf t (left ++ right) = requestsOf t left ++ requestsOf t right := List.filterMap_append

/-- The answers of two stretches of calls. -/
@[simp] theorem answersOf_append (left right : List Event) :
    answersOf (left ++ right) = answersOf left ++ answersOf right := by
  rw [answersOf, methodsSent_append, List.filter_append]
  rfl

/-- Writing is no request. -/
theorem requestsOf_write (t : ℤ) (frames : List (List UInt8)) :
    requestsOf t (frames.map Event.write) = [] := by
  apply List.filterMap_eq_nil_iff.mpr
  intro event hevent
  obtain ⟨bytes, -, rfl⟩ := List.mem_map.mp hevent
  simp only [requestOf, opOf]
  split <;> simp [MessageOp.isRequest, Option.filter]

/-- An answer is sent. -/
theorem answersOf_method {header : MethodHeader} (h : header ≠ deliverMethod) (channel : UInt16)
    (arguments : List UInt8) :
    answersOf [.write (encodeFrame MsgFormat.method channel (encodeMethod header arguments))] =
      [header] := by
  change List.filter _ ([_].filterMap methodOf) = _
  rw [List.filterMap_cons, methodOf_encodeFrame]
  simp [h]

/-! ## Methods that ask for no queue -/

/-- A frame that was read is recorded. -/
theorem afterFrame_trace (w : World) (channel : UInt16) (method : MethodHeader)
    (arguments : List UInt8) :
    (w.afterFrame channel method arguments).trace = w.trace ++ [.readMethod method] := by
  change w.trace ++ [.readMethod (decodeMethod (encodeMethod method arguments))] = _
  rw [decodeMethod_encodeMethod]

/-- A state that is reached without looking at a name. -/
def MachineState.nameless (m : MachineState) : Bool :=
  m ≠ queueDeclareReceived && m ≠ basicPublishReceived && m ≠ basicConsumeReceived

/-- The frame of a method that has a case and names no queue. -/
theorem actions_nameless (hlabel : (method, m') ∈ caseLabels m) (hplain : m'.nameless = true)
    (h : w.socket.Delivers
      (encodeFrame MsgFormat.method channel (encodeMethod method arguments) ++ rest))
    (hroom : (encodeMethod method arguments).length + 3 ≤ maxLine) :
    actions m w = .ok (m', w.afterFrame channel method arguments) := by
  have hmax : maxLine < 2 ^ 32 := by decide
  obtain ⟨hframe, -⟩ := readFrame_frame h hroom
  obtain ⟨hheader, hpayload⟩ := readMessageHeader_frame h (by omega)
  obtain ⟨hmethod, -⟩ := readMethod_frame hpayload hroom
  have hread : readMethod (toInt (UInt32.ofNat (encodeMethod method arguments).length))
      (w.receive (encodeHeader MsgFormat.method channel (encodeMethod method arguments).length)) =
        .ok (some method, w.afterFrame channel method arguments) := hmethod
  cases m with
  | waitStartOk =>
    obtain ⟨rfl, rfl⟩ := Prod.mk.inj (List.mem_singleton.mp hlabel)
    change actionWaitStartOk w = _
    rw [actionWaitStartOk, bind_of_ok hheader]
    simp only
    rw [bind_of_ok hread]
    rfl
  | waitTuneOk =>
    obtain ⟨rfl, rfl⟩ := Prod.mk.inj (List.mem_singleton.mp hlabel)
    change awaitMethod _ _ _ w = _
    rw [awaitMethod, bind_of_ok hframe]
    rfl
  | waitOpenConnection =>
    obtain ⟨rfl, rfl⟩ := Prod.mk.inj (List.mem_singleton.mp hlabel)
    change awaitMethod _ _ _ w = _
    rw [awaitMethod, bind_of_ok hframe]
    rfl
  | waitOpenChannel =>
    change actionWaitOpenChannel w = _
    rw [actionWaitOpenChannel, bind_of_ok hframe]
    simp only [caseLabels, List.mem_cons, List.not_mem_nil, or_false, Prod.mk.injEq] at hlabel
    obtain ⟨rfl, rfl⟩ | ⟨rfl, rfl⟩ := hlabel <;> rfl
  | waitFunctional =>
    simp only [caseLabels, List.mem_cons, List.not_mem_nil, or_false, Prod.mk.injEq] at hlabel
    obtain ⟨rfl, rfl⟩ | ⟨rfl, rfl⟩ | ⟨rfl, rfl⟩ | ⟨rfl, rfl⟩ | ⟨rfl, rfl⟩ := hlabel
    · exact actions_of_arriving (.inl ⟨rfl, rfl⟩) hframe rfl (by decide)
    · exact actions_of_arriving (.inl ⟨rfl, rfl⟩) hframe rfl (by decide)
    · cases hplain
    · cases hplain
    · cases hplain
  | waitPublishContent =>
    have harriving : readArriving waitPublishContent w =
        .ok (some method, w.afterFrame channel method arguments) := by
      rw [readArriving, bind_of_ok hheader]
      exact hmethod
    simp only [caseLabels, List.mem_cons, List.not_mem_nil, or_false, Prod.mk.injEq] at hlabel
    obtain ⟨rfl, rfl⟩ | ⟨rfl, rfl⟩ | ⟨rfl, rfl⟩ := hlabel
    · exact actions_of_arriving (.inr ⟨rfl, rfl⟩) harriving rfl (by decide)
    · cases hplain
    · exact actions_of_arriving (.inr ⟨rfl, rfl⟩) harriving rfl (by decide)
  | waitConsumeAck =>
    obtain ⟨rfl, rfl⟩ := Prod.mk.inj (List.mem_singleton.mp hlabel)
    change actionWaitConsumeAck w = _
    rw [actionWaitConsumeAck, bind_of_ok hheader]
    simp only
    rw [bind_of_ok hread]
    rfl
  | _ => cases hlabel

/-! ## Methods that name a queue -/

/-- Queue.Declare makes the queue of the name it was sent with. -/
theorem actionWaitFunctional_declare
    (h : w.socket.Delivers (encodeFrame MsgFormat.method channel
      (encodeMethod declareMethod (namingArguments ticket name after)) ++ rest))
    (hroom : (encodeMethod declareMethod (namingArguments ticket name after)).length + 3 ≤ maxLine)
    (hname : name.length < 256) (haction : actions waitFunctional w = .ok (m', w')) :
    m' = queueDeclareReceived ∧ w'.socket.Delivers rest ∧ ∃ q, w'.trace = w.trace ++
      [.readMethod declareMethod, .parseQueueDeclareArgs (ClientFrame.string name),
        .createQueue (ClientFrame.string name) q] := by
  obtain ⟨hframe, hrest⟩ := readFrame_frame h hroom
  obtain ⟨v, hparse⟩ := parseQueueDeclareArgs_returns
    (afterFrame_holds w channel declareMethod (namingArguments ticket name after))
    (toBE 2 ticket.toNat) (by simp) hname after rfl
  obtain ⟨queueName, -, rfl⟩ := parseQueueDeclareArgs_eq_ok hparse
  change actionWaitFunctional w = _ at haction
  rw [actionWaitFunctional, bind_of_ok hframe] at haction
  obtain ⟨next, v₁, hswitch, hfinish⟩ := bind_eq_ok.mp haction
  obtain ⟨_, v₂, hdeclare, hpure⟩ := bind_eq_ok.mp
    (show (do declareQueue; pure queueDeclareReceived : Action MachineState) _ = _ from hswitch)
  cases hpure
  obtain ⟨rfl, rfl⟩ := Prod.mk.inj (Except.ok.inj hfinish)
  rw [declareQueue, bind_of_ok hparse] at hdeclare
  obtain ⟨q, v₃, hcreate, hdeclare⟩ := bind_eq_ok.mp hdeclare
  obtain ⟨_, v₄, hrecord, hassign⟩ := bind_eq_ok.mp hdeclare
  cases hrecord
  cases hassign
  rw [(onStore_eq_ok hcreate).2]
  refine ⟨rfl, hrest, q, ?_⟩
  change (w.afterFrame channel declareMethod _).trace ++ [_] ++ [_] = _
  rw [afterFrame_trace, List.append_assoc, List.append_assoc]
  rfl

/-- The choice of a queue by a name that was parsed. -/
theorem select_trace {parse : Action (List UInt8)} {next : MachineState} {event : Event}
    (hparse : ∃ queueName, parse v = .ok (name, { v with
      cs := { v.cs with currentQueueName := queueName }, trace := v.trace ++ [event] }))
    (hselect : (do selectQueue (← parse); pure next : Action MachineState) v = .ok (m', w')) :
    m' = next ∧ w'.socket = v.socket ∧
      ∃ q, w'.trace = v.trace ++ [event, .getQueue name q] := by
  obtain ⟨queueName, hparse⟩ := hparse
  rw [bind_of_ok hparse] at hselect
  obtain ⟨_, v₁, hchosen, hpure⟩ := bind_eq_ok.mp hselect
  cases hpure
  obtain ⟨q, -, hw'⟩ := selectQueue_eq_ok hchosen
  rw [hw']
  exact ⟨rfl, rfl, q, by rw [List.append_assoc]; rfl⟩

/-- Basic.Consume chooses the queue of the name it was sent with. -/
theorem actionWaitFunctional_consume
    (h : w.socket.Delivers (encodeFrame MsgFormat.method channel
      (encodeMethod consumeMethod (namingArguments ticket name after)) ++ rest))
    (hroom : (encodeMethod consumeMethod (namingArguments ticket name after)).length + 3 ≤ maxLine)
    (hname : name.length < 256) (haction : actions waitFunctional w = .ok (m', w')) :
    m' = basicConsumeReceived ∧ w'.socket.Delivers rest ∧ ∃ q, w'.trace = w.trace ++
      [.readMethod consumeMethod, .parseBasicConsumeArgs (ClientFrame.string name),
        .getQueue (ClientFrame.string name) q] := by
  obtain ⟨hframe, hrest⟩ := readFrame_frame h hroom
  obtain ⟨v, hparse⟩ := parseBasicConsumeArgs_returns
    (afterFrame_holds w channel consumeMethod (namingArguments ticket name after))
    (toBE 2 ticket.toNat) (by simp) hname after rfl
  obtain ⟨queueName, -, rfl⟩ := parseBasicConsumeArgs_eq_ok hparse
  change actionWaitFunctional w = _ at haction
  rw [actionWaitFunctional, bind_of_ok hframe] at haction
  obtain ⟨next, v₁, hswitch, hfinish⟩ := bind_eq_ok.mp haction
  have hselect : (do selectQueue (← parseBasicConsumeArgs); pure basicConsumeReceived :
      Action MachineState) _ = _ := hswitch
  obtain ⟨rfl, hsocket, q, htrace⟩ := select_trace ⟨queueName, hparse⟩ hselect
  obtain ⟨rfl, rfl⟩ := Prod.mk.inj (Except.ok.inj hfinish)
  refine ⟨rfl, hsocket ▸ hrest, q, ?_⟩
  rw [htrace, afterFrame_trace, List.append_assoc]
  rfl

/-- Basic.Publish chooses the queue of the routing key, from both states that accept it. -/
theorem actions_publish (hm : m = waitFunctional ∨ m = waitPublishContent)
    (h : w.socket.Delivers (encodeFrame MsgFormat.method channel
      (encodeMethod publishMethod (keyArguments ticket exchange key after)) ++ rest))
    (hroom : (encodeMethod publishMethod (keyArguments ticket exchange key after)).length + 3 ≤ maxLine)
    (hexchange : exchange.length < 256) (hkey : key.length < 256)
    (haction : actions m w = .ok (m', w')) :
    m' = basicPublishReceived ∧ w'.socket.Delivers rest ∧ ∃ q, w'.trace = w.trace ++
      [.readMethod publishMethod, .parseBasicPublishArgs (ClientFrame.string key),
        .getQueue (ClientFrame.string key) q] := by
  have hmax : maxLine < 2 ^ 32 := by decide
  obtain ⟨hframe, hrest⟩ := readFrame_frame h hroom
  obtain ⟨v, hparse, -⟩ := parseBasicPublishArgs_returns
    (afterFrame_holds w channel publishMethod (keyArguments ticket exchange key after))
    (toBE 2 ticket.toNat) (by simp) hexchange hkey after rfl
  obtain ⟨queueName, -, rfl⟩ := parseBasicPublishArgs_eq_ok hparse
  have hswitched : ∀ {next : MachineState} {v₁ : World},
      (do selectQueue (← parseBasicPublishArgs); pure basicPublishReceived : Action MachineState)
        (w.afterFrame channel publishMethod (keyArguments ticket exchange key after)) =
          .ok (next, v₁) → finishDispatch publishMethod next v₁ = .ok (m', w') →
      m' = basicPublishReceived ∧ w'.socket.Delivers rest ∧ ∃ q, w'.trace = w.trace ++
        [.readMethod publishMethod, .parseBasicPublishArgs (ClientFrame.string key),
          .getQueue (ClientFrame.string key) q] := by
    intro next v₁ hswitch hfinish
    obtain ⟨rfl, hsocket, q, htrace⟩ := select_trace ⟨queueName, hparse⟩ hswitch
    obtain ⟨rfl, rfl⟩ := Prod.mk.inj (Except.ok.inj hfinish)
    refine ⟨rfl, hsocket ▸ hrest, q, ?_⟩
    rw [htrace, afterFrame_trace, List.append_assoc]
    rfl
  obtain rfl | rfl := hm
  · change actionWaitFunctional w = _ at haction
    rw [actionWaitFunctional, bind_of_ok hframe] at haction
    obtain ⟨next, v₁, hswitch, hfinish⟩ := bind_eq_ok.mp haction
    exact hswitched hswitch hfinish
  · obtain ⟨hheader, hpayload⟩ := readMessageHeader_frame h (by omega)
    obtain ⟨hmethod, -⟩ := readMethod_frame hpayload hroom
    change actionWaitPublishContent w = _ at haction
    rw [actionWaitPublishContent, bind_of_ok hheader] at haction
    simp only [if_true] at haction
    rw [bind_of_ok hmethod] at haction
    obtain ⟨next, v₁, hswitch, hfinish⟩ := bind_eq_ok.mp haction
    exact hswitched hswitch hfinish

/-! ## Content -/

/-- A content header is taken, whatever it says. -/
theorem actionWaitPublishContentHeader_frame
    (h : w.socket.Delivers (encodeFrame MsgFormat.contentHeader channel payload ++ rest))
    (hroom : payload.length ≤ maxLine) :
    ∃ v, actions waitPublishContentHeader w = .ok (waitPublishContent, v) ∧
      v.socket.Delivers rest ∧ v.trace = w.trace := by
  have hmax : maxLine < 2 ^ 32 := by decide
  obtain ⟨hheader, hrest⟩ := readMessageHeader_frame h (by omega)
  have hrequested := requested_ofNat hroom
  obtain ⟨header, v, hread, hdelivers⟩ := readContentHeader_complete hrest
    (by rw [hrequested]; exact hroom) (by rw [hrequested]; simp)
  have hsilent : Silent _ v := keeps_readContentHeader _ _ _ _ hread
  rw [hrequested, ← List.drop_drop, List.drop_left] at hdelivers
  refine ⟨v, ?_, hdelivers, hsilent.trace_eq⟩
  change actionWaitPublishContentHeader w = _
  rw [actionWaitPublishContentHeader, bind_of_ok hheader]
  simp only
  rw [bind_of_ok hread]
  rfl

/-- A BODY frame is one message. -/
theorem actionWaitPublishContent_frame
    (h : w.socket.Delivers (encodeFrame MsgFormat.body channel payload ++ rest))
    (hroom : payload.length < maxLine) (haction : actions waitPublishContent w = .ok (m', w')) :
    m' = waitPublishContent ∧ w'.socket.Delivers rest ∧
      ∃ q node, w'.trace = w.trace ++ [.qEnqueue q node (ClientFrame.string payload)] := by
  have hmax : maxLine < 2 ^ 32 := by decide
  obtain ⟨hheader, hrest⟩ := readMessageHeader_frame h (by omega)
  have hlength : (UInt32.ofNat payload.length).toNat = payload.length :=
    toNat_ofNat_length (by omega)
  have hcomplete : (UInt32.ofNat payload.length).toNat < (payload ++ frameEnd :: rest).length := by
    rw [hlength]
    simp
  have hbody := readBody_complete hrest (by omega) hcomplete
  rw [hlength] at hbody
  have htaken : ((payload ++ frameEnd :: rest).take (payload.length + 1)).take payload.length =
      payload := by
    rw [List.take_take, Nat.min_eq_left (Nat.le_succ _), List.take_left]
  have hstring := afterBody_string (w.receive (encodeHeader MsgFormat.body channel payload.length))
    hroom (show payload.length ≤ ((payload ++ frameEnd :: rest).take (payload.length + 1)).length by
      rw [List.length_take, List.length_append]
      simp)
  rw [htaken] at hstring
  have hdelivers := receive_delivers hrest
    (show payload.length + 1 ≤ (payload ++ frameEnd :: rest).length by simp)
  rw [← List.drop_drop, List.drop_left] at hdelivers
  change actionWaitPublishContent w = _ at haction
  rw [actionWaitPublishContent, bind_of_ok hheader] at haction
  simp only [if_neg (show MsgFormat.body ≠ MsgFormat.method by decide), if_true] at haction
  rw [bind_of_ok hbody] at haction
  obtain ⟨_, v, henqueue, hpure⟩ := bind_eq_ok.mp haction
  cases hpure
  obtain ⟨body, node, hbodyString, -, hv⟩ := enqueueBody_eq_ok henqueue
  obtain rfl := Option.some.inj (hbodyString.symm.trans hstring)
  rw [hv]
  exact ⟨rfl, hdelivers, _, node, rfl⟩

/-! ## The end of the stream -/

/-- A handler that waits for a frame fails at the end of the stream, and asks for nothing. -/
theorem actions_ended (hm : readsFrame m = true) (h : w.socket.Delivers [])
    (haction : actions m w = .ok (m', w')) : m' = fail ∧ Settles t m fail w w' [] [] := by
  have hheader := readMessageHeader_short h (show ([] : List UInt8).length < 7 by decide)
  have hframe : readFrame w = .ok (none, { w.receive [] with
      cs := { (w.receive []).cs with errorMsg := "Error reading message header" } }) := by
    rw [readFrame, bind_of_ok hheader]
    rfl
  have hnothing : ∀ {v : World}, v.trace = w.trace → m.owedRequests t = [] → m.owedAnswers = [] →
      Settles t m fail w v [] [] := by
    intro v htrace hrequests hanswers
    refine ⟨[], by rw [htrace, List.append_nil], ?_, ?_⟩
    · rw [hrequests]
      rfl
    · rw [hanswers]
      rfl
  cases m with
  | waitStartOk =>
    change actionWaitStartOk w = _ at haction
    rw [actionWaitStartOk, bind_of_ok hheader] at haction
    cases haction
    exact ⟨rfl, hnothing rfl rfl rfl⟩
  | waitTuneOk =>
    change awaitMethod _ _ _ w = _ at haction
    rw [awaitMethod, bind_of_ok hframe] at haction
    cases haction
    exact ⟨rfl, hnothing rfl rfl rfl⟩
  | waitOpenConnection =>
    change awaitMethod _ _ _ w = _ at haction
    rw [awaitMethod, bind_of_ok hframe] at haction
    cases haction
    exact ⟨rfl, hnothing rfl rfl rfl⟩
  | waitOpenChannel =>
    change actionWaitOpenChannel w = _ at haction
    rw [actionWaitOpenChannel, bind_of_ok hframe] at haction
    cases haction
    exact ⟨rfl, hnothing rfl rfl rfl⟩
  | waitFunctional =>
    change actionWaitFunctional w = _ at haction
    rw [actionWaitFunctional, bind_of_ok hframe] at haction
    cases haction
    exact ⟨rfl, hnothing rfl rfl rfl⟩
  | waitPublishContentHeader =>
    change actionWaitPublishContentHeader w = _ at haction
    rw [actionWaitPublishContentHeader, bind_of_ok hheader] at haction
    cases haction
    exact ⟨rfl, hnothing rfl rfl rfl⟩
  | waitPublishContent =>
    change actionWaitPublishContent w = _ at haction
    rw [actionWaitPublishContent, bind_of_ok hheader] at haction
    cases haction
    exact ⟨rfl, hnothing rfl rfl rfl⟩
  | waitConsumeAck =>
    change actionWaitConsumeAck w = _ at haction
    rw [actionWaitConsumeAck, bind_of_ok hheader] at haction
    obtain ⟨_, v, hunsubscribe, haction⟩ := bind_eq_ok.mp haction
    cases haction
    have htrace := congrArg World.trace (unsubscribe_eq_ok hunsubscribe).2
    exact ⟨rfl, [.removeSubscriber w.cs.currentQueue], htrace, rfl, rfl⟩
  | _ => cases hm

end AmqpBroker
