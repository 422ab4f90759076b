import AmqpBroker.Verification.ThreadRuns

/-!
# The handshake and the channel

What the client must have sent and what the server has answered when a connection is in
WAIT_FUNCTIONAL. Each state of the handshake is tied to the bytes taken and the methods
sent so far; from the first Channel.Open-Ok on, what was exchanged by then stays at the
front and Channel.Open-Ok and Channel.Close-Ok take turns.
-/

namespace AmqpBroker

open Foundations Program MachineState

variable {grain : Grain} {w w' : World} {m m' : MachineState}

/-- The methods of the client's opening, in order. -/
def openingMethods : List MethodHeader :=
  [⟨ClassId.connection, MethodId.connectionStartOk⟩,
    ⟨ClassId.connection, MethodId.connectionTuneOk⟩,
    ⟨ClassId.connection, MethodId.connectionOpen⟩, ⟨ClassId.channel, MethodId.channelOpen⟩]

/-- The server's side of the handshake, in order. -/
def greeting : List MethodHeader :=
  [⟨ClassId.connection, MethodId.connectionStart⟩, ⟨ClassId.connection, MethodId.connectionTune⟩,
    ⟨ClassId.connection, MethodId.connectionOpenOk⟩]

/-- The method of Channel.Open-Ok. -/
def channelOpenOk : MethodHeader := ⟨ClassId.channel, MethodId.channelOpenOk⟩

/-- The method of Channel.Close-Ok. -/
def channelCloseOk : MethodHeader := ⟨ClassId.channel, MethodId.channelCloseOk⟩

/-- The bytes are the protocol header and one frame for each method, and nothing else. -/
def Received (methods : List MethodHeader) (taken : List UInt8) : Prop :=
  ∃ frames, List.Forall₂ FrameOf methods frames ∧ taken = defaultAmqpHeader ++ frames.flatten

/-- The bytes begin with the whole opening, and the sent methods with the greeting and the
first Channel.Open-Ok; nothing of the greeting was sent twice. -/
structure Opened (bytes : List UInt8) (sent : List MethodHeader) : Prop where
  received : ∃ opening rest, bytes = opening ++ rest ∧ Received openingMethods opening
  greeted : ∃ later, sent = greeting ++ channelOpenOk :: later ∧
    ∀ method ∈ greeting, method ∉ later

/-- So many more Channel.Open-Ok were sent than Channel.Close-Ok. -/
def Balanced (more : ℕ) (sent : List MethodHeader) : Prop :=
  sent.count channelOpenOk = sent.count channelCloseOk + more

/-- WAIT_FUNCTIONAL and the declare, publish and consume states. -/
def MachineState.inChannel (m : MachineState) : Bool := m = waitFunctional || m.usesQueue

/-- The first methods of the opening were taken, the first ones of the greeting sent. -/
def Early (received sent : ℕ) (taken : List UInt8) (methods : List MethodHeader) : Prop :=
  Received (openingMethods.take received) taken ∧ methods = greeting.take sent

/-- What has been exchanged in each state. -/
def Stage (m : MachineState) (taken : List UInt8) (sent : List MethodHeader) : Prop :=
  match m with
  | wait => taken = [] ∧ sent = []
  | headerReceived => Early 0 0 taken sent
  | waitStartOk => Early 0 1 taken sent
  | startOkReceived => Early 1 1 taken sent
  | waitTuneOk => Early 1 2 taken sent
  | waitOpenConnection => Early 2 2 taken sent
  | openConnectionReceived => Early 3 2 taken sent
  | waitOpenChannel => Early 3 3 taken sent ∨ (Opened taken sent ∧ Balanced 0 sent)
  | openChannelReceived => Early 4 3 taken sent ∨ (Opened taken sent ∧ Balanced 0 sent)
  | closeConnectionReceived | finished | fail => True
  | _ => Opened taken sent ∧ Balanced 1 sent

/-- The frame of the next method of the opening. -/
theorem Received.append {methods : List MethodHeader} {taken frame : List UInt8}
    {method : MethodHeader} (h : Received methods taken) (hframe : FrameOf method frame) :
    Received (methods ++ [method]) (taken ++ frame) := by
  obtain ⟨frames, hframes, rfl⟩ := h
  refine ⟨frames ++ [frame], List.rel_append hframes (.cons hframe .nil), ?_⟩
  rw [List.flatten_append, List.append_assoc]
  simp

/-- More bytes, and answers that are not part of the greeting. -/
theorem Opened.append {taken : List UInt8} {sent : List MethodHeader} (h : Opened taken sent)
    (more : List UInt8) {answers : List MethodHeader}
    (hanswers : ∀ method ∈ greeting, method ∉ answers) :
    Opened (taken ++ more) (sent ++ answers) := by
  obtain ⟨⟨opening, rest, rfl, hreceived⟩, later, rfl, hlater⟩ := h
  refine ⟨⟨opening, rest ++ more, List.append_assoc _ _ _, hreceived⟩, later ++ answers, ?_, ?_⟩
  · rw [List.append_assoc, List.cons_append]
  · intro method hmethod hmem
    rcases List.mem_append.mp hmem with hmem | hmem
    · exact hlater method hmethod hmem
    · exact hanswers method hmethod hmem

/-- Other answers leave the balance alone. -/
theorem Balanced.append {more : ℕ} {sent answers : List MethodHeader} (h : Balanced more sent)
    (hopen : channelOpenOk ∉ answers) (hclose : channelCloseOk ∉ answers) :
    Balanced more (sent ++ answers) := by
  rw [Balanced, List.count_append, List.count_append, List.count_eq_zero.mpr hopen,
    List.count_eq_zero.mpr hclose]
  exact h

/-- The channel is open after Channel.Open-Ok. -/
theorem Balanced.opening {sent : List MethodHeader} (h : Balanced 0 sent) :
    Balanced 1 (sent ++ [channelOpenOk]) := by
  have hone : [channelOpenOk].count channelOpenOk = 1 := by decide
  have hzero : [channelOpenOk].count channelCloseOk = 0 := by decide
  unfold Balanced at h
  rw [Balanced, List.count_append, List.count_append, hone, hzero, h]

/-- The channel is closed after Channel.Close-Ok. -/
theorem Balanced.closing {sent : List MethodHeader} (h : Balanced 1 sent) :
    Balanced 0 (sent ++ [channelCloseOk]) := by
  have hone : [channelCloseOk].count channelCloseOk = 1 := by decide
  have hzero : [channelCloseOk].count channelOpenOk = 0 := by decide
  unfold Balanced at h
  rw [Balanced, List.count_append, List.count_append, hone, hzero, h]

/-- The handshake is over as soon as the opening is complete and answered. -/
theorem Early.opened {taken : List UInt8} {sent : List MethodHeader} (h : Early 4 3 taken sent) :
    Opened taken (sent ++ [channelOpenOk]) ∧ Balanced 1 (sent ++ [channelOpenOk]) := by
  obtain ⟨hreceived, rfl⟩ := h
  refine ⟨⟨⟨taken, [], (List.append_nil _).symm, hreceived⟩, [], rfl, by simp⟩, ?_⟩
  unfold Balanced
  decide

/-- During the handshake the channel has not been open. -/
theorem Early.not_opened {i j : ℕ} {taken : List UInt8} {sent : List MethodHeader}
    (h : Early i j taken sent) : ¬ Opened taken sent := by
  intro hopened
  obtain ⟨later, hlater, -⟩ := hopened.greeted
  have hlength := congrArg List.length (h.2.symm.trans hlater)
  simp only [List.length_take, List.length_append, List.length_cons, greeting] at hlength
  simp at hlength
  omega

/-- The next frame of the opening. -/
theorem Early.takes {i j : ℕ} {taken bytes : List UInt8} {sent : List MethodHeader}
    {method : MethodHeader} (h : Early i j taken sent) (hw : w.socket.Delivers bytes)
    (htakes : Takes method w w')
    (hmethod : openingMethods.take (i + 1) = openingMethods.take i ++ [method]) :
    ∃ more rest, bytes = more ++ rest ∧ w'.socket.Delivers rest ∧
      Early (i + 1) j (taken ++ more) sent := by
  obtain ⟨frame, rest, hbytes, hframe, hrest⟩ := htakes bytes hw
  refine ⟨frame, rest, hbytes, hrest, ?_, h.2⟩
  rw [hmethod]
  exact h.1.append hframe

/-- The protocol header is taken whole or the connection fails. -/
theorem actionWait_takes {bytes : List UInt8} (hw : w.socket.Delivers bytes)
    (h : actionWait w = .ok (m', w')) :
    m' = fail ∨ (m' = headerReceived ∧
      ∃ rest, bytes = defaultAmqpHeader ++ rest ∧ w'.socket.Delivers rest) := by
  obtain ⟨valid, v, hheader, h⟩ := bind_eq_ok.mp h
  cases valid with
  | false =>
    left
    obtain ⟨_, _, _, h⟩ := bind_eq_ok.mp h
    cases h
    rfl
  | true =>
    right
    cases h
    obtain ⟨n, v, hread, hheader⟩ := bind_eq_ok.mp hheader
    by_cases height : 8 ≤ bytes.length
    · rw [readUntil_complete hw height (by decide)] at hread
      cases hread
      have hresult : (decide ((w.cs.recvline.write 0 (bytes.take 8)).slice 0 8 = defaultAmqpHeader),
          w.receive (bytes.take 8)) = (true, w') := Except.ok.inj hheader
      obtain ⟨hvalid, rfl⟩ := Prod.mk.inj hresult
      have height' : (bytes.take 8).length = 8 := by
        rw [List.length_take]
        omega
      rw [Buffer.slice_write_zero _ _ _ (by omega), List.take_of_length_le (by omega),
        decide_eq_true_eq] at hvalid
      refine ⟨rfl, bytes.drop 8, ?_, receive_delivers hw height⟩
      rw [← hvalid, List.take_append_drop]
    · have hmax : 8 ≤ maxLine := by decide
      rw [readUntil_short hw (by omega) (by decide) (by omega)] at hread
      cases hread
      cases hheader

/-- A frame whose method was read has been taken. -/
theorem readFrame_takes {method : MethodHeader} (h : readFrame w = .ok (some method, w')) :
    Takes method w w' := by
  obtain ⟨messageHeader, v, hheader, hmethod⟩ := readFrame_eq_some h
  exact readMethod_takes hheader hmethod

/-- Only the expected method gets a connection through the handshake. -/
theorem awaitMethod_takes {expected : MethodHeader} {message : String} {next : MachineState}
    (h : awaitMethod expected message next w = .ok (m', w')) :
    m' = fail ∨ (m' = next ∧ Takes expected w w') := by
  obtain ⟨result, v, hread, h⟩ := bind_eq_ok.mp h
  cases result with
  | none =>
    cases h
    exact Or.inl rfl
  | some method =>
    by_cases hmethod : method.classId ≠ expected.classId ∨ method.methodId ≠ expected.methodId
    · simp only [if_pos hmethod] at h
      obtain ⟨_, _, _, h⟩ := bind_eq_ok.mp h
      cases h
      exact Or.inl rfl
    · simp only [if_neg hmethod] at h
      cases h
      obtain rfl : method = expected := by
        by_contra hne
        exact hmethod (ids_ne_iff.mpr hne)
      exact Or.inr ⟨rfl, readFrame_takes hread⟩

/-- WAIT_START_OK takes a Start-Ok or fails. -/
theorem actionWaitStartOk_takes (h : actionWaitStartOk w = .ok (m', w')) :
    m' = fail ∨ (m' = startOkReceived ∧
      Takes ⟨ClassId.connection, MethodId.connectionStartOk⟩ w w') := by
  obtain ⟨result, v, hheader, h⟩ := bind_eq_ok.mp h
  cases result with
  | none =>
    obtain ⟨_, _, _, h⟩ := bind_eq_ok.mp h
    cases h
    exact Or.inl rfl
  | some messageHeader =>
    obtain ⟨result, v', hread, h⟩ := bind_eq_ok.mp h
    cases result with
    | none =>
      cases h
      exact Or.inl rfl
    | some method =>
      by_cases hmethod : method.classId ≠ ClassId.connection ∨
          method.methodId ≠ MethodId.connectionStartOk
      · simp only [if_pos hmethod] at h
        obtain ⟨_, _, _, h⟩ := bind_eq_ok.mp h
        cases h
        exact Or.inl rfl
      · simp only [if_neg hmethod] at h
        cases h
        obtain rfl : method = ⟨ClassId.connection, MethodId.connectionStartOk⟩ := by
          by_contra hne
          exact hmethod (ids_ne_iff.mpr hne)
        exact Or.inr ⟨rfl, readMethod_takes hheader hread⟩

/-- The end of a dispatching handler takes nothing. -/
theorem finishDispatch_socket {method : MethodHeader} {next : MachineState}
    (h : finishDispatch method next w = .ok (m', w')) : m' = next ∧ w'.socket = w.socket := by
  unfold finishDispatch at h
  split at h
  · obtain ⟨_, _, herror, h⟩ := bind_eq_ok.mp h
    cases herror
    cases h
    exact ⟨rfl, rfl⟩
  · cases h
    exact ⟨rfl, rfl⟩

/-- WAIT_OPEN_CHANNEL takes a Channel.Open, begins to close or fails. -/
theorem actionWaitOpenChannel_takes (h : actionWaitOpenChannel w = .ok (m', w')) :
    m' = fail ∨ m' = closeConnectionReceived ∨
      (m' = openChannelReceived ∧ Takes ⟨ClassId.channel, MethodId.channelOpen⟩ w w') := by
  obtain ⟨result, v, hread, h⟩ := bind_eq_ok.mp h
  cases result with
  | none =>
    cases h
    exact Or.inl rfl
  | some method =>
    obtain ⟨hm', hsocket⟩ := finishDispatch_socket h
    by_cases hopen : method = ⟨ClassId.channel, MethodId.channelOpen⟩
    · subst hopen
      right
      right
      refine ⟨hm', ?_⟩
      intro bytes hw
      rw [hsocket]
      exact readFrame_takes hread bytes hw
    · have hother : openChannelSwitch method ∈ [closeConnectionReceived, fail] := by
        unfold openChannelSwitch
        split
        · rename_i hclass
          have hid : method.methodId ≠ MethodId.channelOpen :=
            (ids_ne_iff.mpr hopen).resolve_left fun hne => hne hclass
          rw [if_neg hid]
          simp
        · split
          · split
            · simp
            · simp
          · simp
      rw [hm']
      rcases List.mem_pair.mp hother with hclose | hfail
      · exact Or.inr (Or.inl hclose)
      · exact Or.inl hfail

/-- What the handlers of an open channel lead to. -/
theorem inChannel_next (hm : m.inChannel = true) (h : Effect m w w' m') :
    m'.inChannel = true ∨ m' = closeChannelReceived ∨ m' = closeConnectionReceived ∨ m' = fail := by
  cases h with
  | quiet hnext _ =>
    cases m with
    | waitFunctional | queueDeclareReceived | basicPublishReceived | waitPublishContentHeader
    | waitPublishContent | basicConsumeReceived | waitValueDequeue | valueDequeueReceived
    | waitConsumeAck =>
      revert m' hnext
      decide
    | _ => cases hm
  | declare _ _ _ _ | publish _ _ _ _ | consume _ _ _ _ | enqueue _ _ _ _ | subscribe _ _ _ _ _
  | ack _ _ _ _ => exact Or.inl rfl
  | reject _ _ _ _ _ => exact Or.inr (Or.inr (Or.inr rfl))

/-- In an open channel nothing of the greeting is sent, and the channel stays open. -/
theorem inChannel_reply (hm : m.inChannel = true) :
    (∀ method ∈ greeting, method ∉ m.reply.toList) ∧ channelOpenOk ∉ m.reply.toList ∧
      channelCloseOk ∉ m.reply.toList := by
  cases m with
  | waitFunctional | queueDeclareReceived | basicPublishReceived | waitPublishContentHeader
  | waitPublishContent | basicConsumeReceived | waitValueDequeue | valueDequeueReceived
  | waitConsumeAck => decide
  | _ => cases hm

/-- The stage of a channel that is open. -/
theorem stage_of_inChannel {taken : List UInt8} {sent : List MethodHeader}
    (hm : m.inChannel = true) : Stage m taken sent ↔ Opened taken sent ∧ Balanced 1 sent := by
  cases m with
  | waitFunctional | queueDeclareReceived | basicPublishReceived | waitPublishContentHeader
  | waitPublishContent | basicConsumeReceived | waitValueDequeue | valueDequeueReceived
  | waitConsumeAck => exact Iff.rfl
  | _ => cases hm

/-- A handler takes the exchange from the stage of its state to that of the next. -/
theorem stage_of_action {taken bytes : List UInt8} {sent : List MethodHeader}
    (hdequeue : m ≠ waitValueDequeue) (hrunning : m ≠ finished ∧ m ≠ fail)
    (hstage : Stage m taken sent) (hw : w.socket.Delivers bytes) (h : actions m w = .ok (m', w')) :
    ∃ more rest, bytes = more ++ rest ∧ w'.socket.Delivers rest ∧
      Stage m' (taken ++ more) (sent ++ m.reply.toList) := by
  have hconsumes := (built_actions m).consumes _ _ _ h bytes hw
  have hleft : (∀ taken sent, Stage m' taken sent) → ∃ more rest, bytes = more ++ rest ∧
      w'.socket.Delivers rest ∧ Stage m' (taken ++ more) (sent ++ m.reply.toList) := by
    intro hany
    obtain ⟨more, rest, hbytes, hrest⟩ := hconsumes
    exact ⟨more, rest, hbytes, hrest, hany _ _⟩
  have hsent : ∀ {i j : ℕ} {method : MethodHeader}, Early i j taken sent →
      greeting.take (j + 1) = greeting.take j ++ [method] →
      Early i (j + 1) (taken ++ []) (sent ++ [method]) := by
    rintro i j method ⟨hreceived, rfl⟩ hmethod
    exact ⟨by rwa [List.append_nil], hmethod.symm⟩
  by_cases hchannel : m.inChannel = true
  · obtain ⟨hopened, hbalanced⟩ := (stage_of_inChannel hchannel).mp hstage
    obtain ⟨hgreeting, hopen, hclose⟩ := inChannel_reply hchannel
    obtain ⟨more, rest, hbytes, hrest⟩ := hconsumes
    have hopened' := hopened.append more hgreeting
    have hbalanced' := hbalanced.append hopen hclose
    rcases inChannel_next hchannel (effect_of_action hdequeue hrunning h) with
      hm' | rfl | rfl | rfl
    · exact ⟨more, rest, hbytes, hrest, (stage_of_inChannel hm').mpr ⟨hopened', hbalanced'⟩⟩
    · exact ⟨more, rest, hbytes, hrest, hopened', hbalanced'⟩
    · exact ⟨more, rest, hbytes, hrest, trivial⟩
    · exact ⟨more, rest, hbytes, hrest, trivial⟩
  · cases m with
    | wait =>
      obtain ⟨rfl, rfl⟩ := hstage
      rcases actionWait_takes hw h with rfl | ⟨rfl, rest, hbytes, hrest⟩
      · exact hleft fun _ _ => trivial
      · exact ⟨defaultAmqpHeader, rest, hbytes, hrest, ⟨[], .nil, rfl⟩, rfl⟩
    | headerReceived =>
      obtain ⟨rfl, hsends⟩ := answer_eq_ok h
      exact ⟨[], bytes, rfl, by rwa [hsends.socket], hsent hstage rfl⟩
    | waitStartOk =>
      rcases actionWaitStartOk_takes h with rfl | ⟨rfl, htakes⟩
      · exact hleft fun _ _ => trivial
      · rw [show sent ++ waitStartOk.reply.toList = sent from List.append_nil sent]
        exact Early.takes hstage hw htakes rfl
    | startOkReceived =>
      obtain ⟨rfl, hsends⟩ := answer_eq_ok h
      exact ⟨[], bytes, rfl, by rwa [hsends.socket], hsent hstage rfl⟩
    | waitTuneOk =>
      rcases awaitMethod_takes h with rfl | ⟨rfl, htakes⟩
      · exact hleft fun _ _ => trivial
      · rw [show sent ++ waitTuneOk.reply.toList = sent from List.append_nil sent]
        exact Early.takes hstage hw htakes rfl
    | waitOpenConnection =>
      rcases awaitMethod_takes h with rfl | ⟨rfl, htakes⟩
      · exact hleft fun _ _ => trivial
      · rw [show sent ++ waitOpenConnection.reply.toList = sent from List.append_nil sent]
        exact Early.takes hstage hw htakes rfl
    | openConnectionReceived =>
      obtain ⟨rfl, hsends⟩ := answer_eq_ok h
      exact ⟨[], bytes, rfl, by rwa [hsends.socket], Or.inl (hsent hstage rfl)⟩
    | waitOpenChannel =>
      rcases actionWaitOpenChannel_takes h with rfl | rfl | ⟨rfl, htakes⟩
      · exact hleft fun _ _ => trivial
      · exact hleft fun _ _ => trivial
      · rw [show sent ++ waitOpenChannel.reply.toList = sent from List.append_nil sent]
        rcases hstage with hearly | ⟨hopened, hbalanced⟩
        · obtain ⟨more, rest, hbytes, hrest, hearly'⟩ := hearly.takes hw htakes rfl
          exact ⟨more, rest, hbytes, hrest, Or.inl hearly'⟩
        · obtain ⟨more, rest, hbytes, hrest⟩ := hconsumes
          have hopened' : Opened (taken ++ more) (sent ++ []) := hopened.append more (by simp)
          rw [List.append_nil] at hopened'
          exact ⟨more, rest, hbytes, hrest, Or.inr ⟨hopened', hbalanced⟩⟩
    | openChannelReceived =>
      obtain ⟨rfl, hsends⟩ := answer_eq_ok h
      refine ⟨[], bytes, rfl, by rwa [hsends.socket], ?_⟩
      rcases hstage with hearly | ⟨hopened, hbalanced⟩
      · rw [List.append_nil]
        exact hearly.opened
      · exact ⟨hopened.append [] (by decide), hbalanced.opening⟩
    | closeChannelReceived =>
      obtain ⟨rfl, hsends⟩ := answer_eq_ok h
      obtain ⟨hopened, hbalanced⟩ := hstage
      refine ⟨[], bytes, rfl, by rwa [hsends.socket], Or.inr ⟨?_, hbalanced.closing⟩⟩
      exact hopened.append [] (by decide)
    | closeConnectionReceived =>
      obtain ⟨rfl, -⟩ := answer_eq_ok h
      exact hleft fun _ _ => trivial
    | finished => exact absurd rfl hrunning.1
    | fail => exact absurd rfl hrunning.2
    | _ => exact absurd rfl hchannel

/-- The calls on queues that a connection makes. -/
def Event.callsQueues : Event → Bool
  | .createQueue _ _ | .getQueue _ _ | .qEnqueue _ _ _ | .qAddSubscriber _ | .qDequeue _ _ => true
  | _ => false

/-- The call sends a Channel.Open-Ok. -/
def Event.opensChannel (event : Event) : Bool := event.sent.bind methodOf = some channelOpenOk

/-- The calls before the first Channel.Open-Ok. -/
def callsBeforeOpenOk (trace : List Event) : List Event :=
  trace.takeWhile fun event => !event.opensChannel

/-- No call on queues has been made before the first Channel.Open-Ok. -/
def QueuesAfterOpenOk (trace : List Event) : Prop :=
  ∀ event ∈ callsBeforeOpenOk trace, event.callsQueues = false

/-- A Channel.Open-Ok that was sent is in the trace. -/
theorem exists_opensChannel {trace : List Event} (h : channelOpenOk ∈ methodsSent trace) :
    ∃ event ∈ trace, event.opensChannel = true := by
  obtain ⟨frame, hframe, hmethod⟩ := List.mem_filterMap.mp h
  obtain ⟨event, hevent, hsent⟩ := List.mem_filterMap.mp hframe
  refine ⟨event, hevent, ?_⟩
  rw [Event.opensChannel, hsent, Option.bind_some, hmethod, decide_eq_true_eq]

/-- More calls after the channel is open, or calls that leave the queues alone. -/
theorem QueuesAfterOpenOk.append {trace events : List Event} (h : QueuesAfterOpenOk trace)
    (hevents : channelOpenOk ∈ methodsSent trace ∨ ∀ event ∈ events, event.callsQueues = false) :
    QueuesAfterOpenOk (trace ++ events) := by
  intro event hmem
  rw [callsBeforeOpenOk, List.takeWhile_append] at hmem
  split at hmem
  · rename_i hall
    rcases hevents with hopen | hquiet
    · obtain ⟨opening, hopening, hopens⟩ := exists_opensChannel hopen
      have hwhole : trace.takeWhile (fun event => !event.opensChannel) = trace :=
        (List.takeWhile_prefix _).eq_of_length hall
      rw [← hwhole] at hopening
      have hnot := List.mem_takeWhile_imp hopening
      rw [hopens] at hnot
      cases hnot
    · rcases List.mem_append.mp hmem with hold | hnew
      · have hwhole : trace.takeWhile (fun event => !event.opensChannel) = trace :=
          (List.takeWhile_prefix _).eq_of_length hall
        exact h event (by rw [callsBeforeOpenOk, hwhole]; exact hold)
      · exact hquiet event ((List.takeWhile_sublist _).subset hnew)
  · exact h event hmem

/-- Once the exchange has begun with the handshake no part of the greeting is sent again. -/
theorem reply_not_greeting {taken : List UInt8} {sent : List MethodHeader}
    (hstage : Stage m taken sent) (hopened : Opened taken sent) :
    ∀ method ∈ greeting, method ∉ m.reply.toList := by
  cases m with
  | headerReceived | startOkReceived | openConnectionReceived =>
    exact absurd hopened (Early.not_opened hstage)
  | _ => decide

/-- A handler outside an open channel makes no call on queues. -/
theorem callsQueues_of_effect (hm : m.inChannel = false) (h : Effect m w w' m')
    (htrace : w.trace = []) : ∀ event ∈ w'.trace, event.callsQueues = false := by
  cases h with
  | quiet _ hgrows =>
    obtain ⟨events, hevents, hquiet⟩ := hgrows.trace
    rw [htrace, List.nil_append] at hevents
    rw [hevents]
    intro event hevent
    rcases hquiet event hevent with ⟨method, rfl⟩ | ⟨bytes, rfl⟩
    · rfl
    · rfl
  | declare hm' _ _ _ | consume hm' _ _ _ | enqueue hm' _ _ _ | subscribe hm' _ _ _ _
  | ack hm' _ _ _ | reject hm' _ _ _ _ =>
    rw [hm'] at hm
    cases hm
  | publish hm' _ _ _ =>
    rcases hm' with rfl | rfl
    · cases hm
    · cases hm

namespace Thread

variable {th th' : Thread} {found : Store} {bytes : List UInt8} {past : Prop}

/-- The exchange of a thread whose client sends these bytes, and which has or has not been
in WAIT_FUNCTIONAL. -/
structure Exchanged (bytes : List UInt8) (past : Prop) (th : Thread) : Prop where
  stage : ∃ taken rest, bytes = taken ++ rest ∧ th.conn.socket.Delivers rest ∧
    Stage th.conn.machine taken (methodsSent th.trace) ∧
    (past → Opened taken (methodsSent th.trace))
  calls : QueuesAfterOpenOk th.trace

/-- The thread is where its stage says, so it has been in WAIT_FUNCTIONAL only if the
exchange has begun with the handshake. -/
theorem Exchanged.visit (h : Exchanged bytes past th) :
    Exchanged bytes (past ∨ th.conn.machine = waitFunctional) th := by
  obtain ⟨⟨taken, rest, hbytes, hrest, hstage, hpast⟩, hcalls⟩ := h
  refine ⟨⟨taken, rest, hbytes, hrest, hstage, ?_⟩, hcalls⟩
  intro hvisited
  rcases hvisited with hbefore | hnow
  · exact hpast hbefore
  · rw [hnow] at hstage
    exact hstage.1

/-- A step carries the handshake on. -/
theorem Exchanged.step (h : Exchanged bytes past th)
    (hstep : Thread.step grain th found = .ok th') : Exchanged bytes past th' := by
  obtain ⟨⟨taken, rest, rfl, hrest, hstage, hpast⟩, hcalls⟩ := h
  cases step_cases hstep with
  | @handler m' w' hdequeue hrunning haction hth' =>
    obtain ⟨events, htrace, hsent⟩ := actions_methodsSent haction
    rw [show (th.world found).trace = [] from rfl, List.nil_append] at htrace
    obtain ⟨more, rest', rfl, hrest', hstage'⟩ :=
      stage_of_action hdequeue hrunning hstage hrest haction
    have hmethods : methodsSent th'.trace =
        methodsSent th.trace ++ th.conn.machine.reply.toList := by
      rw [hth', show (th.after m' .testRound w').trace = th.trace ++ w'.trace from rfl,
        methodsSent_append, htrace, hsent]
    have hsame : th'.conn.machine = m' ∧ th'.conn.socket = w'.socket := by
      rw [hth']
      exact ⟨rfl, rfl⟩
    refine ⟨⟨taken ++ more, rest', (List.append_assoc _ _ _).symm, ?_, ?_, ?_⟩, ?_⟩
    · rw [hsame.2]
      exact hrest'
    · rw [hmethods, hsame.1]
      exact hstage'
    · intro hvisited
      rw [hmethods]
      exact (hpast hvisited).append more (reply_not_greeting hstage (hpast hvisited))
    · rw [hth']
      apply hcalls.append
      by_cases hchannel : th.conn.machine.inChannel = true
      · left
        obtain ⟨later, hlater, -⟩ := ((stage_of_inChannel hchannel).mp hstage).1.greeted
        rw [hlater]
        simp
      · right
        exact callsQueues_of_effect (Bool.eq_false_iff.mpr hchannel)
          (effect_of_action hdequeue hrunning haction) rfl
  | @dequeue p queue m' point' w' hm heffect hth' =>
    obtain ⟨hsocket, hcases⟩ := dequeueEffect_calls heffect
    have hchannel : th.conn.machine.inChannel = true := by rw [hm]; rfl
    have hm' : m'.inChannel = true := by
      rcases hcases with ⟨-, rfl, -⟩ | ⟨-, rfl, -⟩ | ⟨-, -, rfl, -⟩
      · rfl
      · rfl
      · rfl
    have hsent : methodsSent th'.trace = methodsSent th.trace := by
      rw [hth', show (th.after m' point' w').trace = th.trace ++ w'.trace from rfl,
        methodsSent_append]
      rcases hcases with ⟨-, -, -, taken, htrace⟩ | ⟨-, -, htrace⟩ | ⟨-, -, -, -, htrace⟩
      · rw [htrace]
        exact List.append_nil _
      · rw [htrace]
        exact List.append_nil _
      · rw [htrace]
        exact List.append_nil _
    rw [stage_of_inChannel hchannel] at hstage
    refine ⟨⟨taken, rest, rfl, ?_, ?_, ?_⟩, ?_⟩
    · rw [hth']
      change w'.socket.Delivers rest
      rwa [hsocket]
    · rw [hsent, hth']
      exact (stage_of_inChannel hm').mpr hstage
    · rw [hsent]
      exact hpast
    · rw [hth']
      apply hcalls.append
      left
      obtain ⟨later, hlater, -⟩ := hstage.1.greeted
      rw [hlater]
      simp

/-- The exchange of a whole run. -/
theorem Exchanged.exec (h : Exchanged bytes past th) (stores : List Store)
    (hrun : exec (Thread.step grain) th stores = .ok th') :
    Exchanged bytes (past ∨ ∃ before ∈ states (Thread.step grain) th stores,
      before.conn.machine = waitFunctional) th' := by
  induction stores generalizing th past with
  | nil =>
    cases hrun
    simpa [states] using h.visit
  | cons found stores ih =>
    obtain ⟨middle, hstep, hrest⟩ := exec_cons_eq_ok.mp hrun
    have hlast := ih (h.visit.step hstep) hrest
    simpa [states, hstep, or_assoc] using hlast

/-- The thread has not said anything yet. -/
theorem start_exchanged (cs : ConnectionState) {socket : Socket} (h : socket.Delivers bytes)
    (store : Store) : Exchanged bytes False (start cs socket store) :=
  ⟨⟨[], bytes, rfl, h, ⟨rfl, rfl⟩, False.elim⟩, by simp [QueuesAfterOpenOk, callsBeforeOpenOk, start]⟩

/-- At every point of a run: after WAIT_FUNCTIONAL the client's bytes began with the protocol
header and the four frames of the opening, and the server's methods with the greeting and
Channel.Open-Ok; the channel is open exactly once more than it was closed wherever it is
used, and as often in WAIT_OPEN_CHANNEL; and no queue was used before the first Channel.Open-Ok. -/
theorem handshake_discipline (grain : Grain) (cs : ConnectionState) (store : Store)
    {socket : Socket} (hsocket : socket.Delivers bytes) {stores : List Store}
    (hrun : Foundations.exec (step grain) (start cs socket store) stores = .ok th) :
    ((∃ before ∈ states (step grain) (start cs socket store) stores,
        before.conn.machine = waitFunctional) → Opened bytes (methodsSent th.trace)) ∧
      (th.conn.machine.inChannel = true → Balanced 1 (methodsSent th.trace)) ∧
      (th.conn.machine = waitOpenChannel → Balanced 0 (methodsSent th.trace)) ∧
      QueuesAfterOpenOk th.trace := by
  obtain ⟨⟨taken, rest, rfl, -, hstage, hpast⟩, hcalls⟩ :=
    (start_exchanged cs hsocket store).exec stores hrun
  refine ⟨?_, ?_, ?_, hcalls⟩
  · intro hbefore
    have hopened : Opened (taken ++ rest) (methodsSent th.trace ++ []) :=
      (hpast (Or.inr hbefore)).append rest (by simp)
    rwa [List.append_nil] at hopened
  · intro hchannel
    exact ((stage_of_inChannel hchannel).mp hstage).2
  · intro hm
    rw [hm] at hstage
    rcases hstage with hearly | ⟨-, hbalanced⟩
    · rw [hearly.2]
      unfold Balanced
      decide
    · exact hbalanced

/-- A client that sends the opening and nothing else. -/
theorem handshake_discipline_opening :
    ∃ th, Foundations.exec (step .coarse) (start (.initial 0) (Socket.chunk openingFrames)
        initQueuePool) (List.replicate 9 initQueuePool) = .ok th ∧
      th.conn.machine = waitFunctional ∧ Opened openingFrames (methodsSent th.trace) ∧
      Balanced 1 (methodsSent th.trace) ∧ QueuesAfterOpenOk th.trace := by
  have hrun : (Foundations.exec (step .coarse) (start (.initial 0) (Socket.chunk openingFrames)
      initQueuePool) (List.replicate 9 initQueuePool)).toOption.map (·.conn.machine) =
        some waitFunctional := by decide +kernel
  obtain ⟨th, hth, hm⟩ := exec_observed hrun
  obtain ⟨hopened, hbalanced, -, hcalls⟩ := handshake_discipline .coarse (.initial 0) initQueuePool
    (Socket.chunk_delivers openingFrames) hth
  refine ⟨th, hth, hm, hopened ⟨th, mem_states_of_exec hth, hm⟩, hbalanced ?_, hcalls⟩
  rw [hm]
  rfl

end Thread

end AmqpBroker
