import AmqpBroker.Verification.FrameLength
import AmqpBroker.Verification.Exchange
import AmqpBroker.Verification.Invariant

/-!
# Frames that are not refused

Only WAIT_PUBLISH_CONTENT looks at the type octet, and no reader compares the end octet. A
complete frame is refused exactly when that one test refuses it, or when the reader of
methods finds nothing in it that the switch of the state has a case for.
-/

namespace AmqpBroker

open Foundations Program MachineState

/-- The type octets that a state waits for. -/
def MachineState.takesType (m : MachineState) (msgType : UInt8) : Bool :=
  match m with
  | waitPublishContentHeader => msgType = MsgFormat.contentHeader
  | waitPublishContent => msgType = MsgFormat.method || msgType = MsgFormat.body
  | _ => msgType = MsgFormat.method

/-- A frame of a type that the state does not wait for, or without its end octet. -/
def Malformed (m : MachineState) (messageHeader : MessageHeader) (endOctet : UInt8) : Prop :=
  m.takesType messageHeader.msgType = false ∨ endOctet ≠ frameEnd

/-- The same names are declared, and every queue holds the same messages. -/
structure SamePool (store store' : Store) : Prop where
  declared : ∀ name, store'.queueOf name = store.queueOf name
  messages : ∀ p, store'.messages p = store.messages p

/-- The handler returns FAIL and leaves the pool alone. -/
def RefusesFrame (grain : Grain) (s : Broker) (t : ℤ) : Prop :=
  ∃ s' c', Broker.step grain s (.run t) = .ok s' ∧ s'.conns t = some c' ∧ c'.machine = fail ∧
    SamePool s.store s'.store

/-- The switch of a state has a case for a method, if only one of another class that a
missing `break` leads to. -/
def HasCase (m : MachineState) (method : MethodHeader) : Prop :=
  method ∈ (caseLabels m).map Prod.fst ∨ FallsThrough m method

/-- No method can be read from the payload, or one that the state has no case for. -/
def NamesNoCase (m : MachineState) (payload : List UInt8) : Prop :=
  payload.length < 4 ∨ ¬ HasCase m (decodeMethod payload)

/-- What a state refuses: the reader of methods has room for the payload and finds no case
in it, or there is no reader for the type at all. -/
def RefusedPayload (m : MachineState) (msgType : UInt8) (payload : List UInt8) : Prop :=
  match payloadReader m msgType with
  | none => True
  | some .readMethod => payload.length ≤ maxLine - 3 ∧ NamesNoCase m payload
  | some .readContentHeader => False
  | some .readBody => False

variable {m m' : MachineState} {w w' : World} {header payload rest : List UInt8} {endOctet : UInt8}

/-- Memory with the same lists has the same pool. -/
theorem SameLists.samePool {store store' : Store} (h : SameLists store store') :
    SamePool store store' := by
  constructor
  · intro name
    rw [Store.queueOf, Store.queueOf, h.trie]
  · exact h.messages

/-- A table leads to FAIL for the methods without a label only. -/
theorem dispatch_eq_fail_iff (m : MachineState) (method : MethodHeader) :
    dispatch m method = fail ↔ method ∉ (caseLabels m).map Prod.fst := by
  cases m with
  | waitStartOk | waitTuneOk | waitOpenConnection | waitOpenChannel | waitFunctional
  | waitPublishContent | waitConsumeAck =>
    simp only [dispatch, caseLabels, lookup_cons_eq, List.lookup_nil, List.map_cons, List.map_nil,
      List.mem_cons, List.not_mem_nil, or_false]
    split_ifs <;> simp_all
  | _ => simp [dispatch, caseLabels]

/-- A missing `break` never leads to FAIL. -/
theorem functionalNext_ne_fail {method : MethodHeader} (h : FallsThrough m method) :
    functionalNext method ≠ fail := by
  have hids : MethodId.connectionClose ≠ MethodId.queueDeclare := by decide
  obtain ⟨-, ⟨hclass, hclose | hdeclare⟩ | ⟨hclass, hdeclare⟩⟩ := h
  · simp [functionalNext, hclass, hclose, hids]
  · simp [functionalNext, hclass, hdeclare]
  · simp [functionalNext, hclass, hdeclare]

/-- The methods that a switch leads to FAIL. -/
theorem namedState_eq_fail_iff (m : MachineState) (method : MethodHeader) :
    namedState m method = fail ↔ ¬ HasCase m method := by
  rw [HasCase, not_or, ← dispatch_eq_fail_iff, ← namedState_eq_dispatch_iff]
  by_cases hfalls : FallsThrough m method
  · have hnamed : namedState m method ≠ fail := by
      rw [namedState, if_pos hfalls.1]
      exact functionalNext_ne_fail hfalls
    constructor
    · exact fun h => absurd h hnamed
    · rintro ⟨hfail, hsame⟩
      rw [hsame, hfail]
  · have hsame := (namedState_eq_dispatch_iff m method).mpr hfalls
    rw [hsame]
    exact ⟨fun h => ⟨h, rfl⟩, fun h => h.1⟩

/-- What the reader of methods makes of a complete payload. -/
theorem readMethod_of_payload {length : UInt32} (hlength : payload.length = length.toNat)
    (hw : w.socket.Delivers (payload ++ endOctet :: rest)) :
    if payload.length ≤ maxLine - 3 then
      if payload.length < 4 then ∃ w', readMethod (toInt length) w = .ok (none, w')
      else ∃ w', readMethod (toInt length) w = .ok (some (decodeMethod payload), w')
    else readMethod (toInt length) w = .error .bufferRange := by
  have hmax : maxLine = 131073 := rfl
  have hsupply : length.toNat ≤ (payload ++ endOctet :: rest).length := by
    rw [List.length_append]
    omega
  obtain ⟨-, hoverrun⟩ := readMethod_supplied hw hsupply
  by_cases hroom : payload.length ≤ maxLine - 3
  · have hrequested : requested length = payload.length := by
      rw [requested_of_le (by omega), hlength]
    have hbytes : requested length < (payload ++ endOctet :: rest).length := by
      rw [hrequested, List.length_append, List.length_cons]
      omega
    rw [if_pos hroom]
    split
    · exact readMethod_tiny hw (by omega) hbytes.le
    · have htake : (payload ++ endOctet :: rest).take (requested length) = payload := by
        rw [hrequested]
        exact List.take_left' rfl
      rw [← congrArg decodeMethod htake]
      exact ⟨_, readMethod_complete hw (by omega) (by omega) hbytes⟩
  · rw [if_neg hroom]
    exact hoverrun (by omega)

/-- The states that look for a method in a frame of this type. -/
theorem reader_caseLabels {msgType : UInt8} (hm : readsFrame m = true)
    (h : payloadReader m msgType = some .readMethod) :
    caseLabels m ≠ [] ∧ (m = waitPublishContent → msgType = MsgFormat.method) := by
  cases m with
  | waitStartOk | waitTuneOk | waitOpenConnection | waitOpenChannel | waitFunctional
  | waitConsumeAck => exact ⟨by decide, by simp⟩
  | waitPublishContent =>
    refine ⟨by decide, fun _ => ?_⟩
    by_contra hother
    simp only [payloadReader, if_neg hother] at h
    split at h
    · cases h
    · cases h
  | waitPublishContentHeader => cases h
  | _ => cases hm

/-- A frame that goes to the reader of methods is refused for want of a case only. -/
theorem actions_refuses_method (hm : readsFrame m = true) {messageHeader : MessageHeader}
    (hreader : payloadReader m messageHeader.msgType = some .readMethod) {v : World}
    (hheader : readMessageHeader w = .ok (some messageHeader, v)) (hsilent : Silent w v)
    (hlength : payload.length = messageHeader.length.toNat)
    (hw : v.socket.Delivers (payload ++ endOctet :: rest))
    (hready : m = waitConsumeAck → ∀ v', SameSelf w v' → v'.store = w.store →
      ∃ v'', unsubscribe v' = .ok ((), v'')) :
    (∃ w', actions m w = .ok (fail, w')) ↔
      payload.length ≤ maxLine - 3 ∧ NamesNoCase m payload := by
  obtain ⟨hlabels, htype⟩ := reader_caseLabels hm hreader
  have hread := readMethod_of_payload hlength hw
  have hready' : ∀ {result v'}, readMethod (toInt messageHeader.length) v = .ok (result, v') →
      m = waitConsumeAck → ∃ v'', unsubscribe v' = .ok ((), v'') := by
    intro result v' hmethod hack
    have hself : SameSelf w v' ∧ v'.store = w.store := by
      have houtcome := readMethod_outcome hmethod
      cases result with
      | none =>
        have hafter := hsilent.trans houtcome
        exact ⟨hafter.sameSelf, hafter.store⟩
      | some method =>
        obtain ⟨v₁, hsilent', rfl⟩ := houtcome
        have hafter := hsilent.trans hsilent'
        exact ⟨⟨hafter.threadId, hafter.currentQueue, hafter.currentQueueName⟩, hafter.store⟩
    exact hready hack v' hself.1 hself.2
  by_cases hroom : payload.length ≤ maxLine - 3
  · rw [if_pos hroom] at hread
    by_cases htiny : payload.length < 4
    · rw [if_pos htiny] at hread
      obtain ⟨v', hmethod⟩ := hread
      have hfail := actions_of_no_method hlabels hheader htype hmethod (hready' hmethod)
      exact ⟨fun _ => ⟨hroom, Or.inl htiny⟩, fun _ => hfail⟩
    · rw [if_neg htiny] at hread
      obtain ⟨v', hmethod⟩ := hread
      obtain ⟨w', hrun⟩ := actions_of_method hlabels hheader htype hmethod (hready' hmethod)
      rw [NamesNoCase, or_iff_right htiny, ← namedState_eq_fail_iff, hrun]
      constructor
      · rintro ⟨w'', hfail⟩
        exact ⟨hroom, (Prod.mk.inj (Except.ok.inj hfail)).1⟩
      · rintro ⟨-, hnamed⟩
        rw [hnamed]
        exact ⟨w', rfl⟩
  · rw [if_neg hroom] at hread
    have hstop := actions_of_method_error hlabels hheader htype hread
    constructor
    · rintro ⟨w', hfail⟩
      rw [hstop] at hfail
      cases hfail
    · exact fun hpayload => absurd hpayload.1 hroom

/-- What the handlers refuse. -/
theorem actions_refuses_iff (hm : readsFrame m = true) (hheader : header.length = 7)
    (hlength : payload.length = (decodeHeader header).length.toNat)
    (hw : w.socket.Delivers (header ++ (payload ++ endOctet :: rest)))
    (hready : m = waitConsumeAck → ∀ v, SameSelf w v → v.store = w.store →
      ∃ v', unsubscribe v = .ok ((), v')) :
    (∃ w', actions m w = .ok (fail, w')) ↔
      RefusedPayload m (decodeHeader header).msgType payload := by
  obtain ⟨hread, hrest⟩ := readMessageHeader_of_part hheader hw
  have hsilent : Silent w (w.receive header) := keeps_readMessageHeader _ _ _ hread
  have hmethods := fun hreader =>
    actions_refuses_method hm hreader hread hsilent hlength hrest hready
  unfold RefusedPayload
  cases m with
  | waitStartOk | waitTuneOk | waitOpenConnection | waitOpenChannel | waitFunctional
  | waitConsumeAck => exact hmethods rfl
  | waitPublishContentHeader =>
    simp only [payloadReader, iff_false]
    rintro ⟨w', hrun⟩
    change actionWaitPublishContentHeader w = _ at hrun
    rw [actionWaitPublishContentHeader, bind_of_ok hread] at hrun
    obtain ⟨_, _, _, hnext⟩ := bind_eq_ok.mp hrun
    cases hnext
  | waitPublishContent =>
    by_cases hmethod : (decodeHeader header).msgType = MsgFormat.method
    · have hreader : payloadReader waitPublishContent (decodeHeader header).msgType =
          some .readMethod := if_pos hmethod
      simp only [hreader]
      exact hmethods hreader
    · change (∃ w', actionWaitPublishContent w = _) ↔ _
      rw [actionWaitPublishContent, bind_of_ok hread]
      by_cases hbody : (decodeHeader header).msgType = MsgFormat.body
      · have hreader : payloadReader waitPublishContent (decodeHeader header).msgType =
            some .readBody := by
          rw [payloadReader, if_neg hmethod, if_pos hbody]
        simp only [hreader, iff_false]
        rw [if_neg hmethod, if_pos hbody]
        rintro ⟨w', hrun⟩
        obtain ⟨_, _, _, hrun⟩ := bind_eq_ok.mp hrun
        obtain ⟨_, _, _, hnext⟩ := bind_eq_ok.mp hrun
        cases hnext
      · have hreader : payloadReader waitPublishContent (decodeHeader header).msgType = none := by
          rw [payloadReader, if_neg hmethod, if_neg hbody]
        simp only [hreader, hmethod, hbody, if_false, iff_true]
        exact ⟨_, rfl⟩
  | _ => cases hm

/-- Whoever fails leaves every list of messages and every name alone. -/
theorem sameLists_of_fail (h : Effect m w w' fail) : SameLists w.store w'.store := by
  cases h with
  | quiet _ hgrows =>
    rw [hgrows.store]
    exact .refl w.store
  | reject _ _ hstore _ _ =>
    obtain ⟨p, queue, rr, -, -, -, hw⟩ := onRing_unit_eq_ok hstore
    rw [hw]
    exact sameLists_withRing w.store p rr

variable {s : Broker} {t : ℤ} {c : Conn} {grain : Grain}

/-- The states that wait for a frame run a handler. -/
theorem running_of_readsFrame (hm : readsFrame m = true) :
    m ≠ waitValueDequeue ∧ m ≠ finished ∧ m ≠ fail := by
  cases m with
  | waitStartOk | waitTuneOk | waitOpenConnection | waitOpenChannel | waitFunctional
  | waitPublishContentHeader | waitPublishContent | waitConsumeAck => decide
  | _ => cases hm

/-- In every reachable state, a complete frame is refused exactly when it is a frame that
the state refuses. -/
theorem refusesFrame_iff {guard : Broker → Act → Prop}
    (h : Reaches (Broker.step grain) guard Broker.initial s) (hc : s.conns t = some c)
    (hm : readsFrame c.machine = true) (hheader : header.length = 7)
    (hlength : payload.length = (decodeHeader header).length.toNat)
    (hw : c.socket.Delivers (header ++ (payload ++ endOctet :: rest))) :
    RefusesFrame grain s t ↔ RefusedPayload c.machine (decodeHeader header).msgType payload := by
  obtain ⟨hdequeue, hrunning⟩ := running_of_readsFrame hm
  have hok := Broker.ok_of_reaches h
  rw [← actions_refuses_iff (w := s.world c) hm hheader hlength hw fun hack v hself hstore =>
    hok.unsubscribe hc (by rw [hack]; rfl) hself hstore]
  constructor
  · rintro ⟨s', c', hstep, hc', hfail, -⟩
    cases step_cases hstep with
    | @handler _ c₁ m' w' _ hc₁ haction _ hs' =>
      obtain rfl := Option.some.inj (hc.symm.trans hc₁)
      rw [hs', Broker.commit_conns_self] at hc'
      cases hc'
      obtain rfl : m' = fail := hfail
      exact ⟨w', haction⟩
    | dequeue hc₁ hm₁ _ _ _ _ =>
      obtain rfl := Option.some.inj (hc.symm.trans hc₁)
      exact absurd hm₁ hdequeue
  · rintro ⟨w', haction⟩
    have hstep := step_run_of_ok hc hdequeue hrunning haction grain
    have hlists := sameLists_of_fail (effect_of_action hdequeue hrunning haction)
    exact ⟨_, _, hstep, s.commit_conns_self t fail .testRound w', rfl, hlists.samePool⟩

/-- A malformed frame is refused exactly when it is one that the state refuses anyway: its
type has no reader, or its payload is read as a method without a case. -/
theorem malformed_refused_iff {guard : Broker → Act → Prop}
    (h : Reaches (Broker.step grain) guard Broker.initial s) (hc : s.conns t = some c)
    (hm : readsFrame c.machine = true) (hheader : header.length = 7)
    (hlength : payload.length = (decodeHeader header).length.toNat)
    (hw : c.socket.Delivers (header ++ (payload ++ endOctet :: rest))) :
    (Malformed c.machine (decodeHeader header) endOctet → RefusesFrame grain s t) ↔
      (Malformed c.machine (decodeHeader header) endOctet →
        RefusedPayload c.machine (decodeHeader header).msgType payload) :=
  imp_congr_right fun _ => refusesFrame_iff h hc hm hheader hlength hw

/-- A connection in WAIT_FUNCTIONAL whose client has sent these bytes next. -/
theorem functional_session {b : List UInt8}
    (hobserved : (exec (Broker.step .fine) Broker.initial (session 0 (openingFrames ++ b)
      9)).toOption.map Broker.firstConn = some (some (waitFunctional, Socket.chunk b))) :
    ∃ s c, exec (Broker.step .fine) Broker.initial (session 0 (openingFrames ++ b) 9) = .ok s ∧
      s.conns 0 = some c ∧ c.machine = waitFunctional ∧ c.socket.Delivers b := by
  obtain ⟨s, hrun, hview⟩ := exec_observed hobserved
  obtain ⟨c, hc, hm, hsocket⟩ := Broker.firstConn_eq_some hview
  refine ⟨s, c, hrun, hc, hm, ?_⟩
  rw [hsocket]
  exact Socket.chunk_delivers b

/-- A heartbeat is refused in WAIT_FUNCTIONAL because it is too short to be a method. -/
theorem malformed_refused_iff_heartbeat :
    ∃ s c, Reaches (Broker.step .fine) (fun _ _ => True) Broker.initial s ∧ s.conns 0 = some c ∧
      c.machine = waitFunctional ∧
      Malformed c.machine (decodeHeader (encodeHeader MsgFormat.heartbeat 0 0)) frameEnd ∧
      RefusesFrame .fine s 0 := by
  obtain ⟨s, c, hrun, hc, hm, hw⟩ :=
    functional_session (b := encodeHeader MsgFormat.heartbeat 0 0 ++ ([] ++ frameEnd :: []))
      (by decide +kernel)
  have hmalformed : Malformed c.machine (decodeHeader (encodeHeader MsgFormat.heartbeat 0 0))
      frameEnd := by
    rw [hm]
    exact Or.inl (by decide)
  refine ⟨s, c, reaches_of_exec hrun, hc, hm, hmalformed, ?_⟩
  apply (malformed_refused_iff (reaches_of_exec hrun) hc (by rw [hm]; rfl) (by decide) (by decide)
    hw).mpr _ hmalformed
  intro _
  rw [hm]
  exact ⟨by decide, Or.inl (by decide)⟩

/-- The arguments of a Queue.Declare. -/
def declareArguments : List UInt8 := [0, 0, 1, 113, 0, 0, 0, 0, 0]

/-- A heartbeat frame whose payload is a Queue.Declare declares a queue. -/
theorem heartbeat_declares_queue :
    ∃ s s' c c', Reaches (Broker.step .fine) (fun _ _ => True) Broker.initial s ∧
      s.conns 0 = some c ∧ c.machine = waitFunctional ∧
      c.socket.Delivers (encodeHeader MsgFormat.heartbeat 0 13 ++
        (encodeMethod declareMethod declareArguments ++ frameEnd :: [])) ∧
      Malformed c.machine (decodeHeader (encodeHeader MsgFormat.heartbeat 0 13)) frameEnd ∧
      Broker.step .fine s (.run 0) = .ok s' ∧ s'.conns 0 = some c' ∧
      c'.machine = queueDeclareReceived ∧ s.store.queueOf [113] = none ∧
      s'.store.queueOf [113] = some 0 ∧ ¬ RefusesFrame .fine s 0 := by
  have hobserved : (exec (Broker.step .fine) Broker.initial (session 0 (openingFrames ++
      (encodeHeader MsgFormat.heartbeat 0 13 ++ (encodeMethod declareMethod declareArguments ++
        frameEnd :: []))) 9)).toOption.map (fun s => (s.firstConn, s.store.queueOf [113])) =
      some (some (waitFunctional, Socket.chunk (encodeHeader MsgFormat.heartbeat 0 13 ++
        (encodeMethod declareMethod declareArguments ++ frameEnd :: []))), none) := by
    decide +kernel
  have hobserved' : (exec (Broker.step .fine) Broker.initial (session 0 (openingFrames ++
      (encodeHeader MsgFormat.heartbeat 0 13 ++ (encodeMethod declareMethod declareArguments ++
        frameEnd :: []))) 9 ++ [.run 0])).toOption.map
          (fun s => (s.firstConn, s.store.queueOf [113])) =
      some (some (queueDeclareReceived, []), some 0) := by
    decide +kernel
  obtain ⟨s, hrun, hview⟩ := exec_observed hobserved
  obtain ⟨s', hrun', hview'⟩ := exec_observed hobserved'
  obtain ⟨c, hc, hm, hsocket⟩ := Broker.firstConn_eq_some (congrArg Prod.fst hview)
  obtain ⟨c', hc', hm', -⟩ := Broker.firstConn_eq_some (congrArg Prod.fst hview')
  have hstep := step_of_exec hrun hrun'
  refine ⟨s, s', c, c', reaches_of_exec hrun, hc, hm, ?_, ?_, hstep, hc', hm',
    congrArg Prod.snd hview, congrArg Prod.snd hview', ?_⟩
  · rw [hsocket]
    exact Socket.chunk_delivers _
  · rw [hm]
    exact Or.inl (by decide)
  · rintro ⟨s'', c'', hstep', hc'', hfail, -⟩
    obtain rfl := Except.ok.inj (hstep.symm.trans hstep')
    obtain rfl := Option.some.inj (hc'.symm.trans hc'')
    rw [hm'] at hfail
    cases hfail

end AmqpBroker
