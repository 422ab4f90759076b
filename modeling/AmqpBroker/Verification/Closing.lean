import AmqpBroker.Verification.Exchange
import AmqpBroker.Verification.Malformed
import AmqpBroker.Verification.Membership
import AmqpBroker.Verification.QueueNames

/-!
# Closing a connection

A Connection.Close is answered by its Close-Ok where the switch of the state has a case
for it. WAIT_PUBLISH_CONTENT_HEADER takes the frame for a content header and goes on, and
WAIT_CONSUME_ACK fails without an answer.
-/

namespace AmqpBroker

open Foundations Program MachineState

/-- Connection.Close. -/
def closeMethod : MethodHeader := ⟨ClassId.connection, MethodId.connectionClose⟩

/-- The arguments of Connection.Close: why it was sent, and because of which method. -/
def closeArguments (replyCode : UInt16) (replyText : List UInt8) (cause : MethodHeader) :
    List UInt8 :=
  toBE 2 replyCode.toNat ++ shortString replyText ++ encodeMethod cause []

/-- A Connection.Close frame. -/
def closeFrame (channel : UInt16) (arguments : List UInt8) : List UInt8 :=
  encodeFrame MsgFormat.method channel (encodeMethod closeMethod arguments)

/-- The Connection.Close-Ok frame. -/
def closeOkFrame : List UInt8 :=
  encodeFrame MsgFormat.method 0
    (encodeMethod ⟨ClassId.connection, MethodId.connectionCloseOk⟩ argsEmpty)

/-- The states after Open-Ok in which the broker reads a frame. -/
def MachineState.awaitsFrame : MachineState → Bool
  | waitOpenChannel | waitFunctional | waitPublishContentHeader | waitPublishContent
  | waitConsumeAck => true
  | _ => false

/-- The states whose switch has a case for Connection.Close. -/
def MachineState.takesClose : MachineState → Bool
  | waitOpenChannel | waitFunctional | waitPublishContent => true
  | _ => false

namespace Broker

/-- These are the frames that a connection sent from one state to the other, where only it
has made calls. -/
def Sent (s s' : Broker) (t : ℤ) (frames : List (List UInt8)) : Prop :=
  ∃ events, s'.history = s.history ++ events.map (fun event => (t, event)) ∧
    framesSent events = frames

/-- The connection closes gracefully: its next step takes the Close from the stream and sends
nothing, and the step after it, whatever the others have done in between, sends Close-Ok and
ends in FINISHED. No message is touched and the id is in no ring. -/
def ClosesGracefully (grain : Grain) (s : Broker) (t : ℤ) (rest : List UInt8) : Prop :=
  ∃ s₁, Broker.step grain s (.run t) = .ok s₁ ∧ s.Sent s₁ t [] ∧ SamePool s.store s₁.store ∧
    ∀ s₂, Reaches (Broker.step grain) (fun _ act => ∀ writes, act ≠ .run t writes) s₁ s₂ →
      ∃ s₃ c₃, Broker.step grain s₂ (.run t) = .ok s₃ ∧ s₂.Sent s₃ t [closeOkFrame] ∧
        SamePool s₂.store s₃.store ∧ s₃.conns t = some c₃ ∧ c₃.machine = finished ∧
        c₃.socket.Delivers rest ∧
        ∀ p queue, s₃.store.queues.cells p = some queue → t ∉ queue.rr.linked

end Broker

variable {grain : Grain} {w w' : World} {s s' s₁ s₂ : Broker} {t : ℤ} {c : Conn}
  {m m' : MachineState} {channel replyCode : UInt16} {replyText arguments rest : List UInt8}
  {cause : MethodHeader} {act : Act} {frames frames' : List (List UInt8)}

/-- A well-formed Connection.Close fits the buffers. -/
theorem close_fits (h : replyText.length ≤ 255) (replyCode : UInt16) (cause : MethodHeader) :
    (encodeMethod closeMethod (closeArguments replyCode replyText cause)).length + 3 ≤ maxLine := by
  have hmax : (1000 : ℕ) ≤ maxLine := by decide
  simp [closeArguments, shortString]
  omega

/-- Untouched memory has the same pool. -/
theorem samePool_of_eq {store store' : Store} (h : store' = store) : SamePool store store' := by
  rw [h]
  exact ⟨fun _ => rfl, fun _ => rfl⟩

/-- A switch with a case for it takes the Close. -/
theorem actions_takesClose (hm : m.takesClose = true)
    (h : w.socket.Delivers (closeFrame channel arguments ++ rest))
    (hroom : (encodeMethod closeMethod arguments).length + 3 ≤ maxLine) :
    actions m w = .ok (closeConnectionReceived, w.afterFrame channel closeMethod arguments) := by
  have hmax : maxLine < 2 ^ 32 := by decide
  obtain ⟨hread, -⟩ := readFrame_frame h hroom
  cases m with
  | waitOpenChannel =>
    change actionWaitOpenChannel w = _
    rw [actionWaitOpenChannel, bind_of_ok hread]
    rfl
  | waitFunctional => exact actions_of_arriving (.inl ⟨rfl, rfl⟩) hread rfl (by decide)
  | waitPublishContent =>
    obtain ⟨hheader, hpayload⟩ := readMessageHeader_frame h (by omega)
    obtain ⟨hmethod, -⟩ := readMethod_frame hpayload hroom
    have harriving : readArriving waitPublishContent w =
        .ok (some closeMethod, w.afterFrame channel closeMethod arguments) := by
      rw [readArriving, bind_of_ok hheader]
      exact hmethod
    exact actions_of_arriving (.inr ⟨rfl, rfl⟩) harriving rfl (by decide)
  | _ => cases hm

/-- The answer to Connection.Close. -/
theorem actionCloseConnectionReceived_returns (hreturns : w.WritesReturn) :
    ∃ w', actions closeConnectionReceived w = .ok (finished, w') ∧ Sends [closeOkFrame] w w' ∧
      w'.store = w.store := by
  obtain ⟨w', hsend⟩ : ∃ w', sendMethod ⟨ClassId.connection, MethodId.connectionCloseOk⟩ 0
      argsEmpty w = .ok ((), w') := sendFrame_returns (by decide) hreturns
  have haction : actions closeConnectionReceived w = .ok (finished, w') := by
    change actionCloseConnectionReceived w = _
    rw [actionCloseConnectionReceived, bind_of_ok hsend]
    rfl
  exact ⟨w', haction, sendMethod_sends hsend, (keeps_sendMethod _ _ _ _ _ _ hsend).store⟩

namespace Broker

/-- A step sends one sequence of frames. -/
theorem Sent.unique (h : s.Sent s' t frames) (h' : s.Sent s' t frames') : frames = frames' := by
  obtain ⟨events, hhistory, hframes⟩ := h
  obtain ⟨events', hhistory', hframes'⟩ := h'
  have hmap := List.append_cancel_left (hhistory.symm.trans hhistory')
  have hevents : events = events' :=
    List.map_injective_iff.mpr (fun _ _ heq => (Prod.mk.inj heq).2) hmap
  rw [← hframes, ← hframes', hevents]

/-- The frames of a step are those that its handler has written. -/
theorem sent_commit {events : List Event} (hw : w.trace = events) (t : ℤ) (m : MachineState)
    (point : DequeuePoint) : s.Sent (s.commit t m point w) t (framesSent events) :=
  ⟨events, by rw [← hw]; rfl, rfl⟩

/-- The Close that was taken is answered, whatever the others do before. -/
theorem closing_answered (hok : s.Ok) (hc : s.conns t = some c)
    (hm : c.machine = closeConnectionReceived)
    (hsocket : c.socket.Delivers rest) (grain : Grain) :
    ∃ s' c', Broker.step grain s (.run t) = .ok s' ∧ s.Sent s' t [closeOkFrame] ∧
      SamePool s.store s'.store ∧ s'.conns t = some c' ∧ c'.machine = finished ∧
      c'.socket.Delivers rest ∧
      ∀ p queue, s'.store.queues.cells p = some queue → t ∉ queue.rr.linked := by
  obtain ⟨w', haction, hsends, hstore⟩ := actionCloseConnectionReceived_returns (s.world_writesReturn c)
  have hstep := step_run_of_machine hc hm (by decide) (by decide) haction grain
  have hconn := s.commit_conns_self t finished .testRound w'
  refine ⟨_, _, hstep, ?_, samePool_of_eq hstore, hconn, rfl, ?_, ?_⟩
  · have htrace : w'.trace = [closeOkFrame].map Event.write := hsends.trace
    have hsent := s.sent_commit htrace t finished .testRound
    rwa [framesSent_map_write] at hsent
  · change w'.socket.Delivers rest
    rw [hsends.socket]
    exact hsocket
  · intro p queue hcell
    exact ((hok.step hstep).ringIsConsumers hcell).not_linked hconn rfl

/-- Where the switch has a case for it, a Close ends the connection gracefully. -/
theorem closesGracefully_of_takesClose (hok : s.Ok) (hc : s.conns t = some c)
    (hm : c.machine.takesClose = true)
    (hsocket : c.socket.Delivers (closeFrame channel arguments ++ rest))
    (hroom : (encodeMethod closeMethod arguments).length + 3 ≤ maxLine) (grain : Grain) :
    s.ClosesGracefully grain t rest := by
  have haction := actions_takesClose (w := s.world c) hm hsocket hroom
  have hrunning : c.machine ≠ waitValueDequeue ∧ c.machine ≠ finished ∧ c.machine ≠ fail := by
    refine ⟨?_, ?_, ?_⟩ <;> intro heq <;> rw [heq] at hm <;> cases hm
  have hstep := step_run_of_ok hc hrunning.1 hrunning.2 haction grain
  have hrest := (readFrame_frame (w := s.world c) hsocket hroom).2
  refine ⟨_, hstep, ⟨[.readMethod closeMethod], ?_, rfl⟩, samePool_of_eq rfl, fun s₂ hreaches => ?_⟩
  · change s.history ++ _ = _
    simp [World.afterFrame, World.afterMethod, World.receive, world, decodeMethod_encodeMethod]
  · have hkept := hreaches.invariant
      (P := fun s => s.Ok ∧ ∃ c, s.conns t = some c ∧ c.machine = closeConnectionReceived ∧
        c.socket.Delivers rest)
      ⟨hok.step hstep, _, commit_conns_self _ _ _ _ _, rfl, hrest⟩
      (fun _ _ _ hinv hact hnext => by
        obtain ⟨hok', c', hc', hm', hsocket'⟩ := hinv
        exact ⟨hok'.step hnext, c', conns_kept hc' (by rw [hm']; decide) hact hnext, hm', hsocket'⟩)
    obtain ⟨hok₂, c₂, hc₂, hm₂, hsocket₂⟩ := hkept
    exact closing_answered hok₂ hc₂ hm₂ hsocket₂ grain

/-- The handlers that only read send nothing. -/
theorem sent_nil (haction : actions m (s.world c) = .ok (m', w')) (hm : m.sends = false)
    (point : DequeuePoint) : s.Sent (s.commit t m' point w') t [] := by
  obtain ⟨events, htrace, hevents⟩ := (built_actions_of_not_sends hm).records _ _ _ haction
  have hsent := s.sent_commit htrace t m' point
  change s.Sent _ t (framesSent ([] ++ events)) at hsent
  rwa [List.nil_append, framesSent_eq_nil hevents] at hsent

/-- WAIT_PUBLISH_CONTENT_HEADER takes a Close for the content header. -/
theorem close_swallowed (hc : s.conns t = some c) (hm : c.machine = waitPublishContentHeader)
    (hsocket : c.socket.Delivers (closeFrame channel arguments ++ rest))
    (hroom : (encodeMethod closeMethod arguments).length + 3 ≤ maxLine) (grain : Grain) :
    ∃ s₁ c₁, Broker.step grain s (.run t) = .ok s₁ ∧ s.Sent s₁ t [] ∧ s₁.conns t = some c₁ ∧
      c₁.machine = waitPublishContent ∧ c₁.socket.Delivers rest := by
  have hmax : maxLine < 2 ^ 32 := by decide
  obtain ⟨hheader, hpayload⟩ := readMessageHeader_frame (w := s.world c) hsocket (by omega)
  have hrequest := requested_ofNat
    (show (encodeMethod closeMethod arguments).length ≤ maxLine by omega)
  obtain ⟨header, w', hread, hrest⟩ := readContentHeader_complete hpayload
    (by rw [hrequest]; omega) (by rw [hrequest, List.length_append, List.length_cons]; omega)
  rw [hrequest, List.drop_length_add_append] at hrest
  have haction : actions waitPublishContentHeader (s.world c) = .ok (waitPublishContent, w') := by
    change actionWaitPublishContentHeader (s.world c) = _
    rw [actionWaitPublishContentHeader, bind_of_ok hheader]
    simp only
    rw [bind_of_ok hread]
    rfl
  have hsent := sent_nil (t := t) haction rfl .testRound
  have hstep := step_run_of_machine hc hm (by decide) (by decide) haction grain
  exact ⟨_, _, hstep, hsent, commit_conns_self _ _ _ _ _, rfl, hrest⟩

/-- WAIT_CONSUME_ACK fails on a Close. -/
theorem close_rejected (hok : s.Ok) (hc : s.conns t = some c) (hm : c.machine = waitConsumeAck)
    (hsocket : c.socket.Delivers (closeFrame channel arguments ++ rest))
    (hroom : (encodeMethod closeMethod arguments).length + 3 ≤ maxLine) (grain : Grain) :
    ∃ s₁ c₁, Broker.step grain s (.run t) = .ok s₁ ∧ s.Sent s₁ t [] ∧ s₁.conns t = some c₁ ∧
      c₁.machine = fail := by
  have hlabels : caseLabels waitConsumeAck ≠ [] := nofun
  obtain ⟨w', haction⟩ := actions_dispatch (w := s.world c) hlabels hsocket hroom
    fun _ v hself hstore => hok.unsubscribe hc (by rw [hm]; rfl) hself hstore
  have hfail : namedState waitConsumeAck closeMethod = fail := by decide
  rw [hfail] at haction
  have hsent := sent_nil (t := t) haction rfl .testRound
  have hstep := step_run_of_machine hc hm (by decide) (by decide) haction grain
  exact ⟨_, _, hstep, hsent, commit_conns_self _ _ _ _ _, rfl⟩

/-- A connection whose second step sends nothing has not answered. -/
theorem not_closesGracefully (hstep : Broker.step grain s (.run t) = .ok s₁)
    (hnext : ∀ s₂, Broker.step grain s₁ (.run t) = .ok s₂ → s₁.Sent s₂ t []) :
    ¬ s.ClosesGracefully grain t rest := by
  intro h
  obtain ⟨s', hstep', -, -, hanswer⟩ := h
  obtain rfl := Except.ok.inj (hstep.symm.trans hstep')
  obtain ⟨s₂, c₂, hstep₂, hsent, -⟩ := hanswer s₁ .refl
  cases hsent.unique (hnext s₂ hstep₂)

/-- A connection in a state that reads frames sends nothing in its next step. -/
theorem sent_nil_of_step (hc : s.conns t = some c) (hm : c.machine = waitPublishContent)
    (hstep : Broker.step grain s (.run t) = .ok s') : s.Sent s' t [] := by
  cases step_cases hstep with
  | handler hd haction _ hs' =>
    obtain rfl := Option.some.inj (hc.symm.trans hd)
    rw [hs']
    exact sent_nil haction (by rw [hm]; rfl) _
  | dequeue hd hwait _ _ _ _ =>
    obtain rfl := Option.some.inj (hc.symm.trans hd)
    rw [hm] at hwait
    cases hwait

/-- A Close that is swallowed is not answered. -/
theorem not_closesGracefully_of_header (hc : s.conns t = some c)
    (hm : c.machine = waitPublishContentHeader)
    (hsocket : c.socket.Delivers (closeFrame channel arguments ++ rest))
    (hroom : (encodeMethod closeMethod arguments).length + 3 ≤ maxLine) :
    ¬ s.ClosesGracefully grain t rest := by
  obtain ⟨s₁, c₁, hstep, -, hc₁, hm₁, -⟩ := close_swallowed hc hm hsocket hroom grain
  exact not_closesGracefully hstep fun s₂ hstep₂ => sent_nil_of_step hc₁ hm₁ hstep₂

/-- A Close that is rejected is not answered. -/
theorem not_closesGracefully_of_ack (hok : s.Ok) (hc : s.conns t = some c)
    (hm : c.machine = waitConsumeAck)
    (hsocket : c.socket.Delivers (closeFrame channel arguments ++ rest))
    (hroom : (encodeMethod closeMethod arguments).length + 3 ≤ maxLine) :
    ¬ s.ClosesGracefully grain t rest := by
  obtain ⟨s₁, c₁, hstep, -, hc₁, hm₁⟩ := close_rejected hok hc hm hsocket hroom grain
  apply not_closesGracefully hstep
  intro s₂ hstep₂
  simp only [Broker.step, hc₁, hm₁, threadStep, stop_apply] at hstep₂
  cases hstep₂

/-- In every reachable state, a connection that finds a well-formed Connection.Close in a state
after Open-Ok closes gracefully exactly when the switch of its state has a case for it. In
WAIT_PUBLISH_CONTENT_HEADER the frame is swallowed, and in WAIT_CONSUME_ACK it ends the
connection in FAIL; neither sends an answer. -/
theorem closesGracefully_iff (h : Reaches (Broker.step grain) (fun _ _ => True) initial s)
    (hc : s.conns t = some c) (hm : c.machine.awaitsFrame = true)
    (htext : replyText.length ≤ 255)
    (hsocket : c.socket.Delivers
      (closeFrame channel (closeArguments replyCode replyText cause) ++ rest)) :
    (s.ClosesGracefully grain t rest ↔
      c.machine ≠ waitPublishContentHeader ∧ c.machine ≠ waitConsumeAck) ∧
    (c.machine = waitPublishContentHeader → ∃ s₁ c₁, Broker.step grain s (.run t) = .ok s₁ ∧
      s.Sent s₁ t [] ∧ s₁.conns t = some c₁ ∧ c₁.machine = waitPublishContent ∧
      c₁.socket.Delivers rest) ∧
    (c.machine = waitConsumeAck → ∃ s₁ c₁, Broker.step grain s (.run t) = .ok s₁ ∧
      s.Sent s₁ t [] ∧ s₁.conns t = some c₁ ∧ c₁.machine = fail) := by
  have hok := ok_of_reaches h
  have hroom := close_fits htext replyCode cause
  refine ⟨⟨fun hgraceful => ⟨fun hheader => ?_, fun hack => ?_⟩, fun hne => ?_⟩, fun hheader => ?_,
    fun hack => ?_⟩
  · exact not_closesGracefully_of_header hc hheader hsocket hroom hgraceful
  · exact not_closesGracefully_of_ack hok hc hack hsocket hroom hgraceful
  · apply closesGracefully_of_takesClose hok hc _ hsocket hroom
    cases hmachine : c.machine with
    | waitPublishContentHeader => exact absurd hmachine hne.1
    | waitConsumeAck => exact absurd hmachine hne.2
    | waitOpenChannel | waitFunctional | waitPublishContent => rfl
    | _ =>
      rw [hmachine] at hm
      cases hm
  · exact close_swallowed hc hheader hsocket hroom grain
  · exact close_rejected hok hc hack hsocket hroom grain

/-- A Close with code 200 and no text. -/
def plainClose : List UInt8 := closeFrame 0 (closeArguments 200 [] ⟨0, 0⟩)

/-- What is seen of the first connection after a run, as a reachable state. -/
theorem reaches_firstConn {labels : List Act} {bytes : List UInt8}
    (h : (exec (Broker.step grain) initial labels).toOption.map firstConn =
      some (some (m, Socket.chunk bytes))) :
    ∃ s c, Reaches (Broker.step grain) (fun _ _ => True) initial s ∧ s.conns 0 = some c ∧
      c.machine = m ∧ c.socket.Delivers bytes := by
  obtain ⟨s, hrun, hview⟩ := exec_observed h
  obtain ⟨c, hc, hm, hsocket⟩ := firstConn_eq_some hview
  refine ⟨s, c, reaches_of_exec hrun, hc, hm, ?_⟩
  rw [hsocket]
  exact Socket.chunk_delivers bytes

/-- A client that closes while nothing else goes on. -/
theorem closesGracefully_iff_functional :
    ∃ s c, Reaches (Broker.step .fine) (fun _ _ => True) initial s ∧ s.conns 0 = some c ∧
      c.machine = waitFunctional ∧ c.socket.Delivers (plainClose ++ []) ∧
      (s.ClosesGracefully .fine 0 [] ↔
        c.machine ≠ waitPublishContentHeader ∧ c.machine ≠ waitConsumeAck) := by
  have hobserved : (exec (Broker.step .fine) initial
      (session 0 (openingFrames ++ plainClose) 9)).toOption.map firstConn =
        some (some (waitFunctional, Socket.chunk (plainClose ++ []))) := by decide +kernel
  obtain ⟨s, c, hreaches, hc, hm, hsocket⟩ := reaches_firstConn hobserved
  have hall := closesGracefully_iff hreaches hc (by rw [hm]; rfl)
    (show ([] : List UInt8).length ≤ 255 by decide) hsocket
  exact ⟨s, c, hreaches, hc, hm, hsocket, hall.1⟩

/-- A client that closes instead of acknowledging its message, and one that closes instead of
sending the content of its message, get no answer. -/
theorem plainClose_unanswered :
    (∃ s c, Reaches (Broker.step .fine) (fun _ _ => True) initial s ∧ s.conns 0 = some c ∧
      c.machine = waitConsumeAck ∧ c.socket.Delivers (plainClose ++ []) ∧
      ¬ s.ClosesGracefully .fine 0 []) ∧
    ∃ s c, Reaches (Broker.step .fine) (fun _ _ => True) initial s ∧ s.conns 0 = some c ∧
      c.machine = waitPublishContentHeader ∧ c.socket.Delivers (plainClose ++ []) ∧
      ¬ s.ClosesGracefully .fine 0 [] := by
  have hack : (exec (Broker.step .fine) initial (session 0 (openingFrames ++
      declareFrame [113] ++ publishFrame [] [113] ++ headerFrame 1 ++ bodyFrame [33] ++
      reopenFrames ++ consumeFrame [113] ++ plainClose) 26)).toOption.map firstConn =
        some (some (waitConsumeAck, Socket.chunk (plainClose ++ []))) := by decide +kernel
  have hheader : (exec (Broker.step .fine) initial (session 0 (openingFrames ++
      declareFrame [113] ++ publishFrame [] [113] ++ plainClose) 13)).toOption.map firstConn =
        some (some (waitPublishContentHeader, Socket.chunk (plainClose ++ []))) := by
    decide +kernel
  have hroom := close_fits (show ([] : List UInt8).length ≤ 255 by decide) 200 ⟨0, 0⟩
  constructor
  · obtain ⟨s, c, hreaches, hc, hm, hsocket⟩ := reaches_firstConn hack
    exact ⟨s, c, hreaches, hc, hm, hsocket,
      not_closesGracefully_of_ack (ok_of_reaches hreaches) hc hm hsocket hroom⟩
  · obtain ⟨s, c, hreaches, hc, hm, hsocket⟩ := reaches_firstConn hheader
    exact ⟨s, c, hreaches, hc, hm, hsocket,
      not_closesGracefully_of_header hc hm hsocket hroom⟩

end Broker

end AmqpBroker
