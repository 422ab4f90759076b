import AmqpBroker.Verification.DeclareOk
import AmqpBroker.Verification.LegalClients
import AmqpBroker.Verification.LoopEnds

/-!
# Clients that send what they may are heard

A thread whose client keeps to the protocol never gets stuck outside the consume loop: the handler
of every state returns, or else it is about to use a queue that was not there when it was named.
-/

namespace AmqpBroker

open Foundations Program MachineState

variable {grain : Grain} {client : Socket → List (UInt16 × ClientFrame)} {acts : List Act}
  {s : Broker} {t : ℤ} {c : Conn} {m : MachineState} {w : World} {reason : Abort}
  {frame : ClientFrame} {phase next : Phase} {channel : UInt16} {payload rest : List UInt8}

/-! ## Handlers that wait for a frame -/

/-- A METHOD frame of a client, with the method that it carries. -/
theorem exists_method (htype : frame.msgType = MsgFormat.method) :
    ∃ method arguments, frame.payload = encodeMethod method arguments := by
  cases frame with
  | contentHeader | body => cases htype
  | _ => exact ⟨_, _, rfl⟩

/-- The other frames come only where the broker waits for them. -/
theorem follow_content (hm : readsFrame m = true) (hphase : m.phase = some phase)
    (hfollow : phase.follow frame = some next) :
    (frame.msgType = MsgFormat.method ∧ caseLabels m ≠ []) ∨
      (∃ payload, m = waitPublishContentHeader ∧ frame = .contentHeader payload) ∨
      ∃ payload, m = waitPublishContent ∧ frame = .body payload := by
  cases m with
  | waitPublishContentHeader =>
    cases hphase
    cases frame with
    | contentHeader payload => exact .inr (.inl ⟨payload, rfl, rfl⟩)
    | _ => cases hfollow
  | waitPublishContent =>
    cases hphase
    cases frame with
    | body payload => exact .inr (.inr ⟨payload, rfl, rfl⟩)
    | contentHeader => cases hfollow
    | _ => exact .inl ⟨rfl, by decide⟩
  | waitStartOk | waitTuneOk | waitOpenConnection | waitOpenChannel | waitFunctional
  | waitConsumeAck =>
    cases hphase
    cases frame with
    | contentHeader | body => cases hfollow
    | _ => exact .inl ⟨rfl, by decide⟩
  | _ => cases hm

/-- A BODY frame is stored inside the buffers. -/
theorem bodyFrame_inRange
    (h : w.socket.Delivers (encodeFrame MsgFormat.body channel payload ++ rest))
    (hroom : payload.length < maxLine) (hstop : actions waitPublishContent w = .error reason) :
    ¬ OutOfRange reason := by
  have hmax : maxLine < 2 ^ 32 := by decide
  obtain ⟨hheader, hrest⟩ := readMessageHeader_frame h (by omega)
  have hlength : (UInt32.ofNat payload.length).toNat = payload.length :=
    toNat_ofNat_length (by omega)
  obtain ⟨hread, -⟩ := readBody_supplied hrest (UInt32.ofNat payload.length)
  obtain ⟨v, body, hbody, hstring⟩ := hread (by omega)
  change actionWaitPublishContent w = _ at hstop
  rw [actionWaitPublishContent, bind_of_ok hheader] at hstop
  simp only [if_neg (show MsgFormat.body ≠ MsgFormat.method by decide), if_true] at hstop
  rw [bind_of_ok hbody] at hstop
  rcases bind_eq_error.mp hstop with henqueue | ⟨_, _, _, hpure⟩
  · exact enqueueBody_inRange hstring henqueue
  · cases hpure

/-- A frame that the client may send is taken inside the buffers. -/
theorem frame_inRange (hm : readsFrame m = true) (hphase : m.phase = some phase)
    (hfollow : phase.follow frame = some next) (hfits : frame.Fits)
    (h : w.socket.Delivers (frame.encode channel ++ rest))
    (hready : m = waitConsumeAck → ∀ v, SameSelf w v → v.store = w.store →
      ∃ v', unsubscribe v = .ok ((), v'))
    (hstop : actions m w = .error reason) : ¬ OutOfRange reason := by
  have hroom := hfits.room
  rw [ClientFrame.encode] at h
  obtain ⟨htype, hlabels⟩ | ⟨payload, rfl, rfl⟩ | ⟨payload, rfl, rfl⟩ :=
    follow_content hm hphase hfollow
  · obtain ⟨method, arguments, hpayload⟩ := exists_method htype
    rw [htype, hpayload] at h
    rw [hpayload] at hroom
    obtain ⟨w', hreturns⟩ := actions_dispatch hlabels h hroom hready
    cases hreturns.symm.trans hstop
  · have hpayload : payload.length + 3 ≤ maxLine := hroom
    obtain ⟨v, hreturns, -⟩ := actionWaitPublishContentHeader_frame h (by omega)
    cases hreturns.symm.trans hstop
  · have hpayload : payload.length + 3 ≤ maxLine := hroom
    exact bodyFrame_inRange h (by omega) hstop

/-- At the end of the stream every handler that waits for a frame returns. -/
theorem ended_returns (hm : readsFrame m = true) (h : w.socket.Delivers [])
    (hready : m = waitConsumeAck → ∀ v, SameSelf w v → v.store = w.store →
      ∃ v', unsubscribe v = .ok ((), v')) : ∃ result, actions m w = .ok result := by
  have hheader := readMessageHeader_short h (show ([] : List UInt8).length < 7 by decide)
  have hframe : ∃ v, readFrame w = .ok (none, v) := by
    rw [readFrame, bind_of_ok hheader]
    exact ⟨_, rfl⟩
  obtain ⟨v, hframe⟩ := hframe
  cases m with
  | waitStartOk =>
    change ∃ result, actionWaitStartOk w = .ok result
    rw [actionWaitStartOk, bind_of_ok hheader]
    exact ⟨_, rfl⟩
  | waitTuneOk | waitOpenConnection =>
    change ∃ result, awaitMethod _ _ _ w = .ok result
    rw [awaitMethod, bind_of_ok hframe]
    exact ⟨_, rfl⟩
  | waitOpenChannel =>
    change ∃ result, actionWaitOpenChannel w = .ok result
    rw [actionWaitOpenChannel, bind_of_ok hframe]
    exact ⟨_, rfl⟩
  | waitFunctional =>
    change ∃ result, actionWaitFunctional w = .ok result
    rw [actionWaitFunctional, bind_of_ok hframe]
    exact ⟨_, rfl⟩
  | waitPublishContentHeader =>
    change ∃ result, actionWaitPublishContentHeader w = .ok result
    rw [actionWaitPublishContentHeader, bind_of_ok hheader]
    exact ⟨_, rfl⟩
  | waitPublishContent =>
    change ∃ result, actionWaitPublishContent w = .ok result
    rw [actionWaitPublishContent, bind_of_ok hheader]
    exact ⟨_, rfl⟩
  | waitConsumeAck =>
    obtain ⟨v', hunsubscribe⟩ := hready rfl (w.receive []) ⟨rfl, rfl, rfl⟩ rfl
    change ∃ result, actionWaitConsumeAck w = .ok result
    rw [actionWaitConsumeAck, bind_of_ok hheader]
    simp only
    rw [bind_of_ok hunsubscribe]
    exact ⟨_, rfl⟩
  | _ => cases hm

/-! ## Handlers that wait for nothing -/

/-- Answers are shorter than the buffer. -/
theorem avoids_answer {header : MethodHeader} {arguments : List UInt8} {next : MachineState}
    (hroom : arguments.length + 11 < maxLine) :
    Avoids OutOfRange (do sendMethod header channel arguments; pure next : Action MachineState) := by
  apply Avoids.bind _ fun _ => Avoids.pure _
  intro w reason hstop
  have hfits : (unparseMessageHeader ⟨MsgFormat.method, channel,
      UInt32.ofNat (arguments.length + 4)⟩ ++ unparseMethodHeader header ++ arguments).length <
        maxLine := by
    simp [unparseMessageHeader, unparseMethodHeader]
    omega
  rcases sendFrame_eq_error hstop with ⟨hlong, -⟩ | ⟨result, -, hresult⟩
  · omega
  · exact WriteResult.not_of_stop (by simp [OutOfRange]) (by simp [OutOfRange]) hresult

/-- The answer to Queue.Declare names a queue, and names are short. -/
theorem queueDeclareReceived_inRange
    (hname : ∃ name, w.cs.currentQueueName.cstring maxQueueName 0 = some name)
    (hstop : actions queueDeclareReceived w = .error reason) : ¬ OutOfRange reason := by
  obtain ⟨name, hname⟩ := hname
  change actionQueueDeclareReceived w = _ at hstop
  rw [actionQueueDeclareReceived, field_bind_apply] at hstop
  rcases bind_eq_error.mp hstop with hsize | ⟨size, v, hsize, hstop⟩
  · exact avoids_onStore (Avoids.bind (avoids_derefQueue (fun _ => by simp [OutOfRange])
      (by simp [OutOfRange])) fun _ => Avoids.pure _) w reason hsize
  · have hlength := Buffer.cstring_length_lt _ _ _ _ hname
    have hmax : (300 : ℕ) < maxLine := by decide
    rw [(onStore_eq_ok hsize).2, field_bind_apply] at hstop
    simp only [hname, sendQueueDeclareOk_eq hlength] at hstop
    refine avoids_answer ?_ _ _ hstop
    rw [length_encodeDeclareOk]
    simp only [maxQueueName] at hlength
    omega

/-- `BASIC_CONSUME_OK_ARGS_SIZE`. -/
theorem length_basicConsumeOkArgs (past : PastConsumeOkArgs) :
    (basicConsumeOkArgs past).length = 13 := rfl

/-- A handler that waits for nothing stays inside the buffers, if it does not send what was
dequeued. -/
theorem owed_inRange (hreads : readsFrame m = false) (hwait : m ≠ wait)
    (hdequeue : m ≠ waitValueDequeue) (hsends : m ≠ valueDequeueReceived)
    (hname : m = queueDeclareReceived →
      ∃ name, w.cs.currentQueueName.cstring maxQueueName 0 = some name)
    (hstop : actions m w = .error reason) : ¬ OutOfRange reason := by
  cases m with
  | headerReceived | startOkReceived | openConnectionReceived | closeConnectionReceived
  | openChannelReceived | closeChannelReceived =>
    exact avoids_answer (by decide +kernel) w reason hstop
  | queueDeclareReceived => exact queueDeclareReceived_inRange (hname rfl) hstop
  | basicPublishReceived | finished | fail => cases hstop
  | basicConsumeReceived =>
    change actionBasicConsumeReceived w = _ at hstop
    rw [actionBasicConsumeReceived, field_bind_apply, field_bind_apply] at hstop
    refine Avoids.bind (avoids_onStore (avoids_onRing (fun _ => by simp [OutOfRange])
      (by simp [OutOfRange]) fun rr reason hring => ?_)) (fun _ => ?_) w reason hstop
    · rw [addSubscriber_eq_error (map_eq_error hring)]
      simp [OutOfRange]
    · exact Avoids.bind (avoids_record _) fun _ => Avoids.bind (avoids_field _) fun past =>
        avoids_answer (by rw [length_basicConsumeOkArgs]; decide)
  | wait => exact absurd rfl hwait
  | waitValueDequeue => exact absurd rfl hdequeue
  | valueDequeueReceived => exact absurd rfl hsends
  | _ => cases hreads

namespace Broker

/-- Only Queue.Declare leads to its answer. -/
theorem not_mem_quietNext (m : MachineState) : queueDeclareReceived ∉ quietNext m := by
  cases m <;> simp [quietNext]

/-- A connection that answers Queue.Declare has the name of the queue. -/
def NamesDeclared (s : Broker) : Prop :=
  ∀ t c, s.conns t = some c → c.machine = queueDeclareReceived →
    ∃ name, c.cs.currentQueueName.cstring maxQueueName 0 = some name

/-- A step that ends before QUEUE_DECLARE_RECEIVED with a name keeps the names. -/
theorem NamesDeclared.commit (h : s.NamesDeclared) {u : ℤ} {m : MachineState} {point : DequeuePoint}
    (hnew : m = queueDeclareReceived →
      ∃ name, w.cs.currentQueueName.cstring maxQueueName 0 = some name) :
    (s.commit u m point w).NamesDeclared := by
  intro t c hc hm
  by_cases hu : t = u
  · subst hu
    rw [commit_conns_self] at hc
    cases hc
    exact hnew hm
  · rw [commit_conns_of_ne _ hu] at hc
    exact h t c hc hm

/-- A connection that comes or goes keeps the names of the others. -/
theorem NamesDeclared.replace (h : s.NamesDeclared) {u : ℤ} {next : Option Conn}
    (hnew : ∀ c, next = some c → c.machine ≠ queueDeclareReceived) :
    NamesDeclared { s with conns := Function.update s.conns u next } := by
  intro t c hc hm
  obtain ⟨-, hnext⟩ | ⟨-, hold⟩ := replaced_cases hc
  · exact absurd hm (hnew c hnext)
  · exact h t c hold hm

/-- Every step keeps the names. -/
theorem NamesDeclared.step {act : Act} {s' : Broker} (h : s.NamesDeclared)
    (hstep : Broker.step grain s act = .ok s') : s'.NamesDeclared := by
  cases step_cases hstep with
  | accept _ _ _ hs' =>
    subst hs'
    refine h.replace fun c hc => ?_
    cases hc
    exact MachineState.noConfusion
  | handler _ _ heffect hs' =>
    subst hs'
    refine h.commit fun hm => ?_
    subst hm
    cases heffect with
    | quiet hedge _ => exact absurd hedge (not_mem_quietNext _)
    | declare _ hselects _ _ => exact ⟨_, hselects.named⟩
  | dequeue _ _ _ _ heffect hs' =>
    subst hs'
    refine h.commit fun hm => ?_
    obtain ⟨-, hcases⟩ := Thread.dequeueEffect_calls heffect
    rcases hcases with ⟨-, hm', -⟩ | ⟨-, hm', -⟩ | ⟨-, -, hm', -⟩ <;> cases hm'.symm.trans hm
  | close _ _ hs' =>
    subst hs'
    refine h.replace fun c hc => ?_
    cases hc
  | spurious _ hm' _ _ _ hs' =>
    subst hs'
    refine h.commit fun hm => ?_
    cases hm'.symm.trans hm

/-- In every state that is reached the declared name is a string. -/
theorem namesDeclared_of_reaches {guard : Broker → Act → Prop}
    (h : Reaches (Broker.step grain) guard initial s) : s.NamesDeclared := by
  refine h.invariant (fun t c hc => ?_) fun _ _ _ hnamed _ hstep => hnamed.step hstep
  cases hc

/-- A thread whose client sends what it may takes its next step wherever it is, unless it is
inside `q_dequeue_rr` or sends what it has dequeued: if its calls of `write` return, whatever
they say, the handler returns, or it uses a queue that was not there when the client named
it. -/
theorem legal_handlers_return {writes : List WriteResult}
    (hreturns : ∀ result ∈ writes, result.stop = none) (hlegal : LegalClients client acts)
    (hspurious : ∀ act ∈ acts, act.isSpurious = false)
    (hrun : exec (Broker.step grain) initial acts = .ok s) (hc : s.conns t = some c)
    (hconsumes : c.machine ≠ waitValueDequeue ∧ c.machine ≠ valueDequeueReceived)
    (hrunning : c.machine ≠ finished ∧ c.machine ≠ fail) :
    (∃ s', Broker.step grain s (.run t writes) = .ok s') ∨
      Broker.step grain s (.run t writes) = .error .nullQueue := by
  rw [step_run_returns hreturns]
  have hreach := reaches_of_exec_of_forall hrun hspurious
  have hok := ok_of_reaches hreach
  cases hresult : actions c.machine (s.world c) with
  | ok result =>
    left
    obtain ⟨m', w'⟩ := result
    exact ⟨_, step_run_of_ok hc hconsumes.1 hrunning hresult grain⟩
  | error reason =>
    right
    suffices hinside : ¬ OutOfRange reason by
      obtain rfl := (hok.handler_stops hc hconsumes.1 hresult).resolve_left hinside
      exact step_run_of_error hc hconsumes.1 hrunning hresult grain
    obtain ⟨earlier, socket, before, th, done, todo, haccepted, -, rfl, -, -, hsession⟩ :=
      (servesSlot_of_exec hlegal hspurious hrun t).occupied c hc
    obtain ⟨phase, hphase, hallows, hdelivers⟩ :=
      hsession.left.resolve_left fun hfailed => hrunning.2 hfailed.1
    by_cases hwait : th.conn.machine = wait
    · rw [hwait] at hresult hdelivers
      have hworld : (s.world th.conn).socket.Delivers (defaultAmqpHeader ++ encodeScript todo) :=
        hdelivers
      cases (header_returns hworld).1.symm.trans hresult
    · rw [preamble_eq_nil hwait, List.nil_append] at hdelivers
      by_cases hreads : readsFrame th.conn.machine = true
      · have hready : th.conn.machine = waitConsumeAck → ∀ v, SameSelf (s.world th.conn) v →
            v.store = (s.world th.conn).store → ∃ v', AmqpBroker.unsubscribe v = .ok ((), v') :=
          fun hm v hself hstore => hok.unsubscribe hc (by rw [hm]; rfl) hself hstore
        cases todo with
        | nil =>
          obtain ⟨result, hreturns⟩ := ended_returns hreads hdelivers hready
          cases hreturns.symm.trans hresult
        | cons entry todo =>
          obtain ⟨next, hfollow, -⟩ := hallows
          obtain ⟨past, hmem⟩ : ∃ past, .accept t socket past ∈ acts := mem_of_acceptedOn
            (haccepted ▸ List.mem_append_right _ (List.mem_singleton_self _))
          have hclient : FromClient client socket := hlegal t socket past hmem
          have hfits : entry.2.Fits := by
            apply hclient.legal.fits
            rw [hsession.split]
            exact List.mem_append_right _ List.mem_cons_self
          exact frame_inRange hreads hphase hfollow hfits hdelivers hready hresult
      · exact owed_inRange (Bool.eq_false_iff.mpr hreads) hwait hconsumes.1 hconsumes.2
          (namesDeclared_of_reaches hreach t _ hc) hresult

/-- The thread of a client that has sent its header answers with Connection.Start; it goes on
although the `write` of the answer fails. -/
theorem legal_handlers_return_failedWrite :
    ∃ s c, exec (Broker.step .fine) initial [.accept 0 ownSocket, .run 0] = .ok s ∧
      s.conns 0 = some c ∧ c.machine = headerReceived ∧
      ((∃ s', Broker.step .fine s (.run 0 [.returned (-1)]) = .ok s') ∨
        Broker.step .fine s (.run 0 [.returned (-1)]) = .error .nullQueue) := by
  have hobserved : (exec (Broker.step .fine) initial [.accept 0 ownSocket, .run 0]).toOption.map
      (fun s => (s.conns 0).map (·.machine)) = some (some headerReceived) := by decide +kernel
  obtain ⟨s, hrun, hview⟩ := exec_observed hobserved
  obtain ⟨c, hc, hm⟩ := Option.map_eq_some_iff.mp hview
  have hlegal : LegalClients (fun _ => ownConsumer) [.accept 0 ownSocket, .run 0] := by
    intro t socket past hmem
    simp only [List.mem_cons, Act.accept.injEq, reduceCtorEq, List.not_mem_nil, or_false] at hmem
    obtain ⟨-, rfl, -⟩ := hmem
    exact ⟨by decide, Socket.chunk_delivers _⟩
  have hquiet : ∀ act ∈ [Act.accept 0 ownSocket, .run 0], act.isSpurious = false := by
    simp [Act.isSpurious]
  exact ⟨s, c, hrun, hc, hm, legal_handlers_return (by simp [WriteResult.stop]) hlegal hquiet hrun hc
    (by rw [hm]; decide) (by rw [hm]; decide)⟩

end Broker

end AmqpBroker
