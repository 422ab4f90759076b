import AmqpBroker.Verification.Handshake
import AmqpBroker.Verification.ScriptFrames

/-!
# What becomes of the frames of a session

A client that sends what it may is served frame by frame: what its frames ask for is done in
their order, each answer is sent once, and the connection does not fail before the last frame.
-/

namespace AmqpBroker

open Foundations Program MachineState

/-- From the one state to the other the session went on to a phase, with this left to read. -/
structure Proceeds (t : ℤ) (m m' : MachineState) (w w' : World) (phase : Phase) (rest : List UInt8)
    (requests : List SpecOp) (answers : List MethodHeader) : Prop where
  phase : m'.phase = some phase
  delivers : w'.socket.Delivers (m'.preamble ++ rest)
  settles : Settles t m m' w w' requests answers

variable {t : ℤ} {m m' label : MachineState} {w w' : World} {channel : UInt16}
  {method header : MethodHeader} {arguments rest : List UInt8} {frame : ClientFrame}
  {phase next : Phase}

/-! ## A frame -/

/-- A handler that waits for a frame has done everything before. -/
theorem owed_of_readsFrame (hm : readsFrame m = true) (t : ℤ) :
    m.owedRequests t = [] ∧ m.owedAnswers = [] := by
  cases m with
  | waitStartOk | waitTuneOk | waitOpenConnection | waitOpenChannel | waitFunctional
  | waitPublishContentHeader | waitPublishContent | waitConsumeAck => exact ⟨rfl, rfl⟩
  | _ => cases hm

/-- What a frame leads to, from the calls that its handler records. -/
theorem proceeds_of_trace {events : List Event} {requests : List SpecOp} {answers : List MethodHeader}
    (hm : readsFrame m = true) (hphase : m'.phase = some next) (hpreamble : m'.preamble = [])
    (hdelivers : w'.socket.Delivers rest) (htrace : w'.trace = w.trace ++ events)
    (hrequests : requestsOf t events ++ m'.owedRequests t = requests)
    (hanswers : answersOf events ++ m'.owedAnswers = answers) :
    Proceeds t m m' w w' next rest requests answers := by
  obtain ⟨howedRequests, howedAnswers⟩ := owed_of_readsFrame hm t
  refine ⟨hphase, ?_, events, htrace, ?_, ?_⟩
  · rwa [hpreamble]
  · rw [hrequests, howedRequests]
    rfl
  · rw [hanswers, howedAnswers]
    rfl

/-- A method that names no queue is served by going to the state of its case. -/
theorem proceeds_nameless (hm : readsFrame m = true) (hlabel : (method, label) ∈ caseLabels m)
    (hplain : label.nameless = true) (hphase : label.phase = some next)
    (hpreamble : label.preamble = [])
    (h : w.socket.Delivers
      (encodeFrame MsgFormat.method channel (encodeMethod method arguments) ++ rest))
    (hroom : (encodeMethod method arguments).length + 3 ≤ maxLine)
    (haction : actions m w = .ok (m', w')) :
    Proceeds t m m' w w' next rest (requestsOf t [.readMethod method] ++ label.owedRequests t)
      label.owedAnswers := by
  rw [actions_nameless hlabel hplain h hroom] at haction
  cases haction
  exact proceeds_of_trace hm hphase hpreamble (readFrame_frame h hroom).2
    (afterFrame_trace w channel method arguments) rfl rfl

/-- A frame that the client may send is taken, and what it asks for is done or owed. -/
theorem frame_proceeds (hm : readsFrame m = true) (hphase : m.phase = some phase)
    (hfollow : phase.follow frame = some next) (hfits : frame.Fits)
    (h : w.socket.Delivers (frame.encode channel ++ rest))
    (haction : actions m w = .ok (m', w')) :
    Proceeds t m m' w w' next rest (frame.requests t) frame.answers := by
  have hroom := hfits.room
  cases m with
  | waitStartOk =>
    cases hphase
    cases frame with
    | startOk arguments =>
      cases hfollow
      exact proceeds_nameless hm (.head _) rfl rfl rfl h hroom haction
    | _ => cases hfollow
  | waitTuneOk =>
    cases hphase
    cases frame with
    | tuneOk arguments =>
      cases hfollow
      exact proceeds_nameless hm (.head _) rfl rfl rfl h hroom haction
    | _ => cases hfollow
  | waitOpenConnection =>
    cases hphase
    cases frame with
    | openConnection arguments =>
      cases hfollow
      exact proceeds_nameless hm (.head _) rfl rfl rfl h hroom haction
    | _ => cases hfollow
  | waitOpenChannel =>
    cases hphase
    cases frame with
    | openChannel arguments =>
      cases hfollow
      exact proceeds_nameless hm (.head _) rfl rfl rfl h hroom haction
    | closeConnection arguments =>
      cases hfollow
      exact proceeds_nameless hm (.tail _ (.head _)) rfl rfl rfl h hroom haction
    | _ => cases hfollow
  | waitFunctional =>
    cases hphase
    cases frame with
    | declare ticket name after =>
      cases hfollow
      obtain ⟨rfl, hrest, q, htrace⟩ :=
        actionWaitFunctional_declare h hroom (hfits.strings name (.head _)) haction
      exact proceeds_of_trace hm rfl rfl hrest htrace rfl rfl
    | publish ticket exchange key after =>
      cases hfollow
      have hexchange := hfits.strings exchange (.head _)
      have hkey := hfits.strings key (.tail _ (.head _))
      obtain ⟨rfl, hrest, q, htrace⟩ := actions_publish (.inl rfl) h hroom hexchange hkey haction
      exact proceeds_of_trace hm rfl rfl hrest htrace rfl rfl
    | consume ticket name after =>
      cases hfollow
      obtain ⟨rfl, hrest, q, htrace⟩ :=
        actionWaitFunctional_consume h hroom (hfits.strings name (.head _)) haction
      exact proceeds_of_trace hm rfl rfl hrest htrace rfl rfl
    | closeChannel arguments =>
      cases hfollow
      exact proceeds_nameless hm (.head _) rfl rfl rfl h hroom haction
    | closeConnection arguments =>
      cases hfollow
      exact proceeds_nameless hm (.tail _ (.head _)) rfl rfl rfl h hroom haction
    | _ => cases hfollow
  | waitPublishContentHeader =>
    cases hphase
    cases frame with
    | contentHeader payload =>
      cases hfollow
      have hroom' : payload.length + 3 ≤ maxLine := hroom
      obtain ⟨v, hreturns, hrest, htrace⟩ := actionWaitPublishContentHeader_frame h (by omega)
      cases hreturns.symm.trans haction
      exact proceeds_of_trace hm rfl rfl hrest (htrace.trans (List.append_nil _).symm) rfl rfl
    | _ => cases hfollow
  | waitPublishContent =>
    cases hphase
    cases frame with
    | body payload =>
      cases hfollow
      have hroom' : payload.length + 3 ≤ maxLine := hroom
      obtain ⟨rfl, hrest, q, node, htrace⟩ := actionWaitPublishContent_frame h (by omega) haction
      exact proceeds_of_trace hm rfl rfl hrest htrace rfl rfl
    | publish ticket exchange key after =>
      cases hfollow
      have hexchange := hfits.strings exchange (.head _)
      have hkey := hfits.strings key (.tail _ (.head _))
      obtain ⟨rfl, hrest, q, htrace⟩ := actions_publish (.inr rfl) h hroom hexchange hkey haction
      exact proceeds_of_trace hm rfl rfl hrest htrace rfl rfl
    | closeChannel arguments =>
      cases hfollow
      exact proceeds_nameless hm (.head _) rfl rfl rfl h hroom haction
    | closeConnection arguments =>
      cases hfollow
      exact proceeds_nameless hm (.tail _ (.tail _ (.head _))) rfl rfl rfl h hroom haction
    | _ => cases hfollow
  | waitConsumeAck =>
    cases hphase
    cases frame with
    | ack arguments =>
      cases hfollow
      exact proceeds_nameless hm (.head _) rfl rfl rfl h hroom haction
    | _ => cases hfollow
  | _ => cases hm

/-! ## Between the frames -/

/-- Only the protocol header comes before a frame. -/
theorem preamble_eq_nil (hm : m ≠ wait) : m.preamble = [] := by
  cases m with
  | wait => exact absurd rfl hm
  | _ => rfl

/-- The protocol header is taken as it is. -/
theorem header_returns (h : w.socket.Delivers (defaultAmqpHeader ++ rest)) :
    actions wait w = .ok (headerReceived, w.receive defaultAmqpHeader) ∧
      (w.receive defaultAmqpHeader).socket.Delivers rest := by
  have height : 8 ≤ (defaultAmqpHeader ++ rest).length := by
    rw [List.length_append]
    exact Nat.le_add_right _ _
  have hread := readUntil_complete h height (by decide)
  have htake : (defaultAmqpHeader ++ rest).take 8 = defaultAmqpHeader := List.take_left' rfl
  have hdelivers := receive_delivers h height
  rw [htake] at hread hdelivers
  have hheader : readProtocolHeader w = .ok (true, w.receive defaultAmqpHeader) := by
    rw [readProtocolHeader, bind_of_ok hread]
    change Except.ok (decide ((w.cs.recvline.write 0 defaultAmqpHeader).slice 0 8 =
      defaultAmqpHeader), _) = _
    rw [Buffer.slice_write_zero _ _ _ (by decide), List.take_of_length_le (by decide)]
    simp
  refine ⟨?_, hdelivers⟩
  change actionWait w = _
  rw [actionWait, bind_of_ok hheader]
  rfl

/-- The protocol header is the beginning of every session. -/
theorem header_proceeds (h : w.socket.Delivers (defaultAmqpHeader ++ rest))
    (haction : actions wait w = .ok (m', w')) :
    Proceeds t wait m' w w' .startOk rest [] [] := by
  obtain ⟨hreturns, hdelivers⟩ := header_returns h
  rw [hreturns] at haction
  cases haction
  exact ⟨rfl, hdelivers, [], (List.append_nil _).symm, rfl, rfl⟩

/-- The handlers that send one method and nothing else. -/
theorem proceeds_of_sends (hphase : m'.phase = some phase) (hpreamble : m'.preamble = [])
    (h : w.socket.Delivers rest)
    (hsends : Sends [encodeFrame MsgFormat.method channel (encodeMethod header arguments)] w w')
    (hheader : header ≠ deliverMethod)
    (hrequests : m'.owedRequests t = m.owedRequests t)
    (hanswers : header :: m'.owedAnswers = m.owedAnswers) :
    Proceeds t m m' w w' phase rest [] [] := by
  refine ⟨hphase, ?_, _, hsends.trace, ?_, ?_⟩
  · rw [hpreamble, hsends.socket]
    exact h
  · rw [requestsOf_write, hrequests]
    exact (List.append_nil _).symm
  · rw [List.map_singleton, answersOf_method hheader, List.append_nil]
    exact hanswers

/-- A message that was dequeued goes out without being an answer. -/
theorem answersOf_deliveryFrames (body : List UInt8) :
    answersOf ((deliveryFrames body).map Event.write) = [] := by
  rw [answersOf, methodsSent, framesSent_map_write, deliveryFrames, List.filterMap_cons,
    methodOf_encodeFrame, List.filterMap_cons, methodOf_encodeFrame_of_ne (by decide),
    List.filterMap_cons, methodOf_encodeFrame_of_ne (by decide)]
  rfl

/-- A handler that waits for nothing leaves the stream alone and does what is owed. -/
theorem owed_proceeds (hreads : readsFrame m = false) (hwait : m ≠ wait)
    (hdequeue : m ≠ waitValueDequeue) (hrunning : m ≠ finished ∧ m ≠ fail)
    (hphase : m.phase = some phase) (h : w.socket.Delivers rest)
    (haction : actions m w = .ok (m', w')) :
    Proceeds t m m' w w' phase rest [] [] := by
  cases m with
  | headerReceived =>
    obtain ⟨rfl, hsends⟩ := answer_eq_ok haction
    exact proceeds_of_sends hphase rfl h hsends (by decide) rfl rfl
  | startOkReceived =>
    obtain ⟨rfl, hsends⟩ := answer_eq_ok haction
    exact proceeds_of_sends hphase rfl h hsends (by decide) rfl rfl
  | openConnectionReceived =>
    obtain ⟨rfl, hsends⟩ := answer_eq_ok haction
    exact proceeds_of_sends hphase rfl h hsends (by decide) rfl rfl
  | closeConnectionReceived =>
    obtain ⟨rfl, hsends⟩ := answer_eq_ok haction
    exact proceeds_of_sends hphase rfl h hsends (by decide) rfl rfl
  | openChannelReceived =>
    obtain ⟨rfl, hsends⟩ := answer_eq_ok haction
    exact proceeds_of_sends hphase rfl h hsends (by decide) rfl rfl
  | closeChannelReceived =>
    obtain ⟨rfl, hsends⟩ := answer_eq_ok haction
    exact proceeds_of_sends hphase rfl h hsends (by decide) rfl rfl
  | queueDeclareReceived =>
    obtain ⟨arguments, hsends⟩ := actionQueueDeclareReceived_sends haction
    obtain ⟨hm', -⟩ := actionQueueDeclareReceived_result haction
    subst hm'
    exact proceeds_of_sends hphase rfl h hsends (by decide) rfl rfl
  | basicPublishReceived =>
    cases haction
    exact ⟨hphase, h, [], (List.append_nil _).symm, rfl, rfl⟩
  | basicConsumeReceived =>
    obtain ⟨rfl, htrace, hsocket⟩ := actionBasicConsumeReceived_sends haction
    refine ⟨hphase, ?_, _, htrace, rfl, ?_⟩
    · rw [hsocket]
      exact h
    · rw [List.append_nil]
      exact (List.append_nil _).trans (answersOf_method (by decide) 1 _)
  | valueDequeueReceived =>
    obtain ⟨body, -, rfl, hsends⟩ := actionValueDequeueReceived_sends haction
    refine ⟨hphase, ?_, _, hsends.trace, ?_, ?_⟩
    · rw [hsends.socket]
      exact h
    · rw [requestsOf_write]
      rfl
    · rw [answersOf_deliveryFrames]
      rfl
  | wait => exact absurd rfl hwait
  | waitValueDequeue => exact absurd rfl hdequeue
  | finished => exact absurd rfl hrunning.1
  | fail => exact absurd rfl hrunning.2
  | _ => cases hreads

/-- A step inside `q_dequeue_rr` is between two frames. -/
theorem dequeue_proceeds {grain : Grain} {p : ℕ} {queue : Queue} {point point' : DequeuePoint}
    (heffect : DequeueEffect grain p queue w w' point m' point') (h : w.socket.Delivers rest) :
    Proceeds t waitValueDequeue m' w w' .consuming rest [] [] := by
  obtain ⟨hsocket, hcases⟩ := Thread.dequeueEffect_calls heffect
  rw [← hsocket] at h
  rcases hcases with ⟨-, rfl, -, taken, htrace⟩ | ⟨-, rfl, htrace⟩ | ⟨-, -, rfl, -, htrace⟩
  · cases taken with
    | none => exact ⟨rfl, h, _, htrace, rfl, rfl⟩
    | some item => exact ⟨rfl, h, _, htrace, rfl, rfl⟩
  · exact ⟨rfl, h, [], htrace.trans (List.append_nil _).symm, rfl, rfl⟩
  · exact ⟨rfl, h, [], htrace.trans (List.append_nil _).symm, rfl, rfl⟩

/-! ## A whole session -/

/-- What the frames of a script ask for. -/
def scriptRequests (t : ℤ) (script : List (UInt16 × ClientFrame)) : List SpecOp :=
  script.flatMap fun entry => entry.2.requests t

/-- The answers to the frames of a script. -/
def scriptAnswers (script : List (UInt16 × ClientFrame)) : List MethodHeader :=
  script.flatMap fun entry => entry.2.answers

/-- Where a session goes on: the frames from here on may come, and they are what is left. -/
def GoesOn (m : MachineState) (socket : Socket) (todo : List (UInt16 × ClientFrame)) : Prop :=
  ∃ phase, m.phase = some phase ∧ phase.Allows (todo.map Prod.snd) ∧
    socket.Delivers (m.preamble ++ encodeScript todo)

/-- A session goes on after each step of a handler, unless it failed at the end of its
script. -/
theorem goesOn_of_action {todo : List (UInt16 × ClientFrame)} (hdequeue : m ≠ waitValueDequeue)
    (hrunning : m ≠ finished ∧ m ≠ fail) (hfits : ∀ entry ∈ todo, entry.2.Fits)
    (h : GoesOn m w.socket todo) (haction : actions m w = .ok (m', w')) :
    ∃ taken left, todo = taken ++ left ∧
      Settles t m m' w w' (scriptRequests t taken) (scriptAnswers taken) ∧
      ((m' = fail ∧ left = []) ∨ GoesOn m' w'.socket left) := by
  obtain ⟨phase, hphase, hallows, hdelivers⟩ := h
  by_cases hreads : readsFrame m = true
  · have hwait : m ≠ wait := by
      rintro rfl
      cases hreads
    rw [preamble_eq_nil hwait, List.nil_append] at hdelivers
    cases todo with
    | nil =>
      obtain ⟨rfl, hsettles⟩ := actions_ended (t := t) hreads hdelivers haction
      exact ⟨[], [], rfl, hsettles, .inl ⟨rfl, rfl⟩⟩
    | cons entry todo =>
      obtain ⟨next, hfollow, hallows'⟩ := hallows
      have hproceeds := frame_proceeds (t := t) hreads hphase hfollow
        (hfits entry List.mem_cons_self) hdelivers haction
      refine ⟨[entry], todo, rfl, ?_, .inr ⟨next, hproceeds.phase, hallows', hproceeds.delivers⟩⟩
      rw [scriptRequests, scriptAnswers, List.flatMap_singleton, List.flatMap_singleton]
      exact hproceeds.settles
  · refine ⟨[], todo, rfl, ?_⟩
    by_cases hwait : m = wait
    · subst hwait
      cases hphase
      have hproceeds := header_proceeds (t := t) hdelivers haction
      exact ⟨hproceeds.settles, .inr ⟨_, hproceeds.phase, hallows, hproceeds.delivers⟩⟩
    · rw [preamble_eq_nil hwait, List.nil_append] at hdelivers
      have hproceeds := owed_proceeds (t := t) (Bool.eq_false_iff.mpr hreads) hwait hdequeue hrunning
        hphase hdelivers haction
      exact ⟨hproceeds.settles, .inr ⟨_, hproceeds.phase, hallows, hproceeds.delivers⟩⟩

namespace Thread

variable {grain : Grain} {th th' : Thread} {found : Store}
  {script done todo : List (UInt16 × ClientFrame)}

/-- The session of a thread whose client sends a script: what has become of the frames that
were taken, and what is left of it. -/
structure InSession (t : ℤ) (script done todo : List (UInt16 × ClientFrame)) (th : Thread) :
    Prop where
  split : script = done ++ todo
  requests : requestsOf t th.trace ++ th.conn.machine.owedRequests t = scriptRequests t done
  answers : answersOf th.trace ++ th.conn.machine.owedAnswers = startMethod :: scriptAnswers done
  left : (th.conn.machine = fail ∧ todo = []) ∨ GoesOn th.conn.machine th.conn.socket todo

/-- The calls of a step go on with the requests and the answers. -/
theorem InSession.settles {taken left : List (UInt16 × ClientFrame)}
    (h : InSession t script done (taken ++ left) th) {point' : DequeuePoint}
    (hsettles : Settles t th.conn.machine m' (th.world found) w' (scriptRequests t taken)
      (scriptAnswers taken))
    (hleft : (m' = fail ∧ left = []) ∨ GoesOn m' w'.socket left) :
    InSession t script (done ++ taken) left (th.after m' point' w') := by
  obtain ⟨events, htrace, hrequests, hanswers⟩ := hsettles
  rw [show (th.world found).trace = [] from rfl, List.nil_append] at htrace
  have hafter : (th.after m' point' w').trace = th.trace ++ events := congrArg (th.trace ++ ·) htrace
  refine ⟨h.split.trans (List.append_assoc _ _ _).symm, ?_, ?_, hleft⟩
  · rw [hafter, requestsOf_append, List.append_assoc]
    change _ ++ (requestsOf t events ++ m'.owedRequests t) = _
    rw [hrequests, ← List.append_assoc, h.requests, scriptRequests, scriptRequests, scriptRequests,
      List.flatMap_append]
  · rw [hafter, answersOf_append, List.append_assoc]
    change _ ++ (answersOf events ++ m'.owedAnswers) = _
    rw [hanswers, ← List.append_assoc, h.answers, scriptAnswers, scriptAnswers, scriptAnswers,
      List.flatMap_append]
    rfl

/-- A step carries the session on. -/
theorem InSession.step (hfits : ∀ entry ∈ script, entry.2.Fits)
    (h : InSession t script done todo th) (hstep : Thread.step grain th found = .ok th') :
    ∃ done' todo', InSession t script done' todo' th' := by
  cases step_cases hstep with
  | @handler m' w' hdequeue hrunning haction hth' =>
    subst hth'
    have hgoesOn : GoesOn th.conn.machine th.conn.socket todo :=
      h.left.resolve_left fun hfailed => hrunning.2 hfailed.1
    have hfitsTodo : ∀ entry ∈ todo, entry.2.Fits := by
      intro entry hentry
      apply hfits
      rw [h.split]
      exact List.mem_append_right _ hentry
    obtain ⟨taken, left, rfl, hsettles, hleft⟩ :=
      goesOn_of_action (t := t) hdequeue hrunning hfitsTodo hgoesOn haction
    exact ⟨done ++ taken, left, h.settles hsettles hleft⟩
  | @dequeue p queue m' point' w' hm heffect hth' =>
    subst hth'
    obtain ⟨phase, hphase, hallows, hdelivers⟩ := h.left.resolve_left fun hfailed =>
      MachineState.noConfusion (hm.symm.trans hfailed.1)
    rw [hm] at hphase hdelivers
    cases hphase
    have hrest : (th.world found).socket.Delivers (encodeScript todo) := hdelivers
    have hproceeds := dequeue_proceeds (t := t) heffect hrest
    rw [← hm] at hproceeds
    have hempty : InSession t script done ([] ++ todo) th := h
    exact ⟨done ++ [], todo,
      hempty.settles hproceeds.settles (.inr ⟨_, hproceeds.phase, hallows, hproceeds.delivers⟩)⟩

/-- Steps carry the session on. -/
theorem InSession.exec (hfits : ∀ entry ∈ script, entry.2.Fits)
    (h : InSession t script done todo th) (stores : List Store)
    (hrun : exec (Thread.step grain) th stores = .ok th') :
    ∃ done' todo', InSession t script done' todo' th' := by
  induction stores generalizing th done todo with
  | nil =>
    cases hrun
    exact ⟨done, todo, h⟩
  | cons found stores ih =>
    obtain ⟨middle, hstep, hrest⟩ := exec_cons_eq_ok.mp hrun
    obtain ⟨done', todo', hmiddle⟩ := h.step hfits hstep
    exact ih hmiddle hrest

/-- What is left of the script is still to be read. -/
theorem InSession.delivers (h : InSession t script done todo th) (hfail : th.conn.machine ≠ fail) :
    th.conn.socket.Delivers (th.conn.machine.preamble ++ encodeScript todo) := by
  obtain ⟨phase, -, -, hdelivers⟩ := h.left.resolve_left fun hfailed => hfail hfailed.1
  exact hdelivers

/-- A session ends behind the last frame of its script. -/
theorem InSession.todo_eq_nil (h : InSession t script done todo th)
    (hended : th.conn.machine = fail ∨ th.conn.machine = finished) : todo = [] := by
  rcases h.left with ⟨-, htodo⟩ | ⟨phase, hphase, hallows, -⟩
  · exact htodo
  · rcases hended with hm | hm
    · rw [hm] at hphase
      cases hphase
    · rw [hm] at hphase
      cases hphase
      -- nothing may follow Connection.Close
      cases todo with
      | nil => rfl
      | cons entry todo =>
        obtain ⟨next, hfollow, -⟩ := hallows
        cases hfollow

/-- A session that has ended owes nothing. -/
theorem InSession.ended (h : InSession t script done todo th)
    (hended : th.conn.machine = fail ∨ th.conn.machine = finished) :
    requestsOf t th.trace = scriptRequests t script ∧
      answersOf th.trace = startMethod :: scriptAnswers script := by
  obtain rfl := h.todo_eq_nil hended
  have hrequests := h.requests
  have hanswers := h.answers
  rw [h.split, List.append_nil]
  rcases hended with hm | hm
  · rw [hm] at hrequests hanswers
    exact ⟨(List.append_nil _).symm.trans hrequests, (List.append_nil _).symm.trans hanswers⟩
  · rw [hm] at hrequests hanswers
    exact ⟨(List.append_nil _).symm.trans hrequests, (List.append_nil _).symm.trans hanswers⟩

/-- Nothing of the script was taken yet. -/
theorem start_inSession (t : ℤ) (cs : ConnectionState) {socket : Socket} (store : Store)
    (horder : Phase.startOk.Allows (script.map Prod.snd))
    (hsocket : socket.Delivers (defaultAmqpHeader ++ encodeScript script)) :
    InSession t script [] script (start cs socket store) where
  split := rfl
  requests := rfl
  answers := rfl
  left := .inr ⟨.startOk, rfl, horder, hsocket⟩

/-- At every point of a run, whatever the others do to the memory: a client that sends what it
may has had its first frames taken, and the rest is still to be read. What those frames ask for
was done, in their order and nothing else, and they were answered in their order and nothing
else, up to what the handler that comes next still owes. The connection ends only behind the
last frame. -/
theorem script_served (grain : Grain) (t : ℤ) (cs : ConnectionState) (store : Store)
    {socket : Socket} (hlegal : Legal script)
    (hsocket : socket.Delivers (defaultAmqpHeader ++ encodeScript script)) {stores : List Store}
    (hrun : Foundations.exec (step grain) (start cs socket store) stores = .ok th) :
    ∃ done todo, script = done ++ todo ∧
      requestsOf t th.trace ++ th.conn.machine.owedRequests t = scriptRequests t done ∧
      answersOf th.trace ++ th.conn.machine.owedAnswers = startMethod :: scriptAnswers done ∧
      (th.conn.machine ≠ fail →
        th.conn.socket.Delivers (th.conn.machine.preamble ++ encodeScript todo)) ∧
      (th.conn.machine = fail ∨ th.conn.machine = finished → todo = []) := by
  obtain ⟨done, todo, h⟩ :=
    (start_inSession t cs store hlegal.order hsocket).exec hlegal.fits stores hrun
  exact ⟨done, todo, h.split, h.requests, h.answers, h.delivers, h.todo_eq_nil⟩

/-- A client that announces a message for a queue and closes instead of sending it. -/
def announcing : List (UInt16 × ClientFrame) :=
  [(0, .startOk []), (0, .tuneOk []), (0, .openConnection []), (1, .openChannel []),
    (1, .publish 0 [] [113] [0]), (1, .contentHeader []), (1, .closeChannel []),
    (0, .closeConnection [])]

/-- A script with a body that is announced and never sent. -/
theorem script_served_announcing :
    ∃ th, Foundations.exec (step .coarse) (start (.initial 0)
        (Socket.chunk (defaultAmqpHeader ++ encodeScript announcing)) initQueuePool)
        (List.replicate 16 initQueuePool) = .ok th ∧
      th.conn.machine = finished ∧ requestsOf 0 th.trace = [.select 0 [113]] ∧
      ∃ done todo, announcing = done ++ todo ∧
        requestsOf 0 th.trace ++ th.conn.machine.owedRequests 0 = scriptRequests 0 done ∧
        answersOf th.trace ++ th.conn.machine.owedAnswers = startMethod :: scriptAnswers done ∧
        (th.conn.machine ≠ fail →
          th.conn.socket.Delivers (th.conn.machine.preamble ++ encodeScript todo)) ∧
        (th.conn.machine = fail ∨ th.conn.machine = finished → todo = []) := by
  have hrun : (Foundations.exec (step .coarse) (start (.initial 0)
      (Socket.chunk (defaultAmqpHeader ++ encodeScript announcing)) initQueuePool)
      (List.replicate 16 initQueuePool)).toOption.map
        (fun th => (th.conn.machine, requestsOf 0 th.trace)) =
          some (finished, [.select 0 [113]]) := by decide +kernel
  obtain ⟨th, hth, hseen⟩ := exec_observed hrun
  obtain ⟨hm, hrequests⟩ := Prod.mk.inj hseen
  exact ⟨th, hth, hm, hrequests, script_served .coarse 0 (.initial 0) initQueuePool (by decide)
    (Socket.chunk_delivers _) hth⟩

end Thread

end AmqpBroker
