import AmqpBroker.Verification.Malformed
import AmqpBroker.Verification.Routing

/-!
# Streams that end inside a frame

A client that goes away inside a frame is compared with one that goes away just before it.
Both connections end in FAIL with the same queue pool, except in two cases: the bytes that
have arrived do not fit the buffers, or the frame is a BODY frame whose header has arrived,
since `read_body` does not say that the rest is missing.
-/

namespace AmqpBroker

open Foundations Program MachineState

variable {grain : Grain} {m : MachineState} {w v : World} {s s' s₁ : Broker} {t : ℤ} {c : Conn}
  {part header payload : List UInt8} {length : UInt32} {hd : MessageHeader}

/-- The same state when the client of the thread has gone away before its next byte. -/
def Broker.hangUp (s : Broker) (t : ℤ) : Broker :=
  { s with conns := Function.update s.conns t ((s.conns t).map fun c => { c with socket := [] }) }

/-- The thread takes steps of its own until it is in FAIL. -/
def EndsInFail (grain : Grain) (s : Broker) (t : ℤ) (s' : Broker) : Prop :=
  ∃ n c', exec (Broker.step grain) s (List.replicate n (.run t)) = .ok s' ∧
    s'.conns t = some c' ∧ c'.machine = fail

/-- The thread ends in FAIL with the queue pool that it leaves when its stream ends before the
frame it is about to read. -/
def CutChangesNothing (grain : Grain) (s : Broker) (t : ℤ) : Prop :=
  ∃ s' s₀', EndsInFail grain s t s' ∧ EndsInFail grain (s.hangUp t) t s₀' ∧
    SamePool s₀'.store s'.store

/-- These bytes are a part of a frame: some of it, and not all. -/
def InsideFrame (part : List UInt8) : Prop :=
  part ≠ [] ∧ (7 ≤ part.length → part.length - 7 ≤ (decodeHeader (part.take 7)).length.toNat)

/-- The reader of a state can tell that the payload is not complete. The method reader copies
three bytes more than it has read, so a payload without its end octet has to leave room. -/
def NoticesCut (reader : PayloadReader) (length arrived : ℕ) : Prop :=
  match reader with
  | .readMethod => arrived ≤ maxLine ∧ (arrived = length → length + 3 ≤ maxLine)
  | .readContentHeader => arrived ≤ maxLine
  | .readBody => False

/-- A part of a frame that a state refuses without touching the pool. -/
def NoticesPart (m : MachineState) (part : List UInt8) : Prop :=
  7 ≤ part.length → ∀ reader, payloadReader m (decodeHeader (part.take 7)).msgType = some reader →
    NoticesCut reader (decodeHeader (part.take 7)).length.toNat (part.length - 7)

/-- A method whose payload or end octet is missing is not read. -/
theorem readMethod_part (h : w.socket.Delivers payload) (hcut : payload.length ≤ length.toNat)
    (hnotices : NoticesCut .readMethod length.toNat payload.length) :
    ∃ w', readMethod (toInt length) w = .ok (none, w') := by
  have hle := le_requested length
  apply readMethod_cut h (hcut.trans hle) hnotices.1
  intro hall
  have hlength : payload.length = length.toNat := le_antisymm hcut (by omega)
  have hroom := hnotices.2 hlength
  omega

/-- A part of a method that the buffers cannot hold leaves them. -/
theorem readMethod_part_overrun (h : w.socket.Delivers payload)
    (hcut : payload.length ≤ length.toNat)
    (hover : ¬ NoticesCut .readMethod length.toNat payload.length) :
    readMethod (toInt length) w = .error .bufferRange := by
  have hle := le_requested length
  apply readMethod_overrun h
  by_cases hroom : payload.length ≤ maxLine
  · have hcopy : payload.length = length.toNat ∧ maxLine < length.toNat + 3 := by
      by_contra hfits
      refine hover ⟨hroom, fun hlength => ?_⟩
      by_contra hmore
      exact hfits ⟨hlength, by omega⟩
    have hrequested := @requested_of_le length (by omega)
    right
    omega
  · left
    exact lt_min (by omega) (by omega)

/-- A frame whose header is missing fails every handler that waits for one. -/
theorem actions_short (hm : readsFrame m = true) (h : w.socket.Delivers part)
    (hshort : part.length < 7)
    (hready : m = waitConsumeAck → ∀ v, SameSelf w v → v.store = w.store →
      ∃ v', unsubscribe v = .ok ((), v')) :
    ∃ w', actions m w = .ok (fail, w') := by
  have hheader := readMessageHeader_short h hshort
  have hsilent : Silent w (w.receive part) := keeps_readMessageHeader _ _ _ hheader
  have hframe : ∃ v, readFrame w = .ok (none, v) := by
    rw [readFrame, bind_of_ok hheader]
    exact ⟨_, rfl⟩
  obtain ⟨v, hframe⟩ := hframe
  cases m with
  | waitStartOk => exact ⟨_, bind_of_ok hheader _⟩
  | waitTuneOk => exact ⟨_, bind_of_ok hframe _⟩
  | waitOpenConnection => exact ⟨_, bind_of_ok hframe _⟩
  | waitOpenChannel => exact ⟨_, bind_of_ok hframe _⟩
  | waitFunctional => exact ⟨_, bind_of_ok hframe _⟩
  | waitPublishContentHeader => exact ⟨_, bind_of_ok hheader _⟩
  | waitPublishContent => exact ⟨_, bind_of_ok hheader _⟩
  | waitConsumeAck =>
    obtain ⟨_, hunsubscribe⟩ := hready rfl _ hsilent.sameSelf hsilent.store
    change ∃ w', actionWaitConsumeAck w = _
    rw [actionWaitConsumeAck, bind_of_ok hheader]
    simp only
    rw [bind_of_ok hunsubscribe]
    exact ⟨_, rfl⟩
  | _ => cases hm

/-- A part of a frame that goes to the reader of methods. -/
theorem actions_part_method (hm : readsFrame m = true)
    (hreader : payloadReader m hd.msgType = some .readMethod)
    (hheader : readMessageHeader w = .ok (some hd, v)) (hw : v.socket.Delivers payload)
    (hcut : payload.length ≤ hd.length.toNat)
    (hready : m = waitConsumeAck → ∀ v, SameSelf w v → v.store = w.store →
      ∃ v', unsubscribe v = .ok ((), v')) :
    (NoticesCut .readMethod hd.length.toNat payload.length → ∃ w', actions m w = .ok (fail, w')) ∧
      (¬ NoticesCut .readMethod hd.length.toNat payload.length →
        actions m w = .error .bufferRange) := by
  obtain ⟨hlabels, htype⟩ := reader_caseLabels hm hreader
  constructor
  · intro hnotices
    obtain ⟨v', hmethod⟩ := readMethod_part hw hcut hnotices
    apply actions_of_no_method hlabels hheader htype hmethod
    intro hack
    have hsilent : Silent w v := keeps_readMessageHeader _ _ _ hheader
    have houtcome : Silent v v' := readMethod_outcome hmethod
    have hafter := hsilent.trans houtcome
    exact hready hack v' hafter.sameSelf hafter.store
  · intro hover
    exact actions_of_method_error hlabels hheader htype (readMethod_part_overrun hw hcut hover)

/-- A part of a frame that goes to the reader of content headers: the handler goes on. -/
theorem actions_part_contentHeader (hheader : readMessageHeader w = .ok (some hd, v))
    (hw : v.socket.Delivers payload) (hcut : payload.length ≤ hd.length.toNat) :
    (payload.length ≤ maxLine → ∃ w', actions waitPublishContentHeader w =
      .ok (waitPublishContent, w') ∧ w'.socket.Delivers [] ∧ Silent w w') ∧
      (maxLine < payload.length →
        actions waitPublishContentHeader w = .error .bufferRange) := by
  have hle := le_requested hd.length
  constructor
  · intro hroom
    obtain ⟨header, v', hread, hend⟩ := readContentHeader_cut hw (hcut.trans hle) hroom
    have hsilent : Silent w v := keeps_readMessageHeader _ _ _ hheader
    have hsilent' : Silent v v' := keeps_readContentHeader _ _ _ _ hread
    refine ⟨v', ?_, hend, hsilent.trans hsilent'⟩
    change actionWaitPublishContentHeader w = _
    rw [actionWaitPublishContentHeader, bind_of_ok hheader]
    simp only
    rw [bind_of_ok hread]
    rfl
  · intro hover
    have hmin : maxLine < min (requested hd.length) payload.length := lt_min (by omega) hover
    have hstop := readContentHeader_overrun hw hmin
    change actionWaitPublishContentHeader w = _
    rw [actionWaitPublishContentHeader, bind_of_ok hheader]
    simp only
    rw [bind_of_error hstop]

/-- A body that is not complete uses up the stream. -/
theorem readBody_part (h : w.socket.Delivers payload) (hcut : payload.length ≤ length.toNat)
    (hrun : readBody (toInt length) w = .ok ((), v)) : v.socket.Delivers [] := by
  by_cases hroom : length.toNat + 1 ≤ maxLine
  · have hread := readBody_cut h hroom hcut
    rw [hrun] at hread
    cases hread
    have hend := receive_delivers h le_rfl
    rwa [List.take_length, List.drop_length] at hend
  · have hover : maxLine ≤ length.toNat := by omega
    obtain ⟨reason, hstop, -⟩ := readBody_overrun h hover
    rw [hstop] at hrun
    cases hrun

/-- A part of a BODY frame that does not stop the thread is enqueued. -/
theorem actions_part_body (hbody : hd.msgType = MsgFormat.body)
    (hheader : readMessageHeader w = .ok (some hd, v)) (hw : v.socket.Delivers payload)
    (hcut : payload.length ≤ hd.length.toNat) {w' : World} {m' : MachineState}
    (hrun : actions waitPublishContent w = .ok (m', w')) :
    m' = waitPublishContent ∧ w'.socket.Delivers [] ∧
      ∃ q body node, qEnqueue q body w.store = .ok (node, w'.store) := by
  have hmethod : ¬ hd.msgType = MsgFormat.method := by
    rw [hbody]
    decide
  change actionWaitPublishContent w = _ at hrun
  rw [actionWaitPublishContent, bind_of_ok hheader] at hrun
  simp only at hrun
  rw [if_neg hmethod, if_pos hbody] at hrun
  obtain ⟨_, v₁, hread, hrun⟩ := bind_eq_ok.mp hrun
  obtain ⟨_, v₂, henqueue, hpure⟩ := bind_eq_ok.mp hrun
  cases hpure
  obtain ⟨body, node, -, hstore, hw'⟩ := enqueueBody_eq_ok henqueue
  have hsilent : Silent w v := keeps_readMessageHeader _ _ _ hheader
  have hsilent' : Silent v v₁ := keeps_readBody _ _ _ _ hread
  rw [hsilent'.store, hsilent.store] at hstore
  refine ⟨rfl, ?_, _, body, node, hstore⟩
  have hend := readBody_part hw hcut hread
  rw [hw']
  exact hend

/-- A frame of another type fails. -/
theorem actions_part_other (hreader : payloadReader waitPublishContent hd.msgType = none)
    (hheader : readMessageHeader w = .ok (some hd, v)) :
    ∃ w', actions waitPublishContent w = .ok (fail, w') := by
  by_cases hmethod : hd.msgType = MsgFormat.method
  · rw [payloadReader, if_pos hmethod] at hreader
    cases hreader
  · by_cases hbody : hd.msgType = MsgFormat.body
    · rw [payloadReader, if_neg hmethod, if_pos hbody] at hreader
      cases hreader
    · change ∃ w', actionWaitPublishContent w = _
      rw [actionWaitPublishContent, bind_of_ok hheader]
      simp only
      rw [if_neg hmethod, if_neg hbody]
      exact ⟨_, rfl⟩

/-- A thread in FAIL has ended. -/
theorem endsInFail_here (hc : s.conns t = some c) (hfail : c.machine = fail) :
    EndsInFail grain s t s := ⟨0, c, rfl, hc, hfail⟩

/-- A step of the thread, and then its end. -/
theorem endsInFail_cons (hstep : Broker.step grain s (.run t) = .ok s₁)
    (h : EndsInFail grain s₁ t s') : EndsInFail grain s t s' := by
  obtain ⟨n, c', hrun, hc', hfail⟩ := h
  refine ⟨n + 1, c', ?_, hc', hfail⟩
  rw [List.replicate_succ, exec_cons _ _ _ hstep, hrun]

/-- A thread that is not in FAIL has to take a step. -/
theorem endsInFail_uncons (hc : s.conns t = some c) (hrunning : c.machine ≠ fail)
    (h : EndsInFail grain s t s') :
    ∃ s₁, Broker.step grain s (.run t) = .ok s₁ ∧ EndsInFail grain s₁ t s' := by
  obtain ⟨n, c', hrun, hc', hfail⟩ := h
  cases n with
  | zero =>
    obtain rfl := Except.ok.inj hrun
    obtain rfl := Option.some.inj (hc.symm.trans hc')
    exact absurd hfail hrunning
  | succ n =>
    obtain ⟨s₁, hstep, hrest⟩ := exec_cons_eq_ok.mp hrun
    exact ⟨s₁, hstep, n, c', hrest, hc', hfail⟩

/-- A thread in FAIL does not step. -/
theorem endsInFail_eq (hc : s.conns t = some c) (hfail : c.machine = fail)
    (h : EndsInFail grain s t s') : s' = s := by
  obtain ⟨n, c', hrun, -, -⟩ := h
  cases n with
  | zero => exact (Except.ok.inj hrun).symm
  | succ n =>
    obtain ⟨s₁, hstep, -⟩ := exec_cons_eq_ok.mp hrun
    simp only [Broker.step, hc, hfail] at hstep
    cases hstep

/-- The same pool, read from the other side. -/
theorem SamePool.symm {store store' : Store} (h : SamePool store store') : SamePool store' store :=
  ⟨fun name => (h.declared name).symm, fun p => (h.messages p).symm⟩

/-- The same pool over two steps. -/
theorem SamePool.trans {store store' store'' : Store} (h : SamePool store store')
    (h' : SamePool store' store'') : SamePool store store'' :=
  ⟨fun name => (h'.declared name).trans (h.declared name),
    fun p => (h'.messages p).trans (h.messages p)⟩

/-- A handler that fails refuses the frame. -/
theorem refusesFrame_of_fail {w' : World} (hc : s.conns t = some c)
    (hm : readsFrame c.machine = true) (haction : actions c.machine (s.world c) = .ok (fail, w')) :
    RefusesFrame grain s t := by
  obtain ⟨hdequeue, hrunning⟩ := running_of_readsFrame hm
  have hstep := step_run_of_ok hc hdequeue hrunning haction grain
  have hlists := sameLists_of_fail (effect_of_action hdequeue hrunning haction)
  exact ⟨_, _, hstep, s.commit_conns_self t fail .testRound w', rfl, hlists.samePool⟩

/-- A thread that refuses its frame has ended. -/
theorem RefusesFrame.ends (h : RefusesFrame grain s t) :
    ∃ s', EndsInFail grain s t s' ∧ SamePool s.store s'.store := by
  obtain ⟨s', c', hstep, hc', hfail, hpool⟩ := h
  exact ⟨s', endsInFail_cons hstep (endsInFail_here hc' hfail), hpool⟩

/-- A thread that refuses its frame has no other end. -/
theorem RefusesFrame.samePool (h : RefusesFrame grain s t) (hc : s.conns t = some c)
    (hrunning : c.machine ≠ fail) (hends : EndsInFail grain s t s') :
    SamePool s.store s'.store := by
  obtain ⟨s₁, c₁, hstep, hc₁, hfail, hpool⟩ := h
  obtain ⟨s₂, hstep', hends'⟩ := endsInFail_uncons hc hrunning hends
  obtain rfl := Except.ok.inj (hstep.symm.trans hstep')
  rwa [endsInFail_eq hc₁ hfail hends']

/-- A thread that finds its stream ended before a frame refuses it. -/
theorem refusesFrame_of_short (grain : Grain) (hok : s.Ok) (hc : s.conns t = some c)
    (hm : readsFrame c.machine = true) (hw : c.socket.Delivers part) (hshort : part.length < 7) :
    RefusesFrame grain s t := by
  obtain ⟨w', haction⟩ := actions_short (w := s.world c) hm hw hshort fun hack v hself hstore =>
    hok.unsubscribe hc (by rw [hack]; rfl) hself hstore
  exact refusesFrame_of_fail hc hm haction

/-- A thread whose client has gone away refuses the frame that is not there. -/
theorem hangUp_refuses (grain : Grain) (hok : s.Ok) (hc : s.conns t = some c)
    (hm : readsFrame c.machine = true) :
    RefusesFrame grain (s.hangUp t) t := by
  have hc₀ : (s.hangUp t).conns t = some { c with socket := [] } := by
    rw [Broker.hangUp, hc]
    exact Function.update_self _ _ _
  obtain ⟨w', haction⟩ := actions_short (w := (s.hangUp t).world { c with socket := [] }) hm .nil
    (Nat.succ_pos 6) fun hack v hself hstore =>
      hok.unsubscribe hc (by rw [hack]; rfl)
        ⟨hself.threadId, hself.currentQueue, hself.currentQueueName⟩ hstore
  exact refusesFrame_of_fail hc₀ hm haction

/-- After a handler that has used up the stream and goes on to WAIT_PUBLISH_CONTENT. -/
theorem commit_refuses (grain : Grain) (hw : w.socket.Delivers []) :
    RefusesFrame grain (s.commit t waitPublishContent .testRound w) t := by
  obtain ⟨w', haction⟩ := actions_short (m := waitPublishContent)
    (w := { w with trace := [], writes := [] }) rfl
    hw (Nat.succ_pos 6) nofun
  exact refusesFrame_of_fail (s.commit_conns_self t waitPublishContent .testRound w) rfl haction

/-- The states whose frames go to each reader. -/
theorem reader_state (hm : readsFrame m = true) (msgType : UInt8) :
    (payloadReader m msgType = none → m = waitPublishContent) ∧
      (payloadReader m msgType = some .readContentHeader → m = waitPublishContentHeader) ∧
      (payloadReader m msgType = some .readBody →
        m = waitPublishContent ∧ msgType = MsgFormat.body) := by
  cases m with
  | waitStartOk | waitTuneOk | waitOpenConnection | waitOpenChannel | waitFunctional
  | waitConsumeAck | waitPublishContentHeader => exact ⟨by simp [payloadReader],
      by simp [payloadReader], by simp [payloadReader]⟩
  | waitPublishContent =>
    refine ⟨fun _ => rfl, ?_, ?_⟩
    · simp only [payloadReader]
      split_ifs <;> simp
    · simp only [payloadReader]
      split_ifs with hmethod hbody
      · simp
      · exact fun _ => ⟨trivial, hbody⟩
      · simp
  | _ => cases hm

/-- A part of a frame with its header, which the state notices to be a part only. -/
theorem ends_of_notices (grain : Grain) (hok : s.Ok) (hc : s.conns t = some c)
    (hm : readsFrame c.machine = true)
    (hheader : header.length = 7) (hw : c.socket.Delivers (header ++ payload))
    (hcut : payload.length ≤ (decodeHeader header).length.toNat)
    (hnotices : ∀ reader, payloadReader c.machine (decodeHeader header).msgType = some reader →
      NoticesCut reader (decodeHeader header).length.toNat payload.length) :
    ∃ s', EndsInFail grain s t s' ∧ SamePool s.store s'.store := by
  obtain ⟨hdequeue, hrunning⟩ := running_of_readsFrame hm
  obtain ⟨hread, hrest⟩ := readMessageHeader_of_part (w := s.world c) hheader hw
  obtain ⟨hnone, hcontent, hbody⟩ := reader_state hm (decodeHeader header).msgType
  cases hreader : payloadReader c.machine (decodeHeader header).msgType with
  | none =>
    have hmachine := hnone hreader
    rw [hmachine] at hreader
    obtain ⟨w', haction⟩ := actions_part_other hreader hread
    rw [← hmachine] at haction
    exact (refusesFrame_of_fail hc hm haction).ends
  | some reader =>
    have hfits := hnotices reader hreader
    cases reader with
    | readMethod =>
      obtain ⟨w', haction⟩ := (actions_part_method hm hreader hread hrest hcut
        fun hack v hself hstore => hok.unsubscribe hc (by rw [hack]; rfl) hself hstore).1 hfits
      exact (refusesFrame_of_fail hc hm haction).ends
    | readContentHeader =>
      obtain ⟨w', haction, hend, hsilent⟩ := (actions_part_contentHeader hread hrest hcut).1 hfits
      rw [← hcontent hreader] at haction
      have hstep := step_run_of_ok hc hdequeue hrunning haction grain
      obtain ⟨s', hends, hpool⟩ := (commit_refuses grain (s := s) (t := t) hend).ends
      refine ⟨s', endsInFail_cons hstep hends, ?_⟩
      have hstore : (s.commit t waitPublishContent .testRound w').store = s.store := hsilent.store
      rwa [hstore] at hpool
    | readBody => exact absurd hfits id

/-- An enqueued message is seen in the pool. -/
theorem not_samePool_of_enqueue {store store' : Store} {q : Option ℕ} {body : List UInt8} {node : ℕ}
    (hlists : ListsOk store) (h : qEnqueue q body store = .ok (node, store')) :
    ¬ SamePool store store' := by
  intro hpool
  obtain ⟨p, -, -, henqueued⟩ := qEnqueue_eq_ok hlists h
  have hsame := hpool.messages p
  rw [henqueued.messages] at hsame
  simpa using congrArg List.length hsame

/-- A part of a frame with its header, which the state does not notice to be a part only. -/
theorem not_ends_of_not_notices (hok : s.Ok) (hc : s.conns t = some c)
    (hm : readsFrame c.machine = true) (hheader : header.length = 7)
    (hw : c.socket.Delivers (header ++ payload))
    (hcut : payload.length ≤ (decodeHeader header).length.toNat) {reader : PayloadReader}
    (hreader : payloadReader c.machine (decodeHeader header).msgType = some reader)
    (hover : ¬ NoticesCut reader (decodeHeader header).length.toNat payload.length)
    (hends : EndsInFail grain s t s') : ¬ SamePool s.store s'.store := by
  obtain ⟨hdequeue, hrunning⟩ := running_of_readsFrame hm
  obtain ⟨hread, hrest⟩ := readMessageHeader_of_part (w := s.world c) hheader hw
  obtain ⟨-, hcontent, hbody⟩ := reader_state hm (decodeHeader header).msgType
  obtain ⟨s₁, hstep, hends⟩ := endsInFail_uncons hc hrunning.2 hends
  have hstopped : ∀ reason, actions c.machine (s.world c) ≠ .error reason := by
    intro reason haction
    rw [step_run_of_error hc hdequeue hrunning haction grain] at hstep
    cases hstep
  cases reader with
  | readMethod =>
    exact absurd ((actions_part_method hm hreader hread hrest hcut fun hack v hself hstore =>
      hok.unsubscribe hc (by rw [hack]; rfl) hself hstore).2 hover) (hstopped _)
  | readContentHeader =>
    have hstop := (actions_part_contentHeader hread hrest hcut).2 (not_le.mp hover)
    rw [← hcontent hreader] at hstop
    exact absurd hstop (hstopped _)
  | readBody =>
    obtain ⟨hmachine, htype⟩ := hbody hreader
    cases hrun : actions c.machine (s.world c) with
    | error reason => exact absurd hrun (hstopped reason)
    | ok result =>
      obtain ⟨m', w'⟩ := result
      have hcommit := step_run_of_ok hc hdequeue hrunning hrun grain
      rw [hmachine] at hrun
      obtain ⟨rfl, hend, q, body, node, henqueue⟩ := actions_part_body htype hread hrest hcut hrun
      obtain rfl := Except.ok.inj (hcommit.symm.trans hstep)
      have hafter := (commit_refuses grain hend).samePool
        (s.commit_conns_self t waitPublishContent .testRound w') nofun hends
      intro hpool
      exact not_samePool_of_enqueue hok.lists henqueue (hpool.trans hafter.symm)

/-- Such a part of a frame changes something. -/
theorem not_cutChangesNothing (hok : s.Ok) (hc : s.conns t = some c)
    (hm : readsFrame c.machine = true) (hheader : header.length = 7)
    (hw : c.socket.Delivers (header ++ payload))
    (hcut : payload.length ≤ (decodeHeader header).length.toNat) {reader : PayloadReader}
    (hreader : payloadReader c.machine (decodeHeader header).msgType = some reader)
    (hover : ¬ NoticesCut reader (decodeHeader header).length.toNat payload.length) :
    ¬ CutChangesNothing grain s t := by
  rintro ⟨s', s₀, hends, hends', hpool⟩
  have hc₀ : (s.hangUp t).conns t = some { c with socket := [] } := by
    rw [Broker.hangUp, hc]
    exact Function.update_self _ _ _
  have hsame := (hangUp_refuses grain hok hc hm).samePool hc₀ (running_of_readsFrame hm).2.2 hends'
  exact not_ends_of_not_notices hok hc hm hheader hw hcut hreader hover hends (hsame.trans hpool)

/-- A stream that ends inside a frame changes nothing if and only if the state that reads the
frame notices it: the bytes that have arrived fit the buffers, and they are not the header
and perhaps more of a BODY frame. -/
theorem cutChangesNothing_iff {guard : Broker → Act → Prop}
    (h : Reaches (Broker.step grain) guard Broker.initial s) (hc : s.conns t = some c)
    (hm : readsFrame c.machine = true) (hw : c.socket.Delivers part) (hpart : InsideFrame part) :
    CutChangesNothing grain s t ↔ NoticesPart c.machine part := by
  have hok := Broker.ok_of_reaches h
  obtain ⟨s₀', hends₀, hpool₀⟩ := (hangUp_refuses grain hok hc hm).ends
  by_cases hshort : part.length < 7
  · obtain ⟨s', hends, hpool⟩ := (refusesFrame_of_short grain hok hc hm hw hshort).ends
    exact ⟨fun _ hseven => absurd hshort (not_lt.mpr hseven), fun _ =>
      ⟨s', s₀', hends, hends₀, hpool₀.symm.trans hpool⟩⟩
  · have hseven : (part.take 7).length = 7 := by
      rw [List.length_take]
      omega
    have hsplit : c.socket.Delivers (part.take 7 ++ part.drop 7) := by
      rwa [List.take_append_drop]
    have hlength : (part.drop 7).length = part.length - 7 := List.length_drop
    have hcut : (part.drop 7).length ≤ (decodeHeader (part.take 7)).length.toNat := by
      rw [hlength]
      exact hpart.2 (not_lt.mp hshort)
    constructor
    · intro hchanges _ reader hreader
      by_contra hover
      rw [← hlength] at hover
      exact not_cutChangesNothing hok hc hm hseven hsplit hcut hreader hover hchanges
    · intro hnotices
      have hfits := hnotices (not_lt.mp hshort)
      rw [← hlength] at hfits
      obtain ⟨s', hends, hpool⟩ := ends_of_notices grain hok hc hm hseven hsplit hcut hfits
      exact ⟨s', s₀', hends, hends₀, hpool₀.symm.trans hpool⟩

/-- The first bytes of a Queue.Declare, up to the middle of its method. -/
def cutDeclare : List UInt8 := (declareFrame [113]).take 10

/-- A Queue.Declare that is cut in its payload changes nothing. -/
theorem cutChangesNothing_iff_declare :
    ∃ s c, Reaches (Broker.step .fine) (fun _ _ => True) Broker.initial s ∧ s.conns 0 = some c ∧
      c.socket.Delivers cutDeclare ∧ CutChangesNothing .fine s 0 := by
  obtain ⟨s, c, hrun, hc, hm, hw⟩ := functional_session (b := cutDeclare) (by decide +kernel)
  refine ⟨s, c, reaches_of_exec hrun, hc, hw, ?_⟩
  apply (cutChangesNothing_iff (reaches_of_exec hrun) hc (by rw [hm]; rfl) hw
    ⟨by decide, by decide⟩).mpr
  intro _ reader hreader
  rw [hm] at hreader
  obtain rfl : PayloadReader.readMethod = reader := Option.some.inj hreader
  exact ⟨by decide, by decide⟩

/-- The header of a BODY frame of five bytes, and two of them. -/
def cutBody : List UInt8 := encodeHeader MsgFormat.body 1 5 ++ [104, 105]

/-- A client that goes away inside the body of a message. -/
def publishCut : List Act :=
  session 0 (openingFrames ++ declareFrame [113] ++ publishFrame [] [113] ++ headerFrame 5 ++
    cutBody) 14

/-- The body that has not arrived is enqueued, with what the content header left in `parsed`. -/
theorem publishCut_enqueues :
    ∃ s s' c, exec (Broker.step .fine) Broker.initial publishCut = .ok s ∧ s.conns 0 = some c ∧
      c.machine = waitPublishContent ∧ c.socket.Delivers cutBody ∧ InsideFrame cutBody ∧
      (s.store.contents [113]).map Prod.snd = [] ∧ EndsInFail .fine s 0 s' ∧
      (s'.store.contents [113]).map Prod.snd = [[60]] ∧ ¬ CutChangesNothing .fine s 0 := by
  have hobserved : (exec (Broker.step .fine) Broker.initial publishCut).toOption.map
      (fun s => (s.firstConn, (s.store.contents [113]).map Prod.snd)) =
        some (some (waitPublishContent, Socket.chunk cutBody), []) := by decide +kernel
  have hobserved' : (exec (Broker.step .fine) Broker.initial
      (publishCut ++ [.run 0, .run 0])).toOption.map
        (fun s => (s.firstConn, (s.store.contents [113]).map Prod.snd)) =
          some (some (fail, []), [[60]]) := by decide +kernel
  obtain ⟨s, hrun, hview⟩ := exec_observed hobserved
  obtain ⟨s', hrun', hview'⟩ := exec_observed hobserved'
  obtain ⟨c, hc, hm, hsocket⟩ := Broker.firstConn_eq_some (congrArg Prod.fst hview)
  obtain ⟨c', hc', hm', -⟩ := Broker.firstConn_eq_some (congrArg Prod.fst hview')
  obtain ⟨s₁, hfirst, hsecond⟩ := exec_append_eq_ok.mp hrun'
  obtain rfl := Except.ok.inj (hrun.symm.trans hfirst)
  have hw : c.socket.Delivers cutBody := by
    rw [hsocket]
    exact Socket.chunk_delivers _
  refine ⟨s, s', c, hrun, hc, hm, hw, ⟨by decide, by decide⟩, congrArg Prod.snd hview,
    ⟨2, c', hsecond, hc', hm'⟩, congrArg Prod.snd hview', ?_⟩
  have hreader : payloadReader c.machine (decodeHeader (encodeHeader MsgFormat.body 1 5)).msgType =
      some .readBody := by
    rw [hm]
    decide
  exact not_cutChangesNothing (Broker.ok_of_reaches (reaches_of_exec hrun)) hc (by rw [hm]; rfl)
    (by decide) hw (by decide) hreader id

end AmqpBroker
