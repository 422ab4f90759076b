import AmqpBroker.Foundations.Descent
import AmqpBroker.Verification.CutStream
import AmqpBroker.Verification.Handshake

/-!
# The end of a connection loop

The states form cycles, so the loop of a connection ends only because its input does. Each
step either takes bytes from the stream or comes closer to a state that reads: the bytes
left and the steps to the next read make up a measure that every step of the thread lowers.
-/

namespace AmqpBroker

open Foundations Program MachineState

/-- `NUM_STATES`. -/
def numStates : ℕ := 22

/-- The value of a state in the enumeration. -/
def MachineState.index : MachineState → ℕ
  | wait => 0
  | headerReceived => 1
  | waitStartOk => 2
  | startOkReceived => 3
  | waitTuneOk => 4
  | waitOpenConnection => 5
  | openConnectionReceived => 6
  | closeConnectionReceived => 7
  | waitOpenChannel => 8
  | openChannelReceived => 9
  | closeChannelReceived => 10
  | waitFunctional => 11
  | queueDeclareReceived => 12
  | basicPublishReceived => 13
  | waitPublishContentHeader => 14
  | waitPublishContent => 15
  | basicConsumeReceived => 16
  | waitValueDequeue => 17
  | valueDequeueReceived => 18
  | waitConsumeAck => 19
  | finished => 20
  | fail => 21

/-- The array `actions`. -/
def actionsTable : List (Action MachineState) :=
  [actionWait, actionHeaderReceived, actionWaitStartOk, actionStartOkReceived, actionWaitTuneOk,
    actionWaitOpenConnection, actionOpenConnectionReceived, actionCloseConnectionReceived,
    actionWaitOpenChannel, actionOpenChannelReceived, actionCloseChannelReceived,
    actionWaitFunctional, actionQueueDeclareReceived, actionBasicPublishReceived,
    actionWaitPublishContentHeader, actionWaitPublishContent, actionBasicConsumeReceived,
    actionWaitValueDequeue, actionValueDequeueReceived, actionWaitConsumeAck, actionNoop, actionNoop]

/-- The array has an entry for every state, and it is the handler of the state. -/
theorem actionsTable_index (m : MachineState) :
    m.index < numStates ∧ actionsTable[m.index]? = some (actions m) := by
  cases m <;> exact ⟨by decide, rfl⟩

/-- A use of memory that C leaves undefined: outside a buffer, or through a NULL queue. -/
def Undefined (reason : Abort) : Prop := OutOfRange reason ∨ reason = .nullQueue

/-- The bytes a socket still has to deliver. -/
def pending : Socket → ℕ
  | [] => 0
  | .error :: rest => pending rest
  | .data _ more :: rest => more.length + 1 + pending rest

/-- The steps of `q_dequeue_rr` from here on, and the delivery that follows. -/
def DequeuePoint.stepsLeft : DequeuePoint → ℕ
  | testRound => 10
  | sleepRound => 9
  | wakeRound => 8
  | testMsg => 7
  | sleepMsg => 6
  | wakeMsg => 5
  | dequeue => 4
  | nextThread => 3

/-- The steps up to and with the next one that reads or ends. -/
def MachineState.stepsLeft : MachineState → DequeuePoint → ℕ
  | finished, _ | fail, _ => 0
  | basicConsumeReceived, _ => 11
  | waitValueDequeue, point => point.stepsLeft
  | wait, _ | waitStartOk, _ | waitTuneOk, _ | waitOpenConnection, _ | waitOpenChannel, _
  | waitFunctional, _ | waitPublishContentHeader, _ | waitPublishContent, _
  | waitConsumeAck, _ | closeConnectionReceived, _ => 1
  | headerReceived, _ | startOkReceived, _ | openConnectionReceived, _ | openChannelReceived, _
  | closeChannelReceived, _ | queueDeclareReceived, _ | basicPublishReceived, _
  | valueDequeueReceived, _ => 2

/-- The measure of a connection: a frame has seven bytes at least, and so outweighs the
steps to the next one. -/
def Conn.measure (c : Conn) : ℕ := 2 * pending c.socket + c.machine.stepsLeft c.point

variable {grain : Grain} {guard : Broker → Act → Prop} {s s' : Broker} {t : ℤ} {c : Conn}
  {m m' : MachineState} {point point' : DequeuePoint} {w w' : World} {act : Act} {p : ℕ}
  {queue : Queue} {socket : Socket} {bytes : List UInt8} {reason : Abort}

/-- The bytes of a stream are what its socket has to deliver. -/
theorem pending_of_delivers (h : socket.Delivers bytes) : pending socket = bytes.length := by
  induction h with
  | nil => rfl
  | data first more _ ih =>
    rw [pending, ih, List.length_append, List.length_cons]

/-- No state is far from one that reads. -/
theorem stepsLeft_le (m : MachineState) (point : DequeuePoint) : m.stepsLeft point ≤ 11 := by
  cases m <;> cases point <;> decide

/-- The states that read a frame read its header first. -/
theorem startsFrame_actions (hm : readsFrame m = true) : StartsFrame NotSent (actions m) := by
  cases m with
  | waitStartOk => exact startsFrame_actionWaitStartOk
  | waitTuneOk => exact startsFrame_awaitMethod _ _ _
  | waitOpenConnection => exact startsFrame_awaitMethod _ _ _
  | waitOpenChannel => exact startsFrame_actionWaitOpenChannel
  | waitFunctional => exact startsFrame_actionWaitFunctional
  | waitPublishContentHeader => exact startsFrame_actionWaitPublishContentHeader
  | waitPublishContent => exact startsFrame_actionWaitPublishContent
  | waitConsumeAck => exact startsFrame_actionWaitConsumeAck
  | _ => cases hm

/-- Code that reads a frame takes its header at least. -/
theorem StartsFrame.takes {x : Action MachineState} (h : StartsFrame NotSent x)
    (hw : w.socket.Delivers bytes) (hseven : 7 ≤ bytes.length) (hrun : x w = .ok (m', w')) :
    ∃ rest, w'.socket.Delivers rest ∧ rest.length + 7 ≤ bytes.length := by
  cases h with
  | intro hf =>
    rw [bind_of_ok (readMessageHeader_complete hw hseven)] at hrun
    obtain ⟨taken, rest, hbytes, hrest⟩ :=
      (hf _).consumes _ _ _ hrun _ (receive_delivers hw hseven)
    refine ⟨rest, hrest, ?_⟩
    have hlength := congrArg List.length hbytes
    rw [List.length_drop, List.length_append] at hlength
    omega

/-- A handler that reads nothing leads closer to one that does. -/
theorem stepsLeft_of_effect (h : Effect m w w' m') (hreads : readsFrame m = false) (hwait : m ≠ wait)
    (point : DequeuePoint) : m'.stepsLeft .testRound < m.stepsLeft point := by
  cases h with
  | quiet hnext _ =>
    cases m with
    | wait => exact absurd rfl hwait
    | headerReceived | startOkReceived | openConnectionReceived | closeConnectionReceived
    | openChannelReceived | closeChannelReceived | queueDeclareReceived | basicPublishReceived
    | valueDequeueReceived =>
      obtain rfl := List.mem_singleton.mp hnext
      exact of_decide_eq_true rfl
    | basicConsumeReceived | waitValueDequeue | finished | fail => cases hnext
    | _ => cases hreads
  | subscribe hm =>
    rw [hm]
    exact of_decide_eq_true rfl
  | declare hm | consume hm | enqueue hm | ack hm | reject hm =>
    rw [hm] at hreads
    cases hreads
  | publish hm =>
    rcases hm with hm | hm <;> rw [hm] at hreads <;> cases hreads

/-- Every handler lowers the measure. -/
theorem handler_descends (hok : s.Ok) (hc : s.conns t = some c) (hw : c.socket.Delivers bytes)
    (hrun : actions c.machine (s.world c) = .ok (m', w'))
    (heffect : Effect c.machine (s.world c) w' m') :
    ∃ rest, w'.socket.Delivers rest ∧
      2 * rest.length + m'.stepsLeft .testRound < 2 * bytes.length + c.machine.stepsLeft c.point := by
  have hfar := stepsLeft_le m' .testRound
  obtain ⟨taken, rest, hbytes, hrest⟩ := (built_actions c.machine).consumes _ _ _ hrun bytes hw
  have hshorter : rest.length ≤ bytes.length := by simp [hbytes]
  by_cases hreads : readsFrame c.machine = true
  · have hone : c.machine.stepsLeft c.point = 1 := by
      cases hm : c.machine <;> rw [hm] at hreads <;> first | rfl | cases hreads
    by_cases hseven : 7 ≤ bytes.length
    · obtain ⟨rest', hrest', hlength⟩ := (startsFrame_actions hreads).takes hw hseven hrun
      exact ⟨rest', hrest', by omega⟩
    · obtain ⟨v, hshort⟩ := actions_short hreads (w := s.world c) hw (by omega)
        fun hack _ => hok.unsubscribe hc (by rw [hack]; rfl)
      rw [hshort] at hrun
      cases hrun
      exact ⟨rest, hrest, by rw [hone]; simp only [stepsLeft]; omega⟩
  · by_cases hwait : c.machine = wait
    · rw [hwait] at hrun ⊢
      obtain hfail | ⟨hnext, rest', hbytes', hrest'⟩ := actionWait_takes (w := s.world c) hw hrun
      · exact ⟨rest, hrest, by simp only [hfail, stepsLeft]; omega⟩
      · refine ⟨rest', hrest', ?_⟩
        have hheader : defaultAmqpHeader.length = 8 := rfl
        rw [hbytes', List.length_append, hheader, hnext]
        simp only [stepsLeft]
        omega
    · refine ⟨rest, hrest, ?_⟩
      have hlower := stepsLeft_of_effect heffect (by simpa using hreads) hwait c.point
      omega

/-- Leaving a buffer is undefined. -/
theorem undefined_range : ¬ ¬ Undefined .bufferRange := not_not_intro (.inl (.inl rfl))

/-- An overflow of a signed number is undefined. -/
theorem undefined_overflow : ¬ ¬ Undefined .signedOverflow := not_not_intro (.inl (.inr rfl))

/-- Code that stops only through an undefined use of memory. -/
abbrev Sound {α : Type} (x : Action α) : Prop := Avoids (fun reason => ¬ Undefined reason) x

/-- Sound code that stops does so through an undefined use of memory. -/
theorem Sound.stops {α : Type} {x : Action α} (h : Sound x) (hstop : x w = .error reason) :
    Undefined reason := not_not.mp (h w reason hstop)

/-- A call on the chosen queue, which is NULL or there, stops only where it is NULL. -/
theorem call_stops {α β : Type} (call : Option ℕ → Shared α) {q : Option ℕ} {f : α → Action β}
    (hnull : call none w.store = .error .nullQueue)
    (hlive : ∀ p, q = some p → ∃ result, call (some p) w.store = .ok result)
    (hf : ∀ a store, f a { w with store := store } = .error reason → Undefined reason)
    (h : (onStore (call q) >>= f) w = .error reason) : Undefined reason := by
  cases q with
  | none =>
    have hcall : onStore (call none) w = .error .nullQueue := by simp only [onStore, hnull]
    rw [bind_of_error hcall] at h
    cases h
    exact Or.inr rfl
  | some p =>
    obtain ⟨⟨a, store⟩, hcall⟩ := hlive p rfl
    rw [bind_of_ok (onStore_of_ok hcall)] at h
    exact hf a store h

/-- A handler that waits for one method is sound. -/
theorem sound_awaitMethod (expected : MethodHeader) (message : String) (next : MachineState) :
    Sound (awaitMethod expected message next) := by
  apply Avoids.bind (avoids_readFrame undefined_range)
  refine avoids_option (Avoids.pure _) fun method => ?_
  exact Avoids.ite (Avoids.bind (avoids_setError _) fun _ => Avoids.pure _) (Avoids.pure _)

/-- The handlers that use no queue and send nothing. -/
theorem sound_actions (hsends : m.sends = false) (hdequeue : m ≠ waitValueDequeue)
    (hpublish : m ≠ waitPublishContent) (hack : m ≠ waitConsumeAck) : Sound (actions m) := by
  cases m with
  | wait =>
    apply Avoids.bind (avoids_readProtocolHeader undefined_range)
    intro valid
    exact Avoids.ite (Avoids.pure _) (Avoids.bind (avoids_setError _) fun _ => Avoids.pure _)
  | waitStartOk =>
    apply Avoids.bind (avoids_readMessageHeader undefined_range)
    apply avoids_option (Avoids.bind (avoids_setError _) fun _ => Avoids.pure _)
    intro messageHeader
    apply Avoids.bind (avoids_readMethod undefined_range _)
    refine avoids_option (Avoids.pure _) fun method => ?_
    exact Avoids.ite (Avoids.bind (avoids_setError _) fun _ => Avoids.pure _) (Avoids.pure _)
  | waitTuneOk => exact sound_awaitMethod _ _ _
  | waitOpenConnection => exact sound_awaitMethod _ _ _
  | waitOpenChannel =>
    apply Avoids.bind (avoids_readFrame undefined_range)
    exact avoids_option (Avoids.pure _) fun method => avoids_finishDispatch method _
  | waitFunctional =>
    apply Avoids.bind (avoids_readFrame undefined_range)
    refine avoids_option (Avoids.pure _) fun method => ?_
    exact Avoids.bind (avoids_functionalSwitch method) (avoids_finishDispatch method)
  | basicPublishReceived | finished | fail => exact Avoids.pure _
  | waitPublishContentHeader =>
    apply Avoids.bind (avoids_readMessageHeader undefined_range)
    apply avoids_option (Avoids.bind (avoids_setError _) fun _ => Avoids.pure _)
    intro messageHeader
    exact Avoids.bind (avoids_readContentHeader undefined_range _) fun _ => Avoids.pure _
  | waitValueDequeue => exact absurd rfl hdequeue
  | waitPublishContent => exact absurd rfl hpublish
  | waitConsumeAck => exact absurd rfl hack
  | _ => cases hsends

/-- Where `write` takes everything a sender stops only if its frame leaves the buffer; what
follows it finds `write` as it was. -/
theorem send_stops {frame : List UInt8} {x : Action MachineState} (hwrites : w.writes = [])
    (hx : ∀ w', w'.writes = [] → x w' = .error reason → Undefined reason)
    (h : (sendFrame frame >>= fun _ => x) w = .error reason) : Undefined reason := by
  rcases bind_eq_error.mp h with hsend | ⟨_, w', hsend, hstop⟩
  · rcases sendFrame_eq_error hsend with ⟨-, rfl⟩ | ⟨result, hmem, -⟩
    · exact Or.inl (Or.inl rfl)
    · rw [hwrites] at hmem
      cases hmem
  · apply hx w' _ hstop
    rw [(sendFrame_sends hsend).1.writes, hwrites]
    rfl

/-- An answer. -/
theorem answer_stops {frame : List UInt8} {next : MachineState} (hwrites : w.writes = [])
    (h : (do sendFrame frame; pure next : Action MachineState) w = .error reason) :
    Undefined reason := send_stops hwrites (fun _ _ hpure => by cases hpure) h

/-- Declare-Ok, whose arguments are put together in an array of their own first. -/
theorem declareOk_stops {channel : UInt16} {name : List UInt8} {messageCount consumerCount : UInt32}
    {next : MachineState} (hwrites : w.writes = [])
    (h : (do sendQueueDeclareOk channel name messageCount consumerCount; pure next :
      Action MachineState) w = .error reason) : Undefined reason := by
  rw [sendQueueDeclareOk, bind_assoc] at h
  rcases bind_eq_error.mp h with hfill | ⟨arguments, v, hfill, h⟩
  · exact Sound.stops (avoids_onLocal (avoids_fillDeclareOkArgs undefined_range _ _ _)) hfill
  · rw [(onLocal_eq_ok hfill).2] at h
    exact answer_stops hwrites h

/-- A delivery: the string in `recvline` may be too long for the last of its frames. -/
theorem actionValueDequeueReceived_stops (hwrites : w.writes = [])
    (h : actionValueDequeueReceived w = .error reason) : Undefined reason := by
  rw [actionValueDequeueReceived, field_bind_apply] at h
  rcases bind_eq_error.mp h with hstring | ⟨body, v, hstring, h⟩
  · exact Sound.stops (avoids_stringOf undefined_range _) hstring
  · rw [(stringOf_eq_ok hstring).2] at h
    refine send_stops hwrites (fun w₁ hwrites₁ h₁ => ?_) h
    exact send_stops hwrites₁ (fun w₂ hwrites₂ h₂ => answer_stops hwrites₂ h₂) h₁

/-- Inside `q_dequeue_rr` every step comes closer to its end, and takes nothing. -/
theorem dequeue_descends (h : DequeueEffect grain p queue w w' point m' point') :
    w'.socket = w.socket ∧ m'.stepsLeft point' < point.stepsLeft := by
  cases h with
  | dequeue _ _ hsocket _ => exact ⟨hsocket, by decide⟩
  | turn _ hw' | noTurn _ _ hw' | noTurnSleep _ _ _ hw' | sleepRound _ hw' | wakeRound _ hw'
  | message _ hw' | noMessage _ hw' | sleepMsg hw' | wakeMsg _ hw' | nextThread _ hw' =>
    rw [hw']
    exact ⟨rfl, by decide⟩

namespace Broker

/-- The chosen queue is there. -/
theorem Ok.chosen_cell (h : s.Ok) (hc : s.conns t = some c) (hself : SameSelf (s.world c) w)
    (hstore : w.store = s.store) (hp : w.cs.currentQueue = some p) :
    ∃ queue, w.store.queues.cells p = some queue := by
  rw [hstore]
  exact h.chosen t c p hc (hself.currentQueue.symm.trans hp)

/-- A body is enqueued in a queue that is there, or through NULL. -/
theorem Ok.enqueueBody_stops (h : s.Ok) (hc : s.conns t = some c) (hself : SameSelf (s.world c) w)
    (hstore : w.store = s.store) (hstop : enqueueBody w = .error reason) : Undefined reason := by
  rw [enqueueBody, field_bind_apply] at hstop
  rcases bind_eq_error.mp hstop with hstring | ⟨body, v, hstring, hstop⟩
  · exact Sound.stops (avoids_stringOf undefined_range _) hstring
  · have hsilent : Silent w v := keeps_stringOf _ _ _ _ hstring
    rw [field_bind_apply] at hstop
    apply call_stops (fun q => qEnqueue q body) rfl _ (fun _ _ hrecord => by cases hrecord) hstop
    intro p hp
    obtain ⟨queue, hcell⟩ := h.chosen_cell hc hself hstore (hsilent.currentQueue ▸ hp)
    obtain ⟨node, store', hrun, -⟩ := qEnqueue_spec body (hstore ▸ h.lists) hcell
    exact ⟨_, hsilent.store ▸ hrun⟩

/-- A publisher. -/
theorem Ok.waitPublishContent_stops (h : s.Ok) (hc : s.conns t = some c)
    (hstop : actions waitPublishContent (s.world c) = .error reason) : Undefined reason := by
  rcases bind_eq_error.mp hstop with hheader | ⟨header, v, hheader, hstop⟩
  · exact Sound.stops (avoids_readMessageHeader undefined_range) hheader
  · have hsilent : Silent (s.world c) v := keeps_readMessageHeader _ _ _ hheader
    cases header with
    | none => exact Sound.stops (Avoids.bind (avoids_setError _) fun _ => Avoids.pure _) hstop
    | some header =>
      simp only at hstop
      split at hstop
      · refine Sound.stops
          (Avoids.bind (avoids_readMethod undefined_range _) (avoids_option ?_ ?_)) hstop
        · exact Avoids.bind (avoids_setError _) fun _ => Avoids.pure _
        · exact fun method => Avoids.bind (avoids_publishContentSwitch method)
            (avoids_finishDispatch method)
      · split at hstop
        · rcases bind_eq_error.mp hstop with hbody | ⟨_, v', hbody, hstop⟩
          · exact Sound.stops (avoids_readBody undefined_range undefined_overflow _) hbody
          · have hsilent' : Silent v v' := keeps_readBody _ _ _ _ hbody
            have hread := hsilent.trans hsilent'
            rcases bind_eq_error.mp hstop with henqueue | ⟨_, _, _, hpure⟩
            · exact h.enqueueBody_stops hc hread.sameSelf hread.store henqueue
            · cases hpure
        · exact Sound.stops (Avoids.bind (avoids_setError _) fun _ => Avoids.pure _) hstop

/-- A consumer that may have to leave the ring. -/
theorem Ok.waitConsumeAck_stops (h : s.Ok) (hc : s.conns t = some c)
    (hm : c.machine = waitConsumeAck)
    (hstop : actions waitConsumeAck (s.world c) = .error reason) : Undefined reason := by
  have hreject : ∀ (w : World) (message : Action Unit), Grows Event.IsQuiet (s.world c) w →
      Sound message →
      (do AmqpBroker.unsubscribe; message; pure fail : Action MachineState) w = .error reason →
        Undefined reason := by
    intro w message hquiet hmessage hstop
    obtain ⟨v, hunsubscribe⟩ := h.unsubscribe hc (by rw [hm]; rfl) hquiet.sameSelf hquiet.store
    rw [bind_of_ok hunsubscribe] at hstop
    exact Sound.stops (Avoids.bind hmessage fun _ => Avoids.pure _) hstop
  rcases bind_eq_error.mp hstop with hheader | ⟨header, v, hheader, hstop⟩
  · exact Sound.stops (avoids_readMessageHeader undefined_range) hheader
  · have hsilent : Silent (s.world c) v := keeps_readMessageHeader _ _ _ hheader
    cases header with
    | none => exact hreject v _ hsilent.quiet (avoids_setError _) hstop
    | some header =>
      rcases bind_eq_error.mp hstop with hmethod | ⟨method, v', hmethod, hstop⟩
      · exact Sound.stops (avoids_readMethod undefined_range _) hmethod
      · have hquiet := hsilent.quiet.trans (readMethod_outcome hmethod).quiet
        cases method with
        | none => exact hreject v' _ hquiet (avoids_setError _) hstop
        | some method =>
          simp only at hstop
          split at hstop
          · exact hreject v' _ hquiet (avoids_setError _) hstop
          · cases hstop

/-- A handler never waits, and where it stops the use of memory is undefined. -/
theorem Ok.handler_stops (h : s.Ok) (hc : s.conns t = some c) (hm : c.machine ≠ waitValueDequeue)
    (hstop : actions c.machine (s.world c) = .error reason) : Undefined reason := by
  have hself : SameSelf (s.world c) (s.world c) := ⟨rfl, rfl, rfl⟩
  cases hmachine : c.machine with
  | queueDeclareReceived =>
    rw [hmachine] at hstop
    change actionQueueDeclareReceived (s.world c) = _ at hstop
    rw [actionQueueDeclareReceived, field_bind_apply] at hstop
    apply call_stops qSize rfl _ _ hstop
    · intro p hp
      obtain ⟨queue, hcell⟩ := h.chosen_cell hc hself rfl hp
      exact ⟨_, bind_of_ok (derefQueue_of_cell hcell) _⟩
    · intro size store hanswer
      rw [field_bind_apply] at hanswer
      cases hname : (s.world c).cs.currentQueueName.cstring maxQueueName 0 with
      | none =>
        simp only [hname] at hanswer
        cases hanswer
        exact Or.inl (Or.inl rfl)
      | some name =>
        simp only [hname] at hanswer
        exact declareOk_stops rfl hanswer
  | basicConsumeReceived =>
    rw [hmachine] at hstop
    change actionBasicConsumeReceived (s.world c) = _ at hstop
    rw [actionBasicConsumeReceived, field_bind_apply, field_bind_apply] at hstop
    apply call_stops (fun q => qAddSubscriber q c.cs.threadId) rfl _ _ hstop
    · intro p hp
      obtain ⟨queue, hcell⟩ := h.chosen_cell hc hself rfl hp
      obtain ⟨members, hring, -, hmember⟩ := h.ring_of hc hp hcell
      obtain ⟨hid, hrange⟩ := h.self t c hc
      obtain ⟨rr, hadd, -⟩ := addSubscriber_spec hring hrange (by rw [hmember, hmachine]; decide)
      exact ⟨_, onRing_of_cell hcell (by rw [hid, hadd]; rfl)⟩
    · intro _ store hanswer
      rcases bind_eq_error.mp hanswer with hrecord | ⟨_, v, hrecord, hanswer⟩
      · cases hrecord
      · cases hrecord
        rw [field_bind_apply] at hanswer
        exact answer_stops rfl hanswer
  | valueDequeueReceived => exact actionValueDequeueReceived_stops rfl (hmachine ▸ hstop)
  | headerReceived | startOkReceived | openConnectionReceived | closeConnectionReceived
  | openChannelReceived | closeChannelReceived => exact answer_stops rfl (hmachine ▸ hstop)
  | waitPublishContent => exact h.waitPublishContent_stops hc (hmachine ▸ hstop)
  | waitConsumeAck => exact h.waitConsumeAck_stops hc hmachine (hmachine ▸ hstop)
  | _ =>
    have hsound := sound_actions (m := c.machine) (by rw [hmachine]; rfl) hm
      (by rw [hmachine]; decide) (by rw [hmachine]; decide)
    exact hsound.stops hstop

/-- The loop of a connection goes on. -/
def Looping (s : Broker) (t : ℤ) : Prop :=
  ∃ c, s.conns t = some c ∧ c.machine ≠ finished ∧ c.machine ≠ fail

/-- The thread of a connection is inside `q_dequeue_rr`. -/
def InDequeue (s : Broker) (t : ℤ) : Prop := ∃ c, s.conns t = some c ∧ c.machine = waitValueDequeue

/-- The loop of a connection is over: in FINISHED or FAIL, or at an undefined use of memory. -/
def LoopOver (grain : Grain) (s : Broker) (t : ℤ) : Prop :=
  (∃ c, s.conns t = some c ∧ (c.machine = finished ∨ c.machine = fail)) ∨
    ∃ reason, Broker.step grain s (.run t) = .error reason ∧ Undefined reason

/-- The label is a step that the thread can take. -/
def takesStep (grain : Grain) (s : Broker) (t : ℤ) (act : Act) : Bool :=
  match act, Broker.step grain s act with
  | .run u _, .ok _ => u = t
  | _, _ => false

/-- The measure of a connection, or 0 where there is none. -/
def measure (s : Broker) (t : ℤ) : ℕ := ((s.conns t).map Conn.measure).getD 0

/-- A connection whose stream is finite. -/
def Streams (s : Broker) (t : ℤ) : Prop :=
  ∃ c bytes, s.conns t = some c ∧ c.socket.Delivers bytes

/-- A step of the thread lowers the measure of its connection. -/
theorem measure_step {writes : List WriteResult} (hok : s.Ok) (hstreams : s.Streams t)
    (hstep : Broker.step grain s (.run t writes) = .ok s') :
    s'.Streams t ∧ s'.measure t < s.measure t := by
  obtain ⟨c, bytes, hc, hw⟩ := hstreams
  cases step_cases hstep with
  | @handler _ d m' w' _ hd hrun heffect hs' =>
    obtain rfl := Option.some.inj (hc.symm.trans hd)
    obtain ⟨rest, hrest, hlower⟩ := handler_descends hok hc hw hrun heffect
    have hc' : s'.conns t = some ⟨m', .testRound, w'.cs, w'.socket⟩ := by
      rw [hs', commit_conns_self]
    refine ⟨⟨_, rest, hc', hrest⟩, ?_⟩
    rw [measure, measure, hc, hc']
    change 2 * pending w'.socket + _ < 2 * pending c.socket + _
    rw [pending_of_delivers hw, pending_of_delivers hrest]
    exact hlower
  | @dequeue _ d p queue m' point' w' _ hd hm _ _ heffect hs' =>
    obtain rfl := Option.some.inj (hc.symm.trans hd)
    obtain ⟨hsocket, hlower⟩ := dequeue_descends heffect
    have hsocket' : w'.socket = c.socket := hsocket
    have hc' : s'.conns t = some ⟨m', point', w'.cs, w'.socket⟩ := by rw [hs', commit_conns_self]
    refine ⟨⟨_, bytes, hc', hsocket' ▸ hw⟩, ?_⟩
    rw [measure, measure, hc, hc']
    change 2 * pending w'.socket + _ < 2 * pending c.socket + c.machine.stepsLeft c.point
    rw [hsocket', hm]
    exact Nat.add_lt_add_left hlower _

/-- A label either is a step of the thread and lowers the measure of its connection, or leaves
the connection as it is. -/
theorem measure_offer (hok : s.Ok) (hstreams : s.Streams t) (hlooping : s.Looping t) (act : Act) :
    (s.takesStep grain t act = true ∧ (offer (Broker.step grain) s act).Streams t ∧
      (offer (Broker.step grain) s act).measure t < s.measure t) ∨
    (s.takesStep grain t act = false ∧
      (offer (Broker.step grain) s act).conns t = s.conns t) := by
  obtain ⟨c, hc, hrunning⟩ := hlooping
  cases hstep : Broker.step grain s act with
  | error reason =>
    right
    rw [offer_of_error hstep]
    refine ⟨?_, rfl⟩
    cases act <;> simp only [takesStep, hstep]
  | ok s' =>
    rw [offer_of_ok hstep]
    by_cases hact : ∃ writes, act = .run t writes
    · left
      obtain ⟨writes, rfl⟩ := hact
      exact ⟨by simp [takesStep, hstep], measure_step hok hstreams hstep⟩
    · right
      refine ⟨?_, (conns_kept hc hrunning (not_exists.mp hact) hstep).trans hc.symm⟩
      cases act with
      | run u writes =>
        simp only [takesStep, hstep]
        exact decide_eq_false fun hu => hact ⟨writes, by rw [hu]⟩
      | _ => simp only [takesStep]

/-- A connection whose loop is not over goes on. -/
theorem looping_of_streams (hstreams : s.Streams t) (hgoes : ¬ s.LoopOver grain t) :
    s.Looping t := by
  obtain ⟨c, _, hc, -⟩ := hstreams
  exact ⟨c, hc, fun hm => hgoes (.inl ⟨c, hc, .inl hm⟩), fun hm => hgoes (.inl ⟨c, hc, .inr hm⟩)⟩

/-- The stream stays finite as long as the loop goes on. -/
theorem Streams.offer (hstreams : s.Streams t) (hok : s.Ok) (hlooping : s.Looping t)
    (act : Act) : (Foundations.offer (Broker.step grain) s act).Streams t := by
  rcases measure_offer hok hstreams hlooping act with ⟨-, hnext, -⟩ | ⟨-, hsame⟩
  · exact hnext
  · rwa [Streams, hsame]

section Runs

variable {schedule : ℕ → Act}

/-- As long as its loop goes on, the thread is scheduled again. -/
def Scheduled (grain : Grain) (s : Broker) (t : ℤ) (schedule : ℕ → Act) : Prop :=
  ∀ n, (∀ k, k ≤ n → (Foundations.follow (Broker.step grain) schedule s k).Looping t) →
    ∃ k writes, n ≤ k ∧ schedule k = .run t writes

/-- The calls of `write` in the step return to the thread, and none of any thread meets a client
that has gone. -/
def WritesReturn (t : ℤ) : Act → Prop
  | .run u writes => ∀ result ∈ writes, result ≠ .brokenPipe ∧ (u = t → result ≠ .blocked)
  | _ => True

/-- As long as its loop goes on, each call of `q_dequeue_rr` returns to the thread. -/
def CallsReturn (grain : Grain) (s : Broker) (t : ℤ) (schedule : ℕ → Act) : Prop :=
  ∀ n, (∀ k, k ≤ n → (Foundations.follow (Broker.step grain) schedule s k).Looping t) →
    (Foundations.follow (Broker.step grain) schedule s n).InDequeue t →
    ∃ k, n ≤ k ∧ ¬ (Foundations.follow (Broker.step grain) schedule s k).InDequeue t

/-- While the thread is in its loop its socket stays a stream. -/
theorem Streams.follow (hstreams : s.Streams t)
    (hok : ∀ n, (Foundations.follow (Broker.step grain) schedule s n).Ok) {n : ℕ}
    (hlooping : ∀ k, k < n → (Foundations.follow (Broker.step grain) schedule s k).Looping t) :
    (Foundations.follow (Broker.step grain) schedule s n).Streams t := by
  induction n with
  | zero => exact hstreams
  | succ n ih =>
    have hbefore := ih fun k hk => hlooping k (by omega)
    exact hbefore.offer (hok n) (hlooping n (Nat.lt_succ_self n)) _

/-- The steps of the thread are bounded by its input. -/
theorem count_steps_le (hstreams : s.Streams t)
    (hok : ∀ n, (follow (Broker.step grain) schedule s n).Ok) {n : ℕ}
    (hlooping : ∀ k, k < n → (follow (Broker.step grain) schedule s k).Looping t) :
    Nat.count (fun k => (follow (Broker.step grain) schedule s k).takesStep grain t (schedule k) =
      true) n ≤ s.measure t := by
  have hcount := count_add_le_of_descent (n := n)
    (r := fun n => (follow (Broker.step grain) schedule s n).measure t)
    (p := fun k => (follow (Broker.step grain) schedule s k).takesStep grain t (schedule k) = true)
    (fun k hk => ?_)
  · exact le_trans (Nat.le_add_right _ _) hcount
  · have hbefore := hstreams.follow hok fun j (hj : j < k) => hlooping j (by omega)
    rcases measure_offer (hok k) hbefore (hlooping k hk) (schedule k) with
      ⟨htakes, -, hlower⟩ | ⟨hidle, hsame⟩
    · rw [htakes, if_pos rfl]
      exact hlower
    · rw [hidle, follow, measure, hsame]
      exact le_rfl

/-- Whatever a call that returns says, it is no reason to stop. -/
theorem stop_eq_none {u : ℤ} {result : WriteResult}
    (h : result ≠ .brokenPipe ∧ (u = u → result ≠ .blocked)) : result.stop = none := by
  cases result with
  | returned n => rfl
  | blocked => exact absurd rfl (h.2 rfl)
  | brokenPipe => exact absurd rfl h.1

/-- A thread that gets its turns and is kept neither in `q_dequeue_rr` nor in `write` comes to
the end of its loop. -/
theorem exists_loopOver (hstreams : s.Streams t)
    (hok : ∀ n, (follow (Broker.step grain) schedule s n).Ok)
    (hwrites : ∀ n, WritesReturn t (schedule n))
    (hturns : s.Scheduled grain t schedule) (hreturns : s.CallsReturn grain t schedule) :
    ∃ n, (follow (Broker.step grain) schedule s n).LoopOver grain t := by
  by_contra hnever
  have hgoes : ∀ n, ¬ (follow (Broker.step grain) schedule s n).LoopOver grain t :=
    fun n hn => hnever ⟨n, hn⟩
  have hstream : ∀ n, (follow (Broker.step grain) schedule s n).Streams t := by
    intro n
    induction n with
    | zero => exact hstreams
    | succ n ih => exact ih.offer (hok n) (looping_of_streams ih (hgoes n)) _
  have hlooping := fun n => looping_of_streams (hstream n) (hgoes n)
  obtain ⟨n, hsettled⟩ : ∃ n, ∀ k, n ≤ k →
      (follow (Broker.step grain) schedule s k).measure t =
        (follow (Broker.step grain) schedule s n).measure t := by
    apply exists_settled
    intro n
    rcases measure_offer (hok n) (hstream n) (hlooping n) (schedule n) with ⟨-, -, hlower⟩ | ⟨-, hsame⟩
    · exact Nat.le_of_lt hlower
    · rw [follow, measure, measure, hsame]
  -- a measure that has settled leaves the connection where it is
  have hstays : ∀ d, (follow (Broker.step grain) schedule s (n + d)).conns t =
      (follow (Broker.step grain) schedule s n).conns t := by
    intro d
    induction d with
    | zero => rfl
    | succ d ih =>
      rcases measure_offer (hok (n + d)) (hstream _) (hlooping _) (schedule (n + d)) with
        ⟨-, -, hlower⟩ | ⟨-, hsame⟩
      · have hequal := (hsettled (n + d + 1) (by omega)).trans (hsettled (n + d) (by omega)).symm
        exact absurd hlower (by rw [← follow, hequal]; exact lt_irrefl _)
      · exact hsame.trans ih
  obtain ⟨k, writes, hk, hturn⟩ := hturns n fun k _ => hlooping k
  obtain ⟨d, rfl⟩ := Nat.exists_eq_add_of_le hk
  have hall : ∀ result ∈ writes, result.stop = none := by
    have hreturn := hwrites (n + d)
    rw [hturn] at hreturn
    exact fun result hresult => stop_eq_none (hreturn result hresult)
  cases hstep : Broker.step grain (follow (Broker.step grain) schedule s (n + d)) (.run t) with
  | ok s' =>
    have hlower := (measure_step (hok (n + d)) (hstream _) hstep).2
    have hnext : follow (Broker.step grain) schedule s (n + d + 1) = s' := by
      rw [follow, hturn, offer_of_ok ((step_run_returns hall).trans hstep)]
    have hequal := (hsettled (n + d + 1) (by omega)).trans (hsettled (n + d) (by omega)).symm
    rw [hnext] at hequal
    omega
  | error reason =>
    obtain ⟨c, hc, hrunning⟩ := hlooping (n + d)
    have hdequeue : c.machine = waitValueDequeue := by
      by_contra hm
      cases haction : actions c.machine ((follow (Broker.step grain) schedule s (n + d)).world c) with
      | ok result =>
        rw [step_run_of_ok hc hm hrunning haction] at hstep
        cases hstep
      | error reason' =>
        exact hgoes (n + d) (.inr ⟨reason', step_run_of_error hc hm hrunning haction grain,
          (hok (n + d)).handler_stops hc hm haction⟩)
    obtain ⟨j, hj, hleft⟩ := hreturns (n + d) (fun k _ => hlooping k) ⟨c, hc, hdequeue⟩
    obtain ⟨e, rfl⟩ := Nat.exists_eq_add_of_le (hk.trans hj)
    exact hleft ⟨c, (hstays e).trans ((hstays d).symm.trans hc), hdequeue⟩

/-- Up to the end of a loop the loop goes on. -/
theorem looping_before (hstreams : s.Streams t)
    (hok : ∀ n, (follow (Broker.step grain) schedule s n).Ok) {n : ℕ}
    (hgoes : ∀ k, k < n → ¬ (follow (Broker.step grain) schedule s k).LoopOver grain t) :
    ∀ k, k < n → (follow (Broker.step grain) schedule s k).Looping t := by
  induction n with
  | zero => exact fun k hk => absurd hk (Nat.not_lt_zero k)
  | succ n ih =>
    intro k hk
    have hbefore := ih fun k hk => hgoes k (by omega)
    rcases Nat.lt_succ_iff_lt_or_eq.mp hk with hlt | rfl
    · exact hbefore k hlt
    · exact looping_of_streams (hstreams.follow hok hbefore) (hgoes k (by omega))

/-- Every connection loop ends with its input, when `write` returns. The thread takes a number
of steps that the bytes of the client bound, never with a state outside the array of handlers;
and when it gets its turns and is kept neither in `q_dequeue_rr` nor in `write`, its loop comes
to an end. -/
theorem loop_ends_with_input {past : PastConsumeOkArgs}
    (h : Reaches (Broker.step grain) guard initial s)
    (hc : s.conns t = some (Conn.start t socket past)) (hw : socket.Delivers bytes)
    (schedule : ℕ → Act) :
    (∀ n, (∀ k, k < n → (follow (Broker.step grain) schedule s k).Looping t) →
      Nat.count (fun k => (follow (Broker.step grain) schedule s k).takesStep grain t (schedule k) =
        true) n ≤ 2 * bytes.length + 1) ∧
    (∀ n c, (follow (Broker.step grain) schedule s n).conns t = some c →
      c.machine.index < numStates ∧ actionsTable[c.machine.index]? = some (actions c.machine)) ∧
    ((∀ n, WritesReturn t (schedule n)) → s.Scheduled grain t schedule →
      s.CallsReturn grain t schedule →
      ∃ n, (∀ k, k < n → (follow (Broker.step grain) schedule s k).Looping t) ∧
        (follow (Broker.step grain) schedule s n).LoopOver grain t) := by
  classical
  have hok : ∀ n, (follow (Broker.step grain) schedule s n).Ok := fun n =>
    ok_of_reaches (reaches_follow (h.weaken fun _ _ _ => trivial) schedule n)
  have hstreams : s.Streams t := ⟨_, bytes, hc, hw⟩
  have hmeasure : s.measure t = 2 * bytes.length + 1 := by
    rw [measure, hc]
    change 2 * pending socket + 1 = _
    rw [pending_of_delivers hw]
  refine ⟨fun n hlooping => ?_, fun n c _ => actionsTable_index c.machine,
    fun hwrites hturns hreturns => ?_⟩
  · rw [← hmeasure]
    exact count_steps_le hstreams hok hlooping
  · have hend := exists_loopOver hstreams hok hwrites hturns hreturns
    exact ⟨Nat.find hend, looping_before hstreams hok fun k hk => Nat.find_min hend hk,
      Nat.find_spec hend⟩

end Runs

/-- A client that says hello and goes away. -/
def greeted : Broker :=
  { initial with
    conns := Function.update initial.conns 0
      (some (Conn.start 0 (Socket.chunk defaultAmqpHeader))) }

/-- The only connection of the example. -/
theorem greeted_conns :
    greeted.conns 0 = some (Conn.start 0 (Socket.chunk defaultAmqpHeader)) := by
  simp only [greeted, Function.update_self]

/-- The state of the example is reached. -/
theorem reaches_greeted : Reaches (Broker.step .fine) (fun _ _ => True) initial greeted :=
  .tail (a := .accept 0 (Socket.chunk defaultAmqpHeader)) .refl trivial rfl

/-- Three steps take its connection to FAIL. -/
theorem greeted_follow (n : ℕ) (hn : n ≤ 3) :
    ∃ c, (follow (Broker.step .fine) (fun _ => .run 0) greeted n).conns 0 = some c ∧
      c.machine = [wait, headerReceived, waitStartOk, fail].getD n fail := by
  have hobserved : ∀ n, n ≤ 3 →
      (follow (Broker.step .fine) (fun _ => .run 0) greeted n).firstConn.map Prod.fst =
        some ([wait, headerReceived, waitStartOk, fail].getD n fail) := by decide +kernel
  obtain ⟨⟨m, socket⟩, hfirst, hm⟩ := Option.map_eq_some_iff.mp (hobserved n hn)
  obtain ⟨c, hc, rfl, -⟩ := firstConn_eq_some hfirst
  exact ⟨c, hc, hm⟩

/-- Where its socket takes what it is sent, its loop ends. -/
theorem loop_ends_with_input_greeted :
    ∃ n, (∀ k, k < n → (follow (Broker.step .fine) (fun _ => .run 0) greeted k).Looping 0) ∧
      (follow (Broker.step .fine) (fun _ => .run 0) greeted n).LoopOver .fine 0 := by
  apply (loop_ends_with_input reaches_greeted greeted_conns (Socket.chunk_delivers _)
    fun _ => .run 0).2.2
  · exact fun n result hresult => by cases hresult
  · exact fun n _ => ⟨n, [], le_rfl, rfl⟩
  · intro n hlooping hdequeue
    by_cases hn : n < 3
    · obtain ⟨c, hc, hm⟩ := greeted_follow n (by omega)
      obtain ⟨d, hd, hwait⟩ := hdequeue
      obtain rfl := Option.some.inj (hc.symm.trans hd)
      rw [hwait] at hm
      have hother : ∀ n, n < 3 →
          waitValueDequeue ≠ [wait, headerReceived, waitStartOk, fail].getD n fail := by decide
      exact absurd hm (hother n hn)
    · obtain ⟨c, hc, hm⟩ := greeted_follow 3 le_rfl
      obtain ⟨d, hd, -, hrunning⟩ := hlooping 3 (by omega)
      obtain rfl := Option.some.inj (hc.symm.trans hd)
      exact absurd hm hrunning

/-- The same client has gone when its thread answers. -/
def gone : ℕ → Act
  | 0 => .run 0
  | _ + 1 => .run 0 [.brokenPipe]

/-- Where the client has gone the answer to its header is the end of the process. -/
theorem step_run_of_headerReceived {later : List WriteResult} (hc : s.conns t = some c)
    (hm : c.machine = headerReceived) :
    Broker.step grain s (.run t (.brokenPipe :: later)) = .error .brokenPipe := by
  have hsend : actions headerReceived (s.world c (.brokenPipe :: later)) = .error .brokenPipe :=
    bind_of_error (sendFrame_of_stop (by decide +kernel) rfl rfl) _
  have hthread : threadStep grain c.machine c.point (s.world c (.brokenPipe :: later)) =
      .error .brokenPipe := by
    rw [hm, threadStep_eq (by decide) (by decide)]
    exact bind_of_error hsend _
  simp only [Broker.step, hc, hthread]

/-- Where the socket takes the answer the thread goes on. -/
theorem step_run_of_headerReceived_returns (hc : s.conns t = some c)
    (hm : c.machine = headerReceived) : ∃ s', Broker.step grain s (.run t) = .ok s' := by
  obtain ⟨w', hsend⟩ : ∃ w', sendMethod ⟨ClassId.connection, MethodId.connectionStart⟩ 0
      connectionStartArgs (s.world c) = .ok ((), w') :=
    sendFrame_returns (by decide +kernel) (s.world_writesReturn c)
  have haction : actions headerReceived (s.world c) = .ok (waitStartOk, w') :=
    bind_of_ok hsend _
  exact ⟨_, step_run_of_machine hc hm (by decide) (by decide) haction grain⟩

/-- The thread reads the header and never returns from the `write` of Connection.Start. -/
theorem gone_follow (n : ℕ) : ∃ c,
    (follow (Broker.step .fine) gone greeted (n + 1)).conns 0 = some c ∧
      c.machine = headerReceived := by
  induction n with
  | zero =>
    have hfirst : (follow (Broker.step .fine) gone greeted 1).firstConn =
        some (headerReceived, []) := by decide +kernel
    obtain ⟨c, hc, hm, -⟩ := firstConn_eq_some hfirst
    exact ⟨c, hc, hm⟩
  | succ n ih =>
    obtain ⟨c, hc, hm⟩ := ih
    refine ⟨c, ?_, hm⟩
    have hstop : Broker.step .fine (follow (Broker.step .fine) gone greeted (n + 1))
        (gone (n + 1)) = .error .brokenPipe := step_run_of_headerReceived hc hm
    rw [follow, offer_of_error hstop]
    exact hc

/-- At every point its thread is about to read the header or to answer it, and either step is
possible where `write` returns. -/
theorem gone_stays (n : ℕ) : ∃ c,
    (follow (Broker.step .fine) gone greeted n).conns 0 = some c ∧
      (c.machine = wait ∨ c.machine = headerReceived) ∧
      ∃ s', Broker.step .fine (follow (Broker.step .fine) gone greeted n) (.run 0) = .ok s' := by
  cases n with
  | zero =>
    have hobserved : (exec (Broker.step .fine) greeted [.run 0]).toOption.map firstConn =
        some (some (headerReceived, [])) := by decide +kernel
    obtain ⟨s', hrun, -⟩ := exec_observed hobserved
    obtain ⟨s₁, hstep, -⟩ := exec_cons_eq_ok.mp hrun
    exact ⟨_, greeted_conns, .inl rfl, s₁, hstep⟩
  | succ n =>
    obtain ⟨c, hc, hm⟩ := gone_follow n
    exact ⟨c, hc, .inr hm, step_run_of_headerReceived_returns hc hm⟩

/-- A client says hello and has gone when the broker answers: its thread is scheduled for ever
and is never inside `q_dequeue_rr`, and its loop does not end. -/
theorem goneClient_never_ends :
    Reaches (Broker.step .fine) (fun _ _ => True) initial greeted ∧
      greeted.conns 0 = some (Conn.start 0 (Socket.chunk defaultAmqpHeader)) ∧
      (Socket.chunk defaultAmqpHeader).Delivers defaultAmqpHeader ∧
      greeted.Scheduled .fine 0 gone ∧ greeted.CallsReturn .fine 0 gone ∧
      ∀ n, ¬ (follow (Broker.step .fine) gone greeted n).LoopOver .fine 0 := by
  refine ⟨reaches_greeted, greeted_conns, Socket.chunk_delivers _,
    fun n _ => ⟨n + 1, [.brokenPipe], Nat.le_succ n, rfl⟩, fun n _ hdequeue => ?_, fun n hover => ?_⟩
  · obtain ⟨c, hc, hm, -⟩ := gone_stays n
    obtain ⟨d, hd, hwait⟩ := hdequeue
    obtain rfl := Option.some.inj (hc.symm.trans hd)
    rcases hm with hm | hm <;> cases hm.symm.trans hwait
  · obtain ⟨c, hc, hm, s', hstep⟩ := gone_stays n
    rcases hover with ⟨d, hd, hended⟩ | ⟨reason, hstop, -⟩
    · obtain rfl := Option.some.inj (hc.symm.trans hd)
      rcases hm with hm | hm <;> rcases hended with hended | hended <;> cases hm.symm.trans hended
    · cases hstep.symm.trans hstop

end Broker

end AmqpBroker
