import AmqpBroker.Verification.Invariant
import AmqpBroker.Verification.Sessions
import AmqpBroker.Verification.Stops

/-!
# Handlers without a queue

A handler stops at a NULL queue only in a state that uses the chosen queue, and only when
none was chosen. `get_queue` chooses none for a name that nobody declared, and nothing
checks its result, so the queue is there in every run that declares its names first.
-/

namespace AmqpBroker

open Foundations Program MachineState

/-- What a state reads of its next frame before it looks at the method. -/
def readArriving : MachineState → Action (Option MethodHeader)
  | waitFunctional => readFrame
  | waitPublishContent => do
    match ← readMessageHeader with
    | none => pure none
    | some messageHeader =>
      if messageHeader.msgType = MsgFormat.method then readMethod (toInt messageHeader.length)
      else pure none
  | _ => pure none

/-- The parser of the name by which a method chooses a queue that should exist. -/
def nameParser (m : MachineState) (method : MethodHeader) : Option (Action (List UInt8)) :=
  if method = publishMethod then some parseBasicPublishArgs
  else if method = consumeMethod ∧ m = waitFunctional then some parseBasicConsumeArgs
  else none

/-- The name of the Basic.Publish or Basic.Consume that a state accepts from its next frame. -/
def arrivingName (m : MachineState) (w : World) : Option (List UInt8) :=
  match readArriving m w with
  | .ok (some method, v) =>
    match nameParser m method with
    | none => none
    | some parse =>
      match parse v with
      | .ok (name, _) => some name
      | .error _ => none
  | _ => none

/-- The step accepts no Basic.Publish and no Basic.Consume that names an undeclared queue. -/
def DeclaredFirst (s : Broker) : Act → Prop
  | .run t _ => ∀ c ∈ s.conns t, ∀ name ∈ arrivingName c.machine (s.world c),
      s.store.queueOf name ≠ none
  | _ => True

instance (s : Broker) : DecidablePred (DeclaredFirst s)
  | .run t _ => inferInstanceAs (Decidable (∀ c ∈ s.conns t,
      ∀ name ∈ arrivingName c.machine (s.world c), s.store.queueOf name ≠ none))
  | .accept _ _ _ => isTrue trivial
  | .close _ => isTrue trivial
  | .spurious _ => isTrue trivial

/-- Every queue was created, and every state that uses a queue has chosen one. -/
structure Broker.Chosen (s : Broker) : Prop where
  created : ∀ name p, s.store.queueOf name = some p →
    ∃ t, (t, Event.createQueue name p) ∈ s.history
  chosen : ∀ t c, s.conns t = some c → c.machine.usesQueue = true →
    ∃ name p, c.cs.currentQueue = some p ∧ s.store.queueOf name = some p

variable {s s' : Broker} {t : ℤ} {c : Conn} {m m' : MachineState} {w w' : World} {grain : Grain}
  {point point' : DequeuePoint} {method : MethodHeader} {p : ℕ} {queue : Queue}

/-- The reason that means a NULL queue. -/
def IsNullQueue (reason : Abort) : Prop := reason = .nullQueue

instance : DecidablePred IsNullQueue := fun reason =>
  inferInstanceAs (Decidable (reason = .nullQueue))

/-- A queue that is there is not missing. -/
theorem some_ne_nullQueue (p : ℕ) : some p = none → ¬ IsNullQueue .nullQueue := nofun

/-- No sender looks at the chosen queue. -/
theorem sendFrame_avoids_nullQueue (frame : List UInt8) : Avoids IsNullQueue (sendFrame frame) :=
  avoids_sendFrame (by decide) (by decide) (by decide) frame

/-- Code that starts from the chosen queue and finds it missing had none to start from. -/
theorem currentQueue_of_nullQueue {α : Type} {f : Option ℕ → Action α}
    (h : (field (·.currentQueue) >>= f) w = .error .nullQueue)
    (hf : ∀ p, Avoids IsNullQueue (f (some p))) : w.cs.currentQueue = none := by
  rw [field_bind_apply] at h
  cases hq : w.cs.currentQueue with
  | none => rfl
  | some p =>
    rw [hq] at h
    exact absurd rfl (hf p _ _ h)

/-- A state whose handler does not use the queue never finds it missing. -/
theorem avoids_actions (hm : m.usesQueue = false) : Avoids IsNullQueue (actions m) := by
  have hrange : ¬ IsNullQueue .bufferRange := by decide
  have hawait : ∀ expected message next, Avoids IsNullQueue (awaitMethod expected message next) :=
    fun _ message _ => Avoids.bind (avoids_readFrame hrange) (avoids_option (Avoids.pure _) fun _ =>
      Avoids.ite (Avoids.bind (avoids_setError message) fun _ => Avoids.pure _) (Avoids.pure _))
  have hsend : ∀ header channel arguments next, Avoids IsNullQueue
      (sendMethod header channel arguments >>= fun _ => (pure next : Action MachineState)) :=
    fun _ _ _ _ => Avoids.bind (sendFrame_avoids_nullQueue _) fun _ => Avoids.pure _
  cases m with
  | wait =>
    refine Avoids.bind (avoids_readProtocolHeader hrange) fun good => Avoids.ite (Avoids.pure _) ?_
    exact Avoids.bind (avoids_setError _) fun _ => Avoids.pure _
  | headerReceived => exact hsend _ _ _ _
  | waitStartOk =>
    refine Avoids.bind (avoids_readMessageHeader hrange) (avoids_option ?_ fun header => ?_)
    · exact Avoids.bind (avoids_setError _) fun _ => Avoids.pure _
    · refine Avoids.bind (avoids_readMethod hrange _) (avoids_option (Avoids.pure _) fun _ => ?_)
      exact Avoids.ite (Avoids.bind (avoids_setError _) fun _ => Avoids.pure _) (Avoids.pure _)
  | startOkReceived => exact hsend _ _ _ _
  | waitTuneOk => exact hawait _ _ _
  | waitOpenConnection => exact hawait _ _ _
  | openConnectionReceived => exact hsend _ _ _ _
  | closeConnectionReceived => exact hsend _ _ _ _
  | waitOpenChannel =>
    exact Avoids.bind (avoids_readFrame hrange) (avoids_option (Avoids.pure _) fun method =>
      avoids_finishDispatch method _)
  | openChannelReceived => exact hsend _ _ _ _
  | closeChannelReceived => exact hsend _ _ _ _
  | waitFunctional =>
    exact Avoids.bind (avoids_readFrame hrange) (avoids_option (Avoids.pure _) fun method =>
      Avoids.bind (avoids_functionalSwitch method) fun _ => avoids_finishDispatch method _)
  | finished => exact Avoids.pure _
  | fail => exact Avoids.pure _
  | _ => cases hm

/-- Code that finds the queue missing found it in its first half when the second avoids that. -/
theorem nullQueue_of_bind {α β : Type} {x : Action α} {f : α → Action β}
    (h : (x >>= f) w = .error .nullQueue) (hf : ∀ a, Avoids IsNullQueue (f a)) :
    x w = .error .nullQueue := by
  rcases bind_eq_error.mp h with hfirst | ⟨a, w', -, hsecond⟩
  · exact hfirst
  · exact absurd rfl (hf a w' _ hsecond)

/-- Leaving a ring stops at NULL only without a current queue. -/
theorem unsubscribe_nullQueue (h : unsubscribe w = .error .nullQueue) :
    w.cs.currentQueue = none := by
  refine currentQueue_of_nullQueue h fun p => ?_
  exact Avoids.bind (avoids_field _) fun t => Avoids.bind (avoids_onStore (avoids_qRemoveSubscriber
    (some_ne_nullQueue p) (by decide) (by decide) t)) fun _ => avoids_record _

/-- Enqueueing stops at NULL only without a current queue. -/
theorem enqueueBody_nullQueue (h : enqueueBody w = .error .nullQueue) :
    w.cs.currentQueue = none := by
  rw [enqueueBody, field_bind_apply] at h
  rcases bind_eq_error.mp h with hstring | ⟨body, w', hstring, hrest⟩
  · exact absurd rfl (avoids_stringOf (by decide) _ w _ hstring)
  · have hsame : Silent w w' := keeps_stringOf _ _ _ _ hstring
    rw [← hsame.currentQueue]
    refine currentQueue_of_nullQueue hrest fun p => ?_
    exact Avoids.bind (avoids_onStore (avoids_qEnqueue (some_ne_nullQueue p) (by decide)
      body)) fun _ => avoids_record _

/-- A handler finds the queue missing only if it uses one and none was chosen. -/
theorem actions_nullQueue (hdequeue : m ≠ waitValueDequeue) (h : actions m w = .error .nullQueue) :
    m.usesQueue = true ∧ w.cs.currentQueue = none := by
  have hrange : ¬ IsNullQueue .bufferRange := by decide
  by_cases huses : m.usesQueue = false
  · exact absurd rfl (avoids_actions huses w _ h)
  refine ⟨by simpa using huses, ?_⟩
  have hreject : ∀ {v} {message : Action Unit}, Avoids IsNullQueue message →
      (do unsubscribe; message; pure fail : Action MachineState) v = .error .nullQueue →
        v.cs.currentQueue = none := fun hmessage hv =>
    unsubscribe_nullQueue (nullQueue_of_bind hv fun _ =>
      Avoids.bind hmessage fun _ => Avoids.pure _)
  cases m with
  | queueDeclareReceived =>
    refine currentQueue_of_nullQueue h fun p => ?_
    refine Avoids.bind (avoids_onStore (Avoids.bind (avoids_derefQueue (some_ne_nullQueue p)
      (by decide)) fun _ => Avoids.pure _)) fun _ =>
        Avoids.bind (avoids_field _) fun name => ?_
    cases name.cstring maxQueueName 0 with
    | none => exact Avoids.stop hrange
    | some name =>
      exact Avoids.bind (avoids_sendQueueDeclareOk hrange (by decide)
        (by decide) _ _ _ _) fun _ => Avoids.pure _
  | basicPublishReceived => cases h
  | waitPublishContentHeader =>
    refine absurd rfl (Avoids.bind (avoids_readMessageHeader hrange)
      (avoids_option ?_ fun header => ?_) w _ h)
    · exact Avoids.bind (avoids_setError _) fun _ => Avoids.pure _
    · exact Avoids.bind (avoids_readContentHeader hrange _) fun _ => Avoids.pure _
  | waitPublishContent =>
    rcases bind_eq_error.mp h with hread | ⟨header, w₁, hread, hrest⟩
    · exact absurd rfl (avoids_readMessageHeader hrange w _ hread)
    · have hsame : Silent w w₁ := keeps_readMessageHeader _ _ _ hread
      rw [← hsame.currentQueue]
      cases header with
      | none => cases hrest
      | some header =>
        simp only at hrest
        split at hrest
        · refine absurd rfl (Avoids.bind (avoids_readMethod hrange _)
            (avoids_option ?_ fun method => ?_) w₁ _ hrest)
          · exact Avoids.bind (avoids_setError _) fun _ => Avoids.pure _
          · exact Avoids.bind (avoids_publishContentSwitch method) fun _ =>
              avoids_finishDispatch method _
        · split at hrest
          · rcases bind_eq_error.mp hrest with hbody | ⟨_, w₂, hbody, hrest⟩
            · exact absurd rfl (avoids_readBody hrange (by decide) _ w₁ _ hbody)
            · have hsame₂ : Silent w₁ w₂ := keeps_readBody _ _ _ _ hbody
              rw [← hsame₂.currentQueue]
              exact enqueueBody_nullQueue (nullQueue_of_bind hrest fun _ => Avoids.pure _)
          · cases hrest
  | basicConsumeReceived =>
    refine currentQueue_of_nullQueue h fun p => ?_
    refine Avoids.bind (avoids_field _) fun t => Avoids.bind (avoids_onStore (avoids_onRing
      (some_ne_nullQueue p) (by decide) fun rr reason hadd => ?_)) fun _ =>
        Avoids.bind (avoids_record _) fun _ => Avoids.bind (avoids_field _) fun _ =>
          Avoids.bind (sendFrame_avoids_nullQueue _) fun _ => Avoids.pure _
    rw [addSubscriber_eq_error (map_eq_error hadd)]
    decide
  | waitValueDequeue => exact absurd rfl hdequeue
  | valueDequeueReceived =>
    have hsends : Avoids IsNullQueue (actions valueDequeueReceived) :=
      Avoids.bind (avoids_field _) fun _ => Avoids.bind (avoids_stringOf hrange _) fun _ =>
        Avoids.bind (sendFrame_avoids_nullQueue _) fun _ => Avoids.bind (sendFrame_avoids_nullQueue _)
          fun _ => Avoids.bind (sendFrame_avoids_nullQueue _) fun _ => Avoids.pure _
    exact absurd rfl (hsends w _ h)
  | waitConsumeAck =>
    rcases bind_eq_error.mp h with hread | ⟨header, w₁, hread, hrest⟩
    · exact absurd rfl (avoids_readMessageHeader hrange w _ hread)
    · have hsame : Silent w w₁ := keeps_readMessageHeader _ _ _ hread
      rw [← hsame.currentQueue]
      cases header with
      | none => exact hreject (avoids_setError _) hrest
      | some header =>
        rcases bind_eq_error.mp hrest with hmethod | ⟨method, w₂, hmethod, hrest⟩
        · exact absurd rfl (avoids_readMethod hrange _ w₁ _ hmethod)
        · have hquiet := (readMethod_outcome hmethod).quiet
          rw [← hquiet.currentQueue]
          cases method with
          | none => exact hreject (avoids_setError _) hrest
          | some method =>
            simp only at hrest
            split at hrest
            · exact hreject (avoids_setError _) hrest
            · cases hrest
  | _ => exact absurd rfl huses

/-- Waiting is not a use of NULL. -/
theorem avoids_blocked {α : Type} : Avoids IsNullQueue (Program.stop .blocked : Action α) :=
  Avoids.stop (by decide)

/-- A step inside `q_dequeue_rr` finds the queue missing only if none was chosen. -/
theorem dequeueStep_nullQueue (h : dequeueStep grain point w = .error .nullQueue) :
    w.cs.currentQueue = none := by
  refine currentQueue_of_nullQueue h fun p => Avoids.bind (avoids_field _) fun t => ?_
  have hderef := avoids_derefQueue (some_ne_nullQueue p) (by decide)
  have htest : ∀ view : ℕ × Queue → Bool, Avoids IsNullQueue
      (onStore (derefQueue (some p) >>= fun cell => pure (view cell))) :=
    fun view => avoids_onStore (Avoids.bind hderef fun _ => Avoids.pure _)
  have hsleep : Avoids IsNullQueue (onStore (sleepOnRound (some p) t)) := by
    refine avoids_onStore (avoids_onRing (some_ne_nullQueue p) (by decide) ?_)
    intro rr reason hrun
    rw [sleepRound_eq_error (map_eq_error hrun)]
    decide
  cases point with
  | testRound =>
    refine Avoids.bind (htest _) fun turn => Avoids.ite (Avoids.pure _) (Avoids.ite (Avoids.pure _) ?_)
    exact Avoids.bind hsleep fun _ => Avoids.pure _
  | sleepRound => exact Avoids.bind hsleep fun _ => Avoids.pure _
  | wakeRound =>
    exact Avoids.bind (htest _) fun asleep => Avoids.ite avoids_blocked (Avoids.pure _)
  | testMsg => exact Avoids.bind (htest _) fun _ => Avoids.ite (Avoids.pure _) (Avoids.pure _)
  | sleepMsg =>
    exact Avoids.bind (avoids_onStore (Avoids.bind hderef fun _ => Avoids.update _)) fun _ =>
      Avoids.pure _
  | wakeMsg =>
    exact Avoids.bind (htest _) fun asleep => Avoids.ite avoids_blocked (Avoids.pure _)
  | dequeue =>
    refine Avoids.bind (Avoids.bind (avoids_onStore ?_) fun taken =>
      Avoids.bind (avoids_record _) fun _ => ?_) fun _ => Avoids.pure _
    · refine Avoids.bind hderef fun cell => ?_
      obtain ⟨q, queue⟩ := cell
      simp only
      cases queue.lastNode with
      | none => exact Avoids.pure _
      | some last =>
        exact Avoids.bind (avoids_derefNode (by decide) last) fun _ =>
          Avoids.bind (Avoids.update _) fun _ => Avoids.bind (Avoids.update _) fun _ => Avoids.pure _
    · cases taken with
      | none => exact Avoids.pure _
      | some item =>
        exact Avoids.bind (avoids_checkRange (by decide) _ _) fun _ => avoids_assign _
  | nextThread =>
    refine Avoids.bind (avoids_onStore (avoids_onRing (some_ne_nullQueue p)
      (by decide) ?_)) fun _ => Avoids.pure _
    intro rr reason hrun
    rw [nextThread_eq_error hrun]
    decide

/-- A wakeup finds the queue missing only if none was chosen. -/
theorem wakeSpuriously_nullQueue (h : wakeSpuriously point w = .error .nullQueue) :
    w.cs.currentQueue = none := by
  refine currentQueue_of_nullQueue h fun p => Avoids.bind (avoids_field _) fun t => ?_
  have hderef := avoids_derefQueue (some_ne_nullQueue p) (by decide)
  cases point with
  | wakeRound =>
    exact avoids_onStore (avoids_onRing (some_ne_nullQueue p) (by decide) nofun)
  | wakeMsg =>
    exact Avoids.bind (avoids_onStore hderef) fun _ => avoids_onStore (Avoids.update _)
  | testRound => exact avoids_blocked
  | sleepRound => exact avoids_blocked
  | testMsg => exact avoids_blocked
  | sleepMsg => exact avoids_blocked
  | dequeue => exact avoids_blocked
  | nextThread => exact avoids_blocked

/-- A thread finds the queue missing only in a state that uses it, with none chosen. -/
theorem step_run_nullQueue (hc : s.conns t = some c)
    (h : Broker.step grain s (.run t) = .error .nullQueue) :
    c.machine.usesQueue = true ∧ c.cs.currentQueue = none := by
  by_cases hdequeue : c.machine = waitValueDequeue
  · refine ⟨by rw [hdequeue]; rfl, ?_⟩
    simp only [Broker.step, hc, hdequeue] at h
    cases hrun : dequeueStep grain c.point (s.world c) with
    | ok result =>
      simp only [threadStep, hrun] at h
      cases h
    | error reason =>
      simp only [threadStep, hrun] at h
      cases h
      exact dequeueStep_nullQueue hrun
  · by_cases hrunning : c.machine ≠ finished ∧ c.machine ≠ fail
    · cases hrun : actions c.machine (s.world c) with
      | ok result =>
        rw [step_run_of_ok hc hdequeue hrunning hrun] at h
        cases h
      | error reason =>
        rw [step_run_of_error hc hdequeue hrunning hrun] at h
        cases h
        exact actions_nullQueue hdequeue hrun
    · simp only [Broker.step, hc] at h
      rcases not_and_or.mp hrunning with hm | hm
      · rw [Decidable.not_not.mp hm] at h
        cases h
      · rw [Decidable.not_not.mp hm] at h
        cases h

/-- A step finds the queue missing only in a state that uses it, with none chosen. -/
theorem step_nullQueue {act : Act} (h : Broker.step grain s act = .error .nullQueue) :
    ∃ t c, s.conns t = some c ∧ c.machine.usesQueue = true ∧ c.cs.currentQueue = none := by
  cases act with
  | accept t socket past =>
    simp only [Broker.step] at h
    split at h
    · cases h
    · cases h
  | run t writes =>
    have hwrites : ¬ ∃ result ∈ writes, result.stop = some .nullQueue := by
      rintro ⟨result, -, hstop⟩
      have hnull : IsNullQueue .nullQueue := rfl
      exact WriteResult.not_of_stop (by decide) (by decide) hstop hnull
    replace h := (Broker.step_run_eq_error h).resolve_left hwrites
    cases hc : s.conns t with
    | none =>
      simp only [Broker.step, hc] at h
      cases h
    | some c => exact ⟨t, c, hc, step_run_nullQueue hc h⟩
  | close t =>
    cases hc : s.conns t with
    | none =>
      simp only [Broker.step, hc] at h
      cases h
    | some c =>
      simp only [Broker.step, hc] at h
      split at h
      · cases h
      · cases h
  | spurious t =>
    cases hc : s.conns t with
    | none =>
      simp only [Broker.step, hc] at h
      cases h
    | some c =>
      simp only [Broker.step, hc] at h
      split at h
      · rename_i hm
        refine ⟨t, c, hc, by rw [hm]; rfl, ?_⟩
        cases hrun : wakeSpuriously c.point (s.world c) with
        | ok result =>
          rw [hrun] at h
          cases h
        | error reason =>
          rw [hrun] at h
          cases h
          exact wakeSpuriously_nullQueue hrun
      · cases h

/-- The parsers of queue names leave the shared memory alone. -/
theorem nameParser_store {parse : Action (List UInt8)} {name : List UInt8}
    (hparse : nameParser m method = some parse) (h : parse w = .ok (name, w')) :
    w'.store = w.store := by
  unfold nameParser at hparse
  split_ifs at hparse
  · obtain rfl := Option.some.inj hparse
    obtain ⟨queueName, -, rfl⟩ := parseBasicPublishArgs_eq_ok h
    rfl
  · obtain rfl := Option.some.inj hparse
    obtain ⟨queueName, -, rfl⟩ := parseBasicConsumeArgs_eq_ok h
    rfl

/-- The queue is chosen by the name that the arriving method is parsed as. -/
def ChosenBy (m : MachineState) (method : MethodHeader) (w w' : World) : Prop :=
  ∃ parse name v, nameParser m method = some parse ∧ parse w = .ok (name, v) ∧
    selectQueue name v = .ok ((), w')

/-- Basic.Publish chooses the queue of its routing key. -/
theorem chosenBy_publish {m' : MachineState} (hclass : method.classId = ClassId.basic)
    (hid : method.methodId = MethodId.basicPublish)
    (h : (do selectQueue (← parseBasicPublishArgs); pure basicPublishReceived :
      Action MachineState) w = .ok (m', w')) : ChosenBy m method w w' := by
  have hmethod : method = publishMethod := by
    cases method
    simp only at hclass hid
    rw [hclass, hid, publishMethod]
  obtain ⟨name, v, hparse, h⟩ := bind_eq_ok.mp h
  obtain ⟨_, v', hselect, h⟩ := bind_eq_ok.mp h
  cases h
  exact ⟨_, name, v, by rw [nameParser, if_pos hmethod], hparse, hselect⟩

/-- WAIT_FUNCTIONAL chooses a queue by the method that it read. -/
theorem functionalSwitch_chosenBy (hm : m' = basicPublishReceived ∨ m' = basicConsumeReceived)
    (h : functionalSwitch method w = .ok (m', w')) : ChosenBy waitFunctional method w w' := by
  have hplain : ∀ next, next ∈ quietNext waitFunctional →
      (pure next : Action MachineState) w = .ok (m', w') → ChosenBy waitFunctional method w w' := by
    intro next hnext hpure
    cases hpure
    rcases hm with rfl | rfl
    · simp [quietNext] at hnext
    · simp [quietNext] at hnext
  unfold functionalSwitch at h
  split at h
  · split at h
    · obtain ⟨_, v, -, h⟩ := bind_eq_ok.mp h
      cases h
      rcases hm with hm | hm <;> cases hm
    · refine hplain _ ?_ h
      split_ifs <;> simp [quietNext]
  · split at h
    · rename_i hbasic
      split at h
      · rename_i hpublish
        exact chosenBy_publish hbasic hpublish h
      · split at h
        · rename_i hpublish hconsume
          have hmethod : method = consumeMethod := by
            cases method
            simp only at hbasic hconsume
            rw [hbasic, hconsume, consumeMethod]
          have hother : method ≠ publishMethod := by
            rw [hmethod]
            decide
          obtain ⟨name, v, hparse, h⟩ := bind_eq_ok.mp h
          obtain ⟨_, v', hselect, h⟩ := bind_eq_ok.mp h
          cases h
          exact ⟨_, name, v, by rw [nameParser, if_neg hother, if_pos ⟨hmethod, rfl⟩], hparse,
            hselect⟩
        · refine hplain _ ?_ h
          split_ifs <;> simp [quietNext]
    · refine hplain _ ?_ h
      split_ifs <;> simp [quietNext]

/-- WAIT_PUBLISH_CONTENT chooses a queue by the method that it read. -/
theorem publishContentSwitch_chosenBy (hm : m' = basicPublishReceived)
    (h : publishContentSwitch method w = .ok (m', w')) :
    ChosenBy waitPublishContent method w w' := by
  subst hm
  unfold publishContentSwitch at h
  split at h
  · split at h <;> cases h
  · split at h
    · rename_i hbasic
      split at h
      · rename_i hpublish
        exact chosenBy_publish hbasic hpublish h
      · cases h
    · split at h
      · split at h <;> cases h
      · cases h

/-- The queue in `w'` is that of the name which the next frame of the state is parsed as. -/
def ArrivesNamed (m : MachineState) (w w' : World) : Prop :=
  ∃ name, arrivingName m w = some name ∧ w'.cs.currentQueue = w.store.queueOf name

/-- A choice comes from the frame that arrives. -/
theorem ChosenBy.arrives {v v' : World} (hpool : PoolOk w.store) (hstore : v.store = w.store)
    (hread : readArriving m w = .ok (some method, v)) (h : ChosenBy m method v v')
    (hsilent : Silent v' w') : ArrivesNamed m w w' := by
  obtain ⟨parse, name, v₁, hparser, hparse, hselect⟩ := h
  obtain ⟨q, hget, hv'⟩ := selectQueue_eq_ok hselect
  rw [nameParser_store hparser hparse, hstore] at hget
  refine ⟨name, by simp only [arrivingName, hread, hparser, hparse], ?_⟩
  rw [hsilent.currentQueue, hv', ← (getQueue_eq_ok hpool hget).1]

/-- A handler that accepts a Basic.Publish or a Basic.Consume chooses the queue of its name. -/
theorem arrivesNamed_of_actions (hpool : PoolOk w.store)
    (hfrom : m = waitFunctional ∨ m = waitPublishContent)
    (hm : m' = basicPublishReceived ∨ (m = waitFunctional ∧ m' = basicConsumeReceived))
    (h : actions m w = .ok (m', w')) : ArrivesNamed m w w' := by
  have hne : m' ≠ fail ∧ m' ≠ waitPublishContent := by
    rcases hm with rfl | ⟨-, rfl⟩
    · decide
    · decide
  rcases hfrom with rfl | rfl
  · obtain ⟨result, v, hread, h⟩ := bind_eq_ok.mp h
    cases result with
    | none =>
      cases h
      exact absurd rfl hne.1
    | some method =>
      obtain ⟨next, v', hswitch, h⟩ := bind_eq_ok.mp h
      obtain ⟨rfl, hsilent⟩ := finishDispatch_result h
      exact (functionalSwitch_chosenBy (hm.imp_right And.right) hswitch).arrives hpool
        (readFrame_outcome hread).quiet.store hread hsilent
  · obtain ⟨header, v, hread, h⟩ := bind_eq_ok.mp h
    have hsame : Silent w v := keeps_readMessageHeader _ _ _ hread
    cases header with
    | none =>
      cases h
      exact absurd rfl hne.1
    | some header =>
      simp only at h
      split at h
      · rename_i htype
        obtain ⟨result, v₁, hmethod, h⟩ := bind_eq_ok.mp h
        cases result with
        | none =>
          cases h
          exact absurd rfl hne.1
        | some method =>
          obtain ⟨next, v', hswitch, h⟩ := bind_eq_ok.mp h
          obtain ⟨rfl, hsilent⟩ := finishDispatch_result h
          have harriving : readArriving waitPublishContent w = .ok (some method, v₁) := by
            rw [readArriving, bind_of_ok hread]
            simp only [if_pos htype]
            exact hmethod
          have hpublish : m' = basicPublishReceived := hm.resolve_right fun hc => nomatch hc.1
          exact (publishContentSwitch_chosenBy hpublish hswitch).arrives hpool
            ((readMethod_outcome hmethod).quiet.store.trans hsame.store) harriving hsilent
      · split at h
        · obtain ⟨_, v₁, -, h⟩ := bind_eq_ok.mp h
          obtain ⟨_, v₂, -, h⟩ := bind_eq_ok.mp h
          cases h
          exact absurd rfl hne.2
        · cases h
          exact absurd rfl hne.1

/-- A quiet edge leads to a state that uses the queue only from one that does. -/
theorem quietNext_usesQueue (h : m' ∈ quietNext m) (hm' : m'.usesQueue = true) :
    m.usesQueue = true := by
  cases m <;> simp only [quietNext, List.mem_cons, List.not_mem_nil, or_false] at h <;>
    rcases h with rfl | rfl | rfl <;> first | rfl | cases hm'

namespace Broker

/-- What a step of one thread has to keep. -/
theorem Chosen.commit (h : s.Chosen)
    (hcreated : ∀ name p, w.store.queueOf name = some p →
      s.store.queueOf name = some p ∨ Event.createQueue name p ∈ w.trace)
    (hgrow : ∀ name p, s.store.queueOf name = some p → w.store.queueOf name = some p)
    (huses : m.usesQueue = true →
      ∃ name p, w.cs.currentQueue = some p ∧ w.store.queueOf name = some p) :
    (s.commit t m point w).Chosen := by
  constructor
  · intro name p hp
    rcases hcreated name p hp with hold | hnew
    · obtain ⟨t', hmem⟩ := h.created name p hold
      exact ⟨t', List.mem_append_left _ hmem⟩
    · exact ⟨t, List.mem_append_right _ (List.mem_map_of_mem hnew)⟩
  · intro t' c' hc' hm
    by_cases ht : t' = t
    · subst ht
      rw [commit_conns_self] at hc'
      obtain rfl := Option.some.inj hc'
      exact huses hm
    · rw [commit_conns_of_ne _ ht] at hc'
      obtain ⟨name, p, hp, hname⟩ := h.chosen t' c' hc' hm
      exact ⟨name, p, hp, hgrow name p hname⟩

/-- A step that leaves the pool, the chosen queue and its use alone. -/
theorem Chosen.commit_same (h : s.Chosen) (hc : s.conns t = some c)
    (hqueueOf : ∀ name, w.store.queueOf name = s.store.queueOf name)
    (hqueue : w.cs.currentQueue = c.cs.currentQueue)
    (huses : m.usesQueue = true → c.machine.usesQueue = true) : (s.commit t m point w).Chosen := by
  apply h.commit
  · intro name p hp
    exact Or.inl (by rw [← hqueueOf, hp])
  · intro name p hp
    rw [hqueueOf, hp]
  · intro hm
    obtain ⟨name, p, hp, hname⟩ := h.chosen t c hc (huses hm)
    exact ⟨name, p, by rw [hqueue, hp], by rw [hqueueOf, hname]⟩

/-- A step that chooses the queue of a declared name. -/
theorem Chosen.commit_arrives (h : s.Chosen) (hc : s.conns t = some c)
    (hguard : DeclaredFirst s (.run t)) (hlooked : LookedUp s.store w.store)
    (harrives : ArrivesNamed c.machine (s.world c) w) : (s.commit t m point w).Chosen := by
  obtain ⟨name, hname, hqueue⟩ := harrives
  obtain ⟨p, hp⟩ := Option.ne_none_iff_exists'.mp (hguard c hc name hname)
  apply h.commit
  · intro name' p' hp'
    exact Or.inl (by rw [← hlooked.queueOf, hp'])
  · intro name' p' hp'
    rw [hlooked.queueOf, hp']
  · intro _
    exact ⟨name, p, hqueue.trans hp, by rw [hlooked.queueOf, hp]⟩

/-- A step that declares a queue. -/
theorem Chosen.commit_declare (h : s.Chosen) {name : List UInt8} {q : ℕ}
    (hcreate : (s.store.queueOf name = some q ∧ LookedUp s.store w.store) ∨
      Inserted s.store w.store name q) (hevent : Event.createQueue name q ∈ w.trace)
    (hqueue : w.cs.currentQueue = some q) : (s.commit t m point w).Chosen := by
  rcases hcreate with ⟨hold, hlooked⟩ | hinserted
  · apply h.commit
    · intro name' p' hp'
      exact Or.inl (by rw [← hlooked.queueOf, hp'])
    · intro name' p' hp'
      rw [hlooked.queueOf, hp']
    · intro _
      exact ⟨name, q, hqueue, by rw [hlooked.queueOf, hold]⟩
  · apply h.commit
    · intro name' p' hp'
      rw [hinserted.queueOf] at hp'
      split at hp'
      · rename_i hname
        obtain rfl := Option.some.inj hp'
        exact Or.inr (hname ▸ hevent)
      · exact Or.inl hp'
    · intro name' p' hp'
      exact hinserted.keeps hp'
    · intro _
      exact ⟨name, q, hqueue, by rw [hinserted.queueOf, if_pos rfl]⟩

/-- Every handler of a step that names declared queues only keeps the invariant. -/
theorem Chosen.handler (h : s.Chosen) (hok : s.Ok) (hc : s.conns t = some c)
    (hguard : DeclaredFirst s (.run t)) (haction : actions c.machine (s.world c) = .ok (m', w'))
    (heffect : Effect c.machine (s.world c) w' m') : (s.commit t m' .testRound w').Chosen := by
  cases heffect with
  | quiet hedge hgrows =>
    exact h.commit_same hc (fun name => by rw [hgrows.store]; rfl) hgrows.currentQueue
      (quietNext_usesQueue hedge)
  | declare hfrom hselects hstore hrecorded =>
    obtain ⟨reads, htrace, -⟩ := hrecorded
    exact h.commit_declare (createQueue_eq_ok hok.pool hstore) (by simp [htrace])
      hselects.currentQueue
  | publish hfrom hselects hstore hrecorded =>
    obtain ⟨-, hlooked⟩ := getQueue_eq_ok hok.pool hstore
    exact h.commit_arrives hc hguard hlooked
      (arrivesNamed_of_actions hok.pool hfrom (Or.inl rfl) haction)
  | consume hfrom hselects hstore hrecorded =>
    obtain ⟨-, hlooked⟩ := getQueue_eq_ok hok.pool hstore
    exact h.commit_arrives hc hguard hlooked
      (arrivesNamed_of_actions hok.pool (Or.inl hfrom) (Or.inr ⟨hfrom, rfl⟩) haction)
  | enqueue hfrom hself hstore htrace =>
    obtain ⟨p, -, -, henqueued⟩ := qEnqueue_eq_ok hok.lists hstore
    exact h.commit_same hc (queueOf_congr henqueued.rings.trie) hself.currentQueue
      (fun _ => by rw [hfrom]; rfl)
  | subscribe hfrom hself hstore htrace hframes =>
    obtain ⟨p, queue, rr, -, -, -, hw⟩ := onRing_unit_eq_ok hstore
    have hlists : SameLists s.store w'.store := hw ▸ sameLists_withRing s.store p rr
    exact h.commit_same hc (queueOf_congr hlists.trie) hself.currentQueue
      (fun _ => by rw [hfrom]; rfl)
  | ack hfrom hself hstore htrace =>
    exact h.commit_same hc (fun name => by rw [hstore]; rfl) hself.currentQueue
      (fun _ => by rw [hfrom]; rfl)
  | reject hfrom hself hstore htrace hreads =>
    obtain ⟨p, queue, rr, -, -, -, hw⟩ := onRing_unit_eq_ok hstore
    have hlists : SameLists s.store w'.store := hw ▸ sameLists_withRing s.store p rr
    exact h.commit_same hc (queueOf_congr hlists.trie) hself.currentQueue nofun

/-- Every step inside `q_dequeue_rr` keeps the invariant. -/
theorem Chosen.dequeue (h : s.Chosen) (hok : s.Ok) (hc : s.conns t = some c)
    (hm : c.machine = waitValueDequeue) (hcell : s.store.queues.cells p = some queue)
    (heffect : DequeueEffect grain p queue (s.world c) w' c.point m' point') :
    (s.commit t m' point' w').Chosen := by
  have huses : c.machine.usesQueue = true := by
    rw [hm]
    rfl
  rcases dequeueEffect_kind hcell heffect with ⟨-, hsleepers, hcs, -⟩ |
    ⟨-, -, taken, hstore, hcs, -⟩ | ⟨-, -, next, rr, -, rfl⟩
  · exact h.commit_same hc (queueOf_congr hsleepers.lists.trie) (by rw [hcs]; rfl) fun _ => huses
  · obtain ⟨p', -, -, hdequeued⟩ := qDequeue_eq_ok hok.lists hstore
    obtain ⟨-, hqueue, -⟩ := afterDequeue_self (s.world c).cs taken
    exact h.commit_same hc (queueOf_congr hdequeued.rings.trie) (by rw [hcs, hqueue]; rfl)
      fun _ => huses
  · exact h.commit_same hc (queueOf_congr (sameLists_withRing s.store p rr).trie) rfl fun _ => huses

/-- Accepting and closing connections that use no queue. -/
theorem Chosen.replace (h : s.Chosen) {next : Option Conn}
    (hnext : ∀ c, next = some c → c.machine.usesQueue = false) :
    Chosen { s with conns := Function.update s.conns t next } := by
  refine ⟨h.created, fun t' c' hc' hm => ?_⟩
  rcases replaced_cases hc' with ⟨-, hnew⟩ | ⟨-, hold⟩
  · rw [hnext c' hnew] at hm
    cases hm
  · exact h.chosen t' c' hold hm

/-- Every step that names declared queues only keeps the invariant. -/
theorem Chosen.step {act : Act} (h : s.Chosen) (hok : s.Ok) (hguard : DeclaredFirst s act)
    (hstep : Broker.step grain s act = .ok s') : s'.Chosen := by
  cases step_cases hstep with
  | accept _ _ _ hs' =>
    rw [hs']
    apply h.replace
    intro c hnext
    obtain rfl := Option.some.inj hnext
    rfl
  | handler hc haction heffect hs' =>
    rw [hs']
    exact h.handler hok hc hguard haction heffect
  | dequeue hc hm hp hcell heffect hs' =>
    rw [hs']
    exact h.dequeue hok hc hm hcell heffect
  | close _ _ hs' =>
    rw [hs']
    exact h.replace of_noConn
  | spurious hc hm hp hcell hwoken hs' =>
    rw [hs']
    have hlists := (hwoken.sameButSleepers hcell).lists
    exact h.commit_same hc (queueOf_congr hlists.trie) rfl fun hm' => hm'

/-- Nobody has chosen a queue yet. -/
theorem chosen_initial : initial.Chosen where
  created name p hp := by
    obtain ⟨queue, hcell, -⟩ := poolOk_initQueuePool.named name p hp
    cases hcell
  chosen t c hc := by cases hc

/-- In every run that declares its names first, every handler that uses a queue has one that
`create_queue` put into the pool, and no step finds it missing. -/
theorem queue_never_missing (h : Reaches (Broker.step grain) DeclaredFirst initial s) :
    (∀ t c, s.conns t = some c → c.machine.usesQueue = true → ∃ name p t',
      c.cs.currentQueue = some p ∧ s.store.queueOf name = some p ∧
        (t', Event.createQueue name p) ∈ s.history) ∧
    ∀ act, Broker.step grain s act ≠ .error .nullQueue := by
  have hinvariant : s.Ok ∧ s.Chosen :=
    h.invariant (P := fun s => s.Ok ∧ s.Chosen) ⟨ok_initial, chosen_initial⟩
      fun _ _ _ hinv hguard hstep => ⟨hinv.1.step hstep, hinv.2.step hinv.1 hguard hstep⟩
  obtain ⟨-, hchosen⟩ := hinvariant
  constructor
  · intro t c hc huses
    obtain ⟨name, p, hp, hname⟩ := hchosen.chosen t c hc huses
    obtain ⟨t', hevent⟩ := hchosen.created name p hname
    exact ⟨name, p, t', hp, hname, hevent⟩
  · intro act hnull
    obtain ⟨t, c, hc, huses, hnone⟩ := step_nullQueue hnull
    obtain ⟨name, p, hp, -⟩ := hchosen.chosen t c hc huses
    rw [hnone] at hp
    cases hp

/-- A client that declares a queue and publishes to it. -/
def declareAndPublish : List Act :=
  session 0 (openingFrames ++ declareFrame [113] ++ publishFrame [] [113] ++ headerFrame 1 ++
    bodyFrame [33]) 15

/-- The guard allows a client that declares its queue first. -/
theorem queue_never_missing_declareAndPublish :
    ∃ s, guardedExec (Broker.step .fine) DeclaredFirst initial declareAndPublish = some s ∧
      s.firstConn = some (waitPublishContent, []) ∧
      (∀ t c, s.conns t = some c → c.machine.usesQueue = true → ∃ name p t',
        c.cs.currentQueue = some p ∧ s.store.queueOf name = some p ∧
          (t', Event.createQueue name p) ∈ s.history) ∧
      ∀ act, Broker.step .fine s act ≠ .error .nullQueue := by
  have hobserved : (guardedExec (Broker.step .fine) DeclaredFirst initial declareAndPublish).map
      firstConn = some (some (waitPublishContent, [])) := by decide +kernel
  obtain ⟨s, hrun, hview⟩ := Option.map_eq_some_iff.mp hobserved
  obtain ⟨hqueues, hsteps⟩ := queue_never_missing (reaches_of_guardedExec hrun)
  exact ⟨s, hrun, hview, hqueues, hsteps⟩

/-- A client that publishes to a name nobody declared. -/
def publishUndeclared : List Act :=
  session 0 (openingFrames ++ publishFrame [] [113] ++ headerFrame 1 ++ bodyFrame [33]) 12

/-- Publishing to an undeclared name runs `q_enqueue` on NULL and takes the broker down. -/
theorem publishUndeclared_nullQueue :
    ∃ s c, Reaches (Broker.step .fine) (fun _ _ => True) initial s ∧ s.conns 0 = some c ∧
      c.machine = waitPublishContent ∧ c.cs.currentQueue = none ∧
      Broker.step .fine s (.run 0) = .error .nullQueue := by
  have hobserved : (exec (Broker.step .fine) initial publishUndeclared).toOption.map
      (fun s => ((s.conns 0).map fun c => (c.machine, c.cs.currentQueue),
        stopReason (Broker.step .fine s (.run 0)))) =
          some (some (waitPublishContent, none), some .nullQueue) := by decide +kernel
  obtain ⟨s, hrun, hview⟩ := exec_observed hobserved
  obtain ⟨c, hc, heq⟩ := Option.map_eq_some_iff.mp (congrArg Prod.fst hview)
  exact ⟨s, c, reaches_of_exec hrun, hc, congrArg Prod.fst heq, congrArg Prod.snd heq,
    eq_error_of_stopReason (congrArg Prod.snd hview)⟩

end Broker

end AmqpBroker
