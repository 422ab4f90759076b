import AmqpBroker.Foundations.Simulation
import AmqpBroker.Verification.Represents

/-!
# The process is a message broker

Every step of the broker is matched by what happens at the message broker that its memory
represents: the calls that it records are the operations, in the same order, and the turn that
is passed on and the connection that starts anew are the operations that leave no call. Only a
wait that returns by itself has no counterpart there.
-/

namespace AmqpBroker

open Foundations Program MachineState

/-- The body that a BODY frame carries. -/
def framePayload (bytes : List UInt8) : List UInt8 := (bytes.drop 7).dropLast

/-- What a call of a thread is at the message broker. -/
def opOf (t : ℤ) : Event → Option SpecOp
  | .createQueue name _ => some (.declare t name)
  | .getQueue name _ => some (.select t name)
  | .qEnqueue _ _ body => some (.publish t body)
  | .qAddSubscriber _ => some (.attach t)
  | .qDequeue _ taken => taken.map fun item => .take t item.2
  | .write bytes =>
    if bytes.head? = some MsgFormat.body then some (.send t (framePayload bytes)) else none
  | .readMethod method => if method = ackMethod then some (.settle t) else none
  | .removeSubscriber _ => some (.detach t)
  | _ => none

/-- The operations that the calls of a history are. -/
def opsOf (history : List (ℤ × Event)) : List SpecOp :=
  history.filterMap fun entry => opOf entry.1 entry.2

/-- An operation that some call records. -/
def MessageOp.isCall {ν τ μ : Type} : MessageOp ν τ μ → Bool
  | .connect _ => false
  | .pass _ => false
  | _ => true

variable {s s' : Broker} {b b' : SpecBroker} {t : ℤ} {c : Conn} {m' : MachineState}
  {point' : DequeuePoint} {w' : World} {p : ℕ} {queue : Queue} {grain : Grain} {events : List Event}
  {role : Role (List UInt8) (List UInt8)}

/-- The payload of a BODY frame. -/
theorem framePayload_bodyFrame (body : List UInt8) : framePayload (bodyFrame body) = body := by
  rw [framePayload, bodyFrame, encodeFrame, List.append_assoc,
    List.drop_left' (encodeHeader_length _ _ _), List.dropLast_concat]

/-- Every call of a thread is an operation of the broker. -/
theorem isCall_of_opOf {event : Event} {op : SpecOp} (h : opOf t event = some op) :
    op.isCall = true := by
  cases event with
  | createQueue | getQueue | qEnqueue | qAddSubscriber | removeSubscriber =>
    obtain rfl := Option.some.inj h
    rfl
  | qDequeue q taken =>
    obtain ⟨item, -, rfl⟩ := Option.map_eq_some_iff.mp h
    rfl
  | write bytes =>
    simp only [opOf, Option.ite_none_right_eq_some, Option.some.injEq] at h
    rw [← h.2]
    rfl
  | readMethod method =>
    simp only [opOf, Option.ite_none_right_eq_some, Option.some.injEq] at h
    rw [← h.2]
    rfl
  | parseQueueDeclareArgs | parseBasicPublishArgs | parseBasicConsumeArgs => cases h

/-- Calls are operations that calls record. -/
theorem filter_isCall (events : List Event) :
    (events.filterMap (opOf t)).filter MessageOp.isCall = events.filterMap (opOf t) := by
  apply List.filter_eq_self.mpr
  intro op hop
  obtain ⟨event, -, hevent⟩ := List.mem_filterMap.mp hop
  exact isCall_of_opOf hevent

/-- The operations of a step come behind those of the history. -/
theorem opsOf_commit {m : MachineState} {point : DequeuePoint} {w : World} :
    opsOf (s.commit t m point w).history = opsOf s.history ++ w.trace.filterMap (opOf t) := by
  change opsOf (s.history ++ _) = _
  rw [opsOf, List.filterMap_append, List.filterMap_map]
  rfl

/-- What an agent that is not attached reads and is answered changes nothing. -/
theorem exec_quiet (hfree : ∀ name hand, b.role t ≠ .attached name hand)
    (hquiet : ∀ event ∈ events, event.IsQuiet) (hnothing : ∀ event ∈ events, event.delivers = false) :
    exec MessageBroker.step b (events.filterMap (opOf t)) = .ok b := by
  induction events with
  | nil => rfl
  | cons event rest ih =>
    have hrest := ih (fun e he => hquiet e (List.mem_cons_of_mem event he))
      fun e he => hnothing e (List.mem_cons_of_mem event he)
    rw [List.filterMap_cons]
    obtain ⟨method, rfl⟩ | ⟨bytes, rfl⟩ := hquiet event List.mem_cons_self
    · by_cases hack : method = ackMethod
      · simp only [opOf, if_pos hack]
        rw [exec_cons b _ _ (MessageBroker.Happens.settled hfree).step_eq, hrest]
      · simp only [opOf, if_neg hack]
        exact hrest
    · have hother : bytes.head? ≠ some MsgFormat.body := by
        simpa [Event.delivers] using hnothing _ List.mem_cons_self
      simp only [opOf, if_neg hother]
      exact hrest

/-- The calls of a step, done at the message broker, lead to what the memory then represents. -/
def Broker.Follows (s' : Broker) (b : SpecBroker) (t : ℤ) (events : List Event) : Prop :=
  ∃ b', exec MessageBroker.step b (events.filterMap (opOf t)) = .ok b' ∧ s'.Represents b'

namespace Broker

/-- Reads and two more calls, the second of which is an operation. -/
theorem exec_recorded {first second : Event} {op : SpecOp}
    (hrecorded : Recorded (s.world c) w' [first, second])
    (hnothing : ∀ event ∈ w'.trace, event.delivers = false)
    (hfree : ∀ name hand, b.role t ≠ .attached name hand) (hfirst : opOf t first = none)
    (hsecond : opOf t second = some op) (hstep : b.step op = .ok b') :
    exec MessageBroker.step b (w'.trace.filterMap (opOf t)) = .ok b' := by
  obtain ⟨reads, htrace, hquiet⟩ := hrecorded
  rw [htrace] at hnothing ⊢
  rw [show (s.world c).trace = [] from rfl, List.nil_append] at hnothing ⊢
  rw [List.filterMap_append]
  refine exec_append_eq_ok.mpr ⟨b, exec_quiet hfree hquiet fun event hevent =>
    hnothing event (List.mem_append_left _ hevent), ?_⟩
  simp only [List.filterMap_cons, hfirst, hsecond, List.filterMap_nil]
  exact exec_cons b op [] hstep

/-- A step that reads and answers. -/
theorem Represents.quiet (h : s.Represents b) (hc : s.conns t = some c)
    (hedge : m' ∈ quietNext c.machine) (hdeliver : c.machine ≠ valueDequeueReceived)
    (hgrows : Grows Event.IsQuiet (s.world c) w')
    (hnothing : ∀ event ∈ w'.trace, event.delivers = false) :
    (s.commit t m' .testRound w').Follows b t w'.trace := by
  have hunsubscribed : c.machine.subscribed = false ∧ m'.subscribed = false ∧
      c.machine ≠ waitValueDequeue := by
    have hsame := quietNext_subscribed hedge
    cases hm : c.machine <;> rw [hm] at hedge hsame <;> simp_all [quietNext, subscribed]
  obtain ⟨hbefore, hafter, hm⟩ := hunsubscribed
  have hplays := h.roles t c hc
  have hfree := hplays.free hbefore
  obtain ⟨events, htrace, hquiet⟩ := hgrows.trace
  refine ⟨b, exec_quiet hfree (by simpa [htrace, world] using hquiet) hnothing, ?_⟩
  refine h.commit_same (fun name => by rw [hgrows.store]; rfl) (fun p => by rw [hgrows.store]; rfl)
    (fun p queue' hcell => ⟨queue', by rwa [hgrows.store] at hcell, rfl, fun _ => id⟩)
    (fun p => ?_) (by simp) rfl ?_ fun _ _ => rfl
  · rw [pointAt_of_conn hc, if_neg fun hin => hm hin.1]
    simp
  · have hqueueOf : ∀ name, w'.store.queueOf name = s.store.queueOf name := by
      rw [hgrows.store]
      exact fun _ => rfl
    generalize hrole : b.role t = role at hplays
    cases hplays with
    | idle hnone => exact .idle (hgrows.currentQueue.trans hnone)
    | named hp hname _ =>
      exact .named (hgrows.currentQueue.trans hp) ((hqueueOf _).trans hname) hafter
    | attached _ _ hsub =>
      rw [hbefore] at hsub
      cases hsub

/-- A connection that is not subscribed comes back with its queue chosen. -/
theorem Plays.named_of_subscribed (h : s.Plays t c role) (hsub : c.machine.subscribed = false)
    (hp : c.cs.currentQueue = some p) :
    ∃ name, s.store.queueOf name = some p ∧ role = .named name := by
  cases h with
  | idle hnone =>
    rw [hp] at hnone
    cases hnone
  | named hp' hname _ =>
    obtain rfl := Option.some.inj (hp.symm.trans hp')
    exact ⟨_, hname, rfl⟩
  | attached _ _ hm =>
    rw [hsub] at hm
    cases hm

/-- A connection that is subscribed has its queue and what it holds. -/
theorem Plays.attached_of_subscribed (h : s.Plays t c role) (hsub : c.machine.subscribed = true)
    (hp : c.cs.currentQueue = some p) :
    ∃ name, s.store.queueOf name = some p ∧ role = .attached name (s.hand t) := by
  cases h with
  | idle hnone =>
    rw [hp] at hnone
    cases hnone
  | named _ _ hm =>
    rw [hsub] at hm
    cases hm
  | attached hp' hname _ =>
    obtain rfl := Option.some.inj (hp.symm.trans hp')
    exact ⟨_, hname, rfl⟩

/-- The connection looks a name up that may not be there. -/
theorem Represents.select {name : List UInt8} {first : Event} (h : s.Represents b)
    (hok : s.Ok) (hc : s.conns t = some c) (hbefore : c.machine.subscribed = false)
    (hafter : m'.subscribed = false) {q : Option ℕ} (hselects : Selects (s.world c) w' name q)
    (hstore : getQueue name s.store = .ok (q, w'.store))
    (hrecorded : Recorded (s.world c) w' [first, .getQueue name q]) (hfirst : opOf t first = none)
    (hnothing : ∀ event ∈ w'.trace, event.delivers = false) :
    (s.commit t m' .testRound w').Follows b t w'.trace := by
  obtain ⟨rfl, hlooked⟩ := getQueue_eq_ok hok.pool hstore
  have hfree := (h.roles t c hc).free hbefore
  have hm : c.machine ≠ waitValueDequeue := by
    intro hm
    rw [hm] at hbefore
    cases hbefore
  refine ⟨_, exec_recorded hrecorded hnothing hfree hfirst rfl
    (MessageBroker.Happens.select hfree).step_eq, ?_⟩
  refine h.commit_same hlooked.queueOf hlooked.sameMessages.messages
    (fun p queue' hcell => ⟨queue', by rwa [hlooked.queues] at hcell, rfl, fun _ => id⟩)
    (fun p => ?_) (by simp) rfl ?_ fun u hu => Function.update_of_ne hu _ _
  · rw [pointAt_of_conn hc, if_neg fun hin => hm hin.1]
    simp
  · change Plays _ t _ (Function.update b.role t _ t)
    rw [Function.update_self]
    cases hq : s.store.queueOf name with
    | none =>
      rw [h.absent name hq]
      exact .idle (hselects.currentQueue.trans hq)
    | some p =>
      obtain ⟨q, hb, -⟩ := h.queues name p hq
      rw [hb]
      exact .named (hselects.currentQueue.trans hq) ((hlooked.queueOf name).trans hq) hafter

/-- A queue that was just created. -/
theorem means_fresh {name : List UInt8} {q : ℕ} (hok : s.Ok)
    (hinserted : Inserted s.store w'.store name q)
    {m : MachineState} (hm : m ≠ waitValueDequeue) {point : DequeuePoint} :
    (s.commit t m point w').Means q .empty := by
  have hdead : s.store.queues.cells q = none := by
    rw [hinserted.fresh]
    exact s.store.queues.fresh _ le_rfl
  refine ⟨?_, fun queue hcell => ?_, ?_⟩
  · change [] = (w'.store.messages q).map Prod.snd
    rw [hinserted.sameMessages.messages, Store.messages, hdead]
    rfl
  · change w'.store.queues.cells q = some queue at hcell
    rw [hinserted.queues, Heap.alloc_cells, if_pos hinserted.fresh] at hcell
    obtain rfl := Option.some.inj hcell
    exact .empty _
  · refine iff_of_false (by simp [MessageQueue.empty]) ?_
    rintro ⟨i, hi⟩
    rw [pointAt_commit, if_neg fun hin => hm hin.1] at hi
    by_cases hit : i = t
    · rw [hit, Function.update_self] at hi
      cases hi
    · rw [Function.update_of_ne hit, hok.pointAt_of_dead hdead] at hi
      cases hi

/-- The connection declares a queue. -/
theorem Represents.declare {name : List UInt8} {q : ℕ} (h : s.Represents b) (hok : s.Ok)
    (hc : s.conns t = some c) (hbefore : c.machine.subscribed = false)
    (hselects : Selects (s.world c) w' name (some q))
    (hstore : createQueue name s.store = .ok (q, w'.store))
    (hrecorded : Recorded (s.world c) w' [.parseQueueDeclareArgs name, .createQueue name q])
    (hnothing : ∀ event ∈ w'.trace, event.delivers = false) :
    (s.commit t queueDeclareReceived .testRound w').Follows b t w'.trace := by
  have hfree := (h.roles t c hc).free hbefore
  have hm : c.machine ≠ waitValueDequeue := by
    intro hm
    rw [hm] at hbefore
    cases hbefore
  have hpoint : ∀ p, s.pointAt p t ≠ some .nextThread := by
    intro p
    rw [pointAt_of_conn hc, if_neg fun hin => hm hin.1]
    simp
  refine ⟨_, exec_recorded hrecorded hnothing hfree rfl rfl
    (MessageBroker.Happens.declare hfree).step_eq, ?_⟩
  have hself : ∀ {name' : List UInt8}, w'.store.queueOf name' = some q →
      (s.commit t queueDeclareReceived .testRound w').Plays t
        ⟨queueDeclareReceived, .testRound, w'.cs, w'.socket⟩ (.named name') :=
    fun hname => .named hselects.currentQueue hname rfl
  rcases createQueue_eq_ok hok.pool hstore with ⟨hold, hlooked⟩ | hinserted
  · obtain ⟨mq, hmq, -⟩ := h.queues name q hold
    refine h.commit_same hlooked.queueOf hlooked.sameMessages.messages
      (fun p queue' hcell => ⟨queue', by rwa [hlooked.queues] at hcell, rfl, fun _ => id⟩)
      hpoint (by simp) ?_ ?_ fun u hu => Function.update_of_ne hu _ _
    · change Function.update b.queues name (some ((b.queues name).getD .empty)) = b.queues
      rw [hmq]
      exact Function.update_eq_self_iff.mpr hmq.symm
    · change Plays _ t _ (Function.update b.role t _ t)
      rw [Function.update_self]
      exact hself ((hlooked.queueOf name).trans hold)
  · have hgrow : ∀ name' p, s.store.queueOf name' = some p → name' ≠ name := by
      rintro name' p hp rfl
      rw [hinserted.new] at hp
      cases hp
    refine h.commit (fun name' p hp => ?_) (fun name' hnone => ?_) (fun name' p hp => ?_) ?_
      fun u hu => Function.update_of_ne hu _ _
    · rw [hinserted.queueOf, if_neg (hgrow name' p hp), hp]
    · rw [hinserted.queueOf] at hnone
      split at hnone
      · cases hnone
      · rename_i hname
        exact (Function.update_of_ne hname _ _).trans (h.absent name' hnone)
    · rw [hinserted.queueOf] at hp
      by_cases hname : name' = name
      · subst hname
        rw [if_pos rfl] at hp
        obtain rfl := Option.some.inj hp
        refine ⟨.empty, ?_, means_fresh hok hinserted (m := queueDeclareReceived) (by decide)⟩
        change Function.update b.queues name' _ name' = _
        rw [Function.update_self, h.absent name' hinserted.new]
        rfl
      · rw [if_neg hname] at hp
        obtain ⟨mq, hmq, hmeans⟩ := h.queues name' p hp
        refine ⟨mq, (Function.update_of_ne hname _ _).trans hmq, ?_⟩
        refine hmeans.congr (hinserted.sameMessages.messages p) (fun queue' hcell => ?_)
          (dealt_commit (hpoint p) (by simp))
        obtain ⟨queue, hlive, -⟩ := hok.pool.named name' p hp
        have hne : p ≠ s.store.queues.next := by
          rintro rfl
          rw [s.store.queues.fresh _ le_rfl] at hlive
          cases hlive
        change w'.store.queues.cells p = some queue' at hcell
        rw [hinserted.queues, Heap.alloc_cells, if_neg hne] at hcell
        exact ⟨queue', hcell, rfl, fun _ => id⟩
    · change Plays _ t _ (Function.update b.role t _ t)
      rw [Function.update_self]
      exact hself (by rw [hinserted.queueOf, if_pos rfl])

/-- The connection enqueues a body. -/
theorem Represents.publish {node : ℕ} {body : List UInt8} {q : Option ℕ} (h : s.Represents b)
    (hok : s.Ok) (hc : s.conns t = some c) (hm : c.machine = waitPublishContent)
    (hself : SameSelf (s.world c) w') (hq : q = c.cs.currentQueue)
    (hstore : qEnqueue q body s.store = .ok (node, w'.store))
    (htrace : w'.trace = [.qEnqueue q node body]) :
    (s.commit t waitPublishContent .testRound w').Follows b t w'.trace := by
  obtain ⟨p, hp, -, henqueued⟩ := qEnqueue_eq_ok hok.lists hstore
  rw [hq] at hp
  have hunsubscribed : c.machine.subscribed = false := by rw [hm]; rfl
  obtain ⟨name, hname, hrole⟩ := (h.roles t c hc).named_of_subscribed hunsubscribed hp
  obtain ⟨mq, hmq, hmeans⟩ := h.queues name p hname
  have hrings : ∀ p' queue', w'.store.queues.cells p' = some queue' →
      ∃ queue, s.store.queues.cells p' = some queue ∧ queue'.rr.current = queue.rr.current ∧
        ∀ members, Subscribed queue.rr members → Subscribed queue'.rr members := by
    intro p' queue' hcell
    have hsame := henqueued.rings.rr p'
    rw [hcell] at hsame
    obtain ⟨queue, hcell', hrr⟩ := Option.map_eq_some_iff.mp hsame.symm
    exact ⟨queue, hcell', by rw [hrr], by rw [hrr]; exact fun _ => id⟩
  refine ⟨b.setQueue name { mq with messages := mq.messages ++ [body] }, ?_, ?_⟩
  · rw [htrace]
    exact exec_cons b _ [] (MessageBroker.Happens.publish hrole hmq).step_eq
  · have hqueueOf := queueOf_congr henqueued.rings.trie
    refine h.commit_queue hok.pool hc hp hname hself.currentQueue hqueueOf ⟨?_, ?_, ?_⟩
      henqueued.others (fun p' _ => hrings p') rfl ?_ fun u _ => rfl
    · change mq.messages ++ [body] = (w'.store.messages p).map Prod.snd
      rw [henqueued.messages, List.map_append, hmeans.messages]
      rfl
    · intro queue' hcell
      obtain ⟨queue, hcell', hcurrent, hring⟩ := hrings p queue' hcell
      exact (hmeans.rota queue hcell').congr hcurrent hring
    · refine hmeans.dealt.trans (dealt_commit ?_ (by simp)).symm
      rw [pointAt_of_conn hc, if_neg (by simp [hm])]
      simp
    · change Plays _ t _ (b.role t)
      rw [hrole]
      exact .named (hself.currentQueue.trans hp) ((hqueueOf name).trans hname) rfl

/-- What a step on the ring of one queue leaves of the others. -/
theorem rings_withRing {rr : RoundRobinScheduler} (hstore : w'.store = s.store.withRing p rr) {p' : ℕ}
    (hne : p' ≠ p) {queue' : Queue} (hcell : w'.store.queues.cells p' = some queue') :
    ∃ queue, s.store.queues.cells p' = some queue ∧ queue'.rr.current = queue.rr.current ∧
      ∀ members, Subscribed queue.rr members → Subscribed queue'.rr members := by
  rw [hstore, Store.withRing, Heap.modify_cells, if_neg hne] at hcell
  exact ⟨queue', hcell, rfl, fun _ => id⟩

/-- The ring of the queue itself. -/
theorem ring_withRing {rr : RoundRobinScheduler} (hstore : w'.store = s.store.withRing p rr)
    {queue' : Queue} (hcell : w'.store.queues.cells p = some queue') : queue'.rr = rr := by
  rw [hstore, Store.withRing, Heap.modify_cells, if_pos rfl] at hcell
  obtain ⟨queue, -, rfl⟩ := Option.map_eq_some_iff.mp hcell
  rfl

/-- The thread becomes a subscriber. -/
theorem Represents.attach {q : Option ℕ} {frames : List Event} (h : s.Represents b) (hok : s.Ok)
    (hacc : s.Accounted) (hc : s.conns t = some c) (hm : c.machine = basicConsumeReceived)
    (hself : SameSelf (s.world c) w') (hq : q = c.cs.currentQueue)
    (hstore : qAddSubscriber q c.cs.threadId s.store = .ok ((), w'.store))
    (htrace : w'.trace = [.qAddSubscriber q] ++ frames)
    (hframes : ∀ event ∈ frames, ∃ bytes, event = .write bytes)
    (hnothing : ∀ event ∈ w'.trace, event.delivers = false) :
    (s.commit t waitValueDequeue .testRound w').Follows b t w'.trace := by
  obtain ⟨p, queue, rr, hp, hcell, hadd, hw⟩ := onRing_unit_eq_ok hstore
  rw [hq] at hp
  obtain ⟨hid, hrange⟩ := hok.self t c hc
  have hunsubscribed : c.machine.subscribed = false := by rw [hm]; rfl
  obtain ⟨name, hname, hrole⟩ := (h.roles t c hc).named_of_subscribed hunsubscribed hp
  obtain ⟨mq, hmq, hmeans⟩ := h.queues name p hname
  have hturns := hmeans.rota queue hcell
  have hnew : t ∉ mq.rota.members := by
    obtain ⟨members, hring, -, hmem⟩ := hok.ring_of hc hp hcell
    rw [hturns.members.unique hring, hmem, hunsubscribed]
    simp
  obtain ⟨rr', hrun, hadded⟩ := addSubscriber_spec hturns.members hrange hnew
  rw [← hid] at hrun
  obtain rfl := Except.ok.inj (hadd.symm.trans hrun)
  have hlists : SameLists s.store w'.store := hw ▸ sameLists_withRing s.store p rr
  have hheld : (s.commit t waitValueDequeue .testRound w').hand t = none := by
    rw [hand_commit, Accounts.after_of_silent, hacc.held_eq_none hc (by rw [hm]; rfl)]
    · rfl
    · rw [htrace]
      intro event hevent
      rcases List.mem_cons.mp hevent with rfl | hframe
      · rfl
      · obtain ⟨bytes, rfl⟩ := hframes event hframe
        rfl
  refine ⟨(b.setQueue name { mq with rota := mq.rota.join t hnew }).setRole t (.attached name none),
    ?_, ?_⟩
  · rw [htrace, List.filterMap_append]
    have hrest : frames.filterMap (opOf t) = [] := by
      apply List.filterMap_eq_nil_iff.mpr
      intro event hevent
      obtain ⟨bytes, rfl⟩ := hframes event hevent
      have hother := hnothing (.write bytes) (by rw [htrace]; exact List.mem_append_right _ hevent)
      simp only [Event.delivers, decide_eq_false_iff_not] at hother
      simp only [opOf, if_neg hother]
    rw [hrest, List.append_nil]
    exact exec_cons b _ [] (MessageBroker.Happens.attach hrole hmq hnew).step_eq
  · refine h.commit_queue hok.pool hc hp hname hself.currentQueue
      (queueOf_congr hlists.trie) ⟨?_, ?_, ?_⟩
      (fun p' _ => hlists.messages p') (fun p' hne _ => rings_withRing hw hne) rfl ?_
      fun u hu => Function.update_of_ne hu _ _
    · change mq.messages = (w'.store.messages p).map Prod.snd
      rw [hlists.messages, hmeans.messages]
    · intro queue' hcell'
      rw [ring_withRing hw hcell']
      exact hturns.join hnew hadded
    · refine hmeans.dealt.trans (dealt_commit ?_ (by simp)).symm
      rw [pointAt_of_conn hc, if_neg (by simp [hm])]
      simp
    · change Plays _ t _ (Function.update b.role t _ t)
      rw [Function.update_self, ← hheld]
      exact .attached (hself.currentQueue.trans hp) ((queueOf_congr hlists.trie name).trans hname) rfl

/-- The connection sends out what it has in hand. -/
theorem Represents.send {body : List UInt8} (h : s.Represents b) (hinv : s.InOrder)
    (hc : s.conns t = some c) (hm : c.machine = valueDequeueReceived)
    (hbody : c.cs.recvline.cstring maxLine 0 = some body)
    (hsends : Sends (deliveryFrames body) (s.world c) w')
    (hgrows : Grows Event.IsQuiet (s.world c) w') :
    (s.commit t waitConsumeAck .testRound w').Follows b t w'.trace := by
  have hsub : c.machine.subscribed = true := by rw [hm]; rfl
  obtain ⟨p, hp⟩ := Option.ne_none_iff_exists'.mp (hinv.ok.held t c hc hsub)
  obtain ⟨name, hname, hrole⟩ := (h.roles t c hc).attached_of_subscribed hsub hp
  obtain ⟨mq, hmq, -⟩ := h.queues name p hname
  obtain ⟨-, -, item, -, -, hheld⟩ := hinv.delivering.owing t c hc (by rw [hm]; rfl)
  have hitem : item.2 = body := by
    obtain ⟨q, hwas⟩ := hinv.accounted.placed.isKnown item (.away (.held t)) hheld
    obtain ⟨hstring, hlength⟩ := hinv.strings q item hwas
    have hcarried := hinv.carried t c item hc (by rw [hm]; decide) hheld hlength
    rw [hbody, hstring] at hcarried
    exact (Option.some.inj hcarried).symm
  have hhand : s.hand t = some body := by rw [hand, hheld, ← hitem]; rfl
  have htrace : w'.trace = (deliveryFrames body).map Event.write := hsends.trace
  refine ⟨b, ?_, ?_⟩
  · have hother : MsgFormat.method ≠ MsgFormat.body ∧ MsgFormat.contentHeader ≠ MsgFormat.body := by
      decide
    have hops : w'.trace.filterMap (opOf t) = [.send t body] := by
      rw [htrace]
      have hlast := framePayload_bodyFrame body
      rw [bodyFrame] at hlast
      simp [deliveryFrames, opOf, hother, hlast]
    rw [hops]
    rw [hhand] at hrole
    exact exec_cons b _ [] (MessageBroker.Happens.send hrole hmq).step_eq
  · refine h.commit_same (fun name => by rw [hgrows.store]; rfl) (fun p => by rw [hgrows.store]; rfl)
      (fun p queue' hcell => ⟨queue', by rwa [hgrows.store] at hcell, rfl, fun _ => id⟩)
      (fun p => ?_) (by simp) rfl ?_ fun _ _ => rfl
    · rw [pointAt_of_conn hc, if_neg (by simp [hm])]
      simp
    · have hkept : (s.commit t waitConsumeAck .testRound w').hand t = s.hand t := by
        rw [hand_commit, Accounts.after_of_silent, hand]
        rw [htrace]
        intro event hevent
        obtain ⟨bytes, -, rfl⟩ := List.mem_map.mp hevent
        rfl
      rw [hrole, ← hkept]
      refine .attached (hgrows.currentQueue.trans hp) ?_ rfl
      change w'.store.queueOf name = some p
      rw [hgrows.store]
      exact hname

/-- The connection acknowledges what it has in hand. -/
theorem Represents.settle (h : s.Represents b) (hok : s.Ok) (hc : s.conns t = some c)
    (hm : c.machine = waitConsumeAck) (hself : SameSelf (s.world c) w')
    (hstore : w'.store = s.store) (htrace : w'.trace = [.readMethod ackMethod]) :
    (s.commit t waitValueDequeue .testRound w').Follows b t w'.trace := by
  have hsub : c.machine.subscribed = true := by rw [hm]; rfl
  obtain ⟨p, hp⟩ := Option.ne_none_iff_exists'.mp (hok.held t c hc hsub)
  obtain ⟨name, hname, hrole⟩ := (h.roles t c hc).attached_of_subscribed hsub hp
  refine ⟨b.setRole t (.attached name none), ?_, ?_⟩
  · rw [htrace]
    exact exec_cons b _ [] (MessageBroker.Happens.settle hrole).step_eq
  · refine h.commit_same (fun name => by rw [hstore]) (fun p => by rw [hstore])
      (fun p queue' hcell => ⟨queue', by rwa [hstore] at hcell, rfl, fun _ => id⟩)
      (fun p => ?_) (by simp) rfl ?_ fun u hu => Function.update_of_ne hu _ _
    · rw [pointAt_of_conn hc, if_neg (by simp [hm])]
      simp
    · have hgone : (s.commit t waitValueDequeue .testRound w').hand t = none := by
        rw [hand_commit, htrace]
        simp [Accounts.after, Accounts.post, transferOf]
      change Plays _ t _ (Function.update b.role t _ t)
      rw [Function.update_self, ← hgone]
      refine .attached (hself.currentQueue.trans hp) ?_ rfl
      change w'.store.queueOf name = some p
      rw [hstore]
      exact hname

/-- The connection gives up what it has in hand, and its subscription. -/
theorem Represents.detach {q : Option ℕ} {reads : List Event} (h : s.Represents b) (hok : s.Ok)
    (hexclusive : ∀ p queue, s.store.queues.cells p = some queue → (s.round p queue).Exclusive)
    (hc : s.conns t = some c) (hm : c.machine = waitConsumeAck) (hself : SameSelf (s.world c) w')
    (hq : q = c.cs.currentQueue)
    (hstore : qRemoveSubscriber q c.cs.threadId s.store = .ok ((), w'.store))
    (htrace : w'.trace = reads ++ [.removeSubscriber q])
    (hreads : ∀ event ∈ reads, ∃ method, event = .readMethod method ∧ method ≠ ackMethod) :
    (s.commit t fail .testRound w').Follows b t w'.trace := by
  obtain ⟨p, queue, rr, hp, hcell, hremove, hw⟩ := onRing_unit_eq_ok hstore
  rw [hq] at hp
  obtain ⟨hid, -⟩ := hok.self t c hc
  have hsub : c.machine.subscribed = true := by rw [hm]; rfl
  obtain ⟨name, hname, hrole⟩ := (h.roles t c hc).attached_of_subscribed hsub hp
  obtain ⟨mq, hmq, hmeans⟩ := h.queues name p hname
  have hturns := hmeans.rota queue hcell
  have ht : t ∈ mq.rota.members := by
    obtain ⟨members, hring, -, hmem⟩ := hok.ring_of hc hp hcell
    rw [hturns.members.unique hring]
    exact hmem.mpr hsub
  have hpoint : s.pointAt p t = none := by rw [pointAt_of_conn hc, if_neg (by simp [hm])]
  have hturn : mq.rota.holder = some t → mq.dealt = false := by
    intro hholder
    by_contra hdealt
    obtain ⟨i, hi⟩ := hmeans.dealt.mp (by simpa using hdealt)
    have hi' : queue.rr.current = i := hexclusive p queue hcell i ⟨_, hi, .inl rfl⟩
    rw [hturns.holder t hholder] at hi'
    rw [← hi', hpoint] at hi
    cases hi
  obtain ⟨rr', hrun, hremoved⟩ := removeSubscriber_spec hturns.members ht
  rw [← hid] at hrun
  obtain rfl := Except.ok.inj (hremove.symm.trans hrun)
  have hlists : SameLists s.store w'.store := hw ▸ sameLists_withRing s.store p rr
  refine ⟨(b.setQueue name { mq with rota := mq.rota.leave t }).setRole t (.named name), ?_, ?_⟩
  · have hnone : reads.filterMap (opOf t) = [] := by
      apply List.filterMap_eq_nil_iff.mpr
      intro event hevent
      obtain ⟨method, rfl, hother⟩ := hreads event hevent
      simp only [opOf, if_neg hother]
    rw [htrace, List.filterMap_append, hnone]
    exact exec_cons b _ [] (MessageBroker.Happens.detach hrole hmq hturn).step_eq
  · refine h.commit_queue hok.pool hc hp hname hself.currentQueue (queueOf_congr hlists.trie)
      ⟨?_, ?_, ?_⟩ (fun p' _ => hlists.messages p') (fun p' hne _ => rings_withRing hw hne) rfl ?_
      fun u hu => Function.update_of_ne hu _ _
    · change mq.messages = (w'.store.messages p).map Prod.snd
      rw [hlists.messages, hmeans.messages]
    · intro queue' hcell'
      rw [ring_withRing hw hcell']
      exact hturns.leave ht hremoved
    · refine hmeans.dealt.trans (dealt_commit ?_ (by simp)).symm
      rw [hpoint]
      simp
    · change Plays _ t _ (Function.update b.role t _ t)
      rw [Function.update_self]
      exact .named (hself.currentQueue.trans hp) ((queueOf_congr hlists.trie name).trans hname) rfl

/-! ## Inside `q_dequeue_rr` -/

/-- The thread waits for its turn or for a message, or finds that it need not. -/
theorem Represents.waits (h : s.Represents b) (hc : s.conns t = some c)
    (hm : c.machine = waitValueDequeue) (hbefore : c.point ≠ .nextThread)
    (hafter : point' ≠ .nextThread) (hsleepers : SameButSleepers s.store w'.store)
    (hcs : w'.cs = c.cs) (htrace : w'.trace = []) :
    (s.commit t waitValueDequeue point' w').Represents b := by
  have hqueueOf := queueOf_congr hsleepers.lists.trie
  refine h.commit_same hqueueOf hsleepers.lists.messages hsleepers.rings (fun p => ?_)
    (fun hin => hafter hin.2) rfl ?_ fun _ _ => rfl
  · rw [pointAt_of_conn hc]
    split
    · simpa using hbefore
    · simp
  · have hhand : (s.commit t waitValueDequeue point' w').hand t = s.hand t := by
      rw [hand_commit, htrace]
      rfl
    have hplays := h.roles t c hc
    generalize hrole : b.role t = role at hplays
    cases hplays with
    | idle hnone => exact .idle (by rw [hcs, hnone])
    | named hp _ hsub =>
      rw [hm] at hsub
      cases hsub
    | attached hp hname _ =>
      rw [← hhand]
      exact .attached (by rw [hcs, hp]) ((hqueueOf _).trans hname) rfl

/-- The thread that has the turn takes the oldest message. -/
theorem Represents.take {item : ℕ × List UInt8} (h : s.Represents b) (hok : s.Ok)
    (hacc : s.Accounted) (hexclusive : (s.round p queue).Exclusive) (hc : s.conns t = some c)
    (hm : c.machine = waitValueDequeue) (hpoint : c.point = .dequeue)
    (hp : c.cs.currentQueue = some p) (hcell : s.store.queues.cells p = some queue)
    (hdequeued : Dequeued s.store w'.store p (some item)) (hcs : w'.cs = c.cs.afterDequeue (some item))
    (htrace : w'.trace = [.qDequeue (some p) (some item)]) :
    (s.commit t waitValueDequeue .nextThread w').Follows b t w'.trace := by
  have hsub : c.machine.subscribed = true := by rw [hm]; rfl
  obtain ⟨name, hname, hrole⟩ := (h.roles t c hc).attached_of_subscribed hsub hp
  obtain ⟨mq, hmq, hmeans⟩ := h.queues name p hname
  have hturns := hmeans.rota queue hcell
  have hat : s.pointAt p t = some .dequeue := by rw [pointAt_of_conn hc, if_pos ⟨hm, hp⟩, hpoint]
  have hcurrent : queue.rr.current = t := hexclusive t ⟨_, hat, .inl rfl⟩
  have hturn : mq.rota.holder = some t := by
    apply hturns.holder_of_current _ hcurrent
    obtain ⟨members, hring, -, hmem⟩ := hok.ring_of hc hp hcell
    rw [hturns.members.unique hring]
    exact hmem.mpr hsub
  have hdealt : mq.dealt = false := by
    by_contra hdealt
    obtain ⟨i, hi⟩ := hmeans.dealt.mp (by simpa using hdealt)
    have hi' : queue.rr.current = i := hexclusive i ⟨_, hi, .inl rfl⟩
    rw [← hi', hcurrent, hat] at hi
    cases hi
  have hmessages : mq.messages = item.2 :: (w'.store.messages p).map Prod.snd := by
    rw [hmeans.messages, hdequeued.messages]
    rfl
  have hnone : s.hand t = none := by
    rw [hand, hacc.held_eq_none hc (by rw [hm, hpoint]; rfl)]
    rfl
  rw [hnone] at hrole
  have hqueue : w'.cs.currentQueue = c.cs.currentQueue := by
    rw [hcs]
    exact (afterDequeue_self c.cs (some item)).2.1
  have hrings : ∀ p' queue', w'.store.queues.cells p' = some queue' →
      ∃ queue, s.store.queues.cells p' = some queue ∧ queue'.rr = queue.rr := by
    intro p' queue' hcell'
    have hsame := hdequeued.rings.rr p'
    rw [hcell'] at hsame
    obtain ⟨queue, hbefore, hrr⟩ := Option.map_eq_some_iff.mp hsame.symm
    exact ⟨queue, hbefore, hrr.symm⟩
  refine ⟨(b.setQueue name
      { mq with messages := (w'.store.messages p).map Prod.snd, dealt := true }).setRole t
        (.attached name (some item.2)), ?_, ?_⟩
  · rw [htrace]
    exact exec_cons b _ [] (MessageBroker.Happens.take hrole hmq hturn hdealt hmessages).step_eq
  · refine h.commit_queue hok.pool hc hp hname hqueue (queueOf_congr hdequeued.rings.trie)
      ⟨rfl, ?_, ?_⟩ hdequeued.others (fun p' _ queue' hcell' => ?_) rfl ?_
      fun u hu => Function.update_of_ne hu _ _
    · intro queue' hcell'
      obtain ⟨queue₀, hbefore, hrr⟩ := hrings p queue' hcell'
      rw [hrr]
      exact hmeans.rota queue₀ hbefore
    · refine iff_of_true rfl ⟨t, ?_⟩
      rw [pointAt_commit, Function.update_self, if_pos ⟨rfl, hqueue.trans hp⟩]
    · obtain ⟨queue₀, hbefore, hrr⟩ := hrings p' queue' hcell'
      exact ⟨queue₀, hbefore, by rw [hrr], by rw [hrr]; exact fun _ => id⟩
    · have hhand : (s.commit t waitValueDequeue .nextThread w').hand t = some item.2 := by
        rw [hand_commit, htrace]
        simp [Accounts.after, Accounts.post, transferOf]
      change Plays _ t _ (Function.update b.role t _ t)
      rw [Function.update_self, ← hhand]
      exact .attached (hqueue.trans hp) ((queueOf_congr hdequeued.rings.trie name).trans hname) rfl

/-- The thread that has taken its message passes the turn on. -/
theorem Represents.pass {next : ℤ} {rr : RoundRobinScheduler} (h : s.Represents b) (hok : s.Ok)
    (hexclusive : (s.round p queue).Exclusive) (hc : s.conns t = some c)
    (hm : c.machine = waitValueDequeue) (hpoint : c.point = .nextThread)
    (hp : c.cs.currentQueue = some p) (hcell : s.store.queues.cells p = some queue)
    (hnext : nextThread queue.rr = .ok (next, rr))
    (hw : w' = { s.world c with store := s.store.withRing p rr }) :
    ∃ b', b.step (.pass t) = .ok b' ∧
      (s.commit t valueDequeueReceived .testRound w').Represents b' := by
  have hsub : c.machine.subscribed = true := by rw [hm]; rfl
  obtain ⟨name, hname, hrole⟩ := (h.roles t c hc).attached_of_subscribed hsub hp
  obtain ⟨mq, hmq, hmeans⟩ := h.queues name p hname
  have hturns := hmeans.rota queue hcell
  have hat : s.pointAt p t = some .nextThread := by rw [pointAt_of_conn hc, if_pos ⟨hm, hp⟩, hpoint]
  have hcurrent : queue.rr.current = t := hexclusive t ⟨_, hat, .inl rfl⟩
  have ht : t ∈ mq.rota.members := by
    obtain ⟨members, hring, -, hmem⟩ := hok.ring_of hc hp hcell
    rw [hturns.members.unique hring]
    exact hmem.mpr hsub
  have hturn := hturns.holder_of_current ht hcurrent
  have hdealt : mq.dealt = true := hmeans.dealt.mpr ⟨t, hat⟩
  obtain ⟨next', rr', hrun, hpassed⟩ := nextThread_spec hturns.members (List.ne_nil_of_mem ht)
  obtain ⟨rfl, rfl⟩ := Prod.mk.inj (Except.ok.inj (hnext.symm.trans hrun))
  have hstore : w'.store = s.store.withRing p rr := by rw [hw]
  have hlists : SameLists s.store w'.store := hstore ▸ sameLists_withRing s.store p rr
  have hcs : w'.cs = c.cs := by rw [hw]; rfl
  refine ⟨_, (MessageBroker.Happens.pass hrole hmq hturn hdealt).step_eq, ?_⟩
  refine h.commit_queue hok.pool hc hp hname (by rw [hcs]) (queueOf_congr hlists.trie) ⟨?_, ?_, ?_⟩
    (fun p' _ => hlists.messages p') (fun p' hne _ => rings_withRing hstore hne) rfl ?_ fun u _ => rfl
  · change mq.messages = (w'.store.messages p).map Prod.snd
    rw [hlists.messages, hmeans.messages]
  · intro queue' hcell'
    rw [ring_withRing hstore hcell']
    exact hturns.pass (hcurrent ▸ ht) hpassed
  · refine iff_of_false (by simp) ?_
    rintro ⟨i, hi⟩
    rw [pointAt_commit] at hi
    by_cases hit : i = t
    · rw [hit, Function.update_self, if_neg (by simp)] at hi
      cases hi
    · rw [Function.update_of_ne hit] at hi
      have hother : queue.rr.current = i := hexclusive i ⟨_, hi, .inl rfl⟩
      exact hit (hother.symm.trans hcurrent)
  · have hhand : (s.commit t valueDequeueReceived .testRound w').hand t = s.hand t := by
      rw [hand_commit, hw]
      rfl
    change Plays _ t _ (b.role t)
    rw [hrole, ← hhand]
    exact .attached (by rw [hcs, hp]) ((queueOf_congr hlists.trie name).trans hname) rfl

/-! ## Every step, and every run -/

/-- Every handler does what its calls are. -/
theorem Represents.handler (h : s.Represents b) (hinv : s.InOrder)
    (hexclusive : ∀ p queue, s.store.queues.cells p = some queue → (s.round p queue).Exclusive)
    (hc : s.conns t = some c) (haction : actions c.machine (s.world c) = .ok (m', w'))
    (heffect : Effect c.machine (s.world c) w' m') :
    (s.commit t m' .testRound w').Follows b t w'.trace := by
  by_cases hdeliver : c.machine = valueDequeueReceived
  · rw [hdeliver] at haction heffect
    obtain ⟨body, hbody, rfl, hsends⟩ := actionValueDequeueReceived_sends haction
    cases heffect with
    | quiet _ hgrows => exact h.send hinv hc hdeliver hbody hsends hgrows
  · have hnothing := actions_deliver_nothing hdeliver rfl heffect haction
    have hunsubscribed : ∀ {m : MachineState}, c.machine = m → m.subscribed = false →
        c.machine.subscribed = false := fun hm hsub => hm ▸ hsub
    cases heffect with
    | quiet hedge hgrows => exact h.quiet hc hedge hdeliver hgrows hnothing
    | declare hfrom hselects hstore hrecorded =>
      exact h.declare hinv.ok hc (hunsubscribed hfrom rfl) hselects hstore hrecorded hnothing
    | publish hfrom hselects hstore hrecorded =>
      have hsub : c.machine.subscribed = false := by
        rcases hfrom with hfrom | hfrom <;> exact hunsubscribed hfrom rfl
      exact h.select hinv.ok hc hsub rfl hselects hstore hrecorded rfl hnothing
    | consume hfrom hselects hstore hrecorded =>
      exact h.select hinv.ok hc (hunsubscribed hfrom rfl) rfl hselects hstore hrecorded rfl hnothing
    | enqueue hfrom hself hstore htrace =>
      exact h.publish hinv.ok hc hfrom hself rfl hstore htrace
    | subscribe hfrom hself hstore htrace hframes =>
      exact h.attach hinv.ok hinv.accounted hc hfrom hself rfl hstore htrace hframes hnothing
    | ack hfrom hself hstore htrace => exact h.settle hinv.ok hc hfrom hself hstore htrace
    | reject hfrom hself hstore htrace hreads =>
      exact h.detach hinv.ok hexclusive hc hfrom hself rfl hstore htrace hreads

/-- What happens at the message broker as the broker takes a step. -/
def MatchedBy (s s' : Broker) (b : SpecBroker) (ops : List SpecOp) (b' : SpecBroker) : Prop :=
  exec MessageBroker.step b ops = .ok b' ∧ s'.Represents b' ∧
    opsOf s'.history = opsOf s.history ++ ops.filter MessageOp.isCall

/-- A step whose calls are the operations. -/
theorem Follows.matched {m : MachineState} {point : DequeuePoint}
    (h : (s.commit t m point w').Follows b t w'.trace) :
    ∃ ops b', MatchedBy s (s.commit t m point w') b ops b' := by
  obtain ⟨b', hexec, hrep⟩ := h
  exact ⟨_, b', hexec, hrep, by rw [opsOf_commit, filter_isCall]⟩

/-- Every step inside `q_dequeue_rr`. -/
theorem Represents.dequeue (h : s.Represents b) (hinv : s.InOrder)
    (hexclusive : (s.round p queue).Exclusive) (hstocked : (s.round p queue).Stocked)
    (hc : s.conns t = some c) (hm : c.machine = waitValueDequeue)
    (hp : c.cs.currentQueue = some p) (hcell : s.store.queues.cells p = some queue)
    (heffect : DequeueEffect grain p queue (s.world c) w' c.point m' point') :
    ∃ ops b', MatchedBy s (s.commit t m' point' w') b ops b' := by
  have hdelivery := deliveryStep_of_dequeue hm hp hcell heffect
  have hwaits : ∀ {before after : DequeuePoint}, c.point = before → before ≠ .nextThread →
      after ≠ .nextThread → SameButSleepers s.store w'.store → w'.cs = c.cs → w'.trace = [] →
      ∃ ops b', MatchedBy s (s.commit t waitValueDequeue after w') b ops b' := by
    intro before after hpoint hbefore hafter hsleepers hcs htrace
    refine ⟨[], b, rfl, h.waits hc hm (by rwa [hpoint]) hafter hsleepers hcs htrace, ?_⟩
    rw [opsOf_commit, htrace]
    rfl
  generalize hpoint : c.point = point at heffect
  cases heffect with
  | turn _ hw | noTurn _ _ hw | wakeRound _ hw | message _ hw | noMessage _ hw | wakeMsg _ hw =>
    rw [hw] at hwaits ⊢
    exact hwaits hpoint (by decide) (by decide) (.refl s.store) rfl rfl
  | noTurnSleep _ _ hsleep hw | sleepRound hsleep hw =>
    have hrr := sleepRound_eq_ok hsleep
    subst hrr
    rw [hw] at hwaits ⊢
    exact hwaits hpoint (by decide) (by decide) (sameButSleepers_setRoundCond hcell _ _) rfl rfl
  | sleepMsg hw =>
    rw [hw] at hwaits ⊢
    exact hwaits hpoint (by decide) (by decide) (sameButSleepers_withSleeper hcell _) rfl rfl
  | @dequeue taken hstore hcs _ htrace =>
    obtain ⟨p', hp', -, hdequeued⟩ := qDequeue_eq_ok hinv.ok.lists hstore
    obtain rfl := Option.some.inj hp'
    have hat : s.pointAt p t = some .dequeue := by
      rw [pointAt_of_conn hc, if_pos ⟨hm, hp⟩, hpoint]
    have hguard : s.DequeuesMessage (.run t) := by
      intro d hd _ _ p' hp' queue' hcell'
      obtain rfl := Option.some.inj (hc.symm.trans hd)
      obtain rfl := Option.some.inj (hp.symm.trans hp')
      obtain rfl := Option.some.inj (hcell.symm.trans hcell')
      exact hstocked.seen t hat
    cases taken with
    | none => exact absurd htrace (hguard.not_empty hinv.ok hc hdelivery _)
    | some item =>
      exact (h.take hinv.ok hinv.accounted hexclusive hc hm hpoint hp hcell hdequeued hcs htrace).matched
  | nextThread hnext hw =>
    obtain ⟨b', hstep, hrep⟩ := h.pass hinv.ok hexclusive hc hm hpoint hp hcell hnext hw
    refine ⟨[.pass t], b', exec_cons b _ [] hstep, hrep, ?_⟩
    rw [opsOf_commit, hw]
    rfl

/-- Every step of the broker that is no wakeup by itself. -/
theorem Represents.step {act : Act} (h : s.Represents b) (hinv : s.InOrder)
    (hround : ∀ p queue, s.store.queues.cells p = some queue →
      (s.round p queue).Exclusive ∧ (s.round p queue).Stocked)
    (hquiet : act.isSpurious = false) (hstep : Broker.step grain s act = .ok s') :
    ∃ ops b', MatchedBy s s' b ops b' := by
  cases step_cases hstep with
  | @accept t socket _ _ _ hfree hs' =>
    subst hs'
    have hrole := MessageBroker.Happens.connect (h.gone t hfree)
    refine ⟨[.connect t], b.setRole t .idle, exec_cons b _ [] hrole.step_eq, ?_, by simp [MessageOp.isCall]⟩
    refine h.replace (fun d hd => ?_) (fun d hd => ?_) rfl (fun d hd => ?_) (by simp)
      fun u hu => Function.update_of_ne hu _ _
    · rw [hfree] at hd
      cases hd
    · obtain rfl := Option.some.inj hd
      simp [Conn.start]
    · obtain rfl := Option.some.inj hd
      change Plays s t _ (Function.update b.role t _ t)
      rw [Function.update_self]
      exact .idle rfl
  | handler hc haction heffect hs' =>
    subst hs'
    exact (h.handler hinv (fun p queue hcell => (hround p queue hcell).1) hc haction heffect).matched
  | dequeue hc hm hp hcell heffect hs' =>
    subst hs'
    obtain ⟨hexclusive, hstocked⟩ := hround _ _ hcell
    exact h.dequeue hinv hexclusive hstocked hc hm hp hcell heffect
  | @close t c hc hleft hs' =>
    subst hs'
    have hsub : c.machine.subscribed = false ∧ c.machine ≠ waitValueDequeue := by
      rcases hleft with hm | hm <;> rw [hm] <;> exact ⟨rfl, by decide⟩
    refine ⟨[], b, rfl, ?_, by simp⟩
    refine h.replace (fun d hd => ?_) (by simp) rfl (by simp)
      (fun _ => (h.roles t c hc).free hsub.1) fun _ _ => rfl
    obtain rfl := Option.some.inj (hc.symm.trans hd)
    exact hsub.2
  | spurious => cases hquiet

/-- The fresh broker represents the abstract one. -/
theorem represents_initial : initial.Represents MessageBroker.initial where
  absent := by
    intro name _
    rfl
  queues := by
    intro name p hp
    obtain ⟨queue, hcell, -⟩ := poolOk_initQueuePool.named name p hp
    cases hcell
  roles := by
    intro t c hc
    cases hc
  gone := by
    intro t _ name hand hrole
    cases hrole

/-- A run without wakeups by themselves and the message broker, related by what they did. -/
structure Refines (grain : Grain) (s : Broker) (ops : List SpecOp) (b : SpecBroker) : Prop where
  reached : Reaches (Broker.step grain) (fun _ act => act.isSpurious = false) initial s
  represents : s.Represents b
  calls : opsOf s.history = ops.filter MessageOp.isCall

/-- The abstract broker follows every step. -/
theorem simulates (grain : Grain) :
    Simulates (Broker.step grain) (fun _ act => act.isSpurious = false) MessageBroker.step
      (Refines grain) where
  matched := by
    intro s ops b act s' hrefines hquiet hstep
    have hreach := hrefines.reached
    have hinv := inOrder_of_reaches (dequeuesMessage_of_noSpurious hreach)
    obtain ⟨more, b', hexec, hrep, hcalls⟩ := hrefines.represents.step hinv
      (fun p queue hcell => round_sound hreach hcell) hquiet hstep
    refine ⟨more, b', hexec, .tail hreach hquiet hstep, hrep, ?_⟩
    rw [hcalls, hrefines.calls, List.filter_append]

/-- Every run in which no wait returns by itself is a run of a message broker: the calls that
the threads make are its operations, in the same order, and in the end the memory and the
connections represent the state it is in. -/
theorem refines_messageBroker
    (h : Reaches (Broker.step grain) (fun _ act => act.isSpurious = false) initial s) :
    ∃ ops b, exec MessageBroker.step MessageBroker.initial ops = .ok b ∧ s.Represents b ∧
      opsOf s.history = ops.filter MessageOp.isCall := by
  obtain ⟨ops, b, hexec, hrefines⟩ :=
    (simulates grain).exists_exec ⟨.refl, represents_initial, rfl⟩ h
  exact ⟨ops, b, hexec, hrefines.represents, hrefines.calls⟩

/-- The operations of a client that publishes two bodies and takes one. -/
theorem refines_messageBroker_consumeOneOfTwo :
    ∃ s, guardedExec (Broker.step .fine) (fun _ act => act.isSpurious = false) initial
        consumeOneOfTwo = some s ∧
      opsOf s.history = [.declare 0 [113], .select 0 [113], .publish 0 [104, 105], .publish 0 [33],
        .select 0 [113], .attach 0, .take 0 [104, 105]] ∧
      ∃ ops b, exec MessageBroker.step MessageBroker.initial ops = .ok b ∧ s.Represents b ∧
        opsOf s.history = ops.filter MessageOp.isCall := by
  have hobserved : (guardedExec (Broker.step .fine) (fun _ act => act.isSpurious = false) initial
      consumeOneOfTwo).map (fun s => opsOf s.history) = some [.declare 0 [113], .select 0 [113],
        .publish 0 [104, 105], .publish 0 [33], .select 0 [113], .attach 0, .take 0 [104, 105]] := by
    decide +kernel
  obtain ⟨s, hrun, hview⟩ := Option.map_eq_some_iff.mp hobserved
  exact ⟨s, hrun, hview, refines_messageBroker (reaches_of_guardedExec hrun)⟩

end Broker

end AmqpBroker
