import AmqpBroker.Verification.Membership

/-!
# Rounds of a queue

What the consumers of one queue share, and where in `q_dequeue_rr` each of them is. A step
of the process changes this view of a queue in one of a few ways, whatever the other
connections and queues do; the laws of the round robin are about these ways only.
-/

namespace AmqpBroker

open Foundations Program MachineState

/-- The scheduler, the counter and the sleepers of a queue, with the place of every thread
inside `q_dequeue_rr` on that queue. -/
structure Round where
  rr : RoundRobinScheduler
  size : ℤ
  newMsgCond : Finset ℤ
  point : ℤ → Option DequeuePoint

/-- The round of a queue nobody is inside. -/
def Queue.round (queue : Queue) : Round := ⟨queue.rr, queue.size, queue.newMsgCond, fun _ => none⟩

/-- The same round with one thread elsewhere. -/
def Round.move (r : Round) (t : ℤ) (point : Option DequeuePoint) : Round :=
  { r with point := Function.update r.point t point }

/-- The ring stays when a thread moves on. -/
@[simp] theorem Round.move_rr (r : Round) (t : ℤ) (point : Option DequeuePoint) :
    (r.move t point).rr = r.rr := rfl

/-- The counter stays when a thread moves on. -/
@[simp] theorem Round.move_size (r : Round) (t : ℤ) (point : Option DequeuePoint) :
    (r.move t point).size = r.size := rfl

/-- The sleepers stay when a thread moves on. -/
@[simp] theorem Round.move_newMsgCond (r : Round) (t : ℤ) (point : Option DequeuePoint) :
    (r.move t point).newMsgCond = r.newMsgCond := rfl

/-- The thread is where it has moved to. -/
@[simp] theorem Round.move_point_self (r : Round) (t : ℤ) (point : Option DequeuePoint) :
    (r.move t point).point t = point := Function.update_self _ _ _

/-- The others are where they were. -/
theorem Round.move_point_of_ne (r : Round) {t i : ℤ} (h : i ≠ t) (point : Option DequeuePoint) :
    (r.move t point).point i = r.point i := Function.update_of_ne h _ _

/-- The thread's own node with the thread among its sleepers. -/
def RoundRobinScheduler.withSleeper (rr : RoundRobinScheduler) (t : ℤ) : RoundRobinScheduler :=
  rr.setRoundCond t (insert t (rr.subs t).roundCond)

/-- One step of a thread inside `q_dequeue_rr`. -/
inductive DequeueRound (grain : Grain) (members : List ℤ) (r : Round) (t : ℤ) :
    DequeuePoint → Round → Prop
  | turn : r.rr.current = t → DequeueRound grain members r t .testRound (r.move t (some .testMsg))
  | noTurn : grain = .fine → r.rr.current ≠ t →
      DequeueRound grain members r t .testRound (r.move t (some .sleepRound))
  | noTurnSleep : grain = .coarse → r.rr.current ≠ t →
      DequeueRound grain members r t .testRound
        ({ r with rr := r.rr.withSleeper t }.move t (some .wakeRound))
  | sleepRound :
      DequeueRound grain members r t .sleepRound
        ({ r with rr := r.rr.withSleeper t }.move t (some .wakeRound))
  | wakeRound : t ∉ (r.rr.subs t).roundCond →
      DequeueRound grain members r t .wakeRound (r.move t (some .testMsg))
  | message : r.size ≠ 0 → DequeueRound grain members r t .testMsg (r.move t (some .dequeue))
  | noMessage : r.size = 0 → DequeueRound grain members r t .testMsg (r.move t (some .sleepMsg))
  | sleepMsg :
      DequeueRound grain members r t .sleepMsg
        ({ r with newMsgCond := insert t r.newMsgCond }.move t (some .wakeMsg))
  | wakeMsg : t ∉ r.newMsgCond →
      DequeueRound grain members r t .wakeMsg (r.move t (some .dequeue))
  | found : 0 < r.size →
      DequeueRound grain members r t .dequeue
        ({ r with size := r.size - 1 }.move t (some .nextThread))
  | empty : r.size = 0 → DequeueRound grain members r t .dequeue (r.move t (some .nextThread))
  | nextThread {next : ℤ} {rr : RoundRobinScheduler} : Passed r.rr rr members next →
      DequeueRound grain members r t .nextThread ({ r with rr := rr }.move t none)

/-- What one step of thread `t` does to the round of a queue; `joins` says that `t` is about
to subscribe and `leaves` that it gives its subscription up. -/
inductive RoundStep (grain : Grain) (members : List ℤ) (joins leaves : Prop) (r : Round) (t : ℤ) :
    Round → Prop
  | idle : r.point t = none → RoundStep grain members joins leaves r t r
  | arrive : r.point t = none →
      RoundStep grain members joins leaves r t { r with size := r.size + 1, newMsgCond := ∅ }
  | subscribe {rr : RoundRobinScheduler} : joins → t ∉ members → r.point t = none →
      Added r.rr rr members t →
      RoundStep grain members joins leaves r t ({ r with rr := rr }.move t (some .testRound))
  | unsubscribe {rr : RoundRobinScheduler} : leaves → t ∈ members → r.point t = none →
      Removed r.rr rr members t → RoundStep grain members joins leaves r t { r with rr := rr }
  | ack : t ∈ members → r.point t = none →
      RoundStep grain members joins leaves r t (r.move t (some .testRound))
  | consume {point : DequeuePoint} {r' : Round} : t ∈ members → r.point t = some point →
      DequeueRound grain members r t point r' → RoundStep grain members joins leaves r t r'

/-- What a wakeup that nobody caused does to the round of the queue its thread is at: the
thread is no longer among the sleepers of its node, or of the queue. -/
inductive RoundWoken (r : Round) (t : ℤ) : Round → Prop
  | wakeRound : RoundWoken r t
      { r with rr := r.rr.setRoundCond t ((r.rr.subs t).roundCond.erase t) }
  | wakeMsg : RoundWoken r t { r with newMsgCond := r.newMsgCond.erase t }

/-- What `action_wait_consume_ack` reads is a Basic.Ack. -/
def ackArrives (w : World) : Bool :=
  match readFrame w with
  | .ok (some method, _) => method = ackMethod
  | _ => false

variable {s s' : Broker} {t i : ℤ} {c : Conn} {m m' : MachineState} {p p' : ℕ} {queue : Queue}
  {grain : Grain} {point point' : DequeuePoint} {w w' : World} {act : Act} {members : List ℤ}

namespace Broker

/-- Where a thread is inside `q_dequeue_rr` on the queue at `p`. -/
def pointAt (s : Broker) (p : ℕ) (t : ℤ) : Option DequeuePoint :=
  match s.conns t with
  | none => none
  | some c => if c.machine = waitValueDequeue ∧ c.cs.currentQueue = some p then some c.point else none

/-- The round of a queue. -/
def round (s : Broker) (p : ℕ) (queue : Queue) : Round :=
  ⟨queue.rr, queue.size, queue.newMsgCond, s.pointAt p⟩

/-- A thread in BASIC_CONSUME_RECEIVED. -/
def Joins (s : Broker) (p : ℕ) (t : ℤ) : Prop :=
  ∃ c ∈ s.conns t, c.machine = basicConsumeReceived ∧ c.cs.currentQueue = some p

/-- A thread in WAIT_CONSUME_ACK whose next frame is not a Basic.Ack. -/
def Leaves (s : Broker) (p : ℕ) (t : ℤ) : Prop :=
  ∃ c ∈ s.conns t, c.machine = waitConsumeAck ∧ c.cs.currentQueue = some p ∧
    ackArrives (s.world c) = false

/-- Where a connection is in the `q_dequeue_rr` of a queue. -/
theorem pointAt_of_conn (hc : s.conns t = some c) (p : ℕ) :
    s.pointAt p t =
      if c.machine = waitValueDequeue ∧ c.cs.currentQueue = some p then some c.point else none := by
  rw [pointAt, hc]

/-- A thread inside `q_dequeue_rr` is in WAIT_VALUE_DEQUEUE. -/
theorem pointAt_eq_some (h : s.pointAt p t = some point) :
    ∃ c, s.conns t = some c ∧ c.machine = waitValueDequeue ∧ c.cs.currentQueue = some p ∧
      c.point = point := by
  cases hc : s.conns t with
  | none =>
    rw [pointAt, hc] at h
    cases h
  | some c =>
    rw [pointAt_of_conn hc] at h
    split at h
    · rename_i hin
      exact ⟨c, rfl, hin.1, hin.2, Option.some.inj h⟩
    · cases h

/-- Only subscribers are inside `q_dequeue_rr`. -/
theorem subscribedTo_of_pointAt (h : s.pointAt p t = some point) : s.SubscribedTo t p := by
  obtain ⟨c, hc, hm, hp, -⟩ := pointAt_eq_some h
  exact ⟨c, hc, by rw [hm]; rfl, hp⟩

/-- Other threads stay where they are. -/
theorem pointAt_congr (hconns : ∀ i, i ≠ t → s'.conns i = s.conns i)
    (hself : s'.pointAt p t = s.pointAt p t) : s'.pointAt p = s.pointAt p := by
  funext i
  by_cases hi : i = t
  · rw [hi, hself]
  · rw [pointAt, pointAt, hconns i hi]

/-- A committed step moves its own thread only. -/
theorem pointAt_commit (s : Broker) (t : ℤ) (m : MachineState) (point : DequeuePoint) (w : World)
    (p : ℕ) :
    (s.commit t m point w).pointAt p = Function.update (s.pointAt p) t
      (if m = waitValueDequeue ∧ w.cs.currentQueue = some p then some point else none) := by
  funext i
  by_cases hi : i = t
  · rw [hi, Function.update_self, pointAt_of_conn (s.commit_conns_self t m point w)]
  · rw [Function.update_of_ne hi, pointAt, pointAt, s.commit_conns_of_ne hi]

/-- A thread that is inside neither before nor after a step has not moved. -/
theorem pointAt_commit_same (hc : s.conns t = some c)
    (hbefore : ¬ (c.machine = waitValueDequeue ∧ c.cs.currentQueue = some p))
    (hafter : ¬ (m = waitValueDequeue ∧ w.cs.currentQueue = some p)) :
    (s.commit t m point w).pointAt p = s.pointAt p := by
  rw [pointAt_commit, if_neg hafter, Function.update_eq_self_iff, pointAt_of_conn hc,
    if_neg hbefore]

end Broker

/-- A connection that reads a Basic.Ack goes on consuming. -/
theorem eq_waitValueDequeue_of_ack (hack : ackArrives w = true)
    (h : actionWaitConsumeAck w = .ok (m', w')) : m' = waitValueDequeue := by
  obtain ⟨v, hframe⟩ : ∃ v, readFrame w = .ok (some ackMethod, v) := by
    rw [ackArrives] at hack
    split at hack
    · rename_i method v hframe
      exact ⟨v, by rw [hframe, of_decide_eq_true hack]⟩
    · cases hack
  obtain ⟨messageHeader, v', hheader, hmethod⟩ := readFrame_eq_some hframe
  rw [actionWaitConsumeAck, bind_of_ok hheader] at h
  simp only [bind_of_ok hmethod] at h
  rw [if_neg (by simp [ackMethod])] at h
  cases h
  rfl

namespace Broker

/-- The round of a queue after a step, and how it came about. -/
def RoundMoves (grain : Grain) (members : List ℤ) (s s' : Broker) (p : ℕ) (queue : Queue) (t : ℤ) :
    Prop :=
  ∃ queue', s'.store.queues.cells p = some queue' ∧
    RoundStep grain members (s.Joins p t) (s.Leaves p t) (s.round p queue) t (s'.round p queue')

/-- A step of a thread that is not in the `q_dequeue_rr` of the queue. -/
theorem roundMoves_idle (hnone : s.pointAt p t = none) (hcell : s'.store.queues.cells p = some queue)
    (hpoint : s'.pointAt p = s.pointAt p) : RoundMoves grain members s s' p queue t := by
  refine ⟨queue, hcell, ?_⟩
  rw [round, round, hpoint]
  exact .idle hnone

/-- The round after a committed step is the thread's move on the new queue. -/
theorem round_commit (s : Broker) (t : ℤ) (m : MachineState) (point : DequeuePoint) (w : World)
    (p : ℕ) (queue : Queue) :
    (s.commit t m point w).round p queue = (s.round p queue).move t
      (if m = waitValueDequeue ∧ w.cs.currentQueue = some p then some point else none) := by
  rw [round, pointAt_commit]
  rfl

/-- A step outside the `q_dequeue_rr` of the queue, before and after. -/
theorem round_commit_same (hc : s.conns t = some c) (queue : Queue)
    (hbefore : ¬ (c.machine = waitValueDequeue ∧ c.cs.currentQueue = some p))
    (hafter : ¬ (m = waitValueDequeue ∧ w.cs.currentQueue = some p)) :
    (s.commit t m point w).round p queue = s.round p queue := by
  rw [round, pointAt_commit_same hc hbefore hafter, round]

/-- A queue that a handler does not touch keeps its round, unless the handler's connection
consumes from it. -/
theorem roundMoves_commit_idle (hc : s.conns t = some c)
    (hcell : w.store.queues.cells p = some queue)
    (hbefore : ¬ (c.machine = waitValueDequeue ∧ c.cs.currentQueue = some p))
    (hafter : ¬ (m = waitValueDequeue ∧ w.cs.currentQueue = some p)) :
    RoundMoves grain members s (s.commit t m point w) p queue t :=
  roundMoves_idle (by rw [pointAt_of_conn hc, if_neg hbefore]) hcell
    (pointAt_commit_same hc hbefore hafter)

/-- A thread that calls `q_add_subscriber`. -/
theorem roundMoves_subscribe (hok : s.Ok) (hc : s.conns t = some c)
    (hcell : s.store.queues.cells p = some queue) (hring : Subscribed queue.rr members)
    (hm : c.machine = basicConsumeReceived) (hnew : t ∉ members) (hself : SameSelf (s.world c) w)
    (hstore : qAddSubscriber c.cs.currentQueue c.cs.threadId s.store = .ok ((), w.store)) :
    RoundMoves grain members s (s.commit t waitValueDequeue .testRound w) p queue t := by
  obtain ⟨hid, hrange⟩ := hok.self t c hc
  have hbefore : ¬ (c.machine = waitValueDequeue ∧ c.cs.currentQueue = some p) := by
    rw [hm]
    exact fun h => absurd h.1 (by decide)
  have hnone : s.pointAt p t = none := by rw [pointAt_of_conn hc, if_neg hbefore]
  obtain ⟨p', queue', rr, hp', hcell', hadd, hw⟩ := onRing_unit_eq_ok hstore
  by_cases hpp : p = p'
  · subst hpp
    obtain rfl := Option.some.inj (hcell.symm.trans hcell')
    obtain ⟨rr', hrun', hadded⟩ := addSubscriber_spec hring hrange hnew
    rw [← hid] at hrun'
    obtain rfl := Except.ok.inj (hadd.symm.trans hrun')
    refine ⟨{ queue with rr := rr }, ?_, ?_⟩
    · change w.store.queues.cells p = _
      rw [hw]
      exact Heap.modify_cells_of_live hcell _
    · rw [round_commit, if_pos ⟨rfl, hself.currentQueue.trans hp'⟩]
      exact .subscribe ⟨c, hc, hm, hp'⟩ hnew hnone hadded
  · refine roundMoves_commit_idle hc ?_ hbefore ?_
    · rw [hw]
      exact (Heap.modify_cells_ne _ _ hpp).trans hcell
    · intro ⟨_, hp⟩
      rw [hself.currentQueue] at hp
      exact hpp (Option.some.inj (hp.symm.trans hp'))

/-- A thread that calls `q_remove_subscriber` because of a frame that is no Basic.Ack. -/
theorem roundMoves_reject (hok : s.Ok) (hc : s.conns t = some c)
    (hcell : s.store.queues.cells p = some queue) (hring : Subscribed queue.rr members)
    (hm : c.machine = waitConsumeAck) (hack : ackArrives (s.world c) = false)
    (hin : c.cs.currentQueue = some p → t ∈ members)
    (hstore : qRemoveSubscriber c.cs.currentQueue c.cs.threadId s.store = .ok ((), w.store)) :
    RoundMoves grain members s (s.commit t fail .testRound w) p queue t := by
  obtain ⟨hid, -⟩ := hok.self t c hc
  have hbefore : ¬ (c.machine = waitValueDequeue ∧ c.cs.currentQueue = some p) := by
    rw [hm]
    exact fun h => absurd h.1 (by decide)
  have hnone : s.pointAt p t = none := by rw [pointAt_of_conn hc, if_neg hbefore]
  obtain ⟨p', queue', rr, hp', hcell', hremove, hw⟩ := onRing_unit_eq_ok hstore
  by_cases hpp : p = p'
  · subst hpp
    obtain rfl := Option.some.inj (hcell.symm.trans hcell')
    have ht : t ∈ members := hin hp'
    obtain ⟨rr', hrun', hremoved⟩ := removeSubscriber_spec hring ht
    rw [← hid] at hrun'
    obtain rfl := Except.ok.inj (hremove.symm.trans hrun')
    refine ⟨{ queue with rr := rr }, ?_, ?_⟩
    · change w.store.queues.cells p = _
      rw [hw]
      exact Heap.modify_cells_of_live hcell _
    · rw [round_commit_same hc _ hbefore (by simp)]
      exact .unsubscribe ⟨c, hc, hm, hp', hack⟩ ht hnone hremoved
  · refine roundMoves_commit_idle hc ?_ hbefore (by simp)
    rw [hw]
    exact (Heap.modify_cells_ne _ _ hpp).trans hcell

/-- What a handler does to the round of a queue. -/
theorem roundMoves_handler (hok : s.Ok) (hc : s.conns t = some c)
    (hcell : s.store.queues.cells p = some queue) (hring : Subscribed queue.rr members)
    (hmem : ∀ i, i ∈ members ↔ s.SubscribedTo i p)
    (hrun : actions c.machine (s.world c) = .ok (m', w'))
    (heffect : Effect c.machine (s.world c) w' m') :
    RoundMoves grain members s (s.commit t m' .testRound w') p queue t := by
  obtain ⟨hid, -⟩ := hok.self t c hc
  have hin : c.machine.subscribed = true → c.cs.currentQueue = some p → t ∈ members :=
    fun hsub hp => (hmem t).mpr ⟨c, hc, hsub, hp⟩
  have hout : c.machine.subscribed = false → t ∉ members := by
    intro hsub ht
    obtain ⟨c', hc', hsub', -⟩ := (hmem t).mp ht
    obtain rfl := Option.some.inj (hc.symm.trans hc')
    rw [hsub] at hsub'
    cases hsub'
  have hnone : c.machine ≠ waitValueDequeue → s.pointAt p t = none := by
    intro hm
    rw [pointAt_of_conn hc, if_neg fun h => hm h.1]
  have hmachine := heffect.ne_waitValueDequeue
  have hbefore : ¬ (c.machine = waitValueDequeue ∧ c.cs.currentQueue = some p) :=
    fun h => hmachine h.1
  cases heffect with
  | quiet hedge hgrows =>
    refine roundMoves_commit_idle hc (by rw [hgrows.store]; exact hcell) hbefore ?_
    rintro ⟨rfl, -⟩
    revert hedge
    cases c.machine <;> simp [quietNext]
  | declare hfrom hselects hstore hrecorded =>
    refine roundMoves_commit_idle hc ?_ hbefore (by simp)
    rcases createQueue_eq_ok hok.pool hstore with ⟨-, hlooked⟩ | hinserted
    · rw [hlooked.queues]
      exact hcell
    · rw [hinserted.queues]
      exact Heap.alloc_cells_of_live _ hcell
  | publish hfrom hselects hstore hrecorded =>
    refine roundMoves_commit_idle hc ?_ hbefore (by simp)
    rw [(getQueue_eq_ok hok.pool hstore).2.queues]
    exact hcell
  | consume hfrom hselects hstore hrecorded =>
    refine roundMoves_commit_idle hc ?_ hbefore (by simp)
    rw [(getQueue_eq_ok hok.pool hstore).2.queues]
    exact hcell
  | enqueue hfrom hself hstore htrace =>
    obtain ⟨p', queue', hp', hcell', hw⟩ := qEnqueue_queues hok.lists hstore
    by_cases hpp : p = p'
    · subst hpp
      obtain rfl := Option.some.inj (hcell.symm.trans hcell')
      refine ⟨queue.enqueued s.store.nodes.next, ?_, ?_⟩
      · change w'.store.queues.cells p = _
        rw [hw]
        exact Heap.modify_cells_of_live hcell _
      · rw [round_commit_same hc _ hbefore (by simp)]
        exact .arrive (hnone hmachine)
    · refine roundMoves_commit_idle hc ?_ hbefore (by simp)
      rw [hw]
      exact (Heap.modify_cells_ne _ _ hpp).trans hcell
  | subscribe hfrom hself hstore htrace hframes =>
    exact roundMoves_subscribe hok hc hcell hring hfrom (hout (by rw [hfrom]; rfl)) hself hstore
  | ack hfrom hself hstore htrace =>
    refine ⟨queue, (congrArg (fun store : Store => store.queues.cells p) hstore).trans hcell, ?_⟩
    by_cases hp : c.cs.currentQueue = some p
    · rw [round_commit, if_pos ⟨rfl, hself.currentQueue.trans hp⟩]
      exact .ack (hin (by rw [hfrom]; rfl) hp) (hnone hmachine)
    · rw [round_commit_same hc _ hbefore fun h => hp (hself.currentQueue.symm.trans h.2)]
      exact .idle (hnone hmachine)
  | reject hfrom hself hstore htrace hreads =>
    have hack : ackArrives (s.world c) = false := by
      rw [hfrom] at hrun
      rw [← Bool.not_eq_true]
      intro hack
      cases eq_waitValueDequeue_of_ack hack hrun
    exact roundMoves_reject hok hc hcell hring hfrom hack (hin (by rw [hfrom]; rfl)) hstore

/-- A step inside `q_dequeue_rr` touches its own queue only. -/
theorem dequeueEffect_frame (hlists : ListsOk w.store) (hcell : w.store.queues.cells p' = some queue)
    (h : DequeueEffect grain p' queue w w' point m' point') :
    w'.cs.currentQueue = w.cs.currentQueue ∧
      ∀ p, p ≠ p' → w'.store.queues.cells p = w.store.queues.cells p := by
  cases h with
  | turn _ hw | noTurn _ _ hw | wakeRound _ hw | message _ hw | noMessage _ hw | wakeMsg _ hw =>
    rw [hw]
    exact ⟨rfl, fun _ _ => rfl⟩
  | noTurnSleep _ _ _ hw | sleepRound _ hw | sleepMsg hw | nextThread _ hw =>
    rw [hw]
    exact ⟨rfl, fun _ hp => Heap.modify_cells_ne _ _ hp⟩
  | dequeue hstore hcs _ _ =>
    refine ⟨by rw [hcs, (afterDequeue_self _ _).2.1], fun p hp => ?_⟩
    rcases qDequeue_store hlists hcell hstore with ⟨-, -, hsame⟩ | ⟨last, node, -, -, -, hfreed⟩
    · rw [hsame]
    · rw [hfreed]
      exact Heap.modify_cells_ne _ _ hp

/-- What a step inside `q_dequeue_rr` does to the round of its queue and of the others. -/
theorem roundMoves_dequeue (hok : s.Ok) (hc : s.conns t = some c) (hm : c.machine = waitValueDequeue)
    (hp' : c.cs.currentQueue = some p') {queue' : Queue}
    (hcell' : s.store.queues.cells p' = some queue')
    (hcell : s.store.queues.cells p = some queue) (hring : Subscribed queue.rr members)
    (hmem : ∀ i, i ∈ members ↔ s.SubscribedTo i p)
    (heffect : DequeueEffect grain p' queue' (s.world c) w' c.point m' point') :
    RoundMoves grain members s (s.commit t m' point' w') p queue t := by
  obtain ⟨hid, -⟩ := hok.self t c hc
  by_cases hpp : p = p'
  · subst hpp
    obtain rfl := Option.some.inj (hcell.symm.trans hcell')
    have ht : t ∈ members := (hmem t).mpr ⟨c, hc, by rw [hm]; rfl, hp'⟩
    have hpoint : s.pointAt p t = some c.point := by rw [pointAt_of_conn hc, if_pos ⟨hm, hp'⟩]
    have hmove : ∀ {queue' : Queue}, w'.store.queues.cells p = some queue' →
        DequeueRound grain members (s.round p queue) t c.point ((s.round p queue').move t
          (if m' = waitValueDequeue ∧ w'.cs.currentQueue = some p then some point' else none)) →
        RoundMoves grain members s (s.commit t m' point' w') p queue t := by
      intro queue' hqueue' hround
      refine ⟨queue', hqueue', ?_⟩
      rw [round_commit]
      exact .consume ht hpoint hround
    have hmodify : ∀ change : Queue → Queue,
        (s.store.queues.modify p change).cells p = some (change queue) :=
      Heap.modify_cells_of_live hcell
    have hwaits : ∀ {w : World}, w.cs.currentQueue = c.cs.currentQueue →
        waitValueDequeue = waitValueDequeue ∧ w.cs.currentQueue = some p :=
      fun hsame => ⟨rfl, hsame.trans hp'⟩
    generalize hat : c.point = point at heffect hmove
    cases heffect with
    | turn hturn hw =>
      subst hw
      apply hmove hcell
      rw [if_pos (hwaits rfl)]
      exact .turn (hturn.trans hid)
    | noTurn hgrain hturn hw =>
      subst hw
      apply hmove hcell
      rw [if_pos (hwaits rfl)]
      exact .noTurn hgrain (hid ▸ hturn)
    | noTurnSleep hgrain hturn hsleep hw =>
      subst hw
      rw [sleepRound_eq_ok hsleep] at hmove ⊢
      apply hmove (hmodify _)
      rw [if_pos (hwaits rfl)]
      subst hid
      exact .noTurnSleep hgrain hturn
    | sleepRound hsleep hw =>
      subst hw
      rw [sleepRound_eq_ok hsleep] at hmove ⊢
      apply hmove (hmodify _)
      rw [if_pos (hwaits rfl)]
      subst hid
      exact .sleepRound
    | wakeRound hawake hw =>
      subst hw
      apply hmove hcell
      rw [if_pos (hwaits rfl)]
      subst hid
      exact .wakeRound hawake
    | message hsize hw =>
      subst hw
      apply hmove hcell
      rw [if_pos (hwaits rfl)]
      exact .message hsize
    | noMessage hsize hw =>
      subst hw
      apply hmove hcell
      rw [if_pos (hwaits rfl)]
      exact .noMessage hsize
    | sleepMsg hw =>
      subst hw
      apply hmove (hmodify _)
      rw [if_pos (hwaits rfl)]
      subst hid
      exact .sleepMsg
    | wakeMsg hawake hw =>
      subst hw
      apply hmove hcell
      rw [if_pos (hwaits rfl)]
      exact .wakeMsg (hid ▸ hawake)
    | dequeue hstore hcs _ _ =>
      have hqueue : w'.cs.currentQueue = c.cs.currentQueue := by
        rw [hcs]
        exact (afterDequeue_self _ _).2.1
      rcases qDequeue_store hok.lists hcell hstore with ⟨-, hsize, hsame⟩ |
        ⟨last, node, -, hsize, -, hfreed⟩
      · apply hmove (by rw [hsame]; exact hcell)
        rw [if_pos (hwaits hqueue)]
        exact .empty hsize
      · apply hmove (by rw [hfreed]; exact hmodify _)
        rw [if_pos (hwaits hqueue)]
        exact .found hsize
    | nextThread hnext hw =>
      subst hw
      obtain ⟨next', rr', hnext', hpassed⟩ := nextThread_spec hring (List.ne_nil_of_mem ht)
      cases hnext.symm.trans hnext'
      apply hmove (hmodify _)
      rw [if_neg (by simp)]
      exact .nextThread hpassed
  · have hbefore : ¬ (c.machine = waitValueDequeue ∧ c.cs.currentQueue = some p) := by
      rintro ⟨-, hp⟩
      rw [hp'] at hp
      exact hpp (Option.some.inj hp).symm
    obtain ⟨hqueue, hothers⟩ := dequeueEffect_frame hok.lists hcell' heffect
    refine roundMoves_commit_idle hc ((hothers p hpp).trans hcell) hbefore ?_
    rintro ⟨-, hp⟩
    rw [hqueue, show (s.world c).cs.currentQueue = some p' from hp'] at hp
    exact hpp (Option.some.inj hp).symm

/-- A connection that comes or goes outside the consuming states leaves every round alone. -/
theorem pointAt_replace {next : Option Conn} (hbefore : ∀ c ∈ s.conns t, c.machine ≠ waitValueDequeue)
    (hafter : ∀ c ∈ next, c.machine ≠ waitValueDequeue) (p : ℕ) :
    pointAt { s with conns := Function.update s.conns t next } p = s.pointAt p := by
  have houtside : ∀ {s : Broker}, (∀ c ∈ s.conns t, c.machine ≠ waitValueDequeue) →
      s.pointAt p t = none := by
    intro s hs
    cases hc : s.conns t with
    | none => rw [pointAt, hc]
    | some c => rw [pointAt_of_conn hc, if_neg fun h => hs c hc h.1]
  apply pointAt_congr (t := t)
  · intro i hi
    exact Function.update_of_ne hi _ _
  · rw [houtside hbefore, houtside]
    intro c hc
    have hupdate : Function.update s.conns t next t = some c := hc
    rw [Function.update_self] at hupdate
    exact hafter c hupdate

/-- What a wakeup that nobody caused does to the round of a queue: nothing, unless the thread
is at that queue. -/
theorem round_wakes (hok : s.Ok) (hc : s.conns t = some c) {queue' : Queue}
    (hcell' : s.store.queues.cells p' = some queue')
    (hcell : s.store.queues.cells p = some queue) {store' : Store}
    (hwoken : Woken p' queue' c.cs.threadId s.store c.point store') :
    ∃ queue'', store'.queues.cells p = some queue'' ∧
      ((s.commit t c.machine c.point { s.world c with store := store' }).round p queue'' =
          s.round p queue ∧ queue'' = queue ∨
        RoundWoken (s.round p queue) t
          ((s.commit t c.machine c.point { s.world c with store := store' }).round p queue'')) := by
  obtain ⟨hid, -⟩ := hok.self t c hc
  rw [hid] at hwoken
  have hpoints : (s.commit t c.machine c.point { s.world c with store := store' }).pointAt p =
      s.pointAt p := by
    rw [pointAt_commit, Function.update_eq_self_iff, pointAt_of_conn hc]
    rfl
  generalize c.point = point at hwoken hpoints ⊢
  by_cases hpp : p = p'
  · subst hpp
    obtain rfl := Option.some.inj (hcell.symm.trans hcell')
    cases hwoken with
    | wakeRound =>
      refine ⟨_, Heap.modify_cells_of_live hcell _, Or.inr ?_⟩
      rw [round, round, hpoints]
      exact .wakeRound
    | wakeMsg =>
      refine ⟨_, Heap.modify_cells_of_live hcell _, Or.inr ?_⟩
      rw [round, round, hpoints]
      exact .wakeMsg
  · have hsame : store'.queues.cells p = some queue := by
      cases hwoken with
      | wakeRound | wakeMsg => exact (Heap.modify_cells_ne _ _ hpp).trans hcell
    refine ⟨queue, hsame, Or.inl ⟨?_, rfl⟩⟩
    rw [round, hpoints, round]

/-- A step moves every round in one of the ways above when a thread runs or wakes up by
itself, and leaves it alone when a connection comes or goes. -/
theorem round_cases (hok : s.Ok) (hstep : Broker.step grain s act = .ok s')
    (hcell : s.store.queues.cells p = some queue) :
    ((∀ t writes, act ≠ .run t writes) ∧ s'.store.queues.cells p = some queue ∧
        s'.round p queue = s.round p queue) ∨
      (∃ t writes members, act = .run t writes ∧ Subscribed queue.rr members ∧
        (∀ i, i ∈ members ↔ s.SubscribedTo i p) ∧ RoundMoves grain members s s' p queue t) ∨
      ∃ t queue', act = .spurious t ∧ s'.store.queues.cells p = some queue' ∧
        RoundWoken (s.round p queue) t (s'.round p queue') := by
  obtain ⟨members, hring, hmem⟩ := hok.rings p queue hcell
  cases step_cases hstep with
  | accept _ _ hfree hs' =>
    subst hs'
    refine Or.inl ⟨nofun, hcell, congrArg (Round.mk _ _ _) (pointAt_replace ?_ ?_ p)⟩
    · intro c hc
      exact absurd (hfree.symm.trans hc) nofun
    · intro c hc hm
      cases hc
      cases hm
  | handler hc hrun heffect hs' =>
    subst hs'
    exact Or.inr (Or.inl ⟨_, _, members, rfl, hring, hmem,
      roundMoves_handler hok hc hcell hring hmem hrun heffect⟩)
  | dequeue hc hm hp hcell' heffect hs' =>
    subst hs'
    exact Or.inr (Or.inl ⟨_, _, members, rfl, hring, hmem,
      roundMoves_dequeue hok hc hm hp hcell' hcell hring hmem heffect⟩)
  | close hc hleft hs' =>
    subst hs'
    refine Or.inl ⟨nofun, hcell, congrArg (Round.mk _ _ _) (pointAt_replace ?_ ?_ p)⟩
    · intro c' hc' hm
      obtain rfl := Option.some.inj (hc.symm.trans hc')
      rw [hm] at hleft
      rcases hleft with hleft | hleft <;> cases hleft
    · exact of_noConn
  | spurious hc _ _ hcell' hwoken hs' =>
    subst hs'
    obtain ⟨queue', hqueue', ⟨hround, rfl⟩ | hround⟩ := round_wakes hok hc hcell' hcell hwoken
    · exact Or.inl ⟨nofun, hqueue', hround⟩
    · exact Or.inr (Or.inr ⟨_, queue', rfl, hqueue', hround⟩)

/-- Only `new_queue` makes a queue. -/
theorem eq_fresh_of_new (hok : s.Ok) (hstep : Broker.step grain s act = .ok s')
    (hnew : s.store.queues.cells p = none) (hcell : s'.store.queues.cells p = some queue) :
    ∃ name, queue = .fresh name := by
  have hdead : ¬ Live s.store.queues p := by
    rintro ⟨queue', hcell'⟩
    rw [hnew] at hcell'
    cases hcell'
  have hlive : Live s'.store.queues p := ⟨queue, hcell⟩
  cases step_cases hstep with
  | accept _ _ _ hs' =>
    subst hs'
    exact absurd hlive hdead
  | close _ _ hs' =>
    subst hs'
    exact absurd hlive hdead
  | spurious _ _ _ hcell' hwoken hs' =>
    subst hs'
    exact absurd (((hwoken.sameButSleepers hcell').lists.live_iff p).mp hlive) hdead
  | dequeue _ _ _ hcell' heffect hs' =>
    subst hs'
    rcases dequeueEffect_kind hcell' heffect with ⟨-, hsleepers, -, -, -⟩ |
      ⟨-, -, taken, hstore, -, -, -⟩ | ⟨-, -, next, rr, -, rfl⟩
    · exact absurd ((hsleepers.lists.live_iff p).mp hlive) hdead
    · obtain ⟨p', -, -, hdequeued⟩ := qDequeue_eq_ok hok.lists hstore
      exact absurd ((hdequeued.rings.live_iff p).mp hlive) hdead
    · exact absurd (((sameLists_withRing _ _ _).live_iff p).mp hlive) hdead
  | @handler t c m' w' _ hc _ heffect hs' =>
    subst hs'
    have hsame : w'.store.queues = s.store.queues → Live s.store.queues p := by
      intro hqueues
      rw [← hqueues]
      exact hlive
    cases heffect with
    | quiet _ hgrows => exact absurd (hsame (congrArg Store.queues hgrows.store)) hdead
    | ack _ _ hstore _ => exact absurd (hsame (congrArg Store.queues hstore)) hdead
    | publish _ _ hstore _ | consume _ _ hstore _ =>
      exact absurd (hsame (getQueue_eq_ok hok.pool hstore).2.queues) hdead
    | enqueue _ _ hstore _ =>
      obtain ⟨p', -, -, henqueued⟩ := qEnqueue_eq_ok hok.lists hstore
      exact absurd ((henqueued.rings.live_iff p).mp hlive) hdead
    | subscribe _ _ hstore _ _ | reject _ _ hstore _ _ =>
      obtain ⟨p', queue', rr, -, -, -, hw⟩ := onRing_unit_eq_ok hstore
      have hsame := sameLists_withRing s.store p' rr
      rw [← show _ = s.store.withRing p' rr from hw] at hsame
      exact absurd ((hsame.live_iff p).mp hlive) hdead
    | @declare name _ _ _ hstore _ =>
      rcases createQueue_eq_ok hok.pool hstore with ⟨-, hlooked⟩ | hinserted
      · exact absurd (hsame hlooked.queues) hdead
      · refine ⟨name, ?_⟩
        have hqueue := hcell
        change (World.store _).queues.cells p = _ at hqueue
        rw [hinserted.queues, Heap.alloc_cells] at hqueue
        split at hqueue
        · exact (Option.some.inj hqueue).symm
        · change s.store.queues.cells p = _ at hqueue
          rw [hnew] at hqueue
          cases hqueue

/-- Nobody is inside `q_dequeue_rr` on a queue without subscribers. -/
theorem Ok.pointAt_of_no_members (hok : s.Ok) (hcell : s.store.queues.cells p = some queue)
    (hcount : queue.rr.count = 0) (t : ℤ) : s.pointAt p t = none := by
  obtain ⟨members, hring, hmem⟩ := hok.rings p queue hcell
  cases hpoint : s.pointAt p t with
  | none => rfl
  | some point =>
    have ht := (hmem t).mpr (subscribedTo_of_pointAt hpoint)
    have hlength := hring.count
    have hpositive := List.length_pos_of_mem ht
    omega

/-- Laws about the rounds: what holds of a queue nobody uses yet and is kept by every way a
thread moves a round, wakeups that nobody caused included, holds of every round in a run. -/
theorem round_invariant {guard : Broker → Act → Prop} {P : Round → Prop}
    (hnew : ∀ name, P (Queue.round (.fresh name)))
    (hmove : ∀ s t writes p queue members r', s.Ok → guard s (.run t writes) →
      s.store.queues.cells p = some queue → Subscribed queue.rr members →
      (∀ i, i ∈ members ↔ s.SubscribedTo i p) → P (s.round p queue) →
      RoundStep grain members (s.Joins p t) (s.Leaves p t) (s.round p queue) t r' → P r')
    (hwake : ∀ s t r r', guard s (.spurious t) → P r → RoundWoken r t r' → P r')
    (h : Reaches (Broker.step grain) guard initial s) (hcell : s.store.queues.cells p = some queue) :
    P (s.round p queue) := by
  have hall : ∀ s, Reaches (Broker.step grain) guard initial s → ∀ p queue,
      s.store.queues.cells p = some queue → P (s.round p queue) := by
    intro s h
    induction h with
    | refl => exact nofun
    | @tail s s' act hreaches hguard hstep ih =>
      intro p queue' hcell'
      have hok : s.Ok := ok_of_reaches hreaches
      cases hcell : s.store.queues.cells p with
      | none =>
        obtain ⟨name, rfl⟩ := eq_fresh_of_new hok hstep hcell hcell'
        have hpoint : s'.pointAt p = fun _ => none :=
          funext fun t => (hok.step hstep).pointAt_of_no_members hcell' rfl t
        rw [round, hpoint]
        exact hnew name
      | some queue =>
        rcases round_cases hok hstep hcell with ⟨-, hsame, hround⟩ |
          ⟨t, writes, members, rfl, hring, hmem, queue'', hcell'', hround⟩ |
          ⟨t, queue'', rfl, hcell'', hround⟩
        · obtain rfl := Option.some.inj (hcell'.symm.trans hsame)
          rw [hround]
          exact ih p queue' hcell
        · obtain rfl := Option.some.inj (hcell'.symm.trans hcell'')
          exact hmove s t writes p queue members _ hok hguard hcell hring hmem (ih p queue hcell) hround
        · obtain rfl := Option.some.inj (hcell'.symm.trans hcell'')
          exact hwake s t _ _ hguard (ih p queue hcell) hround
  exact hall s h p queue hcell

end Broker

end AmqpBroker
