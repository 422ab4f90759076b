import AmqpBroker.Model.Signal
import AmqpBroker.Verification.QueueLaws

/-!
# The new-message signal

`wait_msg` reads `size` with no lock and goes to sleep in a second step, without reading it
again. A broadcast between the two is lost; every other one finds the consumer awake, or
asleep where it can be woken.
-/

namespace AmqpBroker

open Foundations Program

variable {q : Option ℕ} {threadId : ℤ} {s s' : Signal}

/-- The fields of the queue after the list update of the node `n`. -/
def Queue.linked (queue : Queue) (n : ℕ) : Queue := { queue with
  firstNode := some n
  lastNode := if queue.lastNode = none then some n else queue.lastNode
  size := queue.size + 1 }

/-- A broadcast right after a change of the queue is one change. -/
theorem modifyQueue_qBroadcast {p n : ℕ} {queue : Queue} {store : Store} (change : Queue → Queue)
    (hcell : store.queues.cells p = some queue) :
    ((do
      modifyQueue p change
      pure n) >>= fun n => do
        qBroadcast (some p)
        pure n : Shared ℕ) store =
    .ok (n, { store with
      queues := store.queues.modify p fun queue => { change queue with newMsgCond := ∅ } }) := by
  have hchanged : (store.queues.modify p change).cells p = some (change queue) :=
    Heap.modify_cells_of_live hcell change
  have hmodify : (do
      modifyQueue p change
      pure n : Shared ℕ) store =
        .ok (n, { store with queues := store.queues.modify p change }) := rfl
  have hbroadcast : qBroadcast (some p) { store with queues := store.queues.modify p change } =
      .ok ((), { store with
        queues := store.queues.modify p fun queue => { change queue with newMsgCond := ∅ } }) := by
    rw [qBroadcast, bind_of_ok (derefQueue_of_cell hchanged)]
    change Except.ok ((), { store with queues := (store.queues.modify p change).modify p _ }) = _
    rw [Heap.modify_modify]
    rfl
  rw [bind_of_ok hmodify, bind_of_ok hbroadcast]
  rfl

/-- `q_enqueue` is its list update followed by its broadcast. -/
theorem qEnqueue_eq_link_broadcast (q : Option ℕ) (body : List UInt8) :
    qEnqueue q body = (do
      let n ← qLink q body
      qBroadcast q
      pure n) := by
  unfold qEnqueue qLink
  rw [bind_assoc]
  congr 1
  funext n store
  rw [bind_assoc]
  cases hderef : derefQueue q store with
  | error reason => rw [bind_of_error hderef, bind_of_error hderef]
  | ok r =>
    obtain ⟨⟨p, queue⟩, store'⟩ := r
    obtain ⟨rfl, hcell, rfl⟩ := derefQueue_eq_ok hderef
    rw [bind_of_ok hderef, bind_of_ok hderef]
    have hwhole : ∀ nodes : Heap QNode, _ := fun nodes =>
      modifyQueue_qBroadcast (n := n) (·.linked n)
        (show { store' with nodes := nodes }.queues.cells p = some queue from hcell)
    cases hfirst : queue.firstNode with
    | none =>
      simp only [hfirst]
      exact (hwhole store'.nodes).symm
    | some first =>
      simp only [hfirst]
      cases hnode : derefNode first store' with
      | error reason => rw [bind_assoc, bind_of_error hnode, bind_of_error hnode]
      | ok r =>
        obtain ⟨node, store⟩ := r
        obtain ⟨-, rfl⟩ := derefNode_eq_ok hnode
        rw [bind_assoc, bind_of_ok hnode, bind_of_ok hnode]
        exact (hwhole _).symm

namespace Signal

/-- The queue that everybody works on. -/
def queue (q : Option ℕ) (s : Signal) : Option Queue := q.bind s.store.queues.cells

/-- The consumer sleeps in `wait_msg` on a queue with messages, and no call of `q_enqueue`
has its broadcast still to come. -/
def Missed (q : Option ℕ) (threadId : ℤ) (s : Signal) : Prop :=
  ∃ queue, s.queue q = some queue ∧ s.consumer = .wakeMsg ∧ threadId ∈ queue.newMsgCond ∧
    queue.size ≠ 0 ∧ ∀ n point, s.publishers n = some point → point = .unlock

/-- The step is not a broadcast while the consumer is between its reading of `size` and its
wait. -/
def Heard (s : Signal) : SignalAct → Prop
  | .publisher n => s.publishers n = some .broadcast → s.consumer ≠ .sleepMsg
  | _ => True

instance (s : Signal) : DecidablePred s.Heard := fun a =>
  match a with
  | .publisher _ => inferInstanceAs (Decidable (_ → _))
  | .enqueue _ _ | .consumer | .spurious => isTrue trivial

/-- Whenever the consumer sleeps, or is about to, on a queue with messages, a broadcast is
about to come. -/
def Watched (q : Option ℕ) (threadId : ℤ) (s : Signal) : Prop :=
  ∀ queue, s.queue q = some queue →
    s.consumer = .sleepMsg ∨ s.consumer = .wakeMsg ∧ threadId ∈ queue.newMsgCond →
      queue.size ≠ 0 → ∃ n, s.publishers n = some .broadcast

/-- A publisher that is not at its broadcast moves on, and the queue stays. -/
theorem Watched.setPublisher (h : s.Watched q threadId) {n : ℕ} {point : Option PublisherPoint}
    (hn : s.publishers n ≠ some .broadcast) : (s.setPublisher n point).Watched q threadId := by
  intro queue hqueue hwaits hsize
  obtain ⟨m, hm⟩ := h queue hqueue hwaits hsize
  have hne : m ≠ n := by
    intro hsame
    exact hn (hsame ▸ hm)
  exact ⟨m, by simpa [Signal.setPublisher, Function.update_of_ne hne] using hm⟩

/-- A consumer that neither sleeps nor is about to needs no broadcast. -/
theorem watched_of_awake (hsleep : s.consumer ≠ .sleepMsg)
    (hwake : s.consumer = .wakeMsg → ∀ queue, s.queue q = some queue →
      threadId ∉ queue.newMsgCond) : s.Watched q threadId := by
  intro queue hqueue hwaits
  obtain hsleeps | ⟨hwakes, hasleep⟩ := hwaits
  · exact absurd hsleeps hsleep
  · exact absurd hasleep (hwake hwakes queue hqueue)

/-- What a change of the queue leaves in it. -/
theorem modifyQueue_of_deref {store store' : Store} {change : Queue → Queue}
    (h : (do
      let (p, _) ← derefQueue q
      modifyQueue p change : Shared Unit) store = .ok ((), store')) :
    q.bind store'.queues.cells = (q.bind store.queues.cells).map change := by
  obtain ⟨⟨p, queue⟩, store₁, hderef, hmodify⟩ := bind_eq_ok.mp h
  obtain ⟨hq, hcell, rfl⟩ := derefQueue_eq_ok hderef
  cases hmodify
  rw [hq]
  exact Heap.modify_cells_self ..

/-- A step of a publisher keeps a broadcast ahead of a sleeping consumer. -/
theorem Watched.publisherStep (h : s.Watched q threadId) {n : ℕ} (hheard : s.Heard (.publisher n))
    (hstep : s.publisherStep q n = .ok s') : s'.Watched q threadId := by
  unfold Signal.publisherStep at hstep
  cases hpoint : s.publishers n with
  | none =>
    simp only [hpoint] at hstep
    cases hstep
  | some point =>
    have hnot : point ≠ .broadcast → s.publishers n ≠ some .broadcast := by
      intro hne hsome
      exact hne (Option.some.inj (hpoint.symm.trans hsome))
    cases point with
    | lock body =>
      simp only [hpoint] at hstep
      split at hstep
      · cases hstep
        have hlocked : Watched q threadId { s with mutex := some n } := h
        exact hlocked.setPublisher (hnot nofun)
      · cases hstep
    | link body =>
      simp only [hpoint] at hstep
      cases hlink : qLink q body s.store with
      | error reason =>
        rw [hlink] at hstep
        cases hstep
      | ok r =>
        rw [hlink] at hstep
        cases hstep
        intro queue _ _ _
        exact ⟨n, Function.update_self ..⟩
    | broadcast =>
      simp only [hpoint] at hstep
      cases hbroadcast : qBroadcast q s.store with
      | error reason =>
        rw [hbroadcast] at hstep
        cases hstep
      | ok r =>
        rw [hbroadcast] at hstep
        cases hstep
        apply watched_of_awake
        · exact hheard hpoint
        · intro _ queue hqueue hasleep
          change q.bind r.2.queues.cells = some queue at hqueue
          rw [modifyQueue_of_deref hbroadcast] at hqueue
          obtain ⟨before, -, rfl⟩ := Option.map_eq_some_iff.mp hqueue
          exact Finset.notMem_empty _ hasleep
    | unlock =>
      simp only [hpoint] at hstep
      cases hstep
      have hunlocked : Watched q threadId { s with mutex := none } := h
      exact hunlocked.setPublisher (hnot nofun)

/-- A step of the consumer leads it to sleep only on a queue that it has found empty. -/
theorem Watched.consumerStep (h : s.Watched q threadId)
    (hstep : s.consumerStep q threadId = .ok s') : s'.Watched q threadId := by
  unfold Signal.consumerStep at hstep
  cases hpoint : s.consumer with
  | testMsg =>
    simp only [hpoint] at hstep
    cases htest : testMsg q s.store with
    | error reason =>
      rw [htest] at hstep
      cases hstep
    | ok r =>
      rw [htest] at hstep
      cases hstep
      obtain ⟨⟨p, queue⟩, store, hderef, hfound⟩ := bind_eq_ok.mp htest
      obtain ⟨hq, hcell, rfl⟩ := derefQueue_eq_ok hderef
      cases hfound
      intro queue' hqueue hwaits hsize
      change q.bind s.store.queues.cells = some queue' at hqueue
      rw [hq] at hqueue
      obtain rfl := Option.some.inj (hqueue.symm.trans hcell)
      -- a consumer that has found a message neither sleeps nor is about to
      simp [hsize] at hwaits
  | sleepMsg =>
    simp only [hpoint] at hstep
    cases hsleep : sleepOnMsg q threadId s.store with
    | error reason =>
      rw [hsleep] at hstep
      cases hstep
    | ok r =>
      rw [hsleep] at hstep
      cases hstep
      intro queue hqueue _ hsize
      change q.bind r.2.queues.cells = some queue at hqueue
      rw [modifyQueue_of_deref hsleep] at hqueue
      obtain ⟨before, hbefore, rfl⟩ := Option.map_eq_some_iff.mp hqueue
      exact h before hbefore (.inl hpoint) hsize
  | wakeMsg =>
    simp only [hpoint] at hstep
    cases hasleep : asleepOnMsg q threadId s.store with
    | error reason =>
      rw [hasleep] at hstep
      cases hstep
    | ok r =>
      rw [hasleep] at hstep
      simp only [bind, Except.bind, pure, Except.pure] at hstep
      split at hstep
      · cases hstep
      · cases hstep
        exact watched_of_awake nofun nofun
  | dequeue =>
    simp only [hpoint] at hstep
    split at hstep
    · cases hdequeue : qDequeue q s.store with
      | error reason =>
        rw [hdequeue] at hstep
        cases hstep
      | ok r =>
        rw [hdequeue] at hstep
        cases hstep
        exact watched_of_awake nofun nofun
    · cases hstep

/-- Every step that does not broadcast to a consumer about to sleep keeps a broadcast ahead of
a sleeping consumer. -/
theorem Watched.next {a : SignalAct} (h : s.Watched q threadId) (hheard : s.Heard a)
    (hstep : s.step q threadId a = .ok s') : s'.Watched q threadId := by
  cases a with
  | enqueue n body =>
    simp only [Signal.step] at hstep
    cases hpoint : s.publishers n with
    | some point =>
      simp only [hpoint] at hstep
      cases hstep
    | none =>
      simp only [hpoint] at hstep
      cases hstep
      apply h.setPublisher
      rw [hpoint]
      nofun
  | publisher n => exact h.publisherStep hheard hstep
  | consumer => exact h.consumerStep hstep
  | spurious =>
    simp only [Signal.step] at hstep
    by_cases hpoint : s.consumer = .wakeMsg
    · rw [if_pos hpoint] at hstep
      cases hwake : wakeOnMsg q threadId s.store with
      | error reason =>
        rw [hwake] at hstep
        cases hstep
      | ok r =>
        rw [hwake] at hstep
        cases hstep
        apply watched_of_awake
        · rw [hpoint]
          nofun
        · intro _ queue hqueue hasleep
          change q.bind r.2.queues.cells = some queue at hqueue
          rw [modifyQueue_of_deref hwake] at hqueue
          obtain ⟨before, -, rfl⟩ := Option.map_eq_some_iff.mp hqueue
          exact Finset.notMem_erase _ _ hasleep
    · rw [if_neg hpoint] at hstep
      cases hstep

/-- In every run that broadcasts only while the consumer is not between its reading of `size`
and its wait, the new-message signal is never missed. -/
theorem signal_never_missed {store : Store}
    (h : Reaches (step q threadId) Heard (start store) s) : ¬ s.Missed q threadId := by
  have hwatched : s.Watched q threadId :=
    h.invariant (watched_of_awake (by simp [start]) (by simp [start]))
      fun _ _ _ hs hheard hstep => hs.next hheard hstep
  intro ⟨queue, hqueue, hpoint, hasleep, hsize, hover⟩
  obtain ⟨n, hn⟩ := hwatched queue hqueue (.inr ⟨hpoint, hasleep⟩) hsize
  cases hover n _ hn

/-- A new queue by itself in memory. -/
def oneQueue : Store :=
  { nodes := .empty
    queues := Heap.empty.alloc {
      name := [0x71]
      size := 0
      rr := initRoundRobinScheduler uninitializedScheduler
      newMsgCond := ∅
      firstNode := none
      lastNode := none }
    trie := .empty }

/-- A message published while the consumer sleeps, up to before its broadcast. -/
def publishDuringSleep : List SignalAct :=
  [.consumer, .consumer, .enqueue 0 [0x61], .publisher 0, .publisher 0]

/-- A consumer that sleeps on a published message has the broadcast before it. -/
theorem signal_never_missed_duringSleep :
    ∃ s, guardedExec (Signal.step (some 0) 7) Heard (start oneQueue) publishDuringSleep = some s ∧
      (s.queue (some 0)).map (fun queue => (queue.size, queue.newMsgCond)) = some (1, {7}) ∧
      ¬ s.Missed (some 0) 7 := by
  have hrun : ∃ s, guardedExec (Signal.step (some 0) 7) Heard (start oneQueue)
      publishDuringSleep = some s ∧
        (s.queue (some 0)).map (fun queue => (queue.size, queue.newMsgCond)) = some (1, {7}) :=
    ⟨_, rfl, rfl⟩
  obtain ⟨s, hrun, hview⟩ := hrun
  exact ⟨s, hrun, hview, signal_never_missed (reaches_of_guardedExec hrun)⟩

/-- A message published between the reading of `size` and the wait of the consumer. -/
def publishBeforeSleep : List SignalAct :=
  [.consumer, .enqueue 0 [0x61], .publisher 0, .publisher 0, .publisher 0, .publisher 0, .consumer]

/-- A broadcast between the reading of `size` and the wait is missed. -/
theorem publishBeforeSleep_missed :
    ∃ s, exec (Signal.step (some 0) 7) (start oneQueue) publishBeforeSleep = .ok s ∧
      s.Missed (some 0) 7 := by
  refine ⟨_, rfl, _, rfl, rfl, ?_, ?_, ?_⟩
  · decide
  · decide
  · intro n point hn
    by_cases hzero : n = 0
    · simp [setPublisher, hzero] at hn
    · simp [setPublisher, start] at hn

end Signal

end AmqpBroker
