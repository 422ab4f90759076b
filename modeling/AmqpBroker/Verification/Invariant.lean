import AmqpBroker.Verification.Steps

/-!
# The structural invariant of the broker

In every reachable state the pool is a map, the queues are disjoint lists, every queue
chosen by a connection exists, and the ring of a queue holds exactly the connections that
consume from it. The claims about routing, turns and custody build on this.
-/

namespace AmqpBroker

open Foundations Program MachineState

/-- The connection `t` consumes from the queue at `p`. -/
def Broker.SubscribedTo (s : Broker) (t : ℤ) (p : ℕ) : Prop :=
  ∃ c, s.conns t = some c ∧ c.machine.subscribed = true ∧ c.cs.currentQueue = some p

/-- The structural invariant. -/
structure Broker.Ok (s : Broker) : Prop where
  pool : PoolOk s.store
  lists : ListsOk s.store
  self : ∀ t c, s.conns t = some c → c.cs.threadId = t ∧ 0 ≤ t ∧ t < maxConnections
  chosen : ∀ t c p, s.conns t = some c → c.cs.currentQueue = some p → Live s.store.queues p
  held : ∀ t c, s.conns t = some c → c.machine.subscribed = true → c.cs.currentQueue ≠ none
  rings : ∀ p queue, s.store.queues.cells p = some queue →
    ∃ members, Subscribed queue.rr members ∧ ∀ t, t ∈ members ↔ s.SubscribedTo t p

/-- Two stores that differ in the threads asleep only. -/
structure SameButSleepers (store store' : Store) : Prop where
  lists : SameLists store store'
  rings : ∀ p queue', store'.queues.cells p = some queue' →
    ∃ queue, store.queues.cells p = some queue ∧ queue'.rr.current = queue.rr.current ∧
      ∀ members, Subscribed queue.rr members → Subscribed queue'.rr members

variable {store store' : Store} {s s' : Broker} {t : ℤ} {c : Conn} {m m' : MachineState}
  {p : ℕ} {queue : Queue} {w w' : World} {grain : Grain} {point point' : DequeuePoint}

/-- Untouched memory is the same. -/
theorem SameButSleepers.refl (store : Store) : SameButSleepers store store :=
  ⟨.refl store, fun _ queue' hcell => ⟨queue', hcell, rfl, fun _ h => h⟩⟩

/-- A change of one queue that leaves its list, its links and its turn alone. -/
theorem sameButSleepers_modify {change : Queue → Queue} (hcell : store.queues.cells p = some queue)
    (hlists : SameLists store { store with queues := store.queues.modify p change })
    (hcurrent : (change queue).rr.current = queue.rr.current)
    (hring : ∀ members, Subscribed queue.rr members → Subscribed (change queue).rr members) :
    SameButSleepers store { store with queues := store.queues.modify p change } := by
  refine ⟨hlists, fun p' queue' hcell' => ?_⟩
  by_cases hp : p' = p
  · subst hp
    rw [Heap.modify_cells_self, hcell, Option.map_some] at hcell'
    obtain rfl := Option.some.inj hcell'
    exact ⟨queue, hcell, hcurrent, hring⟩
  · rw [Heap.modify_cells_ne _ _ hp] at hcell'
    exact ⟨queue', hcell', rfl, fun _ h => h⟩

/-- Falling asleep on `new_msg_cond` changes nothing else. -/
theorem sameButSleepers_withSleeper (hcell : store.queues.cells p = some queue) (t : ℤ) :
    SameButSleepers store (store.withSleeper p t) :=
  sameButSleepers_modify hcell (sameLists_modify fun _ => ⟨rfl, rfl, rfl, rfl⟩) rfl fun _ h => h

/-- Falling asleep on a `round_cond` changes nothing else. -/
theorem sameButSleepers_setRoundCond (hcell : store.queues.cells p = some queue) (i : ℤ)
    (asleep : Finset ℤ) :
    SameButSleepers store (store.withRing p (queue.rr.setRoundCond i asleep)) :=
  sameButSleepers_modify hcell (sameLists_withRing store p _) rfl fun _ h => h.setRoundCond i asleep

/-- Who waits for its turn is asleep on its own `round_cond`. -/
theorem sleepRound_eq_ok {rr rr' : RoundRobinScheduler} (h : sleepRound rr t = .ok rr') :
    rr' = rr.setRoundCond t (insert t (rr.subs t).roundCond) := by
  unfold sleepRound subIndex at h
  split at h
  · cases h
    rfl
  · cases h

/-- Waking up changes nothing but the sleepers. -/
theorem Woken.sameButSleepers (hcell : store.queues.cells p = some queue)
    (h : Woken p queue t store point store') : SameButSleepers store store' := by
  cases h with
  | wakeRound => exact sameButSleepers_setRoundCond hcell _ _
  | wakeMsg =>
    exact sameButSleepers_modify hcell (sameLists_modify fun _ => ⟨rfl, rfl, rfl, rfl⟩) rfl
      fun _ h => h

/-- A step inside `q_dequeue_rr` changes only sleepers, takes a message, or passes the turn. -/
theorem dequeueEffect_kind (hcell : w.store.queues.cells p = some queue)
    (h : DequeueEffect grain p queue w w' point m' point') :
    (m' = waitValueDequeue ∧ SameButSleepers w.store w'.store ∧ w'.cs = w.cs ∧
      w'.socket = w.socket ∧ w'.trace = w.trace) ∨
    (m' = waitValueDequeue ∧ point' = .nextThread ∧ ∃ taken,
      qDequeue (some p) w.store = .ok (taken, w'.store) ∧ w'.cs = w.cs.afterDequeue taken ∧
      w'.socket = w.socket ∧ w'.trace = w.trace ++ [.qDequeue (some p) taken]) ∨
    (m' = valueDequeueReceived ∧ point = .nextThread ∧ ∃ next rr,
      nextThread queue.rr = .ok (next, rr) ∧ w' = { w with store := w.store.withRing p rr }) := by
  have hsame : w' = w → SameButSleepers w.store w'.store ∧ w'.cs = w.cs ∧
      w'.socket = w.socket ∧ w'.trace = w.trace := by
    rintro rfl
    exact ⟨.refl _, rfl, rfl, rfl⟩
  have hsleep : ∀ {rr}, AmqpBroker.sleepRound queue.rr w.cs.threadId = .ok rr →
      w' = { w with store := w.store.withRing p rr } →
      SameButSleepers w.store w'.store ∧ w'.cs = w.cs ∧ w'.socket = w.socket ∧
        w'.trace = w.trace := by
    rintro rr hrr rfl
    rw [sleepRound_eq_ok hrr]
    exact ⟨sameButSleepers_setRoundCond hcell _ _, rfl, rfl, rfl⟩
  cases h with
  | turn _ hw => exact Or.inl ⟨rfl, hsame hw⟩
  | noTurn _ _ hw => exact Or.inl ⟨rfl, hsame hw⟩
  | noTurnSleep _ _ hrr hw => exact Or.inl ⟨rfl, hsleep hrr hw⟩
  | sleepRound hrr hw => exact Or.inl ⟨rfl, hsleep hrr hw⟩
  | wakeRound _ hw => exact Or.inl ⟨rfl, hsame hw⟩
  | message _ hw => exact Or.inl ⟨rfl, hsame hw⟩
  | noMessage _ hw => exact Or.inl ⟨rfl, hsame hw⟩
  | sleepMsg hw =>
    refine Or.inl ⟨rfl, ?_⟩
    rw [hw]
    exact ⟨sameButSleepers_withSleeper hcell _, rfl, rfl, rfl⟩
  | wakeMsg _ hw => exact Or.inl ⟨rfl, hsame hw⟩
  | dequeue hstore hcs hsocket htrace =>
    exact Or.inr (Or.inl ⟨rfl, rfl, _, hstore, hcs, hsocket, htrace⟩)
  | nextThread hrr hw => exact Or.inr (Or.inr ⟨rfl, rfl, _, _, hrr, hw⟩)

/-- A dequeue leaves the queue and the name of the connection. -/
theorem afterDequeue_self (cs : ConnectionState) (taken : Option (ℕ × List UInt8)) :
    (cs.afterDequeue taken).threadId = cs.threadId ∧
      (cs.afterDequeue taken).currentQueue = cs.currentQueue ∧
      (cs.afterDequeue taken).currentQueueName = cs.currentQueueName := by
  cases taken <;> exact ⟨rfl, rfl, rfl⟩

/-- A quiet edge neither subscribes nor unsubscribes. -/
theorem quietNext_subscribed (h : m' ∈ quietNext m) : m'.subscribed = m.subscribed := by
  cases m <;> simp only [quietNext, List.mem_cons, List.not_mem_nil, or_false] at h <;>
    rcases h with rfl | rfl | rfl <;> rfl

/-- A quiet step does not begin to publish. -/
theorem quietNext_publishing (h : m' ∈ quietNext m) (hm' : m'.publishing = true) :
    m.publishing = true := by
  cases m <;> simp only [quietNext, List.mem_cons, List.not_mem_nil, or_false] at h <;>
    rcases h with rfl | rfl | rfl <;> first | rfl | cases hm'

/-- A quiet step does not begin to consume. -/
theorem quietNext_consuming (h : m' ∈ quietNext m) (hm' : m'.consuming = true) :
    m.consuming = true := by
  cases m <;> simp only [quietNext, List.mem_cons, List.not_mem_nil, or_false] at h <;>
    rcases h with rfl | rfl | rfl <;> first | rfl | cases hm'

namespace Broker

/-- Who consumes from what after a step of one thread. -/
theorem subscribedTo_commit (i : ℤ) :
    (s.commit t m point w).SubscribedTo i p ↔
      if i = t then m.subscribed = true ∧ w.cs.currentQueue = some p else s.SubscribedTo i p := by
  unfold SubscribedTo commit
  by_cases hi : i = t
  · subst hi
    simp
  · simp [hi]

/-- What a step of one thread has to keep. -/
theorem Ok.commit (h : s.Ok) (hc : s.conns t = some c) (hself : w.cs.threadId = c.cs.threadId)
    (hpool : PoolOk w.store) (hlists : ListsOk w.store)
    (hgrow : ∀ p, Live s.store.queues p → Live w.store.queues p)
    (hchosen : ∀ p, w.cs.currentQueue = some p → Live w.store.queues p)
    (hheld : m.subscribed = true → w.cs.currentQueue ≠ none)
    (hrings : ∀ p queue, w.store.queues.cells p = some queue →
      ∃ members, Subscribed queue.rr members ∧
        ∀ i, i ∈ members ↔ (s.commit t m point w).SubscribedTo i p) :
    (s.commit t m point w).Ok := by
  have hcommit : ∀ t' c', (s.commit t m point w).conns t' = some c' →
      (t' = t ∧ c' = ⟨m, point, w.cs, w.socket⟩) ∨ (t' ≠ t ∧ s.conns t' = some c') := by
    intro t' c' hc'
    by_cases ht : t' = t
    · subst ht
      exact Or.inl ⟨rfl, by simpa [Broker.commit] using hc'.symm⟩
    · exact Or.inr ⟨ht, by simpa [Broker.commit, ht] using hc'⟩
  refine ⟨hpool, hlists, fun t' c' hc' => ?_, fun t' c' p hc' hq => ?_, fun t' c' hc' hsub => ?_,
    hrings⟩
  · rcases hcommit t' c' hc' with ⟨rfl, rfl⟩ | ⟨-, hold⟩
    · obtain ⟨hid, hrange⟩ := h.self t' c hc
      exact ⟨hself.trans hid, hrange⟩
    · exact h.self t' c' hold
  · rcases hcommit t' c' hc' with ⟨-, rfl⟩ | ⟨-, hold⟩
    · exact hchosen p hq
    · exact hgrow p (h.chosen t' c' p hold hq)
  · rcases hcommit t' c' hc' with ⟨-, rfl⟩ | ⟨-, hold⟩
    · exact hheld hsub
    · exact h.held t' c' hold hsub

/-- The rings when nobody subscribes or unsubscribes. -/
theorem Ok.rings_same (h : s.Ok) (hc : s.conns t = some c)
    (hstatus : ∀ p, (m.subscribed = true ∧ w.cs.currentQueue = some p) ↔
      (c.machine.subscribed = true ∧ c.cs.currentQueue = some p))
    (hcells : ∀ p queue', w.store.queues.cells p = some queue' →
      (∃ queue, s.store.queues.cells p = some queue ∧
        ∀ members, Subscribed queue.rr members → Subscribed queue'.rr members) ∨
      (s.store.queues.cells p = none ∧ Subscribed queue'.rr [])) :
    ∀ p queue', w.store.queues.cells p = some queue' →
      ∃ members, Subscribed queue'.rr members ∧
        ∀ i, i ∈ members ↔ (s.commit t m point w).SubscribedTo i p := by
  intro p queue' hcell'
  have hiff : ∀ i, (s.commit t m point w).SubscribedTo i p ↔ s.SubscribedTo i p := by
    intro i
    rw [subscribedTo_commit]
    split
    · rename_i hi
      subst hi
      rw [hstatus]
      constructor
      · intro hself
        exact ⟨c, hc, hself⟩
      · rintro ⟨c', hc', hself⟩
        obtain rfl := Option.some.inj (hc.symm.trans hc')
        exact hself
    · rfl
  rcases hcells p queue' hcell' with ⟨queue, hcell, hring⟩ | ⟨hnone, hring⟩
  · obtain ⟨members, hmembers, hmem⟩ := h.rings p queue hcell
    exact ⟨members, hring members hmembers, fun i => (hmem i).trans (hiff i).symm⟩
  · refine ⟨[], hring, fun i => ?_⟩
    rw [hiff]
    constructor
    · simp
    · rintro ⟨c', hc', -, hq⟩
      obtain ⟨queue, hcell⟩ := h.chosen i c' p hc' hq
      rw [hnone] at hcell
      cases hcell

/-- A step that changes neither the queues nor who consumes. -/
theorem Ok.commit_same (h : s.Ok) (hc : s.conns t = some c) (hself : w.cs.threadId = c.cs.threadId)
    (hpool : PoolOk w.store) (hnodes : w.store.nodes = s.store.nodes)
    (hqueues : w.store.queues = s.store.queues)
    (hchosen : ∀ p, w.cs.currentQueue = some p → Live s.store.queues p)
    (hsub : m.subscribed = true ↔ c.machine.subscribed = true)
    (hqueue : m.subscribed = true → w.cs.currentQueue = c.cs.currentQueue) :
    (s.commit t m point w).Ok := by
  have hlists : ListsOk w.store := by
    obtain ⟨lists, hlists⟩ := h.lists
    exact ⟨lists, by rw [hnodes, hqueues]; exact hlists.linked,
      by rw [hqueues]; exact hlists.dead, hlists.disjoint⟩
  refine h.commit hc hself hpool hlists (by rw [hqueues]; exact fun _ hp => hp)
    (by rw [hqueues]; exact hchosen) (fun hm => ?_)
    (h.rings_same hc (fun p => ?_) fun p queue' hcell' => ?_)
  · rw [hqueue hm]
    exact h.held t c hc (hsub.mp hm)
  · constructor
    · rintro ⟨hm, hp⟩
      exact ⟨hsub.mp hm, hqueue hm ▸ hp⟩
    · rintro ⟨hm, hp⟩
      exact ⟨hsub.mpr hm, (hqueue (hsub.mpr hm)).symm ▸ hp⟩
  · rw [hqueues] at hcell'
    exact Or.inl ⟨queue', hcell', fun _ hring => hring⟩

/-- A step that changes the list of one queue only. -/
theorem Ok.commit_rings (h : s.Ok) (hc : s.conns t = some c) (hself : w.cs.threadId = c.cs.threadId)
    (hqueue : w.cs.currentQueue = c.cs.currentQueue) (hlists : ListsOk w.store)
    (hrings : SameRings s.store w.store) (hsub : m.subscribed = c.machine.subscribed) :
    (s.commit t m point w).Ok := by
  refine h.commit hc hself (hrings.poolOk h.pool) hlists (fun p => (hrings.live_iff p).mpr)
    (fun p hp => (hrings.live_iff p).mpr (h.chosen t c p hc (hqueue ▸ hp)))
    (fun hm => ?_) (h.rings_same hc (fun p => ?_) fun p queue' hcell' => ?_)
  · rw [hqueue]
    exact h.held t c hc (hsub ▸ hm)
  · rw [hsub, hqueue]
  · have hmap := hrings.rr p
    rw [hcell', Option.map_some] at hmap
    obtain ⟨queue, hcell, hrr⟩ := Option.map_eq_some_iff.mp hmap.symm
    exact Or.inl ⟨queue, hcell, fun _ hring => hrr ▸ hring⟩

/-- A step that changes sleepers only. -/
theorem Ok.commit_sleepers (h : s.Ok) (hc : s.conns t = some c)
    (hself : w.cs.threadId = c.cs.threadId) (hqueue : w.cs.currentQueue = c.cs.currentQueue)
    (hsleepers : SameButSleepers s.store w.store) (hsub : m.subscribed = c.machine.subscribed) :
    (s.commit t m point w).Ok := by
  have hlists := hsleepers.lists
  refine h.commit hc hself (hlists.poolOk h.pool) (hlists.listsOk h.lists)
    (fun p => (hlists.live_iff p).mpr)
    (fun p hp => (hlists.live_iff p).mpr (h.chosen t c p hc (hqueue ▸ hp)))
    (fun hm => ?_) (h.rings_same hc (fun p => ?_) fun p queue' hcell' => ?_)
  · rw [hqueue]
    exact h.held t c hc (hsub ▸ hm)
  · rw [hsub, hqueue]
  · obtain ⟨queue, hcell, -, hring⟩ := hsleepers.rings p queue' hcell'
    exact Or.inl ⟨queue, hcell, hring⟩

/-- A step that changes the ring of the queue the thread has chosen. -/
theorem Ok.commit_ring (h : s.Ok) (hc : s.conns t = some c) (hself : w.cs.threadId = c.cs.threadId)
    (hqueue : w.cs.currentQueue = c.cs.currentQueue) (hp : c.cs.currentQueue = some p)
    {rr : RoundRobinScheduler} (hstore : w.store = s.store.withRing p rr)
    (hring : ∃ members, Subscribed rr members ∧ ∀ i, i ∈ members ↔
      if i = t then m.subscribed = true else s.SubscribedTo i p) :
    (s.commit t m point w).Ok := by
  have hlists : SameLists s.store w.store := hstore ▸ sameLists_withRing s.store p rr
  refine h.commit hc hself (hlists.poolOk h.pool) (hlists.listsOk h.lists)
    (fun p => (hlists.live_iff p).mpr)
    (fun p' hp' => (hlists.live_iff p').mpr (h.chosen t c p' hc (hqueue ▸ hp')))
    (fun _ => ?_) (fun p' queue' hcell' => ?_)
  · rw [hqueue, hp]
    simp
  · by_cases hpp : p' = p
    · subst hpp
      obtain ⟨queue, hcell⟩ := h.chosen t c p' hc hp
      rw [hstore, Store.withRing, Heap.modify_cells_self, hcell, Option.map_some] at hcell'
      obtain rfl := Option.some.inj hcell'
      obtain ⟨members, hsubscribed, hmem⟩ := hring
      refine ⟨members, hsubscribed, fun i => (hmem i).trans ?_⟩
      rw [subscribedTo_commit, hqueue, hp]
      simp
    · rw [hstore, Store.withRing, Heap.modify_cells_ne _ _ hpp] at hcell'
      obtain ⟨members, hsubscribed, hmem⟩ := h.rings p' queue' hcell'
      refine ⟨members, hsubscribed, fun i => (hmem i).trans ?_⟩
      rw [subscribedTo_commit]
      split
      · rename_i hi
        subst hi
        rw [hqueue, hp]
        constructor
        · rintro ⟨c', hc', -, hp'⟩
          obtain rfl := Option.some.inj (hc.symm.trans hc')
          exact absurd (Option.some.inj (hp.symm.trans hp')).symm hpp
        · rintro ⟨-, hp'⟩
          exact absurd (Option.some.inj hp').symm hpp
      · rfl

/-- The structural invariant holds at the start. -/
theorem ok_initial : initial.Ok where
  pool := poolOk_initQueuePool
  lists := listsOk_initQueuePool
  self t c hc := by cases hc
  chosen t c p hc := by cases hc
  held t c hc := by cases hc
  rings p queue hcell := by cases hcell

/-- Accepting and closing connections that do not consume. -/
theorem Ok.replace (h : s.Ok) {next : Option Conn}
    (hbefore : ∀ c, s.conns t = some c → c.machine.subscribed = false)
    (hafter : ∀ c, next = some c → c.machine.subscribed = false ∧ c.cs.currentQueue = none ∧
      c.cs.threadId = t ∧ 0 ≤ t ∧ t < maxConnections) :
    Ok { s with conns := Function.update s.conns t next } := by
  refine ⟨h.pool, h.lists, fun t' c' hc' => ?_, fun t' c' p hc' hq => ?_, fun t' c' hc' hsub => ?_,
    fun p queue hcell => ?_⟩
  · rcases replaced_cases hc' with ⟨rfl, hnext⟩ | ⟨-, hold⟩
    · exact (hafter c' hnext).2.2
    · exact h.self t' c' hold
  · rcases replaced_cases hc' with ⟨-, hnext⟩ | ⟨-, hold⟩
    · rw [(hafter c' hnext).2.1] at hq
      cases hq
    · exact h.chosen t' c' p hold hq
  · rcases replaced_cases hc' with ⟨-, hnext⟩ | ⟨-, hold⟩
    · rw [(hafter c' hnext).1] at hsub
      cases hsub
    · exact h.held t' c' hold hsub
  · obtain ⟨members, hring, hmem⟩ := h.rings p queue hcell
    refine ⟨members, hring, fun i => (hmem i).trans ?_⟩
    constructor
    · rintro ⟨c', hc', hsub, hq⟩
      have hi : i ≠ t := by
        rintro rfl
        rw [hbefore c' hc'] at hsub
        cases hsub
      exact ⟨c', by rw [← hc']; exact Function.update_of_ne hi _ _, hsub, hq⟩
    · rintro ⟨c', hc', hsub, hq⟩
      rcases replaced_cases hc' with ⟨-, hnext⟩ | ⟨-, hold⟩
      · rw [(hafter c' hnext).1] at hsub
        cases hsub
      · exact ⟨c', hold, hsub, hq⟩

/-- The members of the ring of the queue a thread has chosen. -/
theorem Ok.ring_of (h : s.Ok) (hc : s.conns t = some c) (hp : c.cs.currentQueue = some p)
    (hcell : s.store.queues.cells p = some queue) :
    ∃ members, Subscribed queue.rr members ∧ (∀ i, i ∈ members ↔ s.SubscribedTo i p) ∧
      (t ∈ members ↔ c.machine.subscribed = true) := by
  obtain ⟨members, hring, hmem⟩ := h.rings p queue hcell
  refine ⟨members, hring, hmem, (hmem t).trans ?_⟩
  constructor
  · rintro ⟨c', hc', hsub, -⟩
    obtain rfl := Option.some.inj (hc.symm.trans hc')
    exact hsub
  · intro hsub
    exact ⟨c, hc, hsub, hp⟩

/-- A connection that consumes can always leave the ring of its queue. -/
theorem Ok.unsubscribe (h : s.Ok) (hc : s.conns t = some c) (hsub : c.machine.subscribed = true)
    (hself : SameSelf (s.world c) w) (hstore : w.store = s.store) :
    ∃ w', AmqpBroker.unsubscribe w = .ok ((), w') := by
  obtain ⟨p, hp⟩ := Option.ne_none_iff_exists'.mp (h.held t c hc hsub)
  obtain ⟨queue, hcell⟩ := h.chosen t c p hc hp
  obtain ⟨members, hring, -, hmemSelf⟩ := h.ring_of hc hp hcell
  obtain ⟨rr, hremove, -⟩ := removeSubscriber_spec hring (hmemSelf.mpr hsub)
  have hqueue : w.cs.currentQueue = some p := hself.currentQueue.trans hp
  have hid : w.cs.threadId = t := hself.threadId.trans (h.self t c hc).1
  have hcell' : w.store.queues.cells p = some queue := hstore ▸ hcell
  have hrun : qRemoveSubscriber w.cs.currentQueue w.cs.threadId w.store =
      .ok ((), w.store.withRing p rr) := by
    rw [hqueue, hid]
    exact onRing_of_cell hcell' (by rw [hremove]; rfl)
  apply Exists.intro
  rw [AmqpBroker.unsubscribe, field_bind_apply, field_bind_apply, bind_of_ok (onStore_of_ok hrun)]
  rfl

/-- A step that chooses a queue by its name. -/
theorem Ok.commit_lookup (h : s.Ok) (hc : s.conns t = some c) (hself : w.cs.threadId = c.cs.threadId)
    (hlooked : LookedUp s.store w.store)
    (hq : ∀ p, w.cs.currentQueue = some p → ∃ name, s.store.queueOf name = some p)
    (hbefore : c.machine.subscribed = false) (hafter : m.subscribed = false) :
    (s.commit t m point w).Ok := by
  refine h.commit_same hc hself hlooked.pool hlooked.nodes hlooked.queues (fun p hp => ?_) ?_ ?_
  · obtain ⟨name, hname⟩ := hq p hp
    obtain ⟨queue, hcell, -⟩ := h.pool.named name p hname
    exact ⟨queue, hcell⟩
  · rw [hbefore, hafter]
  · rw [hafter]
    simp

/-- A step that declares a new queue. -/
theorem Ok.commit_insert (h : s.Ok) (hc : s.conns t = some c) (hself : w.cs.threadId = c.cs.threadId)
    {name : List UInt8} {q : ℕ} (hinserted : Inserted s.store w.store name q)
    (hq : w.cs.currentQueue = some q) (hbefore : c.machine.subscribed = false)
    (hafter : m.subscribed = false) : (s.commit t m point w).Ok := by
  have hcells : ∀ p, w.store.queues.cells p =
      if p = s.store.queues.next then some (.fresh name) else s.store.queues.cells p := by
    intro p
    rw [hinserted.queues, Heap.alloc_cells]
  refine h.commit hc hself hinserted.pool (hinserted.listsOk h.lists) (fun p hp => ?_)
    (fun p hp => ?_) ?_
    (h.rings_same hc (fun p => ?_) fun p queue' hcell' => ?_)
  · obtain ⟨queue, hcell⟩ := hp
    exact ⟨queue, by rw [hinserted.queues, Heap.alloc_cells_of_live _ hcell]⟩
  · obtain rfl := Option.some.inj (hq.symm.trans hp)
    exact ⟨.fresh name, by rw [hcells, if_pos hinserted.fresh]⟩
  · rw [hafter]
    simp
  · rw [hbefore, hafter]
    simp
  · rw [hcells] at hcell'
    split at hcell'
    · rename_i hp
      obtain rfl := Option.some.inj hcell'
      exact Or.inr ⟨s.store.queues.fresh p (by omega), subscribed_init _⟩
    · exact Or.inl ⟨queue', hcell', fun _ hring => hring⟩

/-- A handler keeps the invariant. -/
theorem Ok.handler (h : s.Ok) (hc : s.conns t = some c)
    (heffect : Effect c.machine (s.world c) w' m') : (s.commit t m' point w').Ok := by
  obtain ⟨hid, hrange⟩ := h.self t c hc
  have hbefore : ∀ m, c.machine = m → m.subscribed = false → c.machine.subscribed = false := by
    rintro m rfl hm
    exact hm
  cases heffect with
  | quiet hedge hgrows =>
    have hsub := quietNext_subscribed hedge
    exact h.commit_same hc hgrows.threadId (hgrows.store ▸ h.pool) (by rw [hgrows.store]; rfl)
      (by rw [hgrows.store]; rfl)
      (fun p hp => h.chosen t c p hc (hgrows.currentQueue.symm.trans hp)) (by rw [hsub])
      (fun _ => hgrows.currentQueue)
  | declare hfrom hselects hstore _ =>
    rcases createQueue_eq_ok h.pool hstore with ⟨hold, hlooked⟩ | hinserted
    · refine h.commit_lookup hc hselects.threadId hlooked (fun p hp => ?_) (hbefore _ hfrom rfl) rfl
      rw [← hp, hselects.currentQueue]
      exact ⟨_, hold⟩
    · exact h.commit_insert hc hselects.threadId hinserted hselects.currentQueue
        (hbefore _ hfrom rfl) rfl
  | publish hfrom hselects hstore _ =>
    obtain ⟨hq, hlooked⟩ := getQueue_eq_ok h.pool hstore
    refine h.commit_lookup hc hselects.threadId hlooked (fun p hp => ?_) ?_ rfl
    · rw [← hp, hselects.currentQueue, hq]
      exact ⟨_, rfl⟩
    · rcases hfrom with hfrom | hfrom <;> exact hbefore _ hfrom rfl
  | consume hfrom hselects hstore _ =>
    obtain ⟨hq, hlooked⟩ := getQueue_eq_ok h.pool hstore
    refine h.commit_lookup hc hselects.threadId hlooked (fun p hp => ?_) (hbefore _ hfrom rfl) rfl
    rw [← hp, hselects.currentQueue, hq]
    exact ⟨_, rfl⟩
  | enqueue hfrom hself hstore _ =>
    obtain ⟨p, hp, -, henqueued⟩ := qEnqueue_eq_ok h.lists hstore
    exact h.commit_rings hc hself.threadId hself.currentQueue henqueued.lists henqueued.rings
      (by rw [hfrom])
  | subscribe hfrom hself hstore _ _ =>
    obtain ⟨p, queue, rr, hp, hcell, hadd, hw⟩ := onRing_unit_eq_ok hstore
    obtain ⟨members, hring, hmem, hmemSelf⟩ := h.ring_of hc hp hcell
    have hnew : t ∉ members := fun ht => by simp [hfrom, subscribed] at hmemSelf; exact hmemSelf ht
    obtain ⟨rr', hrun, hadded⟩ := addSubscriber_spec hring hrange hnew
    rw [← hid] at hrun
    obtain rfl := Except.ok.inj (hadd.symm.trans hrun)
    refine h.commit_ring hc hself.threadId hself.currentQueue hp hw ⟨_, hadded.subscribed, fun i => ?_⟩
    rw [List.mem_append, List.mem_singleton, hmem]
    split
    · simp [*, subscribed]
    · simp [*]
  | ack hfrom hself hstore _ =>
    exact h.commit_same hc hself.threadId (hstore ▸ h.pool) (by rw [hstore]; rfl)
      (by rw [hstore]; rfl)
      (fun p hp => h.chosen t c p hc (hself.currentQueue.symm.trans hp)) (by rw [hfrom]; rfl)
      (fun _ => hself.currentQueue)
  | reject hfrom hself hstore _ _ =>
    obtain ⟨p, queue, rr, hp, hcell, hremove, hw⟩ := onRing_unit_eq_ok hstore
    obtain ⟨members, hring, hmem, hmemSelf⟩ := h.ring_of hc hp hcell
    have ht : t ∈ members := hmemSelf.mpr (by rw [hfrom]; rfl)
    obtain ⟨rr', hrun, hremoved⟩ := removeSubscriber_spec hring ht
    rw [← hid] at hrun
    obtain rfl := Except.ok.inj (hremove.symm.trans hrun)
    refine h.commit_ring hc hself.threadId hself.currentQueue hp hw
      ⟨_, hremoved.subscribed, fun i => ?_⟩
    rw [hring.ring.nodup.mem_erase_iff, hmem]
    split
    · simp [*, subscribed]
    · simp [*]

/-- A step inside `q_dequeue_rr` keeps the invariant. -/
theorem Ok.dequeue (h : s.Ok) (hc : s.conns t = some c) (hm : c.machine = waitValueDequeue)
    (hp : c.cs.currentQueue = some p) (hcell : s.store.queues.cells p = some queue)
    (heffect : DequeueEffect grain p queue (s.world c) w' c.point m' point') :
    (s.commit t m' point' w').Ok := by
  rcases dequeueEffect_kind hcell heffect with ⟨rfl, hsleepers, hcs, -, -⟩ |
    ⟨rfl, -, taken, hstore, hcs, -, -⟩ | ⟨rfl, -, next, rr, hrun, rfl⟩
  · exact h.commit_sleepers hc (by rw [hcs]; rfl) (by rw [hcs]; rfl) hsleepers (by rw [hm])
  · obtain ⟨p', hp', -, hdequeued⟩ := qDequeue_eq_ok h.lists hstore
    obtain ⟨hid, hqueue, -⟩ := afterDequeue_self (s.world c).cs taken
    exact h.commit_rings hc (by rw [hcs, hid]; rfl) (by rw [hcs, hqueue]; rfl) hdequeued.lists
      hdequeued.rings (by rw [hm])
  · obtain ⟨members, hring, hmem, hmemSelf⟩ := h.ring_of hc hp hcell
    have ht : t ∈ members := hmemSelf.mpr (by rw [hm]; rfl)
    obtain ⟨next', rr', hrun', hpassed⟩ := nextThread_spec hring (List.ne_nil_of_mem ht)
    rw [hrun] at hrun'
    cases hrun'
    refine h.commit_ring hc rfl rfl hp rfl ⟨members, hpassed.subscribed, fun i => ?_⟩
    split
    · rename_i hi
      rw [hi, hmemSelf, hm]
      rfl
    · exact hmem i

/-- Every step keeps the structural invariant. -/
theorem Ok.step {act : Act} (h : s.Ok) (hstep : Broker.step grain s act = .ok s') : s'.Ok := by
  cases step_cases hstep with
  | accept hlow hhigh hfree hs' =>
    rw [hs']
    refine h.replace (fun c hc => ?_) fun c hnext => ?_
    · rw [hfree] at hc
      cases hc
    · obtain rfl := Option.some.inj hnext
      exact ⟨rfl, rfl, rfl, hlow, hhigh⟩
  | handler hc _ heffect hs' =>
    rw [hs']
    exact h.handler hc heffect
  | dequeue hc hm hp hcell heffect hs' =>
    rw [hs']
    exact h.dequeue hc hm hp hcell heffect
  | close hc hleft hs' =>
    rw [hs']
    refine h.replace (fun c hc' => ?_) of_noConn
    obtain rfl := Option.some.inj (hc.symm.trans hc')
    rcases hleft with hm | hm <;> rw [hm] <;> rfl
  | spurious hc hm hp hcell hwoken hs' =>
    rw [hs']
    exact h.commit_sleepers hc rfl rfl (hwoken.sameButSleepers hcell) rfl

/-- Every reachable state satisfies the structural invariant. -/
theorem ok_of_reaches {guard : Broker → Act → Prop}
    (h : Reaches (Broker.step grain) guard initial s) : s.Ok :=
  h.invariant ok_initial fun _ _ _ hok _ hstep => hok.step hstep

end Broker

end AmqpBroker
