import AmqpBroker.Spec.EvenTurns
import AmqpBroker.Verification.OnlyDequeued

/-!
# What the memory of the broker represents

The queues of a message broker under their names, with the bodies of the nodes as messages
and the ring of subscribers as the rota. The turn has been dealt while the thread that has it
is between its `q_dequeue` and its `next_thread`. What a connection has in hand is what it
holds by the calls it made.
-/

namespace AmqpBroker

open Foundations Program MachineState

/-- A message broker for queue names, thread numbers and bodies. -/
abbrev SpecBroker := MessageBroker (List UInt8) ℤ (List UInt8)

/-- What can happen at such a broker. -/
abbrev SpecOp := MessageOp (List UInt8) ℤ (List UInt8)

/-- A scheduler whose ring is the rota and whose `current` has the turn. -/
structure TakesTurns (rr : RoundRobinScheduler) (rota : Rota ℤ) : Prop where
  members : Subscribed rr rota.members
  holder : ∀ t, rota.holder = some t → rr.current = t

/-- A queue in memory and what it stands for. -/
structure Broker.Means (s : Broker) (p : ℕ) (q : MessageQueue ℤ (List UInt8)) : Prop where
  messages : q.messages = (s.store.messages p).map Prod.snd
  rota : ∀ queue, s.store.queues.cells p = some queue → TakesTurns queue.rr q.rota
  dealt : q.dealt = true ↔ ∃ t, s.pointAt p t = some .nextThread

/-- What a thread has taken and neither acknowledged nor given up. -/
def Broker.hand (s : Broker) (t : ℤ) : Option (List UInt8) :=
  ((accountsOf s.history).held t).map Prod.snd

/-- What a connection can do with the queue it has chosen. -/
inductive Broker.Plays (s : Broker) (t : ℤ) (c : Conn) : Role (List UInt8) (List UInt8) → Prop
  | idle : c.cs.currentQueue = none → Plays s t c .idle
  | named {p : ℕ} {name : List UInt8} : c.cs.currentQueue = some p → s.store.queueOf name = some p →
      c.machine.subscribed = false → Plays s t c (.named name)
  | attached {p : ℕ} {name : List UInt8} : c.cs.currentQueue = some p →
      s.store.queueOf name = some p → c.machine.subscribed = true →
      Plays s t c (.attached name (s.hand t))

/-- The message broker that the memory and the connections represent. -/
structure Broker.Represents (s : Broker) (b : SpecBroker) : Prop where
  absent : ∀ name, s.store.queueOf name = none → b.queues name = none
  queues : ∀ name p, s.store.queueOf name = some p → ∃ q, b.queues name = some q ∧ s.Means p q
  roles : ∀ t c, s.conns t = some c → s.Plays t c (b.role t)
  gone : ∀ t, s.conns t = none → ∀ name hand, b.role t ≠ .attached name hand

/-! ## The rota -/

/-- The ring of a scheduler has its members in one order. -/
theorem Subscribed.unique {rr : RoundRobinScheduler} {members members' : List ℤ}
    (h : Subscribed rr members) (h' : Subscribed rr members') : members = members' := by
  have hlength : members.length = members'.length := by
    have hcount := h.count.symm.trans h'.count
    exact_mod_cast hcount
  cases members with
  | nil => exact (List.length_eq_zero_iff.mp hlength.symm).symm
  | cons first rest =>
    cases members' with
    | nil => cases hlength
    | cons first' rest' =>
      have hfirst : first = first' := by rw [← h.first first rfl, ← h'.first first' rfl]
      subst hfirst
      rw [← h.ring.iterate_eq, ← h'.ring.iterate_eq, hlength]

namespace TakesTurns

variable {rr rr' : RoundRobinScheduler} {rota : Rota ℤ} {t : ℤ}

/-- The fresh scheduler is the empty rota. -/
theorem empty (rr : RoundRobinScheduler) : TakesTurns (initRoundRobinScheduler rr) .empty where
  members := subscribed_init rr
  holder := by
    intro t ht
    cases ht

/-- The node of the scheduler that has the turn. -/
theorem holder_of_current (h : TakesTurns rr rota) (ht : t ∈ rota.members) (hcurrent : rr.current = t) :
    rota.holder = some t := by
  obtain ⟨holder, hholder⟩ := Rota.exists_holder (List.ne_nil_of_mem ht)
  rw [hholder, ← h.holder holder hholder, hcurrent]

/-- `add_subscriber` lets the thread join. -/
theorem join (h : TakesTurns rr rota) (hnew : t ∉ rota.members)
    (hadded : Added rr rr' rota.members t) : TakesTurns rr' (rota.join t hnew) where
  members := by
    rw [Rota.members_join]
    exact hadded.subscribed
  holder := by
    intro u hu
    rw [hadded.current]
    split
    · rename_i hnone
      have hmem := Rota.mem_of_holder hu
      rw [Rota.members_join, hnone] at hmem
      exact (List.mem_singleton.mp hmem).symm
    · rename_i hsome
      obtain ⟨holder, hholder⟩ := Rota.exists_holder hsome
      rw [Rota.holder_join hnew hholder] at hu
      obtain rfl := Option.some.inj hu
      exact h.holder _ hholder

/-- The turn goes round the ring as it goes round the rota. -/
theorem next_holder (h : TakesTurns rr rota) (hcurrent : rr.current ∈ rota.members) :
    rota.pass.holder = some (rr.subs rr.current).next := by
  have hholder := h.holder_of_current hcurrent rfl
  obtain ⟨rest, hrest⟩ := Rota.round_of_holder hholder
  have hread := Rota.readsFrom hholder
  rw [hrest] at hread
  have hpassed := hread.pass h.members.ring
  rw [Rota.holder_eq, Rota.round_pass hrest]
  cases hnext : rest ++ [rr.current] with
  | nil => simp at hnext
  | cons first others =>
    rw [hnext] at hpassed
    rw [List.head?_cons, hpassed.head_eq]

/-- `next_thread` passes the turn on. -/
theorem pass {next : ℤ} (h : TakesTurns rr rota) (hcurrent : rr.current ∈ rota.members)
    (hpassed : Passed rr rr' rota.members next) : TakesTurns rr' rota.pass where
  members := by
    rw [Rota.members_pass]
    exact hpassed.subscribed
  holder := by
    intro u hu
    rw [h.next_holder hcurrent] at hu
    rw [hpassed.current, hpassed.follows]
    exact Option.some.inj hu

/-- `remove_subscriber` lets the thread leave. -/
theorem leave (h : TakesTurns rr rota) (ht : t ∈ rota.members)
    (hremoved : Removed rr rr' rota.members t) : TakesTurns rr' (rota.leave t) where
  members := by
    rw [Rota.members_leave]
    exact hremoved.subscribed
  holder := by
    intro u hu
    have hcurrent := h.members.current (List.ne_nil_of_mem ht)
    have hholder := h.holder_of_current hcurrent rfl
    obtain ⟨rest, hrest⟩ := Rota.round_of_holder hholder
    rw [Rota.holder_eq, Rota.round_leave, hrest] at hu
    rw [hremoved.current]
    by_cases hturn : rr.current = t
    · rw [hturn, List.erase_cons_head] at hu
      have hnext := h.next_holder hcurrent
      obtain ⟨others, rfl⟩ := List.head?_eq_some_iff.mp hu
      rw [Rota.holder_eq, Rota.round_pass hrest] at hnext
      rw [if_pos hturn, ← hturn]
      exact (Option.some.inj hnext).symm
    · rw [List.erase_cons_tail (by simpa using hturn)] at hu
      rw [if_neg hturn]
      exact Option.some.inj hu

/-- Only the sleepers of the scheduler have changed. -/
theorem congr (h : TakesTurns rr rota) (hcurrent : rr'.current = rr.current)
    (hring : ∀ members, Subscribed rr members → Subscribed rr' members) : TakesTurns rr' rota where
  members := hring _ h.members
  holder := by
    intro t ht
    rw [hcurrent]
    exact h.holder t ht

end TakesTurns

/-! ## After a step of one connection -/

variable {s s' : Broker} {b b' : SpecBroker} {t u : ℤ} {c : Conn} {m : MachineState}
  {point : DequeuePoint} {w : World} {p : ℕ} {q : MessageQueue ℤ (List UInt8)}
  {role : Role (List UInt8) (List UInt8)}

namespace Broker

/-- The step of one thread leaves the hand of another one. -/
theorem hand_commit_of_ne (h : u ≠ t) : (s.commit t m point w).hand u = s.hand u :=
  congrArg (Option.map Prod.snd) (held_commit_of_ne h)

/-- What a thread has in hand after calls that it recorded. -/
theorem hand_commit : (s.commit t m point w).hand t =
    (((accountsOf s.history).after transferOf (w.trace.map fun event => (t, event))).held t).map
      Prod.snd :=
  congrArg (fun accounts => (Accounts.held accounts t).map Prod.snd) (accountsOf_append _ _)

/-- A connection that is not subscribed is attached to no queue. -/
theorem Plays.free (h : s.Plays t c role) (hsub : c.machine.subscribed = false)
    (name : List UInt8) (hand : Option (List UInt8)) : role ≠ .attached name hand := by
  cases h with
  | idle _ => simp
  | named _ _ _ => simp
  | attached _ _ hm =>
    rw [hsub] at hm
    cases hm

/-- A connection can do what it could as long as it has the same in hand. -/
theorem Plays.congr (h : s.Plays t c role) (hhand : s'.hand t = s.hand t)
    (hgrow : ∀ name p, s.store.queueOf name = some p → s'.store.queueOf name = some p) :
    s'.Plays t c role := by
  cases h with
  | idle hnone => exact .idle hnone
  | named hp hname hsub => exact .named hp (hgrow _ _ hname) hsub
  | attached hp hname hsub =>
    rw [← hhand]
    exact .attached hp (hgrow _ _ hname) hsub

/-- A thread that neither was nor comes to be before its `next_thread`. -/
theorem dealt_commit (hbefore : s.pointAt p t ≠ some .nextThread)
    (hafter : ¬ (m = waitValueDequeue ∧ w.cs.currentQueue = some p ∧ point = .nextThread)) :
    (∃ i, (s.commit t m point w).pointAt p i = some .nextThread) ↔
      ∃ i, s.pointAt p i = some .nextThread := by
  refine exists_congr fun i => ?_
  rw [pointAt_commit]
  by_cases hi : i = t
  · subst hi
    rw [Function.update_self]
    refine iff_of_false ?_ hbefore
    split
    · rename_i hin
      simpa using fun hpoint => hafter ⟨hin.1, hin.2, hpoint⟩
    · simp
  · rw [Function.update_of_ne hi]

/-- A queue whose messages and whose turn are the same. -/
theorem Means.congr (h : s.Means p q) (hmessages : s'.store.messages p = s.store.messages p)
    (hrings : ∀ queue', s'.store.queues.cells p = some queue' →
      ∃ queue, s.store.queues.cells p = some queue ∧ queue'.rr.current = queue.rr.current ∧
        ∀ members, Subscribed queue.rr members → Subscribed queue'.rr members)
    (hdealt : (∃ t, s'.pointAt p t = some .nextThread) ↔ ∃ t, s.pointAt p t = some .nextThread) :
    s'.Means p q where
  messages := by rw [hmessages, h.messages]
  rota := by
    intro queue' hcell'
    obtain ⟨queue, hcell, hcurrent, hring⟩ := hrings queue' hcell'
    exact (h.rota queue hcell).congr hcurrent hring
  dealt := h.dealt.trans hdealt.symm

/-- Every step of one connection, with what has become of the queues and of its own role. -/
theorem Represents.commit (h : s.Represents b)
    (hgrow : ∀ name p, s.store.queueOf name = some p → w.store.queueOf name = some p)
    (habsent : ∀ name, w.store.queueOf name = none → b'.queues name = none)
    (hqueues : ∀ name p, w.store.queueOf name = some p →
      ∃ q, b'.queues name = some q ∧ (s.commit t m point w).Means p q)
    (hself : (s.commit t m point w).Plays t ⟨m, point, w.cs, w.socket⟩ (b'.role t))
    (hroles : ∀ u, u ≠ t → b'.role u = b.role u) : (s.commit t m point w).Represents b' where
  absent := habsent
  queues := hqueues
  roles := by
    intro u d hd
    by_cases hu : u = t
    · subst hu
      rw [commit_conns_self] at hd
      obtain rfl := Option.some.inj hd
      exact hself
    · rw [s.commit_conns_of_ne hu] at hd
      rw [hroles u hu]
      exact (h.roles u d hd).congr (hand_commit_of_ne hu) hgrow
  gone := by
    intro u hu
    by_cases hut : u = t
    · rw [hut, commit_conns_self] at hu
      cases hu
    · rw [s.commit_conns_of_ne hut] at hu
      rw [hroles u hut]
      exact h.gone u hu

/-- A step that leaves the queues as they are. -/
theorem Represents.commit_same (h : s.Represents b)
    (hqueueOf : ∀ name, w.store.queueOf name = s.store.queueOf name)
    (hmessages : ∀ p, w.store.messages p = s.store.messages p)
    (hrings : ∀ p queue', w.store.queues.cells p = some queue' →
      ∃ queue, s.store.queues.cells p = some queue ∧ queue'.rr.current = queue.rr.current ∧
        ∀ members, Subscribed queue.rr members → Subscribed queue'.rr members)
    (hbefore : ∀ p, s.pointAt p t ≠ some .nextThread)
    (hafter : ¬ (m = waitValueDequeue ∧ point = .nextThread)) (hsame : b'.queues = b.queues)
    (hself : (s.commit t m point w).Plays t ⟨m, point, w.cs, w.socket⟩ (b'.role t))
    (hroles : ∀ u, u ≠ t → b'.role u = b.role u) : (s.commit t m point w).Represents b' := by
  refine h.commit (fun name p hp => (hqueueOf name).trans hp) (fun name hnone => ?_)
    (fun name p hp => ?_) hself hroles
  · rw [hsame]
    exact h.absent name ((hqueueOf name).symm.trans hnone)
  · rw [hsame]
    obtain ⟨q, hq, hmeans⟩ := h.queues name p ((hqueueOf name).symm.trans hp)
    exact ⟨q, hq, hmeans.congr (hmessages p) (hrings p)
      (dealt_commit (hbefore p) fun hin => hafter ⟨hin.1, hin.2.2⟩)⟩

/-- A step that changes the queue that the connection has chosen. -/
theorem Represents.commit_queue {name : List UInt8} (h : s.Represents b) (hpool : PoolOk s.store)
    (hc : s.conns t = some c) (hp : c.cs.currentQueue = some p)
    (hname : s.store.queueOf name = some p) (hqueue : w.cs.currentQueue = c.cs.currentQueue)
    (hqueueOf : ∀ name, w.store.queueOf name = s.store.queueOf name)
    (hmeans : (s.commit t m point w).Means p q)
    (hmessages : ∀ p', p' ≠ p → w.store.messages p' = s.store.messages p')
    (hrings : ∀ p', p' ≠ p → ∀ queue', w.store.queues.cells p' = some queue' →
      ∃ queue, s.store.queues.cells p' = some queue ∧ queue'.rr.current = queue.rr.current ∧
        ∀ members, Subscribed queue.rr members → Subscribed queue'.rr members)
    (hsame : b'.queues = Function.update b.queues name (some q))
    (hself : (s.commit t m point w).Plays t ⟨m, point, w.cs, w.socket⟩ (b'.role t))
    (hroles : ∀ u, u ≠ t → b'.role u = b.role u) : (s.commit t m point w).Represents b' := by
  refine h.commit (fun name p hp => (hqueueOf name).trans hp) (fun name' hnone => ?_)
    (fun name' p' hp' => ?_) hself hroles
  · rw [hqueueOf] at hnone
    have hne : name' ≠ name := by
      rintro rfl
      rw [hname] at hnone
      cases hnone
    rw [hsame, Function.update_of_ne hne]
    exact h.absent name' hnone
  · rw [hqueueOf] at hp'
    by_cases hne : name' = name
    · subst hne
      obtain rfl := Option.some.inj (hname.symm.trans hp')
      exact ⟨q, by rw [hsame, Function.update_self], hmeans⟩
    · have hpne : p' ≠ p := by
        rintro rfl
        exact hne (hpool.queueOf_injective hp' hname)
      obtain ⟨q', hq', hmeans'⟩ := h.queues name' p' hp'
      refine ⟨q', by rw [hsame, Function.update_of_ne hne, hq'], ?_⟩
      refine hmeans'.congr (hmessages p' hpne) (hrings p' hpne) (dealt_commit ?_ ?_)
      · rw [pointAt_of_conn hc, if_neg]
        · simp
        · rintro ⟨-, hp''⟩
          exact hpne (Option.some.inj (hp''.symm.trans hp))
      · rintro ⟨-, hp'', -⟩
        rw [hqueue, hp] at hp''
        exact hpne (Option.some.inj hp'').symm

/-- A connection comes or goes. -/
theorem Represents.replace {next : Option Conn} (h : s.Represents b)
    (hbefore : ∀ c, s.conns t = some c → c.machine ≠ waitValueDequeue)
    (hafter : ∀ c, next = some c → c.machine ≠ waitValueDequeue) (hsame : b'.queues = b.queues)
    (hself : ∀ c, next = some c → s.Plays t c (b'.role t))
    (hfree : next = none → ∀ name hand, b'.role t ≠ .attached name hand)
    (hroles : ∀ u, u ≠ t → b'.role u = b.role u) :
    Represents { s with conns := Function.update s.conns t next } b' where
  absent := hsame.symm ▸ h.absent
  queues := by
    intro name p hp
    rw [hsame]
    obtain ⟨q, hq, hmeans⟩ := h.queues name p hp
    refine ⟨q, hq, hmeans.congr rfl (fun queue' hcell' => ⟨queue', hcell', rfl, fun _ => id⟩) ?_⟩
    rw [pointAt_replace hbefore hafter]
  roles := by
    intro u d hd
    obtain ⟨rfl, hnext⟩ | ⟨hu, hd⟩ := replaced_cases hd
    · exact (hself d hnext).congr rfl fun _ _ => id
    · rw [hroles u hu]
      exact (h.roles u d hd).congr rfl fun _ _ => id
  gone := by
    intro u hu
    change Function.update s.conns t next u = none at hu
    by_cases hut : u = t
    · subst hut
      rw [Function.update_self] at hu
      exact hfree hu
    · rw [Function.update_of_ne hut] at hu
      rw [hroles u hut]
      exact h.gone u hu

end Broker

end AmqpBroker
