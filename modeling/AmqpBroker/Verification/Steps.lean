import AmqpBroker.Verification.Effects
import AmqpBroker.Verification.QueueLaws
import AmqpBroker.Verification.RingLaws
import AmqpBroker.Verification.WriteResults

/-!
# The steps of the broker

The steps inside `q_dequeue_rr`, and the inversion of a step of the whole process: which
connection moved, from which state, and with which effect.
-/

namespace AmqpBroker

open Foundations Program

/-- The connection after `q_dequeue` into `recvline`. -/
def ConnectionState.afterDequeue (cs : ConnectionState) (taken : Option (ℕ × List UInt8)) :
    ConnectionState :=
  match taken with
  | none => cs
  | some (_, body) => { cs with recvline := cs.recvline.write 0 (body ++ [0]) }

/-- The store with one more thread asleep on `new_msg_cond`. -/
def Store.withSleeper (store : Store) (p : ℕ) (threadId : ℤ) : Store :=
  { store with
    queues := store.queues.modify p fun queue =>
      { queue with newMsgCond := insert threadId queue.newMsgCond } }

/-- What a step inside `q_dequeue_rr` does, with the queue at `p` before it. -/
inductive DequeueEffect (grain : Grain) (p : ℕ) (queue : Queue) (w w' : World) :
    DequeuePoint → MachineState → DequeuePoint → Prop
  | turn : queue.rr.current = w.cs.threadId → w' = w →
      DequeueEffect grain p queue w w' .testRound .waitValueDequeue .testMsg
  | noTurn : grain = .fine → queue.rr.current ≠ w.cs.threadId → w' = w →
      DequeueEffect grain p queue w w' .testRound .waitValueDequeue .sleepRound
  | noTurnSleep {rr : RoundRobinScheduler} : grain = .coarse →
      queue.rr.current ≠ w.cs.threadId → sleepRound queue.rr w.cs.threadId = .ok rr →
      w' = { w with store := w.store.withRing p rr } →
      DequeueEffect grain p queue w w' .testRound .waitValueDequeue .wakeRound
  | sleepRound {rr : RoundRobinScheduler} : sleepRound queue.rr w.cs.threadId = .ok rr →
      w' = { w with store := w.store.withRing p rr } →
      DequeueEffect grain p queue w w' .sleepRound .waitValueDequeue .wakeRound
  | wakeRound : w.cs.threadId ∉ (queue.rr.subs w.cs.threadId).roundCond → w' = w →
      DequeueEffect grain p queue w w' .wakeRound .waitValueDequeue .testMsg
  | message : queue.size ≠ 0 → w' = w →
      DequeueEffect grain p queue w w' .testMsg .waitValueDequeue .dequeue
  | noMessage : queue.size = 0 → w' = w →
      DequeueEffect grain p queue w w' .testMsg .waitValueDequeue .sleepMsg
  | sleepMsg : w' = { w with store := w.store.withSleeper p w.cs.threadId } →
      DequeueEffect grain p queue w w' .sleepMsg .waitValueDequeue .wakeMsg
  | wakeMsg : w.cs.threadId ∉ queue.newMsgCond → w' = w →
      DequeueEffect grain p queue w w' .wakeMsg .waitValueDequeue .dequeue
  | dequeue {taken : Option (ℕ × List UInt8)} : qDequeue (some p) w.store = .ok (taken, w'.store) →
      w'.cs = w.cs.afterDequeue taken → w'.socket = w.socket →
      w'.trace = w.trace ++ [.qDequeue (some p) taken] →
      DequeueEffect grain p queue w w' .dequeue .waitValueDequeue .nextThread
  | nextThread {next : ℤ} {rr : RoundRobinScheduler} : nextThread queue.rr = .ok (next, rr) →
      w' = { w with store := w.store.withRing p rr } →
      DequeueEffect grain p queue w w' .nextThread .valueDequeueReceived .testRound

variable {grain : Grain} {point point' : DequeuePoint} {m' : MachineState} {w w' : World}

/-- Code on the shared memory that returns. -/
theorem onStore_of_ok {α : Type} {x : Shared α} {a : α} {store : Store}
    (h : x w.store = .ok (a, store)) : onStore x w = .ok (a, { w with store := store }) := by
  simp only [onStore, h]

/-- A scheduler function without a result, run on the scheduler of a queue. -/
theorem onRing_unit_eq_ok {f : RoundRobinScheduler → Except Abort RoundRobinScheduler}
    {q : Option ℕ} {store store' : Store}
    (h : onRing q (fun rr => (f rr).map fun rr => ((), rr)) store = .ok ((), store')) :
    ∃ p queue rr, q = some p ∧ store.queues.cells p = some queue ∧ f queue.rr = .ok rr ∧
      store' = store.withRing p rr := by
  obtain ⟨p, queue, rr, hp, hcell, hf, hring⟩ := onRing_eq_ok h
  refine ⟨p, queue, rr, hp, hcell, ?_, hring⟩
  cases hrun : f queue.rr with
  | error reason =>
    rw [hrun] at hf
    cases hf
  | ok rr' =>
    rw [hrun] at hf
    cases hf
    rfl

/-- A test reads the queue and changes nothing. -/
theorem onStore_test {α : Type} (view : Queue → α) {q : Option ℕ} {a : α}
    (h : onStore (do let (_, queue) ← derefQueue q; pure (view queue)) w = .ok (a, w')) :
    ∃ p queue, q = some p ∧ w.store.queues.cells p = some queue ∧ a = view queue ∧ w' = w := by
  obtain ⟨hread, hw'⟩ := onStore_eq_ok h
  obtain ⟨⟨p, queue⟩, store, hderef, hpure⟩ := bind_eq_ok.mp hread
  obtain ⟨hq, hcell, hstore⟩ := derefQueue_eq_ok hderef
  cases hpure
  refine ⟨p, queue, hq, hcell, rfl, ?_⟩
  rw [hw', hstore]

/-- `q_dequeue` is called once, and its body copied to `recvline`. -/
theorem dequeueInto_eq_ok {q : Option ℕ} (h : dequeueInto q w = .ok ((), w')) :
    ∃ taken, qDequeue q w.store = .ok (taken, w'.store) ∧ w'.cs = w.cs.afterDequeue taken ∧
      w'.socket = w.socket ∧ w'.trace = w.trace ++ [.qDequeue q taken] := by
  obtain ⟨taken, w₁, hstore, h⟩ := bind_eq_ok.mp h
  obtain ⟨hdequeue, hw₁⟩ := onStore_eq_ok hstore
  obtain ⟨_, w₂, hrecord, h⟩ := bind_eq_ok.mp h
  cases hrecord
  cases taken with
  | none =>
    cases h
    exact ⟨none, hdequeue, by rw [hw₁]; rfl, by rw [hw₁], by rw [hw₁]⟩
  | some item =>
    obtain ⟨node, body⟩ := item
    obtain ⟨_, w₃, hrange, h⟩ := bind_eq_ok.mp h
    unfold checkRange at hrange
    split at hrange
    · cases hrange
      cases h
      exact ⟨some (node, body), hdequeue, by rw [hw₁]; rfl, by rw [hw₁], by rw [hw₁]⟩
    · cases hrange

/-- Everything a step inside `q_dequeue_rr` does. -/
theorem dequeueStep_effect (h : dequeueStep grain point w = .ok ((m', point'), w')) :
    ∃ p queue, w.cs.currentQueue = some p ∧ w.store.queues.cells p = some queue ∧
      DequeueEffect grain p queue w w' point m' point' := by
  obtain ⟨q, w₁, hq, h⟩ := bind_eq_ok.mp h
  cases hq
  obtain ⟨threadId, w₂, hthread, h⟩ := bind_eq_ok.mp h
  cases hthread
  cases point with
  | testRound =>
    obtain ⟨turn, w₃, htest, h⟩ := bind_eq_ok.mp h
    obtain ⟨p, queue, hp, hcell, rfl, rfl⟩ :=
      onStore_test (fun queue => isRound queue.rr w.cs.threadId) htest
    by_cases hturn : queue.rr.current = w₃.cs.threadId
    · simp only [isRound, hturn, decide_true, if_true] at h
      cases h
      exact ⟨p, queue, hp, hcell, .turn hturn rfl⟩
    · simp only [isRound, hturn, decide_false, Bool.false_eq_true, if_false] at h
      cases grain with
      | fine =>
        cases h
        exact ⟨p, queue, hp, hcell, .noTurn rfl hturn rfl⟩
      | coarse =>
        obtain ⟨_, w₄, hsleep, h⟩ := bind_eq_ok.mp h
        obtain ⟨hstore, hw₄⟩ := onStore_eq_ok hsleep
        obtain ⟨p', queue', rr, hp', hcell', hrr, hring⟩ := onRing_unit_eq_ok hstore
        obtain rfl : p = p' := Option.some.inj (hp.symm.trans hp')
        obtain rfl : queue = queue' := Option.some.inj (hcell.symm.trans hcell')
        cases h
        exact ⟨p, queue, hp, hcell, .noTurnSleep rfl hturn hrr (by rw [hw₄, hring])⟩
  | sleepRound =>
    obtain ⟨_, w₄, hsleep, h⟩ := bind_eq_ok.mp h
    obtain ⟨hstore, hw₄⟩ := onStore_eq_ok hsleep
    obtain ⟨p, queue, rr, hp, hcell, hrr, hring⟩ := onRing_unit_eq_ok hstore
    cases h
    exact ⟨p, queue, hp, hcell, .sleepRound hrr (by rw [hw₄, hring])⟩
  | wakeRound =>
    obtain ⟨asleep, w₃, htest, h⟩ := bind_eq_ok.mp h
    obtain ⟨p, queue, hp, hcell, rfl, rfl⟩ := onStore_test
      (fun queue => decide (w.cs.threadId ∈ (queue.rr.subs w.cs.threadId).roundCond)) htest
    split at h
    · cases h
    · rename_i hawake
      cases h
      exact ⟨p, queue, hp, hcell, .wakeRound (by simpa using hawake) rfl⟩
  | testMsg =>
    obtain ⟨message, w₃, htest, h⟩ := bind_eq_ok.mp h
    obtain ⟨p, queue, hp, hcell, hmsg, hw₃⟩ :=
      onStore_test (fun queue => decide (queue.size ≠ 0)) htest
    rw [hmsg, hw₃] at h
    by_cases hmessage : queue.size = 0
    · simp only [hmessage, ne_eq, not_true_eq_false, decide_false, Bool.false_eq_true, if_false] at h
      cases h
      exact ⟨p, queue, hp, hcell, .noMessage hmessage rfl⟩
    · simp only [hmessage, ne_eq, not_false_eq_true, decide_true, if_true] at h
      cases h
      exact ⟨p, queue, hp, hcell, .message hmessage rfl⟩
  | sleepMsg =>
    obtain ⟨_, w₃, hsleep, h⟩ := bind_eq_ok.mp h
    obtain ⟨hstore, hw₃⟩ := onStore_eq_ok hsleep
    obtain ⟨⟨p, queue⟩, store, hderef, hmodify⟩ := bind_eq_ok.mp hstore
    obtain ⟨hp, hcell, hsame⟩ := derefQueue_eq_ok hderef
    have hstore' : w₃.store = w.store.withSleeper p w.cs.threadId := by
      rw [hsame] at hmodify
      exact (congrArg Prod.snd (Except.ok.inj hmodify)).symm
    cases h
    exact ⟨p, queue, hp, hcell, .sleepMsg (by rw [hw₃, hstore'])⟩
  | wakeMsg =>
    obtain ⟨asleep, w₃, htest, h⟩ := bind_eq_ok.mp h
    obtain ⟨p, queue, hp, hcell, rfl, rfl⟩ :=
      onStore_test (fun queue => decide (w.cs.threadId ∈ queue.newMsgCond)) htest
    split at h
    · cases h
    · rename_i hawake
      cases h
      exact ⟨p, queue, hp, hcell, .wakeMsg (by simpa using hawake) rfl⟩
  | dequeue =>
    obtain ⟨_, w₃, hdequeue, h⟩ := bind_eq_ok.mp h
    cases h
    obtain ⟨taken, hstore, hcs, hsocket, htrace⟩ := dequeueInto_eq_ok hdequeue
    obtain ⟨⟨p, queue⟩, store, hderef, -⟩ := bind_eq_ok.mp hstore
    obtain ⟨hp, hcell, -⟩ := derefQueue_eq_ok hderef
    refine ⟨p, queue, hp, hcell, .dequeue ?_ hcs hsocket ?_⟩
    · rw [← hp]
      exact hstore
    · rw [← hp]
      exact htrace
  | nextThread =>
    obtain ⟨next, w₃, hnext, h⟩ := bind_eq_ok.mp h
    obtain ⟨hstore, hw₃⟩ := onStore_eq_ok hnext
    obtain ⟨p, queue, rr, hp, hcell, hrr, hring⟩ := onRing_eq_ok hstore
    cases h
    refine ⟨p, queue, hp, hcell, .nextThread hrr ?_⟩
    rw [hw₃, hring]

/-- The store after a wakeup that nobody caused. -/
inductive Woken (p : ℕ) (queue : Queue) (threadId : ℤ) (store : Store) : DequeuePoint → Store → Prop
  | wakeRound : Woken p queue threadId store .wakeRound
      (store.withRing p (queue.rr.setRoundCond threadId
        ((queue.rr.subs threadId).roundCond.erase threadId)))
  | wakeMsg : Woken p queue threadId store .wakeMsg
      { store with
        queues := store.queues.modify p fun queue =>
          { queue with newMsgCond := queue.newMsgCond.erase threadId } }

/-- Only a thread that is asleep on its queue can wake up. -/
theorem wakeSpuriously_eq_ok (h : wakeSpuriously point w = .ok ((), w')) :
    ∃ p queue store', w.cs.currentQueue = some p ∧ w.store.queues.cells p = some queue ∧
      Woken p queue w.cs.threadId w.store point store' ∧ w' = { w with store := store' } := by
  obtain ⟨q, w₁, hq, h⟩ := bind_eq_ok.mp h
  cases hq
  obtain ⟨threadId, w₂, hthread, h⟩ := bind_eq_ok.mp h
  cases hthread
  cases point with
  | wakeRound =>
    obtain ⟨hstore, hw'⟩ := onStore_eq_ok h
    obtain ⟨p, queue, rr, hp, hcell, hrr, hring⟩ := onRing_eq_ok hstore
    cases hrr
    exact ⟨p, queue, _, hp, hcell, .wakeRound, by rw [hw', hring]⟩
  | wakeMsg =>
    obtain ⟨⟨p, queue⟩, w₃, hread, h⟩ := bind_eq_ok.mp h
    obtain ⟨hderef, hw₃⟩ := onStore_eq_ok hread
    obtain ⟨hp, hcell, hsame⟩ := derefQueue_eq_ok hderef
    obtain ⟨hmodify, hw'⟩ := onStore_eq_ok h
    have hstore : w₃.store = w.store := hsame
    rw [hstore] at hmodify
    have hstore' : w'.store = _ := (congrArg Prod.snd (Except.ok.inj hmodify)).symm
    refine ⟨p, queue, _, hp, hcell, .wakeMsg, ?_⟩
    rw [hw', hw₃]
    simp only [hstore']
  | testRound => cases h
  | sleepRound => cases h
  | testMsg => cases h
  | sleepMsg => cases h
  | dequeue => cases h
  | nextThread => cases h

/-- Everything a step of the broker does. What its calls of `write` return makes no difference,
so the handlers run with a socket that takes everything. -/
inductive StepCase (grain : Grain) (s s' : Broker) : Act → Prop
  | accept {t : ℤ} {socket : Socket} {past : PastConsumeOkArgs} : 0 ≤ t → t < maxConnections →
      s.conns t = none →
      s' = { s with conns := Function.update s.conns t (some (Conn.start t socket past)) } →
      StepCase grain s s' (.accept t socket past)
  | handler {t : ℤ} {c : Conn} {m' : MachineState} {w' : World} {writes : List WriteResult} :
      s.conns t = some c →
      actions c.machine (s.world c) = .ok (m', w') → Effect c.machine (s.world c) w' m' →
      s' = s.commit t m' .testRound w' → StepCase grain s s' (.run t writes)
  | dequeue {t : ℤ} {c : Conn} {p : ℕ} {queue : Queue} {m' : MachineState} {point' : DequeuePoint}
      {w' : World} {writes : List WriteResult} : s.conns t = some c →
      c.machine = .waitValueDequeue →
      c.cs.currentQueue = some p → s.store.queues.cells p = some queue →
      DequeueEffect grain p queue (s.world c) w' c.point m' point' →
      s' = s.commit t m' point' w' → StepCase grain s s' (.run t writes)
  | close {t : ℤ} {c : Conn} : s.conns t = some c → c.machine = .finished ∨ c.machine = .fail →
      s' = { s with conns := Function.update s.conns t none } → StepCase grain s s' (.close t)
  | spurious {t : ℤ} {c : Conn} {p : ℕ} {queue : Queue} {store' : Store} : s.conns t = some c →
      c.machine = .waitValueDequeue → c.cs.currentQueue = some p →
      s.store.queues.cells p = some queue → Woken p queue c.cs.threadId s.store c.point store' →
      s' = s.commit t c.machine c.point { s.world c with store := store' } →
      StepCase grain s s' (.spurious t)

/-- The inversion of a step. -/
theorem step_cases {s s' : Broker} {act : Act} (h : Broker.step grain s act = .ok s') :
    StepCase grain s s' act := by
  cases act with
  | accept t socket past =>
    simp only [Broker.step] at h
    split at h
    · rename_i hfree
      cases h
      exact .accept hfree.1 hfree.2.1 (Option.isNone_iff_eq_none.mp hfree.2.2) rfl
    · cases h
  | run t writes =>
    replace h := Broker.step_run_allTaken h
    simp only [Broker.step] at h
    split at h
    · cases h
    · rename_i c hc
      split at h
      · rename_i m' point' w' hstep
        cases h
        have hhandler : ∀ m, c.machine = m → m ≠ .waitValueDequeue → m ≠ .finished → m ≠ .fail →
            (actions m >>= fun next => pure (next, DequeuePoint.testRound)) (s.world c) =
              .ok ((m', point'), w') → StepCase grain s (s.commit t m' point' w') (.run t writes) := by
          intro m hm hdequeue hfinished hfail haction
          obtain ⟨next, w₁, haction, hpure⟩ := bind_eq_ok.mp haction
          cases hpure
          subst hm
          exact .handler hc haction (effect_of_action hdequeue ⟨hfinished, hfail⟩ haction) rfl
        cases hm : c.machine with
        | finished =>
          rw [hm] at hstep
          cases hstep
        | fail =>
          rw [hm] at hstep
          cases hstep
        | waitValueDequeue =>
          rw [hm] at hstep
          obtain ⟨p, queue, hp, hcell, heffect⟩ := dequeueStep_effect hstep
          exact .dequeue hc hm hp hcell heffect rfl
        | _ =>
          rw [hm] at hstep
          exact hhandler _ hm (by simp) (by simp) (by simp) hstep
      · cases h
  | close t =>
    simp only [Broker.step] at h
    split at h
    · cases h
    · rename_i c hc
      split at h
      · rename_i hleft
        cases h
        exact .close hc hleft rfl
      · cases h
  | spurious t =>
    simp only [Broker.step] at h
    split at h
    · cases h
    · rename_i c hc
      split at h
      · rename_i hm
        split at h
        · rename_i w' hwake
          cases h
          obtain ⟨p, queue, store', hp, hcell, hwoken, rfl⟩ := wakeSpuriously_eq_ok hwake
          exact .spurious hc hm hp hcell hwoken rfl
        · cases h
      · cases h

/-- The thread that took a step is where the step left it. -/
@[simp] theorem Broker.commit_conns_self (s : Broker) (t : ℤ) (m : MachineState)
    (point : DequeuePoint) (w : World) :
    (s.commit t m point w).conns t = some ⟨m, point, w.cs, w.socket⟩ := Function.update_self _ _ _

/-- The other threads are where they were. -/
theorem Broker.commit_conns_of_ne (s : Broker) {t t' : ℤ} (h : t' ≠ t) (m : MachineState)
    (point : DequeuePoint) (w : World) : (s.commit t m point w).conns t' = s.conns t' :=
  Function.update_of_ne h _ _

/-- A place that is empty after a step asks for nothing. -/
theorem of_noConn {P : Conn → Prop} (c : Conn) (h : none = some c) : P c := by
  cases h

/-- Replacing one connection leaves the others. -/
theorem replaced_cases {s : Broker} {t t' : ℤ} {next : Option Conn} {c : Conn}
    (h : ({ s with conns := Function.update s.conns t next } : Broker).conns t' = some c) :
    (t' = t ∧ next = some c) ∨ (t' ≠ t ∧ s.conns t' = some c) := by
  have hupdate : Function.update s.conns t next t' = some c := h
  by_cases ht : t' = t
  · rw [ht, Function.update_self] at hupdate
    exact Or.inl ⟨ht, hupdate⟩
  · rw [Function.update_of_ne ht] at hupdate
    exact Or.inr ⟨ht, hupdate⟩

/-- Only its own steps move a connection that has not ended. -/
theorem Broker.conns_kept {s s' : Broker} {t : ℤ} {c : Conn} {act : Act} (hc : s.conns t = some c)
    (hrunning : c.machine ≠ .finished ∧ c.machine ≠ .fail) (hact : ∀ writes, act ≠ .run t writes)
    (hstep : Broker.step grain s act = .ok s') : s'.conns t = some c := by
  have hcommit : ∀ {u writes m point w}, act = .run u writes →
      (s.commit u m point w).conns t = some c := by
    intro u writes m point w hu
    rw [commit_conns_of_ne, hc]
    intro htu
    exact hact writes (htu ▸ hu)
  cases step_cases hstep with
  | @accept u socket past _ _ hfree hs' =>
    rw [hs']
    refine (Function.update_of_ne ?_ _ _).trans hc
    intro htu
    rw [← htu, hc] at hfree
    cases hfree
  | handler _ _ _ hs' =>
    rw [hs']
    exact hcommit rfl
  | dequeue _ _ _ _ _ hs' =>
    rw [hs']
    exact hcommit rfl
  | @close u d hd hleft hs' =>
    rw [hs']
    refine (Function.update_of_ne ?_ _ _).trans hc
    intro htu
    rw [← htu, hc] at hd
    obtain rfl := Option.some.inj hd
    exact hleft.elim hrunning.1 hrunning.2
  | @spurious u d _ _ _ hd _ _ _ _ hs' =>
    rw [hs']
    by_cases htu : t = u
    · subst htu
      obtain rfl := Option.some.inj (hc.symm.trans hd)
      exact commit_conns_self _ _ _ _ _
    · rw [commit_conns_of_ne _ htu, hc]

/-- A thread that runs a handler takes the step of its handler. -/
theorem threadStep_eq {m : MachineState} (hdequeue : m ≠ .waitValueDequeue)
    (hrunning : m ≠ .finished ∧ m ≠ .fail) (grain : Grain) (point : DequeuePoint) :
    threadStep grain m point =
      (actions m >>= fun next => pure (next, DequeuePoint.testRound)) := by
  cases m with
  | waitValueDequeue => exact absurd rfl hdequeue
  | finished => exact absurd rfl hrunning.1
  | fail => exact absurd rfl hrunning.2
  | _ => rfl

/-- A handler that returns makes a step. -/
theorem step_run_of_ok {s : Broker} {t : ℤ} {c : Conn} (hc : s.conns t = some c)
    (hdequeue : c.machine ≠ .waitValueDequeue) (hrunning : c.machine ≠ .finished ∧ c.machine ≠ .fail)
    (h : actions c.machine (s.world c) = .ok (m', w')) (grain : Grain) :
    Broker.step grain s (.run t) = .ok (s.commit t m' .testRound w') := by
  simp only [Broker.step, hc, threadStep_eq hdequeue hrunning, bind_of_ok h, pure_apply]

/-- A connection in a known state makes the step of its handler. -/
theorem step_run_of_machine {s : Broker} {t : ℤ} {c : Conn} (hc : s.conns t = some c)
    (hm : c.machine = m) (hdequeue : m ≠ .waitValueDequeue) (hrunning : m ≠ .finished ∧ m ≠ .fail)
    (h : actions m (s.world c) = .ok (m', w')) (grain : Grain) :
    Broker.step grain s (.run t) = .ok (s.commit t m' .testRound w') := by
  subst hm
  exact step_run_of_ok hc hdequeue hrunning h grain

/-- A handler that stops stops the process, or waits. -/
theorem step_run_of_error {s : Broker} {t : ℤ} {c : Conn} {reason : Abort}
    (hc : s.conns t = some c) (hdequeue : c.machine ≠ .waitValueDequeue)
    (hrunning : c.machine ≠ .finished ∧ c.machine ≠ .fail)
    (h : actions c.machine (s.world c) = .error reason) (grain : Grain) :
    Broker.step grain s (.run t) = .error reason := by
  simp only [Broker.step, hc, threadStep_eq hdequeue hrunning, bind_of_error h]

end AmqpBroker
