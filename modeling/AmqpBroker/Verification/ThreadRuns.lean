import AmqpBroker.Verification.Chunking
import AmqpBroker.Verification.Exchange
import AmqpBroker.Verification.Invariant

/-!
# Whole runs of a thread

The runs of one connection against any behaviour of the memory that it shares. Every
connection of the broker is at a point of such a run, so what holds of all of them holds
of the connections in every run of the broker.
-/

namespace AmqpBroker

open Foundations Program MachineState

variable {grain : Grain}

namespace Thread

variable {th th' : Thread} {found : Store}

/-- What the thread can touch in its next step. -/
def world (th : Thread) (found : Store) : World :=
  { cs := th.conn.cs, socket := th.conn.socket, store := found, trace := [] }

/-- The thread after a step. -/
def after (th : Thread) (m : MachineState) (point : DequeuePoint) (w : World) : Thread :=
  { conn := { machine := m, point := point, cs := w.cs, socket := w.socket }
    store := w.store
    trace := th.trace ++ w.trace }

/-- A step that returns. -/
theorem step_of_ok {m' : MachineState} {point' : DequeuePoint} {w' : World}
    (h : threadStep grain th.conn.machine th.conn.point (th.world found) = .ok ((m', point'), w')) :
    step grain th found = .ok (th.after m' point' w') := by
  unfold world at h
  unfold step
  rw [h]
  rfl

/-- A step of a thread, taken apart: a handler, or a step inside `q_dequeue_rr`. -/
inductive StepCase (grain : Grain) (th : Thread) (found : Store) (th' : Thread) : Prop
  | handler {m' : MachineState} {w' : World} : th.conn.machine ≠ .waitValueDequeue →
      th.conn.machine ≠ .finished ∧ th.conn.machine ≠ .fail →
      actions th.conn.machine (th.world found) = .ok (m', w') →
      th' = th.after m' .testRound w' → StepCase grain th found th'
  | dequeue {p : ℕ} {queue : Queue} {m' : MachineState} {point' : DequeuePoint} {w' : World} :
      th.conn.machine = .waitValueDequeue →
      DequeueEffect grain p queue (th.world found) w' th.conn.point m' point' →
      th' = th.after m' point' w' → StepCase grain th found th'

/-- What a step of a thread is. -/
theorem step_cases (h : step grain th found = .ok th') : StepCase grain th found th' := by
  unfold step at h
  split at h
  · rename_i m' point' w' hstep
    cases h
    by_cases hdequeue : th.conn.machine = .waitValueDequeue
    · rw [hdequeue] at hstep
      obtain ⟨p, queue, -, -, heffect⟩ := dequeueStep_effect hstep
      exact .dequeue hdequeue heffect rfl
    · by_cases hrunning : th.conn.machine ≠ .finished ∧ th.conn.machine ≠ .fail
      · rw [threadStep_eq hdequeue hrunning] at hstep
        obtain ⟨next, w₁, haction, hpure⟩ := bind_eq_ok.mp hstep
        cases hpure
        exact .handler hdequeue hrunning haction rfl
      · rcases not_and_or.mp hrunning with hm | hm
        · rw [not_not.mp hm] at hstep
          cases hstep
        · rw [not_not.mp hm] at hstep
          cases hstep
  · cases h

/-- The calls of a step inside `q_dequeue_rr`: none but the one of `q_dequeue`. -/
theorem dequeueEffect_calls {p : ℕ} {queue : Queue} {w w' : World} {point point' : DequeuePoint}
    {m' : MachineState} (h : DequeueEffect grain p queue w w' point m' point') :
    w'.socket = w.socket ∧
      ((point = .dequeue ∧ m' = waitValueDequeue ∧ point' = .nextThread ∧
          ∃ taken, w'.trace = w.trace ++ [.qDequeue (some p) taken]) ∨
        (point = .nextThread ∧ m' = valueDequeueReceived ∧ w'.trace = w.trace) ∨
        (point ≠ .dequeue ∧ point ≠ .nextThread ∧ m' = waitValueDequeue ∧ point' ≠ .nextThread ∧
          w'.trace = w.trace)) := by
  cases h with
  | dequeue _ _ hsocket htrace => exact ⟨hsocket, .inl ⟨rfl, rfl, rfl, _, htrace⟩⟩
  | nextThread _ hw =>
    rw [hw]
    exact ⟨rfl, .inr (.inl ⟨rfl, rfl, rfl⟩)⟩
  | turn _ hw | noTurn _ _ hw | noTurnSleep _ _ _ hw | sleepRound _ hw | wakeRound _ hw
  | message _ hw | noMessage _ hw | sleepMsg hw | wakeMsg _ hw =>
    rw [hw]
    exact ⟨rfl, .inr (.inr ⟨by simp, by simp, rfl, by simp, rfl⟩)⟩

end Thread

/-- The calls of one thread. -/
def callsOf (t : ℤ) (history : List (ℤ × Event)) : List Event :=
  (history.filter fun entry => entry.1 = t).map Prod.snd

/-- The calls of a thread after it has made some more. -/
theorem callsOf_append_self (t : ℤ) (history : List (ℤ × Event)) (events : List Event) :
    callsOf t (history ++ events.map fun event => (t, event)) = callsOf t history ++ events := by
  have hself : (events.map fun event => (t, event)).filter (fun entry => entry.1 = t) =
      events.map fun event => (t, event) :=
    List.filter_eq_self.mpr (by simp)
  rw [callsOf, List.filter_append, hself, List.map_append, callsOf, List.map_map]
  exact congrArg _ (List.map_id _)

/-- The calls of a thread after another one has made some more. -/
theorem callsOf_append_of_ne {t t' : ℤ} (h : t' ≠ t) (history : List (ℤ × Event))
    (events : List Event) :
    callsOf t (history ++ events.map fun event => (t', event)) = callsOf t history := by
  have hother : (events.map fun event => (t', event)).filter (fun entry => entry.1 = t) = [] :=
    List.filter_eq_nil_iff.mpr (by simpa using fun _ _ => h)
  rw [callsOf, List.filter_append, hother, List.append_nil, callsOf]

namespace Broker

variable {s s' : Broker} {t : ℤ} {c : Conn}

/-- The connection is at a point of a run of its own thread, which has made the last of the
calls recorded under its id. -/
def RunsAsThread (grain : Grain) (s : Broker) (t : ℤ) (c : Conn) : Prop :=
  ∃ past socket found th before,
    exec (Thread.step grain) (Thread.start (.initial t past) socket initQueuePool) found = .ok th ∧
      th.conn = c ∧ callsOf t s.history = before ++ th.trace

/-- Steps of others change nothing about it. -/
theorem RunsAsThread.of_other (h : RunsAsThread grain s t c)
    (hcalls : callsOf t s'.history = callsOf t s.history) : RunsAsThread grain s' t c := by
  obtain ⟨past, socket, found, th, before, hrun, hconn, htrace⟩ := h
  exact ⟨past, socket, found, th, before, hrun, hconn, by rw [hcalls, htrace]⟩

/-- The thread takes the step that the broker gives it. -/
theorem RunsAsThread.run (h : RunsAsThread grain s t c) {m' : MachineState} {point' : DequeuePoint}
    {w' : World} (hstep : threadStep grain c.machine c.point (s.world c) = .ok ((m', point'), w')) :
    RunsAsThread grain (s.commit t m' point' w') t ⟨m', point', w'.cs, w'.socket⟩ := by
  obtain ⟨past, socket, found, th, before, hrun, rfl, htrace⟩ := h
  have hone := Thread.step_of_ok hstep
  refine ⟨past, socket, found ++ [s.store], th.after m' point' w', before, ?_, rfl, ?_⟩
  · apply exec_append_eq_ok.mpr
    exact ⟨th, hrun, by rw [exec_cons _ _ _ hone, exec_nil]⟩
  · rw [Broker.commit, callsOf_append_self, htrace, List.append_assoc]
    rfl

/-- Every connection of a reachable state is at a point of a run of its own thread. -/
theorem runsAsThread {guard : Broker → Act → Prop}
    (h : Reaches (Broker.step grain) guard Broker.initial s) (hc : s.conns t = some c) :
    RunsAsThread grain s t c := by
  revert t c
  apply h.invariant
  · intro t c hc
    cases hc
  · intro s act s' ih _ hstep t c hc
    cases act with
    | accept t' socket past =>
      cases step_cases hstep with
      | accept _ _ _ hs' =>
        subst hs'
        rcases replaced_cases hc with ⟨rfl, hnew⟩ | ⟨_, hold⟩
        · cases hnew
          exact ⟨past, socket, [], _, callsOf t s.history, rfl, rfl, (List.append_nil _).symm⟩
        · exact (ih hold).of_other rfl
    | run t' writes =>
      replace hstep := step_run_allTaken hstep
      simp only [Broker.step] at hstep
      split at hstep
      · cases hstep
      · rename_i c' hc'
        split at hstep
        · rename_i m' point' w' hthread
          cases hstep
          by_cases ht : t = t'
          · subst ht
            rw [commit_conns_self] at hc
            cases hc
            exact (ih hc').run hthread
          · rw [commit_conns_of_ne _ ht] at hc
            exact (ih hc).of_other (callsOf_append_of_ne (Ne.symm ht) _ _)
        · cases hstep
    | close t' =>
      cases step_cases hstep with
      | close _ _ hs' =>
        subst hs'
        rcases replaced_cases hc with ⟨rfl, hnew⟩ | ⟨_, hold⟩
        · cases hnew
        · exact (ih hold).of_other rfl
    | spurious t' =>
      cases step_cases hstep with
      | spurious hc' _ _ _ _ hs' =>
        subst hs'
        have hcalls : callsOf t (s.history ++ []) = callsOf t s.history := by rw [List.append_nil]
        by_cases ht : t = t'
        · subst ht
          rw [commit_conns_self] at hc
          cases hc
          exact (ih hc').of_other hcalls
        · rw [commit_conns_of_ne _ ht] at hc
          exact (ih hc).of_other hcalls

end Broker

end AmqpBroker
