import AmqpBroker.Foundations.Execution
import AmqpBroker.Model.StateMachine
import Mathlib.Data.Finset.Erase

/-!
# The broker

All connections with the memory they share. A step is one step of one thread: a handler,
which makes at most one call on the shared memory, or one of the steps into which
`q_dequeue_rr` falls, since other threads run while it waits. A step that C leaves
undefined takes the whole process with it, so it has no successor.
-/

namespace AmqpBroker

open Foundations

/-- Whether the test and the sleep of `wait_round` are one step or two. -/
inductive Grain where
  | coarse
  | fine
  deriving DecidableEq, Repr

/-- The step of `q_dequeue_rr` that a thread takes next. -/
inductive DequeuePoint where
  | testRound
  | sleepRound
  | wakeRound
  | testMsg
  | sleepMsg
  | wakeMsg
  | dequeue
  | nextThread
  deriving DecidableEq, Repr

/-- A connection: its state, where it is inside `q_dequeue_rr`, its memory and its socket. -/
structure Conn where
  machine : MachineState
  point : DequeuePoint
  cs : ConnectionState
  socket : Socket

/-- The whole process, with the calls made so far by each thread. -/
structure Broker where
  store : Store
  conns : ℤ → Option Conn
  history : List (ℤ × Event)

/-- What can happen next. -/
inductive Act where
  /-- `main` accepts a connection and starts its thread on a free slot. -/
  | accept (threadId : ℤ) (socket : Socket) (past : PastConsumeOkArgs := {})
  /-- The thread takes its next step; its calls of `write` come to `writes`, and take all they are
  given where the list is at its end. -/
  | run (threadId : ℤ) (writes : List WriteResult := [])
  /-- The thread has left its state machine and gives its slot back. -/
  | close (threadId : ℤ)
  /-- `pthread_cond_wait` returns to the thread without a broadcast. -/
  | spurious (threadId : ℤ)

/-- One step inside `q_dequeue_rr`. -/
def dequeueStep (grain : Grain) (point : DequeuePoint) : Action (MachineState × DequeuePoint) := do
  let q ← field (·.currentQueue)
  let threadId ← field (·.threadId)
  match point with
  | .testRound =>
    if ← onStore (testRound q threadId) then pure (.waitValueDequeue, .testMsg)
    else if grain = .fine then pure (.waitValueDequeue, .sleepRound)
    else do
      onStore (sleepOnRound q threadId)
      pure (.waitValueDequeue, .wakeRound)
  | .sleepRound => do
    onStore (sleepOnRound q threadId)
    pure (.waitValueDequeue, .wakeRound)
  | .wakeRound =>
    if ← onStore (asleepOnRound q threadId) then Program.stop .blocked
    else pure (.waitValueDequeue, .testMsg)
  | .testMsg =>
    if ← onStore (testMsg q) then pure (.waitValueDequeue, .dequeue)
    else pure (.waitValueDequeue, .sleepMsg)
  | .sleepMsg => do
    onStore (sleepOnMsg q threadId)
    pure (.waitValueDequeue, .wakeMsg)
  | .wakeMsg =>
    if ← onStore (asleepOnMsg q threadId) then Program.stop .blocked
    else pure (.waitValueDequeue, .dequeue)
  | .dequeue => do
    dequeueInto q
    pure (.waitValueDequeue, .nextThread)
  | .nextThread => do
    let _ ← onStore (qNextThread q)
    pure (.valueDequeueReceived, .testRound)

/-- One step of a thread in a given state. -/
def threadStep (grain : Grain) (machine : MachineState) (point : DequeuePoint) :
    Action (MachineState × DequeuePoint) :=
  match machine with
  | .finished => Program.stop .blocked
  | .fail => Program.stop .blocked
  | .waitValueDequeue => dequeueStep grain point
  | machine => do
    let next ← actions machine
    pure (next, .testRound)

/-- A wakeup that nobody caused: the thread is no longer asleep. -/
def wakeSpuriously (point : DequeuePoint) : Action Unit := do
  let q ← field (·.currentQueue)
  let threadId ← field (·.threadId)
  match point with
  | .wakeRound =>
    onStore (onRing q fun rr =>
      .ok ((), rr.setRoundCond threadId ((rr.subs threadId).roundCond.erase threadId)))
  | .wakeMsg => do
    let (p, _) ← onStore (derefQueue q)
    onStore (modifyQueue p fun queue =>
      { queue with newMsgCond := queue.newMsgCond.erase threadId })
  | _ => Program.stop .blocked

/-- A connection as its thread starts it. -/
def Conn.start (threadId : ℤ) (socket : Socket) (past : PastConsumeOkArgs := {}) : Conn :=
  { machine := .wait, point := .testRound, cs := .initial threadId past, socket := socket }

namespace Broker

/-- What the thread of a connection can touch. -/
def world (s : Broker) (c : Conn) (writes : List WriteResult := []) : World :=
  { cs := c.cs, socket := c.socket, store := s.store, trace := [], writes := writes }

/-- Record the outcome of a step of a thread. -/
def commit (s : Broker) (threadId : ℤ) (machine : MachineState) (point : DequeuePoint)
    (w : World) : Broker :=
  { store := w.store
    conns := Function.update s.conns threadId (some ⟨machine, point, w.cs, w.socket⟩)
    history := s.history ++ w.trace.map fun event => (threadId, event) }

/-- The next state of the process. -/
def step (grain : Grain) (s : Broker) : Act → Except Abort Broker
  | .accept threadId socket past =>
    if 0 ≤ threadId ∧ threadId < maxConnections ∧ (s.conns threadId).isNone then
      .ok { s with
        conns := Function.update s.conns threadId (some (Conn.start threadId socket past)) }
    else .error .blocked
  | .run threadId writes =>
    match s.conns threadId with
    | none => .error .blocked
    | some c =>
      match threadStep grain c.machine c.point (s.world c writes) with
      | .ok ((machine, point), w) => .ok (s.commit threadId machine point w)
      | .error reason => .error reason
  | .close threadId =>
    match s.conns threadId with
    | none => .error .blocked
    | some c =>
      if c.machine = .finished ∨ c.machine = .fail then
        .ok { s with conns := Function.update s.conns threadId none }
      else .error .blocked
  | .spurious threadId =>
    match s.conns threadId with
    | none => .error .blocked
    | some c =>
      if c.machine = .waitValueDequeue then
        match wakeSpuriously c.point (s.world c) with
        | .ok (_, w) => .ok (s.commit threadId c.machine c.point w)
        | .error reason => .error reason
      else .error .blocked

/-- The process before any connection. -/
def initial : Broker := { store := initQueuePool, conns := fun _ => none, history := [] }

end Broker

end AmqpBroker
