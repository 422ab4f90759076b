import AmqpBroker.Model.Broker
import AmqpBroker.Model.Server

/-!
# The process

The accept loop and the connection threads as one system. A thread is known by the number
of its start. It reads its number and its descriptor from the slot that its argument points
to, runs `state_machine_main` on the shared memory, closes the descriptor and gives the slot
back; what it does there touches no other thread's connection.
-/

namespace AmqpBroker

open Foundations

/-- Why a step of the process is not possible. -/
inductive ProcessStop where
  | server (reason : ServerStop)
  | connection (reason : Abort)
  /-- A thread that is about to use a descriptor that is not open. -/
  | closedDescriptor
  deriving DecidableEq

/-- The table of slots with `main` and its threads, the shared memory, the open sockets by
their descriptors, each as `accept` returned it, and the connections of the threads that are
inside `state_machine_main`. -/
structure Process where
  server : Server
  store : Store
  sockets : ℤ → Option Socket
  conns : ℕ → Option Conn
  history : List (ℤ × Event)

/-- What can happen next. -/
inductive ProcessAct where
  /-- `main` takes its next step. -/
  | main
  /-- `accept` returns a new descriptor to `main`. -/
  | accept (connfd : ℤ) (socket : Socket)
  /-- A connection thread takes its next step; `past` and `writes` are what it finds outside if
  it needs them, as for the broker. -/
  | connection (n : ℕ) (past : PastConsumeOkArgs := {}) (writes : List WriteResult := [])
  /-- `pthread_cond_wait` returns to the thread without a broadcast. -/
  | spurious (n : ℕ)

namespace Process

/-- Let `main` or a thread outside `state_machine_main` take a step. -/
def serverStep (p : Process) (a : ServerAct) : Except ProcessStop Process :=
  match p.server.step a with
  | .ok server => .ok { p with server := server }
  | .error reason => .error (.server reason)

/-- What the thread of a connection can touch. -/
def world (p : Process) (conn : Conn) (writes : List WriteResult := []) : World :=
  { cs := conn.cs, socket := conn.socket, store := p.store, trace := [], writes := writes }

/-- Record the outcome of a step inside `state_machine_main`. -/
def commit (p : Process) (n : ℕ) (threadId : ℤ) (machine : MachineState) (point : DequeuePoint)
    (w : World) : Process :=
  { p with
    store := w.store
    conns := Function.update p.conns n (some ⟨machine, point, w.cs, w.socket⟩)
    history := p.history ++ w.trace.map fun event => (threadId, event) }

/-- The call of `state_machine_main`, with the number and the descriptor of the slot. -/
def begin (p : Process) (n : ℕ) (slot : ConnectionThread) (past : PastConsumeOkArgs) :
    Except ProcessStop Process :=
  match p.sockets slot.connfd with
  | none => .error .closedDescriptor
  | some socket =>
    .ok { p with
      conns := Function.update p.conns n (some (Conn.start slot.threadId socket past)) }

/-- The return of `state_machine_main`, with the `close` of the descriptor. -/
def leave (p : Process) (n : ℕ) (slot : ConnectionThread) : Except ProcessStop Process :=
  Process.serverStep
    { p with
      conns := Function.update p.conns n none
      sockets := Function.update p.sockets slot.connfd none } (.connection n)

/-- One step of a thread inside `state_machine_main`. -/
def machineStep (grain : Grain) (p : Process) (n : ℕ) (slot : ConnectionThread) (conn : Conn)
    (writes : List WriteResult) : Except ProcessStop Process :=
  if conn.machine = .finished ∨ conn.machine = .fail then p.leave n slot
  else
    match threadStep grain conn.machine conn.point (p.world conn writes) with
    | .ok ((machine, point), w) => .ok (p.commit n slot.threadId machine point w)
    | .error reason => .error (.connection reason)

/-- One step of `connection_thread_main`. -/
def connectionStep (grain : Grain) (p : Process) (n : ℕ) (past : PastConsumeOkArgs)
    (writes : List WriteResult) : Except ProcessStop Process :=
  match p.server.running n with
  | some ⟨k, .stateMachine⟩ =>
    match p.conns n with
    | none => p.begin n (p.server.threads k) past
    | some conn => p.machineStep grain n (p.server.threads k) conn writes
  | _ => p.serverStep (.connection n)

/-- A wakeup that nobody caused. -/
def spuriousStep (p : Process) (n : ℕ) : Except ProcessStop Process :=
  match p.server.running n, p.conns n with
  | some ⟨k, .stateMachine⟩, some conn =>
    if conn.machine = .waitValueDequeue then
      match wakeSpuriously conn.point (p.world conn) with
      | .ok (_, w) =>
        .ok (p.commit n (p.server.threads k).threadId conn.machine conn.point w)
      | .error reason => .error (.connection reason)
    else .error (.connection .blocked)
  | _, _ => .error (.connection .blocked)

/-- The next state of the process. The system gives out no descriptor that is still open. -/
def step (grain : Grain) (p : Process) : ProcessAct → Except ProcessStop Process
  | .main => p.serverStep .main
  | .accept connfd socket =>
    if (p.sockets connfd).isSome then .error (.server .blocked)
    else
      Process.serverStep
        { p with sockets := Function.update p.sockets connfd (some socket) } (.accept connfd)
  | .connection n past writes => p.connectionStep grain n past writes
  | .spurious n => p.spuriousStep n

/-- The process as `main` enters its loop. -/
def initial : Process :=
  { server := .initial
    store := initQueuePool
    sockets := fun _ => none
    conns := fun _ => none
    history := [] }

end Process

end AmqpBroker
