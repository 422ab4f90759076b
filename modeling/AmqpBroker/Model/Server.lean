import AmqpBroker.Model.RoundRobin

/-!
# The accept loop

`main` and the connection threads it starts, as far as the table of slots goes. A step is
one statement group between two points where another thread may run; the mutex is held by
at most one of them. What a connection does inside `state_machine_main` is a single step
here, since it does not touch the table.
-/

namespace AmqpBroker

/-- Why a step of the server is not possible. -/
inductive ServerStop where
  /-- The thread waits for the mutex or has nothing left to do. -/
  | blocked
  /-- An index outside `threads`. -/
  | threadsRange
  /-- `accept` has failed and the process exits. -/
  | exit
  deriving DecidableEq, Repr

/-- `connection_thread`. -/
structure ConnectionThread where
  active : Bool
  threadId : ℤ
  connfd : ℤ

/-- Where `main` is in its loop. -/
inductive MainPoint where
  | lock
  /-- At the head of the slot search, with its counter. -/
  | search (i : ℤ)
  | sleep
  | unlock
  | accept
  deriving DecidableEq, Repr

/-- Where a thread is in `connection_thread_main`. -/
inductive ConnectionPoint where
  | stateMachine
  | lock
  | clear
  | unlock
  deriving DecidableEq, Repr

/-- A started thread: the slot that its argument points to and how far it is. -/
structure ConnectionThreadMain where
  thread : ℤ
  point : ConnectionPoint

/-- A thread that can hold `thread_allocation_mutex`. -/
inductive Locker where
  | main
  | connection (n : ℕ)
  deriving DecidableEq, Repr

/-- The table, the mutex, `main` and the threads started so far, by the order of their start. -/
structure Server where
  threads : ℤ → ConnectionThread
  threadAllocationMutex : Option Locker
  threadCount : ℤ
  main : MainPoint
  running : ℕ → Option ConnectionThreadMain
  started : ℕ

/-- What can happen next. -/
inductive ServerAct where
  /-- `main` takes its next step. -/
  | main
  /-- `accept` returns to `main`. -/
  | accept (connfd : ℤ)
  /-- A connection thread takes its next step. -/
  | connection (n : ℕ)
  deriving DecidableEq, Repr

/-- An index into `threads`. -/
def threadIndex (i : ℤ) : Except ServerStop ℤ :=
  if 0 ≤ i ∧ i < maxConnections then .ok i else .error .threadsRange

namespace Server

/-- Assign to the `active` of a slot. -/
def setActive (s : Server) (k : ℤ) (value : Bool) : Server :=
  { s with threads := Function.update s.threads k { s.threads k with active := value } }

/-- Move a connection thread on to another point. -/
def setPoint (s : Server) (n : ℕ) (c : ConnectionThreadMain) (point : ConnectionPoint) : Server :=
  { s with running := Function.update s.running n (some { c with point := point }) }

/-- Lock the mutex, or wait for it. -/
def lock (s : Server) (locker : Locker) : Except ServerStop Server :=
  match s.threadAllocationMutex with
  | none => .ok { s with threadAllocationMutex := some locker }
  | some _ => .error .blocked

/-- Unlock the mutex. -/
def unlock (s : Server) : Server := { s with threadAllocationMutex := none }

/-- The test of the slot search, with what it does on a free slot. -/
def probe (s : Server) (i : ℤ) : Except ServerStop Server := do
  let k ← threadIndex (s.threadCount + i % maxConnections)
  if !(s.threads k).active then
    pure { s.setActive k true with threadCount := k, main := .unlock }
  else pure { s with main := .search (i + 1) }

/-- One step of `main`, except for the return of `accept`. -/
def mainStep (s : Server) : Except ServerStop Server :=
  match s.main with
  | .lock => do
    let s ← s.lock .main
    pure { s with main := .search 0 }
  | .search i => if i = maxConnections then .ok { s with main := .sleep } else s.probe i
  | .sleep => .ok { s with main := .search 0 }
  | .unlock => .ok { s.unlock with main := .accept }
  | .accept => .error .blocked

/-- The rest of the loop of `main`, from the return of `accept` on. -/
def acceptStep (s : Server) (connfd : ℤ) : Except ServerStop Server :=
  if s.main ≠ .accept then .error .blocked
  else if connfd = -1 then .error .exit
  else
    let thread : ConnectionThread :=
      { s.threads s.threadCount with connfd := connfd, threadId := s.threadCount }
    .ok { s with
      threads := Function.update s.threads s.threadCount thread
      running := Function.update s.running s.started (some ⟨s.threadCount, .stateMachine⟩)
      started := s.started + 1
      threadCount := (s.threadCount + 1) % maxConnections
      main := .lock }

/-- One step of `connection_thread_main`. -/
def connectionStep (s : Server) (n : ℕ) : Except ServerStop Server :=
  match s.running n with
  | none => .error .blocked
  | some c =>
    match c.point with
    | .stateMachine => .ok (s.setPoint n c .lock)
    | .lock => do
      let s ← s.lock (.connection n)
      pure (s.setPoint n c .clear)
    | .clear => do
      let k ← threadIndex (s.threads c.thread).threadId
      pure ((s.setActive k false).setPoint n c .unlock)
    | .unlock => .ok { s.unlock with running := Function.update s.running n none }

/-- The next state of the server. -/
def step (s : Server) : ServerAct → Except ServerStop Server
  | .main => s.mainStep
  | .accept connfd => s.acceptStep connfd
  | .connection n => s.connectionStep n

/-- The server as `main` enters its loop. -/
def initial : Server :=
  { threads := fun _ => ⟨false, 0, 0⟩
    threadAllocationMutex := none
    threadCount := 0
    main := .lock
    running := fun _ => none
    started := 0 }

end Server

end AmqpBroker
