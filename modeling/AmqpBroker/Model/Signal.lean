import AmqpBroker.Foundations.Execution
import AmqpBroker.Model.Queue
import Mathlib.Data.Finset.Erase

/-!
# Publishers and the consumer of a queue

One queue with any number of threads inside `q_enqueue` and the consumer that has the turn
inside `wait_msg`, with `q_enqueue` cut between its list update and its broadcast. The
mutex of the queue is held from the first to the second; the consumer reads `size` without
it and takes it for `q_dequeue`.
-/

namespace AmqpBroker

open Foundations

/-- `q_enqueue` up to its list update. -/
def qLink (q : Option ℕ) (body : List UInt8) : Shared ℕ := do
  let n ← newNode { parent := none, length := body.length, body := body }
  let (p, queue) ← derefQueue q
  match queue.firstNode with
  | none => pure ()
  | some first => do
    let _ ← derefNode first
    modifyNode first fun node => { node with parent := some n }
  modifyQueue p fun queue => { queue with
    firstNode := some n
    lastNode := if queue.lastNode = none then some n else queue.lastNode
    size := queue.size + 1 }
  pure n

/-- The broadcast of `q_enqueue`. -/
def qBroadcast (q : Option ℕ) : Shared Unit := do
  let (p, _) ← derefQueue q
  modifyQueue p fun queue => { queue with newMsgCond := ∅ }

/-- `pthread_cond_wait` on `new_msg_cond` returns to the thread without a broadcast. -/
def wakeOnMsg (q : Option ℕ) (threadId : ℤ) : Shared Unit := do
  let (p, _) ← derefQueue q
  modifyQueue p fun queue => { queue with newMsgCond := queue.newMsgCond.erase threadId }

/-- Where a publisher is in `q_enqueue`. -/
inductive PublisherPoint where
  | lock (body : List UInt8)
  | link (body : List UInt8)
  | broadcast
  | unlock
  deriving DecidableEq, Repr

/-- Where the consumer is between two messages. -/
inductive ConsumerPoint where
  | testMsg
  | sleepMsg
  | wakeMsg
  | dequeue
  deriving DecidableEq, Repr

/-- The memory, the publisher that holds the mutex of the queue, and where everybody is. -/
structure Signal where
  store : Store
  mutex : Option ℕ
  publishers : ℕ → Option PublisherPoint
  consumer : ConsumerPoint

/-- What can happen next. -/
inductive SignalAct where
  /-- A thread calls `q_enqueue`. -/
  | enqueue (n : ℕ) (body : List UInt8)
  /-- A publisher takes its next step. -/
  | publisher (n : ℕ)
  /-- The consumer takes its next step. -/
  | consumer
  /-- The wait of the consumer returns without a broadcast. -/
  | spurious
  deriving DecidableEq, Repr

namespace Signal

/-- Move a publisher to a point of `q_enqueue`, or out of it. -/
def setPublisher (s : Signal) (n : ℕ) (point : Option PublisherPoint) : Signal :=
  { s with publishers := Function.update s.publishers n point }

/-- One step of a publisher. -/
def publisherStep (q : Option ℕ) (s : Signal) (n : ℕ) : Except Abort Signal :=
  match s.publishers n with
  | none => .error .blocked
  | some (.lock body) =>
    if s.mutex = none then
      .ok ({ s with mutex := some n }.setPublisher n (some (.link body)))
    else .error .blocked
  | some (.link body) => do
    let (_, store) ← qLink q body s.store
    pure ({ s with store := store }.setPublisher n (some .broadcast))
  | some .broadcast => do
    let (_, store) ← qBroadcast q s.store
    pure ({ s with store := store }.setPublisher n (some .unlock))
  | some .unlock => .ok ({ s with mutex := none }.setPublisher n none)

/-- One step of the consumer. -/
def consumerStep (q : Option ℕ) (threadId : ℤ) (s : Signal) : Except Abort Signal :=
  match s.consumer with
  | .testMsg => do
    let (found, store) ← testMsg q s.store
    pure { s with store := store, consumer := if found then .dequeue else .sleepMsg }
  | .sleepMsg => do
    let (_, store) ← sleepOnMsg q threadId s.store
    pure { s with store := store, consumer := .wakeMsg }
  | .wakeMsg => do
    let (asleep, store) ← asleepOnMsg q threadId s.store
    if asleep then .error .blocked else pure { s with store := store, consumer := .dequeue }
  | .dequeue =>
    if s.mutex = none then do
      let (_, store) ← qDequeue q s.store
      pure { s with store := store, consumer := .testMsg }
    else .error .blocked

/-- The next state. -/
def step (q : Option ℕ) (threadId : ℤ) (s : Signal) : SignalAct → Except Abort Signal
  | .enqueue n body =>
    match s.publishers n with
    | none => .ok (s.setPublisher n (some (.lock body)))
    | some _ => .error .blocked
  | .publisher n => s.publisherStep q n
  | .consumer => s.consumerStep q threadId
  | .spurious =>
    if s.consumer = .wakeMsg then do
      let (_, store) ← wakeOnMsg q threadId s.store
      pure { s with store := store }
    else .error .blocked

/-- Nobody in `q_enqueue` yet, and the consumer about to enter `wait_msg`. -/
def start (store : Store) : Signal :=
  { store := store, mutex := none, publishers := fun _ => none, consumer := .testMsg }

end Signal

end AmqpBroker
