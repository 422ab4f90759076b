import AmqpBroker.Foundations.AtomicObject
import AmqpBroker.Foundations.Fifo
import AmqpBroker.Model.Queue
import Mathlib.Data.Finset.Erase

/-!
# The queue, one memory access at a time

The functions of `queue.c` that connections run on a queue, cut wherever another thread can
run: each read and each write of a shared field, each lock and unlock is a step of its own.
Nothing is atomic here but these. `malloc` may hand out any address that is not allocated,
also one that was freed a moment ago.
-/

namespace AmqpBroker

open Foundations

/-- The functions that are called on a queue. -/
inductive QueueOp where
  | qEnqueue (body : List UInt8)
  | qDequeue
  | qSize
  | waitMsg
  deriving DecidableEq, Repr

/-- What the caller comes back with: nothing, the string that was copied, or the size read. -/
inductive QueueAnswer where
  | done
  | message (taken : Option (List UInt8))
  | count (size : ℤ)
  deriving DecidableEq, Repr

/-- What the functions are for, on the strings in the queue. -/
def serveQueue : QueueOp → List (List UInt8) → QueueAnswer × List (List UInt8)
  | .qEnqueue body, messages => (.done, (Fifo.Call.put body).after messages)
  | .qDequeue, messages => (.message (Fifo.Call.take.answer messages), Fifo.Call.take.after messages)
  | .qSize, messages => (.count messages.length, messages)
  | .waitMsg, messages => (.count messages.length, messages)

/-- The access that a thread makes next, with its locals. -/
inductive QueuePoint where
  | outside
  | returning (answer : QueueAnswer)
  /-- `n = malloc(...)`, and the node filled in. -/
  | enqueueMalloc (body : List UInt8)
  | enqueueLock (body : List UInt8) (n : ℕ)
  /-- `if (q->first_node != NULL)` -/
  | enqueueTestFirst (body : List UInt8) (n : ℕ)
  /-- The pointer in `q->first_node->parent = n`, read again. -/
  | enqueueLoadFirst (body : List UInt8) (n : ℕ)
  | enqueueStoreParent (body : List UInt8) (n first : ℕ)
  /-- `q->first_node = n` -/
  | enqueueStoreFirst (body : List UInt8) (n : ℕ)
  /-- `if (q->last_node == NULL)` -/
  | enqueueTestLast (body : List UInt8) (n : ℕ)
  | enqueueStoreLast (body : List UInt8) (n : ℕ)
  /-- `q->size += 1` -/
  | enqueueLoadSize (body : List UInt8)
  | enqueueStoreSize (body : List UInt8) (size : ℤ)
  | enqueueLockMsg
  | enqueueBroadcast
  | enqueueUnlockMsg
  | enqueueUnlock
  | dequeueLock
  /-- `last = q->last_node; if (last)` -/
  | dequeueLoadLast
  /-- `strcpy(ret, last->body)` -/
  | dequeueCopy (last : ℕ)
  /-- `q->last_node = last->parent` -/
  | dequeueLoadParent (last : ℕ) (body : List UInt8)
  | dequeueStoreLast (last : ℕ) (body : List UInt8) (parent : Option ℕ)
  | dequeueFree (last : ℕ) (body : List UInt8)
  /-- `if (q->first_node == last)` -/
  | dequeueTestFirst (last : ℕ) (body : List UInt8)
  | dequeueStoreFirst (body : List UInt8)
  /-- `q->size -= 1` -/
  | dequeueLoadSize (body : List UInt8)
  | dequeueStoreSize (body : List UInt8) (size : ℤ)
  | dequeueUnlock (taken : Option (List UInt8))
  | sizeLock
  | sizeLoad
  | sizeUnlock (size : ℤ)
  /-- `if (q->size == 0)`, with no lock. -/
  | waitTest
  | waitLock
  /-- `pthread_cond_wait` gives the mutex back and sleeps. -/
  | waitSleep
  /-- `pthread_cond_wait` returns once it was woken and has the mutex again. -/
  | waitWake
  | waitUnlock
  deriving DecidableEq, Repr

/-- The nodes, and the fields of the queue that `mutex` is there for. -/
structure QueueData where
  nodes : Heap QNode
  firstNode : Option ℕ
  lastNode : Option ℕ
  size : ℤ

/-- The queue with the holders of its two mutexes, the threads asleep on `new_msg_cond`, where
each thread is, and what has been called and returned so far. -/
structure QueueAccess where
  data : QueueData
  mutex : Option ℕ
  newMsgMutex : Option ℕ
  newMsgCond : Finset ℕ
  threads : ℕ → QueuePoint
  history : List (CallEvent ℕ QueueOp QueueAnswer)

/-- What can happen next. -/
inductive QueueAct where
  /-- A thread calls a function. -/
  | call (i : ℕ) (op : QueueOp)
  /-- `malloc` returns an address to the thread. -/
  | malloc (i n : ℕ)
  /-- The thread takes its next step. -/
  | run (i : ℕ)
  /-- `pthread_cond_wait` is over for the thread without a broadcast. -/
  | spurious (i : ℕ)
  deriving DecidableEq, Repr

/-- Where a function starts. -/
def QueueOp.entry : QueueOp → QueuePoint
  | .qEnqueue body => .enqueueMalloc body
  | .qDequeue => .dequeueLock
  | .qSize => .sizeLock
  | .waitMsg => .waitTest

namespace QueueData

/-- The node that a pointer leads to. -/
def deref (d : QueueData) (n : ℕ) : Except Abort QNode :=
  match d.nodes.cells n with
  | none => .error .dangling
  | some node => .ok node

/-- One access to the nodes or to the fields of the queue. -/
def access (d : QueueData) : QueuePoint → Except Abort (QueueData × QueuePoint)
  | .enqueueTestFirst body n =>
    .ok (d, if d.firstNode ≠ none then .enqueueLoadFirst body n else .enqueueStoreFirst body n)
  | .enqueueLoadFirst body n =>
    match d.firstNode with
    | none => .error .dangling
    | some first => .ok (d, .enqueueStoreParent body n first)
  | .enqueueStoreParent body n first => do
    let _ ← d.deref first
    pure ({ d with nodes := d.nodes.modify first fun node => { node with parent := some n } },
      .enqueueStoreFirst body n)
  | .enqueueStoreFirst body n => .ok ({ d with firstNode := some n }, .enqueueTestLast body n)
  | .enqueueTestLast body n =>
    .ok (d, if d.lastNode = none then .enqueueStoreLast body n else .enqueueLoadSize body)
  | .enqueueStoreLast body n => .ok ({ d with lastNode := some n }, .enqueueLoadSize body)
  | .enqueueLoadSize body => .ok (d, .enqueueStoreSize body d.size)
  | .enqueueStoreSize _ size => .ok ({ d with size := size + 1 }, .enqueueLockMsg)
  | .dequeueLoadLast =>
    match d.lastNode with
    | none => .ok (d, .dequeueUnlock none)
    | some last => .ok (d, .dequeueCopy last)
  | .dequeueCopy last => do
    let node ← d.deref last
    pure (d, .dequeueLoadParent last node.body)
  | .dequeueLoadParent last body => do
    let node ← d.deref last
    pure (d, .dequeueStoreLast last body node.parent)
  | .dequeueStoreLast last body parent => .ok ({ d with lastNode := parent }, .dequeueFree last body)
  | .dequeueFree last body => do
    let _ ← d.deref last
    pure ({ d with nodes := d.nodes.free last }, .dequeueTestFirst last body)
  | .dequeueTestFirst last body =>
    .ok (d, if d.firstNode = some last then .dequeueStoreFirst body else .dequeueLoadSize body)
  | .dequeueStoreFirst body => .ok ({ d with firstNode := none }, .dequeueLoadSize body)
  | .dequeueLoadSize body => .ok (d, .dequeueStoreSize body d.size)
  | .dequeueStoreSize body size => .ok ({ d with size := size - 1 }, .dequeueUnlock (some body))
  | .sizeLoad => .ok (d, .sizeUnlock d.size)
  | .waitTest => .ok (d, if d.size = 0 then .waitLock else .returning (.count d.size))
  | _ => .error .blocked

end QueueData

namespace QueueAccess

/-- The thread moves on. -/
def goto (s : QueueAccess) (i : ℕ) (point : QueuePoint) : QueueAccess :=
  { s with threads := Function.update s.threads i point }

/-- `pthread_mutex_lock(&q->mutex)`. -/
def lockMutex (s : QueueAccess) (i : ℕ) (point : QueuePoint) : Except Abort QueueAccess :=
  if s.mutex = none then .ok ({ s with mutex := some i }.goto i point) else .error .blocked

/-- `pthread_mutex_unlock(&q->mutex)`. -/
def unlockMutex (s : QueueAccess) (i : ℕ) (point : QueuePoint) : Except Abort QueueAccess :=
  .ok ({ s with mutex := none }.goto i point)

/-- `pthread_mutex_lock(&q->new_msg_mutex)`. -/
def lockMsg (s : QueueAccess) (i : ℕ) (point : QueuePoint) : Except Abort QueueAccess :=
  if s.newMsgMutex = none then .ok ({ s with newMsgMutex := some i }.goto i point)
  else .error .blocked

/-- `pthread_mutex_unlock(&q->new_msg_mutex)`. -/
def unlockMsg (s : QueueAccess) (i : ℕ) (point : QueuePoint) : Except Abort QueueAccess :=
  .ok ({ s with newMsgMutex := none }.goto i point)

/-- The next step of a thread. -/
def run (s : QueueAccess) (i : ℕ) : Except Abort QueueAccess :=
  match s.threads i with
  | .outside => .error .blocked
  | .returning answer => .ok { s.goto i .outside with history := s.history ++ [.returns i answer] }
  | .enqueueMalloc _ => .error .blocked
  | .enqueueLock body n => s.lockMutex i (.enqueueTestFirst body n)
  | .enqueueLockMsg => s.lockMsg i .enqueueBroadcast
  | .enqueueBroadcast => .ok ({ s with newMsgCond := ∅ }.goto i .enqueueUnlockMsg)
  | .enqueueUnlockMsg => s.unlockMsg i .enqueueUnlock
  | .enqueueUnlock => s.unlockMutex i (.returning .done)
  | .dequeueLock => s.lockMutex i .dequeueLoadLast
  | .dequeueUnlock taken => s.unlockMutex i (.returning (.message taken))
  | .sizeLock => s.lockMutex i .sizeLoad
  | .sizeUnlock size => s.unlockMutex i (.returning (.count size))
  | .waitLock => s.lockMsg i .waitSleep
  | .waitSleep =>
    .ok ({ s with newMsgMutex := none, newMsgCond := insert i s.newMsgCond }.goto i .waitWake)
  | .waitWake => if i ∈ s.newMsgCond then .error .blocked else s.lockMsg i .waitUnlock
  | .waitUnlock => s.unlockMsg i (.returning (.count 0))
  | point => (s.data.access point).map fun r => { s with data := r.1 }.goto i r.2

/-- The thread calls a function. -/
def call (s : QueueAccess) (i : ℕ) (op : QueueOp) : Except Abort QueueAccess :=
  if s.threads i = .outside then
    .ok { s.goto i op.entry with history := s.history ++ [.begins i op] }
  else .error .blocked

/-- `malloc` returns an address to the thread, which fills in the node. -/
def malloc (s : QueueAccess) (i n : ℕ) : Except Abort QueueAccess :=
  match s.threads i with
  | .enqueueMalloc body =>
    if s.data.nodes.cells n = none then
      let node : QNode := { parent := none, length := body.length, body := body }
      .ok ({ s with data := { s.data with nodes := s.data.nodes.allocAt n node } }.goto i
        (.enqueueLock body n))
    else .error .blocked
  | _ => .error .blocked

/-- `pthread_cond_wait` is over for the thread without a broadcast. -/
def wake (s : QueueAccess) (i : ℕ) : Except Abort QueueAccess :=
  if s.threads i = .waitWake then .ok { s with newMsgCond := s.newMsgCond.erase i }
  else .error .blocked

/-- The next state. -/
def step (s : QueueAccess) : QueueAct → Except Abort QueueAccess
  | .call i op => s.call i op
  | .malloc i n => s.malloc i n
  | .run i => s.run i
  | .spurious i => s.wake i

/-- What `new_queue` leaves, with no thread in it. -/
def initial : QueueAccess :=
  { data := { nodes := .empty, firstNode := none, lastNode := none, size := 0 }
    mutex := none
    newMsgMutex := none
    newMsgCond := ∅
    threads := fun _ => .outside
    history := [] }

end QueueAccess

end AmqpBroker
