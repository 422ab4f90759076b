import AmqpBroker.Foundations.Heap
import AmqpBroker.Foundations.Program
import AmqpBroker.Model.RoundRobin

/-!
# Queues of messages

The heap shared by all connections and the functions of `queue.c` on it. Nodes are
linked from the oldest message to the newest by `parent`. Each function below is one
section under the queue's mutex, hence one atomic step; the two waits of `q_dequeue_rr`
are the separate tests and sleeps further down.
-/

namespace AmqpBroker

open Foundations

/-- `MAX_QUEUE_NAME` of `config.h`. -/
def maxQueueName : ℕ := 256

/-- `q_node`; `body` is the string up to its terminator. -/
structure QNode where
  parent : Option ℕ
  length : ℤ
  body : List UInt8

/-- `queue`; `newMsgCond` holds the threads asleep on `new_msg_cond`. The name is the string in
its array of `maxQueueName` bytes. -/
structure Queue where
  name : List UInt8
  size : ℤ
  rr : RoundRobinScheduler
  newMsgCond : Finset ℤ
  firstNode : Option ℕ
  lastNode : Option ℕ

/-- `trie_node`. -/
structure TrieNode where
  q : Option ℕ
  children : UInt8 → Option ℕ

/-- The memory shared by the connections: message nodes, queues, and the trie. -/
structure Store where
  nodes : Heap QNode
  queues : Heap Queue
  trie : Heap TrieNode

/-- Code that only touches the shared memory. -/
abbrev Shared := Program Store Abort

/-- The queue a pointer argument points to. -/
def derefQueue (q : Option ℕ) : Shared (ℕ × Queue) := fun store =>
  match q with
  | none => .error .nullQueue
  | some p =>
    match store.queues.cells p with
    | none => .error .dangling
    | some queue => .ok ((p, queue), store)

/-- The node a non-NULL pointer points to. -/
def derefNode (n : ℕ) : Shared QNode := fun store =>
  match store.nodes.cells n with
  | none => .error .dangling
  | some node => .ok (node, store)

/-- Assign to fields of a queue. -/
def modifyQueue (p : ℕ) (change : Queue → Queue) : Shared Unit :=
  Program.update fun store => { store with queues := store.queues.modify p change }

/-- Assign to fields of a node. -/
def modifyNode (n : ℕ) (change : QNode → QNode) : Shared Unit :=
  Program.update fun store => { store with nodes := store.nodes.modify n change }

/-- `malloc` and fill a node. -/
def newNode (node : QNode) : Shared ℕ := fun store =>
  .ok (store.nodes.next, { store with nodes := store.nodes.alloc node })

/-- Run a scheduler function on the `rr` of a queue. -/
def onRing {α : Type} (q : Option ℕ)
    (f : RoundRobinScheduler → Except Abort (α × RoundRobinScheduler)) :
    Shared α := do
  let (p, queue) ← derefQueue q
  match f queue.rr with
  | .error reason => Program.stop reason
  | .ok (a, rr) =>
    modifyQueue p fun queue => { queue with rr := rr }
    pure a

/-- What `malloc` left in the scheduler of a new queue. -/
def uninitializedScheduler : RoundRobinScheduler :=
  ⟨0, 0, 0, 0, fun _ => ⟨0, 0, 0, ∅⟩⟩

/-- `new_queue`; `strcpy` to `q->name` does not look at the size of the array. -/
def newQueue (name : List UInt8) : Shared ℕ := fun store =>
  if name.length + 1 ≤ maxQueueName then
    .ok (store.queues.next, { store with queues := store.queues.alloc {
      name := name
      size := 0
      rr := initRoundRobinScheduler uninitializedScheduler
      newMsgCond := ∅
      firstNode := none
      lastNode := none } })
  else .error .bufferRange

/-- `q_enqueue`, returning the address of the node it linked. -/
def qEnqueue (q : Option ℕ) (body : List UInt8) : Shared ℕ := do
  let n ← newNode { parent := none, length := body.length, body := body }
  let (p, queue) ← derefQueue q
  match queue.firstNode with
  | none => pure ()
  | some first => do
    let _ ← derefNode first
    modifyNode first fun node => { node with parent := some n }
  modifyQueue p fun queue => { queue with
    firstNode := some n
    lastNode := if queue.lastNode = none then some n else queue.lastNode
    size := queue.size + 1
    newMsgCond := ∅ }
  pure n

/-- `q_dequeue`: the unlinked node and the string copied from it, or `none` for NULL. -/
def qDequeue (q : Option ℕ) : Shared (Option (ℕ × List UInt8)) := do
  let (p, queue) ← derefQueue q
  match queue.lastNode with
  | none => pure none
  | some last => do
    let node ← derefNode last
    Program.update fun store => { store with nodes := store.nodes.free last }
    modifyQueue p fun queue => { queue with
      lastNode := node.parent
      firstNode := if queue.firstNode = some last then none else queue.firstNode
      size := queue.size - 1 }
    pure (some (last, node.body))

/-- The loop of `free_queue`; each round frees a node, so there are at most `steps` of them. -/
def freeNodes : ℕ → Option ℕ → Shared Unit
  | _, none => pure ()
  | 0, some _ => Program.stop .dangling
  | steps + 1, some n => do
    let old ← derefNode n
    Program.update fun store => { store with nodes := store.nodes.free n }
    freeNodes steps old.parent

/-- `free_queue`. -/
def freeQueue (q : Option ℕ) : Shared Unit := do
  let (p, queue) ← derefQueue q
  let steps ← Program.read fun store => store.nodes.next
  freeNodes steps queue.lastNode
  Program.update fun store => { store with queues := store.queues.free p }

/-- `q_size`. -/
def qSize (q : Option ℕ) : Shared ℤ := do
  let (_, queue) ← derefQueue q
  pure queue.size

/-- `q_add_subscriber`. -/
def qAddSubscriber (q : Option ℕ) (threadId : ℤ) : Shared Unit :=
  onRing q fun rr => (addSubscriber rr threadId).map fun rr => ((), rr)

/-- `remove_subscriber(&q->rr, thread_id)`. -/
def qRemoveSubscriber (q : Option ℕ) (threadId : ℤ) : Shared Unit :=
  onRing q fun rr => (removeSubscriber rr threadId).map fun rr => ((), rr)

/-- `next_thread(&q->rr)`. -/
def qNextThread (q : Option ℕ) : Shared ℤ := onRing q nextThread

/-- The test of `wait_round`. -/
def testRound (q : Option ℕ) (threadId : ℤ) : Shared Bool := do
  let (_, queue) ← derefQueue q
  pure (isRound queue.rr threadId)

/-- The thread falls asleep in `wait_round`. -/
def sleepOnRound (q : Option ℕ) (threadId : ℤ) : Shared Unit :=
  onRing q fun rr => (sleepRound rr threadId).map fun rr => ((), rr)

/-- The thread is still asleep in `wait_round`. -/
def asleepOnRound (q : Option ℕ) (threadId : ℤ) : Shared Bool := do
  let (_, queue) ← derefQueue q
  pure (decide (threadId ∈ (queue.rr.subs threadId).roundCond))

/-- The test of `wait_msg`, read without any lock. -/
def testMsg (q : Option ℕ) : Shared Bool := do
  let (_, queue) ← derefQueue q
  pure (queue.size ≠ 0)

/-- The thread falls asleep in `wait_msg`. -/
def sleepOnMsg (q : Option ℕ) (threadId : ℤ) : Shared Unit := do
  let (p, _) ← derefQueue q
  modifyQueue p fun queue => { queue with newMsgCond := insert threadId queue.newMsgCond }

/-- The thread is still asleep in `wait_msg`. -/
def asleepOnMsg (q : Option ℕ) (threadId : ℤ) : Shared Bool := do
  let (_, queue) ← derefQueue q
  pure (decide (threadId ∈ queue.newMsgCond))

end AmqpBroker
