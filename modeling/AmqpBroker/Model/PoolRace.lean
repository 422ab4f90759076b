import AmqpBroker.Foundations.Execution
import AmqpBroker.Model.QueuePool

/-!
# Callers of the pool

Any number of calls of `create_queue` and `get_queue` at once. A step of `_get_trie_node`
reads one child pointer or installs one child; `create_queue` holds the mutex of the pool,
which is the mutex of the root, while it walks the trie and the mutex of the node while it
looks at its queue, and `get_queue` holds nothing.
-/

namespace AmqpBroker

open Foundations

/-- The two functions that look a name up. -/
inductive PoolFunction where
  | createQueue
  | getQueue
  deriving DecidableEq, Repr

/-- Where a call is. -/
inductive PoolPoint where
  /-- `pthread_mutex_lock(&pool->mutex)`. -/
  | lockPool
  /-- `_get_trie_node(root, name)`, up to its test of `child`. -/
  | readChild (root : ℕ) (name : List UInt8)
  /-- `_get_trie_node` has read NULL and installs a child. -/
  | installChild (root : ℕ) (first : UInt8) (name : List UInt8)
  | unlockPool (node : ℕ)
  | lockNode (node : ℕ)
  /-- `if (node->q == NULL)`. -/
  | testQueue (node : ℕ)
  /-- `node->q = new_queue(name)`. -/
  | assignQueue (node : ℕ)
  | unlockNode (node : ℕ)
  /-- `return node->q`. -/
  | readQueue (node : ℕ)
  deriving DecidableEq, Repr

/-- A call under way. -/
structure PoolCaller where
  function : PoolFunction
  name : List UInt8
  point : PoolPoint
  deriving DecidableEq, Repr

/-- The starts and the returns of calls; the numbers tell the calls apart. -/
inductive PoolEvent where
  | started (n : ℕ) (function : PoolFunction) (name : List UInt8)
  | returned (n : ℕ) (function : PoolFunction) (name : List UInt8) (q : Option ℕ)
  deriving DecidableEq, Repr

/-- The memory, the mutex of every node with the call that holds it, the calls under way, the
number of the next call, and what has happened. -/
structure PoolRace where
  store : Store
  mutex : ℕ → Option ℕ
  callers : ℕ → Option PoolCaller
  next : ℕ
  history : List PoolEvent

/-- What can happen next. -/
inductive PoolRaceAct where
  /-- A thread calls the function. -/
  | call (function : PoolFunction) (name : List UInt8)
  /-- The call takes its next step. -/
  | step (n : ℕ)
  deriving DecidableEq, Repr

/-- The first step of a function. -/
def PoolFunction.entry (name : List UInt8) : PoolFunction → PoolPoint
  | .createQueue => .lockPool
  | .getQueue => .readChild poolRoot name

/-- The step after `_get_trie_node` has returned a node. -/
def PoolFunction.found (node : ℕ) : PoolFunction → PoolPoint
  | .createQueue => .unlockPool node
  | .getQueue => .readQueue node

namespace PoolRace

/-- Move a call to its next point. -/
def moveTo (s : PoolRace) (n : ℕ) (caller : PoolCaller) (point : PoolPoint) : PoolRace :=
  { s with callers := Function.update s.callers n (some { caller with point := point }) }

/-- The mutex of a node changes hands. -/
def setMutex (s : PoolRace) (node : ℕ) (holder : Option ℕ) : PoolRace :=
  { s with mutex := Function.update s.mutex node holder }

/-- The queue of the node at an address. -/
def queueAt (s : PoolRace) (node : ℕ) : Option ℕ := (trieNode s.store.trie node).q

/-- `node->q = new_queue(name)`. -/
def assignQueue (store : Store) (node : ℕ) (name : List UInt8) : Except Abort Store := do
  let (q, store) ← newQueue name store
  pure { store with trie := store.trie.modify node fun cell => { cell with q := some q } }

/-- One step of a call. -/
def callerStep (s : PoolRace) (n : ℕ) (caller : PoolCaller) : Except Abort PoolRace :=
  match caller.point with
  | .lockPool =>
    if s.mutex poolRoot = none then
      .ok ((s.setMutex poolRoot (some n)).moveTo n caller (.readChild poolRoot caller.name))
    else .error .blocked
  | .readChild root [] => .ok (s.moveTo n caller (caller.function.found root))
  | .readChild root (first :: name) =>
    match (trieNode s.store.trie root).children first with
    | some child => .ok (s.moveTo n caller (.readChild child name))
    | none => .ok (s.moveTo n caller (.installChild root first name))
  | .installChild root first name =>
    let installed := AmqpBroker.installChild s.store.trie root first
    .ok ({ s with store := { s.store with trie := installed.2 } }.moveTo n caller
      (.readChild installed.1 name))
  | .unlockPool node => .ok ((s.setMutex poolRoot none).moveTo n caller (.lockNode node))
  | .lockNode node =>
    if s.mutex node = none then
      .ok ((s.setMutex node (some n)).moveTo n caller (.testQueue node))
    else .error .blocked
  | .testQueue node =>
    if s.queueAt node = none then .ok (s.moveTo n caller (.assignQueue node))
    else .ok (s.moveTo n caller (.unlockNode node))
  | .assignQueue node => do
    let store ← assignQueue s.store node caller.name
    pure ({ s with store := store }.moveTo n caller (.unlockNode node))
  | .unlockNode node => .ok ((s.setMutex node none).moveTo n caller (.readQueue node))
  | .readQueue node =>
    .ok { s with
      callers := Function.update s.callers n none
      history := s.history ++ [.returned n caller.function caller.name (s.queueAt node)] }

/-- The next state. -/
def step (s : PoolRace) : PoolRaceAct → Except Abort PoolRace
  | .call function name =>
    .ok { s with
      callers := Function.update s.callers s.next (some ⟨function, name, function.entry name⟩)
      next := s.next + 1
      history := s.history ++ [.started s.next function name] }
  | .step n =>
    match s.callers n with
    | none => .error .blocked
    | some caller => s.callerStep n caller

/-- A pool from `init_queue_pool`, and nobody in it. -/
def initial : PoolRace where
  store := initQueuePool
  mutex := fun _ => none
  callers := fun _ => none
  next := 0
  history := []

end PoolRace

end AmqpBroker
