import AmqpBroker.Foundations.Ring
import Mathlib.Data.Finset.Insert
import Mathlib.Tactic.Ring

/-!
# The round-robin scheduler of a queue

The array of nodes indexed by thread id, with the three cursors and the counter. The
mutex makes every function below one atomic step, so it leaves no trace here; a
condition variable is the set of threads asleep on it, which a broadcast empties.
-/

namespace AmqpBroker

open Foundations

/-- `MAX_CONNECTIONS` of `config.h`. -/
def maxConnections : ℤ := 512

/-- Why a step of the broker does not return: it cannot go on yet, or it has run into
behaviour that C leaves undefined. -/
inductive Abort where
  /-- The thread is asleep, waits in `write`, or has nothing left to do. -/
  | blocked
  /-- An index outside `recvline`, `sendline`, `parsed` or the `name` of a queue. -/
  | bufferRange
  /-- `length + 1` beyond `INT_MAX`. -/
  | signedOverflow
  /-- A queue function called on a NULL queue. -/
  | nullQueue
  /-- A pointer to memory that is not allocated. -/
  | dangling
  /-- An index outside `subs`. -/
  | ringRange
  /-- A `write` to a client that has gone: `SIGPIPE` ends the process. -/
  | brokenPipe
  deriving DecidableEq, Repr

/-- `round_robin_node`; `roundCond` holds the threads asleep on `round_cond`. -/
structure RoundRobinNode where
  prev : ℤ
  next : ℤ
  threadId : ℤ
  roundCond : Finset ℤ

/-- `round_robin_scheduler`. -/
structure RoundRobinScheduler where
  count : ℤ
  first : ℤ
  last : ℤ
  current : ℤ
  subs : ℤ → RoundRobinNode

namespace RoundRobinScheduler

/-- Assign to the `next` of a node. -/
def setNext (rr : RoundRobinScheduler) (i value : ℤ) : RoundRobinScheduler :=
  { rr with subs := Function.update rr.subs i { rr.subs i with next := value } }

/-- Assign to the `prev` of a node. -/
def setPrev (rr : RoundRobinScheduler) (i value : ℤ) : RoundRobinScheduler :=
  { rr with subs := Function.update rr.subs i { rr.subs i with prev := value } }

/-- Assign to the set of sleepers of a node. -/
def setRoundCond (rr : RoundRobinScheduler) (i : ℤ) (asleep : Finset ℤ) : RoundRobinScheduler :=
  { rr with subs := Function.update rr.subs i { rr.subs i with roundCond := asleep } }

end RoundRobinScheduler

/-- An index into `subs`. -/
def subIndex (i : ℤ) : Except Abort ℤ :=
  if 0 ≤ i ∧ i < maxConnections then .ok i else .error .ringRange

/-- `init_round_robin_scheduler`; the nodes keep what the memory held. -/
def initRoundRobinScheduler (rr : RoundRobinScheduler) : RoundRobinScheduler :=
  { rr with count := 0, last := -1, first := -1, current := -1 }

/-- `add_subscriber`. -/
def addSubscriber (rr : RoundRobinScheduler) (threadId : ℤ) : Except Abort RoundRobinScheduler := do
  let node ← subIndex threadId
  let rr ←
    if rr.count = 0 then
      pure { rr with first := threadId, last := threadId, current := threadId }
    else do
      let last ← subIndex rr.last
      let first ← subIndex rr.first
      pure ((rr.setNext last threadId).setPrev first threadId)
  let linked : RoundRobinNode :=
    { prev := rr.last, next := rr.first, threadId := threadId, roundCond := ∅ }
  pure { rr with
    subs := Function.update rr.subs node linked
    last := threadId
    count := rr.count + 1 }

/-- `remove_subscriber`. -/
def removeSubscriber (rr : RoundRobinScheduler) (threadId : ℤ) :
    Except Abort RoundRobinScheduler := do
  let node ← subIndex threadId
  let prevId := (rr.subs node).prev
  let nextId := (rr.subs node).next
  let prev ← subIndex prevId
  let next ← subIndex nextId
  let rr := (rr.setNext prev nextId).setPrev next prevId
  let rr := if rr.current = threadId then { rr with current := nextId } else rr
  let rr := if rr.first = threadId then { rr with first := nextId } else rr
  let rr := if rr.last = threadId then { rr with last := prevId } else rr
  let rr := { rr with count := rr.count - 1 }
  pure (if rr.count = 0 then { rr with first := -1, last := -1 } else rr)

/-- `next_thread`: hand the turn on and wake the thread that gets it. -/
def nextThread (rr : RoundRobinScheduler) : Except Abort (ℤ × RoundRobinScheduler) := do
  let current ← subIndex rr.current
  let next ← subIndex (rr.subs current).next
  pure (next, { rr with current := next }.setRoundCond next ∅)

/-- The test of `wait_round`, read without any lock. -/
def isRound (rr : RoundRobinScheduler) (threadId : ℤ) : Bool := rr.current = threadId

/-- The sleep of `wait_round` on the thread's own condition variable. -/
def sleepRound (rr : RoundRobinScheduler) (threadId : ℤ) : Except Abort RoundRobinScheduler := do
  let node ← subIndex threadId
  pure (rr.setRoundCond node (insert threadId (rr.subs node).roundCond))

end AmqpBroker
