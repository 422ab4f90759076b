import AmqpBroker.Foundations.AtomicObject
import AmqpBroker.Foundations.Rota
import AmqpBroker.Model.RoundRobin
import Mathlib.Data.Finset.Erase

/-!
# The scheduler, one memory access at a time

The functions of `round_robin.c` cut wherever another thread can run, as those of `queue.c`
are. Every thread calls them with its own thread id: it adds itself, and calls the others
only while it is in the ring, as the handlers do.
-/

namespace AmqpBroker

open Foundations

/-- The functions that a thread calls, with its thread id. -/
inductive RingOp where
  | addSubscriber (threadId : ℤ)
  | removeSubscriber (threadId : ℤ)
  | nextThread
  | waitRound (threadId : ℤ)
  deriving DecidableEq, Repr

/-- What the caller comes back with: nothing, or the thread that it found to have the turn. -/
inductive RingAnswer where
  | done
  | turn (current : Option ℤ)
  deriving DecidableEq, Repr

/-- What the functions are for, on the rota of the subscribers. -/
def serveRing : RingOp → Rota ℤ → RingAnswer × Rota ℤ
  | .addSubscriber t, rota => (.done, if h : t ∉ rota.members then rota.join t h else rota)
  | .removeSubscriber t, rota => (.done, rota.leave t)
  | .nextThread, rota => (.turn rota.pass.holder, rota.pass)
  | .waitRound _, rota => (.turn rota.holder, rota)

/-- The access that a thread makes next, with its thread id and its locals. -/
inductive RingPoint where
  /-- Between two calls, in the ring or not. -/
  | between (member : Bool)
  | returning (answer : RingAnswer) (member : Bool)
  | addLock (t : ℤ)
  /-- `if (rr->count == 0)` -/
  | addTestCount (t : ℤ)
  | addSetFirst (t : ℤ)
  | addSetLast (t : ℤ)
  | addSetCurrent (t : ℤ)
  /-- `last = &rr->subs[rr->last]`, `first = &rr->subs[rr->first]` -/
  | addLoadLast (t : ℤ)
  | addLoadFirst (t last : ℤ)
  /-- `last->next = thread_id`, `first->prev = thread_id` -/
  | addLinkNext (t last first : ℤ)
  | addLinkPrev (t first : ℤ)
  /-- `node->prev = rr->last` -/
  | addLoadPrev (t : ℤ)
  | addStorePrev (t prev : ℤ)
  /-- `node->next = rr->first` -/
  | addLoadNext (t : ℤ)
  | addStoreNext (t next : ℤ)
  | addStoreId (t : ℤ)
  | addInitMutex (t : ℤ)
  | addInitCond (t : ℤ)
  | addStoreLast (t : ℤ)
  /-- `(rr->count)++` -/
  | addLoadCount (t : ℤ)
  | addStoreCount (t count : ℤ)
  | addUnlock
  | removeLock (t : ℤ)
  | removeLoadPrev (t : ℤ)
  | removeLoadNext (t prev : ℤ)
  /-- `prev->next = next_id`, `next->prev = prev_id` -/
  | removeLinkNext (t prev next : ℤ)
  | removeLinkPrev (t prev next : ℤ)
  /-- `if (rr->current == thread_id)` -/
  | removeTestCurrent (t prev next : ℤ)
  | removeStoreCurrent (t prev next : ℤ)
  | removeTestFirst (t prev next : ℤ)
  | removeStoreFirst (t prev next : ℤ)
  | removeTestLast (t prev : ℤ)
  | removeStoreLast (prev : ℤ)
  /-- `(rr->count)--` -/
  | removeLoadCount
  | removeStoreCount (count : ℤ)
  /-- `if (rr->count == 0)`, then `rr->first = rr->last = -1` -/
  | removeTestCount
  | removeClearLast
  | removeClearFirst
  | removeUnlock
  | nextLock
  | nextLoadCurrent
  | nextLoadNext (current : ℤ)
  | nextStoreCurrent (next : ℤ)
  | nextLockRound (next : ℤ)
  | nextBroadcast (next : ℤ)
  | nextUnlockRound (next : ℤ)
  | nextUnlock (next : ℤ)
  /-- `if (rr->current != thread_id)`, with no lock. -/
  | waitTest (t : ℤ)
  | waitLock (t current : ℤ)
  /-- `pthread_cond_wait` gives the mutex back and sleeps. -/
  | waitSleep (t current : ℤ)
  /-- `pthread_cond_wait` returns once it was woken and has the mutex again. -/
  | waitWake (t current : ℤ)
  | waitUnlock (t current : ℤ)
  deriving DecidableEq, Repr

/-- A `round_robin_node` without its mutex and its condition variable. -/
structure RingNode where
  prev : ℤ
  next : ℤ
  threadId : ℤ

/-- The fields of the scheduler that `mutex` is there for. -/
structure RingData where
  count : ℤ
  first : ℤ
  last : ℤ
  current : ℤ
  subs : ℤ → RingNode

/-- The scheduler with the holders of its mutexes, the threads asleep, where each thread is,
and what has been called and returned so far. -/
structure RingAccess where
  data : RingData
  mutex : Option ℤ
  roundMutex : ℤ → Option ℤ
  roundCond : ℤ → Finset ℤ
  threads : ℤ → RingPoint
  history : List (CallEvent ℤ RingOp RingAnswer)

/-- What can happen next. -/
inductive RingAct where
  /-- The thread calls a function. -/
  | call (t : ℤ) (op : RingOp)
  /-- The thread takes its next step. -/
  | run (t : ℤ)
  /-- `pthread_cond_wait` is over for the thread without a broadcast. -/
  | spurious (t : ℤ)
  deriving DecidableEq, Repr

namespace RingData

/-- Assign to fields of a node. -/
def modify (d : RingData) (i : ℤ) (change : RingNode → RingNode) : Except Abort RingData := do
  let i ← subIndex i
  pure { d with subs := Function.update d.subs i (change (d.subs i)) }

/-- One access to the fields of the scheduler. -/
def access (d : RingData) : RingPoint → Except Abort (RingData × RingPoint)
  | .addTestCount t => .ok (d, if d.count = 0 then .addSetFirst t else .addLoadLast t)
  | .addSetFirst t => .ok ({ d with first := t }, .addSetLast t)
  | .addSetLast t => .ok ({ d with last := t }, .addSetCurrent t)
  | .addSetCurrent t => .ok ({ d with current := t }, .addLoadPrev t)
  | .addLoadLast t => .ok (d, .addLoadFirst t d.last)
  | .addLoadFirst t last => .ok (d, .addLinkNext t last d.first)
  | .addLinkNext t last first =>
    (d.modify last fun node => { node with next := t }).map (·, .addLinkPrev t first)
  | .addLinkPrev t first =>
    (d.modify first fun node => { node with prev := t }).map (·, .addLoadPrev t)
  | .addLoadPrev t => .ok (d, .addStorePrev t d.last)
  | .addStorePrev t prev =>
    (d.modify t fun node => { node with prev := prev }).map (·, .addLoadNext t)
  | .addLoadNext t => .ok (d, .addStoreNext t d.first)
  | .addStoreNext t next =>
    (d.modify t fun node => { node with next := next }).map (·, .addStoreId t)
  | .addStoreId t => (d.modify t fun node => { node with threadId := t }).map (·, .addInitMutex t)
  | .addInitMutex t => .ok (d, .addInitCond t)
  | .addInitCond t => .ok (d, .addStoreLast t)
  | .addStoreLast t => .ok ({ d with last := t }, .addLoadCount t)
  | .addLoadCount t => .ok (d, .addStoreCount t d.count)
  | .addStoreCount _ count => .ok ({ d with count := count + 1 }, .addUnlock)
  | .removeLoadPrev t => do
    let node ← subIndex t
    pure (d, .removeLoadNext t (d.subs node).prev)
  | .removeLoadNext t prev => do
    let node ← subIndex t
    pure (d, .removeLinkNext t prev (d.subs node).next)
  | .removeLinkNext t prev next =>
    (d.modify prev fun node => { node with next := next }).map (·, .removeLinkPrev t prev next)
  | .removeLinkPrev t prev next =>
    (d.modify next fun node => { node with prev := prev }).map (·, .removeTestCurrent t prev next)
  | .removeTestCurrent t prev next =>
    .ok (d, if d.current = t then .removeStoreCurrent t prev next else .removeTestFirst t prev next)
  | .removeStoreCurrent t prev next => .ok ({ d with current := next }, .removeTestFirst t prev next)
  | .removeTestFirst t prev next =>
    .ok (d, if d.first = t then .removeStoreFirst t prev next else .removeTestLast t prev)
  | .removeStoreFirst t prev next => .ok ({ d with first := next }, .removeTestLast t prev)
  | .removeTestLast t prev => .ok (d, if d.last = t then .removeStoreLast prev else .removeLoadCount)
  | .removeStoreLast prev => .ok ({ d with last := prev }, .removeLoadCount)
  | .removeLoadCount => .ok (d, .removeStoreCount d.count)
  | .removeStoreCount count => .ok ({ d with count := count - 1 }, .removeTestCount)
  | .removeTestCount => .ok (d, if d.count = 0 then .removeClearLast else .removeUnlock)
  | .removeClearLast => .ok ({ d with last := -1 }, .removeClearFirst)
  | .removeClearFirst => .ok ({ d with first := -1 }, .removeUnlock)
  | .nextLoadCurrent => .ok (d, .nextLoadNext d.current)
  | .nextLoadNext current => do
    let current ← subIndex current
    pure (d, .nextStoreCurrent (d.subs current).next)
  | .nextStoreCurrent next => .ok ({ d with current := next }, .nextLockRound next)
  | .waitTest t =>
    .ok (d, if d.current ≠ t then .waitLock t d.current
      else .returning (.turn (some d.current)) true)
  | _ => .error .blocked

end RingData

/-- Where a function starts. -/
def RingOp.entry : RingOp → RingPoint
  | .addSubscriber t => .addLock t
  | .removeSubscriber t => .removeLock t
  | .nextThread => .nextLock
  | .waitRound t => .waitTest t

/-- The thread may make the call: with its own id, and not in the ring to be added to it. -/
def RingOp.Allowed (t : ℤ) (member : Bool) : RingOp → Prop
  | .addSubscriber t' => t' = t ∧ member = false ∧ 0 ≤ t ∧ t < maxConnections
  | .removeSubscriber t' => t' = t ∧ member = true
  | .nextThread => member = true
  | .waitRound t' => t' = t ∧ member = true

instance (t : ℤ) (member : Bool) : DecidablePred (RingOp.Allowed t member)
  | .addSubscriber _ => inferInstanceAs (Decidable (_ ∧ _))
  | .removeSubscriber _ => inferInstanceAs (Decidable (_ ∧ _))
  | .nextThread => inferInstanceAs (Decidable (_ = _))
  | .waitRound _ => inferInstanceAs (Decidable (_ ∧ _))

namespace RingAccess

/-- The thread moves on. -/
def goto (s : RingAccess) (t : ℤ) (point : RingPoint) : RingAccess :=
  { s with threads := Function.update s.threads t point }

/-- `pthread_mutex_lock(&rr->mutex)`. -/
def lockMutex (s : RingAccess) (t : ℤ) (point : RingPoint) : Except Abort RingAccess :=
  if s.mutex = none then .ok ({ s with mutex := some t }.goto t point) else .error .blocked

/-- `pthread_mutex_unlock(&rr->mutex)`. -/
def unlockMutex (s : RingAccess) (t : ℤ) (point : RingPoint) : Except Abort RingAccess :=
  .ok ({ s with mutex := none }.goto t point)

/-- `pthread_mutex_lock(&node->round_mutex)`. -/
def lockRound (s : RingAccess) (t i : ℤ) (point : RingPoint) : Except Abort RingAccess := do
  let i ← subIndex i
  if s.roundMutex i = none then
    pure ({ s with roundMutex := Function.update s.roundMutex i (some t) }.goto t point)
  else .error .blocked

/-- `pthread_mutex_unlock(&node->round_mutex)`. -/
def unlockRound (s : RingAccess) (t i : ℤ) (point : RingPoint) : Except Abort RingAccess := do
  let i ← subIndex i
  pure ({ s with roundMutex := Function.update s.roundMutex i none }.goto t point)

/-- The next step of a thread. -/
def run (s : RingAccess) (t : ℤ) : Except Abort RingAccess :=
  match s.threads t with
  | .between _ => .error .blocked
  | .returning answer member =>
    .ok { s.goto t (.between member) with history := s.history ++ [.returns t answer] }
  | .addLock i => s.lockMutex t (.addTestCount i)
  | .addInitMutex i => do
    let node ← subIndex i
    pure ({ s with roundMutex := Function.update s.roundMutex node none }.goto t (.addInitCond i))
  | .addInitCond i => do
    let node ← subIndex i
    pure ({ s with roundCond := Function.update s.roundCond node ∅ }.goto t (.addStoreLast i))
  | .addUnlock => s.unlockMutex t (.returning .done true)
  | .removeLock i => s.lockMutex t (.removeLoadPrev i)
  | .removeUnlock => s.unlockMutex t (.returning .done false)
  | .nextLock => s.lockMutex t .nextLoadCurrent
  | .nextLockRound next => s.lockRound t next (.nextBroadcast next)
  | .nextBroadcast next => do
    let node ← subIndex next
    pure ({ s with roundCond := Function.update s.roundCond node ∅ }.goto t (.nextUnlockRound next))
  | .nextUnlockRound next => s.unlockRound t next (.nextUnlock next)
  | .nextUnlock next => s.unlockMutex t (.returning (.turn (some next)) true)
  | .waitLock i current => s.lockRound t i (.waitSleep i current)
  | .waitSleep i current => do
    let node ← subIndex i
    pure ({ s with
      roundMutex := Function.update s.roundMutex node none
      roundCond := Function.update s.roundCond node (insert t (s.roundCond node)) }.goto t
        (.waitWake i current))
  | .waitWake i current => do
    let node ← subIndex i
    if t ∈ s.roundCond node then .error .blocked else s.lockRound t node (.waitUnlock i current)
  | .waitUnlock i current => s.unlockRound t i (.returning (.turn (some current)) true)
  | point => (s.data.access point).map fun r => { s with data := r.1 }.goto t r.2

/-- The thread calls a function. -/
def call (s : RingAccess) (t : ℤ) (op : RingOp) : Except Abort RingAccess :=
  match s.threads t with
  | .between member =>
    if op.Allowed t member then
      .ok { s.goto t (op.entry) with history := s.history ++ [.begins t op] }
    else .error .blocked
  | _ => .error .blocked

/-- `pthread_cond_wait` is over for the thread without a broadcast. -/
def wake (s : RingAccess) (t : ℤ) : Except Abort RingAccess :=
  match s.threads t with
  | .waitWake i _ =>
    .ok { s with roundCond := Function.update s.roundCond i ((s.roundCond i).erase t) }
  | _ => .error .blocked

/-- The next state. -/
def step (s : RingAccess) : RingAct → Except Abort RingAccess
  | .call t op => s.call t op
  | .run t => s.run t
  | .spurious t => s.wake t

/-- What `init_round_robin_scheduler` leaves, with no thread in it. -/
def initial : RingAccess :=
  { data := { count := 0, first := -1, last := -1, current := -1, subs := fun _ => ⟨0, 0, 0⟩ }
    mutex := none
    roundMutex := fun _ => none
    roundCond := fun _ => ∅
    threads := fun _ => .between false
    history := [] }

end RingAccess

end AmqpBroker
