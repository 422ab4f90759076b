import AmqpBroker.Foundations.Execution
import AmqpBroker.Verification.QueueLaws
import Mathlib.Data.Set.Finite.Basic

/-!
# The pool as a finite map

Runs of calls on a pool, one after another and from the empty one, with the queues used
in between. What the pool answers is read off the calls made so far: a name stands for
the queue that its first `create_queue` returned.
-/

namespace AmqpBroker

open Foundations Program

/-- A call on the pool, or on a queue that it gave out. -/
inductive PoolCall where
  | createQueue (name : List UInt8)
  | getQueue (name : List UInt8)
  | qEnqueue (q : ℕ) (body : List UInt8)
  | qDequeue (q : ℕ)
  | qAddSubscriber (q : ℕ) (threadId : ℤ)
  | qRemoveSubscriber (q : ℕ) (threadId : ℤ)
  | qNextThread (q : ℕ)
  deriving DecidableEq, Repr

/-- Make the call; only the calls on the pool return a queue. -/
def PoolCall.run : PoolCall → Shared (Option ℕ)
  | .createQueue name => do
    let q ← AmqpBroker.createQueue name
    pure (some q)
  | .getQueue name => AmqpBroker.getQueue name
  | .qEnqueue q body => do
    let _ ← AmqpBroker.qEnqueue (some q) body
    pure none
  | .qDequeue q => do
    let _ ← AmqpBroker.qDequeue (some q)
    pure none
  | .qAddSubscriber q threadId => do
    AmqpBroker.qAddSubscriber (some q) threadId
    pure none
  | .qRemoveSubscriber q threadId => do
    AmqpBroker.qRemoveSubscriber (some q) threadId
    pure none
  | .qNextThread q => do
    let _ ← AmqpBroker.qNextThread (some q)
    pure none

/-- A memory and the calls made on it so far, each with the queue it returned. -/
structure PoolRun where
  store : Store
  calls : List (PoolCall × Option ℕ)

/-- A pool from `init_queue_pool`. -/
def PoolRun.initial : PoolRun := ⟨initQueuePool, []⟩

/-- Make the next call. -/
def PoolRun.step (r : PoolRun) (call : PoolCall) : Except Abort PoolRun :=
  match call.run r.store with
  | .ok (q, store) => .ok ⟨store, r.calls ++ [(call, q)]⟩
  | .error reason => .error reason

/-- The queue that the first `create_queue` of a name returned. -/
def firstCreated (name : List UInt8) (calls : List (PoolCall × Option ℕ)) : Option ℕ :=
  calls.findSome? fun entry => if entry.1 = .createQueue name then entry.2 else none

/-- What `get_queue` of a name answers. -/
def MapsTo (store : Store) (name : List UInt8) (q : Option ℕ) : Prop :=
  ∃ store', getQueue name store = .ok (q, store')

/-- The queues there were have kept their messages, subscribers and everything else. -/
structure Untouched (store store' : Store) : Prop where
  nodes : store'.nodes = store.nodes
  queues : ∀ p queue, store.queues.cells p = some queue → store'.queues.cells p = some queue

/-- What the pool is after these calls: a finite map from names to queues. -/
structure PoolRun.IsFiniteMap (r : PoolRun) (calls : List PoolCall) : Prop where
  /-- `get_queue` answers with the first queue of the name and changes no answer. -/
  get : ∀ name, ∃ store', AmqpBroker.getQueue name r.store =
      .ok (firstCreated name r.calls, store') ∧
    Untouched r.store store' ∧ ∀ name' q, MapsTo store' name' q ↔ MapsTo r.store name' q
  /-- `create_queue` of a name that fits `queue.name` returns the first queue of the name, or a
  new one for this name only. -/
  create : ∀ name, name.length + 1 ≤ maxQueueName →
    ∃ new store', AmqpBroker.createQueue name r.store = .ok (new, store') ∧
      Untouched r.store store' ∧
      (∀ first, firstCreated name r.calls = some first → new = first) ∧
      (firstCreated name r.calls = none → ∀ name', firstCreated name' r.calls ≠ some new) ∧
      ∀ name' q, MapsTo store' name' q ↔
        if name' = name then q = some new else MapsTo r.store name' q
  /-- A longer name never is in the pool, and `create_queue` of it writes past `queue.name`. -/
  overflow : ∀ name, maxQueueName < name.length + 1 →
    firstCreated name r.calls = none ∧ AmqpBroker.createQueue name r.store = .error .bufferRange
  injective : ∀ name name' q, firstCreated name r.calls = some q →
    firstCreated name' r.calls = some q → name = name'
  recorded : r.calls.map Prod.fst = calls
  created : ∀ name, firstCreated name r.calls = none ↔ PoolCall.createQueue name ∉ calls
  finite : {name | firstCreated name r.calls ≠ none}.Finite

/-- The pool holds the first queue of every name, and nothing else. -/
structure PoolRun.Ok (r : PoolRun) : Prop where
  pool : PoolOk r.store
  lists : ListsOk r.store
  first : ∀ name, r.store.queueOf name = firstCreated name r.calls
  fits : ∀ name, r.store.queueOf name ≠ none → name.length + 1 ≤ maxQueueName
  made : ∀ name q, (PoolCall.createQueue name, q) ∈ r.calls → q ≠ none

variable {store store' : Store} {r r' : PoolRun} {name name' : List UInt8} {q : Option ℕ}
  {call : PoolCall} {calls : List PoolCall} {made : List (PoolCall × Option ℕ)}

/-- The queue of a name is the one that was created first. -/
theorem firstCreated_snoc (made : List (PoolCall × Option ℕ)) (call : PoolCall) (q : Option ℕ)
    (name : List UInt8) :
    firstCreated name (made ++ [(call, q)]) =
      (firstCreated name made).or (if call = .createQueue name then q else none) := by
  simp only [firstCreated, List.findSome?_append, List.findSome?_cons, List.findSome?_nil]
  split
  · rename_i heq
    rw [heq]
  · rename_i heq
    rw [heq]

/-- Only `create_queue` makes a first queue. -/
theorem firstCreated_snoc_of_ne (h : ∀ name, call ≠ .createQueue name) (q : Option ℕ)
    (name : List UInt8) : firstCreated name (made ++ [(call, q)]) = firstCreated name made := by
  rw [firstCreated_snoc, if_neg (h name), Option.or_none]

/-- A lookup leaves the queues alone. -/
theorem LookedUp.untouched (h : LookedUp store store') : Untouched store store' :=
  ⟨h.nodes, fun p queue hcell => by rw [h.queues, hcell]⟩

/-- A new queue leaves the other queues alone. -/
theorem Inserted.untouched {new : ℕ} (h : Inserted store store' name new) :
    Untouched store store' :=
  ⟨h.nodes, fun p queue hcell => by rw [h.queues, Heap.alloc_cells_of_live _ hcell]⟩

/-- What `get_queue` answers is what the pool holds. -/
theorem mapsTo_iff (hpool : PoolOk store) : MapsTo store name q ↔ q = store.queueOf name := by
  constructor
  · intro h
    obtain ⟨store', hget⟩ := h
    exact (getQueue_eq_ok hpool hget).1
  · intro h
    obtain ⟨trie', hget, -⟩ := getQueue_spec hpool name
    rw [h]
    exact ⟨_, hget⟩

/-- A scheduler function leaves the pool and the lists alone. -/
theorem onRing_sameLists {α : Type}
    {f : RoundRobinScheduler → Except Abort (α × RoundRobinScheduler)} {a : α}
    (h : onRing q f store = .ok (a, store')) : SameLists store store' := by
  obtain ⟨p, queue, rr, -, -, -, hstore⟩ := onRing_eq_ok h
  rw [hstore]
  exact sameLists_withRing store p rr

namespace PoolRun

/-- One more call whose result is a queue if it is a `create_queue`. -/
theorem Ok.made_snoc (h : r.Ok) (hcall : ∀ name, call = .createQueue name → q ≠ none) :
    ∀ name q', (PoolCall.createQueue name, q') ∈ r.calls ++ [(call, q)] → q' ≠ none := by
  intro name q' hmem
  rcases List.mem_append.mp hmem with hold | hnew
  · exact h.made name q' hold
  · cases List.mem_singleton.mp hnew
    exact hcall name rfl

/-- A new pool holds no name. -/
theorem queueOf_initial (name : List UInt8) : initial.store.queueOf name = none := by
  cases hq : initial.store.queueOf name with
  | none => rfl
  | some p =>
    obtain ⟨queue, hcell, -⟩ := poolOk_initQueuePool.named name p hq
    cases hcell

/-- The fresh pool is in order. -/
theorem ok_initial : initial.Ok where
  pool := poolOk_initQueuePool
  lists := listsOk_initQueuePool
  first name := queueOf_initial name
  fits name hq := absurd (queueOf_initial name) hq
  made name q hmem := by cases hmem

/-- A call that is no `create_queue` and keeps the answers of the pool. -/
theorem Ok.keep (h : r.Ok) (hcall : ∀ name, call ≠ .createQueue name) (hpool : PoolOk store)
    (hlists : ListsOk store) (hqueueOf : ∀ name, store.queueOf name = r.store.queueOf name)
    (q : Option ℕ) : Ok ⟨store, r.calls ++ [(call, q)]⟩ where
  pool := hpool
  lists := hlists
  first name := by
    rw [firstCreated_snoc_of_ne hcall, ← h.first]
    exact hqueueOf name
  fits name hq := h.fits name (hqueueOf name ▸ hq)
  made := h.made_snoc fun name heq => absurd heq (hcall name)

/-- A call that changes the lists of messages only. -/
theorem Ok.keep_rings (h : r.Ok) (hcall : ∀ name, call ≠ .createQueue name)
    (hrings : SameRings r.store store) (hlists : ListsOk store) (q : Option ℕ) :
    Ok ⟨store, r.calls ++ [(call, q)]⟩ :=
  h.keep hcall (hrings.poolOk h.pool) hlists (queueOf_congr hrings.trie) q

/-- A call that changes a scheduler only. -/
theorem Ok.keep_lists (h : r.Ok) (hcall : ∀ name, call ≠ .createQueue name)
    (hlists : SameLists r.store store) (q : Option ℕ) : Ok ⟨store, r.calls ++ [(call, q)]⟩ :=
  h.keep hcall (hlists.poolOk h.pool) (hlists.listsOk h.lists) (queueOf_congr hlists.trie) q

/-- `create_queue` makes the first queue of its name, or finds it. -/
theorem Ok.create (h : r.Ok) {new : ℕ} (hcreate : createQueue name r.store = .ok (new, store)) :
    Ok ⟨store, r.calls ++ [(.createQueue name, some new)]⟩ := by
  have hfirst : ∀ name', store.queueOf name' =
      (r.store.queueOf name').or (if name = name' then some new else none) := by
    intro name'
    rcases createQueue_eq_ok h.pool hcreate with ⟨hold, hlooked⟩ | hinserted
    · rw [hlooked.queueOf]
      by_cases hname : name = name'
      · rw [← hname, hold]
        rfl
      · rw [if_neg hname, Option.or_none]
    · rw [hinserted.queueOf]
      by_cases hname : name = name'
      · rw [← hname, hinserted.new, if_pos rfl]
        simp
      · rw [if_neg (Ne.symm hname), if_neg hname, Option.or_none]
  have hok : PoolOk store ∧ ListsOk store := by
    rcases createQueue_eq_ok h.pool hcreate with ⟨-, hlooked⟩ | hinserted
    · exact ⟨hlooked.pool, hlooked.listsOk h.lists⟩
    · exact ⟨hinserted.pool, hinserted.listsOk h.lists⟩
  refine ⟨hok.1, hok.2, fun name' => ?_, fun name' hq => ?_,
    h.made_snoc fun _ _ => Option.some_ne_none new⟩
  · rw [firstCreated_snoc, ← h.first]
    refine (hfirst name').trans ?_
    simp only [PoolCall.createQueue.injEq]
  · change store.queueOf name' ≠ none at hq
    rcases createQueue_eq_ok h.pool hcreate with ⟨-, hlooked⟩ | hinserted
    · rw [hlooked.queueOf] at hq
      exact h.fits name' hq
    · rw [hinserted.queueOf] at hq
      split at hq
      · rename_i hname
        rw [hname]
        exact hinserted.fits
      · exact h.fits name' hq

/-- Every call keeps the invariant. -/
theorem Ok.step (h : r.Ok) (hstep : r.step call = .ok r') : r'.Ok := by
  unfold PoolRun.step at hstep
  split at hstep
  · rename_i q store hrun
    cases hstep
    cases call with
    | createQueue name =>
      obtain ⟨new, store₁, hcreate, hrun⟩ := bind_eq_ok.mp hrun
      cases hrun
      exact h.create hcreate
    | getQueue name =>
      obtain ⟨-, hlooked⟩ := getQueue_eq_ok h.pool hrun
      exact h.keep (by simp) hlooked.pool (hlooked.listsOk h.lists) hlooked.queueOf q
    | qEnqueue p body =>
      obtain ⟨node, store₁, henqueue, hrun⟩ := bind_eq_ok.mp hrun
      cases hrun
      obtain ⟨p', -, -, henqueued⟩ := qEnqueue_eq_ok h.lists henqueue
      exact h.keep_rings (by simp) henqueued.rings henqueued.lists none
    | qDequeue p =>
      obtain ⟨taken, store₁, hdequeue, hrun⟩ := bind_eq_ok.mp hrun
      cases hrun
      obtain ⟨p', -, -, hdequeued⟩ := qDequeue_eq_ok h.lists hdequeue
      exact h.keep_rings (by simp) hdequeued.rings hdequeued.lists none
    | qAddSubscriber p threadId =>
      obtain ⟨_, store₁, hadd, hrun⟩ := bind_eq_ok.mp hrun
      cases hrun
      exact h.keep_lists (by simp) (onRing_sameLists hadd) none
    | qRemoveSubscriber p threadId =>
      obtain ⟨_, store₁, hremove, hrun⟩ := bind_eq_ok.mp hrun
      cases hrun
      exact h.keep_lists (by simp) (onRing_sameLists hremove) none
    | qNextThread p =>
      obtain ⟨_, store₁, hnext, hrun⟩ := bind_eq_ok.mp hrun
      cases hrun
      exact h.keep_lists (by simp) (onRing_sameLists hnext) none
  · cases hstep

/-- The calls of a run are remembered in their order. -/
theorem calls_of_exec (hrun : exec PoolRun.step r calls = .ok r') :
    r'.calls.map Prod.fst = r.calls.map Prod.fst ++ calls := by
  induction calls generalizing r with
  | nil =>
    cases hrun
    rw [List.append_nil]
  | cons call rest ih =>
    obtain ⟨r₁, hstep, hrest⟩ := exec_cons_eq_ok.mp hrun
    rw [ih hrest]
    unfold PoolRun.step at hstep
    split at hstep
    · cases hstep
      simp
    · cases hstep

/-- A run of calls keeps the pool in order. -/
theorem ok_of_exec (hrun : exec PoolRun.step initial calls = .ok r) : r.Ok :=
  (reaches_of_exec hrun).invariant ok_initial fun _ _ _ h _ hstep => h.step hstep

/-- A name has a first queue when `create_queue` was called for it. -/
theorem Ok.firstCreated_eq_none_iff (h : r.Ok) (name : List UInt8) :
    firstCreated name r.calls = none ↔ PoolCall.createQueue name ∉ r.calls.map Prod.fst := by
  rw [firstCreated, List.findSome?_eq_none_iff]
  constructor
  · intro hnone hmem
    obtain ⟨entry, hentry, heq⟩ := List.mem_map.mp hmem
    have hq := hnone entry hentry
    rw [if_pos heq] at hq
    exact h.made name entry.2 (heq ▸ hentry) hq
  · intro hnot entry hentry
    apply if_neg
    intro heq
    exact hnot (heq ▸ List.mem_map_of_mem hentry)

/-- The queue pool is a finite map on names. After any calls from `init_queue_pool`,
`get_queue` of whatever name answers with the queue of the first `create_queue` of the name,
or NULL when there was none, and it changes no answer. `create_queue` of a name that fits
`queue.name` returns that queue again, or a new one that becomes the answer for its name
only; a longer name has no place in a queue. Neither call touches the messages or the
subscribers of a queue there was, and different names have different queues. -/
theorem queuePool_isFiniteMap (hrun : exec PoolRun.step initial calls = .ok r) :
    r.IsFiniteMap calls := by
  have hok := ok_of_exec hrun
  have hcalls : r.calls.map Prod.fst = calls := calls_of_exec hrun
  have hnone : ∀ name, firstCreated name r.calls = none ↔ PoolCall.createQueue name ∉ calls := by
    intro name
    rw [hok.firstCreated_eq_none_iff, hcalls]
  refine ⟨fun name => ?_, fun name hfits => ?_, fun name hlong => ?_,
    fun name name' q hq hq' => ?_, hcalls, hnone, ?_⟩
  · obtain ⟨trie', hget, hgrown⟩ := getQueue_spec hok.pool name
    have hlooked := (getQueue_eq_ok hok.pool hget).2
    rw [hok.first] at hget
    refine ⟨_, hget, hlooked.untouched, fun name' q => ?_⟩
    rw [mapsTo_iff hlooked.pool, mapsTo_iff hok.pool, hlooked.queueOf]
  · obtain ⟨new, store', hcreate⟩ := createQueue_returns hok.pool hfits
    refine ⟨new, store', hcreate, ?_⟩
    simp only [← hok.first, mapsTo_iff hok.pool]
    rcases createQueue_eq_ok hok.pool hcreate with ⟨hold, hlooked⟩ | hinserted
    · refine ⟨hlooked.untouched, fun first hfirst => ?_, fun hnew => ?_, fun name' q => ?_⟩
      · exact Option.some.inj (hold.symm.trans hfirst)
      · rw [hold] at hnew
        cases hnew
      · rw [mapsTo_iff hlooked.pool, hlooked.queueOf]
        split
        · rename_i hname
          rw [hname, hold]
        · rfl
    · refine ⟨hinserted.untouched, fun first hfirst => ?_, fun _ name' hname' => ?_,
        fun name' q => ?_⟩
      · rw [hinserted.new] at hfirst
        cases hfirst
      · obtain ⟨queue, hcell, -⟩ := hok.pool.named name' new hname'
        have hlt := Heap.lt_next_of_cells hcell
        rw [hinserted.fresh] at hlt
        exact lt_irrefl _ hlt
      · rw [mapsTo_iff hinserted.pool, hinserted.queueOf]
        split
        · rfl
        · rfl
  · have hq : r.store.queueOf name = none := by
      by_contra hq
      have hfits := hok.fits name hq
      omega
    rw [← hok.first]
    exact ⟨hq, createQueue_of_long hok.pool hq (by omega)⟩
  · rw [← hok.first] at hq hq'
    exact hok.pool.queueOf_injective hq hq'
  · have hfinite : {name | PoolCall.createQueue name ∈ calls}.Finite := by
      apply Set.Finite.preimage _ (List.finite_toSet calls)
      intro name _ name' _ heq
      exact PoolCall.createQueue.inj heq
    apply hfinite.subset
    intro name hname
    by_contra hmem
    exact hname ((hnone name).mpr hmem)

/-- The empty name, a name above 127 and one it is a prefix of, with a message in between. -/
def prefixCalls : List PoolCall :=
  [.createQueue [], .getQueue [200], .createQueue [200, 201], .qEnqueue 0 [33], .createQueue []]

/-- The map after calls with the empty name and with a name whose prefix is only looked up. -/
theorem queuePool_isFiniteMap_prefixCalls :
    ∃ r, exec PoolRun.step initial prefixCalls = .ok r ∧
      r.calls.map Prod.snd = [some 0, none, some 1, none, some 0] ∧ r.IsFiniteMap prefixCalls := by
  have hobserved : (exec PoolRun.step initial prefixCalls).toOption.map
      (fun r => r.calls.map Prod.snd) = some [some 0, none, some 1, none, some 0] := by
    decide +kernel
  obtain ⟨r, hrun, hview⟩ := exec_observed hobserved
  exact ⟨r, hrun, hview, queuePool_isFiniteMap hrun⟩

/-- A name of 256 bytes, one more than `queue.name` has room for with its terminator. -/
def longName : List UInt8 := List.replicate 256 97

/-- `create_queue` of it writes past `queue.name`: there is no queue that the call returns. -/
theorem longName_overflows :
    exec PoolRun.step initial [.createQueue longName] = .error .bufferRange := by
  have hlong : ¬ longName.length + 1 ≤ maxQueueName := by
    rw [longName, List.length_replicate, maxQueueName]
    omega
  have hcreate := createQueue_of_long poolOk_initQueuePool (queueOf_initial longName) hlong
  have hcall : (PoolCall.createQueue longName).run initial.store = .error .bufferRange :=
    bind_of_error hcreate _
  have hstep : PoolRun.step initial (.createQueue longName) = .error .bufferRange := by
    rw [PoolRun.step, hcall]
  rw [exec, hstep]

end PoolRun

end AmqpBroker
