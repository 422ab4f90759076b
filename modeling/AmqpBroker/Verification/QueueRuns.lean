import AmqpBroker.Foundations.Execution
import AmqpBroker.Foundations.Fifo
import AmqpBroker.Verification.QueueLaws

/-!
# A queue as a sequence

Runs of calls on one queue from `new_queue`, in a memory that holds anything else. The
two ends, the links and the counter stay in step over every run, and what the queue hands
out and still holds are those of a first-in-first-out sequence of strings.
-/

namespace AmqpBroker

open Foundations Program

/-- A call of `q_enqueue` or `q_dequeue`. -/
abbrev QueueCall := Fifo.Call (List UInt8)

/-- Make the call on the queue at `p`, returning the string that `q_dequeue` copied. -/
def runQueueCall (p : ℕ) : QueueCall → Shared (Option (List UInt8))
  | .put body => do
    let _ ← qEnqueue (some p) body
    pure none
  | .take => do
    let taken ← qDequeue (some p)
    pure (taken.map Prod.snd)

/-- A memory and what the calls made so far have returned. -/
structure QueueRun where
  store : Store
  returned : List (Option (List UInt8))

/-- Make the next call. -/
def QueueRun.step (p : ℕ) (r : QueueRun) (call : QueueCall) : Except Abort QueueRun :=
  match runQueueCall p call r.store with
  | .ok (taken, store) => .ok ⟨store, r.returned ++ [taken]⟩
  | .error reason => .error reason

/-- The strings in the queue at `p`, from `last_node` along `parent`. -/
def Store.bodies (store : Store) (p : ℕ) : List (List UInt8) := (store.messages p).map Prod.snd

/-- The queue at `p` has exactly these nodes, from `last_node` to `first_node`. -/
structure HasNodes (store : Store) (p : ℕ) (queue : Queue) (addresses : List ℕ) : Prop where
  cell : store.queues.cells p = some queue
  linked : Linked store.nodes queue addresses

/-- What `q_enqueue` of a body does to a queue with these nodes. -/
structure AppendedAtFirst (store store' : Store) (p : ℕ) (addresses : List ℕ) (body : List UInt8)
    (node : ℕ) : Prop where
  fresh : store.nodes.cells node = none
  cell : store'.nodes.cells node = some { parent := none, length := body.length, body := body }
  bodies : ∀ a, a ≠ node →
    (store'.nodes.cells a).map QNode.body = (store.nodes.cells a).map QNode.body
  queue : ∃ queue', HasNodes store' p queue' (addresses ++ [node]) ∧ queue'.firstNode = some node
  others : ∀ p', p' ≠ p → store'.queues.cells p' = store.queues.cells p'

/-- What `q_dequeue` does to a queue whose `last_node` is `last`. -/
structure RemovedAtLast (store store' : Store) (p last : ℕ) (rest : List ℕ) : Prop where
  nodes : store'.nodes = store.nodes.free last
  queue : ∃ queue', HasNodes store' p queue' rest
  others : ∀ p', p' ≠ p → store'.queues.cells p' = store.queues.cells p'

/-- After some calls on the queue at `p`, it is the sequence that these calls leave. -/
structure QueueRun.IsFifo (r : QueueRun) (p : ℕ) (calls : List QueueCall) : Prop where
  /-- Each call has returned what the sequence hands back. -/
  returned : r.returned = Fifo.answers [] calls
  /-- The bodies from `last_node` on are the sequence. -/
  bodies : r.store.bodies p = Fifo.contents [] calls
  /-- Nothing was lost or reordered on the way. -/
  conserved : r.returned.flatMap Option.toList ++ r.store.bodies p = Fifo.puts calls
  /-- The ends, the links and the counter agree, and the next call does what it should. -/
  nodes : ∃ queue addresses, HasNodes r.store p queue addresses ∧
    (queue.firstNode = none ↔ queue.lastNode = none) ∧
    (∀ body, ∃ node store', qEnqueue (some p) body r.store = .ok (node, store') ∧
      AppendedAtFirst r.store store' p addresses body node) ∧
    (addresses = [] → qDequeue (some p) r.store = .ok (none, r.store)) ∧
    ∀ last rest, addresses = last :: rest → ∃ node store', queue.lastNode = some last ∧
      r.store.nodes.cells last = some node ∧
      qDequeue (some p) r.store = .ok (some (last, node.body), store') ∧
      RemovedAtLast r.store store' p last rest

namespace HasNodes

variable {store store' : Store} {p node : ℕ} {body : List UInt8} {queue : Queue} {addresses : List ℕ}

/-- A queue has a first node exactly when it has a last one. -/
theorem firstNode_eq_none_iff (h : HasNodes store p queue addresses) :
    queue.firstNode = none ↔ queue.lastNode = none := by
  rw [h.linked.first, h.linked.chain.start_eq, List.getLast?_eq_none_iff, List.head?_eq_none_iff]

/-- The strings of the queue are the bodies of its nodes. -/
theorem bodies_eq (h : HasNodes store p queue addresses) :
    store.bodies p = (bodiesAt store.nodes addresses).map Prod.snd := by
  rw [Store.bodies, h.linked.messages_eq h.cell]

/-- `q_enqueue` adds a node of its own behind all others. -/
theorem qEnqueue_appends (h : HasNodes store p queue addresses) (body : List UInt8) :
    ∃ node store', qEnqueue (some p) body store = .ok (node, store') ∧
      AppendedAtFirst store store' p addresses body node := by
  have hfirst : queue.firstNode ≠ some store.nodes.next := by
    intro hfirst
    have hmem := List.mem_of_getLast? (h.linked.first.symm.trans hfirst)
    exact lt_irrefl _ (h.linked.live hmem).lt_next
  refine ⟨store.nodes.next, _, qEnqueue_of_linked h.cell h.linked body,
    store.nodes.fresh _ le_rfl, ?_, fun a ha => ?_, ⟨queue.enqueued store.nodes.next, ?_, rfl⟩,
    fun p' hp' => Heap.modify_cells_ne _ _ hp'⟩
  · rw [enqueuedNodes_cells, if_neg hfirst, Heap.alloc_cells_next]
  · rw [enqueuedNodes_cells, Heap.alloc_cells, if_neg ha]
    split
    · rw [Option.map_map]
      rfl
    · rfl
  · exact ⟨Heap.modify_cells_of_live h.cell _, linked_enqueued h.linked body⟩

/-- `q_dequeue` finds nothing in an empty queue. -/
theorem qDequeue_of_nil (h : HasNodes store p queue []) :
    qDequeue (some p) store = .ok (none, store) :=
  qDequeue_of_none h.cell h.linked.chain.start_eq

/-- `q_dequeue` frees the last node and hands out its body. -/
theorem qDequeue_removes {last : ℕ} {rest : List ℕ} (h : HasNodes store p queue (last :: rest)) :
    ∃ node store', queue.lastNode = some last ∧ store.nodes.cells last = some node ∧
      qDequeue (some p) store = .ok (some (last, node.body), store') ∧
      RemovedAtLast store store' p last rest := by
  have hlast : queue.lastNode = some last := h.linked.chain.start_eq
  obtain ⟨node, hnode⟩ := h.linked.live List.mem_cons_self
  refine ⟨node, dequeuedStore store p last node, hlast, hnode, qDequeue_of_some h.cell hlast hnode,
    rfl, ⟨queue.dequeued last node, ?_⟩, fun p' hp' => Heap.modify_cells_ne _ _ hp'⟩
  exact ⟨Heap.modify_cells_of_live h.cell _, linked_dequeued h.linked hnode⟩

/-- The new node is the last string of the queue. -/
theorem bodies_appended (h : HasNodes store p queue addresses)
    (happended : AppendedAtFirst store store' p addresses body node) :
    store'.bodies p = store.bodies p ++ [body] := by
  obtain ⟨queue', hnodes', -⟩ := happended.queue
  have hold : bodiesAt store'.nodes addresses = bodiesAt store.nodes addresses := by
    apply bodiesAt_congr
    intro a ha
    apply happended.bodies
    intro hnode
    obtain ⟨value, hcell⟩ := h.linked.live ha
    rw [hnode, happended.fresh] at hcell
    cases hcell
  have hnew : bodiesAt store'.nodes [node] = [(node, body)] := by
    simp only [bodiesAt, List.filterMap_cons, List.filterMap_nil, happended.cell, Option.map_some]
  rw [hnodes'.bodies_eq, h.bodies_eq, bodiesAt_append, hold, hnew, List.map_append]
  rfl

/-- The removed node was the first string of the queue. -/
theorem bodies_removed {last : ℕ} {rest : List ℕ} {value : QNode}
    (h : HasNodes store p queue (last :: rest)) (hvalue : store.nodes.cells last = some value)
    (hremoved : RemovedAtLast store store' p last rest) :
    store.bodies p = value.body :: store'.bodies p := by
  obtain ⟨queue', hnodes'⟩ := hremoved.queue
  have hrest : bodiesAt store'.nodes rest = bodiesAt store.nodes rest := by
    apply bodiesAt_congr
    intro a ha
    rw [hremoved.nodes, Heap.free_cells_ne]
    intro hlast
    exact (List.nodup_cons.mp h.linked.nodup).1 (hlast ▸ ha)
  rw [hnodes'.bodies_eq, h.bodies_eq, hrest]
  simp only [bodiesAt, List.filterMap_cons, hvalue, Option.map_some, List.map_cons]

/-- A queue without nodes holds no string. -/
theorem bodies_nil (h : HasNodes store p queue []) : store.bodies p = [] := h.bodies_eq

end HasNodes

namespace QueueRun

variable {r : QueueRun} {p : ℕ} {queue : Queue} {addresses : List ℕ}

/-- A call returns and leaves what it would return and leave on the sequence of the bodies. -/
theorem step_fifo (h : HasNodes r.store p queue addresses) (call : QueueCall) :
    ∃ r' queue' addresses', r.step p call = .ok r' ∧ HasNodes r'.store p queue' addresses' ∧
      r'.store.bodies p = call.after (r.store.bodies p) ∧
      r'.returned = r.returned ++ [call.answer (r.store.bodies p)] := by
  cases call with
  | put body =>
    obtain ⟨node, store', hrun, happended⟩ := h.qEnqueue_appends body
    have hcall : runQueueCall p (.put body) r.store = .ok (none, store') := by
      rw [runQueueCall, bind_of_ok hrun, pure_apply]
    obtain ⟨queue', hnodes', -⟩ := happended.queue
    refine ⟨⟨store', r.returned ++ [none]⟩, queue', _, ?_, hnodes', h.bodies_appended happended, rfl⟩
    rw [step, hcall]
  | take =>
    cases addresses with
    | nil =>
      have hcall : runQueueCall p .take r.store = .ok (none, r.store) := by
        rw [runQueueCall, bind_of_ok h.qDequeue_of_nil, pure_apply, Option.map_none]
      refine ⟨⟨r.store, r.returned ++ [none]⟩, queue, [], ?_, h, ?_, ?_⟩
      · rw [step, hcall]
      · rw [h.bodies_nil]
        rfl
      · rw [h.bodies_nil]
        rfl
    | cons last rest =>
      obtain ⟨node, store', -, hnode, hrun, hremoved⟩ := h.qDequeue_removes
      have hcall : runQueueCall p .take r.store = .ok (some node.body, store') := by
        rw [runQueueCall, bind_of_ok hrun, pure_apply, Option.map_some]
      obtain ⟨queue', hnodes'⟩ := hremoved.queue
      refine ⟨⟨store', r.returned ++ [some node.body]⟩, queue', rest, ?_, hnodes', ?_, ?_⟩
      · rw [step, hcall]
      · rw [h.bodies_removed hnode hremoved]
        rfl
      · rw [h.bodies_removed hnode hremoved]
        rfl

/-- A run returns and leaves what its calls would on the sequence of the bodies. -/
theorem exec_fifo (h : HasNodes r.store p queue addresses) (calls : List QueueCall) :
    ∃ r' queue' addresses', exec (step p) r calls = .ok r' ∧
      HasNodes r'.store p queue' addresses' ∧
      r'.store.bodies p = Fifo.contents (r.store.bodies p) calls ∧
      r'.returned = r.returned ++ Fifo.answers (r.store.bodies p) calls := by
  induction calls generalizing r queue addresses with
  | nil => exact ⟨r, queue, addresses, rfl, h, rfl, (List.append_nil _).symm⟩
  | cons call rest ih =>
    obtain ⟨r₁, queue₁, addresses₁, hstep, hnodes₁, hbodies₁, hreturned₁⟩ := step_fifo h call
    obtain ⟨r', queue', addresses', hrun, hnodes', hbodies', hreturned'⟩ := ih hnodes₁
    refine ⟨r', queue', addresses', (exec_cons r call rest hstep).trans hrun, hnodes', ?_, ?_⟩
    · rw [hbodies', hbodies₁, Fifo.contents_cons]
    · rw [hreturned', hreturned₁, hbodies₁, Fifo.answers_cons, List.append_assoc,
        List.singleton_append]

/-- The queue of `new_queue` has no node. -/
theorem hasNodes_newQueue {store created : Store} {name : List UInt8}
    (h : newQueue name store = .ok (p, created)) : ∃ queue, HasNodes created p queue [] := by
  obtain ⟨-, rfl, rfl⟩ := newQueue_eq_ok h
  exact ⟨_, Heap.alloc_cells_next _ _, .nil, List.nodup_nil, rfl, rfl⟩

/-- The linked list of a queue implements a first-in-first-out sequence. In any memory,
after any calls of `q_enqueue` and `q_dequeue` on a queue that `new_queue` made under a name
with room in `queue.name`, `first_node` is NULL exactly when `last_node` is; `parent` leads
from `last_node` through as many different allocated nodes as the counter says to
`first_node` and then to NULL. `q_enqueue` puts its body into a new node at the `first_node`
end; `q_dequeue` hands out the body at `last_node` and frees this node only, or returns NULL
and leaves all as it was when there is none. -/
theorem queue_isFifo (store : Store) {name : List UInt8} (hfits : name.length + 1 ≤ maxQueueName)
    (calls : List QueueCall) :
    ∃ p created r, newQueue name store = .ok (p, created) ∧
      exec (step p) ⟨created, []⟩ calls = .ok r ∧ r.IsFifo p calls := by
  have hnew := newQueue_of_fits hfits store
  obtain ⟨queue, hnodes⟩ := hasNodes_newQueue hnew
  obtain ⟨r, queue', addresses, hrun, hnodes', hbodies, hreturned⟩ :=
    exec_fifo (r := ⟨_, []⟩) hnodes calls
  rw [hnodes.bodies_nil] at hbodies hreturned
  rw [List.nil_append] at hreturned
  refine ⟨_, _, r, hnew, hrun, hreturned, hbodies, ?_, queue', addresses, hnodes',
    hnodes'.firstNode_eq_none_iff, hnodes'.qEnqueue_appends, ?_, ?_⟩
  · rw [hreturned, hbodies, Fifo.conserved, List.nil_append]
  · intro hnil
    subst hnil
    exact hnodes'.qDequeue_of_nil
  · intro last rest hcons
    subst hcons
    exact hnodes'.qDequeue_removes

/-- Two bodies go in, one comes out, on a queue with a name of the greatest length. -/
theorem queue_isFifo_longestName :
    ∃ p created r, newQueue (List.replicate 255 97) initQueuePool = .ok (p, created) ∧
      exec (step p) ⟨created, []⟩ [.put [1], .put [2], .take] = .ok r ∧
      r.IsFifo p [.put [1], .put [2], .take] :=
  queue_isFifo initQueuePool (by rw [List.length_replicate, maxQueueName]) _

end QueueRun

end AmqpBroker
