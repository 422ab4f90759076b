import AmqpBroker.Foundations.Chain
import AmqpBroker.Verification.PoolLaws

/-!
# The queues as lists of messages

The nodes reached from `last_node` along `parent` are the messages of a queue, oldest
first. `q_enqueue` appends to this list and `q_dequeue` takes its head; neither touches
another queue, the scheduler or the pool.
-/

namespace AmqpBroker

open Foundations Program

/-- The linked nodes of a queue, which agree with its three other fields. -/
structure Linked (nodes : Heap QNode) (queue : Queue) (addresses : List ℕ) : Prop where
  chain : Chain nodes QNode.parent queue.lastNode addresses
  nodup : addresses.Nodup
  first : queue.firstNode = addresses.getLast?
  size : queue.size = addresses.length

/-- Every queue is linked, and no node belongs to two of them. -/
structure Lists (store : Store) (lists : ℕ → List ℕ) : Prop where
  linked : ∀ p queue, store.queues.cells p = some queue → Linked store.nodes queue (lists p)
  dead : ∀ p, store.queues.cells p = none → lists p = []
  disjoint : ∀ p p' a, a ∈ lists p → a ∈ lists p' → p = p'

/-- The queues are disjoint lists. -/
def ListsOk (store : Store) : Prop := ∃ lists, Lists store lists

/-- The addresses and bodies of these nodes. -/
def bodiesAt (nodes : Heap QNode) (addresses : List ℕ) : List (ℕ × List UInt8) :=
  addresses.filterMap fun a => (nodes.cells a).map fun node => (a, node.body)

/-- The messages of a queue from `last_node` along `parent`. -/
def Store.messages (store : Store) (p : ℕ) : List (ℕ × List UInt8) :=
  match store.queues.cells p with
  | none => []
  | some queue =>
    (walk store.nodes QNode.parent store.nodes.next queue.lastNode).map fun cell =>
      (cell.1, cell.2.body)

/-- Two stores whose queues differ in their lists and sleepers only. -/
structure SameRings (store store' : Store) : Prop where
  trie : store'.trie = store.trie
  next : store'.queues.next = store.queues.next
  name : ∀ p, (store'.queues.cells p).map Queue.name = (store.queues.cells p).map Queue.name
  rr : ∀ p, (store'.queues.cells p).map Queue.rr = (store.queues.cells p).map Queue.rr

/-- Two stores whose queues differ in their schedulers and sleepers only. -/
structure SameLists (store store' : Store) : Prop where
  trie : store'.trie = store.trie
  nodes : store'.nodes = store.nodes
  next : store'.queues.next = store.queues.next
  list : ∀ p, (store'.queues.cells p).map (fun queue =>
      (queue.name, queue.size, queue.firstNode, queue.lastNode)) =
    (store.queues.cells p).map fun queue =>
      (queue.name, queue.size, queue.firstNode, queue.lastNode)

variable {store store' : Store} {lists : ℕ → List ℕ} {p : ℕ} {q : Option ℕ} {queue : Queue}

/-- The bodies of two stretches of nodes. -/
theorem bodiesAt_append (nodes : Heap QNode) (left right : List ℕ) :
    bodiesAt nodes (left ++ right) = bodiesAt nodes left ++ bodiesAt nodes right :=
  List.filterMap_append

/-- Only the bodies of the listed nodes matter. -/
theorem bodiesAt_congr {nodes nodes' : Heap QNode} {addresses : List ℕ}
    (h : ∀ a ∈ addresses, (nodes'.cells a).map QNode.body = (nodes.cells a).map QNode.body) :
    bodiesAt nodes' addresses = bodiesAt nodes addresses := by
  refine List.filterMap_congr fun a ha => ?_
  have hmap : ∀ cell : Option QNode, (cell.map fun node => (a, node.body)) =
      (cell.map QNode.body).map fun body => (a, body) := by
    intro cell
    rw [Option.map_map]
    rfl
  rw [hmap, hmap, h a ha]

/-- A linked node is allocated. -/
theorem Linked.live {addresses : List ℕ} (h : Linked store.nodes queue addresses) {a : ℕ}
    (ha : a ∈ addresses) : Live store.nodes a := h.chain.live a ha

/-- The executable walk finds all messages. -/
theorem Linked.messages_eq {addresses : List ℕ} (h : Linked store.nodes queue addresses)
    (hcell : store.queues.cells p = some queue) :
    store.messages p = bodiesAt store.nodes addresses := by
  have hsteps := h.chain.length_le_next h.nodup
  simp only [Store.messages, hcell, h.chain.walk_eq _ hsteps, bodiesAt, List.map_filterMap,
    Option.map_map, Function.comp_def]

/-- Allocated nodes have one body each. -/
theorem length_bodiesAt {nodes : Heap QNode} {addresses : List ℕ}
    (h : ∀ a ∈ addresses, Live nodes a) : (bodiesAt nodes addresses).length = addresses.length := by
  induction addresses with
  | nil => rfl
  | cons a rest ih =>
    obtain ⟨node, hcell⟩ := h a List.mem_cons_self
    have hrest := ih fun b hb => h b (List.mem_cons_of_mem a hb)
    rw [bodiesAt, List.filterMap_cons, hcell]
    exact congrArg Nat.succ hrest

/-- A queue that is not there has no messages. -/
theorem messages_of_none (hcell : store.queues.cells p = none) : store.messages p = [] := by
  rw [Store.messages, hcell]

/-- Untouched memory has the same rings. -/
theorem SameRings.refl (store : Store) : SameRings store store := ⟨rfl, rfl, fun _ => rfl, fun _ => rfl⟩

/-- Untouched memory has the same lists. -/
theorem SameLists.refl (store : Store) : SameLists store store := ⟨rfl, rfl, rfl, fun _ => rfl⟩

/-- The pool does not depend on the lists. -/
theorem SameRings.poolOk (h : SameRings store store') (hpool : PoolOk store) : PoolOk store' :=
  hpool.congr h.trie h.name

/-- The pool does not depend on the rings. -/
theorem SameLists.poolOk (h : SameLists store store') (hpool : PoolOk store) : PoolOk store' := by
  refine hpool.congr h.trie fun p => ?_
  have hmap := congrArg (Option.map fun fields : List UInt8 × ℤ × Option ℕ × Option ℕ => fields.1)
    (h.list p)
  rw [Option.map_map, Option.map_map] at hmap
  exact hmap

/-- Schedulers do not matter to the lists. -/
theorem SameLists.listsOk (h : SameLists store store') (hlists : ListsOk store) : ListsOk store' := by
  obtain ⟨lists, hlinked, hdead, hdisjoint⟩ := hlists
  refine ⟨lists, fun p queue' hcell' => ?_, fun p hnone => hdead p ?_, hdisjoint⟩
  case refine_2 =>
    have hmap := h.list p
    rw [hnone, Option.map_none] at hmap
    exact Option.map_eq_none_iff.mp hmap.symm
  have hmap := h.list p
  rw [hcell', Option.map_some] at hmap
  obtain ⟨queue, hcell, heq⟩ := Option.map_eq_some_iff.mp hmap.symm
  simp only [Prod.mk.injEq] at heq
  obtain ⟨-, hsize, hfirst, hlast⟩ := heq
  have hqueue := hlinked p queue hcell
  refine ⟨?_, hqueue.nodup, ?_, ?_⟩
  · rw [h.nodes, ← hlast]
    exact hqueue.chain
  · rw [← hfirst]
    exact hqueue.first
  · rw [← hsize]
    exact hqueue.size

/-- Schedulers do not matter to the messages. -/
theorem SameLists.messages (h : SameLists store store') (p : ℕ) :
    store'.messages p = store.messages p := by
  have hmap := h.list p
  cases hcell' : store'.queues.cells p with
  | none =>
    rw [hcell', Option.map_none] at hmap
    rw [messages_of_none hcell', messages_of_none (Option.map_eq_none_iff.mp hmap.symm)]
  | some queue' =>
    rw [hcell', Option.map_some] at hmap
    obtain ⟨queue, hcell, heq⟩ := Option.map_eq_some_iff.mp hmap.symm
    simp only [Prod.mk.injEq] at heq
    simp only [Store.messages, hcell, hcell', h.nodes, heq.2.2.2]

/-- The same queues are allocated. -/
theorem SameRings.live_iff (h : SameRings store store') (p : ℕ) :
    Live store'.queues p ↔ Live store.queues p := by
  have hmap := h.name p
  constructor
  · rintro ⟨queue', hcell'⟩
    rw [hcell', Option.map_some] at hmap
    obtain ⟨queue, hcell, -⟩ := Option.map_eq_some_iff.mp hmap.symm
    exact ⟨queue, hcell⟩
  · rintro ⟨queue, hcell⟩
    rw [hcell, Option.map_some] at hmap
    obtain ⟨queue', hcell', -⟩ := Option.map_eq_some_iff.mp hmap
    exact ⟨queue', hcell'⟩

/-- The same queues are allocated. -/
theorem SameLists.live_iff (h : SameLists store store') (p : ℕ) :
    Live store'.queues p ↔ Live store.queues p := by
  have hmap := h.list p
  constructor
  · rintro ⟨queue', hcell'⟩
    rw [hcell', Option.map_some] at hmap
    obtain ⟨queue, hcell, -⟩ := Option.map_eq_some_iff.mp hmap.symm
    exact ⟨queue, hcell⟩
  · rintro ⟨queue, hcell⟩
    rw [hcell, Option.map_some] at hmap
    obtain ⟨queue', hcell', -⟩ := Option.map_eq_some_iff.mp hmap
    exact ⟨queue', hcell'⟩

/-- A change of the scheduler or the sleepers of one queue. -/
theorem sameLists_modify {change : Queue → Queue}
    (hchange : ∀ queue : Queue, (change queue).name = queue.name ∧ (change queue).size = queue.size ∧
      (change queue).firstNode = queue.firstNode ∧ (change queue).lastNode = queue.lastNode) :
    SameLists store { store with queues := store.queues.modify p change } := by
  refine ⟨rfl, rfl, rfl, fun p' => ?_⟩
  rw [Heap.modify_cells]
  split
  · cases store.queues.cells p' with
    | none => rfl
    | some queue =>
      obtain ⟨hname, hsize, hfirst, hlast⟩ := hchange queue
      rw [Option.map_some, Option.map_some, hname, hsize, hfirst, hlast]
      rfl
  · rfl

/-- A change of the list or the sleepers of one queue. -/
theorem sameRings_modify {nodes : Heap QNode} {change : Queue → Queue}
    (hchange : ∀ queue : Queue, (change queue).name = queue.name ∧ (change queue).rr = queue.rr) :
    SameRings store { store with nodes := nodes, queues := store.queues.modify p change } := by
  refine ⟨rfl, rfl, fun p' => ?_, fun p' => ?_⟩
  · rw [Heap.modify_cells]
    split
    · cases store.queues.cells p' with
      | none => rfl
      | some queue => exact congrArg some (hchange queue).1
    · rfl
  · rw [Heap.modify_cells]
    split
    · cases store.queues.cells p' with
      | none => rfl
      | some queue => exact congrArg some (hchange queue).2
    · rfl

/-- A pointer that was followed led to a queue. -/
theorem derefQueue_eq_ok {r : ℕ × Queue} (h : derefQueue q store = .ok (r, store')) :
    q = some r.1 ∧ store.queues.cells r.1 = some r.2 ∧ store' = store := by
  unfold derefQueue at h
  split at h
  · cases h
  · split at h
    · cases h
    · rename_i hcell
      cases h
      exact ⟨rfl, hcell, rfl⟩

/-- A pointer to a queue is followed. -/
theorem derefQueue_of_cell (h : store.queues.cells p = some queue) :
    derefQueue (some p) store = .ok ((p, queue), store) := by
  simp only [derefQueue, h]

/-- A pointer that was followed led to a node. -/
theorem derefNode_eq_ok {n : ℕ} {node : QNode} (h : derefNode n store = .ok (node, store')) :
    store.nodes.cells n = some node ∧ store' = store := by
  unfold derefNode at h
  split at h
  · cases h
  · rename_i hcell
    cases h
    exact ⟨hcell, rfl⟩

/-- A pointer to a node is followed. -/
theorem derefNode_of_cell {n : ℕ} {node : QNode} (h : store.nodes.cells n = some node) :
    derefNode n store = .ok (node, store) := by
  simp only [derefNode, h]

/-- The fields of the queue after `q_enqueue` of the node `n`. -/
def Queue.enqueued (queue : Queue) (n : ℕ) : Queue := { queue with
  firstNode := some n
  lastNode := if queue.lastNode = none then some n else queue.lastNode
  size := queue.size + 1
  newMsgCond := ∅ }

/-- The nodes after `q_enqueue` of a body behind the node `first`. -/
def enqueuedNodes (nodes : Heap QNode) (first : Option ℕ) (body : List UInt8) : Heap QNode :=
  let allocated := nodes.alloc { parent := none, length := body.length, body := body }
  match first with
  | none => allocated
  | some first => allocated.modify first fun node => { node with parent := some nodes.next }

/-- `q_enqueue` returns on a queue with a sound list. -/
theorem qEnqueue_of_linked {addresses : List ℕ} (hcell : store.queues.cells p = some queue)
    (h : Linked store.nodes queue addresses) (body : List UInt8) :
    qEnqueue (some p) body store = .ok (store.nodes.next, { store with
      nodes := enqueuedNodes store.nodes queue.firstNode body
      queues := store.queues.modify p (·.enqueued store.nodes.next) }) := by
  have hnew : newNode { parent := none, length := body.length, body := body } store =
      .ok (store.nodes.next, { store with
        nodes := store.nodes.alloc { parent := none, length := body.length, body := body } }) := rfl
  have hderef : derefQueue (some p) { store with
        nodes := store.nodes.alloc { parent := none, length := body.length, body := body } } =
      .ok ((p, queue), { store with
        nodes := store.nodes.alloc { parent := none, length := body.length, body := body } }) :=
    derefQueue_of_cell hcell
  rw [qEnqueue, bind_of_ok hnew, bind_of_ok hderef]
  cases hfirst : queue.firstNode with
  | none =>
    simp only [hfirst]
    rfl
  | some first =>
    have hmem : first ∈ addresses := List.mem_of_getLast? (h.first.symm.trans hfirst)
    obtain ⟨node, hnode⟩ := h.live hmem
    have hnode' : derefNode first { store with
          nodes := store.nodes.alloc { parent := none, length := body.length, body := body } } =
        .ok (node, { store with
          nodes := store.nodes.alloc { parent := none, length := body.length, body := body } }) :=
      derefNode_of_cell (Heap.alloc_cells_of_live _ hnode)
    simp only [hfirst]
    rw [bind_of_ok hnode']
    rfl

/-- Every node after `q_enqueue`. -/
theorem enqueuedNodes_cells (nodes : Heap QNode) (first : Option ℕ) (body : List UInt8) (a : ℕ) :
    (enqueuedNodes nodes first body).cells a =
      if first = some a then
        ((nodes.alloc { parent := none, length := body.length, body := body }).cells a).map
          fun node => { node with parent := some nodes.next }
      else (nodes.alloc { parent := none, length := body.length, body := body }).cells a := by
  cases first with
  | none => rfl
  | some first =>
    simp only [enqueuedNodes, Heap.modify_cells, Option.some.injEq]
    by_cases h : a = first
    · rw [if_pos h, if_pos h.symm]
    · rw [if_neg h, if_neg fun heq => h heq.symm]

/-- `q_enqueue` keeps the body of every node. -/
theorem enqueuedNodes_body (nodes : Heap QNode) (first : Option ℕ) (body : List UInt8) (a : ℕ)
    (ha : a < nodes.next) :
    ((enqueuedNodes nodes first body).cells a).map QNode.body = (nodes.cells a).map QNode.body := by
  have halloc : (nodes.alloc { parent := none, length := body.length, body := body }).cells a =
      nodes.cells a := by
    rw [Heap.alloc_cells, if_neg (by omega)]
  rw [enqueuedNodes_cells, halloc]
  split
  · rw [Option.map_map]
    rfl
  · rfl

/-- What `q_enqueue` of a body does to the queue at `p`. -/
structure Enqueued (store store' : Store) (p node : ℕ) (body : List UInt8) : Prop where
  lists : ListsOk store'
  fresh : node = store.nodes.next
  next : store'.nodes.next = store.nodes.next + 1
  messages : store'.messages p = store.messages p ++ [(node, body)]
  others : ∀ p', p' ≠ p → store'.messages p' = store.messages p'
  rings : SameRings store store'

/-- The list of the queue after `q_enqueue`. -/
theorem linked_enqueued {addresses : List ℕ} (h : Linked store.nodes queue addresses)
    (body : List UInt8) :
    Linked (enqueuedNodes store.nodes queue.firstNode body) (queue.enqueued store.nodes.next)
      (addresses ++ [store.nodes.next]) := by
  have hlt : ∀ a ∈ addresses, a < store.nodes.next := fun a ha => (h.live ha).lt_next
  have hnotMem : store.nodes.next ∉ addresses := fun hmem => lt_irrefl _ (hlt _ hmem)
  have hcell : (enqueuedNodes store.nodes queue.firstNode body).cells store.nodes.next =
      some { parent := none, length := body.length, body := body } := by
    rw [enqueuedNodes_cells, if_neg, Heap.alloc_cells_next]
    intro hfirst
    exact hnotMem (List.mem_of_getLast? (h.first.symm.trans hfirst))
  refine ⟨?_, ?_, ?_, ?_⟩
  · cases hlast : queue.lastNode with
    | none =>
      have hchain := h.chain
      rw [hlast] at hchain
      cases hchain
      simp only [Queue.enqueued, hlast, if_true, List.nil_append]
      exact .cons hcell .nil
    | some last =>
      have hchain := h.chain
      rw [hlast] at hchain
      have hstart : (queue.enqueued store.nodes.next).lastNode = some last := by
        simp [Queue.enqueued, hlast]
      rw [hstart]
      apply Chain.append_new
        (show ∀ node : QNode, QNode.parent { node with parent := some store.nodes.next } = _ from
          fun _ => rfl) rfl hchain h.nodup hnotMem hcell ?_ ?_ (by simp)
      · intro a ha
        rw [enqueuedNodes_cells, if_pos (h.first.trans ha), Heap.alloc_cells, if_neg]
        have := hlt a (List.mem_of_getLast? ha)
        omega
      · intro a ha hne
        rw [enqueuedNodes_cells, if_neg fun hfirst => hne (hfirst.symm.trans h.first),
          Heap.alloc_cells, if_neg]
        have := hlt a ha
        omega
  · rw [List.nodup_append_comm]
    exact List.nodup_cons.mpr ⟨hnotMem, h.nodup⟩
  · simp [Queue.enqueued]
  · simp [Queue.enqueued, h.size]

/-- The lists of the other queues after `q_enqueue`. -/
theorem linked_enqueued_other {addresses : List ℕ} {other : Queue} {first : Option ℕ}
    (h : Linked store.nodes other addresses) (hfirst : ∀ a ∈ addresses, first ≠ some a)
    (body : List UInt8) : Linked (enqueuedNodes store.nodes first body) other addresses := by
  refine ⟨h.chain.congr fun a ha => ?_, h.nodup, h.first, h.size⟩
  have hlt := (h.live ha).lt_next
  rw [enqueuedNodes_cells, if_neg (hfirst a ha), Heap.alloc_cells, if_neg (by omega)]

/-- All listed nodes are allocated. -/
theorem Lists.live (h : Lists store lists) {a : ℕ} (ha : a ∈ lists p) : Live store.nodes a := by
  cases hcell : store.queues.cells p with
  | none =>
    rw [h.dead p hcell] at ha
    cases ha
  | some queue => exact (h.linked p queue hcell).live ha

/-- The messages of any address, live or not. -/
theorem Lists.messages_eq (h : Lists store lists) (p : ℕ) :
    store.messages p = bodiesAt store.nodes (lists p) := by
  cases hcell : store.queues.cells p with
  | none =>
    rw [messages_of_none hcell, h.dead p hcell]
    rfl
  | some queue => exact (h.linked p queue hcell).messages_eq hcell

/-- `q_size` counts the messages. -/
theorem qSize_spec (hlists : ListsOk store) (hcell : store.queues.cells p = some queue) :
    qSize (some p) store = .ok ((store.messages p).length, store) := by
  obtain ⟨lists, h⟩ := hlists
  have hlinked := h.linked p queue hcell
  have hlength : (store.messages p).length = (lists p).length := by
    rw [h.messages_eq, length_bodiesAt fun a ha => hlinked.live ha]
  rw [qSize, bind_of_ok (derefQueue_of_cell hcell), hlength, ← hlinked.size]
  rfl

/-- The store after `q_enqueue`. -/
def enqueuedStore (store : Store) (p : ℕ) (queue : Queue) (body : List UInt8) : Store :=
  { store with
    nodes := enqueuedNodes store.nodes queue.firstNode body
    queues := store.queues.modify p (·.enqueued store.nodes.next) }

/-- The new node comes last in its list. -/
theorem lists_enqueued (h : Lists store lists) (hcell : store.queues.cells p = some queue)
    (body : List UInt8) :
    Lists (enqueuedStore store p queue body)
      (Function.update lists p (lists p ++ [store.nodes.next])) := by
  have hlinked := h.linked p queue hcell
  refine ⟨fun p' queue' hcell' => ?_, fun p' hnone => ?_, fun p₁ p₂ a ha₁ ha₂ => ?_⟩
  · by_cases hp : p' = p
    · subst hp
      rw [enqueuedStore, Heap.modify_cells_self, hcell, Option.map_some] at hcell'
      obtain rfl := Option.some.inj hcell'
      rw [Function.update_self]
      exact linked_enqueued hlinked body
    · rw [enqueuedStore, Heap.modify_cells_ne _ _ hp] at hcell'
      rw [Function.update_of_ne hp]
      refine linked_enqueued_other (h.linked p' queue' hcell') (fun a ha hfirst => hp ?_) body
      exact h.disjoint p' p a ha (List.mem_of_getLast? (hlinked.first.symm.trans hfirst))
  · have hp : p' ≠ p := by
      rintro rfl
      rw [enqueuedStore, Heap.modify_cells_self, hcell] at hnone
      cases hnone
    rw [enqueuedStore, Heap.modify_cells_ne _ _ hp] at hnone
    rw [Function.update_of_ne hp, h.dead p' hnone]
  · -- a node in two of the new lists would be in two of the old ones or not be new
    have hold : ∀ p', a ∈ Function.update lists p (lists p ++ [store.nodes.next]) p' →
        a ∈ lists p' ∨ a = store.nodes.next ∧ p' = p := by
      intro p' ha
      by_cases hp : p' = p
      · subst hp
        rw [Function.update_self] at ha
        simpa using ha
      · rw [Function.update_of_ne hp] at ha
        exact Or.inl ha
    have hlt : ∀ p', a ∈ lists p' → a < store.nodes.next := fun p' ha => (h.live ha).lt_next
    rcases hold p₁ ha₁ with hmem₁ | ⟨rfl, hp₁⟩
    · rcases hold p₂ ha₂ with hmem₂ | ⟨rfl, -⟩
      · exact h.disjoint p₁ p₂ a hmem₁ hmem₂
      · exact absurd (hlt p₁ hmem₁) (lt_irrefl _)
    · rcases hold p₂ ha₂ with hmem₂ | ⟨-, hp₂⟩
      · exact absurd (hlt p₂ hmem₂) (lt_irrefl _)
      · rw [hp₁, hp₂]

/-- `q_enqueue` appends a new node with the body to the list of its queue. -/
theorem qEnqueue_spec (body : List UInt8) (hlists : ListsOk store)
    (hcell : store.queues.cells p = some queue) :
    ∃ node store', qEnqueue (some p) body store = .ok (node, store') ∧
      Enqueued store store' p node body := by
  obtain ⟨lists, h⟩ := hlists
  have hlinked := h.linked p queue hcell
  have h' := lists_enqueued h hcell body
  have hbodies : ∀ p', bodiesAt (enqueuedStore store p queue body).nodes (lists p') =
      store.messages p' := by
    intro p'
    rw [h.messages_eq p']
    exact bodiesAt_congr fun a ha => enqueuedNodes_body _ _ _ a (h.live ha).lt_next
  refine ⟨_, enqueuedStore store p queue body, qEnqueue_of_linked hcell hlinked body,
    ⟨_, h'⟩, rfl, ?_, ?_, fun p' hp => ?_, ?_⟩
  · unfold enqueuedStore enqueuedNodes
    split <;> rfl
  · have hnew : bodiesAt (enqueuedStore store p queue body).nodes [store.nodes.next] =
        [(store.nodes.next, body)] := by
      have hfirst : queue.firstNode ≠ some store.nodes.next := by
        intro hfirst
        have hmem := List.mem_of_getLast? (hlinked.first.symm.trans hfirst)
        exact lt_irrefl _ (h.live hmem).lt_next
      simp only [bodiesAt, enqueuedStore, List.filterMap_cons, List.filterMap_nil,
        enqueuedNodes_cells, if_neg hfirst, Heap.alloc_cells_next, Option.map_some]
    rw [h'.messages_eq, Function.update_self, bodiesAt_append, hbodies p, hnew]
  · rw [h'.messages_eq, Function.update_of_ne hp, hbodies p']
  · exact sameRings_modify fun _ => ⟨rfl, rfl⟩

/-- The fields of the queue after `q_dequeue` of its last node. -/
def Queue.dequeued (queue : Queue) (last : ℕ) (node : QNode) : Queue := { queue with
  lastNode := node.parent
  firstNode := if queue.firstNode = some last then none else queue.firstNode
  size := queue.size - 1 }

/-- The store after `q_dequeue` of a node. -/
def dequeuedStore (store : Store) (p last : ℕ) (node : QNode) : Store :=
  { store with
    nodes := store.nodes.free last
    queues := store.queues.modify p (·.dequeued last node) }

/-- What `q_dequeue` does to the queue at `p`. -/
structure Dequeued (store store' : Store) (p : ℕ) (taken : Option (ℕ × List UInt8)) : Prop where
  lists : ListsOk store'
  next : store'.nodes.next = store.nodes.next
  messages : store.messages p = taken.toList ++ store'.messages p
  empty : taken = none → store.messages p = []
  others : ∀ p', p' ≠ p → store'.messages p' = store.messages p'
  rings : SameRings store store'

/-- The list of the queue after `q_dequeue`. -/
theorem linked_dequeued {last : ℕ} {rest : List ℕ} {node : QNode}
    (h : Linked store.nodes queue (last :: rest)) (hnode : store.nodes.cells last = some node) :
    Linked (store.nodes.free last) (queue.dequeued last node) rest := by
  obtain ⟨hnotMem, hnodup⟩ := List.nodup_cons.mp h.nodup
  refine ⟨?_, hnodup, ?_, ?_⟩
  · have hchain := h.chain
    rw [hchain.start_eq] at hchain
    cases hchain with
    | cons hcell hrest =>
      obtain rfl := Option.some.inj (hcell.symm.trans hnode)
      refine hrest.congr fun a ha => Heap.free_cells_ne _ ?_
      rintro rfl
      exact hnotMem ha
  · simp only [Queue.dequeued, h.first]
    cases rest with
    | nil => simp
    | cons b rest =>
      rw [List.getLast?_cons_cons, if_neg]
      intro hlast
      exact hnotMem (List.mem_of_getLast? hlast)
  · simp only [Queue.dequeued, h.size, List.length_cons]
    omega

/-- The oldest node leaves its list. -/
theorem lists_dequeued {last : ℕ} {rest : List ℕ} {node : QNode} (h : Lists store lists)
    (hcell : store.queues.cells p = some queue) (hlist : lists p = last :: rest)
    (hnode : store.nodes.cells last = some node) :
    Lists (dequeuedStore store p last node) (Function.update lists p rest) := by
  have hlinked := h.linked p queue hcell
  refine ⟨fun p' queue' hcell' => ?_, fun p' hnone => ?_, fun p₁ p₂ a ha₁ ha₂ => ?_⟩
  · by_cases hp : p' = p
    · subst hp
      rw [dequeuedStore, Heap.modify_cells_self, hcell, Option.map_some] at hcell'
      obtain rfl := Option.some.inj hcell'
      rw [Function.update_self]
      exact linked_dequeued (hlist ▸ hlinked) hnode
    · rw [dequeuedStore, Heap.modify_cells_ne _ _ hp] at hcell'
      rw [Function.update_of_ne hp]
      have hother := h.linked p' queue' hcell'
      refine ⟨hother.chain.congr fun a ha => Heap.free_cells_ne _ ?_, hother.nodup, hother.first,
        hother.size⟩
      rintro rfl
      exact hp (h.disjoint p' p a ha (by rw [hlist]; exact List.mem_cons_self))
  · have hp : p' ≠ p := by
      rintro rfl
      rw [dequeuedStore, Heap.modify_cells_self, hcell] at hnone
      cases hnone
    rw [dequeuedStore, Heap.modify_cells_ne _ _ hp] at hnone
    rw [Function.update_of_ne hp, h.dead p' hnone]
  · have hold : ∀ p', a ∈ Function.update lists p rest p' → a ∈ lists p' := by
      intro p' ha
      by_cases hp : p' = p
      · subst hp
        rw [Function.update_self] at ha
        rw [hlist]
        exact List.mem_cons_of_mem _ ha
      · rwa [Function.update_of_ne hp] at ha
    exact h.disjoint p₁ p₂ a (hold p₁ ha₁) (hold p₂ ha₂)

/-- `q_dequeue` returns NULL where there is no last node. -/
theorem qDequeue_of_none (hcell : store.queues.cells p = some queue) (hlast : queue.lastNode = none) :
    qDequeue (some p) store = .ok (none, store) := by
  rw [qDequeue, bind_of_ok (derefQueue_of_cell hcell)]
  simp only [hlast]
  rfl

/-- `q_dequeue` frees the last node and returns its body. -/
theorem qDequeue_of_some {last : ℕ} {node : QNode} (hcell : store.queues.cells p = some queue)
    (hlast : queue.lastNode = some last) (hnode : store.nodes.cells last = some node) :
    qDequeue (some p) store = .ok (some (last, node.body), dequeuedStore store p last node) := by
  rw [qDequeue, bind_of_ok (derefQueue_of_cell hcell)]
  simp only [hlast]
  rw [bind_of_ok (derefNode_of_cell hnode)]
  rfl

/-- `q_dequeue` takes the head of the list of its queue, or finds it empty. -/
theorem qDequeue_spec (hlists : ListsOk store) (hcell : store.queues.cells p = some queue) :
    ∃ taken store', qDequeue (some p) store = .ok (taken, store') ∧
      Dequeued store store' p taken := by
  obtain ⟨lists, h⟩ := hlists
  have hlinked := h.linked p queue hcell
  cases hlist : lists p with
  | nil =>
    have hlast : queue.lastNode = none := by rw [hlinked.chain.start_eq, hlist]; rfl
    have hempty : store.messages p = [] := by rw [h.messages_eq, hlist]; rfl
    exact ⟨none, store, qDequeue_of_none hcell hlast, ⟨lists, h⟩, rfl, rfl, fun _ => hempty,
      fun _ _ => rfl, .refl store⟩
  | cons last rest =>
    have hlast : queue.lastNode = some last := by rw [hlinked.chain.start_eq, hlist]; rfl
    obtain ⟨node, hnode⟩ := h.live (p := p) (a := last) (by rw [hlist]; exact List.mem_cons_self)
    have h' := lists_dequeued h hcell hlist hnode
    have hnotMem : ∀ p', last ∉ Function.update lists p rest p' := by
      intro p' hmem
      obtain ⟨value, hvalue⟩ := h'.live hmem
      simp [dequeuedStore, Heap.free_cells] at hvalue
    have hbodies : ∀ p', bodiesAt (dequeuedStore store p last node).nodes
        (Function.update lists p rest p') = bodiesAt store.nodes (Function.update lists p rest p') := by
      intro p'
      refine bodiesAt_congr fun a ha => ?_
      rw [dequeuedStore, Heap.free_cells_ne]
      rintro rfl
      exact hnotMem p' ha
    refine ⟨some (last, node.body), dequeuedStore store p last node,
      qDequeue_of_some hcell hlast hnode, ⟨_, h'⟩, rfl, ?_, nofun, fun p' hp => ?_,
      sameRings_modify fun _ => ⟨rfl, rfl⟩⟩
    · rw [h.messages_eq, h'.messages_eq, hbodies, Function.update_self, hlist]
      simp [bodiesAt, hnode]
    · rw [h'.messages_eq, hbodies, Function.update_of_ne hp, h.messages_eq]

/-- A queue function that returns was called on an allocated queue. -/
theorem qEnqueue_eq_ok {body : List UInt8} {node : ℕ} (hlists : ListsOk store)
    (h : qEnqueue q body store = .ok (node, store')) :
    ∃ p, q = some p ∧ Live store.queues p ∧ Enqueued store store' p node body := by
  obtain ⟨n, store₁, hnew, hrest⟩ := bind_eq_ok.mp h
  obtain ⟨⟨p, queue⟩, store₂, hderef, -⟩ := bind_eq_ok.mp hrest
  cases hnew
  obtain ⟨rfl, hcell, -⟩ := derefQueue_eq_ok hderef
  obtain ⟨node', store'', hrun, henqueued⟩ := qEnqueue_spec body hlists hcell
  rw [h] at hrun
  cases hrun
  exact ⟨p, rfl, ⟨queue, hcell⟩, henqueued⟩

/-- `q_dequeue` takes a message of a queue that is there. -/
theorem qDequeue_eq_ok {taken : Option (ℕ × List UInt8)} (hlists : ListsOk store)
    (h : qDequeue q store = .ok (taken, store')) :
    ∃ p, q = some p ∧ Live store.queues p ∧ Dequeued store store' p taken := by
  obtain ⟨⟨p, queue⟩, store₁, hderef, -⟩ := bind_eq_ok.mp h
  obtain ⟨rfl, hcell, -⟩ := derefQueue_eq_ok hderef
  obtain ⟨taken', store'', hrun, hdequeued⟩ := qDequeue_spec hlists hcell
  rw [h] at hrun
  cases hrun
  exact ⟨p, rfl, ⟨queue, hcell⟩, hdequeued⟩

/-- What `q_enqueue` writes to the queue. -/
theorem qEnqueue_queues {body : List UInt8} {node : ℕ} (hlists : ListsOk store)
    (h : qEnqueue q body store = .ok (node, store')) :
    ∃ p queue, q = some p ∧ store.queues.cells p = some queue ∧
      store' = enqueuedStore store p queue body := by
  obtain ⟨p, rfl, ⟨queue, hcell⟩, -⟩ := qEnqueue_eq_ok hlists h
  obtain ⟨lists, hlists⟩ := hlists
  rw [qEnqueue_of_linked hcell (hlists.linked p queue hcell)] at h
  cases h
  exact ⟨p, queue, rfl, hcell, rfl⟩

/-- What `q_dequeue` writes: nothing when the queue is empty, else it unlinks `last_node`. -/
theorem qDequeue_store {taken : Option (ℕ × List UInt8)} (hlists : ListsOk store)
    (hcell : store.queues.cells p = some queue)
    (h : qDequeue (some p) store = .ok (taken, store')) :
    (taken = none ∧ queue.size = 0 ∧ store' = store) ∨
      ∃ last node, taken = some (last, node.body) ∧ 0 < queue.size ∧
        store.nodes.cells last = some node ∧ store' = dequeuedStore store p last node := by
  obtain ⟨lists, hlists⟩ := hlists
  have hlinked := hlists.linked p queue hcell
  have hstart := hlinked.chain.start_eq
  cases hlist : lists p with
  | nil =>
    rw [hlist] at hstart
    rw [qDequeue_of_none hcell hstart] at h
    cases h
    exact Or.inl ⟨rfl, by rw [hlinked.size, hlist]; rfl, rfl⟩
  | cons last rest =>
    obtain ⟨node, hnode⟩ := hlists.live (p := p) (a := last) (by rw [hlist]; exact List.mem_cons_self)
    rw [hlist] at hstart
    rw [qDequeue_of_some hcell hstart hnode] at h
    cases h
    exact Or.inr ⟨last, node, rfl, by rw [hlinked.size, hlist, List.length_cons]; omega, hnode, rfl⟩

/-- The store with another scheduler in the queue at `p`. -/
def Store.withRing (store : Store) (p : ℕ) (rr : RoundRobinScheduler) : Store :=
  { store with queues := store.queues.modify p fun queue => { queue with rr := rr } }

/-- A call on a ring changes that ring. -/
theorem onRing_eq_ok {α : Type} {f : RoundRobinScheduler → Except Abort (α × RoundRobinScheduler)}
    {a : α} (h : onRing q f store = .ok (a, store')) :
    ∃ p queue rr, q = some p ∧ store.queues.cells p = some queue ∧ f queue.rr = .ok (a, rr) ∧
      store' = store.withRing p rr := by
  obtain ⟨⟨p, queue⟩, store₁, hderef, hrest⟩ := bind_eq_ok.mp h
  obtain ⟨rfl, hcell, rfl⟩ := derefQueue_eq_ok hderef
  cases hf : f queue.rr with
  | error reason =>
    simp only [hf] at hrest
    cases hrest
  | ok result =>
    simp only [hf] at hrest
    cases hrest
    exact ⟨p, queue, result.2, rfl, hcell, hf, rfl⟩

/-- A call on the ring of a queue that is there. -/
theorem onRing_of_cell {α : Type} {f : RoundRobinScheduler → Except Abort (α × RoundRobinScheduler)}
    {a : α} {rr : RoundRobinScheduler} (hcell : store.queues.cells p = some queue)
    (hf : f queue.rr = .ok (a, rr)) : onRing (some p) f store = .ok (a, store.withRing p rr) := by
  rw [onRing, bind_of_ok (derefQueue_of_cell hcell)]
  simp only [hf]
  rfl

/-- A new ring leaves the lists. -/
theorem sameLists_withRing (store : Store) (p : ℕ) (rr : RoundRobinScheduler) :
    SameLists store (store.withRing p rr) := sameLists_modify fun _ => ⟨rfl, rfl, rfl, rfl⟩

/-- A new queue is empty, and the others keep their lists. -/
theorem ListsOk.insert (h : ListsOk store) (trie : Heap TrieNode) (name : List UInt8) :
    ListsOk { store with trie := trie, queues := store.queues.alloc (.fresh name) } := by
  obtain ⟨lists, h⟩ := h
  refine ⟨lists, fun p queue hcell => ?_, fun p hnone => h.dead p ?_, h.disjoint⟩
  · simp only [Heap.alloc_cells] at hcell
    split at hcell
    · rename_i hp
      obtain rfl := Option.some.inj hcell
      rw [h.dead p (store.queues.fresh p (by omega))]
      exact ⟨.nil, List.nodup_nil, rfl, rfl⟩
    · exact h.linked p queue hcell
  · simp only [Heap.alloc_cells] at hnone
    split at hnone
    · cases hnone
    · exact hnone

/-- The empty pool has no lists. -/
theorem listsOk_initQueuePool : ListsOk initQueuePool := by
  refine ⟨fun _ => [], fun p queue hcell => ?_, fun _ _ => rfl, fun p p' a ha => ?_⟩
  · cases hcell
  · cases ha

/-- A lookup leaves the lists alone. -/
theorem LookedUp.listsOk (h : LookedUp store store') (hlists : ListsOk store) : ListsOk store' := by
  obtain ⟨lists, hlists⟩ := hlists
  exact ⟨lists, by rw [h.nodes, h.queues]; exact hlists.linked,
    by rw [h.queues]; exact hlists.dead, hlists.disjoint⟩

/-- A new queue has an empty list. -/
theorem Inserted.listsOk {name : List UInt8} {new : ℕ} (h : Inserted store store' name new)
    (hlists : ListsOk store) : ListsOk store' := by
  have hinsert := hlists.insert store'.trie name
  rw [← h.queues, ← h.nodes] at hinsert
  exact hinsert

/-- A new queue leaves the messages of the others. -/
theorem messages_insert (store : Store) (trie : Heap TrieNode) (name : List UInt8) (p : ℕ) :
    { store with trie := trie, queues := store.queues.alloc (.fresh name) }.messages p =
      store.messages p := by
  by_cases hp : p = store.queues.next
  · rw [messages_of_none (store.queues.fresh p (by omega))]
    simp [Store.messages, Heap.alloc_cells, hp, Queue.fresh]
    cases store.nodes.next <;> rfl
  · simp only [Store.messages, Heap.alloc_cells, if_neg hp]

end AmqpBroker
