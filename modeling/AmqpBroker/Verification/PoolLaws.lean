import AmqpBroker.Foundations.Trie
import AmqpBroker.Model.QueuePool
import Mathlib.Tactic.Cases

/-!
# The pool as a map from names to queues

`get_queue` and `create_queue` walk and extend the trie, but what they mean is a lookup
and an insertion in the map from queue names to queues. The invariant says that the trie
labels its nodes with names and that every queue is found under its own name.
-/

namespace AmqpBroker

open Foundations Program

/-- The edges of the trie. -/
def childOf (trie : Heap TrieNode) (a : ℕ) (first : UInt8) : Option ℕ :=
  (trieNode trie a).children first

/-- The node of a name, when its path is installed. -/
def findNode (trie : Heap TrieNode) (name : List UInt8) : Option ℕ :=
  descend (childOf trie) name poolRoot

/-- The queue that the pool holds under a name. -/
def Store.queueOf (store : Store) (name : List UInt8) : Option ℕ :=
  (findNode store.trie name).bind fun a => (trieNode store.trie a).q

/-- An allocated cell. -/
def Live {α : Type} (heap : Heap α) (a : ℕ) : Prop := ∃ value, heap.cells a = some value

/-- The trie is a tree of allocated nodes, each with its own name. -/
structure TrieOk (trie : Heap TrieNode) : Prop where
  root : Live trie poolRoot
  live : ∀ a first child, childOf trie a first = some child → Live trie child
  labelled : ∃ label, Labelled (childOf trie) poolRoot label

/-- The second trie has more nodes, and the same queues. -/
structure TrieGrows (trie trie' : Heap TrieNode) : Prop where
  edges : Extends (· < trie.next) (childOf trie) (childOf trie')
  queue : ∀ a, (trieNode trie' a).q = (trieNode trie a).q
  live : ∀ a, Live trie a → Live trie' a
  next : trie.next ≤ trie'.next

/-- The pool maps names to queues that carry these names. -/
structure PoolOk (store : Store) : Prop where
  trie : TrieOk store.trie
  named : ∀ name q, store.queueOf name = some q →
    ∃ queue, store.queues.cells q = some queue ∧ queue.name = name
  pooled : ∀ q queue, store.queues.cells q = some queue → store.queueOf queue.name = some q

/-- A queue as `new_queue` makes it. -/
def Queue.fresh (name : List UInt8) : Queue where
  name := name
  size := 0
  rr := initRoundRobinScheduler uninitializedScheduler
  newMsgCond := ∅
  firstNode := none
  lastNode := none

variable {trie trie' trie'' : Heap TrieNode}

/-- What is allocated has an address below the next one. -/
theorem Live.lt_next {α : Type} {heap : Heap α} {a : ℕ} (h : Live heap a) : a < heap.next := by
  obtain ⟨value, hcell⟩ := h
  exact Heap.lt_next_of_cells hcell

/-- Nothing hangs below an address that is not allocated. -/
theorem childOf_of_ge {a : ℕ} (h : trie.next ≤ a) (first : UInt8) : childOf trie a first = none := by
  rw [childOf, trieNode, trie.fresh a h, Option.getD_none, TrieNode.zeroed]

/-- A node with a child is allocated. -/
theorem lt_next_of_childOf {a child : ℕ} {first : UInt8} (h : childOf trie a first = some child) :
    a < trie.next := by
  refine Nat.lt_of_not_le fun hge => ?_
  rw [childOf_of_ge hge] at h
  cases h

/-- An untouched trie has grown by nothing. -/
theorem TrieGrows.refl (trie : Heap TrieNode) : TrieGrows trie trie where
  edges := ⟨fun _ _ _ h => h, fun _ _ _ h => Or.inl h, fun _ _ _ => lt_next_of_childOf⟩
  queue _ := rfl
  live _ h := h
  next := le_rfl

/-- A trie grows in two steps. -/
theorem TrieGrows.trans (h : TrieGrows trie trie') (h' : TrieGrows trie' trie'') :
    TrieGrows trie trie'' where
  edges := by
    refine ⟨fun a b c hedge => h'.edges.keep a b c (h.edges.keep a b c hedge),
      fun a b c hedge => ?_, h.edges.closed⟩
    rcases h'.edges.fresh a b c hedge with hbefore | hnew
    · exact h.edges.fresh a b c hbefore
    · refine Or.inr fun hold => hnew ?_
      exact Nat.lt_of_lt_of_le hold h.next
  queue a := (h'.queue a).trans (h.queue a)
  live a ha := h'.live a (h.live a ha)
  next := h.next.trans h'.next

/-- Every node of the extended trie after an installation. -/
theorem trieNode_install {a : ℕ} (ha : Live trie a) (first : UInt8) (x : ℕ) :
    trieNode (installChild trie a first).2 x =
      if x = a then (trieNode trie a).setChild first trie.next else trieNode trie x := by
  obtain ⟨cell, hcell⟩ := ha
  have hlt := Heap.lt_next_of_cells hcell
  simp only [trieNode, installChild, Heap.modify_cells, Heap.alloc_cells]
  by_cases hx : x = a
  · subst hx
    rw [if_pos rfl, if_pos rfl, if_neg (by omega), hcell]
    rfl
  · rw [if_neg hx, if_neg hx]
    by_cases hnew : x = trie.next
    · subst hnew
      rw [if_pos rfl, trie.fresh _ le_rfl]
      rfl
    · rw [if_neg hnew]

/-- The new child is the only new edge. -/
theorem childOf_install {a : ℕ} (ha : Live trie a) (first : UInt8) (x : ℕ) (y : UInt8) :
    childOf (installChild trie a first).2 x y =
      if x = a ∧ y = first then some trie.next else childOf trie x y := by
  rw [childOf, trieNode_install ha]
  by_cases hx : x = a
  · subst hx
    rw [if_pos rfl, TrieNode.setChild]
    by_cases hy : y = first
    · subst hy
      simp
    · simp [hy, childOf]
  · simp [hx, childOf]

/-- The new child is allocated and the others stay. -/
theorem live_install {a x : ℕ} (first : UInt8) (hx : Live trie x ∨ x = trie.next) :
    Live (installChild trie a first).2 x := by
  have halloc : Live (trie.alloc .zeroed) x := by
    rcases hx with ⟨value, hcell⟩ | rfl
    · exact ⟨value, Heap.alloc_cells_of_live _ hcell⟩
    · exact ⟨_, Heap.alloc_cells_next _ _⟩
  exact Heap.exists_modify_cells _ _ halloc

/-- Installing a missing child extends the trie. -/
theorem grows_install {a : ℕ} {first : UInt8} (ha : Live trie a)
    (hfree : childOf trie a first = none) : TrieGrows trie (installChild trie a first).2 where
  edges := by
    refine ⟨fun x y c hedge => ?_, fun x y c hedge => ?_, fun _ _ _ => lt_next_of_childOf⟩
    · rw [childOf_install ha, if_neg, hedge]
      rintro ⟨rfl, rfl⟩
      rw [hfree] at hedge
      cases hedge
    · rw [childOf_install ha] at hedge
      split at hedge
      · obtain rfl := Option.some.inj hedge
        exact Or.inr (lt_irrefl _)
      · exact Or.inl hedge
  queue x := by
    rw [trieNode_install ha]
    split
    · rename_i hx
      rw [hx]
      rfl
    · rfl
  live x hx := live_install first (Or.inl hx)
  next := by simp [installChild]

/-- The new child is labelled with the name of its parent and one more byte. -/
theorem TrieOk.install {a : ℕ} {first : UInt8} (h : TrieOk trie) (ha : Live trie a) :
    TrieOk (installChild trie a first).2 where
  root := live_install first (Or.inl h.root)
  live x y c hedge := by
    rw [childOf_install ha] at hedge
    split at hedge
    · exact live_install first (Or.inr (Option.some.inj hedge).symm)
    · exact live_install first (Or.inl (h.live x y c hedge))
  labelled := by
    obtain ⟨label, hlabel⟩ := h.labelled
    refine ⟨Function.update label trie.next (label a ++ [first]), ?_, fun x y c hedge => ?_⟩
    · have hroot := h.root.lt_next
      rw [Function.update_of_ne (by omega), hlabel.root]
    · rw [childOf_install ha] at hedge
      split at hedge
      · rename_i hxy
        obtain ⟨rfl, rfl⟩ := hxy
        obtain rfl := Option.some.inj hedge
        have hlt := ha.lt_next
        rw [Function.update_self, Function.update_of_ne (by omega)]
      · have hx := lt_next_of_childOf hedge
        have hc := (h.live x y c hedge).lt_next
        rw [Function.update_of_ne (by omega), Function.update_of_ne (by omega)]
        exact hlabel.step x y c hedge

/-- `_get_trie_node` extends the trie by the missing nodes of the path it follows. -/
theorem getTrieNode_spec (name : List UInt8) (root : ℕ) (trie : Heap TrieNode) (h : TrieOk trie)
    (hroot : Live trie root) :
    let found := getTrieNode name root trie
    TrieOk found.2 ∧ TrieGrows trie found.2 ∧ Live found.2 found.1 ∧
      descend (childOf found.2) name root = some found.1 := by
  induction name generalizing root trie with
  | nil => exact ⟨h, .refl trie, hroot, rfl⟩
  | cons first name ih =>
    cases hchild : childOf trie root first with
    | some child =>
      have hgo : getTrieNode (first :: name) root trie = getTrieNode name child trie := by
        rw [getTrieNode]
        rw [childOf] at hchild
        rw [hchild]
      rw [hgo]
      obtain ⟨hok, hgrows, hlive, hpath⟩ := ih child trie h (h.live root first child hchild)
      refine ⟨hok, hgrows, hlive, ?_⟩
      exact Option.bind_eq_some_iff.mpr ⟨child, hgrows.edges.keep _ _ _ hchild, hpath⟩
    | none =>
      have hgo : getTrieNode (first :: name) root trie =
          getTrieNode name (installChild trie root first).1 (installChild trie root first).2 := by
        rw [getTrieNode]
        rw [childOf] at hchild
        rw [hchild]
      rw [hgo]
      obtain ⟨hok, hgrows, hlive, hpath⟩ := ih (installChild trie root first).1
        (installChild trie root first).2 (h.install hroot) (live_install first (Or.inr rfl))
      refine ⟨hok, (grows_install hroot hchild).trans hgrows, hlive, ?_⟩
      refine Option.bind_eq_some_iff.mpr ⟨_, hgrows.edges.keep _ _ _ ?_, hpath⟩
      rw [childOf_install hroot, if_pos ⟨rfl, rfl⟩]
      rfl

/-- A larger trie holds the same queues under the same names. -/
theorem TrieGrows.queueOf {store : Store} (h : TrieGrows store.trie trie') (name : List UInt8) :
    { store with trie := trie' }.queueOf name = store.queueOf name := by
  unfold Store.queueOf findNode
  cases hfound : descend (childOf store.trie) name poolRoot with
  | some a =>
    rw [h.edges.descend_keep name poolRoot a hfound]
    exact h.queue a
  | none =>
    cases hfound' : descend (childOf trie') name poolRoot with
    | none => rfl
    | some a =>
      rcases h.edges.descend_fresh name poolRoot a hfound' with hbefore | hnew
      · rw [hfound] at hbefore
        cases hbefore
      · refine (h.queue a).trans ?_
        rw [trieNode, store.trie.fresh a (Nat.le_of_not_lt hnew)]
        rfl

/-- The pool stays a map when only missing nodes are installed. -/
theorem PoolOk.grow {store : Store} (h : PoolOk store) (hok : TrieOk trie')
    (hgrows : TrieGrows store.trie trie') : PoolOk { store with trie := trie' } where
  trie := hok
  named name q hq := h.named name q ((hgrows.queueOf name).symm.trans hq)
  pooled q queue hq := (hgrows.queueOf queue.name).trans (h.pooled q queue hq)

/-- The shared lookup finds the node of the name in a larger trie. -/
theorem lookupNode_spec {store : Store} (h : PoolOk store) (name : List UInt8) :
    ∃ node trie', lookupNode name store = .ok (node, { store with trie := trie' }) ∧
      TrieOk trie' ∧ TrieGrows store.trie trie' ∧ Live trie' node ∧
      findNode trie' name = some node := by
  obtain ⟨hok, hgrows, hlive, hpath⟩ := getTrieNode_spec name poolRoot store.trie h.trie h.trie.root
  exact ⟨_, _, rfl, hok, hgrows, hlive, hpath⟩

/-- `get_queue` is a lookup. -/
theorem getQueue_spec {store : Store} (h : PoolOk store) (name : List UInt8) :
    ∃ trie', getQueue name store = .ok (store.queueOf name, { store with trie := trie' }) ∧
      TrieOk trie' ∧ TrieGrows store.trie trie' := by
  obtain ⟨node, trie', hlookup, hok, hgrows, -, hfound⟩ := lookupNode_spec h name
  refine ⟨trie', ?_, hok, hgrows⟩
  have hq : store.queueOf name = (trieNode trie' node).q := by
    rw [← hgrows.queueOf name, Store.queueOf, hfound]
    rfl
  rw [getQueue, bind_of_ok hlookup, hq]
  rfl

/-- `create_queue` of a name that has a queue is a lookup. -/
theorem createQueue_of_some {store : Store} (h : PoolOk store) {name : List UInt8} {q : ℕ}
    (hq : store.queueOf name = some q) :
    ∃ trie', createQueue name store = .ok (q, { store with trie := trie' }) ∧
      TrieOk trie' ∧ TrieGrows store.trie trie' := by
  obtain ⟨node, trie', hlookup, hok, hgrows, -, hfound⟩ := lookupNode_spec h name
  refine ⟨trie', ?_, hok, hgrows⟩
  have hnode : (trieNode trie' node).q = some q := by
    rw [← hq, ← hgrows.queueOf name, Store.queueOf, hfound]
    rfl
  rw [createQueue, bind_of_ok hlookup, read_bind_apply]
  simp only [hnode]
  rfl

/-- Setting the queue of a node changes no edge. -/
theorem childOf_setQueue (node : ℕ) (q : ℕ) :
    childOf (trie.modify node fun cell => { cell with q := some q }) = childOf trie := by
  funext a first
  simp only [childOf, trieNode, Heap.modify_cells]
  split
  · cases trie.cells a <;> rfl
  · rfl

/-- The queue of one node changes. -/
theorem trieNode_setQueue {node : ℕ} (hnode : Live trie node) (q a : ℕ) :
    (trieNode (trie.modify node fun cell => { cell with q := some q }) a).q =
      if a = node then some q else (trieNode trie a).q := by
  obtain ⟨cell, hcell⟩ := hnode
  simp only [trieNode, Heap.modify_cells]
  split
  · rename_i ha
    rw [ha, hcell]
    rfl
  · rfl

/-- The shape of the trie does not depend on its queues. -/
theorem TrieOk.setQueue (h : TrieOk trie) (node : ℕ) (q : ℕ) :
    TrieOk (trie.modify node fun cell => { cell with q := some q }) := by
  have hlive : ∀ a, Live trie a →
      Live (trie.modify node fun cell => { cell with q := some q }) a :=
    fun a ha => Heap.exists_modify_cells node _ ha
  refine ⟨hlive _ h.root, fun a first child hedge => ?_, ?_⟩
  · rw [childOf_setQueue] at hedge
    exact hlive child (h.live a first child hedge)
  · rw [childOf_setQueue]
    exact h.labelled

/-- `new_queue` of a name that fits. -/
theorem newQueue_of_fits {name : List UInt8} (hfits : name.length + 1 ≤ maxQueueName) (store : Store) :
    newQueue name store =
      .ok (store.queues.next, { store with queues := store.queues.alloc (.fresh name) }) :=
  if_pos hfits

/-- `new_queue` of a longer name writes past `queue.name`. -/
theorem newQueue_of_long {name : List UInt8} (hlong : ¬ name.length + 1 ≤ maxQueueName)
    (store : Store) : newQueue name store = .error .bufferRange :=
  if_neg hlong

/-- `new_queue` returns for a name that fits only. -/
theorem newQueue_eq_ok {store store' : Store} {name : List UInt8} {q : ℕ}
    (h : newQueue name store = .ok (q, store')) :
    name.length + 1 ≤ maxQueueName ∧ q = store.queues.next ∧
      store' = { store with queues := store.queues.alloc (.fresh name) } := by
  by_cases hfits : name.length + 1 ≤ maxQueueName
  · rw [newQueue_of_fits hfits] at h
    cases h
    exact ⟨hfits, rfl, rfl⟩
  · rw [newQueue_of_long hfits] at h
    cases h

/-- `create_queue` of a new name that is too long for `queue.name` writes past it. -/
theorem createQueue_of_long {store : Store} (h : PoolOk store) {name : List UInt8}
    (hq : store.queueOf name = none) (hlong : ¬ name.length + 1 ≤ maxQueueName) :
    createQueue name store = .error .bufferRange := by
  obtain ⟨node, trie', hlookup, -, hgrows, -, hfound⟩ := lookupNode_spec h name
  have hnode : (trieNode trie' node).q = none := by
    rw [← hq, ← hgrows.queueOf name, Store.queueOf, hfound]
    rfl
  rw [createQueue, bind_of_ok hlookup, read_bind_apply]
  simp only [hnode]
  exact bind_of_error (newQueue_of_long hlong _) _

/-- `create_queue` of a new name inserts a new queue, and touches no other name. -/
theorem createQueue_of_none {store : Store} (h : PoolOk store) {name : List UInt8}
    (hq : store.queueOf name = none) (hfits : name.length + 1 ≤ maxQueueName) :
    ∃ trie', createQueue name store = .ok (store.queues.next,
        { store with trie := trie', queues := store.queues.alloc (.fresh name) }) ∧
      TrieOk trie' ∧ ∀ queues name', Store.queueOf ⟨store.nodes, queues, trie'⟩ name' =
        if name' = name then some store.queues.next else store.queueOf name' := by
  obtain ⟨node, trie', hlookup, hok, hgrows, hlive, hfound⟩ := lookupNode_spec h name
  have hnode : (trieNode trie' node).q = none := by
    rw [← hq, ← hgrows.queueOf name, Store.queueOf, hfound]
    rfl
  refine ⟨_, ?_, hok.setQueue node store.queues.next, fun queues name' => ?_⟩
  · rw [createQueue, bind_of_ok hlookup, read_bind_apply]
    simp only [hnode]
    rw [bind_of_ok (newQueue_of_fits hfits _)]
    rfl
  · rw [← hgrows.queueOf name']
    simp only [Store.queueOf, findNode, childOf_setQueue]
    cases hfound' : descend (childOf trie') name' poolRoot with
    | none =>
      rw [if_neg]
      · rfl
      · rintro rfl
        rw [findNode, hfound'] at hfound
        cases hfound
    | some a =>
      simp only [Option.bind_some, trieNode_setQueue hlive]
      obtain ⟨label, hlabel⟩ := hok.labelled
      -- two names meet in a node only when they are the same name
      have hiff : a = node ↔ name' = name := by
        constructor
        · rintro rfl
          exact hlabel.descend_injective hfound' hfound
        · rintro rfl
          exact Option.some.inj (hfound'.symm.trans hfound)
      simp only [hiff]

/-- The pool stays a map when a queue is inserted. -/
theorem PoolOk.insert {store : Store} (h : PoolOk store) {name : List UInt8}
    (hq : store.queueOf name = none) (hok : TrieOk trie')
    (hlookup : ∀ queues name', Store.queueOf ⟨store.nodes, queues, trie'⟩ name' =
      if name' = name then some store.queues.next else store.queueOf name') :
    PoolOk { store with trie := trie', queues := store.queues.alloc (.fresh name) } where
  trie := hok
  named name' q hq' := by
    rw [hlookup] at hq'
    split at hq'
    · rename_i hname
      obtain rfl := Option.some.inj hq'
      exact ⟨_, Heap.alloc_cells_next _ _, hname.symm⟩
    · obtain ⟨queue, hcell, hname⟩ := h.named name' q hq'
      exact ⟨queue, Heap.alloc_cells_of_live _ hcell, hname⟩
  pooled q queue hcell := by
    rw [hlookup]
    simp only [Heap.alloc_cells] at hcell
    split at hcell
    · rename_i hnew
      obtain rfl := Option.some.inj hcell
      rw [hnew, Queue.fresh, if_pos rfl]
    · have hpooled := h.pooled q queue hcell
      rw [if_neg, hpooled]
      rintro rfl
      rw [hq] at hpooled
      cases hpooled

/-- Fields of a queue other than its name do not matter to the pool. -/
theorem PoolOk.congr {store store' : Store} (h : PoolOk store) (htrie : store'.trie = store.trie)
    (hqueues : ∀ q, (store'.queues.cells q).map Queue.name = (store.queues.cells q).map Queue.name) :
    PoolOk store' := by
  have hlookup : ∀ name, store'.queueOf name = store.queueOf name := by
    intro name
    rw [Store.queueOf, Store.queueOf, htrie]
  refine ⟨htrie ▸ h.trie, fun name q hq => ?_, fun q queue hcell => ?_⟩
  · obtain ⟨queue, hcell, hname⟩ := h.named name q ((hlookup name).symm.trans hq)
    have hmap := hqueues q
    rw [hcell, Option.map_some, hname] at hmap
    obtain ⟨queue', hcell', hname'⟩ := Option.map_eq_some_iff.mp hmap
    exact ⟨queue', hcell', hname'⟩
  · have hmap := hqueues q
    rw [hcell, Option.map_some] at hmap
    obtain ⟨queue', hcell', hname'⟩ := Option.map_eq_some_iff.mp hmap.symm
    rw [hlookup, ← hname']
    exact h.pooled q queue' hcell'

/-- Two names never share a queue. -/
theorem PoolOk.queueOf_injective {store : Store} (h : PoolOk store) {name name' : List UInt8} {p : ℕ}
    (hname : store.queueOf name = some p) (hname' : store.queueOf name' = some p) : name = name' := by
  obtain ⟨queue, hcell, heq⟩ := h.named name p hname
  obtain ⟨queue', hcell', heq'⟩ := h.named name' p hname'
  obtain rfl := Option.some.inj (hcell.symm.trans hcell')
  rw [← heq, heq']

/-- A lookup adds nodes to the trie and changes no answer. -/
structure LookedUp (store store' : Store) : Prop where
  pool : PoolOk store'
  nodes : store'.nodes = store.nodes
  queues : store'.queues = store.queues
  queueOf : ∀ name, store'.queueOf name = store.queueOf name

/-- An insertion adds an empty queue under a new name. -/
structure Inserted (store store' : Store) (name : List UInt8) (q : ℕ) : Prop where
  pool : PoolOk store'
  nodes : store'.nodes = store.nodes
  new : store.queueOf name = none
  fresh : q = store.queues.next
  queues : store'.queues = store.queues.alloc (.fresh name)
  queueOf : ∀ name', store'.queueOf name' = if name' = name then some q else store.queueOf name'
  fits : name.length + 1 ≤ maxQueueName

/-- `get_queue` returns the queue of the name and may install its path. -/
theorem getQueue_eq_ok {store store' : Store} {name : List UInt8} {q : Option ℕ} (hpool : PoolOk store)
    (h : getQueue name store = .ok (q, store')) :
    q = store.queueOf name ∧ LookedUp store store' := by
  obtain ⟨trie', hrun, hok, hgrows⟩ := getQueue_spec hpool name
  rw [h] at hrun
  cases hrun
  exact ⟨rfl, hpool.grow hok hgrows, rfl, rfl, hgrows.queueOf⟩

/-- `create_queue` returns the queue of the name or inserts a new one. -/
theorem createQueue_eq_ok {store store' : Store} {name : List UInt8} {q : ℕ} (hpool : PoolOk store)
    (h : createQueue name store = .ok (q, store')) :
    (store.queueOf name = some q ∧ LookedUp store store') ∨ Inserted store store' name q := by
  cases hq : store.queueOf name with
  | some q' =>
    obtain ⟨trie', hrun, hok, hgrows⟩ := createQueue_of_some hpool hq
    rw [h] at hrun
    cases hrun
    exact Or.inl ⟨rfl, hpool.grow hok hgrows, rfl, rfl, hgrows.queueOf⟩
  | none =>
    by_cases hfits : name.length + 1 ≤ maxQueueName
    · obtain ⟨trie', hrun, hok, hlookup⟩ := createQueue_of_none hpool hq hfits
      rw [h] at hrun
      cases hrun
      exact Or.inr ⟨hpool.insert hq hok hlookup, rfl, hq, rfl, rfl, hlookup _, hfits⟩
    · rw [createQueue_of_long hpool hq hfits] at h
      cases h

/-- `create_queue` returns a queue for every name that fits. -/
theorem createQueue_returns {store : Store} (hpool : PoolOk store) {name : List UInt8}
    (hfits : name.length + 1 ≤ maxQueueName) :
    ∃ q store', createQueue name store = .ok (q, store') := by
  cases hq : store.queueOf name with
  | some q =>
    obtain ⟨trie', hrun, -⟩ := createQueue_of_some hpool hq
    exact ⟨q, _, hrun⟩
  | none =>
    obtain ⟨trie', hrun, -⟩ := createQueue_of_none hpool hq hfits
    exact ⟨_, _, hrun⟩

/-- After `create_queue` the name has the queue that was returned. -/
theorem queueOf_createQueue {store store' : Store} {name : List UInt8} {q : ℕ} (hpool : PoolOk store)
    (h : createQueue name store = .ok (q, store')) : store'.queueOf name = some q := by
  rcases createQueue_eq_ok hpool h with ⟨hq, hlooked⟩ | hinserted
  · rw [hlooked.queueOf, hq]
  · rw [hinserted.queueOf, if_pos rfl]

/-- A declared name keeps its queue. -/
theorem Inserted.keeps {store store' : Store} {name name' : List UInt8} {q q' : ℕ}
    (h : Inserted store store' name q) (hq : store.queueOf name' = some q') :
    store'.queueOf name' = some q' := by
  rw [h.queueOf, if_neg, hq]
  rintro rfl
  rw [h.new] at hq
  cases hq

/-- The empty pool. -/
theorem poolOk_initQueuePool : PoolOk initQueuePool := by
  have hedge : ∀ a first, childOf initQueuePool.trie a first = none := by
    intro a first
    simp only [childOf, trieNode, initQueuePool, Heap.alloc_cells, Heap.empty]
    split <;> rfl
  have hqueue : ∀ a, (trieNode initQueuePool.trie a).q = none := by
    intro a
    simp only [trieNode, initQueuePool, Heap.alloc_cells, Heap.empty]
    split <;> rfl
  refine ⟨⟨⟨_, rfl⟩, fun a first child h => ?_, fun _ => [], rfl, fun a first child h => ?_⟩,
    fun name q h => ?_, fun q queue h => ?_⟩
  · rw [hedge] at h
    cases h
  · rw [hedge] at h
    cases h
  · obtain ⟨a, -, hq⟩ := Option.bind_eq_some_iff.mp h
    rw [hqueue] at hq
    cases hq
  · cases h

/-- The queue of a name depends on the trie only. -/
theorem queueOf_congr {store store' : Store} (htrie : store'.trie = store.trie) (name : List UInt8) :
    store'.queueOf name = store.queueOf name := by
  rw [Store.queueOf, Store.queueOf, htrie]

end AmqpBroker
