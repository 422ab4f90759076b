import AmqpBroker.Foundations.Custody
import AmqpBroker.Verification.Routing
import AmqpBroker.Verification.TriePaths
import Mathlib.Data.Set.Function

/-!
# Who owns the memory

Every cell that the connections share belongs to a name: the trie node at its end, the queue
of that node, and the messages of that queue. No step of the broker leaves a cell without an
owner or with two, so nothing that was allocated is ever out of reach of the pool, and the
trie has grown by the prefixes of the names that were looked up, declared or not.
-/

namespace AmqpBroker

open Foundations Program MachineState

/-- A cell of the shared memory. -/
inductive Cell where
  | trieNode (a : ℕ)
  | queue (p : ℕ)
  | node (n : ℕ)
  deriving DecidableEq, Repr

/-- The cell is allocated. -/
def Store.Allocated (store : Store) : Cell → Prop
  | .trieNode a => Live store.trie a
  | .queue p => Live store.queues p
  | .node n => Live store.nodes n

/-- The cell belongs to the name. -/
def Store.Owns (store : Store) (cell : Cell) (name : List UInt8) : Prop :=
  match cell with
  | .trieNode a => findNode store.trie name = some a
  | .queue p => store.queueOf name = some p
  | .node n => n ∈ (store.contents name).map Prod.fst

/-- Every trie node and every message is in reach. -/
structure Tallied (store : Store) : Prop where
  trie : TrieFull store.trie
  nodes : ∀ n, Live store.nodes n → ∃ p, n ∈ (store.messages p).map Prod.fst

variable {store store' : Store} {lists : ℕ → List ℕ} {name : List UInt8} {n p : ℕ} {queue : Queue}
  {s s' : Broker} {t : ℤ} {c : Conn} {m m' : MachineState} {w w' : World} {point point' : DequeuePoint}
  {grain : Grain}

/-- The messages of a queue are the nodes of its list. -/
theorem Lists.mem_messages (h : Lists store lists) :
    n ∈ (store.messages p).map Prod.fst ↔ n ∈ lists p := by
  rw [h.messages_eq, bodiesAt]
  constructor
  · intro hmem
    obtain ⟨⟨a, body⟩, hentry, rfl⟩ := List.mem_map.mp hmem
    obtain ⟨b, hb, hcell⟩ := List.mem_filterMap.mp hentry
    obtain ⟨node, -, heq⟩ := Option.map_eq_some_iff.mp hcell
    cases heq
    exact hb
  · intro hmem
    obtain ⟨node, hcell⟩ := h.live hmem
    refine List.mem_map.mpr ⟨(n, node.body), List.mem_filterMap.mpr ⟨n, hmem, ?_⟩, rfl⟩
    rw [hcell]
    rfl

/-- A message belongs to a queue that has a name. -/
theorem exists_name_of_message (hpool : PoolOk store) (hn : n ∈ (store.messages p).map Prod.fst) :
    ∃ name, store.queueOf name = some p := by
  cases hcell : store.queues.cells p with
  | none =>
    rw [messages_of_none hcell] at hn
    cases hn
  | some queue => exact ⟨queue.name, hpool.pooled p queue hcell⟩

/-- A node belongs to the name in whose queue it is linked. -/
theorem owns_node_iff : store.Owns (.node n) name ↔
    ∃ p, store.queueOf name = some p ∧ n ∈ (store.messages p).map Prod.fst := by
  rw [Store.Owns]
  cases hq : store.queueOf name with
  | none => simp [contents_of_none hq]
  | some p => simp [contents_of_some hq]

/-- Every allocated cell belongs to exactly one name, and what belongs to a name is allocated. -/
theorem placed_of_tallied (hpool : PoolOk store) (hlists : ListsOk store)
    (h : Tallied store) : Placed store.Allocated store.Owns := by
  obtain ⟨lists, hlists⟩ := hlists
  refine ⟨fun cell name howns => ?_, fun cell hlive => ?_⟩
  · cases cell with
    | trieNode a => exact hpool.trie.live_findNode howns
    | queue p =>
      obtain ⟨queue, hcell, -⟩ := hpool.named name p howns
      exact ⟨queue, hcell⟩
    | node n =>
      obtain ⟨p, -, hn⟩ := owns_node_iff.mp howns
      exact hlists.live (hlists.mem_messages.mp hn)
  · cases cell with
    | trieNode a =>
      obtain ⟨path, hpath⟩ := h.trie a hlive
      exact ⟨path, hpath, fun other hother => hpool.trie.findNode_injective hother hpath⟩
    | queue p =>
      obtain ⟨queue, hcell⟩ := hlive
      have hname := hpool.pooled p queue hcell
      exact ⟨queue.name, hname, fun other hother => hpool.queueOf_injective hother hname⟩
    | node n =>
      obtain ⟨p, hn⟩ := h.nodes n hlive
      obtain ⟨name, hname⟩ := exists_name_of_message hpool hn
      refine ⟨name, owns_node_iff.mpr ⟨p, hname, hn⟩, fun other hother => ?_⟩
      obtain ⟨p', hother, hn'⟩ := owns_node_iff.mp hother
      obtain rfl := hlists.disjoint p' p n (hlists.mem_messages.mp hn') (hlists.mem_messages.mp hn)
      exact hpool.queueOf_injective hother hname

/-- In the fresh pool every node is in reach, and there is no message. -/
theorem tallied_initQueuePool : Tallied initQueuePool := by
  refine ⟨fun a ha => ?_, fun n hn => ?_⟩
  · refine ⟨[], ?_⟩
    have hlt := ha.lt_next
    rw [findNode_nil, show a = poolRoot from Nat.lt_one_iff.mp hlt]
  · obtain ⟨node, hcell⟩ := hn
    cases hcell

/-- Neither links nor contents change. -/
theorem Tallied.sameLists (h : Tallied store) (hsame : SameLists store store') :
    Tallied store' := by
  refine ⟨by rw [hsame.trie]; exact h.trie, fun n hn => ?_⟩
  rw [hsame.nodes] at hn
  obtain ⟨p, hmem⟩ := h.nodes n hn
  exact ⟨p, by rw [hsame.messages]; exact hmem⟩

/-- A lookup adds trie nodes only. -/
theorem Tallied.lookup (h : Tallied store) (hlooked : LookedUp store store')
    (hpaths : PathsAdded store.trie store'.trie name) : Tallied store' := by
  refine ⟨hpaths.full, fun n hn => ?_⟩
  rw [hlooked.nodes] at hn
  obtain ⟨p, hmem⟩ := h.nodes n hn
  refine ⟨p, ?_⟩
  rw [Store.messages, hlooked.queues, hlooked.nodes]
  exact hmem

/-- A new queue has no messages. -/
theorem Tallied.insert {q : ℕ} (h : Tallied store) (hinserted : Inserted store store' name q)
    (hpaths : PathsAdded store.trie store'.trie name) : Tallied store' := by
  refine ⟨hpaths.full, fun n hn => ?_⟩
  rw [hinserted.nodes] at hn
  obtain ⟨p, hmem⟩ := h.nodes n hn
  refine ⟨p, ?_⟩
  have hstore : store' =
      { store with trie := store'.trie, queues := store.queues.alloc (.fresh name) } := by
    rw [← hinserted.nodes, ← hinserted.queues]
  rw [hstore, messages_insert]
  exact hmem

/-- The new node of `q_enqueue` is in its queue. -/
theorem Tallied.enqueue {q : Option ℕ} {body : List UInt8} {node : ℕ} (h : Tallied store)
    (hlists : ListsOk store) (hrun : qEnqueue q body store = .ok (node, store')) :
    Tallied store' := by
  obtain ⟨p, queue, rfl, hcell, hstore⟩ := qEnqueue_queues hlists hrun
  obtain ⟨p', hq, -, henqueued⟩ := qEnqueue_eq_ok hlists hrun
  cases hq
  refine ⟨by rw [henqueued.rings.trie]; exact h.trie, fun n hn => ?_⟩
  have hold : n = store.nodes.next ∨ Live store.nodes n := by
    rw [hstore] at hn
    obtain ⟨value, hcell⟩ := hn
    rw [enqueuedStore, enqueuedNodes_cells, Heap.alloc_cells] at hcell
    by_cases hnew : n = store.nodes.next
    · exact Or.inl hnew
    · rw [if_neg hnew] at hcell
      refine Or.inr ?_
      split at hcell
      · obtain ⟨node, hnode, -⟩ := Option.map_eq_some_iff.mp hcell
        exact ⟨node, hnode⟩
      · exact ⟨value, hcell⟩
  rcases hold with rfl | hlive
  · refine ⟨p, ?_⟩
    rw [henqueued.messages, henqueued.fresh]
    simp
  · obtain ⟨p', hmem⟩ := h.nodes n hlive
    refine ⟨p', ?_⟩
    by_cases hp : p' = p
    · subst hp
      rw [henqueued.messages, List.map_append]
      exact List.mem_append_left _ hmem
    · rw [henqueued.others p' hp]
      exact hmem

/-- `q_dequeue` frees the node that it unlinks. -/
theorem Tallied.dequeue {taken : Option (ℕ × List UInt8)} (h : Tallied store)
    (hlists : ListsOk store) (hcell : store.queues.cells p = some queue)
    (hrun : qDequeue (some p) store = .ok (taken, store')) : Tallied store' := by
  obtain ⟨p', hq, -, hdequeued⟩ := qDequeue_eq_ok hlists hrun
  cases hq
  rcases qDequeue_store hlists hcell hrun with ⟨-, -, rfl⟩ | ⟨last, node, rfl, -, -, hstore⟩
  · exact h
  · refine ⟨by rw [hdequeued.rings.trie]; exact h.trie, fun n hn => ?_⟩
    rw [hstore] at hn
    obtain ⟨value, hcell'⟩ := hn
    rw [dequeuedStore, Heap.free_cells] at hcell'
    split at hcell'
    · cases hcell'
    · rename_i hne
      obtain ⟨p', hmem⟩ := h.nodes n ⟨value, hcell'⟩
      refine ⟨p', ?_⟩
      by_cases hp : p' = p
      · subst hp
        rw [hdequeued.messages, List.map_append] at hmem
        rcases List.mem_append.mp hmem with hlast | hrest
        · simp only [Option.toList_some, List.map_cons, List.map_nil, List.mem_singleton] at hlast
          exact absurd hlast hne
        · exact hrest
      · rw [hdequeued.others p' hp]
        exact hmem

/-- The name that `create_queue` or `get_queue` was called with. -/
def lookupName : Event → Option (List UInt8)
  | .createQueue name _ => some name
  | .getQueue name _ => some name
  | _ => none

/-- A quiet call looks no name up. -/
theorem Event.IsQuiet.noLookup {event : Event} (h : event.IsQuiet) : lookupName event = none := by
  rcases h with ⟨method, rfl⟩ | ⟨bytes, rfl⟩ <;> rfl

namespace Broker

/-- A thread has looked the name up. -/
def LookedUp (s : Broker) (name : List UInt8) : Prop :=
  ∃ entry ∈ s.history, lookupName entry.2 = some name

/-- The memory is accounted for, and the trie holds the names that were looked up. -/
structure Inventoried (s : Broker) : Prop where
  store : Tallied s.store
  paths : ∀ path, HasPath s.store.trie path ↔
    path = [] ∨ ∃ name, s.LookedUp name ∧ path <+: name

/-- The names looked up after a step. -/
theorem lookedUp_commit {name : List UInt8} :
    (s.commit t m point w).LookedUp name ↔
      s.LookedUp name ∨ ∃ event ∈ w.trace, lookupName event = some name := by
  constructor
  · rintro ⟨entry, hentry, hname⟩
    rcases List.mem_append.mp hentry with hold | hnew
    · exact Or.inl ⟨entry, hold, hname⟩
    · obtain ⟨event, hevent, rfl⟩ := List.mem_map.mp hnew
      exact Or.inr ⟨event, hevent, hname⟩
  · rintro (⟨entry, hentry, hname⟩ | ⟨event, hevent, hname⟩)
    · exact ⟨entry, List.mem_append_left _ hentry, hname⟩
    · exact ⟨(t, event), List.mem_append_right _ (List.mem_map_of_mem hevent), hname⟩

/-- A step that looks nothing up. -/
theorem Inventoried.commit_silent (h : s.Inventoried) (hstore : Tallied w.store)
    (htrie : w.store.trie = s.store.trie) (hevents : ∀ event ∈ w.trace, lookupName event = none) :
    (s.commit t m point w).Inventoried := by
  refine ⟨hstore, fun path => ?_⟩
  have hlooked : ∀ name, (s.commit t m point w).LookedUp name ↔ s.LookedUp name := by
    intro name
    rw [lookedUp_commit, or_iff_left]
    rintro ⟨event, hevent, hname⟩
    rw [hevents event hevent] at hname
    cases hname
  simp only [hlooked]
  rw [← h.paths path]
  exact iff_of_eq (congrArg (HasPath · path) htrie)

/-- A step that looks one name up. -/
theorem Inventoried.commit_lookup {name : List UInt8} {first second : Event} (h : s.Inventoried)
    (hstore : Tallied w.store) (hpaths : PathsAdded s.store.trie w.store.trie name)
    (htrace : Recorded (s.world c) w [first, second]) (hfirst : lookupName first = none)
    (hsecond : lookupName second = some name) : (s.commit t m point w).Inventoried := by
  obtain ⟨reads, hevents, hreads⟩ := htrace
  have hlooked : ∀ name', (s.commit t m point w).LookedUp name' ↔ s.LookedUp name' ∨ name' = name := by
    intro name'
    rw [lookedUp_commit, hevents]
    refine or_congr_right ⟨?_, ?_⟩
    · rintro ⟨event, hevent, hname⟩
      simp only [world, List.nil_append, List.mem_append, List.mem_cons, List.not_mem_nil,
        or_false] at hevent
      rcases hevent with hread | rfl | rfl
      · rw [(hreads event hread).noLookup] at hname
        cases hname
      · rw [hfirst] at hname
        cases hname
      · rw [hsecond] at hname
        exact (Option.some.inj hname).symm
    · rintro rfl
      exact ⟨second, by simp, hsecond⟩
  refine ⟨hstore, fun path => (hpaths.paths path).trans ?_⟩
  rw [h.paths path, or_assoc]
  refine or_congr_right ⟨?_, ?_⟩
  · rintro (⟨name', hname', hshort⟩ | hshort)
    · exact ⟨name', (hlooked name').mpr (Or.inl hname'), hshort⟩
    · exact ⟨name, (hlooked name).mpr (Or.inr rfl), hshort⟩
  · rintro ⟨name', hname', hshort⟩
    rcases (hlooked name').mp hname' with hold | rfl
    · exact Or.inl ⟨name', hold, hshort⟩
    · exact Or.inr hshort

/-- A handler keeps the inventory. -/
theorem Inventoried.handler (h : s.Inventoried) (hok : s.Ok)
    (heffect : Effect c.machine (s.world c) w' m') : (s.commit t m' point w').Inventoried := by
  have hring : ∀ {α : Type} {f : RoundRobinScheduler → Except Abort (α × RoundRobinScheduler)}
      {a : α}, onRing c.cs.currentQueue f s.store = .ok (a, w'.store) →
        SameLists s.store w'.store := by
    intro α f a hrun
    obtain ⟨p, queue, rr, -, -, -, hstore⟩ := onRing_eq_ok hrun
    rw [hstore]
    exact sameLists_withRing s.store p rr
  cases heffect with
  | quiet _ hgrows =>
    obtain ⟨events, htrace, hquiet⟩ := hgrows.trace
    refine h.commit_silent (by rw [hgrows.store]; exact h.store) (by rw [hgrows.store]; rfl) ?_
    rw [htrace]
    exact fun event hevent => (hquiet event hevent).noLookup
  | declare _ _ hcreate hrecorded =>
    have hpaths := createQueue_paths hok.pool h.store.trie hcreate
    refine h.commit_lookup ?_ hpaths hrecorded rfl rfl
    rcases createQueue_eq_ok hok.pool hcreate with ⟨-, hlooked⟩ | hinserted
    · exact h.store.lookup hlooked hpaths
    · exact h.store.insert hinserted hpaths
  | publish _ _ hget hrecorded | consume _ _ hget hrecorded =>
    have hpaths := getQueue_paths hok.pool h.store.trie hget
    exact h.commit_lookup (h.store.lookup (getQueue_eq_ok hok.pool hget).2 hpaths) hpaths
      hrecorded rfl rfl
  | enqueue _ _ hrun htrace =>
    obtain ⟨p, -, -, henqueued⟩ := qEnqueue_eq_ok hok.lists hrun
    refine h.commit_silent (h.store.enqueue hok.lists hrun) henqueued.rings.trie ?_
    rw [htrace]
    simp [world, lookupName]
  | subscribe _ _ hrun htrace hframes =>
    have hlists := hring hrun
    refine h.commit_silent (h.store.sameLists hlists) hlists.trie ?_
    rw [htrace]
    intro event hevent
    simp only [world, List.nil_append, List.mem_append, List.mem_singleton] at hevent
    rcases hevent with rfl | hframe
    · rfl
    · obtain ⟨bytes, rfl⟩ := hframes event hframe
      rfl
  | ack _ _ hstore htrace =>
    refine h.commit_silent (by rw [hstore]; exact h.store) (by rw [hstore]; rfl) ?_
    rw [htrace]
    simp [world, lookupName]
  | reject _ _ hrun htrace hreads =>
    have hlists := hring hrun
    refine h.commit_silent (h.store.sameLists hlists) hlists.trie ?_
    rw [htrace]
    intro event hevent
    simp only [world, List.nil_append, List.mem_append, List.mem_singleton] at hevent
    rcases hevent with hread | rfl
    · obtain ⟨method, rfl, -⟩ := hreads event hread
      rfl
    · rfl

/-- A step inside `q_dequeue_rr` keeps the inventory. -/
theorem Inventoried.dequeue (h : s.Inventoried) (hok : s.Ok)
    (hcell : s.store.queues.cells p = some queue)
    (heffect : DequeueEffect grain p queue (s.world c) w' point m' point') :
    (s.commit t m' point' w').Inventoried := by
  rcases dequeueEffect_kind hcell heffect with ⟨-, hsleepers, -, -, htrace⟩ |
    ⟨-, -, taken, hrun, -, -, htrace⟩ | ⟨-, -, next, rr, -, rfl⟩
  · refine h.commit_silent (h.store.sameLists hsleepers.lists) hsleepers.lists.trie ?_
    rw [htrace]
    simp [world]
  · obtain ⟨p', -, -, hdequeued⟩ := qDequeue_eq_ok hok.lists hrun
    refine h.commit_silent (h.store.dequeue hok.lists hcell hrun) hdequeued.rings.trie ?_
    rw [htrace]
    simp [world, lookupName]
  · have hlists := sameLists_withRing s.store p rr
    exact h.commit_silent (h.store.sameLists hlists) hlists.trie (by simp [world])

/-- Every step keeps the inventory. -/
theorem Inventoried.step {act : Act} (h : s.Inventoried) (hok : s.Ok)
    (hstep : Broker.step grain s act = .ok s') : s'.Inventoried := by
  cases step_cases hstep with
  | accept _ _ _ hs' =>
    rw [hs']
    exact ⟨h.store, h.paths⟩
  | handler _ _ heffect hs' =>
    rw [hs']
    exact h.handler hok heffect
  | dequeue _ _ _ hcell heffect hs' =>
    rw [hs']
    exact h.dequeue hok hcell heffect
  | close _ _ hs' =>
    rw [hs']
    exact ⟨h.store, h.paths⟩
  | spurious _ _ _ hcell hwoken hs' =>
    rw [hs']
    have hlists := (hwoken.sameButSleepers hcell).lists
    exact h.commit_silent (h.store.sameLists hlists) hlists.trie (by simp [world])

/-- The inventory of a fresh pool. -/
theorem inventoried_initial : initial.Inventoried := by
  refine ⟨tallied_initQueuePool, fun path => ?_⟩
  constructor
  · rintro ⟨a, ha⟩
    cases path with
    | nil => exact Or.inl rfl
    | cons first rest => cases ha
  · rintro (rfl | ⟨name, ⟨entry, hentry, -⟩, -⟩)
    · exact ⟨poolRoot, findNode_nil _⟩
    · cases hentry

/-- The inventory holds in every state that is reached. -/
theorem inventoried_of_reaches {guard : Broker → Act → Prop}
    (h : Reaches (Broker.step grain) guard initial s) : s.Inventoried :=
  (h.invariant (P := fun s => s.Ok ∧ s.Inventoried) ⟨ok_initial, inventoried_initial⟩
    fun _ _ _ hinv _ hstep => ⟨hinv.1.step hstep, hinv.2.step hinv.1 hstep⟩).2

/-- In every reachable state each allocated cell belongs to exactly one name, and what belongs
to a name is allocated: nothing leaks, nothing is shared and nothing dangles. -/
theorem every_cell_owned {guard : Broker → Act → Prop}
    (h : Reaches (Broker.step grain) guard initial s) : Placed s.store.Allocated s.store.Owns :=
  placed_of_tallied (ok_of_reaches h).pool (ok_of_reaches h).lists (inventoried_of_reaches h).store

/-- A message that was consumed is freed, and the one behind it still belongs to the name. -/
theorem every_cell_owned_consumeOneOfTwo :
    ∃ s, exec (Broker.step .fine) initial consumeOneOfTwo = .ok s ∧
      ¬ s.store.Allocated (.node 0) ∧ s.store.Owns (.node 1) [113] ∧
      Placed s.store.Allocated s.store.Owns := by
  have hobserved : (exec (Broker.step .fine) initial consumeOneOfTwo).toOption.map
      (fun s => ((s.store.nodes.cells 0).isNone, (s.store.contents [113]).map Prod.fst)) =
        some (true, [1]) := by decide +kernel
  obtain ⟨s, hrun, hview⟩ := exec_observed hobserved
  obtain ⟨hfreed, hcontents⟩ := Prod.mk.inj hview
  refine ⟨s, hrun, fun ⟨node, hnode⟩ => ?_, ?_, every_cell_owned (reaches_of_exec hrun)⟩
  · rw [hnode] at hfreed
    cases hfreed
  · rw [Store.Owns, hcontents]
    exact List.mem_singleton_self 1

/-- In every reachable state the trie has one node for each prefix of a name that was looked
up, declared or not, and no other node. -/
theorem trie_nodes_bijOn {guard : Broker → Act → Prop}
    (h : Reaches (Broker.step grain) guard initial s) :
    Set.BijOn (fun path => (findNode s.store.trie path).getD poolRoot)
      {path | path = [] ∨ ∃ name, s.LookedUp name ∧ path <+: name} {a | Live s.store.trie a} := by
  have hok := ok_of_reaches h
  have hacc := inventoried_of_reaches h
  have hnode : ∀ path, path = [] ∨ (∃ name, s.LookedUp name ∧ path <+: name) →
      findNode s.store.trie path = some ((findNode s.store.trie path).getD poolRoot) := by
    intro path hpath
    obtain ⟨a, ha⟩ := (hacc.paths path).mpr hpath
    rw [ha]
    rfl
  refine ⟨fun path hpath => hok.pool.trie.live_findNode (hnode path hpath),
    fun path hpath other hother heq => ?_, fun a ha => ?_⟩
  · have heq' : (findNode s.store.trie path).getD poolRoot =
      (findNode s.store.trie other).getD poolRoot := heq
    have hfound := hnode path hpath
    rw [heq'] at hfound
    exact hok.pool.trie.findNode_injective hfound (hnode other hother)
  · obtain ⟨path, hpath⟩ := hacc.store.trie a ha
    exact ⟨path, (hacc.paths path).mp ⟨a, hpath⟩, by simp only [hpath, Option.getD_some]⟩

/-- Publishing to a name that nobody declared leaves its nodes in the trie. -/
def publishBesideDeclared : List Act :=
  session 0 (openingFrames ++ declareFrame [113] ++ publishFrame [] [113, 200]) 12

/-- A name that is only looked up leaves its node behind. -/
theorem trie_nodes_bijOn_publishBesideDeclared :
    ∃ s, exec (Broker.step .fine) initial publishBesideDeclared = .ok s ∧
      s.store.queueOf [113, 200] = none ∧ s.store.trie.next = 3 ∧
      Set.BijOn (fun path => (findNode s.store.trie path).getD poolRoot)
        {path | path = [] ∨ ∃ name, s.LookedUp name ∧ path <+: name}
        {a | Live s.store.trie a} := by
  have hobserved : (exec (Broker.step .fine) initial publishBesideDeclared).toOption.map
      (fun s => (s.store.queueOf [113, 200], s.store.trie.next)) = some (none, 3) := by
    decide +kernel
  obtain ⟨s, hrun, hview⟩ := exec_observed hobserved
  obtain ⟨hq, hnext⟩ := Prod.mk.inj hview
  exact ⟨s, hrun, hq, hnext, trie_nodes_bijOn (reaches_of_exec hrun)⟩

end Broker

end AmqpBroker
