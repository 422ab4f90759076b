import AmqpBroker.Verification.Ownership

/-!
# Giving the memory back

`free_pool` walks the trie from the children of the root down, so it gives back what belongs
to the names other than the empty one: each cell once, and reading no cell that it has given
back. The root is the pool itself; the queue of the empty name hangs there and stays.
-/

namespace AmqpBroker

open Foundations Program

/-- Exactly these cells of a store were given back. -/
structure Reclaimed (gone : Cell → Prop) (store store' : Store) : Prop where
  freed : ∀ cell, gone cell → ¬ store'.Allocated cell
  trie : ∀ a, ¬ gone (.trieNode a) → store'.trie.cells a = store.trie.cells a
  queues : ∀ p, ¬ gone (.queue p) → store'.queues.cells p = store.queues.cells p
  nodes : ∀ n, ¬ gone (.node n) → store'.nodes.cells n = store.nodes.cells n
  next : store'.nodes.next = store.nodes.next

/-- The cells that belong to the names behind a path. -/
def Store.Below (store : Store) (path : List UInt8) (cell : Cell) : Prop :=
  ∃ name, path <+: name ∧ store.Owns cell name

variable {store store' store'' : Store} {gone gone' : Cell → Prop} {lists : ℕ → List ℕ}
  {path name : List UInt8} {a p n : ℕ} {queue : Queue} {cell : Cell}

/-- `free` takes one cell. -/
theorem live_free {α : Type} {heap : Heap α} {b : ℕ} :
    Live (heap.free a) b ↔ b ≠ a ∧ Live heap b := by
  simp only [Live, Heap.free_cells]
  split <;> simp [*]

namespace Reclaimed

/-- Nothing is given back in untouched memory. -/
theorem refl (store : Store) : Reclaimed (fun _ => False) store store where
  freed _ h := h.elim
  trie _ _ := rfl
  queues _ _ := rfl
  nodes _ _ := rfl
  next := rfl

/-- The same cells given back, described in another way. -/
theorem congr (h : Reclaimed gone store store') (hgone : ∀ cell, gone' cell ↔ gone cell) :
    Reclaimed gone' store store' where
  freed cell hcell := h.freed cell ((hgone cell).mp hcell)
  trie a ha := h.trie a fun hcell => ha ((hgone _).mpr hcell)
  queues p hp := h.queues p fun hcell => hp ((hgone _).mpr hcell)
  nodes n hn := h.nodes n fun hcell => hn ((hgone _).mpr hcell)
  next := h.next

/-- What is allocated afterwards. -/
theorem allocated_iff (h : Reclaimed gone store store') :
    store'.Allocated cell ↔ store.Allocated cell ∧ ¬ gone cell := by
  by_cases hgone : gone cell
  · exact ⟨fun hlive => absurd hlive (h.freed cell hgone), fun hlive => absurd hgone hlive.2⟩
  · rw [and_iff_left hgone]
    cases cell with
    | trieNode a => simp only [Store.Allocated, Live, h.trie a hgone]
    | queue p => simp only [Store.Allocated, Live, h.queues p hgone]
    | node n => simp only [Store.Allocated, Live, h.nodes n hgone]

/-- A node is given back. -/
theorem freeNode (h : Reclaimed gone store store') (n : ℕ) :
    Reclaimed (fun cell => gone cell ∨ cell = .node n) store
      { store' with nodes := store'.nodes.free n } where
  freed cell hcell hlive := by
    cases cell with
    | trieNode a => exact h.freed (.trieNode a) (by simpa using hcell) hlive
    | queue p => exact h.freed (.queue p) (by simpa using hcell) hlive
    | node b =>
      obtain ⟨hne, hlive⟩ := live_free.mp hlive
      exact h.freed (.node b) (by simpa [hne] using hcell) hlive
  trie a ha := h.trie a fun hcell => ha (Or.inl hcell)
  queues p hp := h.queues p fun hcell => hp (Or.inl hcell)
  nodes b hb := by
    have hne : b ≠ n := fun heq => hb (Or.inr (congrArg Cell.node heq))
    exact (Heap.free_cells_ne _ hne).trans (h.nodes b fun hcell => hb (Or.inl hcell))
  next := h.next

/-- A queue is given back. -/
theorem freeQueue (h : Reclaimed gone store store') (p : ℕ) :
    Reclaimed (fun cell => gone cell ∨ cell = .queue p) store
      { store' with queues := store'.queues.free p } where
  freed cell hcell hlive := by
    cases cell with
    | trieNode a => exact h.freed (.trieNode a) (by simpa using hcell) hlive
    | node n => exact h.freed (.node n) (by simpa using hcell) hlive
    | queue b =>
      obtain ⟨hne, hlive⟩ := live_free.mp hlive
      exact h.freed (.queue b) (by simpa [hne] using hcell) hlive
  trie a ha := h.trie a fun hcell => ha (Or.inl hcell)
  nodes n hn := h.nodes n fun hcell => hn (Or.inl hcell)
  queues b hb := by
    have hne : b ≠ p := fun heq => hb (Or.inr (congrArg Cell.queue heq))
    exact (Heap.free_cells_ne _ hne).trans (h.queues b fun hcell => hb (Or.inl hcell))
  next := h.next

/-- A trie node is given back. -/
theorem freeTrieNode (h : Reclaimed gone store store') (a : ℕ) :
    Reclaimed (fun cell => gone cell ∨ cell = .trieNode a) store
      { store' with trie := store'.trie.free a } where
  freed cell hcell hlive := by
    cases cell with
    | queue p => exact h.freed (.queue p) (by simpa using hcell) hlive
    | node n => exact h.freed (.node n) (by simpa using hcell) hlive
    | trieNode b =>
      obtain ⟨hne, hlive⟩ := live_free.mp hlive
      exact h.freed (.trieNode b) (by simpa [hne] using hcell) hlive
  queues p hp := h.queues p fun hcell => hp (Or.inl hcell)
  nodes n hn := h.nodes n fun hcell => hn (Or.inl hcell)
  trie b hb := by
    have hne : b ≠ a := fun heq => hb (Or.inr (congrArg Cell.trieNode heq))
    exact (Heap.free_cells_ne _ hne).trans (h.trie b fun hcell => hb (Or.inl hcell))
  next := h.next

end Reclaimed

/-- The loop of `free_queue` gives the rest of the list back, reading each node before it does. -/
theorem freeNodes_reclaims {start : Option ℕ} {addresses : List ℕ} {steps : ℕ}
    (hchain : Chain store.nodes QNode.parent start addresses) (hnodup : addresses.Nodup)
    (hsteps : addresses.length ≤ steps) (h : Reclaimed gone store store')
    (hkept : ∀ n ∈ addresses, ¬ gone (.node n)) :
    ∃ store'', freeNodes steps start store' = .ok ((), store'') ∧
      Reclaimed (fun cell => gone cell ∨ ∃ n ∈ addresses, cell = .node n) store store'' := by
  induction hchain generalizing steps store' gone with
  | nil =>
    refine ⟨store', ?_, h.congr fun cell => by simp⟩
    cases steps <;> rfl
  | @cons b node addresses hcell _ ih =>
    obtain ⟨hnotMem, hnodup⟩ := List.nodup_cons.mp hnodup
    obtain ⟨steps, rfl⟩ := Nat.exists_eq_succ_of_ne_zero
      (by simp only [List.length_cons] at hsteps; omega : steps ≠ 0)
    have hsteps : addresses.length ≤ steps := by
      simpa only [List.length_cons, Nat.succ_eq_add_one, Nat.add_le_add_iff_right] using hsteps
    have hread : derefNode b store' = .ok (node, store') :=
      derefNode_of_cell ((h.nodes b (hkept b List.mem_cons_self)).trans hcell)
    obtain ⟨store'', hrun, hreclaimed⟩ := ih hnodup hsteps (h.freeNode b) fun n hn => by
        rintro (hgone | heq)
        · exact hkept n (List.mem_cons_of_mem b hn) hgone
        · obtain rfl := Cell.node.inj heq
          exact hnotMem hn
    refine ⟨store'', ?_, hreclaimed.congr fun cell => ?_⟩
    · rw [freeNodes, bind_of_ok hread, update_bind_apply]
      exact hrun
    · simp only [List.mem_cons, exists_eq_or_imp, or_assoc]

/-- `free_queue` gives back the queue and the nodes of its list. -/
theorem freeQueue_reclaims (hlists : Lists store lists) (hcell : store.queues.cells p = some queue)
    (h : Reclaimed gone store store') (hqueue : ¬ gone (.queue p))
    (hkept : ∀ n ∈ lists p, ¬ gone (.node n)) :
    ∃ store'', freeQueue (some p) store' = .ok ((), store'') ∧
      Reclaimed (fun cell => gone cell ∨ (∃ n ∈ lists p, cell = .node n) ∨ cell = .queue p)
        store store'' := by
  have hlinked := hlists.linked p queue hcell
  have hsteps : (lists p).length ≤ store'.nodes.next := by
    rw [h.next]
    exact hlinked.chain.length_le_next hlinked.nodup
  obtain ⟨store'', hrun, hreclaimed⟩ :=
    freeNodes_reclaims hlinked.chain hlinked.nodup hsteps h hkept
  refine ⟨_, ?_, (hreclaimed.freeQueue p).congr fun cell => by rw [or_assoc]⟩
  rw [freeQueue, bind_of_ok (derefQueue_of_cell ((h.queues p hqueue).trans hcell))]
  simp only [read_bind_apply]
  rw [bind_of_ok hrun]
  rfl

/-- A name that owns a cell has its trie node. -/
theorem hasPath_of_owns (howns : store.Owns cell name) : HasPath store.trie name := by
  have hqueue : ∀ p, store.queueOf name = some p → HasPath store.trie name := by
    intro p hq
    obtain ⟨a, ha, -⟩ := Option.bind_eq_some_iff.mp hq
    exact ⟨a, ha⟩
  cases cell with
  | trieNode a => exact ⟨a, howns⟩
  | queue p => exact hqueue p howns
  | node n =>
    obtain ⟨p, hq, -⟩ := owns_node_iff.mp howns
    exact hqueue p hq

/-- What the node of a name holds besides its children. -/
theorem owns_iff (hlists : Lists store lists) (ha : findNode store.trie path = some a) :
    store.Owns cell path ↔ cell = .trieNode a ∨ ∃ p, store.queueOf path = some p ∧
      ((∃ n ∈ lists p, cell = .node n) ∨ cell = .queue p) := by
  cases cell with
  | trieNode b => simp [Store.Owns, ha, eq_comm]
  | queue q => simp [Store.Owns]
  | node n =>
    rw [owns_node_iff]
    simp [hlists.mem_messages]

/-- A subtree is its root and the subtrees of the children. -/
theorem below_iff : store.Below path cell ↔
    store.Owns cell path ∨ ∃ i, store.Below (path ++ [i]) cell := by
  constructor
  · rintro ⟨name, ⟨rest, rfl⟩, howns⟩
    cases rest with
    | nil => exact Or.inl (by rwa [List.append_nil] at howns)
    | cons i rest => exact Or.inr ⟨i, path ++ i :: rest, ⟨rest, by simp⟩, howns⟩
  · rintro (howns | ⟨i, name, hshort, howns⟩)
    · exact ⟨path, List.prefix_rfl, howns⟩
    · exact ⟨name, (List.prefix_append path [i]).trans hshort, howns⟩

/-- A trie node that was not given back is read as it was. -/
theorem derefTrieNode_of_kept (hpool : PoolOk store) (h : Reclaimed gone store store')
    (ha : findNode store.trie path = some a) (hkept : ¬ gone (.trieNode a)) :
    ∃ node, derefTrieNode a store' = .ok (node, store') ∧
      (∀ i, node.children i = childOf store.trie a i) ∧ node.q = store.queueOf path := by
  obtain ⟨node, hcell⟩ := hpool.trie.live_findNode ha
  have hnode : trieNode store.trie a = node := by rw [trieNode, hcell, Option.getD_some]
  refine ⟨node, ?_, fun i => by rw [childOf, hnode], by rw [Store.queueOf, ha, ← hnode]; rfl⟩
  rw [derefTrieNode, h.trie a hkept, hcell]

section Walk

variable (hplaced : Placed store.Allocated store.Owns)
include hplaced

/-- A cell belongs to one name only. -/
theorem owner_unique {other : List UInt8} (hname : store.Owns cell name)
    (hother : store.Owns cell other) : name = other :=
  (hplaced.unique cell (hplaced.isKnown cell name hname)).unique hname hother

/-- The subtrees of two children have no cell in common. -/
theorem below_child_unique {i j : UInt8} (hi : store.Below (path ++ [i]) cell)
    (hj : store.Below (path ++ [j]) cell) : i = j := by
  obtain ⟨name, hshort, hname⟩ := hi
  obtain ⟨other, hshort', hother⟩ := hj
  obtain rfl := owner_unique hplaced hname hother
  have heq := (List.prefix_of_prefix_length_le hshort hshort' (by simp)).eq_of_length (by simp)
  simpa using heq

/-- What belongs to a node is in no subtree of a child. -/
theorem not_below_child {i : UInt8} (hcell : store.Owns cell path) :
    ¬ store.Below (path ++ [i]) cell := by
  rintro ⟨name, hshort, hname⟩
  obtain rfl := owner_unique hplaced hcell hname
  have hlength := hshort.length_le
  rw [List.length_append, List.length_singleton] at hlength
  omega

/-- A loop over the children whose rounds give back one subtree each. -/
theorem forM_reclaims {body : UInt8 → Shared Unit}
    (hbody : ∀ i gone store', Reclaimed gone store store' →
      (∀ cell, store.Owns cell path → ¬ gone cell) →
      (∀ cell, store.Below (path ++ [i]) cell → ¬ gone cell) →
        ∃ store'', body i store' = .ok ((), store'') ∧
          Reclaimed (fun cell => gone cell ∨ store.Below (path ++ [i]) cell) store store'')
    (rounds : List ℕ) (hrounds : ∀ i ∈ rounds, i < 256) (hnodup : rounds.Nodup)
    (h : Reclaimed gone store store') (hroot : ∀ cell, store.Owns cell path → ¬ gone cell)
    (hkept : ∀ i ∈ rounds, ∀ cell, store.Below (path ++ [UInt8.ofNat i]) cell → ¬ gone cell) :
    ∃ store'', (rounds.forM fun i => body (UInt8.ofNat i)) store' = .ok ((), store'') ∧
      Reclaimed
        (fun cell => gone cell ∨ ∃ i ∈ rounds, store.Below (path ++ [UInt8.ofNat i]) cell)
        store store'' := by
  induction rounds generalizing gone store' with
  | nil => exact ⟨store', rfl, h.congr fun cell => by simp⟩
  | cons i rounds ih =>
    obtain ⟨hnotMem, hnodup⟩ := List.nodup_cons.mp hnodup
    obtain ⟨store₁, hrun, h₁⟩ := hbody (UInt8.ofNat i) gone store' h hroot
      (hkept i List.mem_cons_self)
    obtain ⟨store₂, hrest, h₂⟩ := ih (fun j hj => hrounds j (List.mem_cons_of_mem i hj)) hnodup h₁
      (fun cell hcell => by
        rintro (hgone | hbelow)
        · exact hroot cell hcell hgone
        · exact not_below_child hplaced hcell hbelow)
      (fun j hj cell hcell => by
        rintro (hgone | hbelow)
        · exact hkept j (List.mem_cons_of_mem i hj) cell hcell hgone
        · have heq := congrArg UInt8.toNat (below_child_unique hplaced hcell hbelow)
          have hi := hrounds i List.mem_cons_self
          have hj' := hrounds j (List.mem_cons_of_mem i hj)
          rw [UInt8.toNat_ofNat', UInt8.toNat_ofNat', Nat.mod_eq_of_lt (by omega),
            Nat.mod_eq_of_lt (by omega)] at heq
          exact hnotMem (heq ▸ hj))
    refine ⟨store₂, ?_, h₂.congr fun cell => ?_⟩
    · exact (bind_of_ok hrun _).trans hrest
    · simp only [List.mem_cons, exists_eq_or_imp, or_assoc]

/-- A loop over all children. -/
theorem forChildren_reclaims (path : List UInt8) (body : UInt8 → Shared Unit)
    (hbody : ∀ i gone store', Reclaimed gone store store' →
      (∀ cell, store.Owns cell path → ¬ gone cell) →
      (∀ cell, store.Below (path ++ [i]) cell → ¬ gone cell) →
        ∃ store'', body i store' = .ok ((), store'') ∧
          Reclaimed (fun cell => gone cell ∨ store.Below (path ++ [i]) cell) store store'')
    (h : Reclaimed gone store store') (hkept : ∀ cell, store.Below path cell → ¬ gone cell) :
    ∃ store'', forChildren body store' = .ok ((), store'') ∧
      Reclaimed (fun cell => gone cell ∨ ∃ i, store.Below (path ++ [i]) cell) store store'' := by
  obtain ⟨store'', hrun, hreclaimed⟩ := forM_reclaims hplaced hbody (List.range 256)
    (fun i hi => List.mem_range.mp hi) List.nodup_range h
    (fun cell hcell => hkept cell (below_iff.mpr (Or.inl hcell)))
    (fun i _ cell hcell => hkept cell (below_iff.mpr (Or.inr ⟨_, hcell⟩)))
  refine ⟨store'', hrun, hreclaimed.congr fun cell => or_congr_right ⟨?_, ?_⟩⟩
  · rintro ⟨i, hcell⟩
    exact ⟨i.toNat, List.mem_range.mpr i.toNat_lt, by rwa [UInt8.ofNat_toNat]⟩
  · rintro ⟨i, -, hcell⟩
    exact ⟨_, hcell⟩

/-- `_free_trie_node` gives back the subtree with the queues in it. -/
theorem freeTrieNode_reclaims (hpool : PoolOk store) (hlists : Lists store lists) {depth : ℕ}
    (ha : findNode store.trie path = some a)
    (hdepth : ∀ name b, path <+: name → findNode store.trie name = some b →
      name.length < path.length + depth)
    (h : Reclaimed gone store store') (hkept : ∀ cell, store.Below path cell → ¬ gone cell) :
    ∃ store'', freeTrieNode depth (some a) store' = .ok ((), store'') ∧
      Reclaimed (fun cell => gone cell ∨ store.Below path cell) store store'' := by
  induction depth generalizing path a gone store' with
  | zero => exact absurd (hdepth path a List.prefix_rfl ha) (by omega)
  | succ depth ih =>
    have hown : ∀ cell, store.Owns cell path → store.Below path cell := fun cell hcell =>
      below_iff.mpr (Or.inl hcell)
    obtain ⟨store₁, hloop, h₁⟩ := forChildren_reclaims hplaced path
      (fun i => do
        let node ← derefTrieNode a
        freeTrieNode depth (node.children i))
      (fun i gone store' h hroot hkept => by
        obtain ⟨node, hread, hchildren, -⟩ := derefTrieNode_of_kept hpool h ha
          (hroot (.trieNode a) ha)
        rw [bind_of_ok hread, hchildren]
        cases hchild : childOf store.trie a i with
        | some child =>
          refine ih ?_ (fun name b hshort hb => ?_) h hkept
          · rw [findNode_concat, ha, Option.bind_some, hchild]
          · have := hdepth name b ((List.prefix_append path [i]).trans hshort) hb
            rw [List.length_append, List.length_singleton]
            omega
        | none =>
          refine ⟨store', by cases depth <;> rfl, h.congr fun cell => or_iff_left ?_⟩
          rintro ⟨name, hshort, howns⟩
          obtain ⟨b, hb⟩ := (hasPath_of_owns howns).shorten hshort
          rw [findNode_concat, ha, Option.bind_some, hchild] at hb
          cases hb) h hkept
    have hroot : ∀ cell, store.Owns cell path →
        ¬ (gone cell ∨ ∃ i, store.Below (path ++ [i]) cell) := by
      rintro cell hcell (hgone | ⟨i, hbelow⟩)
      · exact hkept cell (hown cell hcell) hgone
      · exact not_below_child hplaced hcell hbelow
    obtain ⟨node, hread, -, hq⟩ := derefTrieNode_of_kept hpool h₁ ha (hroot (.trieNode a) ha)
    rw [freeTrieNode, bind_of_ok hloop, bind_of_ok hread, hq]
    cases hqueue : store.queueOf path with
    | none =>
      refine ⟨_, rfl, (h₁.freeTrieNode a).congr fun cell => ?_⟩
      rw [below_iff, owns_iff hlists ha, hqueue]
      simp only [reduceCtorEq, false_and, exists_false, or_false]
      tauto
    | some p =>
      obtain ⟨queue, hcell, -⟩ := hpool.named path p hqueue
      have howned := fun cell => (owns_iff hlists ha : store.Owns cell path ↔ _)
      obtain ⟨store₂, hrun, h₂⟩ := freeQueue_reclaims hlists hcell h₁
        (hroot (.queue p) ((howned _).mpr (Or.inr ⟨p, hqueue, Or.inr rfl⟩)))
        (fun n hn => hroot (.node n) ((howned _).mpr (Or.inr ⟨p, hqueue, Or.inl ⟨n, hn, rfl⟩⟩)))
      refine ⟨{ store₂ with trie := store₂.trie.free a }, ?_,
        (h₂.freeTrieNode a).congr fun cell => ?_⟩
      · rw [if_pos (by simp), bind_of_ok hrun]
        rfl
      · rw [below_iff, howned, hqueue]
        simp only [Option.some.injEq, exists_eq_left', or_assoc, or_comm, or_left_comm]

end Walk

/-- `free_pool` gives back what belongs to the names other than the empty one. -/
theorem freePool_reclaims (hpool : PoolOk store) (hlists : ListsOk store)
    (hacc : Tallied store) :
    ∃ store', freePool store = .ok ((), store') ∧
      Reclaimed (fun cell => ∃ i, store.Below [i] cell) store store' := by
  obtain ⟨lists, hlists⟩ := hlists
  have hplaced := placed_of_tallied hpool ⟨lists, hlists⟩ hacc
  have hroot := findNode_nil store.trie
  obtain ⟨store', hloop, hreclaimed⟩ := forChildren_reclaims hplaced []
    (fun i => do
      let pool ← derefTrieNode poolRoot
      if pool.children i ≠ none then freeTrieNode store.trie.next (pool.children i))
    (fun i gone store' h hkept₀ hkept => by
      obtain ⟨node, hread, hchildren, -⟩ := derefTrieNode_of_kept hpool h hroot
        (hkept₀ (.trieNode poolRoot) hroot)
      rw [bind_of_ok hread, hchildren]
      cases hchild : childOf store.trie poolRoot i with
      | some child =>
        rw [if_pos (by simp)]
        refine freeTrieNode_reclaims hplaced hpool hlists ?_ (fun name b _ hb => ?_) h hkept
        · rw [findNode_concat, hroot, Option.bind_some, hchild]
        · have := hpool.trie.length_lt hb
          omega
      | none =>
        refine ⟨store', rfl, h.congr fun cell => or_iff_left ?_⟩
        rintro ⟨name, hshort, howns⟩
        obtain ⟨b, hb⟩ := (hasPath_of_owns howns).shorten hshort
        rw [findNode_concat, hroot, Option.bind_some, hchild] at hb
        cases hb) (.refl store) (fun _ _ => id)
  exact ⟨store', hloop, hreclaimed.congr fun cell => by simp⟩

namespace Broker

variable {grain : Grain} {s : Broker}

/-- In every reachable state `free_pool` returns: it gives back each cell that belongs to a
name other than the empty one, once and without reading a cell that is not allocated, and what
stays is the root, the queue of the empty name and its messages, all of it untouched. -/
theorem freePool_keeps_emptyName {guard : Broker → Act → Prop}
    (h : Reaches (Broker.step grain) guard initial s) :
    ∃ store', freePool s.store = .ok ((), store') ∧
      Reclaimed (fun cell => ∃ name ≠ [], s.store.Owns cell name) s.store store' ∧
      ∀ cell, store'.Allocated cell ↔ s.store.Owns cell [] := by
  have hok := ok_of_reaches h
  have hacc := (inventoried_of_reaches h).store
  have hplaced := placed_of_tallied hok.pool hok.lists hacc
  obtain ⟨store', hrun, hreclaimed⟩ := freePool_reclaims hok.pool hok.lists hacc
  have hgone : ∀ cell, (∃ name ≠ [], s.store.Owns cell name) ↔ ∃ i, s.store.Below [i] cell := by
    intro cell
    constructor
    · rintro ⟨name, hne, howns⟩
      obtain ⟨i, rest, rfl⟩ := List.exists_cons_of_ne_nil hne
      exact ⟨i, i :: rest, ⟨rest, rfl⟩, howns⟩
    · rintro ⟨i, name, ⟨rest, rfl⟩, howns⟩
      exact ⟨_, List.cons_ne_nil i rest, howns⟩
  refine ⟨store', hrun, hreclaimed.congr hgone, fun cell => ?_⟩
  rw [hreclaimed.allocated_iff, ← hgone]
  constructor
  · rintro ⟨hlive, hkept⟩
    obtain ⟨name, howns, -⟩ := hplaced.unique cell hlive
    by_cases hname : name = []
    · rwa [hname] at howns
    · exact absurd ⟨name, hname, howns⟩ hkept
  · intro howns
    refine ⟨hplaced.isKnown cell [] howns, ?_⟩
    rintro ⟨name, hne, hother⟩
    exact hne (owner_unique hplaced hother howns)

/-- Two queues, one of them of the empty name, with a message each. -/
def publishToEmptyName : List Act :=
  session 0 (openingFrames ++ declareFrame [] ++ declareFrame [113] ++ publishFrame [] [113] ++
    headerFrame 1 ++ bodyFrame [33] ++ publishFrame [] [] ++ headerFrame 1 ++ bodyFrame [34]) 21

/-- The message of a named queue goes, that of the empty name stays. -/
theorem freePool_keeps_emptyName_publishToEmptyName :
    ∃ s, exec (Broker.step .fine) initial publishToEmptyName = .ok s ∧
      s.store.Owns (.node 0) [113] ∧ s.store.Owns (.node 1) [] ∧
      ∃ store', freePool s.store = .ok ((), store') ∧
        Reclaimed (fun cell => ∃ name ≠ [], s.store.Owns cell name) s.store store' ∧
        ∀ cell, store'.Allocated cell ↔ s.store.Owns cell [] := by
  have hobserved : (exec (Broker.step .fine) initial publishToEmptyName).toOption.map
      (fun s => ((s.store.contents [113]).map Prod.fst, (s.store.contents []).map Prod.fst)) =
        some ([0], [1]) := by decide +kernel
  obtain ⟨s, hrun, hview⟩ := exec_observed hobserved
  obtain ⟨hnamed, hempty⟩ := Prod.mk.inj hview
  refine ⟨s, hrun, ?_, ?_, freePool_keeps_emptyName (reaches_of_exec hrun)⟩
  · rw [Store.Owns, hnamed]
    exact List.mem_singleton_self 0
  · rw [Store.Owns, hempty]
    exact List.mem_singleton_self 1

end Broker

end AmqpBroker
