import AmqpBroker.Verification.PoolLaws
import Mathlib.Data.List.Infix
import Mathlib.Tactic.Choose

/-!
# The nodes of the trie

Looking a name up installs a node for each prefix of it that has none, and no other node.
So the names that lead to a node are the prefixes of the names that were looked up, and no
node is out of reach of the root.
-/

namespace AmqpBroker

open Foundations Program

/-- Every allocated node is found under a name. -/
def TrieFull (trie : Heap TrieNode) : Prop :=
  ∀ a, Live trie a → ∃ path, findNode trie path = some a

/-- The name leads to a node. -/
def HasPath (trie : Heap TrieNode) (path : List UInt8) : Prop := ∃ a, findNode trie path = some a

variable {trie trie' : Heap TrieNode} {name path other : List UInt8} {a b : ℕ} {first : UInt8}

/-- The empty path ends at the root. -/
@[simp] theorem findNode_nil (trie : Heap TrieNode) : findNode trie [] = some poolRoot := rfl

/-- One more byte is one more edge. -/
theorem findNode_concat (trie : Heap TrieNode) (path : List UInt8) (first : UInt8) :
    findNode trie (path ++ [first]) = (findNode trie path).bind fun a => childOf trie a first := by
  rw [findNode, descend_append]
  congr
  funext a
  rw [descend_cons]
  cases childOf trie a first <;> rfl

/-- A path that leads somewhere does so on the whole way. -/
theorem HasPath.shorten (h : HasPath trie name) (hshort : path <+: name) : HasPath trie path := by
  obtain ⟨a, ha⟩ := h
  obtain ⟨rest, rfl⟩ := hshort
  rw [findNode, descend_append] at ha
  obtain ⟨b, hb, -⟩ := Option.bind_eq_some_iff.mp ha
  exact ⟨b, hb⟩

/-- The end of a path is allocated. -/
theorem TrieOk.live_findNode (h : TrieOk trie) (ha : findNode trie path = some a) : Live trie a := by
  induction path using List.reverseRecOn generalizing a with
  | nil =>
    obtain rfl := Option.some.inj ha
    exact h.root
  | append_singleton path first _ =>
    rw [findNode_concat] at ha
    obtain ⟨b, -, hedge⟩ := Option.bind_eq_some_iff.mp ha
    exact h.live b first a hedge

/-- A node is found under one name only. -/
theorem TrieOk.findNode_injective (h : TrieOk trie) (hpath : findNode trie path = some a)
    (hother : findNode trie other = some a) : path = other := by
  obtain ⟨label, hlabel⟩ := h.labelled
  exact hlabel.descend_injective hpath hother

/-- Installing a child adds one path. -/
theorem findNode_install (h : TrieOk trie) (ha : findNode trie path = some a)
    (hfree : childOf trie a first = none) (other : List UInt8) :
    findNode (installChild trie a first).2 other =
      if other = path ++ [first] then some trie.next else findNode trie other := by
  have hlive := h.live_findNode ha
  induction other using List.reverseRecOn with
  | nil => rw [if_neg (by simp), findNode_nil, findNode_nil]
  | append_singleton other c ih =>
    rw [findNode_concat, ih, findNode_concat]
    by_cases hlonger : other = path ++ [first]
    · -- nothing hangs below the new node
      have hne : other ++ [c] ≠ path ++ [first] := by
        rw [hlonger]
        exact fun heq => by simpa using congrArg List.length heq
      have hmissing : findNode trie other = none := by
        rw [hlonger, findNode_concat, ha, Option.bind_some, hfree]
      rw [if_pos hlonger, if_neg hne, hmissing, Option.bind_some, Option.bind_none,
        childOf_install hlive, if_neg, childOf_of_ge le_rfl]
      rintro ⟨heq, -⟩
      exact absurd hlive.lt_next (by omega)
    · rw [if_neg hlonger]
      by_cases hnew : other ++ [c] = path ++ [first]
      · obtain ⟨rfl, hc⟩ := List.append_inj' hnew rfl
        obtain rfl : c = first := by simpa using hc
        rw [if_pos rfl, ha, Option.bind_some, childOf_install hlive, if_pos ⟨rfl, rfl⟩]
      · rw [if_neg hnew]
        cases hother : findNode trie other with
        | none => rfl
        | some x =>
          rw [Option.bind_some, Option.bind_some, childOf_install hlive, if_neg]
          rintro ⟨rfl, rfl⟩
          exact hnew (by rw [h.findNode_injective hother ha])

/-- Installing a child keeps every node in reach. -/
theorem TrieFull.install (hfull : TrieFull trie) (h : TrieOk trie)
    (ha : findNode trie path = some a) (hfree : childOf trie a first = none) :
    TrieFull (installChild trie a first).2 := by
  intro x hx
  obtain ⟨value, hcell⟩ := hx
  have hold : x = trie.next ∨ Live trie x := by
    rw [installChild, Heap.modify_cells, Heap.alloc_cells] at hcell
    by_cases hnew : x = trie.next
    · exact Or.inl hnew
    · rw [if_neg hnew] at hcell
      refine Or.inr ?_
      split at hcell
      · obtain ⟨node, hnode, -⟩ := Option.map_eq_some_iff.mp hcell
        exact ⟨node, hnode⟩
      · exact ⟨value, hcell⟩
  rcases hold with rfl | hlive
  · exact ⟨path ++ [first], by rw [findNode_install h ha hfree, if_pos rfl]⟩
  · obtain ⟨other, hother⟩ := hfull x hlive
    refine ⟨other, ?_⟩
    rw [findNode_install h ha hfree, if_neg, hother]
    rintro rfl
    rw [findNode_concat, ha, Option.bind_some, hfree] at hother
    cases hother

/-- `_get_trie_node` installs the prefixes of the path that have no node, and keeps every node
in reach. -/
theorem getTrieNode_paths (name : List UInt8) (path : List UInt8) (a : ℕ) (trie : Heap TrieNode)
    (h : TrieOk trie) (hfull : TrieFull trie) (ha : findNode trie path = some a) :
    TrieFull (getTrieNode name a trie).2 ∧ ∀ other,
      HasPath (getTrieNode name a trie).2 other ↔
        HasPath trie other ∨ other <+: path ++ name := by
  induction name generalizing path a trie with
  | nil =>
    refine ⟨hfull, fun other => ⟨Or.inl, ?_⟩⟩
    rintro (hother | hshort)
    · exact hother
    · rw [List.append_nil] at hshort
      exact HasPath.shorten ⟨a, ha⟩ hshort
  | cons first name ih =>
    have hsplit : path ++ first :: name = path ++ [first] ++ name := by simp
    cases hchild : childOf trie a first with
    | some child =>
      have hgo : getTrieNode (first :: name) a trie = getTrieNode name child trie := by
        rw [getTrieNode]
        rw [childOf] at hchild
        rw [hchild]
      rw [hgo, hsplit]
      refine ih (path ++ [first]) child trie h hfull ?_
      rw [findNode_concat, ha, Option.bind_some, hchild]
    | none =>
      have hgo : getTrieNode (first :: name) a trie =
          getTrieNode name (installChild trie a first).1 (installChild trie a first).2 := by
        rw [getTrieNode]
        rw [childOf] at hchild
        rw [hchild]
      have hfound := findNode_install h ha hchild
      obtain ⟨hfull', hpaths⟩ := ih (path ++ [first]) (installChild trie a first).1
        (installChild trie a first).2 (h.install (h.live_findNode ha)) (hfull.install h ha hchild)
        (by rw [hfound, if_pos rfl]; rfl)
      rw [hgo, hsplit]
      refine ⟨hfull', fun other => (hpaths other).trans ?_⟩
      constructor
      · rintro (⟨b, hb⟩ | hshort)
        · rw [hfound] at hb
          split at hb
          · rename_i hnew
            rw [hnew]
            exact Or.inr (List.prefix_append _ _)
          · exact Or.inl ⟨b, hb⟩
        · exact Or.inr hshort
      · rintro (⟨b, hb⟩ | hshort)
        · refine Or.inl ?_
          by_cases hnew : other = path ++ [first]
          · exact ⟨trie.next, by rw [hfound, if_pos hnew]⟩
          · exact ⟨b, by rw [hfound, if_neg hnew, hb]⟩
        · exact Or.inr hshort

/-- A lookup of a name: the nodes of its prefixes are there, and no node is out of reach. -/
structure PathsAdded (trie trie' : Heap TrieNode) (name : List UInt8) : Prop where
  full : TrieFull trie'
  paths : ∀ other, HasPath trie' other ↔ HasPath trie other ∨ other <+: name

/-- A lookup adds the path of its name. -/
theorem pathsAdded_lookup {store : Store} (h : PoolOk store) (hfull : TrieFull store.trie)
    (name : List UInt8) :
    ∃ node trie', lookupNode name store = .ok (node, { store with trie := trie' }) ∧
      PathsAdded store.trie trie' name := by
  obtain ⟨hfull', hpaths⟩ :=
    getTrieNode_paths name [] poolRoot store.trie h.trie hfull (findNode_nil _)
  exact ⟨_, _, rfl, hfull', hpaths⟩

/-- `get_queue` adds the path of its name. -/
theorem getQueue_paths {store store' : Store} {q : Option ℕ} (h : PoolOk store)
    (hfull : TrieFull store.trie) (hget : getQueue name store = .ok (q, store')) :
    PathsAdded store.trie store'.trie name := by
  obtain ⟨node, trie', hlookup, hpaths⟩ := pathsAdded_lookup h hfull name
  rw [getQueue, bind_of_ok hlookup] at hget
  cases hget
  exact hpaths

/-- Setting the queue of a node changes no path. -/
theorem PathsAdded.setQueue (h : PathsAdded trie trie' name) (node q : ℕ) :
    PathsAdded trie (trie'.modify node fun cell => { cell with q := some q }) name := by
  have hfind : findNode (trie'.modify node fun cell => { cell with q := some q }) =
      findNode trie' := by
    funext path
    rw [findNode, childOf_setQueue, findNode]
  refine ⟨fun a ha => ?_, fun other => ?_⟩
  · obtain ⟨value, hcell⟩ := ha
    have hlive : Live trie' a := by
      rw [Heap.modify_cells] at hcell
      split at hcell
      · obtain ⟨cell, hcell, -⟩ := Option.map_eq_some_iff.mp hcell
        exact ⟨cell, hcell⟩
      · exact ⟨value, hcell⟩
    rw [hfind]
    exact h.full a hlive
  · rw [HasPath, hfind]
    exact h.paths other

/-- `create_queue` adds the path of its name. -/
theorem createQueue_paths {store store' : Store} {q : ℕ} (h : PoolOk store)
    (hfull : TrieFull store.trie) (hcreate : createQueue name store = .ok (q, store')) :
    PathsAdded store.trie store'.trie name := by
  obtain ⟨node, trie', hlookup, hpaths⟩ := pathsAdded_lookup h hfull name
  rw [createQueue, bind_of_ok hlookup, read_bind_apply] at hcreate
  cases hq : (trieNode trie' node).q with
  | some p =>
    simp only [hq] at hcreate
    cases hcreate
    exact hpaths
  | none =>
    simp only [hq] at hcreate
    obtain ⟨q', store₁, hnew, hassign⟩ := bind_eq_ok.mp hcreate
    obtain ⟨-, -, rfl⟩ := newQueue_eq_ok hnew
    cases hassign
    exact hpaths.setQueue node _

/-- The path to a node is shorter than the heap is large: its prefixes have nodes of their own. -/
theorem TrieOk.length_lt (h : TrieOk trie) (ha : findNode trie path = some a) :
    path.length < trie.next := by
  have hnode : ∀ i, ∃ b, findNode trie (path.take i) = some b := fun i =>
    HasPath.shorten ⟨a, ha⟩ (List.take_prefix i path)
  choose node hnode using hnode
  have hnodup : ((List.range (path.length + 1)).map node).Nodup := by
    refine List.Nodup.map_on (fun i hi j hj heq => ?_) List.nodup_range
    rw [List.mem_range] at hi hj
    have hpaths := h.findNode_injective (hnode i) (heq ▸ hnode j)
    have hlengths := congrArg List.length hpaths
    rw [List.length_take, List.length_take] at hlengths
    omega
  have hsub : (List.range (path.length + 1)).map node ⊆ List.range trie.next := by
    intro b hb
    obtain ⟨i, -, rfl⟩ := List.mem_map.mp hb
    exact List.mem_range.mpr (h.live_findNode (hnode i)).lt_next
  have hlength := (List.subperm_of_subset hnodup hsub).length_le
  rw [List.length_map, List.length_range, List.length_range] at hlength
  omega

end AmqpBroker
