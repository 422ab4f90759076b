import AmqpBroker.Model.Queue

/-!
# The queue pool

The trie of `queue_pool.c` over a heap of nodes. Looking a name up installs the missing
nodes of its path, so `get_queue` changes the trie as well. The functions are the
undisturbed calls; their interleavings are the subject of `PoolRace`.
-/

namespace AmqpBroker

open Foundations

/-- A node as `bzero` leaves it. -/
def TrieNode.zeroed : TrieNode := ⟨none, fun _ => none⟩

/-- The root of the trie, which is the pool itself. -/
def poolRoot : ℕ := 0

/-- The node at an address. -/
def trieNode (trie : Heap TrieNode) (a : ℕ) : TrieNode := (trie.cells a).getD .zeroed

/-- `root->children[first] = child`. -/
def TrieNode.setChild (node : TrieNode) (first : UInt8) (child : ℕ) : TrieNode :=
  { node with children := Function.update node.children first (some child) }

/-- `malloc`, `bzero` and install a child. -/
def installChild (trie : Heap TrieNode) (root : ℕ) (first : UInt8) : ℕ × Heap TrieNode :=
  (trie.next, (trie.alloc .zeroed).modify root (·.setChild first trie.next))

/-- `_get_trie_node`. -/
def getTrieNode : List UInt8 → ℕ → Heap TrieNode → ℕ × Heap TrieNode
  | [], root, trie => (root, trie)
  | first :: name, root, trie =>
    match (trieNode trie root).children first with
    | some child => getTrieNode name child trie
    | none =>
      let installed := installChild trie root first
      getTrieNode name installed.1 installed.2

/-- `init_queue_pool`, with nothing else allocated. -/
def initQueuePool : Store :=
  { nodes := .empty, queues := .empty, trie := Heap.empty.alloc .zeroed }

/-- The lookup shared by `create_queue` and `get_queue`. -/
def lookupNode (name : List UInt8) : Shared ℕ := fun store =>
  let found := getTrieNode name poolRoot store.trie
  .ok (found.1, { store with trie := found.2 })

/-- `create_queue`. -/
def createQueue (name : List UInt8) : Shared ℕ := do
  let node ← lookupNode name
  match ← Program.read fun store => (trieNode store.trie node).q with
  | some q => pure q
  | none => do
    let q ← newQueue name
    Program.update fun store =>
      { store with trie := store.trie.modify node fun cell => { cell with q := some q } }
    pure q

/-- `get_queue`. -/
def getQueue (name : List UInt8) : Shared (Option ℕ) := do
  let node ← lookupNode name
  Program.read fun store => (trieNode store.trie node).q

/-- The trie node a non-NULL pointer points to. -/
def derefTrieNode (a : ℕ) : Shared TrieNode := fun store =>
  match store.trie.cells a with
  | none => .error .dangling
  | some node => .ok (node, store)

/-- The two loops over the children of a node. -/
def forChildren (body : UInt8 → Shared Unit) : Shared Unit :=
  (List.range 256).forM fun i => body (UInt8.ofNat i)

/-- `_free_trie_node` on a subtree at most `depth` nodes deep; on a deeper one, which would be a
cycle, it does not return. -/
def freeTrieNode : ℕ → Option ℕ → Shared Unit
  | _, none => pure ()
  | 0, some _ => Program.stop .blocked
  | depth + 1, some root => do
    forChildren fun i => do
      let node ← derefTrieNode root
      freeTrieNode depth (node.children i)
    let node ← derefTrieNode root
    if node.q ≠ none then freeQueue node.q
    Program.update fun store => { store with trie := store.trie.free root }

/-- `free_pool`; the root is the pool itself, which the caller owns. -/
def freePool : Shared Unit := do
  let depth ← Program.read fun store => store.trie.next
  forChildren fun i => do
    let pool ← derefTrieNode poolRoot
    if pool.children i ≠ none then freeTrieNode depth (pool.children i)

end AmqpBroker
