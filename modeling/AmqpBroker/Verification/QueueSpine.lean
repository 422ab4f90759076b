import AmqpBroker.Model.QueueAccess
import AmqpBroker.Verification.QueueLaws

/-!
# What the accesses to a queue leave

The thread that holds the mutex finds the nodes linked, the two ends right and `size` equal
to the number of strings, and takes the queue through states where they disagree. At every
access it is known how far it has come, which nodes are linked and which one it has to
itself; `size` is the last field that changes, and the call takes effect with it.
-/

namespace AmqpBroker

open Foundations

/-- The nodes from `start` along `parent`, with the strings in them. -/
structure Spine (nodes : Heap QNode) (start : Option ℕ) (ns : List ℕ) (ms : List (List UInt8)) :
    Prop where
  chain : Chain nodes QNode.parent start ns
  nodup : ns.Nodup
  bodies : ns.map (fun n => (nodes.cells n).map QNode.body) = ms.map some

namespace Spine

variable {nodes nodes' : Heap QNode} {start : Option ℕ} {ns : List ℕ} {ms : List (List UInt8)}
  {n last : ℕ} {node : QNode}

/-- As many nodes as strings. -/
theorem length_eq (h : Spine nodes start ns ms) : ns.length = ms.length := by
  simpa using congrArg List.length h.bodies

/-- A change elsewhere leaves the nodes alone. -/
theorem congr (h : Spine nodes start ns ms) (hsame : ∀ a ∈ ns, nodes'.cells a = nodes.cells a) :
    Spine nodes' start ns ms where
  chain := h.chain.congr hsame
  nodup := h.nodup
  bodies := by
    rw [← h.bodies]
    exact List.map_congr_left fun a ha => by rw [hsame a ha]

/-- A node alone. -/
theorem singleton (hcell : nodes.cells n = some node) (hparent : node.parent = none) :
    Spine nodes (some n) [n] [node.body] where
  chain := .cons hcell (hparent ▸ .nil)
  nodup := List.nodup_singleton n
  bodies := by simp [hcell]

/-- A node that the newest one is made to point to. -/
theorem append {first : ℕ} (h : Spine nodes start ns ms) (hfirst : ns.getLast? = some first)
    (hcell : nodes.cells n = some node) (hparent : node.parent = none) (hn : n ∉ ns) :
    Spine (nodes.modify first fun node => { node with parent := some n }) start (ns ++ [n])
      (ms ++ [node.body]) := by
  have hne : n ≠ first := fun heq => hn (heq ▸ List.mem_of_getLast? hfirst)
  have hcell' : (nodes.modify first fun node => { node with parent := some n }).cells n =
      some node := (Heap.modify_cells_ne _ _ hne).trans hcell
  have hset : ∀ cell : QNode, QNode.parent { cell with parent := some n } = some n := fun _ => rfl
  refine ⟨?_, ?_, ?_⟩
  · refine h.chain.append_new hset hparent h.nodup hn hcell' (fun last hlast => ?_)
      (fun a _ ha => ?_) ?_
    · obtain rfl : first = last := Option.some.inj (hfirst.symm.trans hlast)
      exact Heap.modify_cells_self _ _ _
    · exact Heap.modify_cells_ne _ _ fun heq => ha (heq ▸ hfirst.symm)
    · rw [h.chain.start_eq]
      intro hnone
      rw [List.head?_eq_none_iff.mp hnone] at hfirst
      cases hfirst
  · exact h.nodup.append (List.nodup_singleton n) (by simpa using hn)
  · have hbodies : ns.map (fun a => ((nodes.modify first fun node =>
        { node with parent := some n }).cells a).map QNode.body) = ms.map some := by
      rw [← h.bodies]
      refine List.map_congr_left fun a _ => ?_
      rw [Heap.modify_cells]
      split
      · rw [Option.map_map]
        rfl
      · rfl
    simp [hbodies, hcell']

/-- The oldest node and those behind it. -/
theorem uncons (h : Spine nodes (some last) ns ms) :
    ∃ node ns' ms', nodes.cells last = some node ∧ ns = last :: ns' ∧ ms = node.body :: ms' ∧
      last ∉ ns' ∧ Spine nodes node.parent ns' ms' := by
  obtain ⟨hchain, hnodup, hbodies⟩ := h
  cases hchain with
  | @cons _ node ns' hcell hrest =>
    cases ms with
    | nil => simp at hbodies
    | cons body ms' =>
      simp only [List.map_cons, hcell, Option.map_some, List.cons.injEq, Option.some.injEq] at hbodies
      obtain ⟨rfl, hbodies⟩ := hbodies
      obtain ⟨hnot, hnodup⟩ := List.nodup_cons.mp hnodup
      exact ⟨node, ns', ms', hcell, rfl, rfl, hnot, hrest, hnodup, hbodies⟩

/-- No node, no string. -/
theorem eq_nil (h : Spine nodes none ns ms) : ns = [] ∧ ms = [] := by
  obtain ⟨hchain, -, hbodies⟩ := h
  cases hchain
  cases ms with
  | nil => exact ⟨rfl, rfl⟩
  | cons body ms => simp at hbodies

/-- The start is the oldest node. -/
theorem start_eq (h : Spine nodes start ns ms) : start = ns.head? := h.chain.start_eq

end Spine

namespace QueuePoint

/-- The thread holds the mutex of the queue. -/
def locked : QueuePoint → Bool
  | enqueueTestFirst _ _ | enqueueLoadFirst _ _ | enqueueStoreParent _ _ _ | enqueueStoreFirst _ _
  | enqueueTestLast _ _ | enqueueStoreLast _ _ | enqueueLoadSize _ | enqueueStoreSize _ _
  | enqueueLockMsg | enqueueBroadcast | enqueueUnlockMsg | enqueueUnlock
  | dequeueLoadLast | dequeueCopy _ | dequeueLoadParent _ _ | dequeueStoreLast _ _ _
  | dequeueFree _ _ | dequeueTestFirst _ _ | dequeueStoreFirst _ | dequeueLoadSize _
  | dequeueStoreSize _ _ | dequeueUnlock _ | sizeLoad | sizeUnlock _ => true
  | _ => false

/-- The next access is one that needs the mutex. -/
def guarded : QueuePoint → Bool
  | enqueueLockMsg | enqueueBroadcast | enqueueUnlockMsg | enqueueUnlock | dequeueUnlock _
  | sizeUnlock _ => false
  | point => point.locked

/-- The thread holds `new_msg_mutex`. -/
def msgLocked : QueuePoint → Bool
  | enqueueBroadcast | enqueueUnlockMsg | waitSleep | waitUnlock => true
  | _ => false

/-- The node that `q_enqueue` has filled in and not linked yet. -/
def prepared : QueuePoint → Option (ℕ × List UInt8)
  | enqueueLock body n | enqueueTestFirst body n | enqueueLoadFirst body n
  | enqueueStoreParent body n _ => some (n, body)
  | _ => none

/-- The node that only this thread knows of: not linked yet, or not linked any more. -/
def owned : QueuePoint → Option ℕ
  | dequeueFree last _ => some last
  | point => point.prepared.map Prod.fst

/-- Where the caller is, as seen from outside: the call takes effect with the store to `size`,
or with the access that finds out that there is nothing to change. -/
def standing : QueuePoint → Standing QueueOp QueueAnswer
  | outside => .idle
  | returning answer => .served answer
  | enqueueMalloc body | enqueueLock body _ | enqueueTestFirst body _ | enqueueLoadFirst body _
  | enqueueStoreParent body _ _ | enqueueStoreFirst body _ | enqueueTestLast body _
  | enqueueStoreLast body _ | enqueueLoadSize body | enqueueStoreSize body _ =>
    .waiting (.qEnqueue body)
  | enqueueLockMsg | enqueueBroadcast | enqueueUnlockMsg | enqueueUnlock => .served .done
  | dequeueLock | dequeueLoadLast | dequeueCopy _ | dequeueLoadParent _ _ | dequeueStoreLast _ _ _
  | dequeueFree _ _ | dequeueTestFirst _ _ | dequeueStoreFirst _ | dequeueLoadSize _
  | dequeueStoreSize _ _ => .waiting .qDequeue
  | dequeueUnlock taken => .served (.message taken)
  | sizeLock | sizeLoad => .waiting .qSize
  | sizeUnlock size => .served (.count size)
  | waitTest => .waiting .waitMsg
  | waitLock | waitSleep | waitWake | waitUnlock => .served (.count 0)

end QueuePoint

namespace QueueData

/-- The linked nodes with the two ends. -/
structure Ends (d : QueueData) (ns : List ℕ) (ms : List (List UInt8)) : Prop where
  spine : Spine d.nodes d.lastNode ns ms
  first : d.firstNode = ns.getLast?

/-- How far the holder of the mutex has come; `ms` is without what the call does. -/
def Shape (d : QueueData) (ns : List ℕ) (ms : List (List UInt8)) : QueuePoint → Prop
  | .enqueueLoadFirst _ _ => d.Ends ns ms ∧ d.firstNode ≠ none
  | .enqueueStoreParent _ _ first => d.Ends ns ms ∧ d.firstNode = some first
  | .enqueueStoreFirst body n => ∃ before, ns = before ++ [n] ∧
      Spine d.nodes ns.head? ns (ms ++ [body]) ∧ d.lastNode = before.head?
  | .enqueueTestLast body n => ∃ before, ns = before ++ [n] ∧
      Spine d.nodes ns.head? ns (ms ++ [body]) ∧ d.lastNode = before.head? ∧ d.firstNode = some n
  | .enqueueStoreLast body n => ns = [n] ∧ Spine d.nodes (some n) ns (ms ++ [body]) ∧
      d.firstNode = some n
  | .enqueueLoadSize body => d.Ends ns (ms ++ [body])
  | .enqueueStoreSize body size => d.Ends ns (ms ++ [body]) ∧ size = d.size
  | .dequeueCopy last => d.Ends ns ms ∧ d.lastNode = some last
  | .dequeueLoadParent last body => d.Ends ns ms ∧ d.lastNode = some last ∧ ms.head? = some body
  | .dequeueStoreLast last body parent => d.Ends ns ms ∧ d.lastNode = some last ∧
      ms.head? = some body ∧ (d.nodes.cells last).map QNode.parent = some parent
  | .dequeueFree last body | .dequeueTestFirst last body => ∃ rest, ms = body :: rest ∧
      Spine d.nodes d.lastNode ns rest ∧ d.firstNode = (last :: ns).getLast? ∧ last ∉ ns
  | .dequeueStoreFirst body => ns = [] ∧ ms = [body] ∧ d.lastNode = none
  | .dequeueLoadSize body => ∃ rest, ms = body :: rest ∧ d.Ends ns rest
  | .dequeueStoreSize body size => (∃ rest, ms = body :: rest ∧ d.Ends ns rest) ∧ size = d.size
  | _ => d.Ends ns ms

/-- The queue as the holder of the mutex has left it so far, where `ms` are the strings that
everybody else takes it to hold. -/
structure Fits (d : QueueData) (point : QueuePoint) (ns : List ℕ) (ms : List (List UInt8)) : Prop where
  size : d.size = ms.length
  shape : d.Shape ns ms point

variable {d : QueueData} {point : QueuePoint} {ns : List ℕ} {ms : List (List UInt8)}

/-- The ends of a list depend on the nodes that are allocated. -/
theorem Ends.congr (h : d.Ends ns ms) {nodes : Heap QNode}
    (hsame : ∀ a, Live d.nodes a → nodes.cells a = d.nodes.cells a) :
    Ends { d with nodes := nodes } ns ms :=
  ⟨h.spine.congr fun a ha => hsame a (h.spine.chain.live a ha), h.first⟩

/-- An allocation by another thread leaves alone what the holder of the mutex has done. -/
theorem Fits.congr (h : d.Fits point ns ms) {nodes : Heap QNode}
    (hsame : ∀ a, Live d.nodes a → nodes.cells a = d.nodes.cells a) :
    Fits { d with nodes := nodes } point ns ms := by
  have hspine : ∀ {start ms}, Spine d.nodes start ns ms → Spine nodes start ns ms :=
    fun hspine => hspine.congr fun a ha => hsame a (hspine.chain.live a ha)
  obtain ⟨hsize, hshape⟩ := h
  refine ⟨hsize, ?_⟩
  cases point with
  | enqueueLoadFirst | enqueueStoreParent | enqueueStoreSize | dequeueCopy | dequeueLoadParent =>
    exact ⟨hshape.1.congr hsame, hshape.2⟩
  | enqueueStoreFirst | enqueueTestLast =>
    obtain ⟨before, hns, hnodes, hrest⟩ := hshape
    exact ⟨before, hns, hspine hnodes, hrest⟩
  | enqueueStoreLast => exact ⟨hshape.1, hspine hshape.2.1, hshape.2.2⟩
  | dequeueStoreLast last body parent =>
    obtain ⟨hends, hlast, hbody, hparent⟩ := hshape
    have hchain := hends.spine
    rw [hlast] at hchain
    obtain ⟨node, -, -, hcell, -⟩ := hchain.uncons
    exact ⟨hends.congr hsame, hlast, hbody, by rwa [hsame last ⟨node, hcell⟩]⟩
  | dequeueFree | dequeueTestFirst =>
    obtain ⟨rest, hms, hnodes, hrest⟩ := hshape
    exact ⟨rest, hms, hspine hnodes, hrest⟩
  | dequeueStoreFirst => exact hshape
  | dequeueLoadSize =>
    obtain ⟨rest, hms, hends⟩ := hshape
    exact ⟨rest, hms, hends.congr hsame⟩
  | dequeueStoreSize =>
    obtain ⟨⟨rest, hms, hends⟩, hk⟩ := hshape
    exact ⟨⟨rest, hms, hends.congr hsame⟩, hk⟩
  | _ => exact hshape.congr hsame

end QueueData

end AmqpBroker
