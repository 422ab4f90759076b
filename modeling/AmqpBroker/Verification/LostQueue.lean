import AmqpBroker.Model.PoolRace
import AmqpBroker.Verification.PoolLaws

/-!
# Lookups that lose a queue

`get_queue` walks the trie without the mutex of the pool and installs what is missing, just
as `create_queue` does. Two callers that have both read NULL install a child each, and the
second one hides the first with the queue that was declared below it. As long as every
installation still finds NULL the trie only grows, and every name keeps its queue.
-/

namespace AmqpBroker

open Foundations Program

/-- The second call has returned after a `create_queue` of the same name, and so the same queue. -/
def PoolEvent.Answers (first second : PoolEvent) : Prop :=
  ∀ i j function name q result, first = .returned i .createQueue name (some q) →
    second = .returned j function name result → result = some q

/-- A declared queue is never lost. -/
structure NeverLost (history : List PoolEvent) : Prop where
  kept : ∀ i j function name q result,
    [.returned i .createQueue name (some q), .started j function name,
      .returned j function name result].Sublist history → result = some q
  unique : ∀ i j name q q', .returned i .createQueue name q ∈ history →
    .returned j .createQueue name q' ∈ history → q = q'
  made : ∀ i name q, .returned i .createQueue name q ∈ history → q ≠ none

/-- The node that a call has reached, and what is left of its name. -/
def PoolPoint.reached : PoolPoint → Option (ℕ × List UInt8)
  | .lockPool => none
  | .readChild root name => some (root, name)
  | .installChild root first name => some (root, first :: name)
  | .unlockPool node | .lockNode node | .testQueue node | .assignQueue node | .unlockNode node
  | .readQueue node => some (node, [])

/-- The node whose mutex a call holds. -/
def PoolCaller.locks (caller : PoolCaller) : Option ℕ :=
  match caller.point with
  | .readChild _ _ | .installChild _ _ _ =>
    if caller.function = .createQueue then some poolRoot else none
  | .unlockPool _ => some poolRoot
  | .testQueue node | .assignQueue node | .unlockNode node => some node
  | .lockPool | .lockNode _ | .readQueue _ => none

/-- The node whose queue a call has seen or made. -/
def PoolCaller.hasQueue (caller : PoolCaller) : Option ℕ :=
  match caller.point with
  | .unlockNode node => some node
  | .readQueue node => if caller.function = .createQueue then some node else none
  | _ => none

/-- The call has walked along the trie from the root. -/
def PoolCaller.Walks (trie : Heap TrieNode) (caller : PoolCaller) : Prop :=
  ∀ node rest, caller.point.reached = some (node, rest) →
    Live trie node ∧ ∃ walked, caller.name = walked ++ rest ∧ findNode trie walked = some node

/-- The second trie finds what the first one found, with the queue that was there. -/
structure TrieKeeps (trie trie' : Heap TrieNode) : Prop where
  live : ∀ a, Live trie a → Live trie' a
  find : ∀ name a, findNode trie name = some a → findNode trie' name = some a
  queue : ∀ a q, (trieNode trie a).q = some q → (trieNode trie' a).q = some q

/-- A child that is about to be installed is still missing. -/
def PoolPoint.Free (trie : Heap TrieNode) : PoolPoint → Prop
  | .installChild root first _ => childOf trie root first = none
  | _ => True

instance (trie : Heap TrieNode) : DecidablePred (PoolPoint.Free trie)
  | .installChild root first _ => inferInstanceAs (Decidable (childOf trie root first = none))
  | .lockPool | .readChild _ _ | .unlockPool _ | .lockNode _ | .testQueue _ | .assignQueue _
  | .unlockNode _ | .readQueue _ => isTrue trivial

namespace PoolRace

/-- The step does not install a child over another one. -/
def InstallsFree (s : PoolRace) : PoolRaceAct → Prop
  | .step n => ∀ caller ∈ s.callers n, caller.point.Free s.store.trie
  | .call _ _ => True

instance (s : PoolRace) : DecidablePred s.InstallsFree
  | .step n => inferInstanceAs (Decidable (∀ caller ∈ s.callers n, caller.point.Free s.store.trie))
  | .call _ _ => isTrue trivial

/-- Every name that was declared leads to its queue, and every call is on its way. -/
structure Kept (s : PoolRace) : Prop where
  trie : TrieOk s.store.trie
  walks : ∀ n caller, s.callers n = some caller → caller.Walks s.store.trie
  locks : ∀ n caller node, s.callers n = some caller → caller.locks = some node →
    s.mutex node = some n
  unassigned : ∀ n caller node, s.callers n = some caller → caller.point = .assignQueue node →
    s.queueAt node = none
  assigned : ∀ n caller node, s.callers n = some caller → caller.hasQueue = some node →
    s.queueAt node ≠ none
  returned : ∀ n name q, .returned n .createQueue name q ∈ s.history →
    ∃ p, q = some p ∧ s.store.queueOf name = some p
  answers : s.history.Pairwise PoolEvent.Answers

end PoolRace

variable {s s' : PoolRace} {n m : ℕ} {caller : PoolCaller} {point : PoolPoint} {store : Store}
  {trie trie' : Heap TrieNode} {node root : ℕ} {first : UInt8} {name rest : List UInt8}
  {act : PoolRaceAct} {function : PoolFunction}

/-- An untouched trie keeps its children and queues. -/
theorem TrieKeeps.refl (trie : Heap TrieNode) : TrieKeeps trie trie :=
  ⟨fun _ h => h, fun _ _ h => h, fun _ _ h => h⟩

/-- Installing missing nodes keeps everything. -/
theorem TrieGrows.keeps (h : TrieGrows trie trie') : TrieKeeps trie trie' where
  live := h.live
  find name a := h.edges.descend_keep name poolRoot a
  queue a q hq := by rw [h.queue, hq]

/-- Setting the queue of a node that has none keeps everything. -/
theorem trieKeeps_setQueue (hnode : Live trie node) (hnone : (trieNode trie node).q = none) (q : ℕ) :
    TrieKeeps trie (trie.modify node fun cell => { cell with q := some q }) := by
  refine ⟨fun a ha => Heap.exists_modify_cells node _ ha, fun name a hfound => ?_,
    fun a q' hq => ?_⟩
  · rw [findNode, childOf_setQueue]
    exact hfound
  · rw [trieNode_setQueue hnode, if_neg, hq]
    rintro rfl
    rw [hnone] at hq
    cases hq

/-- A name keeps its queue. -/
theorem TrieKeeps.queueOf {store store' : Store} (h : TrieKeeps store.trie store'.trie) {p : ℕ}
    (hq : store.queueOf name = some p) : store'.queueOf name = some p := by
  obtain ⟨a, hfound, hqueue⟩ := Option.bind_eq_some_iff.mp hq
  exact Option.bind_eq_some_iff.mpr ⟨a, h.find name a hfound, h.queue a p hqueue⟩

/-- A caller goes on from where it was when the trie only grows. -/
theorem PoolCaller.Walks.keep (h : caller.Walks trie) (hkeeps : TrieKeeps trie trie') :
    caller.Walks trie' := by
  intro node rest hreached
  obtain ⟨hlive, walked, hname, hfound⟩ := h node rest hreached
  exact ⟨hkeeps.live node hlive, walked, hname, hkeeps.find walked node hfound⟩

/-- A call that has come to a node by a part of its name. -/
theorem PoolCaller.walks_of_reached (hreached : point.reached = some (node, rest))
    (hlive : Live trie node) {walked : List UInt8} (hname : caller.name = walked ++ rest)
    (hfound : findNode trie walked = some node) :
    PoolCaller.Walks trie { caller with point := point } := by
  intro node' rest' hreached'
  obtain ⟨rfl, rfl⟩ := Prod.mk.inj (Option.some.inj (hreached.symm.trans hreached'))
  exact ⟨hlive, walked, hname, hfound⟩

/-- One more byte of the name is one more edge. -/
theorem findNode_snoc {walked : List UInt8} {child : ℕ} (hfound : findNode trie walked = some root)
    (hchild : childOf trie root first = some child) :
    findNode trie (walked ++ [first]) = some child := by
  rw [findNode, descend_append, show descend (childOf trie) walked poolRoot = some root from hfound]
  simp [hchild]

namespace PoolRace

/-- The calls under way after one of them has moved or returned. -/
theorem caller_of_update {callers : ℕ → Option PoolCaller} {moved : Option PoolCaller}
    (h : Function.update callers n moved m = some caller) :
    (m = n ∧ moved = some caller) ∨ (m ≠ n ∧ callers m = some caller) := by
  by_cases hmn : m = n
  · rw [hmn, Function.update_self] at h
    exact Or.inl ⟨hmn, h⟩
  · rw [Function.update_of_ne hmn] at h
    exact Or.inr ⟨hmn, h⟩

/-- What a step of a call may do to the memory and the mutexes, and where it leaves the call. -/
structure Moves (s : PoolRace) (n : ℕ) (moved : PoolCaller) (store : Store)
    (mutex : ℕ → Option ℕ) : Prop where
  trie : TrieOk store.trie
  keeps : TrieKeeps s.store.trie store.trie
  walks : moved.Walks store.trie
  others : ∀ m node, m ≠ n → s.mutex node = some m → mutex node = some m
  locks : ∀ node, moved.locks = some node → mutex node = some n
  empty : ∀ node, s.mutex node ≠ some n → s.queueAt node = none →
    (trieNode store.trie node).q = none
  unassigned : ∀ node, moved.point = .assignQueue node → (trieNode store.trie node).q = none
  assigned : ∀ node, moved.hasQueue = some node → (trieNode store.trie node).q ≠ none

/-- A call moves to its next point. -/
theorem Kept.move (h : s.Kept) {moved : PoolCaller} {mutex : ℕ → Option ℕ}
    (hmoves : s.Moves n moved store mutex) :
    Kept { s with
      store := store
      mutex := mutex
      callers := Function.update s.callers n (some moved) } := by
  have hcaller : ∀ {m caller}, Function.update s.callers n (some moved) m = some caller →
      (m = n ∧ caller = moved) ∨ (m ≠ n ∧ s.callers m = some caller) := by
    intro m caller hm
    exact (caller_of_update hm).imp_left fun ⟨hmn, hmoved⟩ => ⟨hmn, (Option.some.inj hmoved).symm⟩
  refine ⟨hmoves.trie, ?_, ?_, ?_, ?_, ?_, h.answers⟩
  · intro m caller hm
    rcases hcaller hm with ⟨-, rfl⟩ | ⟨-, hm⟩
    · exact hmoves.walks
    · exact (h.walks m caller hm).keep hmoves.keeps
  · intro m caller node hm hlocks
    rcases hcaller hm with ⟨rfl, rfl⟩ | ⟨hne, hm⟩
    · exact hmoves.locks node hlocks
    · exact hmoves.others m node hne (h.locks m caller node hm hlocks)
  · intro m caller node hm hpoint
    rcases hcaller hm with ⟨rfl, rfl⟩ | ⟨hne, hm⟩
    · exact hmoves.unassigned node hpoint
    · apply hmoves.empty node _ (h.unassigned m caller node hm hpoint)
      rw [h.locks m caller node hm (by rw [PoolCaller.locks, hpoint])]
      exact fun hsame => hne (Option.some.inj hsame)
  · intro m caller node hm hhas
    rcases hcaller hm with ⟨rfl, rfl⟩ | ⟨hne, hm⟩
    · exact hmoves.assigned node hhas
    · obtain ⟨q, hq⟩ := Option.ne_none_iff_exists'.mp (h.assigned m caller node hm hhas)
      change (trieNode store.trie node).q ≠ none
      rw [hmoves.keeps.queue node q hq]
      nofun
  · intro m name q hmem
    obtain ⟨p, hq, hqueue⟩ := h.returned m name q hmem
    exact ⟨p, hq, hmoves.keeps.queueOf hqueue⟩

/-- A step in the trie, which is perhaps larger after it. -/
theorem moves_walk {moved : PoolCaller} (htrie : TrieOk trie)
    (hgrows : TrieGrows s.store.trie trie) (hwalks : moved.Walks trie)
    (hlocks : ∀ node, moved.locks = some node → s.mutex node = some n)
    (hunassigned : ∀ node, moved.point ≠ .assignQueue node) (hhas : moved.hasQueue = none) :
    s.Moves n moved { s.store with trie := trie } s.mutex where
  trie := htrie
  keeps := hgrows.keeps
  walks := hwalks
  others _ _ _ h := h
  locks := hlocks
  empty node _ hnone := (hgrows.queue node).trans hnone
  unassigned node hpoint := absurd hpoint (hunassigned node)
  assigned node hsome := by
    rw [hhas] at hsome
    cases hsome

/-- A step that only takes or gives back a mutex, or looks at the queue of a node. -/
theorem Kept.moves_lock (h : s.Kept) {moved : PoolCaller} {mutex : ℕ → Option ℕ}
    (hwalks : moved.Walks s.store.trie)
    (hothers : ∀ m node, m ≠ n → s.mutex node = some m → mutex node = some m)
    (hlocks : ∀ node, moved.locks = some node → mutex node = some n)
    (hunassigned : ∀ node, moved.point = .assignQueue node → s.queueAt node = none)
    (hassigned : ∀ node, moved.hasQueue = some node → s.queueAt node ≠ none) :
    s.Moves n moved s.store mutex :=
  ⟨h.trie, .refl _, hwalks, hothers, hlocks, fun _ _ hnone => hnone, hunassigned, hassigned⟩

/-- The mutex of a node after it was assigned. -/
theorem setMutex_self (s : PoolRace) (node : ℕ) (holder : Option ℕ) :
    (s.setMutex node holder).mutex node = holder := Function.update_self _ _ _

/-- Taking a mutex that nobody has takes it from nobody. -/
theorem others_take (hfree : s.mutex node = none) :
    ∀ m node', m ≠ n → s.mutex node' = some m → (s.setMutex node (some n)).mutex node' = some m := by
  intro m node' _ hm
  apply (Function.update_of_ne _ _ _).trans hm
  rintro rfl
  rw [hfree] at hm
  cases hm

/-- Giving a mutex back takes it from nobody else. -/
theorem others_release (hheld : s.mutex node = some n) :
    ∀ m node', m ≠ n → s.mutex node' = some m → (s.setMutex node none).mutex node' = some m := by
  intro m node' hne hm
  apply (Function.update_of_ne _ _ _).trans hm
  rintro rfl
  exact hne (Option.some.inj (hm.symm.trans hheld))

/-- A call in the trie keeps the mutex that it has. -/
theorem Kept.locks_walk (h : s.Kept) (hn : s.callers n = some caller)
    (hlocks : PoolCaller.locks { caller with point := point } = caller.locks) (node : ℕ)
    (hnode : PoolCaller.locks { caller with point := point } = some node) :
    s.mutex node = some n :=
  h.locks n caller node hn (hlocks.symm.trans hnode)

/-- The step that reads a child pointer. -/
theorem Kept.readChild (h : s.Kept) (hn : s.callers n = some caller)
    (hpoint : caller.point = .readChild root name) (hstep : s.callerStep n caller = .ok s') :
    s'.Kept := by
  obtain ⟨hlive, walked, hname, hfound⟩ := h.walks n caller hn root name (by rw [hpoint]; rfl)
  simp only [callerStep, hpoint] at hstep
  cases name with
  | nil =>
    cases hstep
    apply h.move
    apply moves_walk h.trie (.refl _)
    · apply PoolCaller.walks_of_reached _ hlive hname hfound
      cases caller.function <;> rfl
    · apply h.locks_walk hn
      cases hfunction : caller.function <;>
        simp [PoolCaller.locks, hpoint, hfunction, PoolFunction.found]
    · cases caller.function <;> nofun
    · cases caller.function <;> simp [PoolCaller.hasQueue, PoolFunction.found]
  | cons first rest =>
    have hlocks : ∀ point : PoolPoint, point = .installChild root first rest ∨
        (∃ child, point = .readChild child rest) →
        PoolCaller.locks { caller with point := point } = caller.locks := by
      intro point hnext
      rcases hnext with rfl | ⟨child, rfl⟩ <;> rw [PoolCaller.locks, PoolCaller.locks, hpoint]
    simp only at hstep
    split at hstep
    · rename_i child hchild
      cases hstep
      apply h.move
      apply moves_walk h.trie (.refl _) _ (h.locks_walk hn (hlocks _ (Or.inr ⟨child, rfl⟩)))
        nofun rfl
      apply PoolCaller.walks_of_reached rfl (h.trie.live root first child hchild)
      · rw [hname, List.append_cons]
      · exact findNode_snoc hfound hchild
    · cases hstep
      apply h.move
      apply moves_walk h.trie (.refl _) _ (h.locks_walk hn (hlocks _ (Or.inl rfl))) nofun rfl
      exact PoolCaller.walks_of_reached rfl hlive hname hfound

/-- The step that installs a child where there is none. -/
theorem Kept.installChild (h : s.Kept) (hn : s.callers n = some caller)
    (hpoint : caller.point = .installChild root first rest)
    (hfree : childOf s.store.trie root first = none)
    (hstep : s.callerStep n caller = .ok s') : s'.Kept := by
  obtain ⟨hlive, walked, hname, hfound⟩ :=
    h.walks n caller hn root (first :: rest) (by rw [hpoint]; rfl)
  simp only [callerStep, hpoint] at hstep
  cases hstep
  have hgrows := grows_install hlive hfree
  have hchild : childOf (AmqpBroker.installChild s.store.trie root first).2 root first =
      some (AmqpBroker.installChild s.store.trie root first).1 := by
    rw [childOf_install hlive, if_pos ⟨rfl, rfl⟩]
    rfl
  apply h.move
  apply moves_walk (h.trie.install hlive) hgrows _ (h.locks_walk hn _) (by nofun) rfl
  · apply PoolCaller.walks_of_reached rfl
    · exact (h.trie.install hlive).live root first _ hchild
    · rw [hname, List.append_cons]
    · exact findNode_snoc (hgrows.keeps.find _ _ hfound) hchild
  · rw [PoolCaller.locks, PoolCaller.locks, hpoint]

/-- A call at a node stands at the node of its name. -/
theorem Kept.arrived (h : s.Kept) (hn : s.callers n = some caller)
    (hreached : caller.point.reached = some (node, [])) :
    Live s.store.trie node ∧ findNode s.store.trie caller.name = some node := by
  obtain ⟨hlive, walked, hname, hfound⟩ := h.walks n caller hn node [] hreached
  rw [List.append_nil] at hname
  exact ⟨hlive, hname ▸ hfound⟩

/-- A call that stays at the node of its name. -/
theorem Kept.walks_stay (h : s.Kept) (hn : s.callers n = some caller)
    (hreached : caller.point.reached = some (node, [])) (hnext : point.reached = some (node, [])) :
    PoolCaller.Walks s.store.trie { caller with point := point } := by
  obtain ⟨hlive, hfound⟩ := h.arrived hn hreached
  exact PoolCaller.walks_of_reached hnext hlive (List.append_nil _).symm hfound

/-- Taking the mutex of a node changes no queue. -/
theorem Kept.lockNode (h : s.Kept) (hn : s.callers n = some caller)
    (hpoint : caller.point = .lockNode node) (hstep : s.callerStep n caller = .ok s') :
    s'.Kept := by
  simp only [callerStep, hpoint] at hstep
  split at hstep
  · rename_i hfree
    cases hstep
    apply h.move
    apply h.moves_lock (h.walks_stay hn (by rw [hpoint]; rfl) rfl) (others_take hfree)
    · intro node' hlocks
      obtain rfl := Option.some.inj hlocks
      exact setMutex_self s node (some n)
    · nofun
    · nofun
  · cases hstep

/-- The step that tests the queue of a node. -/
theorem Kept.testQueue (h : s.Kept) (hn : s.callers n = some caller)
    (hpoint : caller.point = .testQueue node) (hstep : s.callerStep n caller = .ok s') :
    s'.Kept := by
  have hheld := h.locks n caller node hn (by rw [PoolCaller.locks, hpoint])
  have hkeeps : ∀ {moved : PoolCaller}, moved.locks = some node → ∀ node',
      moved.locks = some node' → s.mutex node' = some n := by
    intro moved hmoved node' hlocks
    obtain rfl := Option.some.inj (hmoved.symm.trans hlocks)
    exact hheld
  simp only [callerStep, hpoint] at hstep
  split at hstep
  · rename_i hnone
    cases hstep
    apply h.move
    apply h.moves_lock (h.walks_stay hn (by rw [hpoint]; rfl) rfl) (fun _ _ _ hm => hm) (hkeeps rfl)
    · intro node' hnode'
      obtain rfl := PoolPoint.assignQueue.inj hnode'
      exact hnone
    · nofun
  · rename_i hsome
    cases hstep
    apply h.move
    apply h.moves_lock (h.walks_stay hn (by rw [hpoint]; rfl) rfl) (fun _ _ _ hm => hm) (hkeeps rfl)
    · nofun
    · intro node' hnode'
      obtain rfl := Option.some.inj hnode'
      exact hsome

/-- Giving the mutex of a node back changes no queue. -/
theorem Kept.unlockNode (h : s.Kept) (hn : s.callers n = some caller)
    (hpoint : caller.point = .unlockNode node) (hstep : s.callerStep n caller = .ok s') :
    s'.Kept := by
  have hheld := h.locks n caller node hn (by rw [PoolCaller.locks, hpoint])
  have hqueue := h.assigned n caller node hn (by rw [PoolCaller.hasQueue, hpoint])
  simp only [callerStep, hpoint] at hstep
  cases hstep
  apply h.move
  apply h.moves_lock (h.walks_stay hn (by rw [hpoint]; rfl) rfl) (others_release hheld)
  · nofun
  · nofun
  · intro node' hnode'
    simp only [PoolCaller.hasQueue] at hnode'
    split at hnode'
    · obtain rfl := Option.some.inj hnode'
      exact hqueue
    · cases hnode'

/-- Taking the mutex of the pool changes no queue. -/
theorem Kept.lockPool (h : s.Kept) (hpoint : caller.point = .lockPool)
    (hstep : s.callerStep n caller = .ok s') : s'.Kept := by
  simp only [callerStep, hpoint] at hstep
  split at hstep
  · rename_i hfree
    cases hstep
    apply h.move
    apply h.moves_lock _ (others_take hfree)
    · intro node hlocks
      simp only [PoolCaller.locks] at hlocks
      split at hlocks
      · obtain rfl := Option.some.inj hlocks
        exact setMutex_self s poolRoot (some n)
      · cases hlocks
    · nofun
    · nofun
    · exact PoolCaller.walks_of_reached rfl h.trie.root (List.nil_append _).symm rfl
  · cases hstep

/-- Giving the mutex of the pool back changes no queue. -/
theorem Kept.unlockPool (h : s.Kept) (hn : s.callers n = some caller)
    (hpoint : caller.point = .unlockPool node) (hstep : s.callerStep n caller = .ok s') :
    s'.Kept := by
  have hheld := h.locks n caller poolRoot hn (by rw [PoolCaller.locks, hpoint])
  simp only [callerStep, hpoint] at hstep
  cases hstep
  apply h.move
  exact h.moves_lock (h.walks_stay hn (by rw [hpoint]; rfl) rfl) (others_release hheld) nofun nofun
    nofun

/-- The store after `node->q = new_queue(name)`. -/
def assigned (store : Store) (node : ℕ) (name : List UInt8) : Store :=
  { store with
    queues := store.queues.alloc (.fresh name)
    trie := store.trie.modify node fun cell => { cell with q := some store.queues.next } }

/-- The assignment changes the queue of its node only. -/
theorem queue_assigned {store : Store} (hlive : Live store.trie node) (name : List UInt8) (a : ℕ) :
    (trieNode (assigned store node name).trie a).q =
      if a = node then some store.queues.next else (trieNode store.trie a).q :=
  trieNode_setQueue hlive _ a

/-- `node->q = new_queue(name)` returns for a name that fits only. -/
theorem assignQueue_eq_ok {store store' : Store} {name : List UInt8}
    (h : PoolRace.assignQueue store node name = .ok store') :
    name.length + 1 ≤ maxQueueName ∧ store' = assigned store node name := by
  unfold PoolRace.assignQueue at h
  cases hnew : newQueue name store with
  | error reason =>
    rw [hnew] at h
    cases h
  | ok result =>
    obtain ⟨hfits, hq, hstore⟩ := newQueue_eq_ok hnew
    rw [hnew] at h
    cases h
    rw [hq, hstore]
    exact ⟨hfits, rfl⟩

/-- The step that makes the queue of a node returns for a name that fits. -/
theorem callerStep_of_fits (hfits : caller.name.length + 1 ≤ maxQueueName)
    (hpoint : caller.point = .assignQueue node) :
    s.callerStep n caller = .ok ({ s with store := assigned s.store node caller.name }.moveTo n
      caller (.unlockNode node)) := by
  simp only [callerStep, hpoint, PoolRace.assignQueue, newQueue_of_fits hfits]
  rfl

/-- What the step that makes the queue of a node does. -/
theorem callerStep_assignQueue (hpoint : caller.point = .assignQueue node)
    (hstep : s.callerStep n caller = .ok s') :
    s' = { s with store := assigned s.store node caller.name }.moveTo n caller
      (.unlockNode node) := by
  simp only [callerStep, hpoint] at hstep
  cases hassign : PoolRace.assignQueue s.store node caller.name with
  | error reason =>
    rw [hassign] at hstep
    cases hstep
  | ok store =>
    rw [hassign] at hstep
    cases hstep
    rw [(assignQueue_eq_ok hassign).2]

/-- The step that makes the queue of a node. -/
theorem Kept.assignQueue (h : s.Kept) (hn : s.callers n = some caller)
    (hpoint : caller.point = .assignQueue node) (hstep : s.callerStep n caller = .ok s') :
    s'.Kept := by
  have hreached : caller.point.reached = some (node, []) := by rw [hpoint]; rfl
  obtain ⟨hlive, -⟩ := h.arrived hn hreached
  have hheld := h.locks n caller node hn (by rw [PoolCaller.locks, hpoint])
  have hnone := h.unassigned n caller node hn hpoint
  have hkeeps := trieKeeps_setQueue hlive hnone s.store.queues.next
  rw [callerStep_assignQueue hpoint hstep]
  apply h.move
  constructor
  · exact h.trie.setQueue node s.store.queues.next
  · exact hkeeps
  · have hstay : PoolCaller.Walks s.store.trie { caller with point := .unlockNode node } :=
      h.walks_stay hn hreached rfl
    exact hstay.keep hkeeps
  · exact fun _ _ _ hm => hm
  · intro node' hlocks
    obtain rfl := Option.some.inj hlocks
    exact hheld
  · intro node' hother hempty
    refine (queue_assigned hlive _ _).trans ?_
    rw [if_neg]
    · exact hempty
    · rintro rfl
      exact hother hheld
  · nofun
  · intro node' hnode'
    obtain rfl := Option.some.inj hnode'
    rw [ne_eq, queue_assigned hlive, if_pos rfl]
    nofun

/-- The step that returns: the answer is the queue of the name. -/
theorem Kept.readQueue (h : s.Kept) (hn : s.callers n = some caller)
    (hpoint : caller.point = .readQueue node) (hstep : s.callerStep n caller = .ok s') :
    s'.Kept := by
  obtain ⟨-, hfound⟩ := h.arrived hn (by rw [hpoint]; rfl)
  have hanswer : s.queueAt node = s.store.queueOf caller.name := by
    rw [Store.queueOf, hfound]
    rfl
  have hothers : ∀ {m caller'}, Function.update s.callers n none m = some caller' →
      s.callers m = some caller' := by
    intro m caller' hm
    rcases caller_of_update hm with ⟨-, hnone⟩ | ⟨-, hm⟩
    · cases hnone
    · exact hm
  simp only [callerStep, hpoint] at hstep
  cases hstep
  refine ⟨h.trie, fun m caller' hm => h.walks m caller' (hothers hm),
    fun m caller' node hm => h.locks m caller' node (hothers hm),
    fun m caller' node hm => h.unassigned m caller' node (hothers hm),
    fun m caller' node hm => h.assigned m caller' node (hothers hm), ?_, ?_⟩
  · intro m name q hmem
    rcases List.mem_append.mp hmem with hold | hnew
    · exact h.returned m name q hold
    · obtain ⟨-, hfunction, rfl, rfl⟩ := PoolEvent.returned.inj (List.mem_singleton.mp hnew)
      have hqueue := h.assigned n caller node hn
        (by simp only [PoolCaller.hasQueue, hpoint, if_pos hfunction.symm])
      obtain ⟨p, hp⟩ := Option.ne_none_iff_exists'.mp hqueue
      exact ⟨p, hp, hanswer.symm.trans hp⟩
  · apply List.pairwise_append.mpr
    refine ⟨h.answers, List.pairwise_singleton _ _, ?_⟩
    intro first hfirst second hsecond i j function name q result hi hj
    rw [List.mem_singleton.mp hsecond] at hj
    obtain ⟨-, -, rfl, rfl⟩ := PoolEvent.returned.inj hj
    rw [hi] at hfirst
    obtain ⟨p, hp, hqueue⟩ := h.returned i caller.name (some q) hfirst
    rw [hanswer, hqueue, hp]

/-- A new call. -/
theorem Kept.call (h : s.Kept) (hstep : s.step (.call function name) = .ok s') : s'.Kept := by
  have hwalks : PoolCaller.Walks s.store.trie ⟨function, name, function.entry name⟩ := by
    cases function with
    | createQueue => nofun
    | getQueue =>
      intro node rest hreached
      obtain ⟨rfl, rfl⟩ := Prod.mk.inj (Option.some.inj hreached)
      exact ⟨h.trie.root, [], rfl, rfl⟩
  have hmoved := h.move (n := s.next) (moves_walk h.trie (.refl _) hwalks
    (by cases function <;> nofun) (by cases function <;> nofun) (by cases function <;> rfl))
  cases hstep
  refine ⟨hmoved.trie, hmoved.walks, hmoved.locks, hmoved.unassigned, hmoved.assigned, ?_, ?_⟩
  · intro m name' q hmem
    rcases List.mem_append.mp hmem with hold | hnew
    · exact h.returned m name' q hold
    · cases List.mem_singleton.mp hnew
  · apply List.pairwise_append.mpr
    refine ⟨h.answers, List.pairwise_singleton _ _, ?_⟩
    intro first _ second hsecond i j function' name' q result _ hj
    rw [List.mem_singleton.mp hsecond] at hj
    cases hj

/-- Every step that installs no child over another one keeps what was declared. -/
theorem Kept.step (h : s.Kept) (hguard : s.InstallsFree act) (hstep : s.step act = .ok s') :
    s'.Kept := by
  cases act with
  | call function name => exact h.call hstep
  | step n =>
    simp only [PoolRace.step] at hstep
    split at hstep
    · cases hstep
    · rename_i caller hn
      cases hpoint : caller.point with
      | lockPool => exact h.lockPool hpoint hstep
      | readChild root name => exact h.readChild hn hpoint hstep
      | installChild root first rest =>
        have hfree := hguard caller hn
        rw [hpoint] at hfree
        exact h.installChild hn hpoint hfree hstep
      | unlockPool node => exact h.unlockPool hn hpoint hstep
      | lockNode node => exact h.lockNode hn hpoint hstep
      | testQueue node => exact h.testQueue hn hpoint hstep
      | assignQueue node => exact h.assignQueue hn hpoint hstep
      | unlockNode node => exact h.unlockNode hn hpoint hstep
      | readQueue node => exact h.readQueue hn hpoint hstep

/-- Nothing has been created yet. -/
theorem kept_initial : initial.Kept :=
  ⟨poolOk_initQueuePool.trie, nofun, nofun, nofun, nofun, nofun, .nil⟩

/-- What was declared is never lost. -/
theorem Kept.neverLost (h : s.Kept) : NeverLost s.history where
  kept i j function name q result hsublist := by
    have hpair := (h.answers.sublist hsublist)
    rw [List.pairwise_cons] at hpair
    apply hpair.1 (.returned j function name result) _ i j function name q result rfl rfl
    simp
  unique i j name q q' hi hj := by
    obtain ⟨p, rfl, hp⟩ := h.returned i name q hi
    obtain ⟨p', rfl, hp'⟩ := h.returned j name q' hj
    exact hp.symm.trans hp'
  made i name q hi := by
    obtain ⟨p, rfl, -⟩ := h.returned i name q hi
    nofun

/-- In every run of calls in any order of their steps, as long as no child is installed over
another one, a declared queue is never lost. -/
theorem declared_never_lost (h : Reaches PoolRace.step InstallsFree initial s) :
    NeverLost s.history := by
  have hkept : s.Kept := h.invariant kept_initial fun _ _ _ hs hguard hstep => hs.step hguard hstep
  exact hkept.neverLost

/-- A lookup that comes in while the name is being declared, and one after it. -/
def lookedUpWhileDeclared : List PoolRaceAct :=
  [.call .createQueue [97], .call .getQueue [97], .step 0, .step 0, .step 0, .step 1, .step 1,
    .step 1] ++ List.replicate 7 (.step 0) ++ [.call .getQueue [97], .step 2, .step 2, .step 2]

/-- The second lookup finds the queue. -/
theorem declared_never_lost_lookedUpWhileDeclared :
    ∃ s, guardedExec PoolRace.step InstallsFree initial lookedUpWhileDeclared = some s ∧
      s.history = [.started 0 .createQueue [97], .started 1 .getQueue [97],
        .returned 1 .getQueue [97] none, .returned 0 .createQueue [97] (some 0),
        .started 2 .getQueue [97], .returned 2 .getQueue [97] (some 0)] ∧ NeverLost s.history := by
  have hobserved : (guardedExec PoolRace.step InstallsFree initial lookedUpWhileDeclared).map
      PoolRace.history = some [.started 0 .createQueue [97], .started 1 .getQueue [97],
        .returned 1 .getQueue [97] none, .returned 0 .createQueue [97] (some 0),
        .started 2 .getQueue [97], .returned 2 .getQueue [97] (some 0)] := by decide +kernel
  obtain ⟨s, hrun, hhistory⟩ := Option.map_eq_some_iff.mp hobserved
  exact ⟨s, hrun, hhistory, declared_never_lost (reaches_of_guardedExec hrun)⟩

/-- A lookup that has read NULL before the declaration installs its child after it. -/
def lookedUpBefore : List PoolRaceAct :=
  [.call .createQueue [97], .call .getQueue [97], .step 0, .step 0, .step 1] ++
    List.replicate 8 (.step 0) ++ List.replicate 3 (.step 1) ++ [.call .createQueue [97]] ++
    List.replicate 9 (.step 2)

/-- The child of the lookup hides the declared queue, and the next declaration makes another. -/
theorem lookedUpBefore_loses :
    ¬ ∀ s, Reaches PoolRace.step (fun _ _ => True) initial s → NeverLost s.history := by
  intro hall
  have hobserved : (exec PoolRace.step initial lookedUpBefore).toOption.map PoolRace.history =
      some [.started 0 .createQueue [97], .started 1 .getQueue [97],
        .returned 0 .createQueue [97] (some 0), .returned 1 .getQueue [97] none,
        .started 2 .createQueue [97], .returned 2 .createQueue [97] (some 1)] := by decide +kernel
  obtain ⟨s, hrun, hhistory⟩ := exec_observed hobserved
  have hnever := hall s (reaches_of_exec hrun)
  rw [hhistory] at hnever
  have hsame := hnever.unique 0 2 [97] (some 0) (some 1) (by simp) (by simp)
  cases hsame

end PoolRace

end AmqpBroker
