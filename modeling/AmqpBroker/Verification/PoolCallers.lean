import AmqpBroker.Verification.LostQueue

/-!
# Calls one at a time

A call that no other one disturbs, step by step, is the function of the pool as a whole. And
callers of `create_queue` do not disturb one another: the mutex of the pool leaves one of them
in the trie at a time.
-/

namespace AmqpBroker

open Foundations Program

namespace PoolRace

variable {s s' s'' : PoolRace} {n m : ℕ} {caller : PoolCaller} {point : PoolPoint} {node root : ℕ}
  {name : List UInt8} {act : PoolRaceAct}

/-- The steps of one call, and no others, lead from the first state to the second. -/
def RunsTo (n : ℕ) (s s' : PoolRace) : Prop :=
  ∃ k, exec PoolRace.step s (List.replicate k (.step n)) = .ok s'

/-- The number of a new call and its place in the history are taken. -/
def announce (s : PoolRace) (function : PoolFunction) (name : List UInt8) : PoolRace :=
  { s with
    next := s.next + 1
    history := s.history ++ [.started s.next function name] }

/-- The same with another trie. -/
def withTrie (s : PoolRace) (trie : Heap TrieNode) : PoolRace :=
  { s with store := { s.store with trie := trie } }

/-- No step leads to the same state. -/
theorem RunsTo.refl (n : ℕ) (s : PoolRace) : RunsTo n s s := ⟨0, rfl⟩

/-- Steps of one caller, one stretch after the other. -/
theorem RunsTo.trans (h : RunsTo n s s') (h' : RunsTo n s' s'') : RunsTo n s s'' := by
  obtain ⟨k, hrun⟩ := h
  obtain ⟨k', hrun'⟩ := h'
  refine ⟨k + k', ?_⟩
  rw [List.replicate_add]
  exact exec_append_eq_ok.mpr ⟨s', hrun, hrun'⟩

/-- The memory and the mutexes change in a move of a call that has moved before. -/
theorem moveTo_moveTo (s : PoolRace) (n : ℕ) (caller : PoolCaller) (point point' : PoolPoint)
    (store : Store) (mutex : ℕ → Option ℕ) :
    { s.moveTo n caller point with store := store, mutex := mutex }.moveTo n caller point' =
      { s with store := store, mutex := mutex }.moveTo n caller point' := by
  simp only [moveTo, Function.update_idem]

/-- One step of a call. -/
theorem runsTo_step (store : Store) (mutex : ℕ → Option ℕ) {point' : PoolPoint}
    (hstep : (s.moveTo n caller point).callerStep n { caller with point := point } =
      .ok ({ s.moveTo n caller point with store := store, mutex := mutex }.moveTo n caller
        point')) :
    RunsTo n (s.moveTo n caller point)
      ({ s with store := store, mutex := mutex }.moveTo n caller point') := by
  rw [moveTo_moveTo] at hstep
  have hself : (s.moveTo n caller point).callers n = some { caller with point := point } :=
    Function.update_self _ _ _
  refine ⟨1, ?_⟩
  rw [List.replicate_one, exec_cons, exec_nil]
  simp only [PoolRace.step, hself, hstep]

/-- `_get_trie_node` without other callers. -/
theorem runsTo_getTrieNode (s : PoolRace) (n : ℕ) (caller : PoolCaller) (root : ℕ)
    (name : List UInt8) :
    RunsTo n (s.moveTo n caller (.readChild root name))
      ((s.withTrie (getTrieNode name root s.store.trie).2).moveTo n caller
        (caller.function.found (getTrieNode name root s.store.trie).1)) := by
  induction name generalizing s root with
  | nil => exact runsTo_step s.store s.mutex rfl
  | cons first name ih =>
    cases hchild : (trieNode s.store.trie root).children first with
    | some child =>
      have hread : RunsTo n (s.moveTo n caller (.readChild root (first :: name)))
          (s.moveTo n caller (.readChild child name)) := by
        apply runsTo_step s.store s.mutex
        simp only [callerStep, moveTo, hchild]
      apply hread.trans
      rw [getTrieNode, hchild]
      exact ih s child
    | none =>
      have hread : RunsTo n (s.moveTo n caller (.readChild root (first :: name)))
          (s.moveTo n caller (.installChild root first name)) := by
        apply runsTo_step s.store s.mutex
        simp only [callerStep, moveTo, hchild]
      have hinstall : RunsTo n (s.moveTo n caller (.installChild root first name))
          ((s.withTrie (installChild s.store.trie root first).2).moveTo n caller
            (.readChild (installChild s.store.trie root first).1 name)) :=
        runsTo_step { s.store with trie := (installChild s.store.trie root first).2 } s.mutex rfl
      apply hread.trans
      apply hinstall.trans
      rw [getTrieNode, hchild]
      exact ih (s.withTrie _) _

/-- The last step of a call. -/
theorem runsTo_readQueue (s : PoolRace) (n : ℕ) (caller : PoolCaller) (node : ℕ) :
    ∃ s', RunsTo n (s.moveTo n caller (.readQueue node)) s' ∧ s'.store = s.store ∧
      s'.history = s.history ++ [.returned n caller.function caller.name (s.queueAt node)] := by
  have hself : (s.moveTo n caller (.readQueue node)).callers n =
      some { caller with point := .readQueue node } := Function.update_self _ _ _
  refine ⟨{ s with
    callers := Function.update (s.moveTo n caller (.readQueue node)).callers n none
    history := s.history ++ [.returned n caller.function caller.name (s.queueAt node)] },
    ⟨1, ?_⟩, rfl, rfl⟩
  rw [List.replicate_one, exec_cons, exec_nil]
  simp only [PoolRace.step, hself]
  rfl

/-- The last steps of `create_queue`, with the queue found or made. -/
theorem runsTo_unlockNode (s : PoolRace) (n : ℕ) (caller : PoolCaller) (node : ℕ) :
    ∃ s', RunsTo n (s.moveTo n caller (.unlockNode node)) s' ∧ s'.store = s.store ∧
      s'.history = s.history ++ [.returned n caller.function caller.name (s.queueAt node)] := by
  have hunlock : RunsTo n (s.moveTo n caller (.unlockNode node))
      ((s.setMutex node none).moveTo n caller (.readQueue node)) := runsTo_step s.store _ rfl
  obtain ⟨s', hread, hstore, hhistory⟩ := runsTo_readQueue (s.setMutex node none) n caller node
  exact ⟨s', hunlock.trans hread, hstore, hhistory⟩

/-- `create_queue` at its node, when nobody has the mutex of the node. -/
theorem runsTo_lockNode (caller : PoolCaller) (hfits : caller.name.length + 1 ≤ maxQueueName)
    (hfree : s.mutex node = none) (hlive : Live s.store.trie node) :
    ∃ s' q, RunsTo n (s.moveTo n caller (.lockNode node)) s' ∧
      s'.history = s.history ++ [.returned n caller.function caller.name (some q)] ∧
      ((s.queueAt node = some q ∧ s'.store = s.store) ∨
        (s.queueAt node = none ∧ q = s.store.queues.next ∧
          s'.store = assigned s.store node caller.name)) := by
  have hlock : RunsTo n (s.moveTo n caller (.lockNode node))
      ((s.setMutex node (some n)).moveTo n caller (.testQueue node)) :=
    runsTo_step s.store _ (if_pos hfree)
  cases hq : s.queueAt node with
  | some q =>
    have htest : RunsTo n ((s.setMutex node (some n)).moveTo n caller (.testQueue node))
        ((s.setMutex node (some n)).moveTo n caller (.unlockNode node)) := by
      have hsome : ¬ s.queueAt node = none := by
        rw [hq]
        nofun
      exact runsTo_step s.store _ (if_neg hsome)
    obtain ⟨s', hreturn, hstore, hhistory⟩ :=
      runsTo_unlockNode (s.setMutex node (some n)) n caller node
    refine ⟨s', q, (hlock.trans htest).trans hreturn, ?_, Or.inl ⟨rfl, hstore⟩⟩
    rw [hhistory, ← hq]
    rfl
  | none =>
    have htest : RunsTo n ((s.setMutex node (some n)).moveTo n caller (.testQueue node))
        ((s.setMutex node (some n)).moveTo n caller (.assignQueue node)) :=
      runsTo_step s.store _ (if_pos hq)
    have hassign : RunsTo n ((s.setMutex node (some n)).moveTo n caller (.assignQueue node))
        ({ s.setMutex node (some n) with store := assigned s.store node caller.name }.moveTo n
          caller (.unlockNode node)) :=
      runsTo_step (assigned s.store node caller.name) _ (callerStep_of_fits hfits rfl)
    obtain ⟨s', hreturn, hstore, hhistory⟩ := runsTo_unlockNode
      { s.setMutex node (some n) with store := assigned s.store node caller.name } n caller node
    have hmade : (trieNode (assigned s.store node caller.name).trie node).q =
        some s.store.queues.next := by
      rw [queue_assigned hlive, if_pos rfl]
    refine ⟨s', s.store.queues.next, (hlock.trans (htest.trans hassign)).trans hreturn, ?_,
      Or.inr ⟨rfl, rfl, hstore⟩⟩
    rw [hhistory, ← hmade]
    rfl

/-- `get_queue` without other callers. -/
theorem getQueue_alone (s : PoolRace) (name : List UInt8) :
    ∃ s₁ s' q, PoolRace.step s (.call .getQueue name) = .ok s₁ ∧ RunsTo s.next s₁ s' ∧
      getQueue name s.store = .ok (q, s'.store) ∧
      s'.history = s.history ++ [.started s.next .getQueue name,
        .returned s.next .getQueue name q] := by
  have hwalk := runsTo_getTrieNode (s.announce .getQueue name) s.next ⟨.getQueue, name, .lockPool⟩
    poolRoot name
  obtain ⟨s', hreturn, hstore, hhistory⟩ := runsTo_readQueue
    ((s.announce .getQueue name).withTrie (getTrieNode name poolRoot s.store.trie).2) s.next
    ⟨.getQueue, name, .lockPool⟩ (getTrieNode name poolRoot s.store.trie).1
  refine ⟨_, s', (trieNode (getTrieNode name poolRoot s.store.trie).2
    (getTrieNode name poolRoot s.store.trie).1).q, rfl, hwalk.trans hreturn, ?_, ?_⟩
  · rw [hstore]
    rfl
  · rw [hhistory]
    exact List.append_assoc _ _ _

/-- `create_queue` without other callers. -/
theorem createQueue_alone (htrie : TrieOk s.store.trie) (hfree : ∀ node, s.mutex node = none)
    {name : List UInt8} (hfits : name.length + 1 ≤ maxQueueName) :
    ∃ s₁ s' q, PoolRace.step s (.call .createQueue name) = .ok s₁ ∧ RunsTo s.next s₁ s' ∧
      createQueue name s.store = .ok (q, s'.store) ∧
      s'.history = s.history ++ [.started s.next .createQueue name,
        .returned s.next .createQueue name (some q)] := by
  obtain ⟨-, -, hlive, -⟩ := getTrieNode_spec name poolRoot s.store.trie htrie htrie.root
  have hlookup : lookupNode name s.store = .ok ((getTrieNode name poolRoot s.store.trie).1,
      { s.store with trie := (getTrieNode name poolRoot s.store.trie).2 }) := rfl
  have hlock : RunsTo s.next
      ((s.announce .createQueue name).moveTo s.next ⟨.createQueue, name, .lockPool⟩ .lockPool)
      (((s.announce .createQueue name).setMutex poolRoot (some s.next)).moveTo s.next
        ⟨.createQueue, name, .lockPool⟩ (.readChild poolRoot name)) :=
    runsTo_step s.store _ (if_pos (hfree poolRoot))
  have hwalk := runsTo_getTrieNode ((s.announce .createQueue name).setMutex poolRoot (some s.next))
    s.next ⟨.createQueue, name, .lockPool⟩ poolRoot name
  have hunlock : RunsTo s.next
      ((((s.announce .createQueue name).setMutex poolRoot (some s.next)).withTrie
        (getTrieNode name poolRoot s.store.trie).2).moveTo s.next ⟨.createQueue, name, .lockPool⟩
          (.unlockPool (getTrieNode name poolRoot s.store.trie).1))
      (((((s.announce .createQueue name).setMutex poolRoot (some s.next)).withTrie
        (getTrieNode name poolRoot s.store.trie).2).setMutex poolRoot none).moveTo s.next
          ⟨.createQueue, name, .lockPool⟩
          (.lockNode (getTrieNode name poolRoot s.store.trie).1)) :=
    runsTo_step { s.store with trie := (getTrieNode name poolRoot s.store.trie).2 } _ rfl
  have hreleased : ∀ node, ((((s.announce .createQueue name).setMutex poolRoot
      (some s.next)).withTrie (getTrieNode name poolRoot s.store.trie).2).setMutex poolRoot
        none).mutex node = none := by
    intro node
    simp only [setMutex, withTrie, Function.update_idem, Function.update_apply]
    split
    · rfl
    · exact hfree node
  obtain ⟨s', q, hrun, hhistory, hresult⟩ := runsTo_lockNode (n := s.next)
    ⟨.createQueue, name, .lockPool⟩ hfits (hreleased _) hlive
  refine ⟨_, s', q, rfl, hlock.trans (hwalk.trans (hunlock.trans hrun)), ?_, ?_⟩
  · rcases hresult with ⟨hq, hstore⟩ | ⟨hq, rfl, hstore⟩
    · have hnode : (trieNode (getTrieNode name poolRoot s.store.trie).2
          (getTrieNode name poolRoot s.store.trie).1).q = some q := hq
      rw [hstore, createQueue, bind_of_ok hlookup, read_bind_apply]
      simp only [hnode]
      rfl
    · have hnode : (trieNode (getTrieNode name poolRoot s.store.trie).2
          (getTrieNode name poolRoot s.store.trie).1).q = none := hq
      rw [hstore, createQueue, bind_of_ok hlookup, read_bind_apply]
      simp only [hnode]
      rw [bind_of_ok (newQueue_of_fits hfits _)]
      rfl
  · rw [hhistory]
    exact List.append_assoc _ _ _

/-- All calls are of `create_queue`, and a child that one of them installs is missing. -/
def CreatesOnly (s : PoolRace) : Prop :=
  ∀ n caller, s.callers n = some caller →
    caller.function = .createQueue ∧ caller.point.Free s.store.trie

/-- What a step of a call does to the calls and to the edges of the trie. -/
structure Advances (s : PoolRace) (n : ℕ) (caller : PoolCaller) (s' : PoolRace) : Prop where
  callers : ∃ moved : Option PoolCaller, s'.callers = Function.update s.callers n moved ∧
    ∀ next, moved = some next → next.function = caller.function ∧ next.point.Free s'.store.trie
  edges : childOf s'.store.trie = childOf s.store.trie ∨
    ∃ root first rest, caller.point = .installChild root first rest

/-- The call is at a point where the child it is to install is missing, if there is one. -/
theorem advances_moveTo {store : Store} {mutex : ℕ → Option ℕ} (hfree : point.Free store.trie)
    (hedges : childOf store.trie = childOf s.store.trie ∨
      ∃ root first rest, caller.point = .installChild root first rest) :
    s.Advances n caller ({ s with store := store, mutex := mutex }.moveTo n caller point) := by
  refine ⟨⟨_, rfl, ?_⟩, hedges⟩
  intro next hnext
  rw [← Option.some.inj hnext]
  exact ⟨rfl, hfree⟩

/-- Every step of a call is such a step. -/
theorem callerStep_advances (hstep : s.callerStep n caller = .ok s') : s.Advances n caller s' := by
  cases hpoint : caller.point with
  | lockPool =>
    simp only [callerStep, hpoint] at hstep
    split at hstep
    · cases hstep
      exact advances_moveTo trivial (Or.inl rfl)
    · cases hstep
  | readChild root name =>
    simp only [callerStep, hpoint] at hstep
    cases name with
    | nil =>
      cases hstep
      apply advances_moveTo _ (Or.inl rfl)
      cases caller.function <;> trivial
    | cons first name =>
      simp only at hstep
      split at hstep
      · cases hstep
        exact advances_moveTo trivial (Or.inl rfl)
      · rename_i hchild
        cases hstep
        exact advances_moveTo hchild (Or.inl rfl)
  | installChild root first name =>
    simp only [callerStep, hpoint] at hstep
    cases hstep
    exact advances_moveTo trivial (Or.inr ⟨root, first, name, hpoint⟩)
  | unlockPool node =>
    simp only [callerStep, hpoint] at hstep
    cases hstep
    exact advances_moveTo trivial (Or.inl rfl)
  | lockNode node =>
    simp only [callerStep, hpoint] at hstep
    split at hstep
    · cases hstep
      exact advances_moveTo trivial (Or.inl rfl)
    · cases hstep
  | testQueue node =>
    simp only [callerStep, hpoint] at hstep
    split at hstep
    · cases hstep
      exact advances_moveTo trivial (Or.inl rfl)
    · cases hstep
      exact advances_moveTo trivial (Or.inl rfl)
  | assignQueue node =>
    rw [callerStep_assignQueue hpoint hstep]
    exact advances_moveTo trivial (Or.inl (childOf_setQueue node s.store.queues.next))
  | unlockNode node =>
    simp only [callerStep, hpoint] at hstep
    cases hstep
    exact advances_moveTo trivial (Or.inl rfl)
  | readQueue node =>
    simp only [callerStep, hpoint] at hstep
    cases hstep
    exact ⟨⟨none, rfl, fun _ hnone => absurd hnone.symm (Option.some_ne_none _)⟩, Or.inl rfl⟩

/-- Whether a child is missing depends on the edges only. -/
theorem free_congr {trie trie' : Heap TrieNode} (h : childOf trie' = childOf trie)
    (hfree : point.Free trie) : point.Free trie' := by
  cases point with
  | installChild root first name =>
    change childOf trie' root first = none
    rw [h]
    exact hfree
  | _ => trivial

/-- The call that installs a child is the only one in the trie. -/
theorem CreatesOnly.free_other (h : s.CreatesOnly) (hkept : s.Kept)
    (hn : s.callers n = some caller) {first : UInt8}
    (hpoint : caller.point = .installChild root first name) {other : PoolCaller}
    (hm : s.callers m = some other) (hne : m ≠ n) (trie : Heap TrieNode) :
    other.point.Free trie := by
  cases hother : other.point with
  | installChild root' first' name' =>
    have hheld := hkept.locks n caller poolRoot hn
      (by rw [PoolCaller.locks, hpoint, if_pos (h n caller hn).1])
    have hheld' := hkept.locks m other poolRoot hm
      (by rw [PoolCaller.locks, hother, if_pos (h m other hm).1])
    exact absurd (Option.some.inj (hheld'.symm.trans hheld)) hne
  | _ => trivial

/-- The mutex of the pool keeps every missing child missing until the call that has found it
missing installs it. -/
theorem CreatesOnly.step (h : s.CreatesOnly) (hkept : s.Kept)
    (hcall : ∀ name, act ≠ .call .getQueue name) (hstep : s.step act = .ok s') :
    s'.CreatesOnly := by
  cases act with
  | call function name =>
    cases function with
    | getQueue => exact absurd rfl (hcall name)
    | createQueue =>
      cases hstep
      intro m other hm
      rcases caller_of_update hm with ⟨-, hnew⟩ | ⟨-, hm⟩
      · rw [← Option.some.inj hnew]
        exact ⟨rfl, trivial⟩
      · exact h m other hm
  | step n =>
    simp only [PoolRace.step] at hstep
    split at hstep
    · cases hstep
    · rename_i caller hn
      obtain ⟨⟨moved, hcallers, hmoved⟩, hedges⟩ := callerStep_advances hstep
      intro m other hm
      rw [hcallers] at hm
      rcases caller_of_update hm with ⟨-, hnext⟩ | ⟨hne, hm⟩
      · obtain ⟨hfunction, hfree⟩ := hmoved other hnext
        exact ⟨hfunction.trans (h n caller hn).1, hfree⟩
      · refine ⟨(h m other hm).1, ?_⟩
        rcases hedges with hsame | ⟨root, first, rest, hpoint⟩
        · exact free_congr hsame (h m other hm).2
        · exact h.free_other hkept hn hpoint hm hne _

/-- With `create_queue` alone no step installs a child over another one. -/
theorem CreatesOnly.installsFree (h : s.CreatesOnly) (act : PoolRaceAct) : s.InstallsFree act := by
  cases act with
  | call function name => trivial
  | step n => exact fun caller hn => (h n caller hn).2

/-- The mutex of the pool is enough for the callers of `create_queue`: in every run without a
`get_queue`, every declaration of a name returns the same queue. -/
theorem createQueue_never_lost
    (h : Reaches PoolRace.step (fun _ act => ∀ name, act ≠ .call .getQueue name) initial s) :
    NeverLost s.history := by
  have hboth : s.Kept ∧ s.CreatesOnly := by
    apply h.invariant ⟨kept_initial, nofun⟩
    intro s act s' ⟨hkept, hcreates⟩ hcall hstep
    exact ⟨hkept.step (hcreates.installsFree act) hstep, hcreates.step hkept hcall hstep⟩
  exact hboth.1.neverLost

end PoolRace

end AmqpBroker
