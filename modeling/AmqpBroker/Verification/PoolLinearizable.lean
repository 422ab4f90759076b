import AmqpBroker.Foundations.AtomicObject
import AmqpBroker.Verification.LostQueue
import AmqpBroker.Verification.TriePaths

/-!
# The pool is a map as long as no child is lost

Any number of calls of `create_queue` and `get_queue`, each stopped between any two of its
steps. While every child is installed where there is none, what the callers see is what a map
from names to queues with atomic calls could have shown them. A `create_queue` takes effect
when it makes the queue or sees that there is one, a `get_queue` when it reads its answer.
-/

namespace AmqpBroker

open Foundations Program

/-- A pool as its callers see it: the queues by their names, and the next one to be made. -/
structure QueueMap where
  queues : List UInt8 → Option ℕ
  next : ℕ

/-- A map without names. -/
def QueueMap.empty : QueueMap := ⟨fun _ => none, 0⟩

/-- What the functions are for, on the map. -/
def servePool : PoolFunction × List UInt8 → QueueMap → Option ℕ × QueueMap
  | (.getQueue, name), m => (m.queues name, m)
  | (.createQueue, name), m =>
    match m.queues name with
    | some q => (some q, m)
    | none => (some m.next, ⟨Function.update m.queues name (some m.next), m.next + 1⟩)

/-- The object whose calls are those of the pool. -/
abbrev PoolObject := AtomicObject ℕ QueueMap (PoolFunction × List UInt8) (Option ℕ)

/-- A start or a return as it is seen from outside. -/
def PoolEvent.seen : PoolEvent → CallEvent ℕ (PoolFunction × List UInt8) (Option ℕ)
  | .started n function name => .begins n (function, name)
  | .returned n _ _ q => .returns n q

/-- A point that only `create_queue` has. -/
def PoolPoint.creates : PoolPoint → Bool
  | .readChild _ _ | .installChild _ _ _ | .readQueue _ => false
  | _ => true

/-- Where the caller is, as seen from outside. -/
def PoolCaller.standing (store : Store) (caller : PoolCaller) :
    Standing (PoolFunction × List UInt8) (Option ℕ) :=
  match caller.hasQueue with
  | some node => .served (trieNode store.trie node).q
  | none => .waiting (caller.function, caller.name)

/-- The queue of one node changes the answer for one name. -/
theorem queueOf_setQueue {store : Store} {name : List UInt8} {node : ℕ} (h : TrieOk store.trie)
    (hfound : findNode store.trie name = some node) (queues : Heap Queue) (q : ℕ) (other : List UInt8) :
    Store.queueOf { store with
      queues := queues
      trie := store.trie.modify node fun cell => { cell with q := some q } } other =
        if other = name then some q else store.queueOf other := by
  have hlive := h.live_findNode hfound
  have hsame : ∀ path, findNode (store.trie.modify node fun cell => { cell with q := some q }) path =
      findNode store.trie path := fun path => by rw [findNode, childOf_setQueue]; rfl
  rw [Store.queueOf, hsame]
  by_cases hother : other = name
  · rw [if_pos hother, hother, hfound, Option.bind_some, trieNode_setQueue hlive, if_pos rfl]
  · rw [if_neg hother, Store.queueOf]
    cases hfind : findNode store.trie other with
    | none => rfl
    | some a =>
      have ha : a ≠ node := fun heq => hother (h.findNode_injective hfind (heq ▸ hfound))
      rw [Option.bind_some, Option.bind_some, trieNode_setQueue hlive, if_neg ha]

namespace PoolRace

/-- The calls are where the callers of the object are, and every name leads to the queue that
the object has for it. -/
structure Tracks (s : PoolRace) (o : PoolObject) : Prop where
  kept : s.Kept
  creates : ∀ n caller, s.callers n = some caller → caller.point.creates = true →
    caller.function = .createQueue
  unused : ∀ n, s.next ≤ n → s.callers n = none
  queues : ∀ name, o.state.queues name = s.store.queueOf name
  next : o.state.next = s.store.queues.next
  idle : ∀ n, s.callers n = none → o.callers n = .idle
  standing : ∀ n caller, s.callers n = some caller → o.callers n = caller.standing s.store
  history : o.history = s.history.map PoolEvent.seen

namespace Tracks

variable {s s' : PoolRace} {o o' : PoolObject} {n : ℕ} {caller : PoolCaller} {point : PoolPoint}
  {store : Store} {mutex : ℕ → Option ℕ}

/-- The queue of the node at the end of the walk is the one that the object has. -/
theorem queueAt_eq (h : s.Tracks o) (hn : s.callers n = some caller) {node : ℕ}
    (hreached : caller.point.reached = some (node, [])) :
    s.queueAt node = o.state.queues caller.name := by
  obtain ⟨-, hfound⟩ := h.kept.arrived hn hreached
  rw [h.queues, Store.queueOf, hfound]
  rfl

/-- A call moves to its next point, and the object follows. -/
theorem advance (h : s.Tracks o) (hn : s.callers n = some caller)
    (hkept : Kept ({ s with store := store, mutex := mutex }.moveTo n caller point))
    (hcreates : point.creates = true → caller.function = .createQueue)
    (hkeeps : ∀ node q, s.queueAt node = some q → (trieNode store.trie node).q = some q)
    (hqueues : ∀ name, o'.state.queues name = store.queueOf name)
    (hnext : o'.state.next = store.queues.next)
    (hmoved : o'.callers n = PoolCaller.standing store { caller with point := point })
    (hothers : ∀ m, m ≠ n → o'.callers m = o.callers m) (hhistory : o'.history = o.history) :
    Tracks ({ s with store := store, mutex := mutex }.moveTo n caller point) o' where
  kept := hkept
  creates m other hm := by
    rcases caller_of_update hm with ⟨-, hother⟩ | ⟨-, hm⟩
    · obtain rfl := Option.some.inj hother
      exact hcreates
    · exact h.creates m other hm
  unused m hm := by
    have hne : m ≠ n := by
      rintro rfl
      have hnone := h.unused m hm
      rw [hn] at hnone
      cases hnone
    exact (Function.update_of_ne hne _ _).trans (h.unused m hm)
  queues := hqueues
  next := hnext
  idle m hm := by
    by_cases hne : m = n
    · rw [hne] at hm
      exact absurd hm (by simp [moveTo])
    · rw [hothers m hne]
      exact h.idle m ((Function.update_of_ne hne _ _).symm.trans hm)
  standing m other hm := by
    rcases caller_of_update hm with ⟨rfl, hother⟩ | ⟨hne, hm⟩
    · obtain rfl := Option.some.inj hother
      exact hmoved
    · rw [hothers m hne, h.standing m other hm]
      change other.standing s.store = other.standing store
      unfold PoolCaller.standing
      split
      · rename_i node hhas
        obtain ⟨q, hq⟩ := Option.ne_none_iff_exists'.mp (h.kept.assigned m other node hm hhas)
        rw [hkeeps node q hq]
        exact congrArg Standing.served hq
      · rfl
  history := hhistory.trans h.history

/-- A step that nothing is seen of from outside. -/
theorem stay (h : s.Tracks o) (hn : s.callers n = some caller)
    (hkept : Kept ({ s with store := store, mutex := mutex }.moveTo n caller point))
    (hcreates : point.creates = true → caller.function = .createQueue)
    (hqueue : ∀ node, (trieNode store.trie node).q = s.queueAt node)
    (hqueues : ∀ name, store.queueOf name = s.store.queueOf name)
    (hnext : store.queues = s.store.queues)
    (hhas : PoolCaller.hasQueue { caller with point := point } = caller.hasQueue) :
    Tracks ({ s with store := store, mutex := mutex }.moveTo n caller point) o := by
  refine h.advance hn hkept hcreates (fun node q hq => (hqueue node).trans hq)
    (fun name => (h.queues name).trans (hqueues name).symm) (hnext ▸ h.next) ?_ (fun _ _ => rfl) rfl
  rw [h.standing n caller hn, PoolCaller.standing, PoolCaller.standing, hhas]
  cases caller.hasQueue with
  | none => rfl
  | some node => exact congrArg Standing.served (hqueue node).symm

/-- A `create_queue` takes effect. -/
theorem serve (h : s.Tracks o) (hposs : AtomicObject.Possible servePool .empty o)
    (hn : s.callers n = some caller)
    (hkept : Kept ({ s with store := store, mutex := mutex }.moveTo n caller point))
    (hfunction : caller.function = .createQueue) (hbefore : caller.hasQueue = none)
    (hkeeps : ∀ node q, s.queueAt node = some q → (trieNode store.trie node).q = some q)
    (hqueues : ∀ name,
      (servePool (.createQueue, caller.name) o.state).2.queues name = store.queueOf name)
    (hnext : (servePool (.createQueue, caller.name) o.state).2.next = store.queues.next)
    (hafter : PoolCaller.standing store { caller with point := point } =
      .served (servePool (.createQueue, caller.name) o.state).1) :
    ∃ o', AtomicObject.Possible servePool .empty o' ∧
      Tracks ({ s with store := store, mutex := mutex }.moveTo n caller point) o' := by
  have hcaller : o.callers n = .waiting (.createQueue, caller.name) := by
    rw [h.standing n caller hn, PoolCaller.standing, hbefore, hfunction]
  exact ⟨_, hposs.effect hcaller, h.advance hn hkept (fun _ => hfunction) hkeeps hqueues hnext
    ((Function.update_self _ _ _).trans hafter.symm) (fun m hm => Function.update_of_ne hm _ _) rfl⟩

/-- The test of `create_queue` finds a queue. -/
theorem testQueue (h : s.Tracks o) (hposs : AtomicObject.Possible servePool .empty o)
    (hn : s.callers n = some caller) {node : ℕ} (hpoint : caller.point = .testQueue node)
    (hstep : s.callerStep n caller = .ok s') (hkept : s'.Kept) :
    ∃ o', AtomicObject.Possible servePool .empty o' ∧ s'.Tracks o' := by
  have hfunction := h.creates n caller hn (by rw [hpoint]; rfl)
  have hanswer := h.queueAt_eq hn (show caller.point.reached = some (node, []) by rw [hpoint]; rfl)
  have hbefore : caller.hasQueue = none := by rw [PoolCaller.hasQueue, hpoint]
  simp only [callerStep, hpoint] at hstep
  split at hstep
  · obtain rfl := Except.ok.inj hstep
    exact ⟨o, hposs, h.stay hn hkept (fun _ => hfunction) (fun _ => rfl) (fun _ => rfl) rfl
      hbefore.symm⟩
  · rename_i hsome
    obtain rfl := Except.ok.inj hstep
    obtain ⟨q, hq⟩ := Option.ne_none_iff_exists'.mp hsome
    rw [hq] at hanswer
    have hserve : servePool (.createQueue, caller.name) o.state = (some q, o.state) := by
      rw [servePool, ← hanswer]
    refine h.serve hposs hn hkept hfunction hbefore (fun _ _ hold => hold) ?_ ?_ ?_
    · rw [hserve]
      exact h.queues
    · rw [hserve]
      exact h.next
    · rw [hserve]
      exact congrArg Standing.served hq

/-- `create_queue` makes the queue. -/
theorem assignQueue (h : s.Tracks o) (hposs : AtomicObject.Possible servePool .empty o)
    (hn : s.callers n = some caller) {node : ℕ} (hpoint : caller.point = .assignQueue node)
    (hstep : s.callerStep n caller = .ok s') (hkept : s'.Kept) :
    ∃ o', AtomicObject.Possible servePool .empty o' ∧ s'.Tracks o' := by
  have hfunction := h.creates n caller hn (by rw [hpoint]; rfl)
  have hreached : caller.point.reached = some (node, []) := by rw [hpoint]; rfl
  have hanswer := h.queueAt_eq hn hreached
  obtain ⟨hlive, hfound⟩ := h.kept.arrived hn hreached
  have hnone := h.kept.unassigned n caller node hn hpoint
  have hbefore : caller.hasQueue = none := by rw [PoolCaller.hasQueue, hpoint]
  rw [hnone] at hanswer
  have hserve : servePool (.createQueue, caller.name) o.state = (some o.state.next,
      ⟨Function.update o.state.queues caller.name (some o.state.next), o.state.next + 1⟩) := by
    rw [servePool, ← hanswer]
  have hassigned := fun queues => queueOf_setQueue h.kept.trie hfound queues s.store.queues.next
  obtain rfl := callerStep_assignQueue hpoint hstep
  refine h.serve hposs hn hkept hfunction hbefore
    (trieKeeps_setQueue hlive hnone s.store.queues.next).queue (fun name => ?_) ?_ ?_
  · rw [hserve]
    refine Eq.trans ?_ (hassigned _ name).symm
    by_cases hname : name = caller.name
    · rw [if_pos hname, hname, ← h.next]
      exact Function.update_self _ _ _
    · rw [if_neg hname]
      exact (Function.update_of_ne hname _ _).trans (h.queues name)
  · rw [hserve]
    exact congrArg (· + 1) h.next
  · rw [hserve, h.next]
    exact congrArg Standing.served ((trieNode_setQueue hlive _ _).trans (if_pos rfl))

/-- A call returns with the queue of its node. -/
theorem readQueue (h : s.Tracks o) (hposs : AtomicObject.Possible servePool .empty o)
    (hn : s.callers n = some caller) {node : ℕ} (hpoint : caller.point = .readQueue node)
    (hstep : s.callerStep n caller = .ok s') (hkept : s'.Kept) :
    ∃ o', AtomicObject.Possible servePool .empty o' ∧ s'.Tracks o' := by
  have hanswer := h.queueAt_eq hn (show caller.point.reached = some (node, []) by rw [hpoint]; rfl)
  obtain ⟨o₁, hposs₁, hserved, hstate, hothers, hhistory⟩ : ∃ o₁,
      AtomicObject.Possible servePool .empty o₁ ∧ o₁.callers n = .served (s.queueAt node) ∧
        o₁.state = o.state ∧ (∀ m, m ≠ n → o₁.callers m = o.callers m) ∧ o₁.history = o.history := by
    have hstanding := h.standing n caller hn
    cases hfunction : caller.function with
    | createQueue =>
      rw [PoolCaller.standing, PoolCaller.hasQueue, hpoint] at hstanding
      simp only [hfunction, if_true] at hstanding
      exact ⟨o, hposs, hstanding, rfl, fun _ _ => rfl, rfl⟩
    | getQueue =>
      rw [PoolCaller.standing, PoolCaller.hasQueue, hpoint] at hstanding
      simp only [hfunction, reduceCtorEq, if_false] at hstanding
      exact ⟨_, hposs.effect hstanding, (Function.update_self _ _ _).trans
        (congrArg Standing.served hanswer.symm), rfl, fun m hm => Function.update_of_ne hm _ _, rfl⟩
  simp only [callerStep, hpoint] at hstep
  obtain rfl := Except.ok.inj hstep
  refine ⟨_, hposs₁.returns hserved, hkept, fun m other hm => ?_, fun m hm => ?_, ?_, ?_, fun m hm => ?_,
    fun m other hm => ?_, ?_⟩
  · rcases caller_of_update hm with ⟨-, hnone⟩ | ⟨-, hm⟩
    · cases hnone
    · exact h.creates m other hm
  · by_cases hmn : m = n
    · exact hmn ▸ Function.update_self _ _ _
    · exact (Function.update_of_ne hmn _ _).trans (h.unused m hm)
  · exact fun name => hstate ▸ h.queues name
  · exact hstate ▸ h.next
  · by_cases hmn : m = n
    · exact hmn ▸ Function.update_self _ _ _
    · exact (Function.update_of_ne hmn _ _).trans ((hothers m hmn).trans
        (h.idle m ((Function.update_of_ne hmn _ _).symm.trans hm)))
  · rcases caller_of_update hm with ⟨-, hnone⟩ | ⟨hmn, hm⟩
    · cases hnone
    · exact (Function.update_of_ne hmn _ _).trans ((hothers m hmn).trans (h.standing m other hm))
  · change o₁.history ++ [_] = (s.history ++ [_]).map PoolEvent.seen
    rw [List.map_append, hhistory, h.history]
    rfl

/-- A step in the trie. -/
theorem walk (h : s.Tracks o) (hn : s.callers n = some caller)
    (hfree : caller.point.Free s.store.trie) {root : ℕ} {rest : List UInt8}
    (hreached : caller.point.reached = some (root, rest)) (hcreates : caller.point.creates = false)
    (hread : ∀ node, caller.point ≠ .readQueue node) (hstep : s.callerStep n caller = .ok s')
    (hkept : s'.Kept) : s'.Tracks o := by
  have hlive := (h.kept.walks n caller hn root rest hreached).1
  cases hpoint : caller.point with
  | readQueue node => exact absurd hpoint (hread node)
  | readChild root name =>
    have hbefore : caller.hasQueue = none := by rw [PoolCaller.hasQueue, hpoint]
    have hmoves : ∀ point : PoolPoint, (point.creates = true → caller.function = .createQueue) →
        PoolCaller.hasQueue { caller with point := point } = none →
        Kept (s.moveTo n caller point) → Tracks (s.moveTo n caller point) o :=
      fun _ hfunction hhas hkept => h.stay hn hkept hfunction (fun _ => rfl) (fun _ => rfl) rfl
        (hhas.trans hbefore.symm)
    simp only [callerStep, hpoint] at hstep
    cases name with
    | nil =>
      obtain rfl := Except.ok.inj hstep
      apply hmoves _ _ _ hkept
      · cases hfunction : caller.function <;> simp [PoolFunction.found, PoolPoint.creates]
      · cases caller.function <;> simp [PoolFunction.found, PoolCaller.hasQueue]
    | cons first name =>
      simp only at hstep
      split at hstep <;> obtain rfl := Except.ok.inj hstep
      · exact hmoves _ (by simp [PoolPoint.creates]) rfl hkept
      · exact hmoves _ (by simp [PoolPoint.creates]) rfl hkept
  | installChild root' first name =>
    rw [hpoint] at hfree hreached
    obtain ⟨rfl, rfl⟩ := Prod.mk.inj (Option.some.inj hreached)
    have hgrows := grows_install hlive hfree
    have hbefore : caller.hasQueue = none := by rw [PoolCaller.hasQueue, hpoint]
    simp only [callerStep, hpoint] at hstep
    obtain rfl := Except.ok.inj hstep
    exact h.stay hn hkept (by simp [PoolPoint.creates]) hgrows.queue hgrows.queueOf rfl hbefore.symm
  | lockPool | unlockPool node | lockNode node | testQueue node | assignQueue node
  | unlockNode node =>
    rw [hpoint] at hcreates
    cases hcreates

/-- A call takes its next step, and the object can follow. -/
theorem callerStep (h : s.Tracks o) (hposs : AtomicObject.Possible servePool .empty o)
    (hn : s.callers n = some caller) (hfree : caller.point.Free s.store.trie)
    (hstep : s.callerStep n caller = .ok s') (hkept : s'.Kept) :
    ∃ o', AtomicObject.Possible servePool .empty o' ∧ s'.Tracks o' := by
  cases hpoint : caller.point with
  | readChild root name | installChild root first name =>
    exact ⟨o, hposs, h.walk hn hfree (by rw [hpoint]; rfl) (by rw [hpoint]; rfl) (by simp [hpoint])
      hstep hkept⟩
  | testQueue node => exact h.testQueue hposs hn hpoint hstep hkept
  | assignQueue node => exact h.assignQueue hposs hn hpoint hstep hkept
  | readQueue node => exact h.readQueue hposs hn hpoint hstep hkept
  | unlockPool node | unlockNode node =>
    have hfunction := h.creates n caller hn (by rw [hpoint]; rfl)
    simp only [PoolRace.callerStep, hpoint] at hstep
    obtain rfl := Except.ok.inj hstep
    exact ⟨o, hposs, h.stay hn hkept (fun _ => hfunction) (fun _ => rfl) (fun _ => rfl) rfl
      (by simp [PoolCaller.hasQueue, hpoint, hfunction])⟩
  | lockPool | lockNode node =>
    have hfunction := h.creates n caller hn (by rw [hpoint]; rfl)
    simp only [PoolRace.callerStep, hpoint] at hstep
    split at hstep
    · obtain rfl := Except.ok.inj hstep
      exact ⟨o, hposs, h.stay hn hkept (fun _ => hfunction) (fun _ => rfl) (fun _ => rfl) rfl
        (by simp [PoolCaller.hasQueue, hpoint])⟩
    · cases hstep

/-- A thread calls a function. -/
theorem call {function : PoolFunction} {name : List UInt8} (h : s.Tracks o)
    (hposs : AtomicObject.Possible servePool .empty o)
    (hstep : s.step (.call function name) = .ok s') :
    ∃ o', AtomicObject.Possible servePool .empty o' ∧ s'.Tracks o' := by
  have hkept := h.kept.call hstep
  obtain rfl := Except.ok.inj hstep
  have hnew := h.unused s.next le_rfl
  have hbegun : AtomicObject.Possible servePool .empty { o with
      callers := Function.update o.callers s.next (.waiting (function, name))
      history := o.history ++ [.begins s.next (function, name)] } :=
    hposs.begins (h.idle s.next hnew)
  refine ⟨_, hbegun, hkept, fun m other hm => ?_, fun m hm => ?_, h.queues, h.next, fun m hm => ?_,
    fun m other hm => ?_, ?_⟩
  · rcases caller_of_update hm with ⟨-, hother⟩ | ⟨-, hm⟩
    · obtain rfl := Option.some.inj hother
      cases function <;> simp [PoolFunction.entry, PoolPoint.creates]
    · exact h.creates m other hm
  · have hlater : s.next + 1 ≤ m := hm
    exact (Function.update_of_ne (by omega) _ _).trans (h.unused m (by omega))
  · by_cases hmn : m = s.next
    · rw [hmn] at hm
      exact absurd hm (by simp)
    · exact (Function.update_of_ne hmn _ _).trans
        (h.idle m ((Function.update_of_ne hmn _ _).symm.trans hm))
  · rcases caller_of_update hm with ⟨rfl, hother⟩ | ⟨hmn, hm⟩
    · obtain rfl := Option.some.inj hother
      refine (Function.update_self _ _ _).trans ?_
      cases function <;> rfl
    · exact (Function.update_of_ne hmn _ _).trans (h.standing m other hm)
  · change o.history ++ [_] = (s.history ++ [_]).map PoolEvent.seen
    rw [List.map_append, h.history]
    rfl

/-- Whatever happens, the object can follow, unless a child is lost. -/
theorem step {act : PoolRaceAct} (h : s.Tracks o)
    (hposs : AtomicObject.Possible servePool .empty o) (hguard : s.InstallsFree act)
    (hstep : s.step act = .ok s') :
    ∃ o', AtomicObject.Possible servePool .empty o' ∧ s'.Tracks o' := by
  cases act with
  | call function name => exact h.call hposs hstep
  | step n =>
    have hkept := h.kept.step hguard hstep
    simp only [PoolRace.step] at hstep
    split at hstep
    · cases hstep
    · rename_i caller hn
      exact h.callerStep hposs hn (hguard caller hn) hstep hkept

end Tracks

/-- The empty pool is the empty map. -/
theorem tracks_initial : initial.Tracks (.initial .empty) where
  kept := kept_initial
  creates n caller hn := by cases hn
  unused _ _ := rfl
  queues name := by
    cases name with
    | nil => rfl
    | cons first rest => rfl
  next := rfl
  idle _ _ := rfl
  standing n caller hn := by cases hn
  history := rfl

/-- What the callers of the pool see, any interleaving of their steps in which every child is
installed where there is none, is a history of a map from names to queues with atomic calls,
and in every state reached each name leads to the queue that the map has for it. -/
theorem pool_linearizable {s : PoolRace} (h : Reaches PoolRace.step InstallsFree initial s) :
    ∃ o, AtomicObject.Possible servePool .empty o ∧
      o.history = s.history.map PoolEvent.seen ∧
      ∀ name, s.store.queueOf name = o.state.queues name := by
  have hexists : ∃ o, AtomicObject.Possible servePool .empty o ∧ s.Tracks o :=
    h.invariant (P := fun s => ∃ o, AtomicObject.Possible servePool .empty o ∧ s.Tracks o)
      ⟨_, .refl, tracks_initial⟩ fun _ _ _ ⟨_, hposs, htracks⟩ hguard hstep =>
        htracks.step hposs hguard hstep
  obtain ⟨o, hposs, htracks⟩ := hexists
  exact ⟨o, hposs, htracks.history, fun name => (htracks.queues name).symm⟩

/-- Two declarations of one name and a lookup, all at once: the second declaration walks while
the first one tests its node, and the lookup reads its answer between the assignment of the
queue and the return of the call that made it. -/
def declaredTwice : List PoolRaceAct :=
  [.call .createQueue [97], .call .createQueue [97], .call .getQueue [97]] ++
    List.replicate 7 (.step 0) ++ List.replicate 4 (.step 1) ++ List.replicate 2 (.step 2) ++
    [.step 0, .step 2] ++ List.replicate 2 (.step 0) ++ List.replicate 4 (.step 1)

/-- All three come back with the one queue that was made. -/
theorem pool_linearizable_declaredTwice :
    ∃ s, guardedExec PoolRace.step InstallsFree initial declaredTwice = some s ∧
      s.history = [.started 0 .createQueue [97], .started 1 .createQueue [97],
        .started 2 .getQueue [97], .returned 2 .getQueue [97] (some 0),
        .returned 0 .createQueue [97] (some 0), .returned 1 .createQueue [97] (some 0)] ∧
      ∃ o, AtomicObject.Possible servePool .empty o ∧
        o.history = s.history.map PoolEvent.seen ∧
        ∀ name, s.store.queueOf name = o.state.queues name := by
  have hobserved : (guardedExec PoolRace.step InstallsFree initial declaredTwice).map
      PoolRace.history = some [.started 0 .createQueue [97], .started 1 .createQueue [97],
        .started 2 .getQueue [97], .returned 2 .getQueue [97] (some 0),
        .returned 0 .createQueue [97] (some 0), .returned 1 .createQueue [97] (some 0)] := by
    decide +kernel
  obtain ⟨s, hrun, hhistory⟩ := Option.map_eq_some_iff.mp hobserved
  exact ⟨s, hrun, hhistory, pool_linearizable (reaches_of_guardedExec hrun)⟩

end PoolRace

end AmqpBroker
