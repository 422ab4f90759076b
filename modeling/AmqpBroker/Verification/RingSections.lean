import AmqpBroker.Foundations.Section
import AmqpBroker.Model.RingAccess
import AmqpBroker.Verification.Represents

/-!
# The sections of the scheduler

Each section under the mutex of the scheduler, run with no other thread in between, does what
the function does in one step. In the middle of it the links, the cursors and the counter
disagree, but what the section will have made of them is settled, and `current`, which other
threads read without the mutex, changes in one access.
-/

namespace AmqpBroker

open Foundations

namespace RingPoint

/-- The thread holds the mutex of the scheduler. -/
def locked : RingPoint → Bool
  | addTestCount _ | addSetFirst _ | addSetLast _ | addSetCurrent _ | addLoadLast _
  | addLoadFirst _ _ | addLinkNext _ _ _ | addLinkPrev _ _ | addLoadPrev _ | addStorePrev _ _
  | addLoadNext _ | addStoreNext _ _ | addStoreId _ | addInitMutex _ | addInitCond _
  | addStoreLast _ | addLoadCount _ | addStoreCount _ _ | addUnlock
  | removeLoadPrev _ | removeLoadNext _ _ | removeLinkNext _ _ _ | removeLinkPrev _ _ _
  | removeTestCurrent _ _ _ | removeStoreCurrent _ _ _ | removeTestFirst _ _ _
  | removeStoreFirst _ _ _ | removeTestLast _ _ | removeStoreLast _ | removeLoadCount
  | removeStoreCount _ | removeTestCount | removeClearLast | removeClearFirst | removeUnlock
  | nextLoadCurrent | nextLoadNext _ | nextStoreCurrent _ | nextLockRound _ | nextBroadcast _
  | nextUnlockRound _ | nextUnlock _ => true
  | _ => false

/-- The thread is done with the fields that the mutex is there for. -/
def finished : RingPoint → Bool
  | addUnlock | removeUnlock | nextLockRound _ | nextBroadcast _ | nextUnlockRound _
  | nextUnlock _ => true
  | point => !point.locked

/-- The call of the holder of the mutex, as long as it has not taken effect. -/
def pending : RingPoint → Option RingOp
  | addTestCount t | addSetFirst t | addSetLast t | addSetCurrent t => some (.addSubscriber t)
  | removeLoadPrev t | removeLoadNext t _ | removeLinkNext t _ _ | removeLinkPrev t _ _
  | removeTestCurrent t _ _ | removeStoreCurrent t _ _ => some (.removeSubscriber t)
  | nextLoadCurrent | nextLoadNext _ | nextStoreCurrent _ => some .nextThread
  | _ => none

end RingPoint

namespace RingData

/-- The scheduler with nobody asleep in it. -/
def scheduler (d : RingData) : RoundRobinScheduler :=
  { count := d.count
    first := d.first
    last := d.last
    current := d.current
    subs := fun i => ⟨(d.subs i).prev, (d.subs i).next, (d.subs i).threadId, ∅⟩ }

/-- Left alone at this point, the holder of the mutex makes `final` of the scheduler. -/
abbrev Makes (d : RingData) (point : RingPoint) (final : RingData) : Prop :=
  Completes access RingPoint.finished d point final

variable {d final : RingData} {t i : ℤ} {members : List ℤ}

/-- An assignment to a node of the array. -/
theorem modify_of_range (hi : 0 ≤ i ∧ i < maxConnections) (change : RingNode → RingNode) :
    d.modify i change = .ok { d with subs := Function.update d.subs i (change (d.subs i)) } := by
  rw [modify, subIndex_of_range hi]
  rfl

/-- An assignment to `next`, in one step and as an access. -/
theorem scheduler_next (v : ℤ) : scheduler { d with
    subs := Function.update d.subs i { d.subs i with next := v } } = d.scheduler.setNext i v := by
  simp only [scheduler, RoundRobinScheduler.setNext, RoundRobinScheduler.mk.injEq, true_and]
  funext j
  by_cases hj : j = i
  · simp [hj]
  · simp [Function.update_of_ne hj]

/-- An assignment to `prev`, in one step and as an access. -/
theorem scheduler_prev (v : ℤ) : scheduler { d with
    subs := Function.update d.subs i { d.subs i with prev := v } } = d.scheduler.setPrev i v := by
  simp only [scheduler, RoundRobinScheduler.setPrev, RoundRobinScheduler.mk.injEq, true_and]
  funext j
  by_cases hj : j = i
  · simp [hj]
  · simp [Function.update_of_ne hj]

/-- Both neighbours are linked to each other. -/
theorem scheduler_links (prev next : ℤ) :
    let linked := { d with
      subs := Function.update d.subs prev { d.subs prev with next := next } }
    scheduler { linked with
      subs := Function.update linked.subs next { linked.subs next with prev := prev } } =
        (d.scheduler.setNext prev next).setPrev next prev := by
  intro linked
  rw [scheduler_prev, scheduler_next]

/-- The second half of `add_subscriber` fills in the node. -/
theorem makes_addNode (ht : 0 ≤ t ∧ t < maxConnections) : Makes d (.addLoadPrev t) { d with
    subs := Function.update d.subs t ⟨d.last, d.first, t⟩, last := t, count := d.count + 1 } := by
  refine .access rfl rfl (.access rfl (by rw [access, modify_of_range ht]; rfl) ?_)
  refine .access rfl rfl (.access rfl (by rw [access, modify_of_range ht]; rfl) ?_)
  refine .access rfl (by rw [access, modify_of_range ht]; rfl) (.access rfl rfl (.access rfl rfl ?_))
  refine .access rfl rfl (.access rfl rfl (.access rfl rfl ?_))
  simp only [Function.update_self, Function.update_idem]
  exact .done rfl

/-- The new node is filled in, in one step and as accesses. -/
theorem scheduler_addNode : scheduler { d with
      subs := Function.update d.subs t ⟨d.last, d.first, t⟩, last := t, count := d.count + 1 } =
    { d.scheduler with
      subs := Function.update d.scheduler.subs t ⟨d.scheduler.last, d.scheduler.first, t, ∅⟩
      last := t
      count := d.scheduler.count + 1 } := by
  simp only [scheduler, RoundRobinScheduler.mk.injEq, true_and]
  funext j
  by_cases hj : j = t
  · simp [hj]
  · simp [Function.update_of_ne hj]

/-- The two ends of a ring that is not empty are in it. -/
theorem ends_range (h : Subscribed d.scheduler members) (hcount : d.count ≠ 0) :
    (0 ≤ d.first ∧ d.first < maxConnections) ∧ 0 ≤ d.last ∧ d.last < maxConnections := by
  have hlength : d.count = members.length := h.count
  obtain ⟨first, rest, rfl⟩ := List.exists_cons_of_ne_nil
    (show members ≠ [] by rintro rfl; exact hcount hlength)
  have hlast := List.getLast?_eq_some_getLast (List.cons_ne_nil first rest)
  have hfirstEq : d.first = first := h.first first rfl
  have hlastEq : d.last = _ := h.last _ hlast
  rw [hfirstEq, hlastEq]
  exact ⟨h.range first List.mem_cons_self, h.range _ (List.mem_of_getLast? hlast)⟩

/-- The section of `add_subscriber` is `add_subscriber` in one step. -/
theorem makes_add (h : Subscribed d.scheduler members) (ht : 0 ≤ t ∧ t < maxConnections)
    {rr : RoundRobinScheduler} (hadd : addSubscriber d.scheduler t = .ok rr) :
    ∃ final, Makes d (.addTestCount t) final ∧ final.scheduler = rr := by
  unfold addSubscriber at hadd
  rw [subIndex_of_range ht] at hadd
  by_cases hcount : d.count = 0
  · have hzero : d.scheduler.count = 0 := hcount
    simp only [hzero, if_true] at hadd
    obtain rfl := Except.ok.inj hadd
    refine ⟨_, .access rfl (by rw [access, if_pos hcount]) (.access rfl rfl (.access rfl rfl
      (.access rfl rfl (makes_addNode ht)))), scheduler_addNode.trans ?_⟩
    rw [show d.count = 0 from hcount]
    rfl
  · have hnonzero : d.scheduler.count ≠ 0 := hcount
    obtain ⟨hfirst, hlast⟩ := ends_range h hcount
    simp only [if_neg hnonzero, show d.scheduler.last = d.last from rfl,
      show d.scheduler.first = d.first from rfl, subIndex_of_range hfirst,
      subIndex_of_range hlast] at hadd
    obtain rfl := Except.ok.inj hadd
    refine ⟨_, .access rfl (by rw [access, if_neg hcount]) (.access rfl rfl (.access rfl rfl
      (.access rfl (by rw [access, modify_of_range hlast]; rfl)
        (.access rfl (by rw [access, modify_of_range hfirst]; rfl) (makes_addNode ht))))),
        scheduler_addNode.trans ?_⟩
    rw [scheduler_prev, scheduler_next]

/-- The tests of `remove_subscriber`, from the last one to the first. -/
theorem makes_count : Makes d .removeLoadCount { d with
    count := d.count - 1
    first := if d.count - 1 = 0 then -1 else d.first
    last := if d.count - 1 = 0 then -1 else d.last } := by
  refine .access rfl rfl (.access rfl rfl ?_)
  by_cases hcount : d.count - 1 = 0
  · rw [if_pos hcount, if_pos hcount]
    exact .access rfl (by rw [access, if_pos hcount]) (.access rfl rfl (.access rfl rfl (.done rfl)))
  · rw [if_neg hcount, if_neg hcount]
    exact .access rfl (by rw [access, if_neg hcount]) (.done rfl)

/-- The test of `last` and what follows it. -/
theorem makes_testLast (prev : ℤ) : Makes d (.removeTestLast t prev) { d with
    count := d.count - 1
    first := if d.count - 1 = 0 then -1 else d.first
    last := if d.count - 1 = 0 then -1 else if d.last = t then prev else d.last } := by
  by_cases hlast : d.last = t
  · rw [if_pos hlast]
    exact .access rfl (by rw [access, if_pos hlast]) (.access rfl rfl makes_count)
  · rw [if_neg hlast]
    exact .access rfl (by rw [access, if_neg hlast]) makes_count

/-- The test of `first` and what follows it. -/
theorem makes_testFirst (prev next : ℤ) : Makes d (.removeTestFirst t prev next) { d with
    count := d.count - 1
    first := if d.count - 1 = 0 then -1 else if d.first = t then next else d.first
    last := if d.count - 1 = 0 then -1 else if d.last = t then prev else d.last } := by
  by_cases hfirst : d.first = t
  · rw [if_pos hfirst]
    exact .access rfl (by rw [access, if_pos hfirst]) (.access rfl rfl (makes_testLast prev))
  · rw [if_neg hfirst]
    exact .access rfl (by rw [access, if_neg hfirst]) (makes_testLast prev)

/-- The test of `current` and what follows it. -/
theorem makes_testCurrent (prev next : ℤ) : Makes d (.removeTestCurrent t prev next)
    { count := d.count - 1
      first := if d.count - 1 = 0 then -1 else if d.first = t then next else d.first
      last := if d.count - 1 = 0 then -1 else if d.last = t then prev else d.last
      current := if d.current = t then next else d.current
      subs := d.subs } := by
  by_cases hcurrent : d.current = t
  · rw [if_pos hcurrent]
    exact .access rfl (by rw [access, if_pos hcurrent]) (.access rfl rfl (makes_testFirst prev next))
  · rw [if_neg hcurrent]
    exact .access rfl (by rw [access, if_neg hcurrent]) (makes_testFirst prev next)

/-- The section of `remove_subscriber` is `remove_subscriber` in one step. -/
theorem makes_remove (h : Subscribed d.scheduler members) (ht : t ∈ members) :
    ∃ final, Makes d (.removeLoadPrev t) final ∧
      removeSubscriber d.scheduler t = .ok final.scheduler := by
  obtain ⟨hnext, hprev⟩ := h.next_mem ht
  have hrange := h.range t ht
  have hnextRange : 0 ≤ (d.subs t).next ∧ (d.subs t).next < maxConnections := h.range _ hnext
  have hprevRange : 0 ≤ (d.subs t).prev ∧ (d.subs t).prev < maxConnections := h.range _ hprev
  refine ⟨_, .access rfl (by rw [access, subIndex_of_range hrange]; rfl)
    (.access rfl (by rw [access, subIndex_of_range hrange]; rfl)
      (.access rfl (by rw [access, modify_of_range hprevRange]; rfl)
        (.access rfl (by rw [access, modify_of_range hnextRange]; rfl) (makes_testCurrent _ _)))), ?_⟩
  rw [removeSubscriber_eq hrange hprevRange hnextRange]
  exact congrArg (fun rr : RoundRobinScheduler => Except.ok (RoundRobinScheduler.mk (d.count - 1)
    (if d.count - 1 = 0 then -1 else if d.first = t then (d.subs t).next else d.first)
    (if d.count - 1 = 0 then -1 else if d.last = t then (d.subs t).prev else d.last)
    (if d.current = t then (d.subs t).next else d.current) rr.subs))
    (scheduler_links (d.subs t).prev (d.subs t).next).symm

/-- The section of `next_thread` is `next_thread` in one step. -/
theorem makes_next (h : Subscribed d.scheduler members) (hne : members ≠ []) :
    ∃ next final, Makes d .nextLoadCurrent final ∧
      nextThread d.scheduler = .ok (next, final.scheduler) := by
  have hcurrent := h.current hne
  obtain ⟨hnext, -⟩ := h.next_mem hcurrent
  have hrange : 0 ≤ d.current ∧ d.current < maxConnections := h.range _ hcurrent
  refine ⟨(d.subs d.current).next, _, .access rfl rfl
    (.access rfl (by rw [access, subIndex_of_range hrange]; rfl) (.access rfl rfl (.done rfl))), ?_⟩
  unfold nextThread
  simp only [bind, Except.bind, subIndex_of_range (h.range _ hcurrent),
    subIndex_of_range (h.range _ hnext)]
  change Except.ok (_, _) = Except.ok (_, _)
  congr 2
  simp only [scheduler, RoundRobinScheduler.setRoundCond, RoundRobinScheduler.mk.injEq, true_and]
  funext j
  by_cases hj : j = (d.subs d.current).next
  · simp [hj]
  · simp [Function.update_of_ne hj]

end RingData

end AmqpBroker
