import AmqpBroker.Verification.RingSections

/-!
# One access of the holder of the scheduler's mutex

Where a thread is in the functions of `round_robin.c`, seen from outside and from the ring,
and what an access in the middle of a section does to the rota that the others go by.
-/

namespace AmqpBroker

open Foundations

namespace RingPoint

/-- Where the caller is, as seen from outside: the call takes effect with the access after
which `current` has its new value. -/
def standing : RingPoint → Standing RingOp RingAnswer
  | between _ => .idle
  | returning answer _ => .served answer
  | addLock t | addTestCount t | addSetFirst t | addSetLast t | addSetCurrent t =>
    .waiting (.addSubscriber t)
  | addLoadLast _ | addLoadFirst _ _ | addLinkNext _ _ _ | addLinkPrev _ _ | addLoadPrev _
  | addStorePrev _ _ | addLoadNext _ | addStoreNext _ _ | addStoreId _ | addInitMutex _
  | addInitCond _ | addStoreLast _ | addLoadCount _ | addStoreCount _ _ | addUnlock => .served .done
  | removeLock t | removeLoadPrev t | removeLoadNext t _ | removeLinkNext t _ _
  | removeLinkPrev t _ _ | removeTestCurrent t _ _ | removeStoreCurrent t _ _ =>
    .waiting (.removeSubscriber t)
  | removeTestFirst _ _ _ | removeStoreFirst _ _ _ | removeTestLast _ _ | removeStoreLast _
  | removeLoadCount | removeStoreCount _ | removeTestCount | removeClearLast | removeClearFirst
  | removeUnlock => .served .done
  | nextLock | nextLoadCurrent | nextLoadNext _ | nextStoreCurrent _ => .waiting .nextThread
  | nextLockRound next | nextBroadcast next | nextUnlockRound next | nextUnlock next =>
    .served (.turn (some next))
  | waitTest t => .waiting (.waitRound t)
  | waitLock _ current | waitSleep _ current | waitWake _ current | waitUnlock _ current =>
    .served (.turn (some current))

/-- The thread is in the ring, for the others. -/
def member : RingPoint → Bool
  | between member | returning _ member => member
  | addLock _ | addTestCount _ | addSetFirst _ | addSetLast _ | addSetCurrent _
  | removeTestFirst _ _ _ | removeStoreFirst _ _ _ | removeTestLast _ _ | removeStoreLast _
  | removeLoadCount | removeStoreCount _ | removeTestCount | removeClearLast | removeClearFirst
  | removeUnlock => false
  | _ => true

/-- The thread id that the thread was called with. -/
def owner : RingPoint → Option ℤ
  | addLock t | addTestCount t | addSetFirst t | addSetLast t | addSetCurrent t | addLoadLast t
  | addLoadFirst t _ | addLinkNext t _ _ | addLinkPrev t _ | addLoadPrev t | addStorePrev t _
  | addLoadNext t | addStoreNext t _ | addStoreId t | addInitMutex t | addInitCond t
  | addStoreLast t | addLoadCount t | addStoreCount t _ | removeLock t | removeLoadPrev t
  | removeLoadNext t _ | removeLinkNext t _ _ | removeLinkPrev t _ _ | removeTestCurrent t _ _
  | removeStoreCurrent t _ _ | removeTestFirst t _ _ | removeStoreFirst t _ _
  | removeTestLast t _ | waitTest t | waitLock t _ | waitSleep t _ | waitWake t _
  | waitUnlock t _ => some t
  | _ => none

/-- The thread holds the `round_mutex` of a node. -/
def holdsRound (i : ℤ) : RingPoint → Bool
  | nextBroadcast next | nextUnlockRound next => next = i
  | waitSleep t _ | waitUnlock t _ => t = i
  | _ => false

end RingPoint

/-- What a call answers that leaves the turn with `current`. -/
def RingOp.answer (current : ℤ) : RingOp → RingAnswer
  | .nextThread => .turn (some current)
  | _ => .done

/-- The thread is in the ring after its call. -/
def RingOp.stays : RingOp → Bool
  | .removeSubscriber _ => false
  | _ => true

/-- The call has taken effect. -/
structure Crosses (d' : RingData) (op : RingOp) (point' : RingPoint) : Prop where
  pending : point'.pending = none
  standing : point'.standing = .served (op.answer d'.current)
  member : point'.member = op.stays

/-- An access in a section, seen from outside. -/
structure Accesses (d : RingData) (point : RingPoint) (d' : RingData) (point' : RingPoint) : Prop where
  locked : point'.locked = true
  owner : ∀ i, point'.owner = some i → point.owner = some i
  round : ∀ i, point'.holdsRound i = false
  /-- Nothing changes for the others, or the call takes effect. -/
  effect : (point'.pending = point.pending ∧ point'.standing = point.standing ∧
      point'.member = point.member ∧ d'.current = d.current) ∨
    ∃ op, point.pending = some op ∧ Crosses d' op point'

section Access

variable {d d' : RingData} {point point' : RingPoint} {i : ℤ}

/-- An assignment to a node leaves `current`. -/
theorem modify_eq_ok {change : RingNode → RingNode}
    (h : (d.modify i change).map (·, point) = .ok (d', point')) :
    point' = point ∧ d'.current = d.current := by
  unfold RingData.modify at h
  cases hi : subIndex i with
  | error reason =>
    rw [hi] at h
    cases h
  | ok j =>
    rw [hi] at h
    obtain ⟨rfl, rfl⟩ := Prod.mk.inj (Except.ok.inj h)
    exact ⟨rfl, rfl⟩

/-- A load through an index changes nothing. -/
theorem subIndex_eq_ok {next : ℤ → RingPoint}
    (h : (do
      let j ← subIndex i
      pure (d, next j) : Except Abort (RingData × RingPoint)) = .ok (d', point')) :
    point' = next i ∧ d' = d := by
  unfold subIndex at h
  split at h
  · obtain ⟨rfl, rfl⟩ := Prod.mk.inj (Except.ok.inj h)
    exact ⟨rfl, rfl⟩
  · cases h

/-- A step to a point at which nothing has changed for the others. -/
theorem accesses_quiet (hlocked : point'.locked = true)
    (howner : ∀ i, point'.owner = some i → point.owner = some i)
    (hround : ∀ i, point'.holdsRound i = false) (hpending : point'.pending = point.pending)
    (hstanding : point'.standing = point.standing) (hmember : point'.member = point.member)
    (hcurrent : d'.current = d.current) : Accesses d point d' point' :=
  ⟨hlocked, howner, hround, Or.inl ⟨hpending, hstanding, hmember, hcurrent⟩⟩

/-- What an access in a section changes for the others. -/
theorem accesses_of_access (hlocked : point.locked = true)
    (h : d.access point = .ok (d', point')) : Accesses d point d' point' := by
  cases point with
  | addTestCount t =>
    obtain ⟨rfl, rfl⟩ := Prod.mk.inj (Except.ok.inj h)
    split
    · exact accesses_quiet rfl (fun _ => id) (fun _ => rfl) rfl rfl rfl rfl
    · exact ⟨rfl, fun _ => id, fun _ => rfl, Or.inr ⟨_, rfl, rfl, rfl, rfl⟩⟩
  | addSetCurrent t | nextStoreCurrent next =>
    obtain ⟨rfl, rfl⟩ := Prod.mk.inj (Except.ok.inj h)
    exact ⟨rfl, fun _ => id, fun _ => rfl, Or.inr ⟨_, rfl, rfl, rfl, rfl⟩⟩
  | removeTestCurrent t prev next =>
    obtain ⟨rfl, rfl⟩ := Prod.mk.inj (Except.ok.inj h)
    split
    · exact accesses_quiet rfl (fun _ => id) (fun _ => rfl) rfl rfl rfl rfl
    · exact ⟨rfl, fun _ => id, fun _ => rfl, Or.inr ⟨_, rfl, rfl, rfl, rfl⟩⟩
  | removeStoreCurrent t prev next =>
    obtain ⟨rfl, rfl⟩ := Prod.mk.inj (Except.ok.inj h)
    exact ⟨rfl, fun _ => id, fun _ => rfl, Or.inr ⟨_, rfl, rfl, rfl, rfl⟩⟩
  | removeTestFirst t prev next | removeTestLast t prev | removeTestCount =>
    obtain ⟨rfl, rfl⟩ := Prod.mk.inj (Except.ok.inj h)
    split <;> exact accesses_quiet rfl (fun _ hi => by first | exact hi | cases hi) (fun _ => rfl) rfl
      rfl rfl rfl
  | addLinkNext t last first | addLinkPrev t first | addStorePrev t prev | addStoreNext t next
  | addStoreId t | removeLinkNext t prev next | removeLinkPrev t prev next =>
    obtain ⟨rfl, hcurrent⟩ := modify_eq_ok h
    exact accesses_quiet rfl (fun _ => id) (fun _ => rfl) rfl rfl rfl hcurrent
  | removeLoadPrev t | removeLoadNext t prev | nextLoadNext current =>
    obtain ⟨rfl, rfl⟩ := subIndex_eq_ok h
    exact accesses_quiet rfl (fun _ => id) (fun _ => rfl) rfl rfl rfl rfl
  | addSetFirst t | addSetLast t | addLoadLast t | addLoadFirst t last | addLoadPrev t | addLoadNext t
  | addInitMutex t | addInitCond t | addStoreLast t | addLoadCount t | removeLoadCount
  | removeStoreCount count | removeClearLast | nextLoadCurrent | removeStoreFirst t prev next =>
    obtain ⟨rfl, rfl⟩ := Prod.mk.inj (Except.ok.inj h)
    exact accesses_quiet rfl (fun _ => id) (fun _ => rfl) rfl rfl rfl rfl
  | addStoreCount t count | removeStoreLast prev | removeClearFirst =>
    obtain ⟨rfl, rfl⟩ := Prod.mk.inj (Except.ok.inj h)
    exact accesses_quiet rfl (fun _ hi => by cases hi) (fun _ => rfl) rfl rfl rfl rfl
  | addUnlock | removeUnlock | nextLockRound | nextBroadcast | nextUnlockRound | nextUnlock => cases h
  | _ => cases hlocked

end Access

/-- The scheduler in the middle of a section, where `rota` is what everybody else goes by. -/
structure Midway (d : RingData) (point : RingPoint) (rota : Rota ℤ) : Prop where
  makes : ∃ final, d.Makes point final ∧ TakesTurns final.scheduler
    (match point.pending with
      | none => rota
      | some op => (serveRing op rota).2)
  current : ∀ t, rota.holder = some t → d.current = t

namespace Midway

variable {d d' : RingData} {point point' : RingPoint} {rota : Rota ℤ} {t : ℤ}

/-- Outside the sections the ring is the rota. -/
theorem takesTurns (h : Midway d point rota) (hfinished : point.finished = true)
    (hpending : point.pending = none) : TakesTurns d.scheduler rota := by
  obtain ⟨final, hmakes, hturns⟩ := h.makes
  rw [hpending] at hturns
  rwa [hmakes.eq_of_done hfinished] at hturns

/-- Outside the sections nothing is under way. -/
theorem of_takesTurns (h : TakesTurns d.scheduler rota) (hfinished : point.finished = true)
    (hpending : point.pending = none) : Midway d point rota where
  makes := ⟨d, .done hfinished, by rwa [hpending]⟩
  current := h.holder

/-- A thread that is not in the ring enters `add_subscriber`. -/
theorem add (h : TakesTurns d.scheduler rota) (ht : 0 ≤ t ∧ t < maxConnections)
    (hnew : t ∉ rota.members) : Midway d (.addTestCount t) rota where
  makes := by
    obtain ⟨rr, hrun, hadded⟩ := addSubscriber_spec h.members ht hnew
    obtain ⟨final, hmakes, rfl⟩ := RingData.makes_add h.members ht hrun
    refine ⟨final, hmakes, ?_⟩
    change TakesTurns _ (if h : t ∉ rota.members then rota.join t h else rota)
    rw [dif_pos hnew]
    exact h.join hnew hadded
  current := h.holder

/-- A thread that is in the ring enters `remove_subscriber`. -/
theorem remove (h : TakesTurns d.scheduler rota) (ht : t ∈ rota.members) :
    Midway d (.removeLoadPrev t) rota where
  makes := by
    obtain ⟨rr, hrun, hremoved⟩ := removeSubscriber_spec h.members ht
    obtain ⟨final, hmakes, hfinal⟩ := RingData.makes_remove h.members ht
    obtain rfl := Except.ok.inj (hrun.symm.trans hfinal)
    exact ⟨final, hmakes, h.leave ht hremoved⟩
  current := h.holder

/-- A thread enters `next_thread` of a ring that is not empty. -/
theorem next (h : TakesTurns d.scheduler rota) (hne : rota.members ≠ []) :
    Midway d .nextLoadCurrent rota where
  makes := by
    obtain ⟨next, rr, hrun, hpassed⟩ := nextThread_spec h.members hne
    obtain ⟨next', final, hmakes, hfinal⟩ := RingData.makes_next h.members hne
    obtain ⟨rfl, rfl⟩ := Prod.mk.inj (Except.ok.inj (hrun.symm.trans hfinal))
    exact ⟨final, hmakes, h.pass (h.members.current hne) hpassed⟩
  current := h.holder

/-- After the effect of its call the holder of the mutex leaves `current` alone. -/
theorem current_eq {final : RingData} (h : d.Makes point final) (hlocked : point.locked = true)
    (hpast : point.pending = none) : final.current = d.current := by
  have hkeeps : ∀ (d : RingData) (point : RingPoint) (d' : RingData) (point' : RingPoint),
      (point.locked && point.pending.isNone) = true → d.access point = .ok (d', point') →
        d'.current = d.current ∧ (point'.locked && point'.pending.isNone) = true := by
    intro d point d' point' hpoint haccess
    obtain ⟨hlocked, hpast⟩ := Bool.and_eq_true_iff.mp hpoint
    have haccesses := accesses_of_access hlocked haccess
    obtain ⟨hpending, -, -, hcurrent⟩ | ⟨op, hop, -⟩ := haccesses.effect
    · exact ⟨hcurrent, by simp [haccesses.locked, hpending, Option.isNone_iff_eq_none.mp hpast]⟩
    · rw [hop] at hpast
      cases hpast
  exact Completes.view_eq hkeeps h (by simp [hlocked, hpast])

/-- Every access in a section succeeds. The others go by the same rota after it, or the call
takes effect and they go by the one that it makes. -/
theorem access (h : Midway d point rota) (hlocked : point.locked = true)
    (hfinished : point.finished = false)
    (hnext : point.pending = some .nextThread → rota.members ≠ []) :
    ∃ d' point', d.access point = .ok (d', point') ∧ Accesses d point d' point' ∧
      (point'.pending = point.pending ∧ point'.standing = point.standing ∧
          point'.member = point.member ∧ Midway d' point' rota ∨
        ∃ op, point.pending = some op ∧ point'.standing = .served (serveRing op rota).1 ∧
          point'.member = op.stays ∧ Midway d' point' (serveRing op rota).2) := by
  obtain ⟨final, hmakes, hturns⟩ := h.makes
  obtain ⟨d', point', haccess, hrest⟩ := hmakes.exists_access hfinished
  have haccesses := accesses_of_access hlocked haccess
  refine ⟨d', point', haccess, haccesses, ?_⟩
  obtain ⟨hpending, hstanding, hmember, hcurrent⟩ | ⟨op, hop, hcrosses⟩ := haccesses.effect
  · refine Or.inl ⟨hpending, hstanding, hmember, ⟨final, hrest, by rwa [hpending]⟩, fun t ht => ?_⟩
    rw [hcurrent]
    exact h.current t ht
  · rw [hop] at hturns
    have hcurrent : ∀ t, (serveRing op rota).2.holder = some t → d'.current = t := by
      intro t ht
      rw [← current_eq hrest haccesses.locked hcrosses.pending]
      exact hturns.holder t ht
    refine Or.inr ⟨op, hop, ?_, hcrosses.member, ⟨final, hrest, by rwa [hcrosses.pending]⟩, hcurrent⟩
    rw [hcrosses.standing]
    cases op with
    | addSubscriber t | removeSubscriber t => rfl
    | waitRound t => cases point <;> cases hop
    | nextThread =>
      obtain ⟨holder, hholder⟩ := Rota.exists_holder (r := rota.pass)
        (by rw [Rota.members_pass]; exact hnext hop)
      change Standing.served (RingAnswer.turn (some d'.current)) = .served (.turn rota.pass.holder)
      rw [hholder, hcurrent holder hholder]

end Midway

end AmqpBroker
