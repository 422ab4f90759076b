import AmqpBroker.Foundations.Mutex
import AmqpBroker.Verification.RingAccesses

/-!
# The mutexes make the scheduler atomic

Any number of threads inside the functions of `round_robin.c`, each of them stopped between
any two of its accesses, and reading `current` without the mutex. What the callers see is
what a rota with atomic calls could have shown them.
-/

namespace AmqpBroker

open Foundations

/-- The object whose calls are those of the threads. -/
abbrev RingObject := AtomicObject ℤ (Rota ℤ) RingOp RingAnswer

/-- The point of the thread that holds the mutex. -/
def ringHolder (mutex : Option ℤ) (threads : ℤ → RingPoint) : RingPoint :=
  match mutex with
  | none => .between false
  | some t => threads t

namespace RingAccess

/-- The threads are where the callers of the object are, and the scheduler is what the object
holds, up to what the holder of the mutex is about to do. -/
structure Tracks (s : RingAccess) (o : RingObject) : Prop where
  mutex : Holds RingPoint.locked s.mutex s.threads
  roundMutex : ∀ i, Holds (RingPoint.holdsRound i) (s.roundMutex i) s.threads
  asleep : ∀ i t, t ∈ s.roundCond i → ∃ current, s.threads t = .waitWake i current
  owner : ∀ t i, (s.threads t).owner = some i → i = t
  range : ∀ t, s.threads t ≠ .between false → 0 ≤ t ∧ t < maxConnections
  members : ∀ t, t ∈ o.state.members ↔ (s.threads t).member = true
  midway : Midway s.data (ringHolder s.mutex s.threads) o.state
  callers : ∀ t, o.callers t = (s.threads t).standing
  /-- Who was found to have the turn has a node. -/
  turns : ∀ t turn, o.callers t = .served (.turn (some turn)) → 0 ≤ turn ∧ turn < maxConnections
  history : o.history = s.history

variable {s s' : RingAccess} {o o' : RingObject} {t i : ℤ} {before point : RingPoint}

/-- A thread takes the mutex of a node that exists. -/
theorem lockRound_of_range (hi : 0 ≤ i ∧ i < maxConnections) : s.lockRound t i point =
    if s.roundMutex i = none then
      .ok ({ s with roundMutex := Function.update s.roundMutex i (some t) }.goto t point)
    else .error .blocked := by
  rw [lockRound, subIndex_of_range hi]
  rfl

/-- A thread gives the mutex of a node that exists back. -/
theorem unlockRound_of_range (hi : 0 ≤ i ∧ i < maxConnections) : s.unlockRound t i point =
    .ok ({ s with roundMutex := Function.update s.roundMutex i none }.goto t point) := by
  rw [unlockRound, subIndex_of_range hi]
  rfl

/-- The `round_mutex` of a node that exists is initialised. -/
theorem run_addInitMutex (ht : s.threads t = .addInitMutex i) (hi : 0 ≤ i ∧ i < maxConnections) :
    s.run t = .ok
      ({ s with roundMutex := Function.update s.roundMutex i none }.goto t (.addInitCond i)) := by
  rw [run, ht]
  exact congrArg (· >>= _) (subIndex_of_range hi)

/-- The `round_cond` of a node that exists is initialised. -/
theorem run_addInitCond (ht : s.threads t = .addInitCond i) (hi : 0 ≤ i ∧ i < maxConnections) :
    s.run t = .ok
      ({ s with roundCond := Function.update s.roundCond i ∅ }.goto t (.addStoreLast i)) := by
  rw [run, ht]
  exact congrArg (· >>= _) (subIndex_of_range hi)

/-- The threads asleep on the `round_cond` of a node that exists are woken. -/
theorem run_nextBroadcast (ht : s.threads t = .nextBroadcast i) (hi : 0 ≤ i ∧ i < maxConnections) :
    s.run t = .ok
      ({ s with roundCond := Function.update s.roundCond i ∅ }.goto t (.nextUnlockRound i)) := by
  rw [run, ht]
  exact congrArg (· >>= _) (subIndex_of_range hi)

/-- The thread falls asleep on the `round_cond` of a node that exists. -/
theorem run_waitSleep {current : ℤ} (ht : s.threads t = .waitSleep i current)
    (hi : 0 ≤ i ∧ i < maxConnections) :
    s.run t = .ok ({ s with
      roundMutex := Function.update s.roundMutex i none
      roundCond := Function.update s.roundCond i (insert t (s.roundCond i)) }.goto t
        (.waitWake i current)) := by
  rw [run, ht]
  exact congrArg (· >>= _) (subIndex_of_range hi)

/-- The thread wakes up on the `round_cond` of a node that exists. -/
theorem run_waitWake {current : ℤ} (ht : s.threads t = .waitWake i current)
    (hi : 0 ≤ i ∧ i < maxConnections) :
    s.run t =
      if t ∈ s.roundCond i then .error .blocked else s.lockRound t i (.waitUnlock i current) := by
  rw [run, ht]
  exact congrArg (· >>= _) (subIndex_of_range hi)

namespace Tracks

/-- The holder of the mutex is the thread inside. -/
theorem holder_eq (h : s.Tracks o) (ht : (s.threads t).locked = true) :
    ringHolder s.mutex s.threads = s.threads t := by
  rw [(h.mutex t).mpr ht]
  rfl

/-- A thread without the mutex is not the holder. -/
theorem holder_update (h : s.Tracks o) (ht : (s.threads t).locked = false) :
    ringHolder s.mutex (Function.update s.threads t point) = ringHolder s.mutex s.threads := by
  cases hmutex : s.mutex with
  | none => rfl
  | some u =>
    have hut : u ≠ t := by
      rintro rfl
      rw [(h.mutex u).mp hmutex] at ht
      cases ht
    exact Function.update_of_ne hut _ _

/-- A thread moves on together with its caller. -/
theorem callers_update (h : s.Tracks o) {standing : Standing RingOp RingAnswer}
    (hpoint : standing = point.standing) (u : ℤ) :
    Function.update o.callers t standing u = (Function.update s.threads t point u).standing := by
  by_cases hu : u = t
  · rw [hu, Function.update_self, Function.update_self, hpoint]
  · rw [Function.update_of_ne hu, Function.update_of_ne hu, h.callers u]

/-- A thread moves on and its caller stays. -/
theorem callers_same (h : s.Tracks o) (hpoint : point.standing = (s.threads t).standing) (u : ℤ) :
    o.callers u = (Function.update s.threads t point u).standing := by
  by_cases hu : u = t
  · rw [hu, Function.update_self, hpoint, h.callers]
  · rw [Function.update_of_ne hu, h.callers u]

/-- A thread moves on and the members stay. -/
theorem members_same (h : s.Tracks o) (hpoint : point.member = (s.threads t).member) (u : ℤ) :
    u ∈ o.state.members ↔ (Function.update s.threads t point u).member = true := by
  by_cases hu : u = t
  · rw [hu, Function.update_self, hpoint, h.members]
  · rw [Function.update_of_ne hu, h.members u]

/-- A thread moves on with its own id. -/
theorem owner_update (h : s.Tracks o)
    (hpoint : ∀ i, point.owner = some i → (s.threads t).owner = some i) (u i : ℤ)
    (hu : (Function.update s.threads t point u).owner = some i) : i = u := by
  by_cases hut : u = t
  · rw [hut, Function.update_self] at hu
    exact hut ▸ h.owner t i (hpoint i hu)
  · rw [Function.update_of_ne hut] at hu
    exact h.owner u i hu

/-- A thread that has a node moves on. -/
theorem range_update (h : s.Tracks o) (ht : 0 ≤ t ∧ t < maxConnections) (u : ℤ)
    (hu : Function.update s.threads t point u ≠ .between false) : 0 ≤ u ∧ u < maxConnections := by
  by_cases hut : u = t
  · exact hut ▸ ht
  · rw [Function.update_of_ne hut] at hu
    exact h.range u hu

/-- A thread id that a thread was called with has a node. -/
theorem owner_range (h : s.Tracks o) (howner : (s.threads t).owner = some i) :
    0 ≤ i ∧ i < maxConnections := by
  rw [h.owner t i howner]
  refine h.range t fun hbetween => ?_
  rw [hbetween] at howner
  cases howner

/-- The thread that `next_thread` has chosen has a node. -/
theorem turn_range (h : s.Tracks o) {turn : ℤ}
    (hstanding : (s.threads t).standing = .served (.turn (some turn))) :
    0 ≤ turn ∧ turn < maxConnections :=
  h.turns t turn ((h.callers t).trans hstanding)

/-- A thread of the rota has a node. -/
theorem members_range (h : s.Tracks o) {u : ℤ} (hu : u ∈ o.state.members) :
    0 ≤ u ∧ u < maxConnections := by
  refine h.range u fun hbetween => ?_
  have hmember := (h.members u).mp hu
  rw [hbetween] at hmember
  cases hmember

/-- What a call answers is a thread that has a node. -/
theorem served_range (h : s.Tracks o) {op : RingOp} {turn : ℤ}
    (hanswer : (serveRing op o.state).1 = .turn (some turn)) : 0 ≤ turn ∧ turn < maxConnections := by
  cases op with
  | addSubscriber i | removeSubscriber i => cases hanswer
  | nextThread =>
    have hholder : o.state.pass.holder = some turn := RingAnswer.turn.inj hanswer
    have hin := Rota.mem_of_holder hholder
    rw [Rota.members_pass] at hin
    exact h.members_range hin
  | waitRound i => exact h.members_range (Rota.mem_of_holder (RingAnswer.turn.inj hanswer))

/-- A caller is told who has the turn. -/
theorem turns_update (h : s.Tracks o) {standing : Standing RingOp RingAnswer}
    (hstanding : ∀ turn, standing = .served (.turn (some turn)) → 0 ≤ turn ∧ turn < maxConnections)
    (u turn : ℤ) (hu : Function.update o.callers t standing u = .served (.turn (some turn))) :
    0 ≤ turn ∧ turn < maxConnections := by
  by_cases hut : u = t
  · rw [hut, Function.update_self] at hu
    exact hstanding turn hu
  · rw [Function.update_of_ne hut] at hu
    exact h.turns u turn hu

/-- Only a thread in `pthread_cond_wait` is asleep. -/
theorem awake (h : s.Tracks o) (ht : ∀ i current, s.threads t ≠ .waitWake i current) (i : ℤ) :
    t ∉ s.roundCond i := by
  intro hasleep
  obtain ⟨current, hwake⟩ := h.asleep i t hasleep
  exact ht i current hwake

/-- A thread that is awake moves on. -/
theorem asleep_update (h : s.Tracks o) (ht : ∀ i, t ∉ s.roundCond i) (i u : ℤ)
    (hu : u ∈ s.roundCond i) :
    ∃ current, Function.update s.threads t point u = .waitWake i current := by
  have hut : u ≠ t := fun heq => ht i (heq ▸ hu)
  rw [Function.update_of_ne hut]
  exact h.asleep i u hu

/-- A thread moves on and leaves the fields of the scheduler and their mutex alone. -/
theorem move (h : s.Tracks o) (ht : s.threads t = before) {roundMutex : ℤ → Option ℤ}
    {roundCond : ℤ → Finset ℤ} {history : List (CallEvent ℤ RingOp RingAnswer)}
    (hround : ∀ i, Holds (RingPoint.holdsRound i) (roundMutex i) (Function.update s.threads t point))
    (hasleep : ∀ i u, u ∈ roundCond i →
      ∃ current, Function.update s.threads t point u = .waitWake i current)
    (hrange : 0 ≤ t ∧ t < maxConnections) (howner : ∀ i, point.owner = some i → i = t)
    (hmember : point.member = before.member) (hlocked : point.locked = before.locked)
    (hmidway : before.locked = true → Midway s.data before o.state → Midway s.data point o.state)
    (hstate : o'.state = o.state)
    (hcallers : ∀ u, o'.callers u = (Function.update s.threads t point u).standing)
    (hturns : ∀ u turn, o'.callers u = .served (.turn (some turn)) →
      0 ≤ turn ∧ turn < maxConnections) (hhistory : o'.history = history) :
    Tracks
      { s with
        roundMutex := roundMutex
        roundCond := roundCond
        threads := Function.update s.threads t point
        history := history } o' := by
  subst ht
  refine ⟨h.mutex.move hlocked, hround, hasleep, fun u i hu => ?_, h.range_update hrange,
    fun u => ?_, ?_, hcallers, hturns, hhistory⟩
  · change (Function.update s.threads t point u).owner = some i at hu
    by_cases hut : u = t
    · rw [hut, Function.update_self] at hu
      rw [howner i hu, hut]
    · rw [Function.update_of_ne hut] at hu
      exact h.owner u i hu
  · rw [hstate]
    exact h.members_same hmember u
  · change Midway s.data (ringHolder s.mutex (Function.update s.threads t point)) o'.state
    rw [hstate]
    have hholder := h.midway
    cases hinside : (s.threads t).locked with
    | false => rwa [h.holder_update hinside]
    | true =>
      rw [h.holder_eq hinside] at hholder
      rw [(h.mutex t).mpr hinside]
      change Midway s.data (Function.update s.threads t point t) o.state
      rw [Function.update_self]
      exact hmidway hinside hholder

/-- A thread takes the mutex. -/
theorem lock (h : s.Tracks o) (ht : s.threads t = before) (hstep : s.lockMutex t point = .ok s')
    (hbefore : before ≠ .between false ∧ before.locked = false ∧
      ∀ i current, before ≠ .waitWake i current)
    (howner : ∀ i, point.owner = some i → before.owner = some i)
    (hmember : point.member = before.member) (hpoint : point.locked = true)
    (hround : ∀ i, point.holdsRound i = before.holdsRound i)
    (hstanding : point.standing = before.standing)
    (hmidway : TakesTurns s.data.scheduler o.state → Midway s.data point o.state) : s'.Tracks o := by
  subst ht
  unfold lockMutex at hstep
  split at hstep
  · rename_i hfree
    obtain rfl := Except.ok.inj hstep
    have hmutex := h.mutex
    have hholder := h.midway
    rw [hfree] at hmutex hholder
    refine ⟨hmutex.lock hpoint, fun i => (h.roundMutex i).move (hround i),
      h.asleep_update (h.awake hbefore.2.2), h.owner_update howner,
      h.range_update (h.range t hbefore.1), h.members_same hmember, ?_, h.callers_same hstanding,
      h.turns, h.history⟩
    change Midway s.data (Function.update s.threads t point t) o.state
    rw [Function.update_self]
    exact hmidway (hholder.takesTurns rfl rfl)
  · cases hstep

/-- A thread gives the mutex back. -/
theorem unlock (h : s.Tracks o) (ht : s.threads t = before) (hstep : s.unlockMutex t point = .ok s')
    (hbefore : before.locked = true) (hfinished : before.finished = true ∧ before.pending = none)
    (howner : point.owner = none) (hmember : point.member = before.member)
    (hpoint : point.locked = false) (hround : ∀ i, point.holdsRound i = before.holdsRound i)
    (hstanding : point.standing = before.standing) : s'.Tracks o := by
  subst ht
  obtain rfl := Except.ok.inj hstep
  have hholder := h.midway
  rw [h.holder_eq hbefore] at hholder
  have hwake : ∀ i current, s.threads t ≠ .waitWake i current := by
    intro i current heq
    rw [heq] at hbefore
    cases hbefore
  have hbetween : s.threads t ≠ .between false := by
    intro heq
    rw [heq] at hbefore
    cases hbefore
  exact ⟨h.mutex.unlock hbefore hpoint, fun i => (h.roundMutex i).move (hround i),
    h.asleep_update (h.awake hwake), h.owner_update (by simp [howner]),
    h.range_update (h.range t hbetween), h.members_same hmember,
    .of_takesTurns (hholder.takesTurns hfinished.1 hfinished.2) rfl rfl,
    h.callers_same hstanding, h.turns, h.history⟩

/-- The mutexes of the nodes when a thread takes a free one. -/
theorem round_lock (h : s.Tracks o) (hfree : s.roundMutex i = none)
    (hpoint : ∀ j, point.holdsRound j = decide (j = i))
    (hbefore : ∀ j, (s.threads t).holdsRound j = false) (j : ℤ) :
    Holds (RingPoint.holdsRound j) (Function.update s.roundMutex i (some t) j)
      (Function.update s.threads t point) := by
  by_cases hj : j = i
  · subst hj
    rw [Function.update_self]
    have hmutex := h.roundMutex j
    rw [hfree] at hmutex
    exact hmutex.lock (by simp [hpoint])
  · rw [Function.update_of_ne hj]
    exact (h.roundMutex j).move (by simp [hpoint, hbefore, hj])

/-- The mutexes of the nodes when a thread gives one back. -/
theorem round_unlock (h : s.Tracks o) (hpoint : ∀ j, point.holdsRound j = false)
    (hbefore : ∀ j, (s.threads t).holdsRound j = decide (j = i)) (j : ℤ) :
    Holds (RingPoint.holdsRound j) (Function.update s.roundMutex i none j)
      (Function.update s.threads t point) := by
  by_cases hj : j = i
  · subst hj
    rw [Function.update_self]
    exact (h.roundMutex j).unlock (by simp [hbefore]) (hpoint j)
  · rw [Function.update_of_ne hj]
    exact (h.roundMutex j).move (by simp [hpoint, hbefore, hj])

/-- A step that no other thread sees anything of. -/
structure Unseen (before point : RingPoint) : Prop where
  owner : ∀ i, point.owner = some i → before.owner = some i
  member : point.member = before.member
  locked : point.locked = before.locked
  standing : point.standing = before.standing
  finished : before.locked = true →
    (before.finished = true ∧ before.pending = none) ∧ point.finished = true ∧ point.pending = none

/-- An unseen step leaves the scheduler as it is. -/
theorem Unseen.midway {d : RingData} {rota : Rota ℤ} (h : Unseen before point)
    (hlocked : before.locked = true) (hmidway : Midway d before rota) : Midway d point rota := by
  obtain ⟨hbefore, hpoint⟩ := h.finished hlocked
  exact .of_takesTurns (hmidway.takesTurns hbefore.1 hbefore.2) hpoint.1 hpoint.2

/-- A thread takes the mutex of a node. -/
theorem lockRound (h : s.Tracks o) (ht : s.threads t = before)
    (hstep : s.lockRound t i point = .ok s') (hi : 0 ≤ i ∧ i < maxConnections)
    (hbetween : before ≠ .between false)
    (hawake : ∀ j, t ∉ s.roundCond j) (hpoint : ∀ j, point.holdsRound j = decide (j = i))
    (hbefore : ∀ j, before.holdsRound j = false) (hunseen : Unseen before point) : s'.Tracks o := by
  subst ht
  rw [lockRound_of_range hi] at hstep
  split at hstep
  · rename_i hfree
    obtain rfl := Except.ok.inj hstep
    exact h.move rfl (h.round_lock hfree hpoint hbefore) (h.asleep_update hawake)
      (h.range t hbetween) (fun j hj => h.owner t j (hunseen.owner j hj)) hunseen.member
      hunseen.locked hunseen.midway rfl (h.callers_same hunseen.standing) h.turns h.history
  · cases hstep

/-- A thread gives the mutex of a node back. -/
theorem unlockRound (h : s.Tracks o) (ht : s.threads t = before)
    (hstep : s.unlockRound t i point = .ok s') (hi : 0 ≤ i ∧ i < maxConnections)
    (hbetween : before ≠ .between false)
    (hwake : ∀ j current, before ≠ .waitWake j current) (hpoint : ∀ j, point.holdsRound j = false)
    (hbefore : ∀ j, before.holdsRound j = decide (j = i)) (hunseen : Unseen before point) :
    s'.Tracks o := by
  subst ht
  rw [unlockRound_of_range hi] at hstep
  obtain rfl := Except.ok.inj hstep
  exact h.move rfl (h.round_unlock hpoint hbefore) (h.asleep_update (h.awake hwake))
    (h.range t hbetween) (fun j hj => h.owner t j (hunseen.owner j hj)) hunseen.member
    hunseen.locked hunseen.midway rfl (h.callers_same hunseen.standing) h.turns h.history

/-- A call that has not taken effect is the thread's own. -/
theorem pending_cases {op : RingOp} (hop : point.pending = some op) :
    point.standing = .waiting op ∧
      ((∃ i, op = .addSubscriber i ∧ point.owner = some i ∧ point.member = false) ∨
        (∃ i, op = .removeSubscriber i ∧ point.owner = some i ∧ point.member = true) ∨
        op = .nextThread ∧ point.member = true) := by
  cases point <;> cases hop <;>
    simp [RingPoint.standing, RingPoint.owner, RingPoint.member]

/-- The rota after the effect of a call has the threads that are in the ring. -/
theorem members_served (h : s.Tracks o) {op : RingOp} (hop : (s.threads t).pending = some op)
    (hmember : point.member = op.stays) (u : ℤ) :
    u ∈ (serveRing op o.state).2.members ↔ (Function.update s.threads t point u).member = true := by
  obtain ⟨-, ⟨i, rfl, howner, hout⟩ | ⟨i, rfl, howner, hin⟩ | ⟨rfl, hin⟩⟩ := pending_cases hop
  · obtain rfl := h.owner t i howner
    have hnew : i ∉ o.state.members := by
      rw [h.members, hout]
      simp
    have hserved : (serveRing (.addSubscriber i) o.state).2 = o.state.join i hnew := dif_pos hnew
    rw [hserved, Rota.members_join, List.mem_append, List.mem_singleton, h.members]
    by_cases hu : u = i
    · rw [hu, Function.update_self, hmember]
      exact iff_of_true (Or.inr rfl) rfl
    · rw [Function.update_of_ne hu]
      exact or_iff_left hu
  · obtain rfl := h.owner t i howner
    change u ∈ (o.state.leave i).members ↔ _
    have hnodup : o.state.members.Nodup := o.state.nodup
    rw [Rota.members_leave, hnodup.mem_erase_iff, h.members]
    by_cases hu : u = i
    · rw [hu, Function.update_self, hmember]
      exact iff_of_false (fun hmem => hmem.1 rfl) (by simp [RingOp.stays])
    · rw [Function.update_of_ne hu]
      exact and_iff_right hu
  · change u ∈ o.state.pass.members ↔ _
    rw [Rota.members_pass]
    exact h.members_same (hmember.trans hin.symm) u

/-- `next_thread` is called by a thread in the ring. -/
theorem members_ne_nil (h : s.Tracks o) (hpending : (s.threads t).pending = some .nextThread) :
    o.state.members ≠ [] := by
  obtain ⟨-, ⟨i, hop, -⟩ | ⟨i, hop, -⟩ | ⟨-, hin⟩⟩ := pending_cases hpending
  · cases hop
  · cases hop
  · exact List.ne_nil_of_mem ((h.members t).mpr hin)

/-- Every access in a section succeeds. -/
theorem exists_access (h : s.Tracks o) (hlocked : (s.threads t).locked = true)
    (hfinished : (s.threads t).finished = false) :
    ∃ d' point', s.data.access (s.threads t) = .ok (d', point') := by
  have hmidway := h.midway
  rw [h.holder_eq hlocked] at hmidway
  obtain ⟨d', point', haccess, -⟩ := hmidway.access hlocked hfinished h.members_ne_nil
  exact ⟨d', point', haccess⟩

/-- The holder of the mutex makes an access, with which its call may take effect. -/
theorem access (h : s.Tracks o) (hposs : AtomicObject.Possible serveRing .empty o)
    (hlocked : (s.threads t).locked = true) (hfinished : (s.threads t).finished = false)
    {d' : RingData} {roundMutex : ℤ → Option ℤ} {roundCond : ℤ → Finset ℤ}
    (haccess : s.data.access (s.threads t) = .ok (d', point))
    (hround : ∀ i, Holds (RingPoint.holdsRound i) (roundMutex i) (Function.update s.threads t point))
    (hasleep : ∀ i u, u ∈ roundCond i →
      ∃ current, Function.update s.threads t point u = .waitWake i current) :
    ∃ o', AtomicObject.Possible serveRing .empty o' ∧
      Tracks { s with
        data := d'
        roundMutex := roundMutex
        roundCond := roundCond
        threads := Function.update s.threads t point } o' := by
  have hmidway := h.midway
  rw [h.holder_eq hlocked] at hmidway
  obtain ⟨d'', point', haccess', haccesses, hrest⟩ :=
    hmidway.access hlocked hfinished h.members_ne_nil
  obtain ⟨rfl, rfl⟩ := Prod.mk.inj (Except.ok.inj (haccess.symm.trans haccess'))
  have hbetween : s.threads t ≠ .between false := by
    intro heq
    rw [heq] at hlocked
    cases hlocked
  have htracks : ∀ o' : RingObject, o'.history = o.history → Midway d' point o'.state →
      (∀ u, u ∈ o'.state.members ↔ (Function.update s.threads t point u).member = true) →
      (∀ u, o'.callers u = (Function.update s.threads t point u).standing) →
      (∀ u turn, o'.callers u = .served (.turn (some turn)) → 0 ≤ turn ∧ turn < maxConnections) →
      Tracks { s with
        data := d'
        roundMutex := roundMutex
        roundCond := roundCond
        threads := Function.update s.threads t point } o' := by
    intro o' hhistory hpoint hmembers hcallers hturns
    refine ⟨h.mutex.move (haccesses.locked.trans hlocked.symm), hround, hasleep,
      h.owner_update haccesses.owner, h.range_update (h.range t hbetween), hmembers, ?_, hcallers,
      hturns, hhistory.trans h.history⟩
    change Midway d' (ringHolder s.mutex (Function.update s.threads t point)) o'.state
    rw [(h.mutex t).mpr hlocked]
    change Midway d' (Function.update s.threads t point t) o'.state
    rwa [Function.update_self]
  obtain ⟨-, hstanding, hmember, hpoint⟩ | ⟨op, hop, hstanding, hmember, hpoint⟩ := hrest
  · exact ⟨o, hposs, htracks o rfl hpoint (h.members_same hmember) (h.callers_same hstanding)
      h.turns⟩
  · have hcaller : o.callers t = .waiting op := (h.callers t).trans (pending_cases hop).1
    exact ⟨_, hposs.effect hcaller, htracks _ rfl hpoint (h.members_served hop hmember)
      (h.callers_update hstanding.symm)
      (h.turns_update fun turn hturn => h.served_range (Standing.served.inj hturn))⟩

/-- What a thread does next in the middle of a section. -/
theorem run_of_access (hlocked : (s.threads t).locked = true)
    (hfinished : (s.threads t).finished = false) (hmutex : ∀ i, s.threads t ≠ .addInitMutex i)
    (hcond : ∀ i, s.threads t ≠ .addInitCond i) :
    s.run t = (s.data.access (s.threads t)).map fun r => { s with data := r.1 }.goto t r.2 := by
  unfold run
  generalize s.threads t = point at hlocked hfinished hmutex hcond
  cases point with
  | addInitMutex i => exact absurd rfl (hmutex i)
  | addInitCond i => exact absurd rfl (hcond i)
  | _ => first | rfl | cases hfinished

/-- The mutex and the condition variable that `add_subscriber` initialises are not in use. -/
theorem unused (h : s.Tracks o) (ht : (s.threads t).locked = true)
    (howner : (s.threads t).owner = some i)
    (hround : ∀ j, (s.threads t).holdsRound j = false) :
    s.roundMutex i = none ∧ s.roundCond i = ∅ := by
  obtain rfl := h.owner t i howner
  constructor
  · by_contra hheld
    obtain ⟨u, hu⟩ := Option.ne_none_iff_exists'.mp hheld
    have hinside := (h.roundMutex i u).mp hu
    have hne : u ≠ i := by
      rintro rfl
      rw [hround] at hinside
      cases hinside
    cases hpoint : s.threads u with
    | nextBroadcast next | nextUnlockRound next =>
      exact hne (h.mutex.eq (by rw [hpoint]; rfl) ht)
    | waitSleep j current | waitUnlock j current =>
      have hj := h.owner u j (by rw [hpoint]; rfl)
      rw [hpoint] at hinside
      exact hne (hj.symm.trans (of_decide_eq_true hinside))
    | _ =>
      rw [hpoint] at hinside
      cases hinside
  · by_contra hnonempty
    obtain ⟨u, hu⟩ := Finset.nonempty_iff_ne_empty.mpr hnonempty
    obtain ⟨current, hwake⟩ := h.asleep i u hu
    have hiu := h.owner u i (by rw [hwake]; rfl)
    rw [hiu, hwake] at ht
    cases ht

/-- A step of the holder of the mutex on the fields of the scheduler. -/
theorem inside (h : s.Tracks o) (hposs : AtomicObject.Possible serveRing .empty o)
    (hlocked : (s.threads t).locked = true) (hfinished : (s.threads t).finished = false)
    (hrun : s.run t = .ok s') : ∃ o', AtomicObject.Possible serveRing .empty o' ∧ s'.Tracks o' := by
  have hwake : ∀ i current, s.threads t ≠ .waitWake i current := by
    intro i current heq
    rw [heq] at hlocked
    cases hlocked
  have hout : ∀ j, (s.threads t).holdsRound j = false := by
    intro j
    revert hfinished
    cases s.threads t <;> simp [RingPoint.holdsRound, RingPoint.finished, RingPoint.locked]
  by_cases hmutex : ∃ i, s.threads t = .addInitMutex i
  · obtain ⟨i, hi⟩ := hmutex
    obtain ⟨hfree, -⟩ := h.unused hlocked (by rw [hi]; rfl) hout
    rw [run_addInitMutex hi (h.owner_range (by rw [hi]; rfl))] at hrun
    obtain rfl := Except.ok.inj hrun
    have hsame : Function.update s.roundMutex i none = s.roundMutex := by
      rw [← hfree, Function.update_eq_self]
    rw [hsame]
    exact h.access hposs hlocked hfinished (by rw [hi]; rfl)
      (fun j => (h.roundMutex j).move (by rw [hi]; rfl)) (h.asleep_update (h.awake hwake))
  · by_cases hcond : ∃ i, s.threads t = .addInitCond i
    · obtain ⟨i, hi⟩ := hcond
      obtain ⟨-, hempty⟩ := h.unused hlocked (by rw [hi]; rfl) hout
      rw [run_addInitCond hi (h.owner_range (by rw [hi]; rfl))] at hrun
      obtain rfl := Except.ok.inj hrun
      have hsame : Function.update s.roundCond i ∅ = s.roundCond := by
        rw [← hempty, Function.update_eq_self]
      rw [hsame]
      exact h.access hposs hlocked hfinished (by rw [hi]; rfl)
        (fun j => (h.roundMutex j).move (by rw [hi]; rfl)) (h.asleep_update (h.awake hwake))
    · rw [run_of_access hlocked hfinished (fun i hi => hmutex ⟨i, hi⟩)
        fun i hi => hcond ⟨i, hi⟩] at hrun
      cases haccess : s.data.access (s.threads t) with
      | error reason =>
        rw [haccess] at hrun
        cases hrun
      | ok r =>
        rw [haccess] at hrun
        obtain rfl := Except.ok.inj hrun
        have haccesses := accesses_of_access hlocked haccess
        exact h.access hposs hlocked hfinished haccess
          (fun j => (h.roundMutex j).move ((haccesses.round j).trans (hout j).symm))
          (h.asleep_update (h.awake hwake))

/-- `next_thread` wakes who sleeps on the `round_cond` of the node. -/
theorem broadcast (h : s.Tracks o) (ht : s.threads t = .nextBroadcast i) (hrun : s.run t = .ok s') :
    s'.Tracks o := by
  rw [run_nextBroadcast ht (h.turn_range (by rw [ht]; rfl))] at hrun
  obtain rfl := Except.ok.inj hrun
  refine h.move ht (fun j => (h.roundMutex j).move (ht ▸ rfl)) (fun j u hu => ?_)
    (h.range t (by simp [ht])) (fun j hj => by cases hj) rfl rfl
    (fun _ hmidway => .of_takesTurns (hmidway.takesTurns rfl rfl) rfl rfl) rfl
    (h.callers_same (ht ▸ rfl)) h.turns h.history
  change u ∈ Function.update s.roundCond i ∅ j at hu
  by_cases hj : j = i
  · rw [hj, Function.update_self] at hu
    simp at hu
  · rw [Function.update_of_ne hj] at hu
    exact h.asleep_update (h.awake (by simp [ht])) j u hu

/-- A thread falls asleep on its own `round_cond` and gives the `round_mutex` back. -/
theorem sleep {current : ℤ} (h : s.Tracks o) (ht : s.threads t = .waitSleep i current)
    (hrun : s.run t = .ok s') : s'.Tracks o := by
  rw [run_waitSleep ht (h.owner_range (by rw [ht]; rfl))] at hrun
  obtain rfl := Except.ok.inj hrun
  refine h.move ht (h.round_unlock (fun _ => rfl) fun j => by
      rw [ht]
      simp [RingPoint.holdsRound, eq_comm]) (fun j u hu => ?_) (h.range t (by simp [ht]))
    (fun j hj => h.owner t j (ht ▸ hj)) rfl rfl (fun hin => by cases hin) rfl
    (h.callers_same (ht ▸ rfl)) h.turns h.history
  change u ∈ Function.update s.roundCond i (insert t (s.roundCond i)) j at hu
  by_cases hj : j = i
  · subst hj
    rw [Function.update_self] at hu
    obtain rfl | hu := Finset.mem_insert.mp hu
    · exact ⟨current, Function.update_self _ _ _⟩
    · exact h.asleep_update (h.awake (by simp [ht])) j u hu
  · rw [Function.update_of_ne hj] at hu
    exact h.asleep_update (h.awake (by simp [ht])) j u hu

/-- A thread that was woken takes the `round_mutex` again. -/
theorem wakeUp {current : ℤ} (h : s.Tracks o) (ht : s.threads t = .waitWake i current)
    (hrun : s.run t = .ok s') : s'.Tracks o := by
  have hi := h.owner_range (t := t) (i := i) (by rw [ht]; rfl)
  rw [run_waitWake ht hi] at hrun
  split at hrun
  · cases hrun
  · rename_i hawake
    have hawake' : ∀ j, t ∉ s.roundCond j := by
      intro j hj
      obtain ⟨current', hwake⟩ := h.asleep j t hj
      rw [ht] at hwake
      obtain ⟨rfl, -⟩ := RingPoint.waitWake.inj hwake
      exact hawake hj
    exact h.lockRound ht hrun hi (by simp) hawake'
      (fun j => by simp [RingPoint.holdsRound, eq_comm]) (fun _ => rfl)
      ⟨fun _ => id, rfl, rfl, rfl, fun hin => by cases hin⟩

/-- A step of a thread at a mutex or a condition variable is not seen from outside. -/
theorem sync (h : s.Tracks o) (hfinished : (s.threads t).finished = true)
    (htest : ∀ i, s.threads t ≠ .waitTest i)
    (hreturning : ∀ answer member, s.threads t ≠ .returning answer member)
    (hrun : s.run t = .ok s') : s'.Tracks o := by
  cases ht : s.threads t with
  | returning answer member => exact absurd ht (hreturning answer member)
  | waitTest i => exact absurd ht (htest i)
  | between member =>
    rw [run, ht] at hrun
    cases hrun
  | addLock i =>
    rw [run, ht] at hrun
    have hi := h.owner t i (by rw [ht]; rfl)
    have hrange := h.range t (by simp [ht])
    have hnew : i ∉ o.state.members := by
      rw [hi, h.members, ht]
      simp [RingPoint.member]
    exact h.lock ht hrun ⟨by simp, rfl, by simp⟩ (fun _ => id) rfl rfl (fun _ => rfl) rfl
      fun hturns => .add hturns (hi ▸ hrange) hnew
  | removeLock i =>
    rw [run, ht] at hrun
    have hi := h.owner t i (by rw [ht]; rfl)
    have hin : i ∈ o.state.members := by
      rw [hi, h.members, ht]
      rfl
    exact h.lock ht hrun ⟨by simp, rfl, by simp⟩ (fun _ => id) rfl rfl (fun _ => rfl) rfl
      fun hturns => .remove hturns hin
  | nextLock =>
    rw [run, ht] at hrun
    have hin : t ∈ o.state.members := by
      rw [h.members, ht]
      rfl
    exact h.lock ht hrun ⟨by simp, rfl, by simp⟩ (fun _ => id) rfl rfl (fun _ => rfl) rfl
      fun hturns => .next hturns (List.ne_nil_of_mem hin)
  | addUnlock | removeUnlock | nextUnlock =>
    rw [run, ht] at hrun
    exact h.unlock ht hrun rfl ⟨rfl, rfl⟩ rfl rfl rfl (fun _ => rfl) rfl
  | nextLockRound next =>
    rw [run, ht] at hrun
    exact h.lockRound ht hrun (h.turn_range (by rw [ht]; rfl)) (by simp) (h.awake (by simp [ht]))
      (fun j => by simp [RingPoint.holdsRound, eq_comm]) (fun _ => rfl)
      ⟨fun _ => id, rfl, rfl, rfl, fun _ => ⟨⟨rfl, rfl⟩, rfl, rfl⟩⟩
  | nextUnlockRound next =>
    rw [run, ht] at hrun
    exact h.unlockRound ht hrun (h.turn_range (by rw [ht]; rfl)) (by simp) (by simp)
      (fun _ => rfl) (fun j => by simp [RingPoint.holdsRound, eq_comm])
      ⟨fun _ => id, rfl, rfl, rfl, fun _ => ⟨⟨rfl, rfl⟩, rfl, rfl⟩⟩
  | nextBroadcast next => exact h.broadcast ht hrun
  | waitLock i current =>
    rw [run, ht] at hrun
    exact h.lockRound ht hrun (h.owner_range (by rw [ht]; rfl)) (by simp) (h.awake (by simp [ht]))
      (fun j => by simp [RingPoint.holdsRound, eq_comm]) (fun _ => rfl)
      ⟨fun _ => id, rfl, rfl, rfl, fun hin => by cases hin⟩
  | waitUnlock i current =>
    rw [run, ht] at hrun
    exact h.unlockRound ht hrun (h.owner_range (by rw [ht]; rfl)) (by simp) (by simp)
      (fun _ => rfl) (fun j => by simp [RingPoint.holdsRound, eq_comm])
      ⟨fun _ hi => (by cases hi), rfl, rfl, rfl, fun hin => (by cases hin)⟩
  | waitSleep i current => exact h.sleep ht hrun
  | waitWake i current => exact h.wakeUp ht hrun
  | _ =>
    rw [ht] at hfinished
    cases hfinished

/-- The test of `wait_round`, at any moment of what the holder of the mutex does. -/
theorem waitTest (h : s.Tracks o) (hposs : AtomicObject.Possible serveRing .empty o)
    (ht : s.threads t = .waitTest i) (hrun : s.run t = .ok s') :
    ∃ o', AtomicObject.Possible serveRing .empty o' ∧ s'.Tracks o' := by
  have hcaller : o.callers t = .waiting (.waitRound i) := by rw [h.callers, ht]; rfl
  have hin : t ∈ o.state.members := by
    rw [h.members, ht]
    rfl
  obtain ⟨holder, hholder⟩ := Rota.exists_holder (List.ne_nil_of_mem hin)
  have hcurrent := h.midway.current holder hholder
  rw [run, ht] at hrun
  obtain rfl := Except.ok.inj hrun
  have hafter : ∀ point : RingPoint,
      point = (if s.data.current ≠ i then .waitLock i s.data.current
        else .returning (.turn (some s.data.current)) true) →
          (∀ j, point.owner = some j → j = i) ∧ point.member = true ∧ point.locked = false ∧
            (∀ j, point.holdsRound j = false) ∧ point.standing = .served (.turn o.state.holder) := by
    rintro point rfl
    rw [hholder, ← hcurrent]
    split
    · exact ⟨fun j hj => (Option.some.inj hj).symm, rfl, rfl, fun _ => rfl, rfl⟩
    · exact ⟨fun j hj => (by cases hj), rfl, rfl, fun _ => rfl, rfl⟩
  obtain ⟨howner, hmember, hlocked, hround, hstanding⟩ := hafter _ rfl
  have hi := h.owner t i (by rw [ht]; rfl)
  exact ⟨_, hposs.effect hcaller, h.move ht (fun j => (h.roundMutex j).move (by rw [ht, hround]; rfl))
    (h.asleep_update (h.awake (by simp [ht]))) (h.range t (by simp [ht]))
    (fun j hj => (howner j hj).trans hi) hmember hlocked (fun hinside => by cases hinside) rfl
    (h.callers_update hstanding.symm)
    (h.turns_update fun turn hturn => h.served_range (Standing.served.inj hturn)) h.history⟩

/-- A thread returns from a function. -/
theorem returns {answer : RingAnswer} {member : Bool} (h : s.Tracks o)
    (hposs : AtomicObject.Possible serveRing .empty o) (ht : s.threads t = .returning answer member)
    (hrun : s.run t = .ok s') : ∃ o', AtomicObject.Possible serveRing .empty o' ∧ s'.Tracks o' := by
  rw [run, ht] at hrun
  obtain rfl := Except.ok.inj hrun
  have hcaller : o.callers t = .served answer := by rw [h.callers, ht]; rfl
  exact ⟨_, hposs.returns hcaller, h.move ht (fun j => (h.roundMutex j).move (by rw [ht]; rfl))
    (h.asleep_update (h.awake (by simp [ht]))) (h.range t (by simp [ht])) (fun j hj => by cases hj)
    rfl rfl (fun hinside => by cases hinside) rfl (h.callers_update rfl)
    (h.turns_update fun _ hturn => by cases hturn)
    (congrArg (· ++ [CallEvent.returns t answer]) h.history)⟩

/-- A thread calls a function. -/
theorem call {op : RingOp} (h : s.Tracks o) (hposs : AtomicObject.Possible serveRing .empty o)
    (hstep : s.call t op = .ok s') :
    ∃ o', AtomicObject.Possible serveRing .empty o' ∧ s'.Tracks o' := by
  unfold RingAccess.call at hstep
  split at hstep
  · rename_i member ht
    split at hstep
    · rename_i hallowed
      obtain rfl := Except.ok.inj hstep
      have hcaller : o.callers t = .idle := by rw [h.callers, ht]; rfl
      have hentry : (∀ j, op.entry.owner = some j → j = t) ∧ op.entry.member = member ∧
          op.entry.locked = false ∧ (∀ j, op.entry.holdsRound j = false) ∧
            op.entry.standing = .waiting op := by
        cases op with
        | addSubscriber j =>
          obtain ⟨rfl, rfl, -⟩ := hallowed
          exact ⟨fun _ hj => (Option.some.inj hj).symm, rfl, rfl, fun _ => rfl, rfl⟩
        | removeSubscriber j | waitRound j =>
          obtain ⟨rfl, rfl⟩ := hallowed
          exact ⟨fun _ hj => (Option.some.inj hj).symm, rfl, rfl, fun _ => rfl, rfl⟩
        | nextThread =>
          obtain rfl : member = true := hallowed
          exact ⟨fun _ hj => (by cases hj), rfl, rfl, fun _ => rfl, rfl⟩
      have hrange : 0 ≤ t ∧ t < maxConnections := by
        cases op with
        | addSubscriber j => exact hallowed.2.2
        | removeSubscriber j | waitRound j => exact h.range t (by rw [ht, hallowed.2]; simp)
        | nextThread => exact h.range t (by rw [ht, show member = true from hallowed]; simp)
      obtain ⟨howner, hmember, hlocked, hround, hstanding⟩ := hentry
      exact ⟨_, hposs.begins hcaller, h.move ht
        (fun j => (h.roundMutex j).move (by rw [ht, hround]; rfl))
        (h.asleep_update (h.awake (by simp [ht]))) hrange howner hmember hlocked
        (fun hinside => by cases hinside) rfl (h.callers_update hstanding.symm)
        (h.turns_update fun _ hturn => by cases hturn)
        (congrArg (· ++ [CallEvent.begins t op]) h.history)⟩
    · cases hstep
  · cases hstep

/-- A thread in `pthread_cond_wait` wakes up by itself. -/
theorem wake (h : s.Tracks o) (hstep : s.wake t = .ok s') : s'.Tracks o := by
  unfold RingAccess.wake at hstep
  split at hstep
  · rename_i i current ht
    obtain rfl := Except.ok.inj hstep
    refine { h with asleep := fun j u hu => ?_ }
    change u ∈ Function.update s.roundCond i ((s.roundCond i).erase t) j at hu
    by_cases hj : j = i
    · subst hj
      rw [Function.update_self] at hu
      exact h.asleep j u (Finset.mem_of_mem_erase hu)
    · rw [Function.update_of_ne hj] at hu
      exact h.asleep j u hu
  · cases hstep

/-- Whatever happens, the object can follow. -/
theorem step {act : RingAct} (h : s.Tracks o) (hposs : AtomicObject.Possible serveRing .empty o)
    (hstep : s.step act = .ok s') :
    ∃ o', AtomicObject.Possible serveRing .empty o' ∧ s'.Tracks o' := by
  cases act with
  | call t op => exact h.call hposs hstep
  | spurious t => exact ⟨o, hposs, h.wake hstep⟩
  | run t =>
    change s.run t = _ at hstep
    cases hfinished : (s.threads t).finished with
    | false =>
      have hlocked : (s.threads t).locked = true := by
        revert hfinished
        cases s.threads t <;> simp [RingPoint.finished, RingPoint.locked]
      exact h.inside hposs hlocked hfinished hstep
    | true =>
      by_cases htest : ∃ i, s.threads t = .waitTest i
      · obtain ⟨i, ht⟩ := htest
        exact h.waitTest hposs ht hstep
      · by_cases hreturning : ∃ answer member, s.threads t = .returning answer member
        · obtain ⟨answer, member, ht⟩ := hreturning
          exact h.returns hposs ht hstep
        · exact ⟨o, hposs, h.sync hfinished (fun i ht => htest ⟨i, ht⟩)
            (fun answer member ht => hreturning ⟨answer, member, ht⟩) hstep⟩

end Tracks

/-- The empty scheduler is the empty rota. -/
theorem tracks_initial : initial.Tracks (.initial .empty) where
  mutex t := by simp [initial, RingPoint.locked]
  roundMutex i t := by simp [initial, RingPoint.holdsRound]
  asleep i t ht := by simp [initial] at ht
  owner t i hi := by cases hi
  range t ht := absurd rfl ht
  members t := by simp [AtomicObject.initial, initial, RingPoint.member]
  midway := .of_takesTurns (TakesTurns.empty initial.data.scheduler) rfl rfl
  callers _ := rfl
  turns t turn ht := by cases ht
  history := rfl

/-- Every state that the threads reach is matched by one that the object can reach. -/
theorem exists_tracks {guard : RingAccess → RingAct → Prop} (h : Reaches step guard initial s) :
    ∃ o, AtomicObject.Possible serveRing .empty o ∧ s.Tracks o :=
  h.invariant (P := fun s => ∃ o, AtomicObject.Possible serveRing .empty o ∧ s.Tracks o)
    ⟨_, .refl, tracks_initial⟩ fun _ _ _ ⟨_, hposs, htracks⟩ _ hstep => htracks.step hposs hstep

/-- What the callers of the scheduler see, any interleaving of single accesses, is a history of
a rota with atomic calls. At every moment `current` is the thread that has the turn there, and
whenever the mutex is free the ring, both cursors and the counter are those of the rota. -/
theorem rounds_linearizable {guard : RingAccess → RingAct → Prop} (h : Reaches step guard initial s) :
    ∃ o, AtomicObject.Possible serveRing .empty o ∧ o.history = s.history ∧
      (∀ t, o.state.holder = some t → s.data.current = t) ∧
      (s.mutex = none → TakesTurns s.data.scheduler o.state) := by
  obtain ⟨o, hposs, htracks⟩ := exists_tracks h
  refine ⟨o, hposs, htracks.history, htracks.midway.current, fun hfree => ?_⟩
  have hmidway := htracks.midway
  rw [hfree] at hmidway
  exact hmidway.takesTurns rfl rfl

/-- One thread goes to sleep because the other one has the turn. It wakes up by itself just
after `next_thread` has stored `current`, and holds its `round_mutex` when the other one wants
to broadcast. -/
def wokenTooSoon : List RingAct :=
  .call 0 (.addSubscriber 0) :: List.replicate 17 (.run 0) ++
    .call 1 (.addSubscriber 1) :: List.replicate 18 (.run 1) ++
    [.call 1 (.waitRound 1), .run 1, .run 1, .run 1, .call 0 .nextThread, .run 0, .run 0, .run 0,
      .run 0, .spurious 1, .run 1, .run 1, .run 1] ++ List.replicate 5 (.run 0)

/-- The call that slept is answered with the thread that had the turn before. -/
theorem rounds_linearizable_wokenTooSoon :
    ∃ s, exec step initial wokenTooSoon = .ok s ∧ s.data.current = 1 ∧
      s.history = [.begins 0 (.addSubscriber 0), .returns 0 .done, .begins 1 (.addSubscriber 1),
        .returns 1 .done, .begins 1 (.waitRound 1), .begins 0 .nextThread,
        .returns 1 (.turn (some 0)), .returns 0 (.turn (some 1))] ∧
      ∃ o, AtomicObject.Possible serveRing .empty o ∧ o.history = s.history ∧
        (∀ t, o.state.holder = some t → s.data.current = t) ∧
        (s.mutex = none → TakesTurns s.data.scheduler o.state) := by
  have hobserved : (exec step initial wokenTooSoon).toOption.map
      (fun s => (s.data.current, s.history)) =
        some (1, [.begins 0 (.addSubscriber 0), .returns 0 .done, .begins 1 (.addSubscriber 1),
          .returns 1 .done, .begins 1 (.waitRound 1), .begins 0 .nextThread,
          .returns 1 (.turn (some 0)), .returns 0 (.turn (some 1))]) := by decide +kernel
  obtain ⟨s, hrun, hview⟩ := exec_observed hobserved
  obtain ⟨hcurrent, hhistory⟩ := Prod.mk.inj hview
  exact ⟨s, hrun, hcurrent, hhistory, rounds_linearizable (reaches_of_exec hrun)⟩

/-- Only a held mutex keeps a thread from it. -/
theorem lockMutex_error {reason : Abort} (hrun : s.lockMutex t point = .error reason) :
    reason = .blocked ∧ s.mutex ≠ none := by
  unfold lockMutex at hrun
  split at hrun
  · cases hrun
  · rename_i hheld
    exact ⟨(Except.error.inj hrun).symm, hheld⟩

/-- Only a held `round_mutex` keeps a thread from it. -/
theorem lockRound_error {reason : Abort} (hi : 0 ≤ i ∧ i < maxConnections)
    (hrun : s.lockRound t i point = .error reason) :
    reason = .blocked ∧ s.roundMutex i ≠ none := by
  rw [lockRound_of_range hi] at hrun
  split at hrun
  · cases hrun
  · rename_i hheld
    exact ⟨(Except.error.inj hrun).symm, hheld⟩

/-- Why a thread does not go on. -/
inductive Waits (s : RingAccess) (t : ℤ) : Prop
  /-- It has no call to go on with. -/
  | idle {member : Bool} : s.threads t = .between member → Waits s t
  | asleep {i current : ℤ} : s.threads t = .waitWake i current → t ∈ s.roundCond i → Waits s t
  /-- Another thread has the mutex. -/
  | mutex : (s.threads t).locked = false → (∀ i, (s.threads t).holdsRound i = false) →
      s.mutex ≠ none → Waits s t
  /-- Another thread has the mutex of a node. -/
  | roundMutex {i : ℤ} : (∀ j, (s.threads t).holdsRound j = false) → s.roundMutex i ≠ none →
      Waits s t

/-- A thread that does not go on waits for something. -/
theorem Tracks.waits {reason : Abort} (h : s.Tracks o) (hrun : s.run t = .error reason) :
    reason = .blocked ∧ s.Waits t := by
  cases ht : s.threads t with
  | between member =>
    rw [run, ht] at hrun
    exact ⟨(Except.error.inj hrun).symm, .idle ht⟩
  | addLock i | removeLock i | nextLock =>
    rw [run, ht] at hrun
    obtain ⟨hreason, hheld⟩ := lockMutex_error hrun
    exact ⟨hreason, .mutex (by rw [ht]; rfl) (fun _ => by rw [ht]; rfl) hheld⟩
  | nextLockRound next =>
    rw [run, ht] at hrun
    obtain ⟨hreason, hheld⟩ := lockRound_error (h.turn_range (by rw [ht]; rfl)) hrun
    exact ⟨hreason, .roundMutex (fun _ => by rw [ht]; rfl) hheld⟩
  | waitLock i current =>
    rw [run, ht] at hrun
    obtain ⟨hreason, hheld⟩ := lockRound_error (h.owner_range (by rw [ht]; rfl)) hrun
    exact ⟨hreason, .roundMutex (fun _ => by rw [ht]; rfl) hheld⟩
  | waitWake i current =>
    have hi := h.owner_range (t := t) (i := i) (by rw [ht]; rfl)
    rw [run_waitWake ht hi] at hrun
    split at hrun
    · rename_i hasleep
      exact ⟨(Except.error.inj hrun).symm, .asleep ht hasleep⟩
    · obtain ⟨hreason, hheld⟩ := lockRound_error hi hrun
      exact ⟨hreason, .roundMutex (fun _ => by rw [ht]; rfl) hheld⟩
  | addInitMutex i =>
    rw [run_addInitMutex ht (h.owner_range (by rw [ht]; rfl))] at hrun
    cases hrun
  | addInitCond i =>
    rw [run_addInitCond ht (h.owner_range (by rw [ht]; rfl))] at hrun
    cases hrun
  | nextBroadcast next =>
    rw [run_nextBroadcast ht (h.turn_range (by rw [ht]; rfl))] at hrun
    cases hrun
  | nextUnlockRound next =>
    rw [run, ht] at hrun
    cases (unlockRound_of_range (h.turn_range (by rw [ht]; rfl))).symm.trans hrun
  | waitSleep i current =>
    rw [run_waitSleep ht (h.owner_range (by rw [ht]; rfl))] at hrun
    cases hrun
  | waitUnlock i current =>
    rw [run, ht] at hrun
    cases (unlockRound_of_range (h.owner_range (by rw [ht]; rfl))).symm.trans hrun
  | returning answer member | addUnlock | removeUnlock | nextUnlock next | waitTest i =>
    rw [run, ht] at hrun
    cases hrun
  | _ =>
    have hlocked : (s.threads t).locked = true := by rw [ht]; rfl
    have hfinished : (s.threads t).finished = false := by rw [ht]; rfl
    obtain ⟨d', point', haccess⟩ := h.exists_access hlocked hfinished
    rw [Tracks.run_of_access hlocked hfinished (by simp [ht]) (by simp [ht]), haccess] at hrun
    cases hrun

/-- No access leaves `subs`, no mutex or condition variable is initialised while a thread has
it or is asleep on it, and the mutexes never block everybody: as long as some thread is inside
and not asleep on a `round_cond`, some thread can go on. -/
theorem rounds_never_stuck {guard : RingAccess → RingAct → Prop} (h : Reaches step guard initial s) :
    (∀ t reason, s.run t = .error reason → reason = .blocked) ∧
      (∀ t i, s.threads t = .addInitMutex i ∨ s.threads t = .addInitCond i →
        s.roundMutex i = none ∧ s.roundCond i = ∅) ∧
      ((∃ t, (∀ member, s.threads t ≠ .between member) ∧
          ∀ i current, s.threads t = .waitWake i current → t ∉ s.roundCond i) →
        ∃ t s', s.run t = .ok s') := by
  obtain ⟨o, -, htracks⟩ := exists_tracks h
  refine ⟨fun t reason hrun => (htracks.waits hrun).1, fun t i hinit => ?_,
    fun ⟨t, hbetween, hawake⟩ => ?_⟩
  · obtain ht | ht := hinit <;>
      exact htracks.unused (by rw [ht]; rfl) (by rw [ht]; rfl) fun _ => by rw [ht]; rfl
  · by_contra hstuck
    push Not at hstuck
    have hwaits : ∀ u, s.Waits u := by
      intro u
      cases hrun : s.run u with
      | ok s' => exact absurd hrun (hstuck u s')
      | error reason => exact (htracks.waits hrun).2
    have hround : ∀ i, s.roundMutex i = none := by
      intro i
      by_contra hheld
      obtain ⟨u, hu⟩ := Option.ne_none_iff_exists'.mp hheld
      have hinside := (htracks.roundMutex i u).mp hu
      cases hwaits u with
      | idle hpoint | asleep hpoint =>
        rw [hpoint] at hinside
        cases hinside
      | mutex _ hpoint | roundMutex hpoint =>
        rw [hpoint] at hinside
        cases hinside
    have hmutex : s.mutex = none := by
      by_contra hheld
      obtain ⟨u, hu⟩ := Option.ne_none_iff_exists'.mp hheld
      have hinside := (htracks.mutex u).mp hu
      cases hwaits u with
      | idle hpoint | asleep hpoint =>
        rw [hpoint] at hinside
        cases hinside
      | mutex hpoint =>
        rw [hpoint] at hinside
        cases hinside
      | roundMutex _ htaken => exact htaken (hround _)
    cases hwaits t with
    | idle hpoint => exact hbetween _ hpoint
    | asleep hpoint hsleeps => exact hawake _ _ hpoint hsleeps
    | mutex _ _ hheld => exact hheld hmutex
    | roundMutex _ hheld => exact hheld (hround _)

/-- In the middle of that run, `next_thread` waits for the mutex of the node it has chosen. -/
theorem rounds_never_stuck_wokenTooSoon :
    ∃ s, exec step initial (wokenTooSoon.take 48) = .ok s ∧ s.threads 0 = .nextLockRound 1 ∧
      s.threads 1 = .waitUnlock 1 0 ∧
      (∀ t reason, s.run t = .error reason → reason = .blocked) ∧
      (∀ t i, s.threads t = .addInitMutex i ∨ s.threads t = .addInitCond i →
        s.roundMutex i = none ∧ s.roundCond i = ∅) ∧
      ∃ t s', s.run t = .ok s' := by
  have hobserved : (exec step initial (wokenTooSoon.take 48)).toOption.map
      (fun s => (s.threads 0, s.threads 1)) = some (.nextLockRound 1, .waitUnlock 1 0) := by
    decide +kernel
  obtain ⟨s, hrun, hview⟩ := exec_observed hobserved
  obtain ⟨hzero, hone⟩ := Prod.mk.inj hview
  obtain ⟨hdefined, hinit, hgoes⟩ := rounds_never_stuck (reaches_of_exec hrun)
  exact ⟨s, hrun, hzero, hone, hdefined, hinit, hgoes ⟨0, by simp [hzero], by simp [hzero]⟩⟩

end RingAccess

end AmqpBroker
