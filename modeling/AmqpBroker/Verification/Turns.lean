import AmqpBroker.Verification.Rounds

/-!
# The turn reaches a thread that can take it

A subscriber that gets the turn must find out: it is awake, or the step that gives it the
turn wakes it. Two steps of the source break this. `remove_subscriber` moves `current` to
the next id and wakes nobody, and `wait_round` reads `current` before it takes the lock it
sleeps under, so that the broadcast of `next_thread` can come between. Where neither
happens the turn is never with a thread that sleeps.
-/

namespace AmqpBroker

open Foundations Program MachineState

variable {s s' : Broker} {t : ℤ} {c : Conn} {p : ℕ} {queue : Queue} {grain : Grain} {act : Act}
  {members : List ℤ} {joins leaves : Prop} {r r' : Round} {point : DequeuePoint}

/-- The thread sleeps in `wait_round` and no broadcast has reached it. -/
def Round.Asleep (r : Round) (t : ℤ) : Prop :=
  r.point t = some .wakeRound ∧ t ∈ (r.rr.subs t).roundCond

/-- The thread sleeps in `wait_round`, or has seen that it must. -/
def Round.Drowsy (r : Round) (t : ℤ) : Prop := r.Asleep t ∨ r.point t = some .sleepRound

/-- Whether a thread is about to sleep depends on its point and its sleepers. -/
theorem Round.drowsy_congr (hpoint : r'.point t = r.point t)
    (hcond : (r'.rr.subs t).roundCond = (r.rr.subs t).roundCond) : r'.Drowsy t ↔ r.Drowsy t := by
  rw [Round.Drowsy, Round.Drowsy, Round.Asleep, Round.Asleep, hpoint, hcond]

/-- A thread at another point of `q_dequeue_rr`, or outside it, is not drowsy. -/
theorem Round.not_drowsy (hwake : r.point t ≠ some .wakeRound) (hsleep : r.point t ≠ some .sleepRound) :
    ¬ r.Drowsy t := by
  rintro (⟨hpoint, -⟩ | hpoint)
  · exact hwake hpoint
  · exact hsleep hpoint

/-- A step of a thread that keeps the turn where it is and every other sleeper asleep. -/
theorem Round.awake_move {rr : RoundRobinScheduler} {size : ℤ} {cond : Finset ℤ}
    (h : ¬ r.Drowsy r.rr.current) (hcurrent : rr.current = r.rr.current)
    (hcond : ∀ i, i ≠ t → (rr.subs i).roundCond = (r.rr.subs i).roundCond)
    (hself : rr.current = t → point ≠ .wakeRound ∧ point ≠ .sleepRound) :
    ¬ ((⟨rr, size, cond, r.point⟩ : Round).move t (some point)).Drowsy rr.current := by
  by_cases ht : rr.current = t
  · obtain ⟨hwake, hsleep⟩ := hself ht
    rw [ht]
    apply Round.not_drowsy
    · rw [Round.move_point_self]
      exact fun heq => hwake (Option.some.inj heq)
    · rw [Round.move_point_self]
      exact fun heq => hsleep (Option.some.inj heq)
  · have hsame : ((⟨rr, size, cond, r.point⟩ : Round).move t (some point)).Drowsy rr.current ↔
        r.Drowsy rr.current :=
      Round.drowsy_congr (Round.move_point_of_ne _ ht _) (hcond rr.current ht)
    rw [hsame, hcurrent]
    exact h

/-- A step inside `q_dequeue_rr` gives the turn to a thread that is awake, unless it hands
it to one that is about to sleep. -/
theorem DequeueRound.awake (h : DequeueRound grain members r t point r')
    (hpoint : r.point t = some point) (hawake : ¬ r.Drowsy r.rr.current)
    (hhands : point = .nextThread → r.point (r.rr.subs r.rr.current).next ≠ some .sleepRound) :
    ¬ r'.Drowsy r'.rr.current := by
  have hstay : ∀ {next : DequeuePoint} {size : ℤ} {cond : Finset ℤ},
      (r.rr.current = t → next ≠ .wakeRound ∧ next ≠ .sleepRound) →
        ¬ ((⟨r.rr, size, cond, r.point⟩ : Round).move t (some next)).Drowsy r.rr.current :=
    fun hself => Round.awake_move hawake rfl (fun _ _ => rfl) hself
  have hsleeps : r.rr.current ≠ t → ∀ {size : ℤ} {cond : Finset ℤ},
      ¬ ((⟨r.rr.withSleeper t, size, cond, r.point⟩ : Round).move t (some .wakeRound)).Drowsy
        r.rr.current := by
    intro hturn size cond
    refine Round.awake_move hawake rfl (fun i hi => ?_) fun ht => absurd ht hturn
    rw [RoundRobinScheduler.withSleeper, RoundRobinScheduler.setRoundCond_roundCond, if_neg hi]
  cases h with
  | turn _ | wakeRound _ | message _ | noMessage _ | sleepMsg | wakeMsg _ | found _ | empty _ =>
    exact hstay fun _ => ⟨nofun, nofun⟩
  | noTurn _ hturn => exact hstay fun ht => absurd ht hturn
  | noTurnSleep _ hturn => exact hsleeps hturn
  | sleepRound =>
    apply hsleeps
    intro hturn
    apply hawake
    rw [hturn]
    exact Or.inr hpoint
  | @nextThread next rr hpassed =>
    change ¬ Round.Drowsy _ rr.current
    rw [hpassed.current]
    have hcond : (rr.subs next).roundCond = ∅ := by rw [hpassed.roundCond, if_pos rfl]
    rintro (⟨-, hasleep⟩ | hsleep)
    · change next ∈ (rr.subs next).roundCond at hasleep
      rw [hcond] at hasleep
      exact Finset.notMem_empty next hasleep
    · by_cases hnext : next = t
      · rw [hnext, Round.move_point_self] at hsleep
        cases hsleep
      · rw [Round.move_point_of_ne _ hnext] at hsleep
        rw [hpassed.follows] at hsleep
        exact hhands rfl hsleep

/-- Every step gives the turn to a thread that is awake, unless it hands the turn to one
that is about to sleep, or unsubscribes the turn's holder before one that is drowsy. -/
theorem RoundStep.awake (h : RoundStep grain members joins leaves r t r')
    (hawake : ¬ r.Drowsy r.rr.current)
    (hhands : r.point t = some .nextThread →
      r.point (r.rr.subs r.rr.current).next ≠ some .sleepRound)
    (hleaves : leaves → r.rr.current = t → ¬ r.Drowsy (r.rr.subs t).next) :
    ¬ r'.Drowsy r'.rr.current := by
  cases h with
  | idle _ => exact hawake
  | arrive _ => exact hawake
  | @subscribe rr _ hnew hpoint hadded =>
    change ¬ Round.Drowsy _ rr.current
    have hcond : ∀ i, i ≠ t → (rr.subs i).roundCond = (r.rr.subs i).roundCond := by
      intro i hi
      rw [hadded.roundCond, if_neg hi]
    by_cases hempty : members = []
    · have hcurrent : rr.current = t := by rw [hadded.current, if_pos hempty]
      rw [hcurrent]
      apply Round.not_drowsy
      · rw [Round.move_point_self]
        nofun
      · rw [Round.move_point_self]
        nofun
    · have hcurrent : rr.current = r.rr.current := by rw [hadded.current, if_neg hempty]
      exact Round.awake_move hawake hcurrent hcond fun _ => ⟨nofun, nofun⟩
  | @unsubscribe rr hleave ht hpoint hremoved =>
    change ¬ Round.Drowsy _ rr.current
    have hsame : ∀ i, ({ r with rr := rr } : Round).Drowsy i ↔ r.Drowsy i :=
      fun i => Round.drowsy_congr rfl (hremoved.roundCond i)
    rw [hsame, hremoved.current]
    split
    · rename_i hturn
      exact hleaves hleave hturn
    · exact hawake
  | ack ht hpoint => exact Round.awake_move hawake rfl (fun _ _ => rfl) fun _ => ⟨nofun, nofun⟩
  | consume ht hpoint hround =>
    exact hround.awake hpoint hawake fun hnext => hhands (by rw [hpoint, hnext])

/-- A wakeup that nobody caused puts nobody to sleep and leaves the turn where it is. -/
theorem RoundWoken.awake (h : RoundWoken r t r') (hawake : ¬ r.Drowsy r.rr.current) :
    ¬ r'.Drowsy r'.rr.current := by
  cases h with
  | wakeMsg => exact hawake
  | wakeRound =>
    rintro (⟨hpoint, hasleep⟩ | hpoint)
    · refine hawake (Or.inl ⟨hpoint, ?_⟩)
      rw [RoundRobinScheduler.setRoundCond_roundCond] at hasleep
      split at hasleep
      · rename_i hself
        rw [← hself] at hasleep
        exact Finset.mem_of_mem_erase hasleep
      · exact hasleep
    · exact hawake (Or.inr hpoint)

/-- The action is a wakeup that nobody caused. -/
def Act.isSpurious : Act → Bool
  | .spurious _ => true
  | _ => false

namespace Broker

/-- Some queue's turn is with a subscriber that sleeps in `wait_round`, with no wakeup
delivered to it. -/
def TurnAsleep (s : Broker) : Prop :=
  ∃ p queue t c, s.store.queues.cells p = some queue ∧ s.conns t = some c ∧
    c.machine = waitValueDequeue ∧ c.cs.currentQueue = some p ∧ c.point = .wakeRound ∧
    queue.rr.current = t ∧ t ∈ (queue.rr.subs t).roundCond

/-- The sleeper of the claim is the one of the queue's round. -/
theorem not_turnAsleep (h : ∀ p queue, s.store.queues.cells p = some queue →
    ¬ (s.round p queue).Drowsy queue.rr.current) : ¬ s.TurnAsleep := by
  rintro ⟨p, queue, t, c, hcell, hc, hm, hp, hpoint, hturn, hasleep⟩
  apply h p queue hcell
  rw [hturn]
  refine Or.inl ⟨?_, hasleep⟩
  change s.pointAt p t = _
  rw [pointAt_of_conn hc, if_pos ⟨hm, hp⟩, hpoint]

/-- A new queue's turn is with nobody. -/
theorem awake_fresh (name : List UInt8) :
    ¬ (Queue.round (.fresh name)).Drowsy (Queue.round (.fresh name)).rr.current :=
  Round.not_drowsy nofun nofun

end Broker

/-- A place that nobody is at and that a move does not lead to is still empty. -/
theorem Round.move_avoids {place : DequeuePoint} (h : ∀ i, r.point i ≠ some place)
    {next : Option DequeuePoint} (hnext : next ≠ some place) (t : ℤ) :
    ∀ i, (r.move t next).point i ≠ some place := by
  intro i
  by_cases hi : i = t
  · rw [hi, Round.move_point_self]
    exact hnext
  · rw [Round.move_point_of_ne _ hi]
    exact h i

/-- With test and sleep in one step no thread stands between them. -/
theorem RoundStep.never_sleepRound (h : RoundStep .coarse members joins leaves r t r')
    (hnobody : ∀ i, r.point i ≠ some .sleepRound) : ∀ i, r'.point i ≠ some .sleepRound := by
  cases h with
  | idle _ => exact hnobody
  | arrive _ => exact hnobody
  | unsubscribe _ _ _ _ => exact hnobody
  | ack _ _ => exact Round.move_avoids hnobody (by nofun) t
  | @subscribe rr _ _ _ _ =>
    exact Round.move_avoids (r := { r with rr := rr }) hnobody (by nofun) t
  | consume _ _ hround =>
    cases hround with
    | noTurn hgrain _ => cases hgrain
    | turn _ | wakeRound _ | message _ | noMessage _ | wakeMsg _ | empty _ =>
      exact Round.move_avoids hnobody (by nofun) t
    | noTurnSleep _ _ | sleepRound =>
      exact Round.move_avoids (r := { r with rr := r.rr.withSleeper t }) hnobody (by nofun) t
    | sleepMsg =>
      exact Round.move_avoids (r := { r with newMsgCond := insert t r.newMsgCond }) hnobody (by nofun) t
    | found _ => exact Round.move_avoids (r := { r with size := r.size - 1 }) hnobody (by nofun) t
    | @nextThread next rr _ =>
      exact Round.move_avoids (r := { r with rr := rr }) hnobody (by nofun) t

namespace Broker

/-- The step is no unsubscription by the holder of the turn while the next subscriber in the
ring is asleep. -/
def LeavesTurnAwake (s : Broker) : Act → Prop
  | .run t _ => ∀ c ∈ s.conns t, c.machine = waitConsumeAck → ackArrives (s.world c) = false →
      ∀ p ∈ c.cs.currentQueue, ∀ queue ∈ s.store.queues.cells p, queue.rr.current = t →
        (queue.rr.subs t).next ∉ (queue.rr.subs (queue.rr.subs t).next).roundCond
  | _ => True

instance (s : Broker) : DecidablePred (LeavesTurnAwake s)
  | .run t _ => inferInstanceAs (Decidable (∀ c ∈ s.conns t, c.machine = waitConsumeAck →
      ackArrives (s.world c) = false → ∀ p ∈ c.cs.currentQueue,
      ∀ queue ∈ s.store.queues.cells p, queue.rr.current = t →
        (queue.rr.subs t).next ∉ (queue.rr.subs (queue.rr.subs t).next).roundCond))
  | .accept _ _ _ => isTrue trivial
  | .close _ => isTrue trivial
  | .spurious _ => isTrue trivial

/-- In every run with test and sleep in one step, without spurious wakeups, and in which no
holder of a turn unsubscribes before a sleeper, no turn is with a sleeper. -/
theorem turn_survives (h : Reaches (Broker.step .coarse)
    (fun s act => act.isSpurious = false ∧ LeavesTurnAwake s act) initial s) :
    ¬ s.TurnAsleep := by
  apply not_turnAsleep
  intro p queue hcell
  have hall : (¬ (s.round p queue).Drowsy queue.rr.current) ∧
      ∀ t, (s.round p queue).point t ≠ some .sleepRound := by
    apply round_invariant (P := fun r => (¬ r.Drowsy r.rr.current) ∧
      ∀ t, r.point t ≠ some .sleepRound) _ _ _ h hcell
    · exact fun name => ⟨awake_fresh name, fun _ => nofun⟩
    · intro s t writes p queue members r' hok hguard hcell hring hmem hbefore hstep
      refine ⟨hstep.awake hbefore.1 (fun _ => hbefore.2 _) fun hleaves hturn => ?_,
        hstep.never_sleepRound hbefore.2⟩
      obtain ⟨c, hc, hm, hp, hack⟩ := hleaves
      rintro (⟨-, hasleep⟩ | hsleep)
      · exact hguard.2 c hc hm hack p hp queue hcell hturn hasleep
      · exact hbefore.2 _ hsleep
    · rintro s t r r' ⟨hquiet, -⟩
      cases hquiet
  exact hall.1

/-- The step is no unsubscription. -/
def Stays (s : Broker) : Act → Prop
  | .run t _ => ∀ c ∈ s.conns t, c.machine = waitConsumeAck → ackArrives (s.world c) = true
  | _ => True

instance (s : Broker) : DecidablePred (Stays s)
  | .run t _ => inferInstanceAs (Decidable (∀ c ∈ s.conns t, c.machine = waitConsumeAck →
      ackArrives (s.world c) = true))
  | .accept _ _ _ => isTrue trivial
  | .close _ => isTrue trivial
  | .spurious _ => isTrue trivial

/-- The step does not hand the turn to a thread that is between its test and its sleep. -/
def HandsOverAwake (s : Broker) : Act → Prop
  | .run t _ => ∀ c ∈ s.conns t, c.machine = waitValueDequeue → c.point = .nextThread →
      ∀ p ∈ c.cs.currentQueue, ∀ queue ∈ s.store.queues.cells p,
        s.pointAt p (queue.rr.subs queue.rr.current).next ≠ some .sleepRound
  | _ => True

instance (s : Broker) : DecidablePred (HandsOverAwake s)
  | .run t _ => inferInstanceAs (Decidable (∀ c ∈ s.conns t, c.machine = waitValueDequeue →
      c.point = .nextThread → ∀ p ∈ c.cs.currentQueue, ∀ queue ∈ s.store.queues.cells p,
        s.pointAt p (queue.rr.subs queue.rr.current).next ≠ some .sleepRound))
  | .accept _ _ _ => isTrue trivial
  | .close _ => isTrue trivial
  | .spurious _ => isTrue trivial

/-- In every run without unsubscriptions in which no turn is handed to a thread between its
test and its sleep, no turn is with a sleeper. -/
theorem handOver_never_missed (h : Reaches (Broker.step grain)
    (fun s act => Stays s act ∧ HandsOverAwake s act) initial s) : ¬ s.TurnAsleep := by
  apply not_turnAsleep
  intro p queue hcell
  apply round_invariant (P := fun r => ¬ r.Drowsy r.rr.current) awake_fresh _ _ h hcell
  · intro s t writes p queue members r' hok hguard hcell hring hmem hbefore hstep
    apply hstep.awake hbefore
    · intro hpoint
      obtain ⟨c, hc, hm, hp, hat⟩ := pointAt_eq_some hpoint
      exact hguard.2 c hc hm hat p hp queue hcell
    · rintro ⟨c, hc, hm, -, hack⟩
      rw [hguard.1 c hc hm] at hack
      cases hack
  · exact fun s t r r' _ hbefore hwoken => hwoken.awake hbefore

/-- Two consumers of a queue with two messages: both have subscribed, neither has looked
at the turn yet, which is with the first. The second has an acknowledgement to send. -/
def twoConsumers : List Act :=
  session 0 (openingFrames ++ declareFrame [113] ++ publishFrame [] [113] ++ headerFrame 2 ++
      bodyFrame [104, 105] ++ bodyFrame [33] ++ reopenFrames ++ consumeFrame [113]) 22 ++
    session 1 (openingFrames ++ consumeFrame [113] ++
      methodFrame ackMethod [0, 0, 0, 0, 0, 0, 0, 1, 0]) 11

/-- What a thread that sleeps with the turn looks like. -/
def sleepsWithTurn (t : ℤ) (s : Broker) : Bool :=
  match s.conns t, s.store.queues.cells 0 with
  | some c, some queue => c.machine = waitValueDequeue ∧ c.cs.currentQueue = some 0 ∧
      c.point = .wakeRound ∧ queue.rr.current = t ∧ t ∈ (queue.rr.subs t).roundCond
  | _, _ => false

/-- A thread seen asleep with the turn is asleep with it. -/
theorem turnAsleep_of_sleepsWithTurn (h : sleepsWithTurn t s = true) : s.TurnAsleep := by
  rw [sleepsWithTurn] at h
  split at h
  · rename_i c queue hc hcell
    obtain ⟨hm, hp, hpoint, hturn, hasleep⟩ := of_decide_eq_true h
    exact ⟨0, queue, t, c, hcell, hc, hm, hp, hpoint, hturn, hasleep⟩
  · cases h

/-- The ids in the ring of the first queue, and the one that has the turn. -/
def firstTurn (s : Broker) : Option (List ℤ × ℤ) :=
  (s.store.queues.cells 0).map fun queue => (queue.rr.linked, queue.rr.current)

/-- Both consumers take their turn; before the second looks at the turn again, the first
one's stream ends. -/
def turnHolderLeavesEarly : List Act :=
  twoConsumers ++ [.run 1] ++ List.replicate 5 (.run 0) ++ List.replicate 6 (.run 1) ++ [.run 0]

/-- The holder leaves before the next thread falls asleep. -/
theorem turn_survives_turnHolderLeavesEarly :
    ∃ s, guardedExec (Broker.step .coarse)
        (fun s act => act.isSpurious = false ∧ LeavesTurnAwake s act) initial turnHolderLeavesEarly =
          some s ∧
      firstTurn s = some ([1], 1) ∧ ¬ s.TurnAsleep := by
  have hobserved : (guardedExec (Broker.step .coarse)
      (fun s act => act.isSpurious = false ∧ LeavesTurnAwake s act) initial
        turnHolderLeavesEarly).map firstTurn = some (some ([1], 1)) := by decide +kernel
  obtain ⟨s, hrun, hview⟩ := Option.map_eq_some_iff.mp hobserved
  exact ⟨s, hrun, hview, turn_survives (reaches_of_guardedExec hrun)⟩

/-- Both consumers take their turn and the second goes to sleep until its next one; then
the first one's stream ends. -/
def turnHolderLeaves : List Act :=
  twoConsumers ++ [.run 1] ++ List.replicate 5 (.run 0) ++ List.replicate 7 (.run 1) ++ [.run 0]

/-- `remove_subscriber` gives the turn to a sleeper and wakes nobody. -/
theorem turnHolderLeaves_turnAsleep :
    ∃ s, Reaches (Broker.step .coarse) (fun _ act => act.isSpurious = false) initial s ∧
      firstTurn s = some ([1], 1) ∧ s.TurnAsleep := by
  have hobserved : (guardedExec (Broker.step .coarse) (fun _ act => act.isSpurious = false) initial
      turnHolderLeaves).map (fun s => (firstTurn s, sleepsWithTurn 1 s)) =
        some (some ([1], 1), true) := by decide +kernel
  obtain ⟨s, hrun, hview⟩ := Option.map_eq_some_iff.mp hobserved
  exact ⟨s, reaches_of_guardedExec hrun, congrArg Prod.fst hview,
    turnAsleep_of_sleepsWithTurn (congrArg Prod.snd hview)⟩

/-- The second consumer goes to sleep before the first takes its turn and hands it over. -/
def handOverAfterSleep : List Act :=
  twoConsumers ++ [.run 1, .run 1] ++ List.replicate 4 (.run 0)

/-- The turn is handed to a thread that is asleep already. -/
theorem handOver_never_missed_afterSleep :
    ∃ s, guardedExec (Broker.step .fine)
        (fun s act => Stays s act ∧ HandsOverAwake s act) initial handOverAfterSleep = some s ∧
      firstTurn s = some ([0, 1], 1) ∧ ¬ s.TurnAsleep := by
  have hobserved : (guardedExec (Broker.step .fine)
      (fun s act => Stays s act ∧ HandsOverAwake s act) initial handOverAfterSleep).map firstTurn =
        some (some ([0, 1], 1)) := by decide +kernel
  obtain ⟨s, hrun, hview⟩ := Option.map_eq_some_iff.mp hobserved
  exact ⟨s, hrun, hview, handOver_never_missed (reaches_of_guardedExec hrun)⟩

/-- The second consumer has seen that it is not its turn; the first hands the turn over
before the second sleeps. -/
def handOverBeforeSleep : List Act :=
  twoConsumers ++ [.run 1] ++ List.replicate 4 (.run 0) ++ [.run 1]

/-- The broadcast of `next_thread` comes before the sleep it should end. -/
theorem handOverBeforeSleep_turnAsleep :
    ∃ s, Reaches (Broker.step .fine) (fun s act => act.isSpurious = false ∧ Stays s act) initial s ∧
      firstTurn s = some ([0, 1], 1) ∧ s.TurnAsleep := by
  have hobserved : (guardedExec (Broker.step .fine)
      (fun s act => act.isSpurious = false ∧ Stays s act) initial handOverBeforeSleep).map
        (fun s => (firstTurn s, sleepsWithTurn 1 s)) = some (some ([0, 1], 1), true) := by
    decide +kernel
  obtain ⟨s, hrun, hview⟩ := Option.map_eq_some_iff.mp hobserved
  exact ⟨s, reaches_of_guardedExec hrun, congrArg Prod.fst hview,
    turnAsleep_of_sleepsWithTurn (congrArg Prod.snd hview)⟩

end Broker

end AmqpBroker
