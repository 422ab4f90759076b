import AmqpBroker.Verification.Turns

/-!
# Only the holder of the turn dequeues

`wait_round` returns to a thread that read its own id in `current`, or that a broadcast
woke after `current` was set to it. From there until its own `next_thread` nobody else can
move `current`: handing over needs the turn, an unsubscription moves it only from a thread
that is outside `q_dequeue_rr`, and a subscription only when there is no subscriber. So the
messages that `wait_msg` has seen are still there when `q_dequeue` comes to take one.
-/

namespace AmqpBroker

open Foundations Program MachineState

variable {s s' : Broker} {t i : ℤ} {c : Conn} {p : ℕ} {queue : Queue} {grain : Grain} {act : Act}
  {members : List ℤ} {joins leaves : Prop} {r r' : Round} {point : DequeuePoint}
  {visits served : List ℤ}

/-- The points between the return from `wait_round` and the end of `next_thread`. -/
def DequeuePoint.past : DequeuePoint → Bool
  | testMsg | sleepMsg | wakeMsg | dequeue | nextThread => true
  | _ => false

/-- The thread has returned from `wait_round`, or has been woken and will. -/
def Round.Entitled (r : Round) (t : ℤ) : Prop :=
  ∃ point, r.point t = some point ∧
    (point.past = true ∨ (point = .wakeRound ∧ t ∉ (r.rr.subs t).roundCond))

/-- Who is entitled has the turn. -/
def Round.Exclusive (r : Round) : Prop := ∀ t, r.Entitled t → r.rr.current = t

/-- Whether a thread may go on depends on its point and its sleepers. -/
theorem Round.entitled_congr (hpoint : r'.point i = r.point i)
    (hcond : (r'.rr.subs i).roundCond = (r.rr.subs i).roundCond) : r'.Entitled i ↔ r.Entitled i := by
  rw [Round.Entitled, Round.Entitled, hpoint, hcond]

/-- A step that leaves the turn, and the sleepers other than its own thread, alone. -/
theorem Round.exclusive_move {rr : RoundRobinScheduler} {size : ℤ} {cond : Finset ℤ}
    (h : r.Exclusive) (hcurrent : rr.current = r.rr.current)
    (hcond : ∀ i, i ≠ t → (rr.subs i).roundCond = (r.rr.subs i).roundCond)
    (hself : point.past = true ∨ (point = .wakeRound ∧ t ∉ (rr.subs t).roundCond) →
      r.rr.current = t) :
    ((⟨rr, size, cond, r.point⟩ : Round).move t (some point)).Exclusive := by
  intro i hentitled
  change rr.current = i
  rw [hcurrent]
  by_cases hi : i = t
  · rw [hi] at hentitled ⊢
    obtain ⟨point', hpoint', hwhy⟩ := hentitled
    rw [Round.move_point_self] at hpoint'
    obtain rfl := Option.some.inj hpoint'
    exact hself hwhy
  · apply h i
    have hsame : ((⟨rr, size, cond, r.point⟩ : Round).move t (some point)).Entitled i ↔
        r.Entitled i := Round.entitled_congr (Round.move_point_of_ne _ hi _) (hcond i hi)
    exact hsame.mp hentitled

/-- A step inside `q_dequeue_rr` keeps the turn with whoever is entitled. -/
theorem DequeueRound.exclusive (h : DequeueRound grain members r t point r')
    (hpoint : r.point t = some point) (hexclusive : r.Exclusive) : r'.Exclusive := by
  have hstay : ∀ {next : DequeuePoint} {size : ℤ} {cond : Finset ℤ},
      (next.past = true ∨ (next = .wakeRound ∧ t ∉ (r.rr.subs t).roundCond) → r.rr.current = t) →
        ((⟨r.rr, size, cond, r.point⟩ : Round).move t (some next)).Exclusive :=
    fun hself => Round.exclusive_move hexclusive rfl (fun _ _ => rfl) hself
  have hpast : point.past = true → r.rr.current = t :=
    fun hpast => hexclusive t ⟨point, hpoint, Or.inl hpast⟩
  have hsleeps : ∀ {size : ℤ} {cond : Finset ℤ},
      ((⟨r.rr.withSleeper t, size, cond, r.point⟩ : Round).move t (some .wakeRound)).Exclusive := by
    intro size cond
    apply Round.exclusive_move hexclusive
    · rfl
    · intro i hi
      rw [RoundRobinScheduler.withSleeper, RoundRobinScheduler.setRoundCond_roundCond, if_neg hi]
    · rintro (hfalse | ⟨-, hawake⟩)
      · cases hfalse
      · rw [RoundRobinScheduler.withSleeper, RoundRobinScheduler.setRoundCond_roundCond,
          if_pos rfl] at hawake
        exact absurd (Finset.mem_insert_self _ _) hawake
  cases h with
  | turn hturn => exact hstay fun _ => hturn
  | noTurn _ _ =>
    apply hstay
    rintro (hfalse | ⟨hfalse, -⟩) <;> cases hfalse
  | noTurnSleep _ _ => exact hsleeps
  | sleepRound => exact hsleeps
  | wakeRound hawake => exact hstay fun _ => hexclusive t ⟨_, hpoint, Or.inr ⟨rfl, hawake⟩⟩
  | message _ | noMessage _ | sleepMsg | wakeMsg _ | found _ | empty _ =>
    exact hstay fun _ => hpast rfl
  | @nextThread next rr hpassed =>
    have hturn : r.rr.current = t := hpast rfl
    intro i hentitled
    change rr.current = i
    obtain ⟨point', hpoint', hwhy⟩ := hentitled
    have hi : i ≠ t := by
      rintro rfl
      rw [Round.move_point_self] at hpoint'
      cases hpoint'
    rw [Round.move_point_of_ne _ hi] at hpoint'
    by_cases hnext : i = next
    · rw [hpassed.current, hnext]
    · have hcond : (rr.subs i).roundCond = (r.rr.subs i).roundCond := by
        rw [hpassed.roundCond, if_neg hnext]
      have hbefore : r.Entitled i := by
        refine ⟨point', hpoint', hwhy.imp id fun hwoken => ⟨hwoken.1, ?_⟩⟩
        rw [← hcond]
        exact hwoken.2
      exact absurd ((hexclusive i hbefore).symm.trans hturn) hi

/-- Every step keeps the turn with whoever is entitled. -/
theorem RoundStep.exclusive (h : RoundStep grain members joins leaves r t r')
    (hinside : ∀ i point, r.point i = some point → i ∈ members) (hexclusive : r.Exclusive) :
    r'.Exclusive := by
  cases h with
  | idle _ => exact hexclusive
  | arrive _ => exact hexclusive
  | @subscribe rr _ hnew hpoint hadded =>
    by_cases hempty : members = []
    · rintro i ⟨point, hi, hwhy⟩
      by_cases hit : i = t
      · rw [hit, Round.move_point_self] at hi
        obtain rfl := Option.some.inj hi
        rcases hwhy with hfalse | ⟨hfalse, -⟩ <;> cases hfalse
      · rw [Round.move_point_of_ne _ hit] at hi
        have hmem := hinside i point hi
        rw [hempty] at hmem
        cases hmem
    · apply Round.exclusive_move hexclusive
      · rw [hadded.current, if_neg hempty]
      · intro i hi
        rw [hadded.roundCond, if_neg hi]
      · rintro (hfalse | ⟨hfalse, -⟩) <;> cases hfalse
  | @unsubscribe rr _ ht hpoint hremoved =>
    intro i hentitled
    have hsame : ({ r with rr := rr } : Round).Entitled i ↔ r.Entitled i :=
      Round.entitled_congr rfl (hremoved.roundCond i)
    have hbefore := hsame.mp hentitled
    have hturn := hexclusive i hbefore
    change rr.current = i
    rw [hremoved.current, if_neg, hturn]
    rw [hturn]
    rintro rfl
    obtain ⟨point, hi, -⟩ := hbefore
    rw [hpoint] at hi
    cases hi
  | ack ht hpoint =>
    apply Round.exclusive_move hexclusive rfl (fun _ _ => rfl)
    rintro (hfalse | ⟨hfalse, -⟩) <;> cases hfalse
  | consume _ hpoint hround => exact hround.exclusive hpoint hexclusive

/-- A thread at `q_dequeue`, or woken in `wait_msg`, has a message to take. -/
structure Round.Stocked (r : Round) : Prop where
  nonneg : 0 ≤ r.size
  seen : ∀ t, r.point t = some .dequeue → r.size ≠ 0
  told : ∀ t, r.point t = some .wakeMsg → t ∉ r.newMsgCond → r.size ≠ 0

/-- A step that keeps the messages and the sleepers other than its own thread. -/
theorem Round.stocked_move {rr : RoundRobinScheduler} {cond : Finset ℤ}
    {next : Option DequeuePoint} (h : r.Stocked)
    (hcond : ∀ i, i ≠ t → (i ∈ cond ↔ i ∈ r.newMsgCond))
    (hseen : next = some .dequeue → r.size ≠ 0)
    (htold : next = some .wakeMsg → t ∉ cond → r.size ≠ 0) :
    ((⟨rr, r.size, cond, r.point⟩ : Round).move t next).Stocked := by
  constructor
  · exact h.nonneg
  · intro i hi
    by_cases hit : i = t
    · rw [hit, Round.move_point_self] at hi
      exact hseen hi
    · rw [Round.move_point_of_ne _ hit] at hi
      exact h.seen i hi
  · intro i hi hawake
    by_cases hit : i = t
    · rw [hit, Round.move_point_self] at hi
      rw [hit] at hawake
      exact htold hi hawake
    · rw [Round.move_point_of_ne _ hit] at hi
      exact h.told i hi fun hasleep => hawake ((hcond i hit).mpr hasleep)

/-- A step inside `q_dequeue_rr` leaves a message for whoever has been promised one. -/
theorem DequeueRound.stocked (h : DequeueRound grain members r t point r')
    (hpoint : r.point t = some point) (hexclusive : r.Exclusive) (hstocked : r.Stocked) :
    r'.Stocked := by
  cases h with
  | turn _ | noTurn _ _ | noTurnSleep _ _ | sleepRound | wakeRound _ | noMessage _ | empty _ =>
    exact Round.stocked_move hstocked (fun _ _ => Iff.rfl) (by nofun) (by nofun)
  | nextThread _ => exact Round.stocked_move hstocked (fun _ _ => Iff.rfl) (by nofun) (by nofun)
  | message hsize =>
    exact Round.stocked_move hstocked (fun _ _ => Iff.rfl) (fun _ => hsize) (by nofun)
  | wakeMsg hawake =>
    exact Round.stocked_move hstocked (fun _ _ => Iff.rfl)
      (fun _ => hstocked.told t hpoint hawake) (by nofun)
  | sleepMsg =>
    apply Round.stocked_move hstocked
    · intro i hi
      rw [Finset.mem_insert, or_iff_right hi]
    · nofun
    · intro _ hawake
      exact absurd (Finset.mem_insert_self _ _) hawake
  | found hsize =>
    have hturn := hexclusive t ⟨_, hpoint, Or.inl rfl⟩
    -- nobody else is past `wait_round`, so nobody else has been promised the message
    have halone : ∀ i point, i ≠ t → r.point i = some point → point.past = false := by
      intro i point hi hother
      rw [← Bool.not_eq_true]
      intro hpast
      exact hi ((hexclusive i ⟨point, hother, Or.inl hpast⟩).symm.trans hturn)
    constructor
    · change 0 ≤ r.size - 1
      omega
    · intro i hi
      by_cases hit : i = t
      · rw [hit, Round.move_point_self] at hi
        cases hi
      · rw [Round.move_point_of_ne _ hit] at hi
        cases halone i _ hit hi
    · intro i hi
      by_cases hit : i = t
      · rw [hit, Round.move_point_self] at hi
        cases hi
      · rw [Round.move_point_of_ne _ hit] at hi
        cases halone i _ hit hi

/-- Every step leaves a message for whoever has been promised one. -/
theorem RoundStep.stocked (h : RoundStep grain members joins leaves r t r')
    (hexclusive : r.Exclusive) (hstocked : r.Stocked) : r'.Stocked := by
  have hpositive : r.size + 1 ≠ 0 := by
    have hnonneg := hstocked.nonneg
    omega
  cases h with
  | idle _ => exact hstocked
  | arrive _ =>
    refine ⟨?_, fun _ _ => hpositive, fun _ _ _ => hpositive⟩
    have hnonneg := hstocked.nonneg
    change 0 ≤ r.size + 1
    omega
  | subscribe _ _ _ _ =>
    exact Round.stocked_move hstocked (fun _ _ => Iff.rfl) (by nofun) (by nofun)
  | unsubscribe _ _ _ _ => exact ⟨hstocked.nonneg, hstocked.seen, hstocked.told⟩
  | ack _ _ => exact Round.stocked_move hstocked (fun _ _ => Iff.rfl) (by nofun) (by nofun)
  | consume _ hpoint hround => exact hround.stocked hpoint hexclusive hstocked

namespace Broker

/-- In a run without spurious wakeups the round of every queue is exclusive and stocked. -/
theorem round_sound (h : Reaches (Broker.step grain) (fun _ act => act.isSpurious = false) initial s)
    (hcell : s.store.queues.cells p = some queue) :
    (s.round p queue).Exclusive ∧ (s.round p queue).Stocked := by
  apply round_invariant (P := fun r => r.Exclusive ∧ r.Stocked) _ _ _ h hcell
  · intro name
    refine ⟨?_, le_rfl, nofun, nofun⟩
    rintro t ⟨point, hpoint, -⟩
    cases hpoint
  · intro s t _ p queue members r' _ _ _ _ hmem hbefore hstep
    have hinside : ∀ i point, (s.round p queue).point i = some point → i ∈ members :=
      fun i point hi => (hmem i).mpr (subscribedTo_of_pointAt hi)
    exact ⟨hstep.exclusive hinside hbefore.1, hstep.stocked hbefore.1 hbefore.2⟩
  · intro s t r r' hquiet
    cases hquiet

/-- The step of the thread assigns to `current`: it hands the turn over, subscribes to a
queue without subscribers, or unsubscribes while it has the turn. -/
def assignsTurn (s : Broker) (p : ℕ) (t : ℤ) : Bool :=
  match s.conns t, s.store.queues.cells p with
  | some c, some queue => c.cs.currentQueue = some p ∧
      ((c.machine = waitValueDequeue ∧ c.point = .nextThread) ∨
        (c.machine = basicConsumeReceived ∧ queue.rr.count = 0) ∨
        (c.machine = waitConsumeAck ∧ ackArrives (s.world c) = false ∧ queue.rr.current = t))
  | _, _ => false

/-- The id that `current` visits by a step, if it visits one. -/
def visit (s s' : Broker) (p : ℕ) (t : ℤ) : List ℤ :=
  if s.assignsTurn p t then (s'.store.queues.cells p).toList.map fun queue => queue.rr.current else []

/-- The thread that calls `q_dequeue` on the queue in a step, if one does. -/
def serve (s : Broker) (p : ℕ) (t : ℤ) : List ℤ := if s.pointAt p t = some .dequeue then [t] else []

/-- A run without spurious wakeups, with the ids that `current` of a queue has visited and
those that have called `q_dequeue` on it, in order. -/
inductive TurnRun (grain : Grain) (p : ℕ) : Broker → List ℤ → List ℤ → Prop
  | start : TurnRun grain p initial [] []
  | thread {s s' : Broker} {t : ℤ} {writes : List WriteResult} {visits served : List ℤ} :
      TurnRun grain p s visits served → Broker.step grain s (.run t writes) = .ok s' →
      TurnRun grain p s' (visits ++ s.visit s' p t) (served ++ s.serve p t)
  | other {s s' : Broker} {act : Act} {visits served : List ℤ} : TurnRun grain p s visits served →
      (∀ t writes, act ≠ .run t writes) → act.isSpurious = false → Broker.step grain s act = .ok s' →
      TurnRun grain p s' visits served

/-- The run behind the visits. -/
theorem TurnRun.reaches (h : TurnRun grain p s visits served) :
    Reaches (Broker.step grain) (fun _ act => act.isSpurious = false) initial s := by
  induction h with
  | start => exact .refl
  | thread _ hstep ih => exact .tail ih rfl hstep
  | other _ _ hquiet hstep ih => exact .tail ih hquiet hstep

/-- Every run without spurious wakeups can be annotated so. -/
theorem exists_turnRun
    (h : Reaches (Broker.step grain) (fun _ act => act.isSpurious = false) initial s) (p : ℕ) :
    ∃ visits served, TurnRun grain p s visits served := by
  induction h with
  | refl => exact ⟨[], [], .start⟩
  | @tail s s' act _ hquiet hstep ih =>
    obtain ⟨visits, served, hrun⟩ := ih
    by_cases hthread : ∃ t writes, act = .run t writes
    · obtain ⟨t, writes, rfl⟩ := hthread
      exact ⟨_, _, hrun.thread hstep⟩
    · exact ⟨_, _, hrun.other (fun t writes ht => hthread ⟨t, writes, ht⟩) hquiet hstep⟩

/-- How the calls of `q_dequeue` on a queue lag behind the turns: all turns but the present
one are over, and the present one has had its call exactly when its holder is at
`next_thread`. -/
structure Lag (s : Broker) (p : ℕ) (visits served : List ℤ) : Prop where
  behind : served.Sublist visits
  waiting : (∀ t, s.pointAt p t ≠ some .nextThread) → served.Sublist visits.dropLast
  present : ∀ queue, s.store.queues.cells p = some queue → queue.rr.count ≠ 0 →
    visits.getLast? = some queue.rr.current

/-- A step that nobody serves in and that moves the turn begins a new visit. -/
theorem Lag.visited (h : s.Lag p visits served) (hcell : s'.store.queues.cells p = some queue) :
    s'.Lag p (visits ++ [queue.rr.current]) served := by
  constructor
  · exact h.behind.trans (List.sublist_append_left _ _)
  · intro _
    rw [List.dropLast_concat]
    exact h.behind
  · intro queue' hcell' _
    obtain rfl := Option.some.inj (hcell.symm.trans hcell')
    exact List.getLast?_concat

/-- A thread that assigns to `current` is at `next_thread` or outside `q_dequeue_rr`. -/
theorem serve_of_assignsTurn (h : s.assignsTurn p t = true) : s.serve p t = [] := by
  rw [assignsTurn] at h
  split at h
  · rename_i c queue hc hcell
    obtain ⟨hp, hwhy⟩ := of_decide_eq_true h
    rw [serve, if_neg]
    rw [pointAt_of_conn hc]
    split
    · rename_i hin
      rcases hwhy with ⟨-, hpoint⟩ | ⟨hm, -⟩ | ⟨hm, -, -⟩
      · rw [hpoint]
        nofun
      · rw [hin.1] at hm
        cases hm
      · rw [hin.1] at hm
        cases hm
    · nofun
  · cases h

/-- What a step that does not assign to `current` leaves alone. -/
structure Holds (r r' : Round) (t : ℤ) : Prop where
  current : r'.rr.count ≠ 0 → r.rr.count ≠ 0 ∧ r'.rr.current = r.rr.current
  handing : ∀ i, r.point i = some .nextThread → r'.point i = some .nextThread
  served : r.point t = some .dequeue → r'.point t = some .nextThread

/-- A step that does not assign the turn keeps it. -/
theorem holds_of_not_assignsTurn (hcell : s.store.queues.cells p = some queue)
    (hring : Subscribed queue.rr members)
    (h : RoundStep grain members (s.Joins p t) (s.Leaves p t) (s.round p queue) t r')
    (hsame : s.assignsTurn p t = false) : Holds (s.round p queue) r' t := by
  have hassigns : ∀ {c}, s.conns t = some c → c.cs.currentQueue = some p →
      ((c.machine = waitValueDequeue ∧ c.point = .nextThread) ∨
        (c.machine = basicConsumeReceived ∧ queue.rr.count = 0) ∨
        (c.machine = waitConsumeAck ∧ ackArrives (s.world c) = false ∧ queue.rr.current = t)) →
      False := by
    intro c hc hp hwhy
    rw [assignsTurn, hc, hcell] at hsame
    exact of_decide_eq_false hsame ⟨hp, hwhy⟩
  have hcount : ∀ {i}, i ∈ members → queue.rr.count ≠ 0 := by
    intro i hi
    have hlength := hring.count
    have hpositive := List.length_pos_of_mem hi
    omega
  -- the moves of a thread that is not at `next_thread` before or at `q_dequeue`
  have hmove : ∀ {rr : RoundRobinScheduler} {size : ℤ} {cond : Finset ℤ} {next : Option DequeuePoint},
      (rr.count ≠ 0 → queue.rr.count ≠ 0 ∧ rr.current = queue.rr.current) →
      s.pointAt p t ≠ some .nextThread → (s.pointAt p t = some .dequeue → next = some .nextThread) →
      Holds (s.round p queue) ((⟨rr, size, cond, s.pointAt p⟩ : Round).move t next) t := by
    intro rr size cond next hcurrent hhanding hserved
    refine ⟨hcurrent, fun i hi => ?_, fun hat => ?_⟩
    · rw [Round.move_point_of_ne]
      · exact hi
      · rintro rfl
        exact hhanding hi
    · rw [Round.move_point_self]
      exact hserved hat
  have hstay : ∀ {size : ℤ} {cond : Finset ℤ}, s.pointAt p t = none →
      Holds (s.round p queue) ⟨queue.rr, size, cond, s.pointAt p⟩ t := by
    intro size cond hnone
    refine ⟨fun hne => ⟨hne, rfl⟩, fun i hi => hi, fun hat => ?_⟩
    change s.pointAt p t = _ at hat
    rw [hnone] at hat
    cases hat
  cases h with
  | idle hnone => exact hstay hnone
  | arrive hnone => exact hstay hnone
  | @subscribe rr hjoins hnew hnone hadded =>
    obtain ⟨c, hc, hm, hp⟩ := hjoins
    have hnonempty : queue.rr.count ≠ 0 := fun hzero => hassigns hc hp (Or.inr (Or.inl ⟨hm, hzero⟩))
    have hmembers : members ≠ [] := by
      rintro rfl
      exact hnonempty hring.count
    change s.pointAt p t = none at hnone
    apply hmove
    · exact fun _ => ⟨hnonempty, by rw [hadded.current, if_neg hmembers]; rfl⟩
    · rw [hnone]
      nofun
    · rw [hnone]
      nofun
  | @unsubscribe rr hleaves ht hnone hremoved =>
    obtain ⟨c, hc, hm, hp, hack⟩ := hleaves
    change s.pointAt p t = none at hnone
    refine ⟨fun _ => ⟨hcount ht, ?_⟩, fun i hi => hi, fun hat => ?_⟩
    · change rr.current = queue.rr.current
      rw [hremoved.current, if_neg]
      · rfl
      · exact fun hturn => hassigns hc hp (Or.inr (Or.inr ⟨hm, hack, hturn⟩))
    · change s.pointAt p t = _ at hat
      rw [hnone] at hat
      cases hat
  | ack ht hnone =>
    change s.pointAt p t = none at hnone
    apply hmove
    · exact fun hne => ⟨hne, rfl⟩
    · rw [hnone]
      nofun
    · rw [hnone]
      nofun
  | consume ht hpoint hround =>
    change s.pointAt p t = _ at hpoint
    have hkeep : ∀ {rr : RoundRobinScheduler}, rr.current = queue.rr.current → rr.count ≠ 0 →
        queue.rr.count ≠ 0 ∧ rr.current = queue.rr.current :=
      fun hsame _ => ⟨hcount ht, hsame⟩
    cases hround with
    | turn _ | noTurn _ _ | noTurnSleep _ _ | sleepRound | wakeRound _ | message _ | noMessage _
    | sleepMsg | wakeMsg _ =>
      apply hmove
      · exact hkeep rfl
      · rw [hpoint]
        nofun
      · rw [hpoint]
        nofun
    | found _ | empty _ =>
      apply hmove
      · exact hkeep rfl
      · rw [hpoint]
        nofun
      · exact fun _ => rfl
    | nextThread _ =>
      obtain ⟨c, hc, hm, hp, hat⟩ := pointAt_eq_some hpoint
      exact (hassigns hc hp (Or.inl ⟨hm, hat⟩)).elim

/-- One step of a thread, with the round before it. -/
theorem Lag.thread (h : s.Lag p visits served) (hok : s.Ok)
    (hcell : s.store.queues.cells p = some queue) (hexclusive : (s.round p queue).Exclusive)
    (hring : Subscribed queue.rr members)
    (hmoves : RoundMoves grain members s s' p queue t) :
    s'.Lag p (visits ++ s.visit s' p t) (served ++ s.serve p t) := by
  obtain ⟨queue', hcell', hround⟩ := hmoves
  cases hassigns : s.assignsTurn p t with
  | true =>
    rw [serve_of_assignsTurn hassigns, List.append_nil, visit, if_pos hassigns, hcell']
    exact h.visited hcell'
  | false =>
    have hholds := holds_of_not_assignsTurn hcell hring hround hassigns
    rw [visit, if_neg (by rw [hassigns]; nofun), List.append_nil]
    have hpresent : ∀ queue'', s'.store.queues.cells p = some queue'' → queue''.rr.count ≠ 0 →
        visits.getLast? = some queue''.rr.current := by
      intro queue'' hcell'' hcount
      obtain rfl := Option.some.inj (hcell'.symm.trans hcell'')
      obtain ⟨hbefore, hcurrent⟩ := hholds.current hcount
      rw [h.present queue hcell hbefore, ← show queue'.rr.current = queue.rr.current from hcurrent]
    by_cases hserve : s.pointAt p t = some .dequeue
    · have hturn : queue.rr.current = t := hexclusive t ⟨_, hserve, Or.inl rfl⟩
      have hnobody : ∀ i, s.pointAt p i ≠ some .nextThread := by
        intro i hi
        have hother : queue.rr.current = i := hexclusive i ⟨_, hi, Or.inl rfl⟩
        rw [← hother, hturn, hserve] at hi
        cases hi
      have hcount : queue.rr.count ≠ 0 := by
        intro hzero
        rw [hok.pointAt_of_no_members hcell hzero] at hserve
        cases hserve
      have hlast := h.present queue hcell hcount
      rw [hturn] at hlast
      have hvisits := List.dropLast_append_getLast? t hlast
      rw [serve, if_pos hserve]
      constructor
      · rw [← hvisits]
        exact (h.waiting hnobody).append_right [t]
      · intro hnone
        exact absurd (hholds.served hserve) (hnone t)
      · exact hpresent
    · rw [serve, if_neg hserve, List.append_nil]
      constructor
      · exact h.behind
      · intro hnone
        exact h.waiting fun i hi => hnone i (hholds.handing i hi)
      · exact hpresent

/-- Nobody is inside `q_dequeue_rr` on a queue that does not exist. -/
theorem Ok.pointAt_of_dead (hok : s.Ok) (hdead : s.store.queues.cells p = none) (t : ℤ) :
    s.pointAt p t = none := by
  cases hpoint : s.pointAt p t with
  | none => rfl
  | some point =>
    obtain ⟨c, hc, -, hp, -⟩ := pointAt_eq_some hpoint
    obtain ⟨queue, hcell⟩ := hok.chosen t c p hc hp
    rw [hdead] at hcell
    cases hcell

/-- A step that creates the queue serves nobody and moves no turn. -/
theorem Lag.created (h : s.Lag p visits served) (hok : s.Ok)
    (hdead : s.store.queues.cells p = none)
    (hnew : ∀ queue, s'.store.queues.cells p = some queue → queue.rr.count = 0) :
    s'.Lag p visits served :=
  ⟨h.behind, fun _ => h.waiting fun t => by rw [hok.pointAt_of_dead hdead]; nofun,
    fun queue hcell hcount => absurd (hnew queue hcell) hcount⟩

/-- The turns taken follow the visits. -/
theorem TurnRun.lag (h : TurnRun grain p s visits served) : s.Lag p visits served := by
  induction h with
  | start => exact ⟨.slnil, fun _ => .slnil, nofun⟩
  | @thread s s' t writes visits served hrun hstep ih =>
    have hok : s.Ok := ok_of_reaches hrun.reaches
    cases hcell : s.store.queues.cells p with
    | none =>
      have hassigns : s.assignsTurn p t = false := by
        rw [assignsTurn, hcell]
        cases s.conns t <;> rfl
      rw [visit, if_neg (by rw [hassigns]; nofun), serve,
        if_neg (by rw [hok.pointAt_of_dead hcell]; nofun), List.append_nil, List.append_nil]
      apply ih.created hok hcell
      intro queue hcell'
      obtain ⟨name, rfl⟩ := eq_fresh_of_new hok hstep hcell hcell'
      rfl
    | some queue =>
      rcases round_cases hok hstep hcell with ⟨hother, -, -⟩ |
        ⟨t', writes', members, ht', hring, hmem, hmoves⟩ | ⟨t', queue', ht', -, -⟩
      · exact absurd rfl (hother t writes)
      · cases ht'
        exact ih.thread hok hcell (round_sound hrun.reaches hcell).1 hring hmoves
      · cases ht'
  | @other s s' act visits served hrun hother hquiet hstep ih =>
    have hok : s.Ok := ok_of_reaches hrun.reaches
    cases hcell : s.store.queues.cells p with
    | none =>
      apply ih.created hok hcell
      intro queue hcell'
      obtain ⟨name, rfl⟩ := eq_fresh_of_new hok hstep hcell hcell'
      rfl
    | some queue =>
      rcases round_cases hok hstep hcell with ⟨-, hsame, hround⟩ |
        ⟨t', writes', members, ht', hring, hmem, hmoves⟩ | ⟨t', queue', rfl, -, -⟩
      · have hpoint : s'.pointAt p = s.pointAt p := congrArg Round.point hround
        refine ⟨ih.behind, fun hnone => ih.waiting ?_, fun queue' hcell' hcount => ?_⟩
        · rwa [hpoint] at hnone
        · obtain rfl := Option.some.inj (hsame.symm.trans hcell')
          exact ih.present queue hcell hcount
      · exact absurd ht' (hother t' writes')
      · cases hquiet

/-- The step of a thread at `q_dequeue` takes a message. -/
theorem takes_message {writes : List WriteResult} (hok : s.Ok)
    (hcell : s.store.queues.cells p = some queue)
    (hstocked : (s.round p queue).Stocked) (hpoint : s.pointAt p t = some .dequeue)
    (hstep : Broker.step grain s (.run t writes) = .ok s') :
    ∃ node body, s'.history = s.history ++ [(t, .qDequeue (some p) (some (node, body)))] := by
  obtain ⟨c, hc, hm, hp, hat⟩ := pointAt_eq_some hpoint
  cases step_cases hstep with
  | @handler _ c' _ _ _ hc' hrun heffect _ =>
    obtain rfl := Option.some.inj (hc.symm.trans hc')
    exact absurd hm heffect.ne_waitValueDequeue
  | @dequeue _ c' p' queue' _ _ _ _ hc' _ hp' hcell' heffect hs' =>
    obtain rfl := Option.some.inj (hc.symm.trans hc')
    obtain rfl := Option.some.inj (hp.symm.trans hp')
    rw [hat] at heffect
    cases heffect with
    | dequeue hstore _ _ htrace =>
      subst hs'
      rcases qDequeue_store hok.lists hcell hstore with ⟨-, hsize, -⟩ | ⟨last, node, rfl, -, -, -⟩
      · exact absurd hsize (hstocked.seen t hpoint)
      · refine ⟨last, node.body, ?_⟩
        rw [commit, htrace]
        rfl

/-- In every reachable state of every interleaving without spurious wakeups, a subscriber
between its return from `wait_round` and the end of its `next_thread` has the turn, so there
is at most one; its `q_dequeue` takes a message; and the threads that have called
`q_dequeue` are, in order, ids that `current` has visited, each visit serving once at most. -/
theorem only_turn_holder_dequeues
    (h : Reaches (Broker.step grain) (fun _ act => act.isSpurious = false) initial s)
    (hcell : s.store.queues.cells p = some queue) :
    (∀ t point, s.pointAt p t = some point → point.past = true → queue.rr.current = t) ∧
      (∀ t t' point point', s.pointAt p t = some point → point.past = true →
        s.pointAt p t' = some point' → point'.past = true → t = t') ∧
      (∀ t writes s', s.pointAt p t = some .dequeue →
        Broker.step grain s (.run t writes) = .ok s' →
        ∃ node body, s'.history = s.history ++ [(t, .qDequeue (some p) (some (node, body)))]) ∧
      (∃ visits served, TurnRun grain p s visits served) ∧
      ∀ visits served, TurnRun grain p s visits served → served.Sublist visits := by
  obtain ⟨hexclusive, hstocked⟩ := round_sound h hcell
  have hholder : ∀ t point, s.pointAt p t = some point → point.past = true →
      queue.rr.current = t :=
    fun t point hpoint hpast => hexclusive t ⟨point, hpoint, Or.inl hpast⟩
  refine ⟨hholder, fun t t' point point' hpoint hpast hpoint' hpast' => ?_,
    fun t writes s' hpoint hstep => takes_message (ok_of_reaches h) hcell hstocked hpoint hstep,
    exists_turnRun h p, fun visits served hrun => hrun.lag.behind⟩
  exact (hholder t point hpoint hpast).symm.trans (hholder t' point' hpoint' hpast')

/-- The thread that was woken is about to dequeue. -/
theorem only_turn_holder_dequeues_handOverAfterSleep :
    ∃ s queue, guardedExec (Broker.step .fine) (fun _ act => act.isSpurious = false) initial
        (handOverAfterSleep ++ [.run 1, .run 1]) = some s ∧
      s.store.queues.cells 0 = some queue ∧ s.pointAt 0 1 = some .dequeue ∧
      (∀ t point, s.pointAt 0 t = some point → point.past = true → queue.rr.current = t) ∧
      (∀ t t' point point', s.pointAt 0 t = some point → point.past = true →
        s.pointAt 0 t' = some point' → point'.past = true → t = t') ∧
      (∀ t writes s', s.pointAt 0 t = some .dequeue →
        Broker.step .fine s (.run t writes) = .ok s' →
        ∃ node body, s'.history = s.history ++ [(t, .qDequeue (some 0) (some (node, body)))]) ∧
      (∃ visits served, TurnRun .fine 0 s visits served) ∧
      ∀ visits served, TurnRun .fine 0 s visits served → served.Sublist visits := by
  have hobserved : (guardedExec (Broker.step .fine) (fun _ act => act.isSpurious = false) initial
      (handOverAfterSleep ++ [.run 1, .run 1])).map
        (fun s => ((s.store.queues.cells 0).isSome, s.pointAt 0 1)) =
          some (true, some .dequeue) := by decide +kernel
  obtain ⟨s, hrun, hview⟩ := Option.map_eq_some_iff.mp hobserved
  obtain ⟨queue, hcell⟩ := Option.isSome_iff_exists.mp (congrArg Prod.fst hview)
  exact ⟨s, queue, hrun, hcell, congrArg Prod.snd hview,
    only_turn_holder_dequeues (reaches_of_guardedExec hrun) hcell⟩

end Broker

end AmqpBroker
