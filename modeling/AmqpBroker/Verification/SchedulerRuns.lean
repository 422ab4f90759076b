import AmqpBroker.Foundations.Execution
import AmqpBroker.Foundations.Rotation
import AmqpBroker.Verification.Membership

/-!
# The scheduler under any calls

The ring of a queue under every sequence of subscriptions, removals and hand-overs: it is one
circle in the order of subscription, and between two turns of one subscriber every other
one that stays has exactly one turn.
-/

namespace AmqpBroker

open Foundations

/-- A call of the scheduler. -/
inductive SchedulerCall where
  | addSubscriber (threadId : ℤ)
  | removeSubscriber (threadId : ℤ)
  | nextThread
  deriving DecidableEq, Repr

/-- What a call leaves of the scheduler. -/
def RoundRobinScheduler.call (rr : RoundRobinScheduler) :
    SchedulerCall → Except Abort RoundRobinScheduler
  | .addSubscriber threadId => addSubscriber rr threadId
  | .removeSubscriber threadId => removeSubscriber rr threadId
  | .nextThread => (nextThread rr).map Prod.snd

/-- The subscribers after a call, in the order in which they subscribed. -/
def subscribersAfter (members : List ℤ) : SchedulerCall → List ℤ
  | .addSubscriber threadId => members ++ [threadId]
  | .removeSubscriber threadId => members.erase threadId
  | .nextThread => members

/-- The subscribers after some calls. -/
def subscribers (members : List ℤ) (calls : List SchedulerCall) : List ℤ :=
  calls.foldl subscribersAfter members

/-- A call that the connections make: new subscribers have an id of the table, only subscribers
leave, and the turn is handed on by somebody. `q_dequeue_rr` calls `next_thread` only between
the `add_subscriber` and the `remove_subscriber` of its own thread; in a ring that nobody has
joined yet `current` is `-1` and `next_thread` would read `subs[-1]`. -/
def Admissible (members : List ℤ) : SchedulerCall → Prop
  | .addSubscriber threadId => (0 ≤ threadId ∧ threadId < maxConnections) ∧ threadId ∉ members
  | .removeSubscriber threadId => threadId ∈ members
  | .nextThread => members ≠ []

/-- All these calls are admissible. -/
def AllAdmissible : List ℤ → List SchedulerCall → Prop
  | _, [] => True
  | members, call :: rest =>
    Admissible members call ∧ AllAdmissible (subscribersAfter members call) rest

/-- The ids that take their turn in these calls: the ones that are current when the turn is
handed on. -/
def turns (rr : RoundRobinScheduler) : List SchedulerCall → List ℤ
  | [] => []
  | call :: rest =>
    match rr.call call with
    | .error _ => []
    | .ok rr' => (if call = .nextThread then [rr.current] else []) ++ turns rr' rest

/-- The ring is one circle through these members in this order, with its cursors. -/
structure RingInOrder (rr : RoundRobinScheduler) (members : List ℤ) : Prop where
  distinct : members.Nodup
  count : rr.count = members.length
  visits : rr.linked = members
  closes : ∀ last ∈ members.getLast?, rr.last = last ∧ (rr.subs last).next = rr.first
  inverse : ∀ i ∈ members,
    (rr.subs (rr.subs i).next).prev = i ∧ (rr.subs (rr.subs i).prev).next = i
  current : members ≠ [] → rr.current ∈ members
  returns : members ≠ [] → ∃ next rr', nextThread rr = .ok (next, rr') ∧ rr'.current = next ∧
    next = (rr.subs rr.current).next
  empty : members = [] → rr.first = -1 ∧ rr.last = -1

variable {rr rr' r₁ r₂ : RoundRobinScheduler} {members round : List ℤ} {s t id next : ℤ}
  {call : SchedulerCall} {calls before stretch : List SchedulerCall}

/-- Admissible calls in two stretches. -/
theorem allAdmissible_append (left right : List SchedulerCall) :
    AllAdmissible members (left ++ right) ↔
      AllAdmissible members left ∧ AllAdmissible (subscribers members left) right := by
  induction left generalizing members with
  | nil => simp [AllAdmissible, subscribers]
  | cons call left ih =>
    rw [List.cons_append, AllAdmissible, ih, AllAdmissible, and_assoc]
    rfl

/-- An admissible call keeps the circle. -/
theorem Subscribed.call_ok (h : Subscribed rr members) (hcall : Admissible members call) :
    ∃ rr', rr.call call = .ok rr' ∧ Subscribed rr' (subscribersAfter members call) := by
  cases call with
  | addSubscriber threadId =>
    obtain ⟨rr', hrun, hadded⟩ := addSubscriber_spec h hcall.1 hcall.2
    exact ⟨rr', hrun, hadded.subscribed⟩
  | removeSubscriber threadId =>
    obtain ⟨rr', hrun, hremoved⟩ := removeSubscriber_spec h hcall
    exact ⟨rr', hrun, hremoved.subscribed⟩
  | nextThread =>
    obtain ⟨next, rr', hrun, hpassed⟩ := nextThread_spec h hcall
    refine ⟨rr', ?_, hpassed.subscribed⟩
    rw [RoundRobinScheduler.call, hrun]
    rfl

/-- Admissible calls keep the circle. -/
theorem Subscribed.exec_ok (h : Subscribed rr members) (hcalls : AllAdmissible members calls) :
    ∃ rr', exec RoundRobinScheduler.call rr calls = .ok rr' ∧
      Subscribed rr' (subscribers members calls) := by
  induction calls generalizing rr members with
  | nil => exact ⟨rr, rfl, h⟩
  | cons call rest ih =>
    obtain ⟨rr₁, hrun, hring⟩ := h.call_ok hcalls.1
    obtain ⟨rr', hrest, hring'⟩ := ih hring hcalls.2
    exact ⟨rr', by rw [exec_cons _ _ _ hrun, hrest], hring'⟩

/-- A scheduler without subscribers, whatever its nodes and its turn are. -/
theorem subscribed_of_count_eq_zero (h : rr.count = 0) : Subscribed rr [] where
  ring := Ring.nil
  count := h
  first := by simp
  last := by simp
  current := by simp
  range := by simp
  threadId := by simp

/-- A call leaves the cursors of an empty ring at `-1`. -/
theorem Subscribed.call_empty (h : Subscribed rr members) (hcall : Admissible members call)
    (hrun : rr.call call = .ok rr') (hnone : subscribersAfter members call = []) :
    rr'.first = -1 ∧ rr'.last = -1 := by
  cases call with
  | addSubscriber threadId => simp [subscribersAfter] at hnone
  | removeSubscriber threadId =>
    obtain ⟨hnext, hprev⟩ := h.next_mem hcall
    have hresult := removeSubscriber_eq (h.range _ hcall) (h.range _ hprev) (h.range _ hnext)
    obtain rfl := Except.ok.inj (hresult.symm.trans hrun)
    have hlength := congrArg List.length hnone
    rw [subscribersAfter, List.length_erase_of_mem hcall, List.length_nil] at hlength
    have hpos : 0 < members.length := List.length_pos_of_mem hcall
    have hcount : rr.count - 1 = 0 := by
      rw [h.count]
      omega
    simp only [RoundRobinScheduler.removed, if_pos hcount, and_self]
  | nextThread => exact absurd hnone hcall

/-- The cursors of a ring that has emptied are `-1`. -/
theorem Subscribed.exec_empty (h : Subscribed rr members) (hcalls : AllAdmissible members calls)
    (hempty : members = [] → rr.first = -1 ∧ rr.last = -1)
    (hrun : Foundations.exec RoundRobinScheduler.call rr calls = .ok rr')
    (hnone : subscribers members calls = []) : rr'.first = -1 ∧ rr'.last = -1 := by
  induction calls generalizing rr members with
  | nil =>
    cases hrun
    exact hempty hnone
  | cons call rest ih =>
    obtain ⟨rr₁, hcall, hring⟩ := h.call_ok hcalls.1
    rw [exec_cons _ _ _ hcall] at hrun
    exact ih hring hcalls.2 (h.call_empty hcalls.1 hcall) hrun hnone

/-- A ring of subscribers is in their order. -/
theorem Subscribed.ringInOrder (h : Subscribed rr members)
    (hempty : members = [] → rr.first = -1 ∧ rr.last = -1) : RingInOrder rr members where
  distinct := h.ring.nodup
  count := h.count
  visits := h.linked_eq
  closes last hlast := by
    obtain ⟨first, hfirst⟩ : ∃ first, members.head? = some first := by
      cases members with
      | nil => cases hlast
      | cons first rest => exact ⟨first, rfl⟩
    rw [h.last last hlast, h.first first hfirst]
    exact ⟨rfl, (h.ring.closed last hlast first hfirst).1⟩
  inverse i hi := ⟨h.ring.prev_next hi, h.ring.next_prev hi⟩
  current := h.current
  returns hne := by
    obtain ⟨next, rr', hrun, hpassed⟩ := nextThread_spec h hne
    exact ⟨next, rr', hrun, hpassed.current, hpassed.follows⟩
  empty := hempty

/-- After every sequence of calls from `init_round_robin_scheduler` the ring is one circle in
the order of subscription; and a ring without subscribers, whatever its turn and its nodes are,
becomes a correct circle of one with its next subscriber. -/
theorem ring_in_subscription_order (memory : RoundRobinScheduler)
    (hcalls : AllAdmissible [] calls) :
    ∃ rr, exec RoundRobinScheduler.call (initRoundRobinScheduler memory) calls = .ok rr ∧
      RingInOrder rr (subscribers [] calls) ∧
      ∀ stale t, stale.count = 0 → 0 ≤ t ∧ t < maxConnections →
        ∃ rr', addSubscriber stale t = .ok rr' ∧ RingInOrder rr' [t] ∧ rr'.current = t := by
  obtain ⟨rr, hrun, hring⟩ := (subscribed_init memory).exec_ok hcalls
  refine ⟨rr, hrun, hring.ringInOrder fun hnone => ?_, fun stale t hcount hrange => ?_⟩
  · exact (subscribed_init memory).exec_empty hcalls (fun _ => ⟨rfl, rfl⟩) hrun hnone
  · obtain ⟨rr', hadd, hadded⟩ := addSubscriber_spec (subscribed_of_count_eq_zero hcount) hrange
      List.not_mem_nil
    exact ⟨rr', hadd, hadded.subscribed.ringInOrder (by simp), hadded.current⟩

/-- Three subscribers, of which the first and then the turn holder leave. -/
def threeSubscribers : List SchedulerCall :=
  [.addSubscriber 5, .addSubscriber 2, .addSubscriber 9, .nextThread, .removeSubscriber 5,
    .removeSubscriber 2, .addSubscriber 5]

/-- Three threads join and one leaves. -/
theorem ring_in_subscription_order_threeSubscribers :
    ∃ rr, exec RoundRobinScheduler.call (initRoundRobinScheduler uninitializedScheduler)
        threeSubscribers = .ok rr ∧ RingInOrder rr [9, 5] := by
  obtain ⟨rr, hrun, hring, -⟩ := ring_in_subscription_order uninitializedScheduler
    (show AllAdmissible [] threeSubscribers by simp [threeSubscribers, AllAdmissible, Admissible,
      subscribersAfter, maxConnections])
  exact ⟨rr, hrun, hring⟩

/-- The turn holder is somebody else than the second of two subscribers. -/
theorem Subscribed.current_ne (h : Subscribed rr members)
    (hround : ReadsFrom members rr.current round) (hbefore : [s, t].Sublist round) (hne : s ≠ t) :
    rr.current ≠ t := by
  obtain ⟨before, after, hmembers, rfl⟩ := hround
  intro hcurrent
  have hnodup := ReadsFrom.nodup ⟨before, after, hmembers, rfl⟩ h.ring.nodup
  rw [hcurrent] at hbefore hnodup
  exact hne (not_before_head hbefore hnodup)

/-- A new subscriber comes between no others. -/
theorem Added.order (h : Added rr rr' members id) (hround : ReadsFrom members rr.current round)
    (hbefore : [s, t].Sublist round) :
    ∃ round', ReadsFrom (members ++ [id]) rr'.current round' ∧ [s, t].Sublist round' := by
  have hne : members ≠ [] := by
    obtain ⟨before, after, hmembers, -⟩ := hround
    rw [hmembers]
    simp
  obtain ⟨round', hround', hsublist⟩ := hround.append id
  rw [h.current, if_neg hne]
  exact ⟨round', hround', hbefore.trans hsublist⟩

/-- A subscriber who leaves hands his turn to the next one, and skips nobody. -/
theorem Removed.order (h : Removed rr rr' members id) (hring : Subscribed rr members)
    (hround : ReadsFrom members rr.current round) (hs : s ≠ id) (ht : t ≠ id)
    (hbefore : [s, t].Sublist round) :
    ∃ round', ReadsFrom (members.erase id) rr'.current round' ∧ [s, t].Sublist round' := by
  by_cases hcurrent : rr.current = id
  · obtain ⟨rest, rfl⟩ : ∃ rest, round = rr.current :: rest := by
      obtain ⟨before, after, -, hround⟩ := hround
      exact ⟨after ++ before, hround⟩
    rw [hcurrent] at hround hbefore
    have hrest : [s, t].Sublist rest := by
      cases hbefore with
      | cons _ hrest => exact hrest
      | cons_cons => exact absurd rfl hs
    cases rest with
    | nil => cases hrest
    | cons b rest =>
      have hnext := (hround.pass hring.ring).head_eq
      refine ⟨b :: rest, ?_, hrest⟩
      rw [h.current, if_pos hcurrent, ← hnext]
      exact hround.erase_start hring.ring.nodup
  · refine ⟨round.erase id, ?_, ?_⟩
    · rw [h.current, if_neg hcurrent]
      exact hround.erase hring.ring.nodup (Ne.symm hcurrent)
    · have hboth : [s, t].erase id = [s, t] := by
        apply List.erase_of_not_mem
        simp [hs.symm, ht.symm]
      have herased := hbefore.erase id
      rwa [hboth] at herased

/-- Handing the turn on turns the order around if it was the turn of the first one. -/
theorem Passed.order (h : Passed rr rr' members next) (hring : Subscribed rr members)
    (hround : ReadsFrom members rr.current round) (hbefore : [s, t].Sublist round) :
    ∃ round', ReadsFrom members rr'.current round' ∧
      if rr.current = s then [t, s].Sublist round' else [s, t].Sublist round' := by
  obtain ⟨rest, rfl⟩ : ∃ rest, round = rr.current :: rest := by
    obtain ⟨before, after, -, hround⟩ := hround
    exact ⟨after ++ before, hround⟩
  refine ⟨rest ++ [rr.current], ?_, ?_⟩
  · rw [h.current, h.follows]
    exact hround.pass hring.ring
  · split
    · rename_i hcurrent
      have hmem : t ∈ rest := by
        rw [hcurrent] at hbefore
        exact List.singleton_sublist.mp (List.cons_sublist_cons.mp hbefore)
      rw [hcurrent]
      exact before_of_passed hmem
    · rename_i hcurrent
      exact before_of_pass hbefore hcurrent

/-- Two subscribers who stay keep their order in every call, read from the turn holder on, except
that the turn of the first one turns it around. -/
theorem Subscribed.order (h : Subscribed rr members) (hcall : Admissible members call)
    (hround : ReadsFrom members rr.current round) (hs : s ∈ subscribersAfter members call)
    (ht : t ∈ subscribersAfter members call) (hrun : rr.call call = .ok rr')
    (hbefore : [s, t].Sublist round) :
    ∃ round', ReadsFrom (subscribersAfter members call) rr'.current round' ∧
      if call = .nextThread ∧ rr.current = s then [t, s].Sublist round'
      else [s, t].Sublist round' := by
  cases call with
  | addSubscriber id =>
    obtain ⟨rr₁, hadd, hadded⟩ := addSubscriber_spec h hcall.1 hcall.2
    obtain rfl := Except.ok.inj (hadd.symm.trans hrun)
    obtain ⟨round', hround', horder⟩ := hadded.order hround hbefore
    exact ⟨round', hround', by rwa [if_neg (by simp)]⟩
  | removeSubscriber id =>
    obtain ⟨rr₁, hremove, hremoved⟩ := removeSubscriber_spec h hcall
    obtain rfl := Except.ok.inj (hremove.symm.trans hrun)
    have hsId : s ≠ id := fun heq => h.ring.nodup.not_mem_erase (heq ▸ hs)
    have htId : t ≠ id := fun heq => h.ring.nodup.not_mem_erase (heq ▸ ht)
    obtain ⟨round', hround', horder⟩ := hremoved.order h hround hsId htId hbefore
    exact ⟨round', hround', by rwa [if_neg (by simp)]⟩
  | nextThread =>
    obtain ⟨next, rr₁, hnext, hpassed⟩ := nextThread_spec h hcall
    have hcalled : rr.call .nextThread = .ok rr₁ := by
      rw [RoundRobinScheduler.call, hnext]
      rfl
    obtain rfl := Except.ok.inj (hcalled.symm.trans hrun)
    obtain ⟨round', hround', horder⟩ := hpassed.order h hround hbefore
    exact ⟨round', hround', by simpa using horder⟩

/-- Both ids are subscribed before, between and after these calls. -/
def StaySubscribed (s t : ℤ) (members : List ℤ) (calls : List SchedulerCall) : Prop :=
  ∀ done, done <+: calls → s ∈ subscribers members done ∧ t ∈ subscribers members done

/-- Two ids that stay stay after the first call. -/
theorem StaySubscribed.tail {rest : List SchedulerCall}
    (h : StaySubscribed s t members (call :: rest)) :
    StaySubscribed s t (subscribersAfter members call) rest := by
  intro done hdone
  exact h (call :: done) ((List.prefix_cons_inj call).mpr hdone)

/-- Up to the next turn of one subscriber, another has one turn if he is read before, and none
if he is read after. -/
theorem Subscribed.count_turns (h : Subscribed rr members) (hcalls : AllAdmissible members calls)
    (hround : ReadsFrom members rr.current round) (hstay : StaySubscribed s t members calls)
    (hne : s ≠ t) (hrun : exec RoundRobinScheduler.call rr calls = .ok rr')
    (hnone : t ∉ turns rr calls) (hturn : rr'.current = t) :
    ([s, t].Sublist round → (turns rr calls).count s = 1) ∧
      ([t, s].Sublist round → (turns rr calls).count s = 0) := by
  induction calls generalizing rr members round with
  | nil =>
    cases hrun
    exact ⟨fun hbefore => absurd hturn (h.current_ne hround hbefore hne), fun _ => rfl⟩
  | cons call rest ih =>
    obtain ⟨rr₁, hcall, hring⟩ := h.call_ok hcalls.1
    rw [exec_cons _ _ _ hcall] at hrun
    have hturns : turns rr (call :: rest) =
        (if call = .nextThread then [rr.current] else []) ++ turns rr₁ rest := by
      rw [turns, hcall]
    rw [hturns, List.mem_append, not_or] at hnone
    obtain ⟨hs, ht⟩ := hstay.tail [] (List.nil_prefix)
    rw [hturns, List.count_append]
    constructor
    · intro hbefore
      obtain ⟨round', hround', horder⟩ := h.order hcalls.1 hround hs ht hcall hbefore
      obtain ⟨hone, hzero⟩ := ih hring hcalls.2 hround' hstay.tail hrun hnone.2
      by_cases hpasses : call = .nextThread ∧ rr.current = s
      · rw [if_pos hpasses] at horder
        rw [if_pos hpasses.1, hpasses.2, hzero horder, List.count_singleton_self]
      · rw [if_neg hpasses] at horder
        rw [hone horder, Nat.add_eq_right]
        apply List.count_eq_zero.mpr
        intro hmem
        split at hmem
        · rename_i hnext
          exact hpasses ⟨hnext, (List.mem_singleton.mp hmem).symm⟩
        · cases hmem
    · intro hbefore
      obtain ⟨round', hround', horder⟩ := h.order hcalls.1 hround ht hs hcall hbefore
      obtain ⟨-, hzero⟩ := ih hring hcalls.2 hround' hstay.tail hrun hnone.2
      have hother : ¬ (call = .nextThread ∧ rr.current = t) := by
        rintro ⟨hnext, hcurrent⟩
        rw [if_pos hnext, hcurrent] at hnone
        exact hnone.1 (List.mem_singleton_self t)
      rw [if_neg hother] at horder
      rw [hzero horder, Nat.add_zero]
      apply List.count_eq_zero.mpr
      intro hmem
      split at hmem
      · exact h.current_ne hround hbefore hne.symm (List.mem_singleton.mp hmem).symm
      · cases hmem

/-- Between two consecutive turns of one subscriber, another one who stays subscribed with it has
exactly one turn, whoever else subscribes or leaves. -/
theorem one_turn_between_turns (memory : RoundRobinScheduler) {between : List SchedulerCall}
    (hcalls : AllAdmissible [] (before ++ .nextThread :: between ++ [.nextThread]))
    (hbefore : exec RoundRobinScheduler.call (initRoundRobinScheduler memory) before = .ok r₁)
    (hturn : r₁.current = t)
    (hstretch : exec RoundRobinScheduler.call r₁ (.nextThread :: between) = .ok r₂)
    (hturn' : r₂.current = t) (hconsecutive : (turns r₁ (.nextThread :: between)).count t = 1)
    (hne : s ≠ t)
    (hstay : StaySubscribed s t (subscribers [] before) (.nextThread :: between)) :
    (turns r₁ (.nextThread :: between)).count s = 1 := by
  rw [List.append_assoc, allAdmissible_append, allAdmissible_append] at hcalls
  obtain ⟨hadmissible, hthen, -⟩ := hcalls
  obtain ⟨rr, hrun, hring⟩ := (subscribed_init memory).exec_ok hadmissible
  obtain rfl := Except.ok.inj (hrun.symm.trans hbefore)
  obtain ⟨hs, ht⟩ := hstay [] List.nil_prefix
  obtain ⟨r, hcall, hring'⟩ := hring.call_ok hthen.1
  rw [exec_cons _ _ _ hcall] at hstretch
  have hturns : turns rr (.nextThread :: between) = t :: turns r between := by
    rw [turns, hcall, if_pos rfl, hturn]
    rfl
  rw [hturns, List.count_cons_self, Nat.add_eq_right] at hconsecutive
  rw [hturns, List.count_cons_of_ne hne.symm]
  -- Read from `t`, the other one comes behind; the turn of `t` puts it in front.
  obtain ⟨round, hround⟩ := exists_readsFrom ht
  have hbehind : [t, s].Sublist round := by
    obtain ⟨left, right, hmembers, rfl⟩ := hround
    have hmem : s ∈ right ++ left := by
      rw [hmembers] at hs
      simpa [hne, or_comm] using hs
    exact List.cons_sublist_cons.mpr (List.singleton_sublist.mpr hmem)
  rw [← hturn] at hround
  obtain ⟨hs', ht'⟩ := hstay.tail [] List.nil_prefix
  obtain ⟨round', hround', horder⟩ := hring.order hthen.1 hround ht' hs' hcall hbehind
  rw [if_pos ⟨rfl, hturn⟩] at horder
  exact (hring'.count_turns hthen.2 hround' hstay.tail hne hstretch
    (List.count_eq_zero.mp hconsecutive) hturn').1 horder

/-- A third subscriber who comes and goes between two turns of the first. -/
def visitor : List SchedulerCall := [.addSubscriber 9, .nextThread, .removeSubscriber 9]

/-- Another id that comes and goes between two turns. -/
theorem one_turn_between_turns_visitor :
    ∃ rr, exec RoundRobinScheduler.call (initRoundRobinScheduler uninitializedScheduler)
        [.addSubscriber 5, .addSubscriber 2] = .ok rr ∧ rr.current = 5 ∧
      turns rr (.nextThread :: visitor) = [5, 2] ∧
      (turns rr (.nextThread :: visitor)).count 2 = 1 := by
  have hobserved : (exec RoundRobinScheduler.call (initRoundRobinScheduler uninitializedScheduler)
      [.addSubscriber 5, .addSubscriber 2]).toOption.map (fun rr =>
        (rr.current, turns rr (.nextThread :: visitor),
          (exec RoundRobinScheduler.call rr (.nextThread :: visitor)).toOption.map fun rr' =>
            rr'.current)) = some (5, [5, 2], some 5) := by decide +kernel
  obtain ⟨rr, hrun, hview⟩ := exec_observed hobserved
  have hturn : rr.current = 5 := congrArg Prod.fst hview
  have hturns : turns rr (.nextThread :: visitor) = [5, 2] :=
    congrArg (fun view => view.2.1) hview
  obtain ⟨rr', hstretch, hturn'⟩ := exec_observed (congrArg (fun view => view.2.2) hview)
  have hcalls : AllAdmissible []
      ([.addSubscriber 5, .addSubscriber 2] ++ .nextThread :: visitor ++ [.nextThread]) := by
    simp [visitor, AllAdmissible, Admissible, subscribersAfter, maxConnections]
  have hstay : StaySubscribed 2 5 (subscribers [] [.addSubscriber 5, .addSubscriber 2])
      (.nextThread :: visitor) := by
    intro done hdone
    have hall : ∀ done ∈ (SchedulerCall.nextThread :: visitor).inits,
        (2 : ℤ) ∈ subscribers [5, 2] done ∧ (5 : ℤ) ∈ subscribers [5, 2] done := by decide
    exact hall done ((List.mem_inits _ _).mpr hdone)
  exact ⟨rr, hrun, hturn, hturns, one_turn_between_turns uninitializedScheduler hcalls hrun hturn
    hstretch hturn' (by rw [hturns]; decide) (by decide) hstay⟩

end AmqpBroker
