import AmqpBroker.Model.RoundRobin
import Mathlib.Data.List.Basic

/-!
# The scheduler as a ring of subscribers

The nodes of the subscribers form a circle in the order of subscription, and the four
cursors of the scheduler agree with it. Subscribing appends, unsubscribing removes, and
handing the turn on moves it to the next subscriber, so none of the three leaves `subs`.
-/

namespace AmqpBroker

open Foundations

/-- The ring holds exactly these subscribers, in the order of subscription. -/
structure Subscribed (rr : RoundRobinScheduler) (members : List ℤ) : Prop where
  ring : Ring (fun i => (rr.subs i).next) (fun i => (rr.subs i).prev) members
  count : rr.count = members.length
  first : ∀ i ∈ members.head?, rr.first = i
  last : ∀ i ∈ members.getLast?, rr.last = i
  current : members ≠ [] → rr.current ∈ members
  range : ∀ i ∈ members, 0 ≤ i ∧ i < maxConnections
  threadId : ∀ i ∈ members, (rr.subs i).threadId = i

variable {rr rr' : RoundRobinScheduler} {members : List ℤ} {t : ℤ}

namespace RoundRobinScheduler

/-- The `next` of one node changes. -/
theorem setNext_next (rr : RoundRobinScheduler) (i v : ℤ) :
    (fun j => ((rr.setNext i v).subs j).next) = Function.update (fun j => (rr.subs j).next) i v := by
  funext j
  by_cases h : j = i
  · subst h
    simp [setNext]
  · simp [setNext, Function.update_of_ne h]

/-- An assignment to `next` leaves every `prev`. -/
theorem setNext_prev (rr : RoundRobinScheduler) (i v : ℤ) :
    (fun j => ((rr.setNext i v).subs j).prev) = fun j => (rr.subs j).prev := by
  funext j
  by_cases h : j = i
  · subst h
    simp [setNext]
  · simp [setNext, Function.update_of_ne h]

/-- The `prev` of one node changes. -/
theorem setPrev_prev (rr : RoundRobinScheduler) (i v : ℤ) :
    (fun j => ((rr.setPrev i v).subs j).prev) = Function.update (fun j => (rr.subs j).prev) i v := by
  funext j
  by_cases h : j = i
  · subst h
    simp [setPrev]
  · simp [setPrev, Function.update_of_ne h]

/-- An assignment to `prev` leaves every `next`. -/
theorem setPrev_next (rr : RoundRobinScheduler) (i v : ℤ) :
    (fun j => ((rr.setPrev i v).subs j).next) = fun j => (rr.subs j).next := by
  funext j
  by_cases h : j = i
  · subst h
    simp [setPrev]
  · simp [setPrev, Function.update_of_ne h]

/-- An assignment to `next` leaves the ids. -/
@[simp] theorem setNext_threadId (rr : RoundRobinScheduler) (i v j : ℤ) :
    ((rr.setNext i v).subs j).threadId = (rr.subs j).threadId := by
  by_cases h : j = i
  · subst h
    simp [setNext]
  · simp [setNext, Function.update_of_ne h]

/-- An assignment to `prev` leaves the ids. -/
@[simp] theorem setPrev_threadId (rr : RoundRobinScheduler) (i v j : ℤ) :
    ((rr.setPrev i v).subs j).threadId = (rr.subs j).threadId := by
  by_cases h : j = i
  · subst h
    simp [setPrev]
  · simp [setPrev, Function.update_of_ne h]

/-- An assignment to `next` leaves the sleepers. -/
@[simp] theorem setNext_roundCond (rr : RoundRobinScheduler) (i v j : ℤ) :
    ((rr.setNext i v).subs j).roundCond = (rr.subs j).roundCond := by
  by_cases h : j = i
  · subst h
    simp [setNext]
  · simp [setNext, Function.update_of_ne h]

/-- An assignment to `prev` leaves the sleepers. -/
@[simp] theorem setPrev_roundCond (rr : RoundRobinScheduler) (i v j : ℤ) :
    ((rr.setPrev i v).subs j).roundCond = (rr.subs j).roundCond := by
  by_cases h : j = i
  · subst h
    simp [setPrev]
  · simp [setPrev, Function.update_of_ne h]

/-- Falling asleep and waking up change no link. -/
theorem setRoundCond_links (rr : RoundRobinScheduler) (i j : ℤ) (asleep : Finset ℤ) :
    ((rr.setRoundCond i asleep).subs j).next = (rr.subs j).next ∧
      ((rr.setRoundCond i asleep).subs j).prev = (rr.subs j).prev ∧
      ((rr.setRoundCond i asleep).subs j).threadId = (rr.subs j).threadId := by
  by_cases h : j = i
  · subst h
    simp [setRoundCond]
  · simp [setRoundCond, Function.update_of_ne h]

/-- The sleepers of one node change. -/
theorem setRoundCond_roundCond (rr : RoundRobinScheduler) (i j : ℤ) (asleep : Finset ℤ) :
    ((rr.setRoundCond i asleep).subs j).roundCond =
      if j = i then asleep else (rr.subs j).roundCond := by
  by_cases h : j = i
  · subst h
    simp [setRoundCond]
  · simp [setRoundCond, h]

end RoundRobinScheduler

open RoundRobinScheduler

/-- An index inside the array. -/
theorem subIndex_of_range (h : 0 ≤ t ∧ t < maxConnections) : subIndex t = .ok t := if_pos h

/-- The subscriber after a subscriber. -/
theorem Subscribed.next_mem (h : Subscribed rr members) (ht : t ∈ members) :
    (rr.subs t).next ∈ members ∧ (rr.subs t).prev ∈ members := h.ring.neighbours_mem ht

/-- Sleepers do not matter to the ring. -/
theorem Subscribed.setRoundCond (h : Subscribed rr members) (i : ℤ) (asleep : Finset ℤ) :
    Subscribed (rr.setRoundCond i asleep) members where
  ring := h.ring.congr (fun j _ => (setRoundCond_links rr i j asleep).1)
    (fun j _ => (setRoundCond_links rr i j asleep).2.1)
  count := h.count
  first := h.first
  last := h.last
  current := h.current
  range := h.range
  threadId j hj := (setRoundCond_links rr i j asleep).2.2.trans (h.threadId j hj)

/-- A new scheduler has no subscriber. -/
theorem subscribed_init (rr : RoundRobinScheduler) : Subscribed (initRoundRobinScheduler rr) [] where
  ring := Ring.nil
  count := rfl
  first := by simp
  last := by simp
  current h := absurd rfl h
  range := by simp
  threadId := by simp

/-- What `add_subscriber` does to a ring. -/
structure Added (rr rr' : RoundRobinScheduler) (members : List ℤ) (t : ℤ) : Prop where
  subscribed : Subscribed rr' (members ++ [t])
  current : rr'.current = if members = [] then t else rr.current
  roundCond : ∀ i, (rr'.subs i).roundCond = if i = t then ∅ else (rr.subs i).roundCond

/-- `add_subscriber` appends a new subscriber to the ring. -/
theorem addSubscriber_spec (h : Subscribed rr members) (hrange : 0 ≤ t ∧ t < maxConnections)
    (hnew : t ∉ members) : ∃ rr', addSubscriber rr t = .ok rr' ∧ Added rr rr' members t := by
  unfold addSubscriber
  rw [subIndex_of_range hrange]
  cases members with
  | nil =>
    have hcount : rr.count = 0 := h.count
    simp only [hcount, if_true]
    refine ⟨_, rfl, ⟨?_, rfl, fun i => ?_⟩⟩
    · refine ⟨Ring.singleton (by simp) (by simp), by simp, by simp, by simp, by simp, by simpa, ?_⟩
      simp
    · by_cases hi : i = t
      · subst hi
        simp
      · simp [hi]
  | cons first rest =>
    have hcount : rr.count ≠ 0 := by
      have := h.count
      simp only [List.length_cons] at this
      omega
    obtain ⟨last, hlast⟩ : ∃ last, (first :: rest).getLast? = some last :=
      ⟨_, List.getLast?_eq_some_getLast (List.cons_ne_nil first rest)⟩
    have hlastEq : rr.last = last := h.last last hlast
    have hfirstEq : rr.first = first := h.first first rfl
    have hlastRange := subIndex_of_range (h.range last (List.mem_of_getLast? hlast))
    have hfirstRange := subIndex_of_range (h.range first List.mem_cons_self)
    simp only [if_neg hcount, hlastEq, hfirstEq, hlastRange, hfirstRange]
    refine ⟨_, rfl, ⟨?_, rfl, fun i => ?_⟩⟩
    · have hring := h.ring.append (show _ = some first from rfl) hlast hnew
      refine ⟨?_, ?_, ?_, ?_, ?_, ?_, ?_⟩
      · refine hring.congr (fun i _ => ?_) (fun i _ => ?_)
        · by_cases hi : i = t
          · subst hi
            simp [hfirstEq, setNext, setPrev]
          · simp only [Function.update_of_ne hi]
            have hnext := congrFun (setNext_next rr last t) i
            have hprev := congrFun (setPrev_next (rr.setNext last t) first t) i
            exact hprev.trans hnext
        · by_cases hi : i = t
          · subst hi
            simp [hlastEq, setNext, setPrev]
          · simp only [Function.update_of_ne hi]
            have hprev := congrFun (setPrev_prev (rr.setNext last t) first t) i
            rw [setNext_prev] at hprev
            exact hprev
      · simp only [setNext, setPrev, List.length_append, List.length_cons, List.length_nil, h.count]
        omega
      · simpa [setNext, setPrev] using hfirstEq
      · intro i hi
        rw [List.getLast?_append_of_ne_nil _ (List.cons_ne_nil t [])] at hi
        simpa using hi
      · intro _
        exact List.mem_append_left _ (h.current (List.cons_ne_nil first rest))
      · intro i hi
        rcases List.mem_append.mp hi with hmem | hmem
        · exact h.range i hmem
        · rw [List.mem_singleton.mp hmem]
          exact hrange
      · intro i hi
        by_cases hit : i = t
        · subst hit
          simp
        · rcases List.mem_append.mp hi with hmem | hmem
          · simpa [Function.update_of_ne hit] using h.threadId i hmem
          · exact absurd (List.mem_singleton.mp hmem) hit
    · by_cases hi : i = t
      · subst hi
        simp
      · simp [hi]

/-- What `remove_subscriber` does to a ring. -/
structure Removed (rr rr' : RoundRobinScheduler) (members : List ℤ) (t : ℤ) : Prop where
  subscribed : Subscribed rr' (members.erase t)
  current : rr'.current = if rr.current = t then (rr.subs t).next else rr.current
  roundCond : ∀ i, (rr'.subs i).roundCond = (rr.subs i).roundCond

/-- The scheduler after `remove_subscriber`. -/
def RoundRobinScheduler.removed (rr : RoundRobinScheduler) (t : ℤ) : RoundRobinScheduler :=
  let prevId := (rr.subs t).prev
  let nextId := (rr.subs t).next
  { count := rr.count - 1
    first := if rr.count - 1 = 0 then -1 else if rr.first = t then nextId else rr.first
    last := if rr.count - 1 = 0 then -1 else if rr.last = t then prevId else rr.last
    current := if rr.current = t then nextId else rr.current
    subs := ((rr.setNext prevId nextId).setPrev nextId prevId).subs }

/-- `remove_subscriber` of a node whose neighbours are in the array. -/
theorem removeSubscriber_eq (ht : 0 ≤ t ∧ t < maxConnections)
    (hprev : 0 ≤ (rr.subs t).prev ∧ (rr.subs t).prev < maxConnections)
    (hnext : 0 ≤ (rr.subs t).next ∧ (rr.subs t).next < maxConnections) :
    removeSubscriber rr t = .ok (rr.removed t) := by
  unfold removeSubscriber
  simp only [bind, Except.bind, subIndex_of_range ht, subIndex_of_range hprev,
    subIndex_of_range hnext, pure, Except.pure, removed, setNext, setPrev]
  by_cases hcurrent : rr.current = t <;> by_cases hfirst : rr.first = t <;>
    by_cases hlast : rr.last = t <;> by_cases hcount : rr.count - 1 = 0 <;>
    simp [hcurrent, hfirst, hlast, hcount]

/-- `remove_subscriber` takes a subscriber out of the ring. -/
theorem removeSubscriber_spec (h : Subscribed rr members) (ht : t ∈ members) :
    ∃ rr', removeSubscriber rr t = .ok rr' ∧ Removed rr rr' members t := by
  obtain ⟨hnextMem, hprevMem⟩ := h.next_mem ht
  refine ⟨rr.removed t, removeSubscriber_eq (h.range t ht) (h.range _ hprevMem)
    (h.range _ hnextMem), ⟨?_, rfl, fun i => by simp [removed]⟩⟩
  obtain ⟨before, after, rfl⟩ := List.append_of_mem ht
  have hnodup := h.ring.nodup
  obtain ⟨hnotBefore, hnotAfter⟩ : t ∉ before ∧ t ∉ after := by
    rw [List.nodup_append, List.nodup_cons] at hnodup
    exact ⟨fun hmem => hnodup.2.2 t hmem t List.mem_cons_self rfl, hnodup.2.1.1⟩
  have herase : (before ++ t :: after).erase t = before ++ after := by
    rw [List.erase_append_right _ hnotBefore, List.erase_cons_head]
  have hcount : rr.count - 1 = (before ++ after).length := by
    have := h.count
    simp only [List.length_append, List.length_cons] at this ⊢
    omega
  have hsub : ∀ i ∈ before ++ after, i ∈ before ++ t :: after := by
    intro i hi
    simp only [List.mem_append, List.mem_cons] at hi ⊢
    tauto
  rw [herase]
  cases hrest : before ++ after with
  | nil =>
    rw [hrest] at hcount
    refine ⟨Ring.nil, by simpa [removed] using hcount, by simp, by simp, fun hne => absurd rfl hne,
      by simp, by simp⟩
  | cons b rest =>
    have hne : before ++ after ≠ [] := by rw [hrest]; exact List.cons_ne_nil b rest
    have hcountNe : rr.count - 1 ≠ 0 := by
      rw [hcount, hrest]
      simp only [List.length_cons]
      omega
    have hring := h.ring.remove hne
    rw [← hrest]
    refine ⟨?_, hcount, fun i hi => ?_, fun i hi => ?_, fun _ => ?_, fun i hi => h.range i (hsub i hi),
      fun i hi => ?_⟩
    · refine hring.congr (fun i _ => ?_) (fun i _ => ?_)
      · have hprev := congrFun (setPrev_next (rr.setNext (rr.subs t).prev (rr.subs t).next)
          (rr.subs t).next (rr.subs t).prev) i
        exact hprev.trans (congrFun (setNext_next rr (rr.subs t).prev (rr.subs t).next) i)
      · have hprev := congrFun (setPrev_prev (rr.setNext (rr.subs t).prev (rr.subs t).next)
          (rr.subs t).next (rr.subs t).prev) i
        rw [setNext_prev] at hprev
        exact hprev
    · simp only [removed, if_neg hcountNe]
      cases before with
      | nil =>
        obtain ⟨tail, rfl⟩ : ∃ tail, after = i :: tail := ⟨_, List.eq_cons_of_mem_head? hi⟩
        rw [if_pos (h.first t rfl)]
        exact (Ring.consecutive [] h.ring).1
      | cons c before =>
        obtain rfl : c = i := by simpa using hi
        rw [h.first c rfl, if_neg]
        rintro rfl
        exact hnotBefore List.mem_cons_self
    · simp only [removed, if_neg hcountNe]
      rcases List.eq_nil_or_concat' after with rfl | ⟨front, d, rfl⟩
      · obtain ⟨front, rfl⟩ : ∃ front, before = front ++ [i] := by
          rw [List.append_nil] at hi
          exact ⟨before.dropLast, (List.dropLast_append_getLast? i hi).symm⟩
        rw [h.last t (by simp), if_pos rfl]
        have hring' : Ring (fun i => (rr.subs i).next) (fun i => (rr.subs i).prev)
            (front ++ i :: t :: []) := by simpa using h.ring
        exact (Ring.consecutive _ hring').2
      · obtain rfl : d = i := by simpa [List.getLast?_append] using hi
        rw [h.last d (by simp [List.getLast?_append, List.getLast?_cons]), if_neg]
        rintro rfl
        exact hnotAfter (by simp)
    · simp only [removed]
      split
      · exact h.ring.next_mem_others hne
      · rename_i hcurrent
        have hmem := h.current (List.append_ne_nil_of_right_ne_nil before (List.cons_ne_nil t after))
        simp only [List.mem_append, List.mem_cons] at hmem ⊢
        tauto
    · simpa [removed] using h.threadId i (hsub i hi)

/-- What `next_thread` does to a ring. -/
structure Passed (rr rr' : RoundRobinScheduler) (members : List ℤ) (next : ℤ) : Prop where
  subscribed : Subscribed rr' members
  follows : next = (rr.subs rr.current).next
  current : rr'.current = next
  roundCond : ∀ i, (rr'.subs i).roundCond = if i = next then ∅ else (rr.subs i).roundCond

/-- `next_thread` moves the turn to the next subscriber and wakes it. -/
theorem nextThread_spec (h : Subscribed rr members) (hne : members ≠ []) :
    ∃ next rr', nextThread rr = .ok (next, rr') ∧ Passed rr rr' members next := by
  have hcurrent := h.current hne
  obtain ⟨hnextMem, -⟩ := h.next_mem hcurrent
  unfold nextThread
  simp only [bind, Except.bind, subIndex_of_range (h.range _ hcurrent),
    subIndex_of_range (h.range _ hnextMem)]
  refine ⟨_, _, rfl, ⟨?_, rfl, rfl, fun i => setRoundCond_roundCond _ _ _ _⟩⟩
  have hmoved : Subscribed { rr with current := (rr.subs rr.current).next } members :=
    ⟨h.ring, h.count, h.first, h.last, fun _ => hnextMem, h.range, h.threadId⟩
  exact hmoved.setRoundCond _ _

end AmqpBroker
