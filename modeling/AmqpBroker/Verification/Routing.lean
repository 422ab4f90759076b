import AmqpBroker.Foundations.Ledger
import AmqpBroker.Verification.Invariant
import AmqpBroker.Verification.Sessions

/-!
# Routing

Bodies are attributed to names through the history alone: an enqueued body goes to the
name its connection last parsed from a Basic.Publish, a dequeued one comes from the name
its connection last parsed from a Basic.Consume. The queue of every name is what was
enqueued to it and not yet dequeued from it, in order.
-/

namespace AmqpBroker

open Foundations Program MachineState

/-- The name that an accepted Basic.Publish was parsed as. -/
def publishName : Event → Option (List UInt8)
  | .parseBasicPublishArgs name => some name
  | _ => none

/-- The name that an accepted Basic.Consume was parsed as. -/
def consumeName : Event → Option (List UInt8)
  | .parseBasicConsumeArgs name => some name
  | _ => none

/-- The node and the body that a call of `q_enqueue` linked. -/
def enqueuedItem : Event → Option (ℕ × List UInt8)
  | .qEnqueue _ node body => some (node, body)
  | _ => none

/-- The node and the body that a call of `q_dequeue` took. -/
def dequeuedItem : Event → Option (ℕ × List UInt8)
  | .qDequeue _ taken => taken
  | _ => none

/-- The name of the last accepted Basic.Publish of every connection. -/
def published (history : List (ℤ × Event)) : ℤ → Option (List UInt8) :=
  latest publishName (fun _ => none) history

/-- The name of the last accepted Basic.Consume of every connection. -/
def consumed (history : List (ℤ × Event)) : ℤ → Option (List UInt8) :=
  latest consumeName (fun _ => none) history

/-- What was enqueued by connections that publish to a name, in order. -/
def enqueuedTo (name : List UInt8) (history : List (ℤ × Event)) : List (ℕ × List UInt8) :=
  attributed publishName enqueuedItem name (fun _ => none) history

/-- What was dequeued by connections that consume from a name, in order. -/
def dequeuedFrom (name : List UInt8) (history : List (ℤ × Event)) : List (ℕ × List UInt8) :=
  attributed consumeName dequeuedItem name (fun _ => none) history

/-- The messages in the queue of a name, from `last_node` along `parent`. -/
def Store.contents (store : Store) (name : List UInt8) : List (ℕ × List UInt8) :=
  match store.queueOf name with
  | none => []
  | some p => store.messages p

/-- The chosen queues and the history tell the same story. -/
structure Broker.Routed (s : Broker) : Prop where
  publishing : ∀ t c, s.conns t = some c → c.machine.publishing = true →
    ∃ name, published s.history t = some name ∧
      ∀ p, c.cs.currentQueue = some p → s.store.queueOf name = some p
  consuming : ∀ t c, s.conns t = some c → c.machine.consuming = true →
    ∃ name, consumed s.history t = some name ∧
      ∀ p, c.cs.currentQueue = some p → s.store.queueOf name = some p
  ledger : ∀ name, dequeuedFrom name s.history ++ s.store.contents name = enqueuedTo name s.history

variable {store store' : Store} {s s' : Broker} {t : ℤ} {c : Conn} {m m' : MachineState}
  {p : ℕ} {queue : Queue} {w w' : World} {grain : Grain} {point point' : DequeuePoint}
  {events : List Event} {name : List UInt8}

/-- The contents of a name are those of its queue. -/
theorem contents_of_some (h : store.queueOf name = some p) :
    store.contents name = store.messages p := by
  rw [Store.contents, h]

/-- A name without a queue has no contents. -/
theorem contents_of_none (h : store.queueOf name = none) : store.contents name = [] := by
  rw [Store.contents, h]

/-- Equal pools with equal lists have equal contents. -/
theorem contents_congr (hqueue : ∀ name, store'.queueOf name = store.queueOf name)
    (hmessages : ∀ p, store'.messages p = store.messages p) (name : List UInt8) :
    store'.contents name = store.contents name := by
  simp only [Store.contents, hqueue, hmessages]

/-- Quiet events neither name nor move anything. -/
theorem Event.IsQuiet.silent {event : Event} (h : event.IsQuiet) :
    publishName event = none ∧ consumeName event = none ∧ enqueuedItem event = none ∧
      dequeuedItem event = none := by
  rcases h with ⟨method, rfl⟩ | ⟨bytes, rfl⟩ <;> exact ⟨rfl, rfl, rfl, rfl⟩

namespace Broker

/-- What a step of one thread has to keep. -/
theorem Routed.commit (h : s.Routed)
    (hgrow : ∀ name p, s.store.queueOf name = some p → w.store.queueOf name = some p)
    (hpublishing : m.publishing = true → ∃ name,
      latest publishName (published s.history) (w.trace.map fun event => (t, event)) t = some name ∧
        ∀ p, w.cs.currentQueue = some p → w.store.queueOf name = some p)
    (hconsuming : m.consuming = true → ∃ name,
      latest consumeName (consumed s.history) (w.trace.map fun event => (t, event)) t = some name ∧
        ∀ p, w.cs.currentQueue = some p → w.store.queueOf name = some p)
    (hledger : ∀ name,
      attributed consumeName dequeuedItem name (consumed s.history)
          (w.trace.map fun event => (t, event)) ++ w.store.contents name =
        s.store.contents name ++ attributed publishName enqueuedItem name (published s.history)
          (w.trace.map fun event => (t, event))) :
    (s.commit t m point w).Routed := by
  refine ⟨fun t' c' hc' hm => ?_, fun t' c' hc' hm => ?_, fun name => ?_⟩
  · by_cases ht : t' = t
    · subst ht
      obtain rfl : (⟨m, point, w.cs, w.socket⟩ : Conn) = c' := by simpa [Broker.commit] using hc'
      obtain ⟨name, hname, hqueue⟩ := hpublishing hm
      exact ⟨name, by simpa only [published, Broker.commit, latest_append] using hname, hqueue⟩
    · have hold : s.conns t' = some c' := by simpa [Broker.commit, ht] using hc'
      obtain ⟨name, hname, hqueue⟩ := h.publishing t' c' hold hm
      refine ⟨name, ?_, fun p hp => hgrow name p (hqueue p hp)⟩
      simp only [published, Broker.commit, latest_append]
      rw [latest_of_ne _ ht]
      exact hname
  · by_cases ht : t' = t
    · subst ht
      obtain rfl : (⟨m, point, w.cs, w.socket⟩ : Conn) = c' := by simpa [Broker.commit] using hc'
      obtain ⟨name, hname, hqueue⟩ := hconsuming hm
      exact ⟨name, by simpa only [consumed, Broker.commit, latest_append] using hname, hqueue⟩
    · have hold : s.conns t' = some c' := by simpa [Broker.commit, ht] using hc'
      obtain ⟨name, hname, hqueue⟩ := h.consuming t' c' hold hm
      refine ⟨name, ?_, fun p hp => hgrow name p (hqueue p hp)⟩
      simp only [consumed, Broker.commit, latest_append]
      rw [latest_of_ne _ ht]
      exact hname
  · have hold := h.ledger name
    simp only [dequeuedFrom, enqueuedTo, Broker.commit, attributed_append] at hold ⊢
    calc _ = attributed consumeName dequeuedItem name (fun _ => none) s.history ++
          (attributed consumeName dequeuedItem name (consumed s.history)
            (w.trace.map fun event => (t, event)) ++ w.store.contents name) := List.append_assoc _ _ _
      _ = _ := by rw [hledger name, ← List.append_assoc, hold]; rfl

/-- A step that names and moves nothing. -/
theorem Routed.commit_silent (h : s.Routed) (hc : s.conns t = some c)
    (hqueueOf : ∀ name, w.store.queueOf name = s.store.queueOf name)
    (hmessages : ∀ p, w.store.messages p = s.store.messages p)
    (hevents : ∀ event ∈ w.trace, publishName event = none ∧ consumeName event = none ∧
      enqueuedItem event = none ∧ dequeuedItem event = none)
    (hqueue : w.cs.currentQueue = c.cs.currentQueue)
    (hpublishing : m.publishing = true → c.machine.publishing = true)
    (hconsuming : m.consuming = true → c.machine.consuming = true) :
    (s.commit t m point w).Routed := by
  refine h.commit (fun name p hp => (hqueueOf name).trans hp) (fun hm => ?_) (fun hm => ?_)
    fun name => ?_
  · obtain ⟨name, hname, hp⟩ := h.publishing t c hc (hpublishing hm)
    refine ⟨name, ?_, fun p hcurrent => (hqueueOf name).trans (hp p (hqueue ▸ hcurrent))⟩
    rw [latest_of_silent fun event hevent => (hevents event hevent).1]
    exact hname
  · obtain ⟨name, hname, hp⟩ := h.consuming t c hc (hconsuming hm)
    refine ⟨name, ?_, fun p hcurrent => (hqueueOf name).trans (hp p (hqueue ▸ hcurrent))⟩
    rw [latest_of_silent fun event hevent => (hevents event hevent).2.1]
    exact hname
  · rw [attributed_of_silent fun event hevent => (hevents event hevent).2.2.2,
      attributed_of_silent fun event hevent => (hevents event hevent).2.2.1,
      contents_congr hqueueOf hmessages, List.nil_append, List.append_nil]

/-- A step that chooses a queue by its name. -/
theorem Routed.commit_lookup (h : s.Routed) (hlooked : LookedUp s.store w.store)
    (hevents : ∀ event ∈ w.trace, enqueuedItem event = none ∧ dequeuedItem event = none)
    (hpublishing : m.publishing = true →
      latest publishName (published s.history) (w.trace.map fun event => (t, event)) t = some name)
    (hconsuming : m.consuming = true →
      latest consumeName (consumed s.history) (w.trace.map fun event => (t, event)) t = some name)
    (hqueue : w.cs.currentQueue = s.store.queueOf name) : (s.commit t m point w).Routed := by
  have hchosen : ∀ p, w.cs.currentQueue = some p → w.store.queueOf name = some p := by
    intro p hp
    rw [hlooked.queueOf, ← hqueue, hp]
  have hmessages : ∀ p, w.store.messages p = s.store.messages p := by
    intro p
    rw [Store.messages, Store.messages, hlooked.nodes, hlooked.queues]
  refine h.commit (fun name p hp => (hlooked.queueOf name).trans hp)
    (fun hm => ⟨name, hpublishing hm, hchosen⟩) (fun hm => ⟨name, hconsuming hm, hchosen⟩)
    fun name' => ?_
  rw [attributed_of_silent fun event hevent => (hevents event hevent).2,
    attributed_of_silent fun event hevent => (hevents event hevent).1,
    contents_congr hlooked.queueOf hmessages, List.nil_append, List.append_nil]

/-- A step that declares a queue. -/
theorem Routed.commit_declare (h : s.Routed) {q : ℕ}
    (hcreate : (s.store.queueOf name = some q ∧ LookedUp s.store w.store) ∨
      Inserted s.store w.store name q)
    (hevents : ∀ event ∈ w.trace, enqueuedItem event = none ∧ dequeuedItem event = none)
    (hpublishing : m.publishing = false) (hconsuming : m.consuming = false) :
    (s.commit t m point w).Routed := by
  have hcontents : ∀ name', w.store.contents name' = s.store.contents name' := by
    intro name'
    rcases hcreate with ⟨-, hlooked⟩ | hinserted
    · refine contents_congr hlooked.queueOf (fun p => ?_) name'
      rw [Store.messages, Store.messages, hlooked.nodes, hlooked.queues]
    · have hmessages : ∀ p, w.store.messages p = s.store.messages p := by
        intro p
        have hinsert := messages_insert s.store w.store.trie name p
        rw [← hinserted.queues, ← hinserted.nodes] at hinsert
        exact hinsert
      simp only [Store.contents, hinserted.queueOf, hmessages]
      split_ifs with hname
      · rw [hname, hinserted.new]
        exact messages_of_none (s.store.queues.fresh q (by rw [hinserted.fresh]))
      · rfl
  have hgrow : ∀ name' p, s.store.queueOf name' = some p → w.store.queueOf name' = some p := by
    intro name' p hp
    rcases hcreate with ⟨-, hlooked⟩ | hinserted
    · exact (hlooked.queueOf name').trans hp
    · exact hinserted.keeps hp
  refine h.commit hgrow (by simp [hpublishing]) (by simp [hconsuming]) fun name' => ?_
  rw [attributed_of_silent fun event hevent => (hevents event hevent).2,
    attributed_of_silent fun event hevent => (hevents event hevent).1, hcontents, List.nil_append,
    List.append_nil]

/-- A step that enqueues a body. -/
theorem Routed.commit_enqueue (h : s.Routed) (hpool : PoolOk s.store) (hc : s.conns t = some c)
    (hm : c.machine.publishing = true) (hp : c.cs.currentQueue = some p) {node : ℕ}
    {body : List UInt8} (henqueued : Enqueued s.store w.store p node body)
    (htrace : w.trace = [.qEnqueue (some p) node body]) (hqueue : w.cs.currentQueue = some p)
    (hafter : m.consuming = false) : (s.commit t m point w).Routed := by
  obtain ⟨name, hname, hchosen⟩ := h.publishing t c hc hm
  have hqueueOf := queueOf_congr henqueued.rings.trie
  have hlatest : latest publishName (published s.history) (w.trace.map fun event => (t, event)) =
      published s.history := latest_of_silent (by simp [htrace, publishName])
  refine h.commit (fun name' p' hp' => (hqueueOf name').trans hp')
    (fun _ => ⟨name, by rw [hlatest]; exact hname, fun p' hp' => ?_⟩) (by simp [hafter])
    fun name' => ?_
  · rw [hqueueOf]
    exact hchosen p' (hp.trans (hqueue.symm.trans hp'))
  · rw [attributed_of_silent (by simp [htrace, dequeuedItem]), List.nil_append, htrace,
      List.map_singleton, attributed_singleton rfl, hname]
    by_cases hsame : name = name'
    · subst hsame
      rw [contents_of_some (hchosen p hp), contents_of_some ((hqueueOf name).trans (hchosen p hp)),
        henqueued.messages, if_pos rfl]
      rfl
    · rw [if_neg (by simpa using hsame), List.append_nil]
      cases hother : s.store.queueOf name' with
      | none => rw [contents_of_none hother, contents_of_none ((hqueueOf name').trans hother)]
      | some p' =>
        have hne : p' ≠ p := by
          rintro rfl
          exact hsame (hpool.queueOf_injective (hchosen p' hp) hother)
        rw [contents_of_some hother, contents_of_some ((hqueueOf name').trans hother),
          henqueued.others p' hne]

/-- A step that dequeues a body, or finds the queue empty. -/
theorem Routed.commit_dequeue (h : s.Routed) (hpool : PoolOk s.store) (hc : s.conns t = some c)
    (hm : c.machine.consuming = true) (hp : c.cs.currentQueue = some p)
    {taken : Option (ℕ × List UInt8)} (hdequeued : Dequeued s.store w.store p taken)
    (htrace : w.trace = [.qDequeue (some p) taken]) (hqueue : w.cs.currentQueue = some p)
    (hafter : m.publishing = false) : (s.commit t m point w).Routed := by
  obtain ⟨name, hname, hchosen⟩ := h.consuming t c hc hm
  have hqueueOf := queueOf_congr hdequeued.rings.trie
  have hlatest : latest consumeName (consumed s.history) (w.trace.map fun event => (t, event)) =
      consumed s.history := latest_of_silent (by simp [htrace, consumeName])
  refine h.commit (fun name' p' hp' => (hqueueOf name').trans hp') (by simp [hafter])
    (fun _ => ⟨name, by rw [hlatest]; exact hname, fun p' hp' => ?_⟩) fun name' => ?_
  · rw [hqueueOf]
    exact hchosen p' (hp.trans (hqueue.symm.trans hp'))
  · rw [attributed_of_silent (show ∀ event ∈ w.trace, enqueuedItem event = none by
      simp [htrace, enqueuedItem]),
      List.append_nil, htrace, List.map_singleton, attributed_singleton rfl, hname]
    by_cases hsame : name = name'
    · subst hsame
      rw [contents_of_some (hchosen p hp), contents_of_some ((hqueueOf name).trans (hchosen p hp)),
        hdequeued.messages, if_pos rfl]
      rfl
    · rw [if_neg (by simpa using hsame), List.nil_append]
      cases hother : s.store.queueOf name' with
      | none => rw [contents_of_none hother, contents_of_none ((hqueueOf name').trans hother)]
      | some p' =>
        have hne : p' ≠ p := by
          rintro rfl
          exact hsame (hpool.queueOf_injective (hchosen p' hp) hother)
        rw [contents_of_some hother, contents_of_some ((hqueueOf name').trans hother),
          hdequeued.others p' hne]

/-- The last recorded call that names something decides the latest name. -/
theorem latest_recorded {named : Event → Option (List UInt8)} {keys : ℤ → Option (List UInt8)}
    {first second : Event} (h : Recorded w w' [first, second]) (htrace : w.trace = [])
    (hquiet : ∀ event : Event, event.IsQuiet → named event = none) (hfirst : named first = some name)
    (hsecond : named second = none) :
    latest named keys (w'.trace.map fun event => (t, event)) t = some name := by
  obtain ⟨reads, hrecorded, hreads⟩ := h
  rw [hrecorded, htrace, List.nil_append, List.map_append, latest_append,
    latest_of_silent fun event hevent => hquiet event (hreads event hevent)]
  simp only [List.map_cons, List.map_nil, latest, List.foldl_cons, List.foldl_nil, note, hfirst,
    hsecond, Function.update_self]

/-- The events of a step that chooses a queue. -/
theorem recorded_moves {first second : Event} (h : Recorded w w' [first, second])
    (htrace : w.trace = [])
    (hfirst : enqueuedItem first = none ∧ dequeuedItem first = none)
    (hsecond : enqueuedItem second = none ∧ dequeuedItem second = none) :
    ∀ event ∈ w'.trace, enqueuedItem event = none ∧ dequeuedItem event = none := by
  apply h.forall htrace fun _ hquiet => hquiet.silent.2.2
  intro event hevent
  simp only [List.mem_cons, List.not_mem_nil, or_false] at hevent
  rcases hevent with rfl | rfl
  · exact hfirst
  · exact hsecond

/-- Every handler keeps the routing invariant. -/
theorem Routed.handler (h : s.Routed) (hok : s.Ok) (hc : s.conns t = some c)
    (heffect : Effect c.machine (s.world c) w' m') : (s.commit t m' point w').Routed := by
  cases heffect with
  | quiet hedge hgrows =>
    obtain ⟨events, htrace, hevents⟩ := hgrows.trace
    refine h.commit_silent hc (fun name => by rw [hgrows.store]; rfl)
      (fun p => by rw [hgrows.store]; rfl) (fun event hevent => ?_) hgrows.currentQueue
      (fun hm => quietNext_publishing hedge hm) fun hm => quietNext_consuming hedge hm
    rw [htrace] at hevent
    exact (hevents event hevent).silent
  | declare hfrom hselects hstore hrecorded =>
    exact h.commit_declare (createQueue_eq_ok hok.pool hstore)
      (recorded_moves hrecorded rfl ⟨rfl, rfl⟩ ⟨rfl, rfl⟩) rfl rfl
  | publish hfrom hselects hstore hrecorded =>
    obtain ⟨hq, hlooked⟩ := getQueue_eq_ok hok.pool hstore
    refine h.commit_lookup hlooked (recorded_moves hrecorded rfl ⟨rfl, rfl⟩ ⟨rfl, rfl⟩) (fun _ => ?_)
      (by simp [MachineState.consuming, subscribed]) (hselects.currentQueue.trans hq)
    exact latest_recorded hrecorded rfl (fun _ hquiet => hquiet.silent.1) rfl rfl
  | consume hfrom hselects hstore hrecorded =>
    obtain ⟨hq, hlooked⟩ := getQueue_eq_ok hok.pool hstore
    refine h.commit_lookup hlooked (recorded_moves hrecorded rfl ⟨rfl, rfl⟩ ⟨rfl, rfl⟩)
      (by simp [MachineState.publishing]) (fun _ => ?_) (hselects.currentQueue.trans hq)
    exact latest_recorded hrecorded rfl (fun _ hquiet => hquiet.silent.2.1) rfl rfl
  | enqueue hfrom hself hstore htrace =>
    obtain ⟨p, hp, -, henqueued⟩ := qEnqueue_eq_ok hok.lists hstore
    rw [hp] at htrace
    exact h.commit_enqueue hok.pool hc (by rw [hfrom]; rfl) hp henqueued htrace
      (hself.currentQueue.trans hp) rfl
  | subscribe hfrom hself hstore htrace hframes =>
    obtain ⟨p, queue, rr, hp, hcell, -, hw⟩ := onRing_unit_eq_ok hstore
    have hlists : SameLists s.store w'.store := hw ▸ sameLists_withRing s.store p rr
    refine h.commit_silent hc (queueOf_congr hlists.trie) hlists.messages (fun event hevent => ?_)
      hself.currentQueue (by simp [MachineState.publishing])
        (by rw [hfrom]; simp [MachineState.consuming])
    simp only [htrace, Broker.world, List.nil_append, List.mem_append, List.mem_singleton] at hevent
    rcases hevent with rfl | hmem
    · exact ⟨rfl, rfl, rfl, rfl⟩
    · exact Event.IsQuiet.silent (Or.inr (hframes event hmem))
  | ack hfrom hself hstore htrace =>
    refine h.commit_silent hc (fun name => by rw [hstore]; rfl) (fun p => by rw [hstore]; rfl)
      (fun event hevent => ?_) hself.currentQueue (by simp [MachineState.publishing])
      (by rw [hfrom]; simp [MachineState.consuming, subscribed])
    simp only [htrace, Broker.world, List.nil_append, List.mem_singleton] at hevent
    exact Event.IsQuiet.silent (Or.inl ⟨_, hevent⟩)
  | reject hfrom hself hstore htrace hreads =>
    obtain ⟨p, queue, rr, hp, hcell, -, hw⟩ := onRing_unit_eq_ok hstore
    have hlists : SameLists s.store w'.store := hw ▸ sameLists_withRing s.store p rr
    refine h.commit_silent hc (queueOf_congr hlists.trie) hlists.messages (fun event hevent => ?_)
      hself.currentQueue (by simp [MachineState.publishing])
        (by simp [MachineState.consuming, subscribed])
    simp only [htrace, Broker.world, List.nil_append, List.mem_append, List.mem_singleton] at hevent
    rcases hevent with hmem | rfl
    · obtain ⟨method, heq, -⟩ := hreads event hmem
      exact Event.IsQuiet.silent (Or.inl ⟨method, heq⟩)
    · exact ⟨rfl, rfl, rfl, rfl⟩

/-- Every step inside `q_dequeue_rr` keeps the routing invariant. -/
theorem Routed.dequeue (h : s.Routed) (hok : s.Ok) (hc : s.conns t = some c)
    (hm : c.machine = waitValueDequeue) (hp : c.cs.currentQueue = some p)
    (hcell : s.store.queues.cells p = some queue)
    (heffect : DequeueEffect grain p queue (s.world c) w' c.point m' point') :
    (s.commit t m' point' w').Routed := by
  have hconsuming : c.machine.consuming = true := by rw [hm]; rfl
  rcases dequeueEffect_kind hcell heffect with ⟨rfl, hsleepers, hcs, -, htrace⟩ |
    ⟨rfl, -, taken, hstore, hcs, -, htrace⟩ | ⟨rfl, -, next, rr, -, rfl⟩
  · exact h.commit_silent hc (queueOf_congr hsleepers.lists.trie) hsleepers.lists.messages
      (by rw [htrace]; simp [Broker.world]) (by rw [hcs]; rfl) (by simp [MachineState.publishing])
      (fun _ => hconsuming)
  · obtain ⟨p', hp', -, hdequeued⟩ := qDequeue_eq_ok hok.lists hstore
    obtain rfl : p = p' := Option.some.inj hp'
    obtain ⟨-, hqueue, -⟩ := afterDequeue_self (s.world c).cs taken
    exact h.commit_dequeue hok.pool hc hconsuming hp hdequeued htrace
      (by rw [hcs, hqueue]; exact hp) rfl
  · have hlists := sameLists_withRing s.store p rr
    exact h.commit_silent hc (queueOf_congr hlists.trie) hlists.messages (by simp [Broker.world]) rfl
      (by simp [MachineState.publishing]) (fun _ => hconsuming)

/-- Accepting and closing connections moves nothing. -/
theorem Routed.replace (h : s.Routed) {next : Option Conn}
    (hnext : ∀ c, next = some c → c.machine.publishing = false ∧ c.machine.consuming = false) :
    Routed { s with conns := Function.update s.conns t next } := by
  refine ⟨fun t' c' hc' hm => ?_, fun t' c' hc' hm => ?_, h.ledger⟩
  · rcases replaced_cases hc' with ⟨-, hnew⟩ | ⟨-, hold⟩
    · rw [(hnext c' hnew).1] at hm
      cases hm
    · exact h.publishing t' c' hold hm
  · rcases replaced_cases hc' with ⟨-, hnew⟩ | ⟨-, hold⟩
    · rw [(hnext c' hnew).2] at hm
      cases hm
    · exact h.consuming t' c' hold hm

/-- Every step keeps the routes. -/
theorem Routed.step {act : Act} (h : s.Routed) (hok : s.Ok)
    (hstep : Broker.step grain s act = .ok s') : s'.Routed := by
  cases step_cases hstep with
  | accept _ _ _ hs' =>
    rw [hs']
    refine h.replace fun c hnext => ?_
    obtain rfl := Option.some.inj hnext
    exact ⟨rfl, rfl⟩
  | handler hc _ heffect hs' =>
    rw [hs']
    exact h.handler hok hc heffect
  | dequeue hc hm hp hcell heffect hs' =>
    rw [hs']
    exact h.dequeue hok hc hm hp hcell heffect
  | close _ _ hs' =>
    rw [hs']
    exact h.replace of_noConn
  | spurious hc hm hp hcell hwoken hs' =>
    rw [hs']
    have hlists := (hwoken.sameButSleepers hcell).lists
    exact h.commit_silent hc (queueOf_congr hlists.trie) hlists.messages (by simp [Broker.world]) rfl
      (fun hm' => hm') (fun hm' => hm')

/-- Nothing has been routed yet. -/
theorem routed_initial : initial.Routed where
  publishing t c hc := by cases hc
  consuming t c hc := by cases hc
  ledger name := by
    have hnone : initial.store.queueOf name = none := by
      cases hq : initial.store.queueOf name with
      | none => rfl
      | some p =>
        obtain ⟨queue, hcell, -⟩ := poolOk_initQueuePool.named name p hq
        cases hcell
    rw [contents_of_none hnone]
    rfl

/-- Every reachable state satisfies the routing invariant. -/
theorem routed_of_reaches {guard : Broker → Act → Prop}
    (h : Reaches (Broker.step grain) guard initial s) : s.Routed := by
  have hboth : s.Ok ∧ s.Routed :=
    h.invariant (P := fun s => s.Ok ∧ s.Routed) ⟨ok_initial, routed_initial⟩
      fun _ _ _ hinv _ hstep => ⟨hinv.1.step hstep, hinv.2.step hinv.1 hstep⟩
  exact hboth.2

/-- The messages of a queue are exactly the nodes from `last_node` along `parent`. -/
theorem chain_messages (h : ListsOk s.store) (hcell : s.store.queues.cells p = some queue) :
    Chain s.store.nodes QNode.parent queue.lastNode ((s.store.messages p).map Prod.fst) := by
  obtain ⟨lists, hlists⟩ := h
  have hlinked := hlists.linked p queue hcell
  have haddresses : ∀ addresses : List ℕ, (∀ a ∈ addresses, Live s.store.nodes a) →
      (bodiesAt s.store.nodes addresses).map Prod.fst = addresses := by
    intro addresses hlive
    induction addresses with
    | nil => rfl
    | cons a addresses ih =>
      obtain ⟨node, hnode⟩ := hlive a List.mem_cons_self
      have hrest := ih fun b hb => hlive b (List.mem_cons_of_mem a hb)
      simp only [bodiesAt, List.filterMap_cons, hnode, Option.map_some, List.map_cons] at hrest ⊢
      rw [hrest]
  rw [hlinked.messages_eq hcell, haddresses (lists p) fun a => hlinked.live]
  exact hlinked.chain

/-- In every reachable state of every interleaving, the bodies dequeued by the connections
that consume from a name, followed by the bodies linked in its queue from `last_node` along
`parent`, are the bodies enqueued by the connections that publish to it, in order. -/
theorem routing_exactly_once {guard : Broker → Act → Prop}
    (h : Reaches (Broker.step grain) guard initial s) (name : List UInt8) :
    (dequeuedFrom name s.history).map Prod.snd ++ (s.store.contents name).map Prod.snd =
        (enqueuedTo name s.history).map Prod.snd ∧
      ∀ p queue, s.store.queueOf name = some p → s.store.queues.cells p = some queue →
        Chain s.store.nodes QNode.parent queue.lastNode ((s.store.contents name).map Prod.fst) := by
  refine ⟨by rw [← List.map_append, (routed_of_reaches h).ledger name], fun p queue hp hcell => ?_⟩
  rw [contents_of_some hp]
  exact chain_messages (ok_of_reaches h).lists hcell

/-- A client that publishes two bodies to a queue and consumes the first of them. -/
def consumeOneOfTwo : List Act :=
  session 0 (openingFrames ++ declareFrame [113] ++ publishFrame [] [113] ++ headerFrame 2 ++
    bodyFrame [104, 105] ++ bodyFrame [33] ++ reopenFrames ++ consumeFrame [113]) 25

/-- Of two bodies the first is taken and the second still there. -/
theorem routing_exactly_once_consumeOneOfTwo :
    ∃ s, exec (Broker.step .fine) initial consumeOneOfTwo = .ok s ∧
      (enqueuedTo [113] s.history).map Prod.snd = [[104, 105], [33]] ∧
      (s.store.contents [113]).map Prod.snd = [[33]] ∧
      (dequeuedFrom [113] s.history).map Prod.snd ++ (s.store.contents [113]).map Prod.snd =
        (enqueuedTo [113] s.history).map Prod.snd := by
  have hobserved : (exec (Broker.step .fine) initial consumeOneOfTwo).toOption.map
      (fun s => ((enqueuedTo [113] s.history).map Prod.snd, (s.store.contents [113]).map Prod.snd)) =
        some ([[104, 105], [33]], [[33]]) := by decide +kernel
  obtain ⟨s, hrun, hview⟩ := exec_observed hobserved
  exact ⟨s, hrun, congrArg Prod.fst hview, congrArg Prod.snd hview,
    (routing_exactly_once (reaches_of_exec hrun) [113]).1⟩

end Broker

end AmqpBroker
