import AmqpBroker.Verification.Arguments
import AmqpBroker.Verification.MissingQueue
import AmqpBroker.Verification.PoolRuns
import AmqpBroker.Verification.Publishing

/-!
# One name for declaring, publishing and consuming

The three argument parsers copy in different ways and from different offsets, into memory
that still holds the name before. They leave the same string, and since the pool keeps
the queue of a name, a Basic.Publish or Basic.Consume finds the queue of its Queue.Declare.
-/

namespace AmqpBroker

open Foundations Program MachineState

variable {grain : Grain} {w w' v : World} {m : MachineState} {method : MethodHeader}
  {arguments ticket exchange name after : List UInt8} {q : ℕ}

/-- The parser leaves this string in `queue_name`, whatever was there. -/
def LeavesName (parse : Action (List UInt8)) (w : World) (name : List UInt8) : Prop :=
  ∃ w', parse w = .ok (name, w') ∧ w'.cs.currentQueueName.cstring maxQueueName 0 = some name

/-- The arguments of Queue.Declare and of Basic.Consume up to their queue name. -/
def NamesQueue (arguments name : List UInt8) : Prop :=
  ∃ ticket after, ticket.length = 2 ∧ arguments = ticket ++ shortString name ++ after

/-- The arguments of Basic.Publish up to their routing key. -/
def NamesKey (arguments name : List UInt8) : Prop :=
  ∃ ticket exchange after, ticket.length = 2 ∧ exchange.length ≤ 255 ∧
    arguments = ticket ++ shortString exchange ++ shortString name ++ after

namespace Broker

variable {s s' : Broker} {t : ℤ} {act : Act}

/-- The next frame of this connection is this method with these arguments. -/
def Finds (s : Broker) (t : ℤ) (m : MachineState) (method : MethodHeader)
    (arguments : List UInt8) : Prop :=
  ∃ c v, s.conns t = some c ∧ c.machine = m ∧ readArriving m (s.world c) = .ok (some method, v) ∧
    HoldsArguments v arguments

/-- The connection is about to declare the name. -/
def Declares (s : Broker) (t : ℤ) (name : List UInt8) : Prop :=
  ∃ arguments, NamesQueue arguments name ∧ s.Finds t waitFunctional declareMethod arguments

/-- The connection is about to publish to the name or to consume from it. -/
def Resolves (s : Broker) (t : ℤ) (name : List UInt8) : Prop :=
  (∃ arguments m, NamesKey arguments name ∧ (m = waitFunctional ∨ m = waitPublishContent) ∧
      s.Finds t m publishMethod arguments) ∨
    ∃ arguments, NamesQueue arguments name ∧ s.Finds t waitFunctional consumeMethod arguments

/-- The connection has chosen this queue. -/
def HasChosen (s : Broker) (t : ℤ) (q : ℕ) : Prop :=
  ∃ c, s.conns t = some c ∧ c.cs.currentQueue = some q

end Broker

/-- The three parsers agree on a name, and so do the queues they lead to. -/
structure NameAgrees (name : List UInt8) : Prop where
  declare : ∀ w arguments, NamesQueue arguments name → HoldsArguments w arguments →
    LeavesName parseQueueDeclareArgs w name
  publish : ∀ w arguments, NamesKey arguments name → HoldsArguments w arguments →
    LeavesName parseBasicPublishArgs w name
  consume : ∀ w arguments, NamesQueue arguments name → HoldsArguments w arguments →
    LeavesName parseBasicConsumeArgs w name
  /-- The string fits with its terminator. -/
  fits : name.length + 1 ≤ maxQueueName
  /-- What Queue.Declare chose is what every later Basic.Publish or Basic.Consume chooses. -/
  resolves : ∀ grain s t, Reaches (Broker.step grain) (fun _ _ => True) Broker.initial s →
    s.Declares t name →
    ∃ s₁ q, Broker.step grain s (.run t) = .ok s₁ ∧
      (∃ store', createQueue name s.store = .ok (q, store')) ∧ s₁.HasChosen t q ∧
      ∀ s₂ u, Reaches (Broker.step grain) (fun _ _ => True) s₁ s₂ → s₂.Resolves u name →
        ∃ s₃, Broker.step grain s₂ (.run u) = .ok s₃ ∧ MapsTo s₂.store name (some q) ∧
          s₃.HasChosen u q

/-- The parser of Queue.Declare returns the name. -/
theorem parseQueueDeclareArgs_leaves (hname : name.length ≤ 255) (hzero : (0 : UInt8) ∉ name)
    (harguments : NamesQueue arguments name) (hw : HoldsArguments w arguments) :
    LeavesName parseQueueDeclareArgs w name := by
  obtain ⟨ticket, after, hticket, heq⟩ := harguments
  obtain ⟨w', hparse⟩ := parseQueueDeclareArgs_returns hw ticket hticket (by omega) after heq
  rw [(takeWhile_ne_zero_eq_self name).mpr hzero] at hparse
  obtain ⟨queueName, hstring, hw'⟩ := parseQueueDeclareArgs_eq_ok hparse
  exact ⟨w', hparse, by rw [hw', hstring]⟩

/-- The parser of Basic.Publish returns the routing key. -/
theorem parseBasicPublishArgs_leaves (hname : name.length ≤ 255) (hzero : (0 : UInt8) ∉ name)
    (harguments : NamesKey arguments name) (hw : HoldsArguments w arguments) :
    LeavesName parseBasicPublishArgs w name := by
  obtain ⟨ticket, exchange, after, hticket, hexchange, heq⟩ := harguments
  obtain ⟨w', hparse, -⟩ := parseBasicPublishArgs_returns hw ticket hticket (by omega) (by omega)
    after heq
  rw [(takeWhile_ne_zero_eq_self name).mpr hzero] at hparse
  obtain ⟨queueName, hstring, hw'⟩ := parseBasicPublishArgs_eq_ok hparse
  exact ⟨w', hparse, by rw [hw', hstring]⟩

/-- The parser of Basic.Consume returns the name. -/
theorem parseBasicConsumeArgs_leaves (hname : name.length ≤ 255) (hzero : (0 : UInt8) ∉ name)
    (harguments : NamesQueue arguments name) (hw : HoldsArguments w arguments) :
    LeavesName parseBasicConsumeArgs w name := by
  obtain ⟨ticket, after, hticket, heq⟩ := harguments
  obtain ⟨w', hparse⟩ := parseBasicConsumeArgs_returns hw ticket hticket (by omega) after heq
  rw [(takeWhile_ne_zero_eq_self name).mpr hzero] at hparse
  obtain ⟨queueName, hstring, hw'⟩ := parseBasicConsumeArgs_eq_ok hparse
  exact ⟨w', hparse, by rw [hw', hstring]⟩

/-- Queue.Declare chooses the queue that `create_queue` returns, and the pool holds it. -/
theorem declareQueue_chooses (hpool : PoolOk w.store) (h : LeavesName parseQueueDeclareArgs w name) :
    ∃ w' q store', declareQueue w = .ok ((), w') ∧ createQueue name w.store = .ok (q, store') ∧
      w'.cs.currentQueue = some q ∧ w'.cs.currentQueueName.cstring maxQueueName 0 = some name ∧
      w'.store.queueOf name = some q := by
  obtain ⟨w₁, hparse, hstring⟩ := h
  obtain ⟨q, store', hcreate⟩ := createQueue_returns hpool (parseQueueDeclareArgs_fits hparse)
  have hqueueOf := queueOf_createQueue hpool hcreate
  obtain ⟨queueName, -, hw₁⟩ := parseQueueDeclareArgs_eq_ok hparse
  have hstore : onStore (createQueue name) w₁ = .ok (q, { w₁ with store := store' }) := by
    apply onStore_of_ok
    rw [hw₁]
    exact hcreate
  let w' : World := { w₁ with
    cs := { w₁.cs with currentQueue := some q }
    store := store'
    trace := w₁.trace ++ [.createQueue name q] }
  have hdeclare : declareQueue w = .ok ((), w') := by
    rw [declareQueue, bind_of_ok hparse, bind_of_ok hstore]
    rfl
  exact ⟨w', q, store', hdeclare, hcreate, rfl, hstring, hqueueOf⟩

/-- A parser that leaves the name leads to the queue that was declared under it. -/
theorem selectQueue_chooses {parse : Action (List UInt8)} (h : LeavesName parse v name)
    (hstore : ∀ w', parse v = .ok (name, w') → w'.store = v.store)
    (hq : Declared v.store name q) :
    ∃ w', w'.cs.currentQueue = some q ∧ ∀ next : MachineState,
      (do selectQueue (← parse); pure next : Action MachineState) v = .ok (next, w') := by
  obtain ⟨v₁, hparse, -⟩ := h
  rw [← hstore v₁ hparse] at hq
  obtain ⟨w', hselect, hqueue, -⟩ := selectQueue_declared hq
  refine ⟨w', hqueue, fun next => ?_⟩
  rw [bind_of_ok hparse, bind_of_ok hselect]
  rfl

/-- Reading a frame leaves the shared memory alone. -/
theorem readArriving_store (h : readArriving m w = .ok (some method, v)) : v.store = w.store := by
  cases m with
  | waitFunctional => exact (readFrame_outcome h).quiet.store
  | waitPublishContent =>
    obtain ⟨header, v₁, hheader, h⟩ := bind_eq_ok.mp h
    have hsame : Silent w v₁ := keeps_readMessageHeader _ _ _ hheader
    cases header with
    | none => cases h
    | some header =>
      simp only at h
      split at h
      · exact (readMethod_outcome h).quiet.store.trans hsame.store
      · cases h
  | _ => cases h

/-- The handlers of the two states that accept a Basic.Publish or a Basic.Consume. -/
theorem actions_of_arriving {next : MachineState} {switch : Action MachineState}
    (hm : (m = waitFunctional ∧ switch = functionalSwitch method) ∨
      (m = waitPublishContent ∧ switch = publishContentSwitch method))
    (hread : readArriving m w = .ok (some method, v)) (hswitch : switch v = .ok (next, w'))
    (hnext : next ≠ fail) : actions m w = .ok (next, w') := by
  have hfinish : finishDispatch method next w' = .ok (next, w') := by
    rw [finishDispatch, if_neg hnext]
    rfl
  rcases hm with ⟨rfl, rfl⟩ | ⟨rfl, rfl⟩
  · change actionWaitFunctional w = _
    change readFrame w = _ at hread
    rw [actionWaitFunctional, bind_of_ok hread]
    simp only
    rw [bind_of_ok hswitch, hfinish]
  · change actionWaitPublishContent w = _
    obtain ⟨header, v₁, hheader, hread⟩ := bind_eq_ok.mp hread
    rw [actionWaitPublishContent, bind_of_ok hheader]
    cases header with
    | none => cases hread
    | some header =>
      simp only at hread
      split at hread
      · rename_i htype
        simp only [if_pos htype]
        rw [bind_of_ok hread]
        simp only
        rw [bind_of_ok hswitch, hfinish]
      · cases hread

namespace Broker

variable {s s' : Broker} {t : ℤ} {act : Act} {c : Conn} {m' : MachineState}

/-- No handler takes the queue of a name away. -/
theorem queueOf_handler (hok : s.Ok) (h : Effect c.machine (s.world c) w' m')
    (hq : s.store.queueOf name = some q) : w'.store.queueOf name = some q := by
  cases h with
  | quiet _ hgrows => rwa [hgrows.store]
  | declare _ _ hstore _ =>
    rcases createQueue_eq_ok hok.pool hstore with ⟨-, hlooked⟩ | hinserted
    · rwa [hlooked.queueOf]
    · exact hinserted.keeps hq
  | publish _ _ hstore _ => rwa [(getQueue_eq_ok hok.pool hstore).2.queueOf]
  | consume _ _ hstore _ => rwa [(getQueue_eq_ok hok.pool hstore).2.queueOf]
  | enqueue _ _ hstore _ =>
    obtain ⟨p, -, -, henqueued⟩ := qEnqueue_eq_ok hok.lists hstore
    rwa [queueOf_congr henqueued.rings.trie]
  | subscribe _ _ hstore _ _ => rwa [queueOf_congr (onRing_sameLists hstore).trie]
  | ack _ _ hstore _ => rwa [hstore]
  | reject _ _ hstore _ _ => rwa [queueOf_congr (onRing_sameLists hstore).trie]

/-- No step takes the queue of a name away. -/
theorem queueOf_step (hok : s.Ok) (hstep : Broker.step grain s act = .ok s')
    (hq : s.store.queueOf name = some q) : s'.store.queueOf name = some q := by
  cases step_cases hstep with
  | accept _ _ _ hs' =>
    rw [hs']
    exact hq
  | handler hc haction heffect hs' =>
    rw [hs']
    exact queueOf_handler hok heffect hq
  | dequeue hc hm hp hcell heffect hs' =>
    rw [hs']
    rcases dequeueEffect_kind hcell heffect with ⟨-, hsleepers, -⟩ | ⟨-, -, taken, hstore, -⟩ |
      ⟨-, -, next, rr, -, hw⟩
    · exact (queueOf_congr hsleepers.lists.trie name).trans hq
    · obtain ⟨p', -, -, hdequeued⟩ := qDequeue_eq_ok hok.lists hstore
      exact (queueOf_congr hdequeued.rings.trie name).trans hq
    · rw [hw]
      exact hq
  | close _ _ hs' =>
    rw [hs']
    exact hq
  | spurious hc hm hp hcell hwoken hs' =>
    rw [hs']
    exact (queueOf_congr (hwoken.sameButSleepers hcell).lists.trie name).trans hq

/-- No run takes the queue of a name away. -/
theorem queueOf_reaches {guard : Broker → Act → Prop} (hok : s.Ok)
    (h : Reaches (Broker.step grain) guard s s') (hq : s.store.queueOf name = some q) :
    s'.Ok ∧ s'.store.queueOf name = some q :=
  h.invariant (P := fun s => s.Ok ∧ s.store.queueOf name = some q) ⟨hok, hq⟩
    fun _ _ _ hinv _ hstep => ⟨hinv.1.step hstep, queueOf_step hinv.1 hstep hinv.2⟩

/-- A connection that is about to declare a name creates its queue and keeps both. -/
theorem step_declares (hname : name.length ≤ 255) (hzero : (0 : UInt8) ∉ name) (hok : s.Ok)
    (h : s.Declares t name) (grain : Grain) :
    ∃ s₁ c₁ q, Broker.step grain s (.run t) = .ok s₁ ∧
      (∃ store', createQueue name s.store = .ok (q, store')) ∧ s₁.conns t = some c₁ ∧
      c₁.machine = queueDeclareReceived ∧ c₁.cs.currentQueue = some q ∧
      c₁.cs.currentQueueName.cstring maxQueueName 0 = some name ∧
      s₁.store.queueOf name = some q := by
  obtain ⟨arguments, harguments, c, v, hc, hm, hread, hholds⟩ := h
  have hstore : v.store = s.store := readArriving_store hread
  have hleaves := parseQueueDeclareArgs_leaves hname hzero harguments hholds
  obtain ⟨w', q, store', hdeclare, hcreate, hqueue, hstring, hqueueOf⟩ :=
    declareQueue_chooses (hstore ▸ hok.pool) hleaves
  have hswitch : functionalSwitch declareMethod v = .ok (queueDeclareReceived, w') := by
    change (declareQueue >>= fun _ => pure queueDeclareReceived) v = _
    rw [bind_of_ok hdeclare]
    rfl
  have haction := actions_of_arriving (.inl ⟨rfl, rfl⟩) hread hswitch (by decide)
  have hstep := step_run_of_machine hc hm (by decide) (by decide) haction grain
  rw [hstore] at hcreate
  exact ⟨_, _, q, hstep, ⟨store', hcreate⟩, commit_conns_self _ _ _ _ _, rfl, hqueue, hstring,
    hqueueOf⟩

/-- A connection that is about to publish to a declared name or to consume from it chooses
the queue of the name. -/
theorem step_resolves (hname : name.length ≤ 255) (hzero : (0 : UInt8) ∉ name) (hok : s.Ok)
    (hq : s.store.queueOf name = some q) (h : s.Resolves t name) (grain : Grain) :
    ∃ s', Broker.step grain s (.run t) = .ok s' ∧ s'.HasChosen t q := by
  have hdeclared : ∀ {v : World}, v.store = s.store → Declared v.store name q := by
    intro v hstore
    rw [hstore]
    exact ⟨hok.pool, hok.lists, hq⟩
  have hfinish : ∀ {c : Conn} {m next : MachineState} {w' : World}, s.conns t = some c →
      c.machine = m → (m = waitFunctional ∨ m = waitPublishContent) →
      actions m (s.world c) = .ok (next, w') → w'.cs.currentQueue = some q →
      ∃ s', Broker.step grain s (.run t) = .ok s' ∧ s'.HasChosen t q := by
    intro c m next w' hc hm hfrom haction hqueue
    have hstep := step_run_of_machine hc hm (by rcases hfrom with h | h <;> rw [h] <;> decide)
      (by rcases hfrom with h | h <;> rw [h] <;> decide) haction grain
    exact ⟨_, hstep, _, commit_conns_self _ _ _ _ _, hqueue⟩
  rcases h with ⟨arguments, m, harguments, hfrom, c, v, hc, hm, hread, hholds⟩ |
    ⟨arguments, harguments, c, v, hc, hm, hread, hholds⟩
  · have hleaves := parseBasicPublishArgs_leaves hname hzero harguments hholds
    obtain ⟨w', hqueue, hselect⟩ := selectQueue_chooses hleaves (fun v₁ hparse => by
      obtain ⟨queueName, -, hv₁⟩ := parseBasicPublishArgs_eq_ok hparse
      rw [hv₁]) (hdeclared (readArriving_store hread))
    rcases hfrom with rfl | rfl
    · have hswitch : functionalSwitch publishMethod v = .ok (basicPublishReceived, w') :=
        hselect basicPublishReceived
      exact hfinish hc hm (.inl rfl) (actions_of_arriving (.inl ⟨rfl, rfl⟩) hread hswitch (by decide))
        hqueue
    · have hswitch : publishContentSwitch publishMethod v = .ok (basicPublishReceived, w') :=
        hselect basicPublishReceived
      exact hfinish hc hm (.inr rfl) (actions_of_arriving (.inr ⟨rfl, rfl⟩) hread hswitch (by decide))
        hqueue
  · have hleaves := parseBasicConsumeArgs_leaves hname hzero harguments hholds
    obtain ⟨w', hqueue, hselect⟩ := selectQueue_chooses hleaves (fun v₁ hparse => by
      obtain ⟨queueName, -, hv₁⟩ := parseBasicConsumeArgs_eq_ok hparse
      rw [hv₁]) (hdeclared (readArriving_store hread))
    have hswitch : functionalSwitch consumeMethod v = .ok (basicConsumeReceived, w') :=
      hselect basicConsumeReceived
    exact hfinish hc hm (.inl rfl) (actions_of_arriving (.inl ⟨rfl, rfl⟩) hread hswitch (by decide))
      hqueue

end Broker

/-- Declare, publish and consume agree on every name of up to 255 non-zero bytes, whatever
the ticket, the exchange and the bytes behind the name are. -/
theorem name_agrees (hname : name.length ≤ 255) (hzero : (0 : UInt8) ∉ name) : NameAgrees name where
  declare _ _ harguments hw := parseQueueDeclareArgs_leaves hname hzero harguments hw
  publish _ _ harguments hw := parseBasicPublishArgs_leaves hname hzero harguments hw
  consume _ _ harguments hw := parseBasicConsumeArgs_leaves hname hzero harguments hw
  fits := Nat.succ_le_succ hname
  resolves grain s t hs hdeclares := by
    obtain ⟨s₁, c₁, q, hstep, hcreate, hc₁, -, hqueue, -, hq⟩ :=
      Broker.step_declares hname hzero (Broker.ok_of_reaches hs) hdeclares grain
    refine ⟨s₁, q, hstep, hcreate, ⟨c₁, hc₁, hqueue⟩, fun s₂ u hreaches hresolves => ?_⟩
    obtain ⟨hok, hq₂⟩ :=
      Broker.queueOf_reaches ((Broker.ok_of_reaches hs).step hstep) hreaches hq
    obtain ⟨s₃, hstep₃, hchosen₃⟩ := Broker.step_resolves hname hzero hok hq₂ hresolves grain
    exact ⟨s₃, hstep₃, (mapsTo_iff hok.pool).mpr hq₂.symm, hchosen₃⟩

/-- The method that the next frame of the first connection is read as, with this many bytes
of its arguments. -/
def Broker.nextMethod (count : ℕ) (s : Broker) :
    Option (MachineState × Option (Option MethodHeader × List UInt8)) :=
  (s.conns 0).map fun c =>
    (c.machine, (readArriving c.machine (s.world c)).toOption.map fun found =>
      (found.1, found.2.cs.parsed.slice argumentsOffset count))

/-- What the first connection finds next on its stream. -/
theorem Broker.finds_of_nextMethod {s : Broker}
    (h : s.nextMethod arguments.length = some (m, some (some method, arguments))) :
    s.Finds 0 m method arguments := by
  obtain ⟨c, hc, hview⟩ := Option.map_eq_some_iff.mp h
  obtain ⟨hm, hfound⟩ := Prod.mk.inj hview
  obtain ⟨found, hread, heq⟩ := Option.map_eq_some_iff.mp hfound
  obtain ⟨hmethod, hholds⟩ := Prod.mk.inj heq
  refine ⟨c, found.2, hc, hm, ?_, hholds⟩
  rw [← hm, ← hmethod]
  cases hrun : readArriving c.machine (s.world c) with
  | error reason =>
    rw [hrun] at hread
    cases hread
  | ok result =>
    rw [hrun] at hread
    rw [Option.some.inj hread]

/-- A client that declares a queue with a byte above 127 and publishes to it through an
exchange. -/
def declareThenPublish : List UInt8 :=
  openingFrames ++ declareFrame [200] ++ publishFrame [7, 0] [200]

/-- A name of one byte above 127, declared and then published to. -/
theorem name_agrees_declareThenPublish :
    NameAgrees [200] ∧ ∃ s s₁ s₂, Reaches (Broker.step .fine) (fun _ _ => True) Broker.initial s ∧
      s.Declares 0 [200] ∧ Broker.step .fine s (.run 0) = .ok s₁ ∧
      Reaches (Broker.step .fine) (fun _ _ => True) s₁ s₂ ∧ s₂.Resolves 0 [200] := by
  refine ⟨name_agrees (by decide) (by decide), ?_⟩
  have hobserved : (exec (Broker.step .fine) Broker.initial
      (session 0 declareThenPublish 9)).toOption.map (Broker.nextMethod 9) =
        some (some (waitFunctional, some (some declareMethod,
          [0, 0] ++ shortString [200] ++ [0, 0, 0, 0, 0]))) := by decide +kernel
  have hobserved₂ : (exec (Broker.step .fine) Broker.initial
      (session 0 declareThenPublish 9 ++ [.run 0, .run 0])).toOption.map (Broker.nextMethod 8) =
        some (some (waitFunctional, some (some publishMethod,
          [0, 0] ++ shortString [7, 0] ++ shortString [200] ++ [0]))) := by decide +kernel
  obtain ⟨s, hrun, hview⟩ := exec_observed hobserved
  obtain ⟨s₂, hrun₂, hview₂⟩ := exec_observed hobserved₂
  obtain ⟨s', hrun', hrest⟩ := exec_append_eq_ok.mp hrun₂
  obtain rfl := Except.ok.inj (hrun.symm.trans hrun')
  obtain ⟨s₁, hstep, hlast⟩ := exec_cons_eq_ok.mp hrest
  refine ⟨s, s₁, s₂, reaches_of_exec hrun, ?_, hstep, reaches_of_exec hlast, Or.inl ?_⟩
  · exact ⟨_, ⟨[0, 0], [0, 0, 0, 0, 0], rfl, rfl⟩, Broker.finds_of_nextMethod hview⟩
  · exact ⟨_, waitFunctional, ⟨[0, 0], [7, 0], [0], rfl, by decide, rfl⟩, Or.inl rfl,
      Broker.finds_of_nextMethod hview₂⟩

end AmqpBroker
