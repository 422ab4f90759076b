import AmqpBroker.Verification.Refinement

/-!
# Consumers get their share

Two connections that consume from one queue and stay subscribed are served evenly over any
stretch of a run, whoever else subscribes, leaves or publishes, and however the threads take
turns: the message broker deals its messages out evenly, and the process is one.
-/

namespace AmqpBroker

open Foundations MachineState

variable {grain : Grain} {s s' : Broker} {t a b : ℤ} {p : ℕ} {calls : List (ℤ × Event)}

/-- The call of `q_dequeue` that returns a message to the thread. -/
def takesMessage (t : ℤ) (entry : ℤ × Event) : Bool :=
  entry.1 = t && (dequeuedItem entry.2).isSome

/-- How many messages a thread has taken. -/
def messagesTaken (t : ℤ) (calls : List (ℤ × Event)) : ℕ := calls.countP (takesMessage t)

/-- The calls that take a message are the operations that do. -/
theorem takes_opsOf (t : ℤ) (calls : List (ℤ × Event)) :
    takes t (opsOf calls) = messagesTaken t calls := by
  rw [takes, opsOf, List.countP_filterMap, messagesTaken]
  congr 1
  funext entry
  obtain ⟨u, event⟩ := entry
  cases event with
  | qDequeue q taken =>
    cases taken with
    | none => simp [opOf, takesMessage, dequeuedItem]
    | some item => simp [opOf, takesMessage, dequeuedItem, MessageOp.isTake]
  | write bytes =>
    by_cases hbody : bytes.head? = some MsgFormat.body
    · simp [opOf, takesMessage, dequeuedItem, MessageOp.isTake, hbody]
    · simp [opOf, takesMessage, dequeuedItem, hbody]
  | readMethod method =>
    by_cases hack : method = ackMethod
    · simp [opOf, takesMessage, dequeuedItem, MessageOp.isTake, hack]
    · simp [opOf, takesMessage, dequeuedItem, hack]
  | _ => simp [opOf, takesMessage, dequeuedItem, MessageOp.isTake]

/-- Taking a message is a call. -/
theorem takes_filter_isCall (t : ℤ) (ops : List SpecOp) :
    takes t (ops.filter MessageOp.isCall) = takes t ops := by
  rw [takes, takes, List.countP_filter]
  congr 1
  funext op
  cases op <;> simp [MessageOp.isTake, MessageOp.isCall]

/-- An agent is detached where its thread calls `remove_subscriber`. -/
theorem mem_of_detach_mem (h : MessageOp.detach t ∈ opsOf calls) :
    ∃ q, (t, Event.removeSubscriber q) ∈ calls := by
  obtain ⟨⟨u, event⟩, hmem, hop⟩ := List.mem_filterMap.mp h
  cases event with
  | removeSubscriber q =>
    cases hop
    exact ⟨q, hmem⟩
  | qDequeue q taken =>
    obtain ⟨item, -, hitem⟩ := Option.map_eq_some_iff.mp hop
    cases hitem
  | write bytes =>
    simp only [opOf, Option.ite_none_right_eq_some] at hop
    cases hop.2
  | readMethod method =>
    simp only [opOf, Option.ite_none_right_eq_some] at hop
    cases hop.2
  | _ => cases hop

namespace Broker

/-- A subscriber is attached at the message broker, and in the rota of its queue. -/
theorem Represents.attached {spec : SpecBroker} (h : s.Represents spec) (hok : s.Ok)
    {name : List UInt8} {q : MessageQueue ℤ (List UInt8)} (hname : s.store.queueOf name = some p)
    (hmeans : s.Means p q) (ht : s.SubscribedTo t p) :
    (∃ hand, spec.role t = .attached name hand) ∧ t ∈ q.rota.members := by
  obtain ⟨c, hc, hsub, hp⟩ := ht
  obtain ⟨name', hname', hrole⟩ := (h.roles t c hc).attached_of_subscribed hsub hp
  obtain rfl := hok.pool.queueOf_injective hname hname'
  obtain ⟨queue, hcell⟩ := hok.chosen t c p hc hp
  obtain ⟨members, hring, -, hmem⟩ := hok.ring_of hc hp hcell
  refine ⟨⟨_, hrole⟩, ?_⟩
  rw [(hmeans.rota queue hcell).members.unique hring]
  exact hmem.mpr hsub

/-- Two connections that are subscribed to a queue and stay subscribed take messages from it in
alternation over any stretch of a run, whatever the other connections do. -/
theorem messages_dealt_evenly
    (h : Reaches (Broker.step grain) (fun _ act => act.isSpurious = false) initial s)
    (hstretch : Reaches (Broker.step grain) (fun _ act => act.isSpurious = false) s s')
    (hcalls : s'.history = s.history ++ calls) (ha : s.SubscribedTo a p) (hb : s.SubscribedTo b p)
    (hstaysA : ∀ q, (a, Event.removeSubscriber q) ∉ calls)
    (hstaysB : ∀ q, (b, Event.removeSubscriber q) ∉ calls) :
    messagesTaken a calls ≤ messagesTaken b calls + 1 ∧
      messagesTaken b calls ≤ messagesTaken a calls + 1 := by
  obtain ⟨ops, spec, -, hrefines⟩ := (simulates grain).exists_exec ⟨.refl, represents_initial, rfl⟩ h
  obtain ⟨more, spec', hexec, hrefines'⟩ := (simulates grain).exists_exec_of hrefines hstretch
  have hops : opsOf calls = more.filter MessageOp.isCall := by
    have hall := hrefines'.calls
    rw [hcalls, opsOf, List.filterMap_append, List.filter_append] at hall
    exact List.append_inj_right hall (congrArg List.length hrefines.calls)
  have htaken : ∀ t, messagesTaken t calls = takes t more := by
    intro t
    rw [← takes_opsOf, hops, takes_filter_isCall]
  have hstays : ∀ {t}, (∀ q, (t, Event.removeSubscriber q) ∉ calls) → .detach t ∉ more := by
    intro t hnone hmem
    have hcalled : MessageOp.detach t ∈ opsOf calls := by
      rw [hops]
      exact List.mem_filter.mpr ⟨hmem, rfl⟩
    obtain ⟨q, hq⟩ := mem_of_detach_mem hcalled
    exact hnone q hq
  have hok := ok_of_reaches h
  obtain ⟨c, hc, hsub, hp⟩ := id ha
  obtain ⟨name, hname, -⟩ := (hrefines.represents.roles a c hc).attached_of_subscribed hsub hp
  obtain ⟨q, hq, hmeans⟩ := hrefines.represents.queues name p hname
  obtain ⟨hroleA, hmemA⟩ := hrefines.represents.attached hok hname hmeans ha
  obtain ⟨hroleB, hmemB⟩ := hrefines.represents.attached hok hname hmeans hb
  rw [htaken a, htaken b]
  exact ⟨MessageBroker.takes_even hq hmemA hmemB hroleA hroleB hexec (hstays hstaysA) (hstays hstaysB),
    MessageBroker.takes_even hq hmemB hmemA hroleB hroleA hexec (hstays hstaysB) (hstays hstaysA)⟩

/-- Each of two consumers takes one of two messages. -/
def eachTakesOne : List Act := List.replicate 4 (.run 0) ++ List.replicate 4 (.run 1)

/-- The thread is subscribed to the first queue. -/
def consumesFirst (s : Broker) (t : ℤ) : Bool :=
  match s.conns t with
  | some c => c.machine.subscribed && c.cs.currentQueue = some 0
  | none => false

/-- A consumer of the first queue is subscribed to it. -/
theorem subscribedTo_of_consumesFirst (h : s.consumesFirst t = true) : s.SubscribedTo t 0 := by
  unfold consumesFirst at h
  split at h
  · rename_i c hc
    obtain ⟨hsub, hp⟩ := Bool.and_eq_true_iff.mp h
    exact ⟨c, hc, hsub, of_decide_eq_true hp⟩
  · cases h

/-- The calls of these two. -/
def eachTakesOneCalls : List (ℤ × Event) :=
  [(0, .qDequeue (some 0) (some (0, [104, 105]))), (1, .qDequeue (some 0) (some (1, [33])))]

/-- Two consumers of one queue take a message each. -/
theorem messages_dealt_evenly_eachTakesOne :
    ∃ s s', guardedExec (Broker.step .fine) (fun _ act => act.isSpurious = false) initial
        twoConsumers = some s ∧
      guardedExec (Broker.step .fine) (fun _ act => act.isSpurious = false) s eachTakesOne = some s' ∧
      s'.history = s.history ++ eachTakesOneCalls ∧
      messagesTaken 0 eachTakesOneCalls ≤ messagesTaken 1 eachTakesOneCalls + 1 ∧
        messagesTaken 1 eachTakesOneCalls ≤ messagesTaken 0 eachTakesOneCalls + 1 := by
  have hobserved : (guardedExec (Broker.step .fine) (fun _ act => act.isSpurious = false) initial
      twoConsumers).bind (fun s => (guardedExec (Broker.step .fine)
        (fun _ act => act.isSpurious = false) s eachTakesOne).map fun s' =>
          (s.consumesFirst 0, s.consumesFirst 1,
            decide (s'.history = s.history ++ eachTakesOneCalls))) = some (true, true, true) := by
    decide +kernel
  obtain ⟨s, hrun, hrest⟩ := Option.bind_eq_some_iff.mp hobserved
  obtain ⟨s', hrun', hview⟩ := Option.map_eq_some_iff.mp hrest
  obtain ⟨hfirst, hview⟩ := Prod.mk.inj hview
  obtain ⟨hsecond, hhistory⟩ := Prod.mk.inj hview
  have hcalls := of_decide_eq_true hhistory
  exact ⟨s, s', hrun, hrun', hcalls, messages_dealt_evenly (reaches_of_guardedExec hrun)
    (reaches_of_guardedExec hrun') hcalls (subscribedTo_of_consumesFirst hfirst)
    (subscribedTo_of_consumesFirst hsecond) (by simp [eachTakesOneCalls])
    (by simp [eachTakesOneCalls])⟩

end Broker

end AmqpBroker
