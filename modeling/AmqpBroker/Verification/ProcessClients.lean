import AmqpBroker.Verification.LegalClients
import AmqpBroker.Verification.OwnSocket

/-!
# The clients of a process

The sockets that `accept` returns to `main` are the ones that the threads serve, so what holds of
a broker whose clients send what they may holds of the whole process, from its first step on.
-/

namespace AmqpBroker

open Foundations MachineState

/-- Nothing returns by itself, and what `accept` returns is the socket of a legal client. -/
def ProcessAct.FromClients (client : Socket → List (UInt16 × ClientFrame)) : ProcessAct → Prop
  | .accept _ socket => FromClient client socket
  | .spurious _ => False
  | _ => True

namespace Process

variable {grain : Grain} {client : Socket → List (UInt16 × ClientFrame)} {p p' : Process}
  {a : ProcessAct} {connfd : ℤ} {socket : Socket}

/-- A thread opens no socket. -/
theorem sockets_connection {n : ℕ} {past : PastConsumeOkArgs} {writes : List WriteResult}
    (hstep : p.connectionStep grain n past writes = .ok p')
    (h : p'.sockets connfd = some socket) : p.sockets connfd = some socket := by
  unfold connectionStep at hstep
  split at hstep
  · split at hstep
    · unfold begin at hstep
      split at hstep
      · cases hstep
      · cases hstep
        exact h
    · unfold machineStep at hstep
      split at hstep
      · obtain ⟨server, -, rfl⟩ := serverStep_eq_ok hstep
        change Function.update p.sockets _ none connfd = _ at h
        rw [Function.update_apply] at h
        split at h
        · cases h
        · exact h
      · split at hstep
        · cases hstep
          exact h
        · cases hstep
  · obtain ⟨server, -, rfl⟩ := serverStep_eq_ok hstep
    exact h

/-- A socket that is open was open before, or `accept` has just returned it. -/
theorem sockets_step (hstep : p.step grain a = .ok p') (h : p'.sockets connfd = some socket) :
    p.sockets connfd = some socket ∨ a = .accept connfd socket := by
  cases a with
  | main =>
    obtain ⟨server, -, rfl⟩ := serverStep_eq_ok hstep
    exact .inl h
  | accept connfd' socket' =>
    simp only [step] at hstep
    split at hstep
    · cases hstep
    · obtain ⟨server, -, rfl⟩ := serverStep_eq_ok hstep
      change Function.update p.sockets connfd' (some socket') connfd = _ at h
      by_cases hfd : connfd = connfd'
      · subst hfd
        rw [Function.update_self] at h
        cases h
        exact .inr rfl
      · rw [Function.update_of_ne hfd] at h
        exact .inl h
  | connection n past writes => exact .inl (sockets_connection hstep h)
  | spurious n => exact .inl ((spuriousStep_keeps hstep).2 ▸ h)

/-- A process whose clients send what they may, with the runs of the broker. -/
structure ClientsMatched (client : Socket → List (UInt16 × ClientFrame)) (p : Process)
    (acts : List Act) (b : Broker) : Prop where
  ok : p.Ok
  matched : p.MatchedBy b
  opened : ∀ connfd socket, p.sockets connfd = some socket → FromClient client socket
  legal : LegalClients client acts
  quiet : ∀ act ∈ acts, act.isSpurious = false

/-- No client has connected yet. -/
theorem clientsMatched_initial : ClientsMatched client initial [] Broker.initial where
  ok := ok_initial
  matched := matchedBy_initial
  opened := by
    intro connfd socket h
    cases h
  legal := by
    intro t socket past h
    cases h
  quiet := by
    intro act h
    cases h

/-- The broker follows the process with the same clients. -/
theorem simulates_clients (grain : Grain) (client : Socket → List (UInt16 × ClientFrame)) :
    Simulates (Process.step grain) (fun _ a => a.FromClients client) (Broker.step grain)
      (ClientsMatched client) where
  matched := by
    intro p acts b a p' h hclients hstep
    obtain ⟨hok, more, b', hanswers, hexec, hmatched⟩ := step_matched h.ok h.matched hstep
    refine ⟨more, b', hexec, hok, hmatched, fun connfd socket hopen => ?_,
      fun t socket past hmem => ?_, fun act hmem => ?_⟩
    · obtain hold | rfl := sockets_step hstep hopen
      · exact h.opened connfd socket hold
      · exact hclients
    · obtain hold | hnew := List.mem_append.mp hmem
      · exact h.legal t socket past hold
      · obtain ⟨connfd, hopen⟩ := hanswers.accept t socket past hnew
        exact h.opened connfd socket hopen
    · obtain hold | hnew := List.mem_append.mp hmem
      · exact h.quiet act hold
      · cases act with
        | spurious t =>
          obtain ⟨n, rfl⟩ := hanswers.spurious t hnew
          exact hclients.elim
        | _ => rfl

/-- From `main` on: whenever `accept` only returns sockets of clients that send what they may,
the process is a message broker that was asked for what their frames say, slot by slot, and the
connections of its threads are where the scripts of their clients have been taken to. -/
theorem clients_of_process_served
    (h : Reaches (Process.step grain) (fun _ a => a.FromClients client) initial p) :
    ∃ acts b ops spec, exec (Broker.step grain) Broker.initial acts = .ok b ∧ p.MatchedBy b ∧
      LegalClients client acts ∧ exec MessageBroker.step MessageBroker.initial ops = .ok spec ∧
      b.Represents spec ∧ opsOf p.history = ops.filter MessageOp.isCall ∧
      ∀ t, b.Attended client acts ops t := by
  obtain ⟨acts, b, hexec, hmatched⟩ :=
    (simulates_clients grain client).exists_exec clientsMatched_initial h
  obtain ⟨ops, spec, hops, hrefines⟩ := (Broker.simulates grain).exists_exec
    ⟨.refl, Broker.represents_initial, rfl⟩ (reaches_of_exec_of_forall hexec hmatched.quiet)
  refine ⟨acts, b, ops, spec, hexec, hmatched.matched, hmatched.legal, hops, hrefines.represents, ?_,
    Broker.attended_of_exec hmatched.legal hmatched.quiet hexec hrefines.calls⟩
  rw [← hmatched.matched.history]
  exact hrefines.calls

/-- `main` serves a client, whose thread comes as far as its first message. -/
def publishOnce : List ProcessAct :=
  serve 3 Broker.ownSocket ++ List.replicate 16 (.connection 0)

/-- The process with a client that has come as far as its first message. -/
theorem clients_of_process_served_publishOnce :
    ∃ p, exec (Process.step .fine) initial publishOnce = .ok p ∧
      opsOf p.history = [.declare 0 [113], .select 0 [113], .publish 0 [104, 105]] ∧
      ∃ acts b ops spec, exec (Broker.step .fine) Broker.initial acts = .ok b ∧ p.MatchedBy b ∧
        LegalClients (fun _ => Broker.ownConsumer) acts ∧
        exec MessageBroker.step MessageBroker.initial ops = .ok spec ∧
        b.Represents spec ∧ opsOf p.history = ops.filter MessageOp.isCall ∧
        ∀ t, b.Attended (fun _ => Broker.ownConsumer) acts ops t := by
  have hobserved : (exec (Process.step .fine) initial publishOnce).toOption.map
      (fun p => opsOf p.history) =
        some [.declare 0 [113], .select 0 [113], .publish 0 [104, 105]] := by decide +kernel
  obtain ⟨p, hrun, hview⟩ := exec_observed hobserved
  have hclients : ∀ a ∈ publishOnce, a.FromClients fun _ => Broker.ownConsumer := by
    intro a ha
    simp only [publishOnce, serve, List.mem_append, List.mem_cons, List.not_mem_nil, or_false,
      List.mem_replicate] at ha
    rcases ha with (rfl | rfl | rfl | rfl) | ⟨-, rfl⟩
    · trivial
    · trivial
    · trivial
    · exact ⟨by decide, Socket.chunk_delivers _⟩
    · trivial
  exact ⟨p, hrun, hview, clients_of_process_served (reaches_of_exec_of_forall hrun hclients)⟩

end Process

end AmqpBroker
