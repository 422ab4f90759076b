import AmqpBroker.Verification.ScriptRuns

/-!
# Clients that send what they may

A process whose clients all keep to the protocol, whatever connections follow one another on a
slot and however the threads take turns: the message broker that the process is was asked by
each of them for what its frames say, in their order, and for nothing else.
-/

namespace AmqpBroker

open Foundations MachineState

/-- Who an operation is of. -/
def MessageOp.agent {ν τ μ : Type} : MessageOp ν τ μ → τ
  | .connect t | .attach t | .pass t | .settle t | .detach t => t
  | .declare t _ | .select t _ => t
  | .publish t _ | .take t _ | .send t _ => t

/-- What an agent has asked for. -/
def requestsBy (t : ℤ) (ops : List SpecOp) : List SpecOp :=
  ops.filter fun op => op.isRequest && op.agent = t

/-- The socket that an act hands to a slot. -/
def Act.socketFor (t : ℤ) : Act → Option Socket
  | .accept u socket _ => if u = t then some socket else none
  | _ => none

/-- The connections accepted on a slot, in their order. -/
def acceptedOn (t : ℤ) (acts : List Act) : List Socket := acts.filterMap (Act.socketFor t)

/-- The socket delivers what its client sends, and the client sends what it may. -/
structure FromClient (client : Socket → List (UInt16 × ClientFrame)) (socket : Socket) : Prop where
  legal : Legal (client socket)
  delivers : socket.Delivers (defaultAmqpHeader ++ encodeScript (client socket))

/-- Every socket that is accepted is that of a legal client. -/
def LegalClients (client : Socket → List (UInt16 × ClientFrame)) (acts : List Act) : Prop :=
  ∀ t socket past, .accept t socket past ∈ acts → FromClient client socket

/-- What the clients of these connections ask for. -/
def requestsOfAll (client : Socket → List (UInt16 × ClientFrame)) (t : ℤ) (sockets : List Socket) :
    List SpecOp :=
  sockets.flatMap fun socket => scriptRequests t (client socket)

/-- The answers to them. -/
def answersToAll (client : Socket → List (UInt16 × ClientFrame)) (sockets : List Socket) :
    List MethodHeader :=
  sockets.flatMap fun socket => startMethod :: scriptAnswers (client socket)

variable {grain : Grain} {client : Socket → List (UInt16 × ClientFrame)} {acts : List Act} {act : Act}
  {s s' : Broker} {t u : ℤ} {socket : Socket} {op : SpecOp} {event : Event}

/-! ## Requests at the message broker -/

/-- An operation is that of the thread that made the call. -/
theorem opOf_agent (h : opOf t event = some op) : op.agent = t := by
  cases event with
  | write bytes =>
    obtain ⟨-, hop⟩ := Option.ite_none_right_eq_some.mp h
    cases hop
    rfl
  | readMethod method =>
    obtain ⟨-, hop⟩ := Option.ite_none_right_eq_some.mp h
    cases hop
    rfl
  | qDequeue q taken =>
    obtain ⟨item, -, rfl⟩ := Option.map_eq_some_iff.mp h
    rfl
  | createQueue | getQueue | qEnqueue | qAddSubscriber | removeSubscriber =>
    cases h
    rfl
  | _ => cases h

/-- The requests of an agent are the ones among the calls of its thread. -/
theorem requestsBy_opsOf (t : ℤ) (history : List (ℤ × Event)) :
    requestsBy t (opsOf history) = requestsOf t (callsOf t history) := by
  rw [requestsBy, opsOf, List.filter_filterMap, requestsOf, callsOf, List.filterMap_map,
    List.filterMap_filter]
  congr 1
  funext entry
  obtain ⟨u, event⟩ := entry
  by_cases hu : u = t
  · subst hu
    cases hop : opOf u event with
    | none => simp [requestOf, hop]
    | some op => simp [requestOf, hop, Option.filter, opOf_agent hop]
  · cases hop : opOf u event with
    | none => simp [hu]
    | some op => simp [hu, Option.filter, opOf_agent hop]

/-- A request is a call. -/
theorem requestsBy_filter_isCall (t : ℤ) (ops : List SpecOp) :
    requestsBy t (ops.filter MessageOp.isCall) = requestsBy t ops := by
  rw [requestsBy, requestsBy, List.filter_filter]
  congr 1
  funext op
  cases op <;> simp [MessageOp.isCall, MessageOp.isRequest]

/-! ## One session after the other -/

/-- The sockets accepted on a slot, step by step. -/
theorem acceptedOn_append (t : ℤ) (acts : List Act) (act : Act) :
    acceptedOn t (acts ++ [act]) = acceptedOn t acts ++ (act.socketFor t).toList := by
  rw [acceptedOn, List.filterMap_append, acceptedOn]
  cases h : act.socketFor t with
  | none => simp [h]
  | some socket => simp [h]

/-- A socket of a slot was accepted in some step. -/
theorem mem_of_acceptedOn (h : socket ∈ acceptedOn t acts) :
    ∃ past, .accept t socket past ∈ acts := by
  obtain ⟨act, hact, hsocket⟩ := List.mem_filterMap.mp h
  cases act with
  | accept u socket' past =>
    obtain ⟨rfl, hsame⟩ := Option.ite_none_right_eq_some.mp hsocket
    cases hsame
    exact ⟨past, hact⟩
  | _ => cases hsocket

namespace Broker

/-- The sessions on a slot: the ones before were served to the end, and the connection that is
there is in a session of its own. -/
structure ServesSlot (client : Socket → List (UInt16 × ClientFrame)) (acts : List Act) (s : Broker)
    (t : ℤ) : Prop where
  vacant : s.conns t = none →
    requestsOf t (callsOf t s.history) = requestsOfAll client t (acceptedOn t acts) ∧
      answersOf (callsOf t s.history) = answersToAll client (acceptedOn t acts)
  occupied : ∀ c, s.conns t = some c → ∃ earlier socket before th done todo,
    acceptedOn t acts = earlier ++ [socket] ∧ callsOf t s.history = before ++ th.trace ∧ th.conn = c ∧
      requestsOf t before = requestsOfAll client t earlier ∧
      answersOf before = answersToAll client earlier ∧
      Thread.InSession t (client socket) done todo th

/-- Steps of others change nothing about it. -/
theorem ServesSlot.of_other {acts' : List Act} (h : ServesSlot client acts s t)
    (hconns : s'.conns t = s.conns t) (hcalls : callsOf t s'.history = callsOf t s.history)
    (haccepted : acceptedOn t acts' = acceptedOn t acts) : ServesSlot client acts' s' t := by
  refine ⟨?_, ?_⟩
  · rw [hconns, hcalls, haccepted]
    exact h.vacant
  · rw [hconns, hcalls, haccepted]
    exact h.occupied

/-- Every step goes on serving the clients of a slot, one after the other. -/
theorem ServesSlot.step (h : ServesSlot client acts s t)
    (hearlier : ∀ socket ∈ acceptedOn t acts, Legal (client socket))
    (hlegal : ∀ socket past, act = .accept t socket past → FromClient client socket)
    (hspurious : act.isSpurious = false) (hstep : Broker.step grain s act = .ok s') :
    ServesSlot client (acts ++ [act]) s' t := by
  have hsame : act.socketFor t = none → acceptedOn t (acts ++ [act]) = acceptedOn t acts := by
    intro hnone
    rw [acceptedOn_append, hnone, Option.toList_none, List.append_nil]
  cases act with
  | accept u socket past =>
    cases step_cases hstep with
    | accept _ _ hfree hs' =>
      subst hs'
      by_cases hu : u = t
      · subst hu
        have haccepted : acceptedOn u (acts ++ [.accept u socket past]) =
            acceptedOn u acts ++ [socket] := by
          rw [acceptedOn_append, Act.socketFor, if_pos rfl]
          rfl
        have hconn : Function.update s.conns u (some (Conn.start u socket past)) u =
            some (Conn.start u socket past) := Function.update_self ..
        obtain ⟨hclient, hdelivers⟩ := hlegal socket past rfl
        obtain ⟨hrequests, hanswers⟩ := h.vacant hfree
        refine ⟨fun hnone => ?_, fun c hc => ?_⟩
        · cases hconn.symm.trans hnone
        · cases hconn.symm.trans hc
          exact ⟨_, socket, _, Thread.start (.initial u past) socket initQueuePool, [], client socket,
            haccepted, (List.append_nil _).symm, rfl, hrequests, hanswers,
            Thread.start_inSession u _ _ hclient.order hdelivers⟩
      · exact h.of_other (Function.update_of_ne (Ne.symm hu) ..) rfl (hsame (if_neg hu))
  | run u writes =>
    replace hstep := step_run_allTaken hstep
    simp only [Broker.step] at hstep
    split at hstep
    · cases hstep
    · rename_i c hc
      split at hstep
      · rename_i m' point' w' hthread
        cases hstep
        by_cases hu : u = t
        · subst hu
          obtain ⟨earlier, socket, before, th, done, todo, haccepted, hcalls, rfl, hrequests,
            hanswers, hsession⟩ := h.occupied c hc
          have hfits : ∀ entry ∈ client socket, entry.2.Fits :=
            (hearlier socket (haccepted ▸ List.mem_append_right _ (List.mem_singleton_self _))).fits
          obtain ⟨done', todo', hsession'⟩ := hsession.step hfits (Thread.step_of_ok hthread)
          refine ⟨fun hnone => ?_, fun c' hc' => ?_⟩
          · rw [commit_conns_self] at hnone
            cases hnone
          · rw [commit_conns_self] at hc'
            cases hc'
            refine ⟨earlier, socket, before, _, done', todo', (hsame rfl).trans haccepted, ?_, rfl,
              hrequests, hanswers, hsession'⟩
            rw [Broker.commit, callsOf_append_self, hcalls, List.append_assoc]
            rfl
        · exact h.of_other (commit_conns_of_ne _ (Ne.symm hu) _ _ _) (callsOf_append_of_ne hu _ _)
            (hsame rfl)
      · cases hstep
  | close u =>
    cases step_cases hstep with
    | close hc hended hs' =>
      subst hs'
      by_cases hu : u = t
      · subst hu
        obtain ⟨earlier, socket, before, th, done, todo, haccepted, hcalls, rfl, hrequests,
          hanswers, hsession⟩ := h.occupied _ hc
        obtain ⟨hlastRequests, hlastAnswers⟩ := hsession.ended hended.symm
        refine ⟨fun _ => ⟨?_, ?_⟩, fun c hnew => ?_⟩
        · change requestsOf u (callsOf u s.history) = _
          rw [hsame rfl, haccepted, hcalls, requestsOf_append, hrequests, hlastRequests,
            requestsOfAll, requestsOfAll, List.flatMap_append, List.flatMap_singleton]
        · change answersOf (callsOf u s.history) = _
          rw [hsame rfl, haccepted, hcalls, answersOf_append, hanswers, hlastAnswers,
            answersToAll, answersToAll, List.flatMap_append, List.flatMap_singleton]
        · cases (Function.update_self ..).symm.trans hnew
      · exact h.of_other (Function.update_of_ne (Ne.symm hu) ..) rfl (hsame rfl)
  | spurious u => cases hspurious

/-- The sessions on a slot over a whole run. -/
theorem servesSlot_of_exec (hlegal : LegalClients client acts)
    (hspurious : ∀ act ∈ acts, act.isSpurious = false)
    (hrun : exec (Broker.step grain) initial acts = .ok s) (t : ℤ) : ServesSlot client acts s t := by
  induction acts using List.reverseRecOn generalizing s with
  | nil =>
    cases hrun
    refine ⟨fun _ => ⟨rfl, rfl⟩, fun c hc => ?_⟩
    cases hc
  | append_singleton acts act ih =>
    obtain ⟨middle, hbefore, hlast⟩ := exec_append_eq_ok.mp hrun
    obtain ⟨_, hstep, hnil⟩ := exec_cons_eq_ok.mp hlast
    cases hnil
    have hearlier : LegalClients client acts := fun u socket past hmem =>
      hlegal u socket past (List.mem_append_left _ hmem)
    have hslot := ih hearlier (fun b hb => hspurious b (List.mem_append_left _ hb)) hbefore
    have hact : act ∈ acts ++ [act] := List.mem_append_right _ (List.mem_singleton_self _)
    refine hslot.step (fun socket hsocket => ?_) (fun socket past haccept => ?_) (hspurious act hact)
      hstep
    · obtain ⟨past, haccepted⟩ := mem_of_acceptedOn hsocket
      exact (hearlier t socket past haccepted).legal
    · exact hlegal t socket past (haccept ▸ hact)

/-- What a message broker was asked for on a slot, and what was answered: all that is in the
scripts of the clients before, and the frames taken so far of the one that is there. -/
structure Attended (client : Socket → List (UInt16 × ClientFrame)) (acts : List Act) (s : Broker)
    (ops : List SpecOp) (t : ℤ) : Prop where
  vacant : s.conns t = none →
    requestsBy t ops = requestsOfAll client t (acceptedOn t acts) ∧
      answersOf (callsOf t s.history) = answersToAll client (acceptedOn t acts)
  occupied : ∀ c, s.conns t = some c → ∃ earlier socket done todo,
    acceptedOn t acts = earlier ++ [socket] ∧ client socket = done ++ todo ∧
      requestsBy t ops ++ c.machine.owedRequests t =
        requestsOfAll client t earlier ++ scriptRequests t done ∧
      answersOf (callsOf t s.history) ++ c.machine.owedAnswers =
        answersToAll client earlier ++ startMethod :: scriptAnswers done ∧
      (c.machine ≠ fail → c.socket.Delivers (c.machine.preamble ++ encodeScript todo)) ∧
      (c.machine = fail ∨ c.machine = finished → todo = [])

/-- The operations that the calls of a run are hold what its clients have asked for. -/
theorem attended_of_exec (hlegal : LegalClients client acts)
    (hspurious : ∀ act ∈ acts, act.isSpurious = false)
    (hrun : exec (Broker.step grain) initial acts = .ok s) {ops : List SpecOp}
    (hcalled : opsOf s.history = ops.filter MessageOp.isCall) (t : ℤ) :
    s.Attended client acts ops t := by
  have hasked : requestsBy t ops = requestsOf t (callsOf t s.history) := by
    rw [← requestsBy_filter_isCall, ← hcalled, requestsBy_opsOf]
  have hslot := servesSlot_of_exec hlegal hspurious hrun t
  refine ⟨fun hnone => ?_, fun c hc => ?_⟩
  · rw [hasked]
    exact hslot.vacant hnone
  · obtain ⟨earlier, socket, before, th, done, todo, haccepted, hcalls, rfl, hrequests, hanswers,
      hsession⟩ := hslot.occupied c hc
    refine ⟨earlier, socket, done, todo, haccepted, hsession.split, ?_, ?_, hsession.delivers,
      hsession.todo_eq_nil⟩
    · rw [hasked, hcalls, requestsOf_append, List.append_assoc, hsession.requests, hrequests]
    · rw [hcalls, answersOf_append, List.append_assoc, hsession.answers, hanswers]

/-- A process whose clients send what they may is a message broker that is asked for what their
frames say: the requests of each slot are those of its clients one after the other, in the order
of their frames, none left out, none added and none twice, and so are the answers. -/
theorem legal_clients_served (hlegal : LegalClients client acts)
    (hspurious : ∀ act ∈ acts, act.isSpurious = false)
    (hrun : exec (Broker.step grain) initial acts = .ok s) :
    ∃ ops b, exec MessageBroker.step MessageBroker.initial ops = .ok b ∧ s.Represents b ∧
      opsOf s.history = ops.filter MessageOp.isCall ∧ ∀ t, s.Attended client acts ops t := by
  obtain ⟨ops, b, hops, hrefines⟩ := (simulates grain).exists_exec ⟨.refl, represents_initial, rfl⟩
    (reaches_of_exec_of_forall hrun hspurious)
  exact ⟨ops, b, hops, hrefines.represents, hrefines.calls,
    attended_of_exec hlegal hspurious hrun hrefines.calls⟩

/-- A client that consumes the message it has published, and is gone before it acknowledges. -/
def ownConsumer : List (UInt16 × ClientFrame) :=
  [(0, .startOk []), (0, .tuneOk []), (0, .openConnection []), (1, .openChannel []),
    (1, .declare 0 [113] [0, 0, 0, 0, 0]), (1, .publish 0 [] [113] [0]), (1, .contentHeader []),
    (1, .body [104, 105]), (1, .closeChannel []), (1, .openChannel []), (1, .consume 0 [113] [0])]

/-- The socket of such a client. -/
def ownSocket : Socket := Socket.chunk (defaultAmqpHeader ++ encodeScript ownConsumer)

/-- Two of them after each other on one slot, the second of which has declared its queue. -/
def consumersInTurn : List Act :=
  .accept 0 ownSocket :: List.replicate 27 (.run 0) ++
    .close 0 :: .accept 0 ownSocket :: List.replicate 11 (.run 0)

/-- Both clients of the run send what they may. -/
theorem legalClients_consumersInTurn : LegalClients (fun _ => ownConsumer) consumersInTurn := by
  intro t socket past hmem
  have hsocket : socket = ownSocket := by
    simp only [consumersInTurn, List.mem_append, List.mem_cons, List.mem_replicate, Act.accept.injEq,
      reduceCtorEq, and_false, or_false, false_or] at hmem
    exact hmem.elim (fun h => h.2.1) fun h => h.2.1
  subst hsocket
  exact ⟨by decide, Socket.chunk_delivers _⟩

/-- Nobody wakes up by itself in the run. -/
theorem isSpurious_consumersInTurn : ∀ act ∈ consumersInTurn, act.isSpurious = false := by
  intro act hact
  simp only [consumersInTurn, List.mem_append, List.mem_cons, List.mem_replicate] at hact
  rcases hact with (rfl | ⟨-, rfl⟩) | rfl | rfl | ⟨-, rfl⟩ <;> rfl

/-- Two clients on one slot, the second after the first has left. -/
theorem legal_clients_served_consumersInTurn :
    ∃ s, exec (Broker.step .fine) initial consumersInTurn = .ok s ∧
      requestsBy 0 (opsOf s.history) = [.declare 0 [113], .select 0 [113], .publish 0 [104, 105],
        .select 0 [113], .attach 0, .declare 0 [113]] ∧
      ∃ ops b, exec MessageBroker.step MessageBroker.initial ops = .ok b ∧ s.Represents b ∧
        opsOf s.history = ops.filter MessageOp.isCall ∧
        ∀ t, s.Attended (fun _ => ownConsumer) consumersInTurn ops t := by
  have hobserved : (exec (Broker.step .fine) initial consumersInTurn).toOption.map
      (fun s => requestsBy 0 (opsOf s.history)) = some [.declare 0 [113], .select 0 [113],
        .publish 0 [104, 105], .select 0 [113], .attach 0, .declare 0 [113]] := by decide +kernel
  obtain ⟨s, hrun, hview⟩ := exec_observed hobserved
  exact ⟨s, hrun, hview, legal_clients_served legalClients_consumersInTurn
    isSpurious_consumersInTurn hrun⟩

end Broker

end AmqpBroker
