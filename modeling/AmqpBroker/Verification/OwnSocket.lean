import AmqpBroker.Verification.ProcessRuns

/-!
# The connection that a thread serves

`main` leaves the descriptor and the number of a connection in a slot, and the thread reads
them there after it was started. They are still the ones of its own `accept` then, whatever
`main` and the other threads have done since.
-/

namespace AmqpBroker

open Foundations

namespace Process

open Server

variable {grain : Grain} {p p' : Process} {n : ℕ} {k : ℤ}

/-- What `accept` has returned in a run, in order. -/
def accepted (acts : List ProcessAct) : List (ℤ × Socket) :=
  acts.filterMap fun
    | .accept connfd socket => some (connfd, socket)
    | _ => none

/-- The threads were started one for each connection, and each of those that are inside
`state_machine_main` has the descriptor and the socket of its own. -/
structure Serves (p : Process) (served : List (ℤ × Socket)) : Prop where
  started : p.server.started = served.length
  own : ∀ n k, p.server.Inside n k → ∃ socket,
    served[n]? = some ((p.server.threads k).connfd, socket) ∧
      p.sockets (p.server.threads k).connfd = some socket

variable {served : List (ℤ × Socket)}

/-- A step that starts no thread serves the same connections. -/
theorem Serves.same (h : p.Serves served) {server : Server} (hsame : SameInside p.server server)
    (hstarted : server.started = p.server.started) : Serves { p with server := server } served where
  started := hstarted.trans h.started
  own := by
    intro n k hin
    obtain ⟨socket, hserved, hsocket⟩ := h.own n k ((hsame.inside n k).mp hin)
    refine ⟨socket, ?_, ?_⟩
    · change _ = some ((server.threads k).connfd, socket)
      rwa [hsame.connfd]
    · change p.sockets (server.threads k).connfd = _
      rwa [hsame.connfd]

/-- A step that leaves the table and the sockets alone. -/
theorem Serves.congr (h : p.Serves served) (hserver : p'.server = p.server)
    (hsockets : p'.sockets = p.sockets) : p'.Serves served where
  started := hserver.symm ▸ h.started
  own := by
    rw [hserver, hsockets]
    exact h.own

/-- `accept` adds the connection of the thread that starts. -/
theorem Serves.accept (h : p.Serves served) (hok : p.Ok) {connfd : ℤ} {socket : Socket}
    {server : Server} (hclosed : p.sockets connfd = none)
    (hstep : p.server.step (.accept connfd) = .ok server) :
    Serves { p with
      sockets := Function.update p.sockets connfd (some socket)
      server := server } (served ++ [(connfd, socket)]) := by
  obtain ⟨hinside, hnew, hold⟩ := inside_accept hok.core hstep
  have hstarted : server.started = p.server.started + 1 := by
    cases Server.step_cases hstep
    rfl
  refine ⟨?_, fun n k hin => ?_⟩
  · change server.started = _
    rw [hstarted, h.started, List.length_append, List.length_singleton]
  · change ∃ socket', _ = some ((server.threads k).connfd, socket') ∧
      Function.update p.sockets connfd (some socket) (server.threads k).connfd = some socket'
    obtain ⟨rfl, rfl⟩ | hin := (hinside n k).mp hin
    · refine ⟨socket, ?_, ?_⟩
      · rw [hnew, h.started, List.getElem?_append_right le_rfl]
        simp
      · rw [hnew, Function.update_self]
    · obtain ⟨socket', hserved, hsocket⟩ := h.own n k hin
      have hne : (p.server.threads k).connfd ≠ connfd := by
        intro hsame
        rw [hsame, hclosed] at hsocket
        cases hsocket
      obtain ⟨hlt, -⟩ := List.getElem?_eq_some_iff.mp hserved
      refine ⟨socket', ?_, ?_⟩
      · rw [hold n k hin, List.getElem?_append_left hlt, hserved]
      · rw [hold n k hin, Function.update_of_ne hne, hsocket]

/-- A thread that ends leaves the connections of the others. -/
theorem Serves.leave (h : p.Serves served) (hok : p.Ok) (hin : p.server.Inside n k)
    (hstep : p.leave n (p.server.threads k) = .ok p') : p'.Serves served := by
  obtain ⟨server, hserver, rfl⟩ := serverStep_eq_ok hstep
  obtain ⟨hinside, hthreads⟩ := inside_ended hin hserver
  have hstarted : server.started = p.server.started := by
    cases Server.step_cases hserver <;> rfl
  refine ⟨hstarted.trans h.started, fun m l hm => ?_⟩
  obtain ⟨hmn, hl⟩ := (hinside m l).mp hm
  obtain ⟨socket, hserved, hsocket⟩ := h.own m l hl
  change ∃ socket, _ = some ((server.threads l).connfd, socket) ∧
    Function.update p.sockets _ none (server.threads l).connfd = some socket
  rw [hthreads, Function.update_of_ne fun hfd => hmn (hok.unshared m n l k hl hin hfd)]
  exact ⟨socket, hserved, hsocket⟩

/-- A step of a thread serves the same connections. -/
theorem Serves.connection (h : p.Serves served) (hok : p.Ok) {past : PastConsumeOkArgs}
    {writes : List WriteResult} (hstep : p.connectionStep grain n past writes = .ok p') :
    p'.Serves served := by
  unfold connectionStep at hstep
  split at hstep
  · rename_i k hin
    split at hstep
    · unfold begin at hstep
      split at hstep
      · cases hstep
      · cases hstep
        exact h.congr rfl rfl
    · unfold machineStep at hstep
      split at hstep
      · exact h.leave hok hin hstep
      · split at hstep
        · cases hstep
          exact h.congr rfl rfl
        · cases hstep
  · rename_i hnot
    obtain ⟨server, hserver, rfl⟩ := serverStep_eq_ok hstep
    refine h.same (sameInside_connection (fun k hin => hnot k hin) hserver) ?_
    cases Server.step_cases hserver <;> rfl

/-- A wakeup that nobody caused leaves the table and the sockets alone. -/
theorem spuriousStep_keeps (hstep : p.spuriousStep n = .ok p') :
    p'.server = p.server ∧ p'.sockets = p.sockets := by
  unfold spuriousStep at hstep
  split at hstep
  · split at hstep
    · split at hstep
      · cases hstep
        exact ⟨rfl, rfl⟩
      · cases hstep
    · cases hstep
  · cases hstep

/-- Every step serves the connections that were accepted, in their order. -/
theorem Serves.step {a : ProcessAct} (h : p.Serves served) (hok : p.Ok)
    (hstep : p.step grain a = .ok p') : p'.Serves (served ++ accepted [a]) := by
  cases a with
  | main =>
    obtain ⟨server, hserver, rfl⟩ := serverStep_eq_ok hstep
    have hstarted : server.started = p.server.started := by
      cases Server.step_cases hserver <;> rfl
    simpa [accepted] using h.same (sameInside_main hserver) hstarted
  | accept connfd socket =>
    simp only [Process.step] at hstep
    split at hstep
    · cases hstep
    · rename_i hclosed
      obtain ⟨server, hserver, rfl⟩ := serverStep_eq_ok hstep
      exact h.accept hok (by simpa using hclosed) hserver
  | connection n past writes => simpa [accepted] using h.connection hok hstep
  | spurious n =>
    rw [show accepted [.spurious n] = [] from rfl, List.append_nil]
    obtain ⟨hserver, hsockets⟩ := spuriousStep_keeps hstep
    exact h.congr hserver hsockets

/-- In every run the threads serve the connections that `accept` returned. -/
theorem serves_of_exec {acts : List ProcessAct}
    (h : exec (Process.step grain) initial acts = .ok p) : p.Serves (accepted acts) := by
  induction acts using List.reverseRecOn generalizing p with
  | nil =>
    obtain rfl := Except.ok.inj h
    refine ⟨rfl, ?_⟩
    intro n k hin
    cases hin
  | append_singleton acts a ih =>
    obtain ⟨q, hq, hlast⟩ := exec_append_eq_ok.mp h
    obtain ⟨p', hstep, hnil⟩ := exec_cons_eq_ok.mp hlast
    obtain rfl := Except.ok.inj hnil
    rw [show accepted (acts ++ [a]) = accepted acts ++ accepted [a] from List.filterMap_append]
    exact (ih hq).step (ok_of_reaches (reaches_of_exec hq)) hstep

/-- A thread that is about to enter `state_machine_main` always can. It then has the socket of
its own `accept` and the number of its slot, which is inside the table, and neither this
number nor its descriptor is that of another thread there. -/
theorem begins_on_own_socket {acts : List ProcessAct}
    (h : exec (Process.step grain) initial acts = .ok p) (hin : p.server.Inside n k)
    (hconn : p.conns n = none) :
    (∃ socket, (accepted acts)[n]? = some ((p.server.threads k).connfd, socket) ∧
      ∀ past writes, p.step grain (.connection n past writes) =
        .ok { p with conns := Function.update p.conns n (some (Conn.start k socket past)) }) ∧
      (0 ≤ k ∧ k < maxConnections) ∧
      ∀ m l, p.server.Inside m l → m ≠ n →
        l ≠ k ∧ (p.server.threads l).connfd ≠ (p.server.threads k).connfd := by
  have hok := ok_of_reaches (reaches_of_exec h)
  obtain ⟨socket, hserved, hsocket⟩ := (serves_of_exec h).own n k hin
  refine ⟨⟨socket, hserved, ?_⟩, hok.core.inside_range hin, fun m l hm hmn => ⟨?_, ?_⟩⟩
  · intro past writes
    change p.connectionStep grain n past writes = _
    unfold connectionStep
    rw [show p.server.running n = some ⟨k, .stateMachine⟩ from hin]
    simp only [hconn, begin, hsocket, hok.core.inside_threadId hin]
  · rintro rfl
    exact hmn (hok.core.inside_unshared hm hin)
  · intro hfd
    exact hmn (hok.unshared m n l k hm hin hfd)

/-- Two threads that are about to begin, each on its own socket. -/
theorem begins_on_own_socket_serveTwo :
    ∃ p, exec (Process.step .fine) initial serveTwo = .ok p ∧
      (∃ socket, (accepted serveTwo)[0]? = some ((p.server.threads 0).connfd, socket) ∧
        ∀ past writes, p.step .fine (.connection 0 past writes) =
          .ok { p with conns := Function.update p.conns 0 (some (Conn.start 0 socket past)) }) ∧
        ((0 : ℤ) ≤ 0 ∧ (0 : ℤ) < maxConnections) ∧
        ∀ m l, p.server.Inside m l → m ≠ 0 →
          l ≠ 0 ∧ (p.server.threads l).connfd ≠ (p.server.threads 0).connfd := by
  obtain ⟨p, hrun, hin, hconn, -⟩ := exec_serveTwo
  exact ⟨p, hrun, begins_on_own_socket hrun hin hconn⟩

end Process

end AmqpBroker
