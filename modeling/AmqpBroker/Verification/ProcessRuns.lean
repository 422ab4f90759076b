import AmqpBroker.Foundations.Simulation
import AmqpBroker.Model.Process
import AmqpBroker.Verification.Slots

/-!
# The process runs the broker

The broker takes for granted that an accepted connection comes with a thread number inside
the table that no running thread has. Here the accept loop and its table supply it: every
run of the process is, on the shared memory and the history, a run of the broker. A search
that leaves the table ends the process, so no condition on the searches is needed.
-/

namespace AmqpBroker

open Foundations

namespace Server

/-! ## The table while a search is under way -/

/-- The server as it was when `main` asked for the mutex, if it is looking for a slot. -/
def settled (s : Server) : Server :=
  match s.main with
  | .search _ => { s with main := .lock, threadAllocationMutex := none }
  | .sleep => { s with main := .lock, threadAllocationMutex := none }
  | _ => s

/-- `main` is looking for a slot. -/
def Probing (s : Server) : Prop := (∃ i, s.main = .search i) ∨ s.main = .sleep

/-- What holds of the server between two steps, whether or not the search will fit. -/
structure Core (s : Server) : Prop where
  holds : s.Probing → s.threadAllocationMutex = some .main
  sound : s.settled.Sound

variable {s s' : Server} {n m : ℕ} {k l : ℤ}

/-- The search touches no thread. -/
@[simp] theorem settled_running (s : Server) : s.settled.running = s.running := by
  unfold settled
  split <;> rfl

/-- The search touches no slot. -/
@[simp] theorem settled_threads (s : Server) : s.settled.threads = s.threads := by
  unfold settled
  split <;> rfl

/-- The search touches no counter. -/
@[simp] theorem settled_threadCount (s : Server) : s.settled.threadCount = s.threadCount := by
  unfold settled
  split <;> rfl

/-- Before its search `main` asked for the mutex. -/
theorem settled_of_probing (h : s.Probing) :
    s.settled = { s with main := .lock, threadAllocationMutex := none } := by
  obtain ⟨i, hi⟩ | hi := h <;> simp only [settled, hi]

/-- Outside a search nothing is undone. -/
theorem settled_of_not_probing (h : ¬ s.Probing) : s.settled = s := by
  unfold settled
  split
  · rename_i i hi
    exact absurd (.inl ⟨i, hi⟩) h
  · rename_i hi
    exact absurd (.inr hi) h
  · rfl

/-- The server before its first step. -/
theorem Core.initial : Core Server.initial where
  holds := by
    rintro (⟨i, hi⟩ | hi) <;> cases hi
  sound := Sound.initial

/-- A step within the search changes nothing that lasts. -/
theorem Core.probes (h : s.Core) (hprobing : s.Probing) {point : MainPoint}
    (hpoint : (∃ i, point = .search i) ∨ point = .sleep) : Core { s with main := point } where
  holds := fun _ => h.holds hprobing
  sound := by
    have hsound := h.sound
    rw [settled_of_probing hprobing] at hsound
    rw [settled_of_probing (s := { s with main := point }) hpoint]
    exact hsound

/-- A step outside the search that does not start one. -/
theorem Core.of_sound (hsound : s.Sound) (hnot : ¬ s.Probing) : s.Core where
  holds := fun hprobing => absurd hprobing hnot
  sound := (settled_of_not_probing hnot).symm ▸ hsound

/-- Outside a search the table is sound. -/
theorem Core.sound_of_not_probing (h : s.Core) (hnot : ¬ s.Probing) : s.Sound :=
  settled_of_not_probing hnot ▸ h.sound

/-- The slot that a search finds makes it one that fits. -/
theorem Core.choose (h : s.Core) {i : ℤ} (hmain : s.main = .search i)
    (hlow : 0 ≤ s.threadCount + i % maxConnections)
    (hhigh : s.threadCount + i % maxConnections < maxConnections)
    (hfree : (s.threads (s.threadCount + i % maxConnections)).active = false) :
    Core { s.setActive (s.threadCount + i % maxConnections) true with
      threadCount := s.threadCount + i % maxConnections, main := .unlock } := by
  have hprobing : s.Probing := .inl ⟨i, hmain⟩
  have hsettled := h.sound
  rw [settled_of_probing hprobing] at hsettled
  have hpositive : 0 ≤ i % maxConnections := Int.emod_nonneg i (by decide)
  have hbegun := hsettled.begin rfl (.inr ⟨_, by simpa using hpositive, hhigh, hfree⟩)
  have hchosen := hbegun.choose (i := 0) rfl hlow hhigh hfree
  have hmutex := h.holds hprobing
  refine Core.of_sound ?_ (by rintro (⟨j, hj⟩ | hj) <;> cases hj)
  convert hchosen using 2
  simp [setActive, hmutex]

/-- A connection thread's step leaves `main` where it is. -/
theorem main_of_connection (hstep : s.step (.connection n) = .ok s') : s'.main = s.main := by
  cases step_cases hstep <;> rfl

/-- While `main` looks for a slot, a connection thread can only come to the mutex. -/
theorem Core.waits (h : s.Core) (hprobing : s.Probing)
    (hstep : s.step (.connection n) = .ok s') : s'.Core := by
  have hsettled := h.sound
  rw [settled_of_probing hprobing] at hsettled
  have hmutex := h.holds hprobing
  have hafter : s'.Probing := by
    unfold Probing
    rw [main_of_connection hstep]
    exact hprobing
  have hidle : ∀ c, s.running n = some c → ¬ (c.point = .clear ∨ c.point = .unlock) := by
    intro c hc hpoint
    have hown := hsettled.locked n c hc hpoint
    cases hown
  cases step_cases hstep with
  | ended hc hpoint =>
    refine ⟨fun _ => hmutex, ?_⟩
    rw [settled_of_probing hafter]
    refine hsettled.setPoint hc (fun _ => hsettled.taken n _ hc ?_) ?_
    · rw [hpoint]
      decide
    · rintro (hp | hp) <;> cases hp
  | locked hc hpoint hfree =>
    rw [hmutex] at hfree
    cases hfree
  | cleared hc hpoint => exact absurd (.inl hpoint) (hidle _ hc)
  | gone hc hpoint => exact absurd (.inr hpoint) (hidle _ hc)

/-- Where `main` is not during a search. -/
theorem Probing.main_ne (h : s.Probing) :
    s.main ≠ .lock ∧ s.main ≠ .unlock ∧ s.main ≠ .accept := by
  obtain ⟨i, hi⟩ | hi := h <;> simp [hi]

/-- A step of `main` while it looks for a slot. -/
theorem Core.searches (h : s.Core) (hprobing : s.Probing) (hstep : s.step .main = .ok s') :
    s'.Core := by
  cases step_cases hstep with
  | begin hmain _ => exact absurd hmain hprobing.main_ne.1
  | full _ => exact h.probes hprobing (.inr rfl)
  | busy _ _ _ _ _ => exact h.probes hprobing (.inl ⟨_, rfl⟩)
  | choose hmain _ hlow hhigh hfree => exact h.choose hmain hlow hhigh hfree
  | wake _ => exact h.probes hprobing (.inl ⟨_, rfl⟩)
  | leave hmain => exact absurd hmain hprobing.main_ne.2.1

/-- A step of `main` outside its search. -/
theorem Core.goesOn (h : s.Core) (hnot : ¬ s.Probing) (hstep : s.step .main = .ok s') :
    s'.Core := by
  have hsound := h.sound_of_not_probing hnot
  cases step_cases hstep with
  | begin hmain hmutex =>
    refine ⟨fun _ => rfl, ?_⟩
    rw [settled_of_probing (.inl ⟨0, rfl⟩), ← hmutex, ← hmain]
    exact hsound
  | full hmain => exact absurd (.inl ⟨_, hmain⟩) hnot
  | busy hmain _ _ _ _ => exact absurd (.inl ⟨_, hmain⟩) hnot
  | choose hmain _ _ _ _ => exact absurd (.inl ⟨_, hmain⟩) hnot
  | wake hmain => exact absurd (.inr hmain) hnot
  | leave hmain =>
    refine Core.of_sound (hsound.leave hmain) ?_
    rintro (⟨i, hi⟩ | hi) <;> cases hi

/-- Every step keeps the table in order, whether or not its search fits. -/
theorem Core.next {a : ServerAct} (h : s.Core) (hstep : s.step a = .ok s') : s'.Core := by
  cases a with
  | main =>
    by_cases hprobing : s.Probing
    · exact h.searches hprobing hstep
    · exact h.goesOn hprobing hstep
  | accept connfd =>
    cases step_cases hstep with
    | accept hmain _ =>
      have hnot : ¬ s.Probing := fun hprobing => hprobing.main_ne.2.2 hmain
      refine Core.of_sound ((h.sound_of_not_probing hnot).accept hmain connfd) ?_
      rintro (⟨i, hi⟩ | hi) <;> cases hi
  | connection n =>
    by_cases hprobing : s.Probing
    · exact h.waits hprobing hstep
    · have hfits : s.StartsFitting (.connection n) := by
        intro ha
        cases ha
      refine Core.of_sound ((h.sound_of_not_probing hprobing).next hfits hstep) ?_
      unfold Probing
      rw [main_of_connection hstep]
      exact hprobing

/-! ## The threads inside `state_machine_main` -/

/-- The thread runs `state_machine_main` on the slot. -/
def Inside (s : Server) (n : ℕ) (k : ℤ) : Prop := s.running n = some ⟨k, .stateMachine⟩

/-- A thread has one slot. -/
theorem Inside.unique (h : s.Inside n k) (h' : s.Inside n l) : k = l := by
  have hsame := h.symm.trans h'
  simpa using hsame

namespace Core

variable (h : s.Core)
include h

/-- The slot of a thread is in the table. -/
theorem inside_range (hin : s.Inside n k) : 0 ≤ k ∧ k < maxConnections :=
  ⟨h.sound.low n ⟨k, .stateMachine⟩ (by rwa [settled_running]),
    h.sound.high n ⟨k, .stateMachine⟩ (by rwa [settled_running])⟩

/-- The slot of a thread has its number. -/
theorem inside_threadId (hin : s.Inside n k) : (s.threads k).threadId = k := by
  have hown := h.sound.ownId n ⟨k, .stateMachine⟩ (by rwa [settled_running])
  rwa [settled_threads] at hown

/-- A slot has one thread. -/
theorem inside_unshared (hn : s.Inside n k) (hm : s.Inside m k) : n = m :=
  h.sound.unshared n m ⟨k, .stateMachine⟩ ⟨k, .stateMachine⟩ (by rwa [settled_running])
    (by rwa [settled_running]) rfl

/-- The next thread to start has no slot yet. -/
theorem not_inside_started : ¬ s.Inside s.started k := by
  intro hin
  have hfresh := h.sound.fresh s.settled.started le_rfl
  have hstarted : s.settled.started = s.started := by
    unfold settled
    split <;> rfl
  rw [hstarted, settled_running] at hfresh
  rw [Inside, hfresh] at hin
  cases hin

end Core

/-- The threads inside `state_machine_main` and their descriptors are the same. -/
structure SameInside (s s' : Server) : Prop where
  inside : ∀ n k, s'.Inside n k ↔ s.Inside n k
  connfd : ∀ k, (s'.threads k).connfd = (s.threads k).connfd

/-- Setting `active` leaves the descriptors as they are. -/
theorem connfd_setActive (s : Server) (k l : ℤ) (value : Bool) :
    ((s.setActive k value).threads l).connfd = (s.threads l).connfd := by
  by_cases hl : l = k
  · simp [setActive, hl]
  · simp [setActive, Function.update_of_ne hl]

/-- A thread that is not inside before a step on it and not inside after it. -/
theorem inside_update {next : Option ConnectionThreadMain} (hnot : ∀ k, ¬ s.Inside n k)
    (hnext : ∀ k, next ≠ some ⟨k, .stateMachine⟩) (m : ℕ) (k : ℤ) :
    Function.update s.running n next m = some ⟨k, .stateMachine⟩ ↔ s.Inside m k := by
  by_cases hm : m = n
  · rw [hm, Function.update_self]
    exact iff_of_false (hnext k) (hnot k)
  · rw [Function.update_of_ne hm, Inside]

/-- A step of `main` leaves the threads where they are. -/
theorem sameInside_main (hstep : s.step .main = .ok s') : SameInside s s' := by
  cases step_cases hstep with
  | choose _ _ _ _ _ => exact ⟨fun _ _ => Iff.rfl, fun l => connfd_setActive s _ l true⟩
  | _ => exact ⟨fun _ _ => Iff.rfl, fun _ => rfl⟩

/-- A thread that is outside moves on. -/
theorem sameInside_connection (hnot : ∀ k, ¬ s.Inside n k)
    (hstep : s.step (.connection n) = .ok s') : SameInside s s' := by
  cases step_cases hstep with
  | @ended _ c hc hpoint =>
    obtain ⟨k, point⟩ := c
    obtain rfl : point = .stateMachine := hpoint
    exact absurd hc (hnot k)
  | locked _ _ _ => exact ⟨inside_update hnot (by simp), fun _ => rfl⟩
  | cleared _ _ =>
    exact ⟨inside_update hnot (by simp), fun l => connfd_setActive s _ l false⟩
  | gone _ _ => exact ⟨inside_update hnot (by simp), fun _ => rfl⟩

/-- The thread that leaves `state_machine_main` is the only one that does. -/
theorem inside_ended (hin : s.Inside n k) (hstep : s.step (.connection n) = .ok s') :
    (∀ m l, s'.Inside m l ↔ m ≠ n ∧ s.Inside m l) ∧ s'.threads = s.threads := by
  obtain rfl : s' = s.setPoint n ⟨k, .stateMachine⟩ .lock := by
    have hrun : s.step (.connection n) = .ok (s.setPoint n ⟨k, .stateMachine⟩ .lock) := by
      change s.connectionStep n = _
      unfold connectionStep
      rw [show s.running n = some ⟨k, .stateMachine⟩ from hin]
    exact Except.ok.inj (hstep.symm.trans hrun)
  refine ⟨fun m l => ?_, rfl⟩
  change Function.update s.running n _ m = some ⟨l, .stateMachine⟩ ↔ _
  by_cases hm : m = n
  · simp [hm]
  · simp [hm, Inside]

/-- What `main` does with the connection that `accept` returned. -/
theorem inside_accept (h : s.Core) {connfd : ℤ} (hstep : s.step (.accept connfd) = .ok s') :
    (∀ m l, s'.Inside m l ↔ m = s.started ∧ l = s.threadCount ∨ s.Inside m l) ∧
      (s'.threads s.threadCount).connfd = connfd ∧
      ∀ m l, s.Inside m l → (s'.threads l).connfd = (s.threads l).connfd := by
  cases step_cases hstep with
  | accept hmain _ =>
    have hnot : ¬ s.Probing := fun hprobing => hprobing.main_ne.2.2 hmain
    have hsound := h.sound_of_not_probing hnot
    refine ⟨fun m l => ?_, ?_, fun m l hin => ?_⟩
    · change Function.update s.running s.started _ m = some ⟨l, .stateMachine⟩ ↔ _
      by_cases hm : m = s.started
      · have hfresh := hsound.fresh s.started le_rfl
        simp [hm, Inside, hfresh, eq_comm]
      · simp [hm, Inside]
    · simp
    · have hne : l ≠ s.threadCount := hsound.apart (.inr hmain) m ⟨l, .stateMachine⟩ hin
      simp [Function.update_of_ne hne]

end Server

namespace Process

open Server

/-! ## What every state satisfies -/

/-- What holds of the process between two steps: only threads inside `state_machine_main`
have a connection, and each of them has an open descriptor of its own. -/
structure Ok (p : Process) : Prop where
  core : p.server.Core
  inside : ∀ n conn, p.conns n = some conn → ∃ k, p.server.Inside n k
  opened : ∀ n k, p.server.Inside n k → (p.sockets (p.server.threads k).connfd).isSome
  unshared : ∀ n m k l, p.server.Inside n k → p.server.Inside m l →
    (p.server.threads k).connfd = (p.server.threads l).connfd → n = m

/-- The broker has the memory and the history of the process, and the connections of its
threads by the slots they run on. -/
structure MatchedBy (p : Process) (b : Broker) : Prop where
  store : b.store = p.store
  history : b.history = p.history
  conns : ∀ t conn, b.conns t = some conn ↔ ∃ n, p.server.Inside n t ∧ p.conns n = some conn

variable {grain : Grain} {p p' : Process} {b : Broker} {n : ℕ} {k : ℤ} {conn : Conn}

/-- A step of the table leaves the rest of the process. -/
theorem serverStep_eq_ok {a : ServerAct} (h : p.serverStep a = .ok p') :
    ∃ server, p.server.step a = .ok server ∧ p' = { p with server := server } := by
  unfold serverStep at h
  split at h
  · rename_i server hserver
    exact ⟨server, hserver, (Except.ok.inj h).symm⟩
  · cases h

/-- A step of the server that no thread inside `state_machine_main` notices. -/
theorem Ok.same (h : p.Ok) {a : ServerAct} {server : Server} (hstep : p.server.step a = .ok server)
    (hsame : SameInside p.server server) : Ok { p with server := server } where
  core := h.core.next hstep
  inside := by
    intro n conn hconn
    obtain ⟨k, hin⟩ := h.inside n conn hconn
    exact ⟨k, (hsame.inside n k).mpr hin⟩
  opened := by
    intro n k hin
    change (p.sockets (server.threads k).connfd).isSome
    rw [hsame.connfd]
    exact h.opened n k ((hsame.inside n k).mp hin)
  unshared := by
    intro n m k l hn hm hfd
    change (server.threads k).connfd = (server.threads l).connfd at hfd
    rw [hsame.connfd, hsame.connfd] at hfd
    exact h.unshared n m k l ((hsame.inside n k).mp hn) ((hsame.inside m l).mp hm) hfd

/-- A step that the connections do not see is matched by no step. -/
theorem MatchedBy.same (h : p.MatchedBy b) {server : Server} (hsame : SameInside p.server server) :
    MatchedBy { p with server := server } b where
  store := h.store
  history := h.history
  conns := by
    intro t conn
    rw [h.conns t conn]
    exact exists_congr fun n => and_congr_left fun _ => (hsame.inside n t).symm

/-! ## The steps of `main` -/

/-- `main` starts a thread on the descriptor that `accept` returned. -/
theorem Ok.accept (h : p.Ok) {connfd : ℤ} {socket : Socket} {server : Server}
    (hclosed : p.sockets connfd = none) (hstep : p.server.step (.accept connfd) = .ok server) :
    Ok { p with
      sockets := Function.update p.sockets connfd (some socket)
      server := server } := by
  obtain ⟨hinside, hnew, hold⟩ := inside_accept h.core hstep
  have hfd : ∀ m l, p.server.Inside m l → (p.server.threads l).connfd ≠ connfd := by
    intro m l hin hsame
    have hopen := h.opened m l hin
    rw [hsame, hclosed] at hopen
    cases hopen
  refine ⟨h.core.next hstep, fun n conn hconn => ?_, fun n k hin => ?_, fun n m k l hn hm hsame => ?_⟩
  · obtain ⟨k, hin⟩ := h.inside n conn hconn
    exact ⟨k, (hinside n k).mpr (.inr hin)⟩
  · change (Function.update p.sockets connfd (some socket) (server.threads k).connfd).isSome
    obtain ⟨-, rfl⟩ | hin := (hinside n k).mp hin
    · rw [hnew, Function.update_self]
      rfl
    · rw [hold n k hin, Function.update_of_ne (hfd n k hin)]
      exact h.opened n k hin
  · change (server.threads k).connfd = (server.threads l).connfd at hsame
    obtain ⟨rfl, rfl⟩ | hn := (hinside n k).mp hn <;> obtain ⟨rfl, rfl⟩ | hm := (hinside m l).mp hm
    · rfl
    · rw [hnew, hold m l hm] at hsame
      exact absurd hsame.symm (hfd m l hm)
    · rw [hnew, hold n k hn] at hsame
      exact absurd hsame (hfd n k hn)
    · rw [hold n k hn, hold m l hm] at hsame
      exact h.unshared n m k l hn hm hsame

/-- The broker learns of a connection only when its thread begins. -/
theorem MatchedBy.accept (h : p.MatchedBy b) (hok : p.Ok) {connfd : ℤ} {sockets : ℤ → Option Socket}
    {server : Server} (hstep : p.server.step (.accept connfd) = .ok server) :
    MatchedBy { p with sockets := sockets, server := server } b where
  store := h.store
  history := h.history
  conns := by
    intro t conn
    rw [h.conns t conn]
    refine exists_congr fun n => and_congr_left fun hconn => ?_
    change _ ↔ server.Inside n t
    rw [(inside_accept hok.core hstep).1 n t]
    refine ⟨.inr, ?_⟩
    rintro (⟨rfl, -⟩ | hin)
    · obtain ⟨k, hin⟩ := hok.inside _ conn hconn
      exact absurd hin hok.core.not_inside_started
    · exact hin

/-! ## The steps of a thread inside `state_machine_main` -/

/-- The thread's connection in the broker. -/
theorem MatchedBy.conns_eq (h : p.MatchedBy b) (hok : p.Ok) (hin : p.server.Inside n k) :
    b.conns k = p.conns n := by
  cases hconn : p.conns n with
  | some conn => exact (h.conns k conn).mpr ⟨n, hin, hconn⟩
  | none =>
    cases hb : b.conns k with
    | none => rfl
    | some conn =>
      obtain ⟨m, hm, hconn'⟩ := (h.conns k conn).mp hb
      obtain rfl := hok.core.inside_unshared hm hin
      rw [hconn] at hconn'
      cases hconn'

/-- The connection of one thread is replaced on both sides. -/
theorem MatchedBy.replaced (h : p.MatchedBy b) (hok : p.Ok) (hin : p.server.Inside n k)
    {server : Server} {next : Option Conn} (hself : ∀ conn, next = some conn → server.Inside n k)
    (hsingle : ∀ l, server.Inside n l → l = k)
    (hother : ∀ m l, m ≠ n → (server.Inside m l ↔ p.server.Inside m l)) (t : ℤ) (conn : Conn) :
    Function.update b.conns k next t = some conn ↔
      ∃ m, server.Inside m t ∧ Function.update p.conns n next m = some conn := by
  by_cases ht : t = k
  · subst ht
    rw [Function.update_self]
    refine ⟨fun hnext => ⟨n, hself conn hnext, by rwa [Function.update_self]⟩, ?_⟩
    rintro ⟨m, hm, hconn⟩
    by_cases hmn : m = n
    · rwa [hmn, Function.update_self] at hconn
    · exact absurd (hok.core.inside_unshared ((hother m t hmn).mp hm) hin) hmn
  · rw [Function.update_of_ne ht, h.conns t conn]
    refine exists_congr fun m => ?_
    by_cases hmn : m = n
    · subst hmn
      exact iff_of_false (fun hm => ht (hm.1.unique hin)) fun hm => ht (hsingle t hm.1)
    · rw [hother m t hmn, Function.update_of_ne hmn]

/-- The thread stays inside with its connection replaced. -/
theorem Ok.stays (h : p.Ok) (hin : p.server.Inside n k) {store : Store} {next : Conn}
    {history : List (ℤ × Event)} :
    Ok { p with
      store := store
      conns := Function.update p.conns n (some next)
      history := history } where
  core := h.core
  inside := by
    intro m conn hconn
    by_cases hm : m = n
    · exact ⟨k, hm ▸ hin⟩
    · change Function.update p.conns n (some next) m = some conn at hconn
      rw [Function.update_of_ne hm] at hconn
      exact h.inside m conn hconn
  opened := h.opened
  unshared := h.unshared

/-- A step of one thread is matched by that of its connection. -/
theorem MatchedBy.stays (h : p.MatchedBy b) (hok : p.Ok) (hin : p.server.Inside n k) {store : Store}
    {next : Conn} {events : List (ℤ × Event)} :
    MatchedBy
      { p with
        store := store
        conns := Function.update p.conns n (some next)
        history := p.history ++ events }
      { store := store
        conns := Function.update b.conns k (some next)
        history := b.history ++ events } where
  store := rfl
  history := congrArg (· ++ events) h.history
  conns := h.replaced hok hin (fun _ _ => hin) (fun _ hl => hl.unique hin) fun _ _ _ => Iff.rfl

/-- The thread enters `state_machine_main` with an open descriptor, and the broker accepts it. -/
theorem begin_matched (hok : p.Ok) (h : p.MatchedBy b) (hin : p.server.Inside n k)
    (hconn : p.conns n = none) {past : PastConsumeOkArgs}
    (hstep : p.begin n (p.server.threads k) past = .ok p') (grain : Grain) :
    p'.Ok ∧ ∃ socket b', p.sockets (p.server.threads k).connfd = some socket ∧
      b.step grain (.accept k socket past) = .ok b' ∧ p'.MatchedBy b' := by
  unfold begin at hstep
  split at hstep
  · cases hstep
  · rename_i socket hsocket
    obtain rfl := Except.ok.inj hstep
    obtain ⟨hlow, hhigh⟩ := hok.core.inside_range hin
    have hfree : (b.conns k).isNone := by rw [h.conns_eq hok hin, hconn]; rfl
    refine ⟨hok.stays hin, socket,
      { b with conns := Function.update b.conns k (some (Conn.start k socket past)) }, hsocket,
      if_pos ⟨hlow, hhigh, hfree⟩, ?_⟩
    rw [hok.core.inside_threadId hin]
    have hstays : ({ p with
          store := p.store, history := p.history ++ [],
          conns := Function.update p.conns n (some (Conn.start k socket past)) } :
          Process).MatchedBy _ :=
      h.stays hok hin
    simpa [h.store] using hstays

/-- The thread that is done gives up its connection. -/
theorem leave_matched (hok : p.Ok) (h : p.MatchedBy b) (hin : p.server.Inside n k)
    (hconn : p.conns n = some conn) (hdone : conn.machine = .finished ∨ conn.machine = .fail)
    (hstep : p.leave n (p.server.threads k) = .ok p') (grain : Grain) :
    p'.Ok ∧ ∃ b', b.step grain (.close k) = .ok b' ∧ p'.MatchedBy b' := by
  obtain ⟨server, hserver, rfl⟩ := serverStep_eq_ok hstep
  obtain ⟨hinside, hthreads⟩ := inside_ended hin hserver
  refine ⟨⟨hok.core.next hserver, fun m conn' hconn' => ?_, fun m l hm => ?_, fun m m' l l' hm hm' hfd => ?_⟩,
    { b with conns := Function.update b.conns k none }, ?_, h.store, h.history, ?_⟩
  · change Function.update p.conns n none m = some conn' at hconn'
    by_cases hmn : m = n
    · rw [hmn, Function.update_self] at hconn'
      cases hconn'
    · rw [Function.update_of_ne hmn] at hconn'
      obtain ⟨l, hl⟩ := hok.inside m conn' hconn'
      exact ⟨l, (hinside m l).mpr ⟨hmn, hl⟩⟩
  · obtain ⟨hmn, hl⟩ := (hinside m l).mp hm
    change (Function.update p.sockets _ none (server.threads l).connfd).isSome
    rw [hthreads, Function.update_of_ne fun hfd => hmn (hok.unshared m n l k hl hin hfd)]
    exact hok.opened m l hl
  · change (server.threads l).connfd = (server.threads l').connfd at hfd
    rw [hthreads] at hfd
    exact hok.unshared m m' l l' ((hinside m l).mp hm).2 ((hinside m' l').mp hm').2 hfd
  · have hb : b.conns k = some conn := (h.conns_eq hok hin).trans hconn
    simp only [Broker.step, hb]
    exact if_pos hdone
  · exact h.replaced hok hin (by simp) (fun l hl => absurd rfl ((hinside n l).mp hl).1)
      fun m l hmn => (hinside m l).trans (and_iff_right hmn)

/-- A step on the shared memory. -/
theorem commit_matched (hok : p.Ok) (h : p.MatchedBy b) (hin : p.server.Inside n k)
    (machine : MachineState) (point : DequeuePoint) (w : World) :
    (p.commit n k machine point w).Ok ∧
      (p.commit n k machine point w).MatchedBy (b.commit k machine point w) := by
  refine ⟨hok.stays hin, ?_⟩
  exact h.stays hok hin

/-! ## Every step, and every run -/

/-- The broker's part in a step: a wakeup that nobody caused only where the process has one, and
a connection only on a socket that is open. -/
structure Answers (p : Process) (a : ProcessAct) (acts : List Act) : Prop where
  spurious : ∀ t, .spurious t ∈ acts → ∃ n, a = .spurious n
  accept : ∀ t socket past, .accept t socket past ∈ acts → ∃ connfd, p.sockets connfd = some socket

/-- A step without calls answers nothing. -/
theorem answers_nil (p : Process) (a : ProcessAct) : p.Answers a [] :=
  ⟨fun _ h => absurd h List.not_mem_nil, fun _ _ _ h => absurd h List.not_mem_nil⟩

/-- A step of a thread inside `state_machine_main` is a step of the broker. -/
theorem machineStep_matched (hok : p.Ok) (h : p.MatchedBy b) (hin : p.server.Inside n k)
    (hconn : p.conns n = some conn) {writes : List WriteResult}
    (hstep : p.machineStep grain n (p.server.threads k) conn writes = .ok p') :
    p'.Ok ∧ ∃ act b', (act = .run k writes ∨ act = .close k) ∧ b.step grain act = .ok b' ∧
      p'.MatchedBy b' := by
  unfold machineStep at hstep
  split at hstep
  · rename_i hdone
    obtain ⟨hok', b', hb, hmatched⟩ := leave_matched hok h hin hconn hdone hstep grain
    exact ⟨hok', .close k, b', .inr rfl, hb, hmatched⟩
  · split at hstep
    · rename_i machine point w hthread
      obtain rfl := Except.ok.inj hstep
      rw [hok.core.inside_threadId hin]
      obtain ⟨hok', hmatched⟩ := commit_matched hok h hin machine point w
      refine ⟨hok', .run k writes, b.commit k machine point w, .inl rfl, ?_, hmatched⟩
      have hworld : b.world conn writes = p.world conn writes := by
        simp [Broker.world, world, h.store]
      simp only [Broker.step, (h.conns_eq hok hin).trans hconn, hworld, hthread]
    · cases hstep

/-- A wakeup that nobody caused is one of the broker. -/
theorem spuriousStep_matched (hok : p.Ok) (h : p.MatchedBy b) (hstep : p.spuriousStep n = .ok p')
    (grain : Grain) :
    p'.Ok ∧ ∃ t b', b.step grain (.spurious t) = .ok b' ∧ p'.MatchedBy b' := by
  unfold spuriousStep at hstep
  split at hstep
  · rename_i k conn hin hconn
    split at hstep
    · rename_i hdequeue
      split at hstep
      · rename_i w hwake
        obtain rfl := Except.ok.inj hstep
        rw [hok.core.inside_threadId hin]
        obtain ⟨hok', hmatched⟩ := commit_matched hok h hin conn.machine conn.point w
        refine ⟨hok', k, b.commit k conn.machine conn.point w, ?_, hmatched⟩
        have hworld : b.world conn = p.world conn := by simp [Broker.world, world, h.store]
        simp only [Broker.step, (h.conns_eq hok hin).trans hconn, hworld, hwake]
        exact if_pos hdequeue
      · cases hstep
    · cases hstep
  · cases hstep

/-- One step of a thread is matched by at most one step of the broker. -/
theorem connectionStep_matched (hok : p.Ok) (h : p.MatchedBy b) {past : PastConsumeOkArgs}
    {writes : List WriteResult} (hstep : p.connectionStep grain n past writes = .ok p') :
    p'.Ok ∧ ∃ acts b', p.Answers (.connection n past writes) acts ∧
      exec (Broker.step grain) b acts = .ok b' ∧ p'.MatchedBy b' := by
  unfold connectionStep at hstep
  split at hstep
  · rename_i k hin
    split at hstep
    · rename_i hconn
      obtain ⟨hok', socket, b', hsocket, hb, hmatched⟩ := begin_matched hok h hin hconn hstep grain
      refine ⟨hok', [.accept k socket past], b', ⟨by simp, fun t socket' past' hmem => ?_⟩,
        exec_cons b _ [] hb, hmatched⟩
      cases List.mem_singleton.mp hmem
      exact ⟨_, hsocket⟩
    · rename_i conn hconn
      obtain ⟨hok', act, b', hact, hb, hmatched⟩ := machineStep_matched hok h hin hconn hstep
      refine ⟨hok', [act], b', ?_, exec_cons b act [] hb, hmatched⟩
      rcases hact with rfl | rfl <;> exact ⟨by simp, by simp⟩
  · rename_i hnot
    obtain ⟨server, hserver, rfl⟩ := serverStep_eq_ok hstep
    have hsame := sameInside_connection (fun k hin => hnot k hin) hserver
    exact ⟨hok.same hserver hsame, [], b, p.answers_nil _, rfl, h.same hsame⟩

/-- One step of the process is matched by at most one step of the broker. -/
theorem step_matched {a : ProcessAct} (hok : p.Ok) (h : p.MatchedBy b)
    (hstep : p.step grain a = .ok p') :
    p'.Ok ∧ ∃ acts b', p.Answers a acts ∧ exec (Broker.step grain) b acts = .ok b' ∧
      p'.MatchedBy b' := by
  cases a with
  | main =>
    obtain ⟨server, hserver, rfl⟩ := serverStep_eq_ok hstep
    have hsame := sameInside_main hserver
    exact ⟨hok.same hserver hsame, [], b, p.answers_nil _, rfl, h.same hsame⟩
  | accept connfd socket =>
    simp only [step] at hstep
    split at hstep
    · cases hstep
    · rename_i hclosed
      obtain ⟨server, hserver, rfl⟩ := serverStep_eq_ok hstep
      exact ⟨hok.accept (by simpa using hclosed) hserver, [], b, p.answers_nil _, rfl,
        h.accept hok hserver⟩
  | connection n past writes => exact connectionStep_matched hok h hstep
  | spurious n =>
    obtain ⟨hok', t, b', hb, hmatched⟩ := spuriousStep_matched hok h hstep grain
    exact ⟨hok', [.spurious t], b', ⟨fun _ _ => ⟨n, rfl⟩, by simp⟩, exec_cons b _ [] hb, hmatched⟩

/-- The process before its first step. -/
theorem ok_initial : initial.Ok where
  core := Core.initial
  inside := by
    intro n conn hconn
    cases hconn
  opened := by
    intro n k hin
    cases hin
  unshared := by
    intro n m k l hn
    cases hn

/-- The process before its first step is matched by the fresh broker. -/
theorem matchedBy_initial : initial.MatchedBy Broker.initial where
  store := rfl
  history := rfl
  conns := by
    intro t conn
    refine ⟨fun hconn => ?_, ?_⟩
    · cases hconn
    · rintro ⟨n, hin, -⟩
      cases hin

/-- The process and the runs of the broker, related by what both have done so far. -/
theorem simulates (grain : Grain) (guard : Process → ProcessAct → Prop) :
    Simulates (Process.step grain) guard (Broker.step grain) fun p acts b =>
      p.Ok ∧ p.MatchedBy b ∧ ∀ t, Act.spurious t ∈ acts → ∃ q n, guard q (.spurious n) where
  matched := by
    rintro p acts b a p' ⟨hok, hmatched, hacts⟩ hguard hstep
    obtain ⟨hok', more, b', hmore, hexec, hmatched'⟩ := step_matched hok hmatched hstep
    refine ⟨more, b', hexec, hok', hmatched', fun t ht => ?_⟩
    obtain hold | hnew := List.mem_append.mp ht
    · exact hacts t hold
    · obtain ⟨n, rfl⟩ := hmore.spurious t hnew
      exact ⟨p, n, hguard⟩

/-- The invariant holds in every state that is reached. -/
theorem ok_of_reaches {guard : Process → ProcessAct → Prop}
    (h : Reaches (Process.step grain) guard initial p) : p.Ok := by
  obtain ⟨acts, b, -, hok, -⟩ := (simulates grain guard).exists_exec
    ⟨ok_initial, matchedBy_initial, by simp⟩ h
  exact hok

/-- Whatever `main`, the table and the threads do in whatever order, the process has the
memory, the history and the connections of a run of the broker, one that has a wakeup that
nobody caused only where the process has one. -/
theorem exists_broker_run {guard : Process → ProcessAct → Prop}
    (h : Reaches (Process.step grain) guard initial p) :
    ∃ acts b, exec (Broker.step grain) Broker.initial acts = .ok b ∧ p.MatchedBy b ∧
      ∀ t, Act.spurious t ∈ acts → ∃ q n, guard q (.spurious n) := by
  obtain ⟨acts, b, hexec, -, hmatched, hacts⟩ := (simulates grain guard).exists_exec
    ⟨ok_initial, matchedBy_initial, by simp⟩ h
  exact ⟨acts, b, hexec, hmatched, hacts⟩

/-- `main` serves a connection on a descriptor. -/
def serve (connfd : ℤ) (socket : Socket) : List ProcessAct :=
  [.main, .main, .main, .accept connfd socket]

/-- Two connections, of which only the second has begun. -/
def serveTwo : List ProcessAct :=
  serve 3 [] ++ serve 4 (Socket.chunk defaultAmqpHeader) ++ [.connection 1, .connection 1]

/-- The first thread has not begun when the second has read its greeting. -/
theorem exec_serveTwo :
    ∃ p, exec (Process.step .fine) initial serveTwo = .ok p ∧
      p.server.running 0 = some ⟨0, .stateMachine⟩ ∧ p.conns 0 = none ∧
      (p.conns 1).map (·.machine) = some .headerReceived := by
  have hobserved : (exec (Process.step .fine) initial serveTwo).toOption.map
      (fun p => (p.server.running 0, (p.conns 0).isNone, (p.conns 1).map (·.machine))) =
        some (some ⟨0, .stateMachine⟩, true, some .headerReceived) := by rfl
  obtain ⟨p, hrun, hview⟩ := exec_observed hobserved
  obtain ⟨hrunning, hrest⟩ := Prod.mk.inj hview
  obtain ⟨hnone, hmachine⟩ := Prod.mk.inj hrest
  exact ⟨p, hrun, hrunning, Option.isNone_iff_eq_none.mp hnone, hmachine⟩

/-- The run of the broker for two clients, the later of which comes first. -/
theorem exists_broker_run_serveTwo :
    ∃ p, exec (Process.step .fine) initial serveTwo = .ok p ∧
      (p.conns 1).map (·.machine) = some .headerReceived ∧
      ∃ acts b, exec (Broker.step .fine) Broker.initial acts = .ok b ∧ p.MatchedBy b := by
  obtain ⟨p, hrun, -, -, hmachine⟩ := exec_serveTwo
  obtain ⟨acts, b, hexec, hmatched, -⟩ := exists_broker_run (reaches_of_exec hrun)
  exact ⟨p, hrun, hmachine, acts, b, hexec, hmatched⟩

end Process

end AmqpBroker
