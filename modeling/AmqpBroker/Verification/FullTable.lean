import AmqpBroker.Verification.Slots

/-!
# A full connection table

When its search has found every slot active, `main` sleeps and searches again, and it keeps
`thread_allocation_mutex` all the while. A connection that ends needs the mutex to give its
slot back. So a full table recovers as long as no connection has ended, or ends, while
`main` searches it, and never otherwise.
-/

namespace AmqpBroker

open Foundations

namespace Server

variable {s s' : Server} {a : ServerAct} {n m : ℕ} {c d : ConnectionThreadMain} {i k : ℤ}
  {point : ConnectionPoint} {labels : List ServerAct}

/-- Every slot is active. -/
def Full (s : Server) : Prop :=
  ∀ k, 0 ≤ k → k < maxConnections → (s.threads k).active = true

/-- `main` is in its slot search, at a slot or asleep. -/
def InSearch (s : Server) : Prop := (∃ i, s.main = .search i) ∨ s.main = .sleep

/-- The state machine of a connection has ended and its slot is not yet given back. -/
def Ended (s : Server) (n : ℕ) : Prop :=
  ∃ c, s.running n = some c ∧ (c.point = .lock ∨ c.point = .clear)

/-- The thread can go on until it has set the `active` of its slot to 0. -/
def CanRelease (s : Server) (n : ℕ) : Prop :=
  ∃ c steps s', s.running n = some c ∧
    exec step s (List.replicate steps (.connection n)) = .ok s' ∧
    (s'.threads (s.threadIdOf c)).active = false

/-- A step of `main` or of a connection that has ended. -/
def OfMainOrEnded (s : Server) (a : ServerAct) : Prop :=
  a = .main ∨ (∃ connfd, a = .accept connfd) ∨ ∃ n, a = .connection n ∧ s.Ended n

/-- A full table recovers: while `main` waits to retry, each connection that has ended can give
its slot back, and where one has ended, `main` and those that have can change the table. -/
structure Recovers (s : Server) : Prop where
  releases : s.main = .sleep → ∀ n, s.Ended n → s.CanRelease n
  moves : s.Full → (∃ n, s.Ended n) → ∃ labels s' k, (∀ a ∈ labels, s.OfMainOrEnded a) ∧
    exec step s labels = .ok s' ∧ 0 ≤ k ∧ k < maxConnections ∧
    (s'.threads k).active ≠ (s.threads k).active

/-- `main` searches a full table, and a connection has ended. -/
def Stuck (s : Server) : Prop := s.Full ∧ s.InSearch ∧ ∃ n, s.Ended n

/-- `main` starts no search of a full table when a connection has ended, and no connection
ends while it searches one. -/
def KeepsRecovering (s : Server) : ServerAct → Prop
  | .main => s.main = .lock → s.Full → ∀ n, ¬ s.Ended n
  | .accept _ => True
  | .connection n => ∀ c, s.running n = some c → c.point = .stateMachine → s.Full → ¬ s.InSearch

/-! ## The mutex -/

/-- The thread is between its lock and its unlock. -/
def Holds (s : Server) : Locker → Prop
  | .main => s.MainLocked
  | .connection n => ∃ c, s.running n = some c ∧ (c.point = .clear ∨ c.point = .unlock)

/-- What every reachable state satisfies, wherever its searches started. -/
structure Orderly (s : Server) : Prop where
  countLow : 0 ≤ s.threadCount
  countHigh : s.threadCount < maxConnections
  fresh : ∀ n, s.started ≤ n → s.running n = none
  seated : ∀ n c, s.running n = some c →
    0 ≤ c.thread ∧ c.thread < maxConnections ∧ (s.threads c.thread).threadId = c.thread
  held : ∀ locker, s.threadAllocationMutex = some locker ↔ s.Holds locker
  cleared : ∀ n c, s.running n = some c → c.point = .unlock → (s.threads c.thread).active = false
  searched : ∀ i, s.main = .search i → 0 ≤ i ∧ s.threadCount + i ≤ maxConnections ∧
    ∀ k, s.threadCount ≤ k → k < s.threadCount + i → (s.threads k).active = true
  asleep : s.main = .sleep → s.Full

/-- The server starts orderly. -/
theorem Orderly.initial : Orderly Server.initial where
  countLow := le_refl 0
  countHigh := by decide
  fresh := fun _ _ => rfl
  seated := by
    intro n c hc
    cases hc
  held := by
    intro locker
    cases locker <;> simp [Holds, MainLocked, Server.initial]
  cleared := by
    intro n c hc
    cases hc
  searched := by
    intro i hi
    cases hi
  asleep := by
    intro hi
    cases hi

/-- Only one thread is between its lock and its unlock. -/
theorem Orderly.exclusive {left right : Locker} (h : s.Orderly) (hleft : s.Holds left)
    (hright : s.Holds right) : left = right := by
  have hmutex := (h.held left).mpr hleft
  rw [(h.held right).mpr hright] at hmutex
  exact (Option.some.inj hmutex).symm

/-- Nobody holds a free mutex. -/
theorem Orderly.not_holds (h : s.Orderly) (hmutex : s.threadAllocationMutex = none)
    (locker : Locker) : ¬ s.Holds locker := by
  intro hholds
  have hheld := (h.held locker).mpr hholds
  rw [hmutex] at hheld
  cases hheld

/-- The search holds the mutex of the table. -/
theorem InSearch.mainLocked (h : s.InSearch) : s.MainLocked := by
  rcases h with hsearch | hsleep
  · exact .inl hsearch
  · exact .inr (.inl hsleep)

/-- Setting the `active` of a slot leaves the thread ids. -/
@[simp] theorem setActive_threadId (s : Server) (k j : ℤ) (value : Bool) :
    ((s.setActive k value).threads j).threadId = (s.threads j).threadId := by
  by_cases hj : j = k
  · simp [setActive, hj]
  · simp [setActive, Function.update_of_ne hj]

/-- `main` locks the mutex and starts its search. -/
theorem Orderly.begin (h : s.Orderly) (hmutex : s.threadAllocationMutex = none) :
    Orderly { s with threadAllocationMutex := some .main, main := .search 0 } :=
  { h with
    held := by
      intro locker
      cases locker with
      | main => exact iff_of_true rfl (.inl ⟨0, rfl⟩)
      | connection n => exact iff_of_false (by simp) (h.not_holds hmutex (.connection n))
    searched := by
      intro i hi
      cases hi
      refine ⟨le_refl 0, ?_, fun k hk hlt => ?_⟩
      · have hcount := h.countHigh
        change s.threadCount + 0 ≤ _
        omega
      · change k < s.threadCount + 0 at hlt
        change s.threadCount ≤ k at hk
        omega
    asleep := by
      intro hi
      cases hi }

/-- `main` moves on inside its search or to its sleep, and nothing else changes. -/
theorem Orderly.mainMoves (h : s.Orderly) (hlocked : s.InSearch) {point : MainPoint}
    (hpoint : (∃ i, point = .search i ∧ 0 ≤ i ∧ s.threadCount + i ≤ maxConnections ∧
      ∀ k, s.threadCount ≤ k → k < s.threadCount + i → (s.threads k).active = true) ∨
      point = .sleep ∧ s.Full) :
    Orderly { s with main := point } :=
  { h with
    held := by
      intro locker
      cases locker with
      | main =>
        apply iff_of_true ((h.held .main).mpr hlocked.mainLocked)
        obtain ⟨i, rfl, -⟩ | ⟨rfl, -⟩ := hpoint
        · exact .inl ⟨i, rfl⟩
        · exact .inr (.inl rfl)
      | connection n => exact h.held (.connection n)
    searched := by
      intro i hi
      obtain ⟨j, rfl, hj⟩ | ⟨rfl, -⟩ := hpoint
      · cases hi
        exact hj
      · cases hi
    asleep := by
      intro hi
      obtain ⟨j, rfl, -⟩ | ⟨rfl, hfull⟩ := hpoint
      · cases hi
      · exact hfull }

/-- `main` takes the free slot that it has probed. -/
theorem Orderly.choose (h : s.Orderly) (hmain : s.main = .search i) (hlow : 0 ≤ k)
    (hhigh : k < maxConnections) :
    Orderly { s.setActive k true with threadCount := k, main := .unlock } :=
  have hlocked : s.Holds .main := .inl ⟨i, hmain⟩
  { h with
    countLow := hlow
    countHigh := hhigh
    seated := by
      intro n c hc
      obtain ⟨hfrom, hto, hid⟩ := h.seated n c hc
      exact ⟨hfrom, hto, (setActive_threadId s k c.thread true).trans hid⟩
    held := by
      intro locker
      cases locker with
      | main => exact iff_of_true ((h.held .main).mpr hlocked) (.inr (.inr rfl))
      | connection n => exact h.held (.connection n)
    cleared := by
      intro n c hc hunlock
      cases h.exclusive hlocked (show s.Holds (.connection n) from ⟨c, hc, .inr hunlock⟩)
    searched := by
      intro j hj
      cases hj
    asleep := by
      intro hj
      cases hj }

/-- `main` unlocks the mutex and waits for a client. -/
theorem Orderly.leave (h : s.Orderly) (hmain : s.main = .unlock) :
    Orderly { s.unlock with main := .accept } :=
  have hlocked : s.Holds .main := .inr (.inr hmain)
  { h with
    held := by
      intro locker
      apply iff_of_false (by simp [unlock])
      cases locker with
      | main =>
        intro hholds
        simp [Holds, MainLocked] at hholds
      | connection n =>
        intro hholds
        cases h.exclusive hlocked (show s.Holds (.connection n) from hholds)
    searched := by
      intro i hi
      cases hi
    asleep := by
      intro hi
      cases hi }

/-- `main` starts the thread of the slot it has taken. -/
theorem Orderly.accept (h : s.Orderly) (hmain : s.main = .accept) (connfd : ℤ) :
    Orderly { s with
      threads := Function.update s.threads s.threadCount
        { s.threads s.threadCount with connfd := connfd, threadId := s.threadCount }
      running := Function.update s.running s.started (some ⟨s.threadCount, .stateMachine⟩)
      started := s.started + 1
      threadCount := (s.threadCount + 1) % maxConnections
      main := .lock } := by
  have hnew : ∀ n c, Function.update s.running s.started
      (some ⟨s.threadCount, .stateMachine⟩) n = some c →
      c = ⟨s.threadCount, .stateMachine⟩ ∨ s.running n = some c := by
    intro n c hc
    by_cases hn : n = s.started
    · rw [hn, Function.update_self] at hc
      exact .inl (Option.some.inj hc).symm
    · rw [Function.update_of_ne hn] at hc
      exact .inr hc
  constructor
  case countLow => exact Int.emod_nonneg _ (by decide)
  case countHigh => exact Int.emod_lt_of_pos _ (by decide)
  case fresh =>
    intro n hn
    change s.started + 1 ≤ n at hn
    change Function.update s.running s.started _ n = none
    rw [Function.update_of_ne (by omega), h.fresh n (by omega)]
  case seated =>
    intro n c hc
    have hseat : 0 ≤ c.thread ∧ c.thread < maxConnections ∧
        (c.thread ≠ s.threadCount → (s.threads c.thread).threadId = c.thread) := by
      obtain rfl | hold := hnew n c hc
      · exact ⟨h.countLow, h.countHigh, fun hne => absurd rfl hne⟩
      · obtain ⟨hlow, hhigh, hid⟩ := h.seated n c hold
        exact ⟨hlow, hhigh, fun _ => hid⟩
    refine ⟨hseat.1, hseat.2.1, ?_⟩
    change (Function.update s.threads s.threadCount _ c.thread).threadId = c.thread
    by_cases hsame : c.thread = s.threadCount
    · rw [hsame, Function.update_self]
    · rw [Function.update_of_ne hsame]
      exact hseat.2.2 hsame
  case held =>
    intro locker
    apply (h.held locker).trans
    cases locker with
    | main => simp [Holds, MainLocked, hmain]
    | connection n =>
      by_cases hn : n = s.started
      · simp [Holds, hn, h.fresh s.started le_rfl]
      · simp [Holds, Function.update_of_ne hn]
  case cleared =>
    intro n c hc hunlock
    obtain rfl | hold := hnew n c hc
    · cases hunlock
    · have hfree := h.cleared n c hold hunlock
      by_cases hsame : c.thread = s.threadCount
      · rw [hsame] at hfree ⊢
        simp [hfree]
      · simp [Function.update_of_ne hsame, hfree]
  case searched =>
    intro i hi
    cases hi
  case asleep =>
    intro hi
    cases hi

/-- What a thread holds after one of the threads has moved on. -/
theorem holds_setPoint (s : Server) (n : ℕ) (c : ConnectionThreadMain) (point : ConnectionPoint) :
    (∀ m, m ≠ n → ((s.setPoint n c point).Holds (.connection m) ↔ s.Holds (.connection m))) ∧
      ((s.setPoint n c point).Holds (.connection n) ↔ point = .clear ∨ point = .unlock) := by
  constructor
  · intro m hm
    simp [Holds, setPoint, Function.update_of_ne hm]
  · simp [Holds, setPoint]

/-- A connection thread moves on, and takes the mutex or leaves it. -/
theorem Orderly.setPoint (h : s.Orderly) (hc : s.running n = some c) {mutex : Option Locker}
    (hheld : mutex = some (.connection n) ↔ point = .clear ∨ point = .unlock)
    (hothers : ∀ locker, locker ≠ .connection n → (mutex = some locker ↔ s.Holds locker))
    (hfree : point = .unlock → (s.threads c.thread).active = false) :
    Orderly ({ s with threadAllocationMutex := mutex }.setPoint n c point) :=
  { h with
    fresh := by
      intro m hm
      have hne : m ≠ n := by
        intro hsame
        rw [← hsame, h.fresh m hm] at hc
        cases hc
      change Function.update s.running n _ m = none
      rw [Function.update_of_ne hne, h.fresh m hm]
    seated := by
      intro m d hd
      obtain ⟨old, hold, hsame⟩ := running_of_setPoint hc hd
      exact hsame ▸ h.seated m old hold
    held := by
      intro locker
      obtain ⟨hother, hself⟩ := holds_setPoint s n c point
      cases locker with
      | main => exact hothers .main nofun
      | connection m =>
        by_cases hm : m = n
        · rw [hm]
          exact hheld.trans hself.symm
        · exact (hothers (.connection m) (by simpa using hm)).trans (hother m hm).symm
    cleared := by
      intro m d hd hunlock
      obtain ⟨-, rfl⟩ | ⟨-, hold⟩ := running_setPoint hd
      · exact hfree hunlock
      · exact h.cleared m d hold hunlock }

/-- The thread that holds the mutex marks a slot free. -/
theorem Orderly.release (h : s.Orderly) (hmutex : s.threadAllocationMutex = some (.connection n))
    (k : ℤ) : Orderly (s.setActive k false) := by
  have hnot : ¬ s.MainLocked := by
    intro hlocked
    cases h.exclusive ((h.held _).mp hmutex) (show s.Holds .main from hlocked)
  exact { h with
    seated := by
      intro m d hd
      rw [setActive_threadId]
      exact h.seated m d hd
    cleared := by
      intro m d hd hunlock
      by_cases hsame : d.thread = k
      · simp [setActive, hsame]
      · simpa [setActive, Function.update_of_ne hsame] using h.cleared m d hd hunlock
    searched := fun i hi => absurd (.inl ⟨i, hi⟩) hnot
    asleep := fun hi => absurd (.inr (.inl hi)) hnot }

/-- The thread that holds the mutex unlocks it and is gone. -/
theorem Orderly.gone (h : s.Orderly) (hc : s.running n = some c) (hpoint : c.point = .unlock) :
    Orderly { s.unlock with running := Function.update s.running n none } := by
  have hheld : s.Holds (.connection n) := ⟨c, hc, .inr hpoint⟩
  have hnot : ¬ s.MainLocked := by
    intro hlocked
    cases h.exclusive hheld (show s.Holds .main from hlocked)
  have hleft : ∀ m d, Function.update s.running n none m = some d →
      m ≠ n ∧ s.running m = some d := by
    intro m d hd
    by_cases hm : m = n
    · rw [hm, Function.update_self] at hd
      cases hd
    · rw [Function.update_of_ne hm] at hd
      exact ⟨hm, hd⟩
  exact { h with
    fresh := by
      intro m hm
      by_cases hne : m = n
      · simp [hne]
      · simpa [Function.update_of_ne hne] using h.fresh m hm
    seated := fun m d hd => h.seated m d (hleft m d hd).2
    held := by
      intro locker
      apply iff_of_false (by simp [unlock])
      cases locker with
      | main => exact hnot
      | connection m =>
        rintro ⟨d, hd, hbetween⟩
        obtain ⟨hne, hold⟩ := hleft m d hd
        cases h.exclusive hheld (show s.Holds (.connection m) from ⟨d, hold, hbetween⟩)
        exact hne rfl
    cleared := fun m d hd => h.cleared m d (hleft m d hd).2
    searched := fun i hi => absurd (.inl ⟨i, hi⟩) hnot
    asleep := fun hi => absurd (.inr (.inl hi)) hnot }

/-- A search that has counted to the end has started at the first slot and found every slot
active. -/
theorem Orderly.full_of_searched (h : s.Orderly) (hmain : s.main = .search maxConnections) :
    s.Full := by
  obtain ⟨-, hhigh, hpassed⟩ := h.searched _ hmain
  have hlow := h.countLow
  intro k hk hrange
  exact hpassed k (by omega) (by omega)

/-- Every step keeps the server orderly. -/
theorem Orderly.next (h : s.Orderly) (hstep : s.step a = .ok s') : s'.Orderly := by
  cases step_cases hstep with
  | begin _ hmutex => exact h.begin hmutex
  | full hmain => exact h.mainMoves (.inl ⟨_, hmain⟩) (.inr ⟨rfl, h.full_of_searched hmain⟩)
  | @busy i hmain hi _ hhigh hactive =>
    obtain ⟨hlow, hto, hpassed⟩ := h.searched i hmain
    have hcount := h.countLow
    rw [Int.emod_eq_of_lt hlow (by omega)] at hhigh hactive
    apply h.mainMoves (.inl ⟨i, hmain⟩) (.inl ⟨i + 1, rfl, by omega, by omega, fun k hk hlt => ?_⟩)
    by_cases hlast : k = s.threadCount + i
    · rwa [hlast]
    · exact hpassed k hk (by omega)
  | choose hmain _ hlow hhigh _ => exact h.choose hmain hlow hhigh
  | wake hmain =>
    apply h.mainMoves (.inr hmain) (.inl ⟨0, rfl, le_rfl, ?_, fun k hk hlt => ?_⟩)
    · have hcount := h.countHigh
      omega
    · omega
  | leave hmain => exact h.leave hmain
  | accept hmain _ => exact h.accept hmain _
  | @ended n c hc hpoint =>
    have hfree : ¬ s.Holds (.connection n) := by simp [Holds, hc, hpoint]
    exact h.setPoint hc (iff_of_false (fun hheld => hfree ((h.held _).mp hheld)) (by simp))
      (fun locker _ => h.held locker) (by simp)
  | @locked n c hc hpoint hmutex =>
    apply h.setPoint hc (iff_of_true rfl (.inl rfl)) _ (by simp)
    intro locker hother
    exact iff_of_false (fun hsame => hother (Option.some.inj hsame).symm) (h.not_holds hmutex locker)
  | @cleared n c hc hpoint =>
    have hmutex := (h.held (.connection n)).mpr ⟨c, hc, .inl hpoint⟩
    have hreleased := h.release hmutex (s.threads c.thread).threadId
    rw [(h.seated n c hc).2.2] at hreleased ⊢
    apply hreleased.setPoint hc (iff_of_true hmutex (.inr rfl))
      (fun locker _ => hreleased.held locker)
    intro _
    simp [setActive]
  | gone hc hpoint => exact h.gone hc hpoint

/-- Every state of the server is orderly. -/
theorem orderly_of_reaches {guard : Server → ServerAct → Prop}
    (h : Reaches Server.step guard Server.initial s) : s.Orderly :=
  h.invariant Orderly.initial fun _ _ _ horderly _ hstep => horderly.next hstep

/-! ## The table of a stuck server -/

/-- A stuck server stays stuck, and its table stays as it is. -/
theorem Stuck.next (h : s.Orderly) (hstuck : s.Stuck) (hstep : s.step a = .ok s') :
    s'.Stuck ∧ s'.threads = s.threads := by
  obtain ⟨hfull, hsearch, n, hn⟩ := hstuck
  have hmain : s.Holds .main := hsearch.mainLocked
  have hnobody : ∀ {m d}, s.running m = some d → ¬ (d.point = .clear ∨ d.point = .unlock) := by
    intro m d hd hbetween
    cases h.exclusive hmain (show s.Holds (.connection m) from ⟨d, hd, hbetween⟩)
  cases step_cases hstep with
  | full _ => exact ⟨⟨hfull, .inr rfl, n, hn⟩, rfl⟩
  | @busy i _ _ _ _ _ => exact ⟨⟨hfull, .inl ⟨i + 1, rfl⟩, n, hn⟩, rfl⟩
  | wake _ => exact ⟨⟨hfull, .inl ⟨0, rfl⟩, n, hn⟩, rfl⟩
  | choose _ _ hlow hhigh hfree =>
    rw [hfull _ hlow hhigh] at hfree
    cases hfree
  | begin hpoint _ | leave hpoint | accept hpoint _ =>
    rcases hsearch with ⟨i, hi⟩ | hi <;> rw [hpoint] at hi <;> cases hi
  | @ended m d hd hpoint =>
    exact ⟨⟨hfull, hsearch, m, _, Function.update_self _ _ _, .inl rfl⟩, rfl⟩
  | locked _ _ hmutex => exact absurd hmain (h.not_holds hmutex .main)
  | cleared hd hpoint => exact absurd (.inl hpoint) (hnobody hd)
  | gone hd hpoint => exact absurd (.inr hpoint) (hnobody hd)

/-- No run at all changes the table of a stuck server. -/
theorem Stuck.exec (h : s.Orderly) (hstuck : s.Stuck) (hrun : exec step s labels = .ok s') :
    s'.threads = s.threads := by
  induction labels generalizing s with
  | nil =>
    cases hrun
    rfl
  | cons a rest ih =>
    obtain ⟨middle, hstep, hrest⟩ := exec_cons_eq_ok.mp hrun
    obtain ⟨hstuck', hsame⟩ := hstuck.next h hstep
    exact (ih (h.next hstep) hstuck' hrest).trans hsame

/-- A stuck server does not recover. -/
theorem Stuck.not_recovers (h : s.Orderly) (hstuck : s.Stuck) : ¬ s.Recovers := by
  intro hrecovers
  obtain ⟨labels, s', k, -, hrun, -, -, hchanged⟩ := hrecovers.moves hstuck.1 hstuck.2.2
  exact hchanged (by rw [hstuck.exec h hrun])

/-! ## The release of a slot -/

/-- The thread that holds the mutex gives its slot back. -/
theorem step_clear (h : s.Orderly) (hc : s.running n = some c) (hpoint : c.point = .clear) :
    s.step (.connection n) = .ok ((s.setActive c.thread false).setPoint n c .unlock) := by
  obtain ⟨hlow, hhigh, hid⟩ := h.seated n c hc
  simp [step, connectionStep, hc, hpoint, hid, threadIndex_of_range hlow hhigh, bind, Except.bind,
    pure, Except.pure]

/-- When the mutex is free, a connection that has ended gives its slot back. -/
theorem exec_release (h : s.Orderly) (hmutex : s.threadAllocationMutex = none)
    (hc : s.running n = some c) (hpoint : c.point = .lock) :
    ∃ s', exec step s [.connection n, .connection n] = .ok s' ∧
      (s'.threads c.thread).active = false := by
  have hlock : s.step (.connection n) =
      .ok ({ s with threadAllocationMutex := some (.connection n) }.setPoint n c .clear) := by
    simp [step, connectionStep, hc, hpoint, lock, hmutex, bind, Except.bind, pure, Except.pure]
  have hclear := step_clear (h.next hlock) (c := { c with point := .clear })
    (Function.update_self _ _ _) rfl
  refine ⟨_, by rw [exec_cons _ _ _ hlock, exec_cons _ _ _ hclear, exec_nil], ?_⟩
  simp [Server.setPoint, setActive]

/-- A connection that has ended waits for the mutex unless it holds it. -/
theorem Ended.waits (h : s.Ended n) (hother : ¬ s.Holds (.connection n)) :
    ∃ c, s.running n = some c ∧ c.point = .lock := by
  obtain ⟨c, hc, hlock | hclear⟩ := h
  · exact ⟨c, hc, hlock⟩
  · exact absurd ⟨c, hc, .inl hclear⟩ hother

/-- A full table with a connection that has ended can change when `main` is not searching it. -/
theorem Orderly.moves (h : s.Orderly) (hfull : s.Full) (hended : s.Ended n)
    (hidle : ¬ s.InSearch) : ∃ labels s' k, (∀ a ∈ labels, s.OfMainOrEnded a) ∧
      exec step s labels = .ok s' ∧ 0 ≤ k ∧ k < maxConnections ∧
      (s'.threads k).active ≠ (s.threads k).active := by
  have hfreed : ∀ {m d labels s'}, s.running m = some d → (∀ a ∈ labels, s.OfMainOrEnded a) →
      exec step s labels = .ok s' → (s'.threads d.thread).active = false →
      ∃ labels s' k, (∀ a ∈ labels, s.OfMainOrEnded a) ∧ exec step s labels = .ok s' ∧ 0 ≤ k ∧
        k < maxConnections ∧ (s'.threads k).active ≠ (s.threads k).active := by
    intro m d labels s' hd hlabels hrun hfree
    obtain ⟨hlow, hhigh, -⟩ := h.seated m d hd
    exact ⟨labels, s', d.thread, hlabels, hrun, hlow, hhigh,
      by rw [hfree, hfull _ hlow hhigh]; exact Bool.false_ne_true⟩
  have hself : s.OfMainOrEnded (.connection n) := .inr (.inr ⟨n, rfl, hended⟩)
  cases hmutex : s.threadAllocationMutex with
  | none =>
    obtain ⟨c, hc, hpoint⟩ := hended.waits (h.not_holds hmutex _)
    obtain ⟨s', hrun, hfree⟩ := exec_release h hmutex hc hpoint
    exact hfreed hc (by simp [hself]) hrun hfree
  | some locker =>
    have hholds := (h.held locker).mp hmutex
    cases locker with
    | connection m =>
      obtain ⟨d, hd, hclear | hunlock⟩ := hholds
      · have hrun := (exec_cons _ _ [] (step_clear h hd hclear)).trans (exec_nil _)
        exact hfreed hd (by simpa using .inr (.inr ⟨m, rfl, d, hd, .inr hclear⟩)) hrun
          (by simp [Server.setPoint, setActive])
      · -- a slot that has been given back is not active
        obtain ⟨hlow, hhigh, -⟩ := h.seated m d hd
        have hfree := h.cleared m d hd hunlock
        rw [hfull _ hlow hhigh] at hfree
        cases hfree
    | main =>
      have hunlock : s.main = .unlock := by
        rcases hholds with hsearch | hsleep | hunlock
        · exact absurd (.inl hsearch) hidle
        · exact absurd (.inr hsleep) hidle
        · exact hunlock
      have hleave : s.step .main = .ok { s.unlock with main := .accept } := by
        simp [step, mainStep, hunlock]
      obtain ⟨c, hc, hpoint⟩ := hended.waits fun hheld => by cases h.exclusive hholds hheld
      obtain ⟨s', hrun, hfree⟩ := exec_release (h.next hleave) rfl hc hpoint
      have hmain : s.OfMainOrEnded .main := .inl rfl
      exact hfreed hc (by simp [hself, hmain]) ((exec_cons _ _ _ hleave).trans hrun) hfree

/-- A server recovers from a full table exactly when it is not stuck. -/
theorem Orderly.recovers_iff (h : s.Orderly) : s.Recovers ↔ ¬ s.Stuck := by
  constructor
  · intro hrecovers hstuck
    exact hstuck.not_recovers h hrecovers
  · intro hnot
    constructor
    · intro hsleep n hended
      exact absurd ⟨h.asleep hsleep, .inr hsleep, n, hended⟩ hnot
    · rintro hfull ⟨n, hended⟩
      exact h.moves hfull hended fun hsearch => hnot ⟨hfull, hsearch, n, hended⟩

/-- A step makes the server stuck exactly when it starts a search of a full table with an ended
connection, or ends a connection during one. -/
theorem Orderly.stuck_next_iff (h : s.Orderly) (hnot : ¬ s.Stuck) (hstep : s.step a = .ok s') :
    s'.Stuck ↔ ¬ s.KeepsRecovering a := by
  have hlocked : s'.InSearch → s.main = s'.main → s.Holds .main := by
    intro hsearch hsame
    rw [InSearch, ← hsame] at hsearch
    exact InSearch.mainLocked hsearch
  cases step_cases hstep with
  | begin hmain _ =>
    constructor
    · rintro ⟨hfull, -, n, hended⟩ hkeeps
      exact hkeeps hmain hfull n hended
    · intro hkeeps
      simp only [KeepsRecovering, not_forall, not_not] at hkeeps
      obtain ⟨-, hfull, n, hended⟩ := hkeeps
      exact ⟨hfull, .inl ⟨0, rfl⟩, n, hended⟩
  | full hmain | busy hmain _ _ _ _ =>
    apply iff_of_false
    · rintro ⟨hfull, -, hended⟩
      exact hnot ⟨hfull, .inl ⟨_, hmain⟩, hended⟩
    · refine not_not_intro fun hlock => ?_
      rw [hmain] at hlock
      cases hlock
  | wake hmain =>
    apply iff_of_false
    · rintro ⟨hfull, -, hended⟩
      exact hnot ⟨hfull, .inr hmain, hended⟩
    · refine not_not_intro fun hlock => ?_
      rw [hmain] at hlock
      cases hlock
  | choose hmain _ _ _ _ | leave hmain =>
    apply iff_of_false
    · rintro ⟨-, ⟨i, hi⟩ | hi, -⟩ <;> cases hi
    · refine not_not_intro fun hlock => ?_
      rw [hmain] at hlock
      cases hlock
  | accept _ _ =>
    apply iff_of_false _ (not_not_intro trivial)
    rintro ⟨-, ⟨i, hi⟩ | hi, -⟩ <;> cases hi
  | @ended n c hc hpoint =>
    constructor
    · rintro ⟨hfull, hsearch, -⟩ hkeeps
      exact hkeeps c hc hpoint hfull hsearch
    · intro hkeeps
      simp only [KeepsRecovering, not_forall, not_not] at hkeeps
      obtain ⟨-, -, -, hfull, hsearch⟩ := hkeeps
      exact ⟨hfull, hsearch, n, _, Function.update_self _ _ _, .inl rfl⟩
  | @locked n c hc hpoint hmutex =>
    apply iff_of_false
    · rintro ⟨-, hsearch, -⟩
      exact h.not_holds hmutex _ (hlocked hsearch rfl)
    · refine not_not_intro fun d hd hpoint' => ?_
      obtain rfl := Option.some.inj (hc.symm.trans hd)
      rw [hpoint] at hpoint'
      cases hpoint'
  | @cleared n c hc hpoint | @gone n c hc hpoint =>
    have hheld : s.Holds (.connection n) := ⟨c, hc, by simp [hpoint]⟩
    apply iff_of_false
    · rintro ⟨-, hsearch, -⟩
      cases h.exclusive hheld (hlocked hsearch rfl)
    · refine not_not_intro fun d hd hpoint' => ?_
      obtain rfl := Option.some.inj (hc.symm.trans hd)
      rw [hpoint] at hpoint'
      cases hpoint'

/-- In a run none of whose steps breaks it, no reachable server is stuck. -/
theorem not_stuck_of_reaches (h : Reaches Server.step KeepsRecovering Server.initial s) :
    ¬ s.Stuck := by
  have hboth := h.invariant (P := fun s => s.Orderly ∧ ¬ s.Stuck)
    ⟨.initial, fun hstuck => by obtain ⟨-, ⟨i, hi⟩ | hi, -⟩ := hstuck <;> cases hi⟩
    fun s a s' ⟨horderly, hnot⟩ hkeeps hstep =>
      ⟨horderly.next hstep, fun hstuck => (horderly.stuck_next_iff hnot hstep).mp hstuck hkeeps⟩
  exact hboth.2

/-- A full table recovers in every state that a run reaches in which `main` starts no search
of a full table when a connection has ended, and no connection ends during one. The next
step keeps it so exactly when it does neither. -/
theorem fullTable_recovers (h : Reaches Server.step KeepsRecovering Server.initial s) :
    s.Recovers ∧ ∀ a s', s.step a = .ok s' → (s'.Recovers ↔ s.KeepsRecovering a) := by
  have horderly := orderly_of_reaches h
  have hnot := not_stuck_of_reaches h
  refine ⟨horderly.recovers_iff.mpr hnot, fun a s' hstep => ?_⟩
  rw [(horderly.next hstep).recovers_iff, horderly.stuck_next_iff hnot hstep, not_not]

/-- A search from a free slot is not one of a full table. -/
theorem letsServe_keepsRecovering : LetsServe KeepsRecovering := by
  intro s a hopen hother
  cases a with
  | main =>
    intro hlock hfull
    have h := hopen hlock
    have hfree := h.free
    rw [hfull _ h.low h.high] at hfree
    cases hfree
  | accept _ => trivial
  | connection n => exact absurd rfl (hother n)

/-- A state machine ends, which changes neither the table nor what others hold. -/
theorem exec_ends (hc : s.running n = some c) (hpoint : c.point = .stateMachine) :
    ∃ s', s.step (.connection n) = .ok s' ∧ s'.Ended n ∧ s'.threads = s.threads ∧
      s'.main = s.main ∧ s'.threadAllocationMutex = s.threadAllocationMutex := by
  refine ⟨s.setPoint n c .lock, ?_, ⟨_, Function.update_self _ _ _, .inl rfl⟩, rfl, rfl, rfl⟩
  simp [step, connectionStep, hc, hpoint]

/-- Whether a table is full is seen from its slots. -/
theorem Full.of_threads (h : s.Full) (hsame : s'.threads = s.threads) : s'.Full := by
  rwa [Full, hsame]

/-- A full table. -/
theorem full_filled : (filled 512).Full := by
  obtain ⟨-, -, -, -, hactive⟩ := filled_spec (n := 512) (by decide)
  exact fun k hk hrange => (hactive k).mpr ⟨hk, hrange⟩

/-- A full table one of whose connections has ended before `main` searches it. -/
theorem fullTable_recovers_endedFirst :
    ∃ s, exec step Server.initial (fillSteps 512 ++ [.connection 0]) = .ok s ∧ s.Full ∧
      s.Ended 0 ∧ s.Recovers := by
  have hfill : ((512 : ℕ) : ℤ) ≤ maxConnections := by decide
  obtain ⟨hmain, -⟩ := filled_spec hfill
  have hreaches : Reaches step KeepsRecovering Server.initial (filled 512) :=
    reaches_filled letsServe_keepsRecovering hfill
  obtain ⟨s', hstep, hended, hthreads, -⟩ := exec_ends
    (filled_running hfill (show 0 < 512 by decide)) rfl
  have hkeeps : (filled 512).KeepsRecovering (.connection 0) := by
    rintro c - - - (⟨i, hi⟩ | hi) <;> rw [hmain] at hi <;> cases hi
  exact ⟨s', exec_append_eq_ok.mpr ⟨_, exec_fillSteps hfill,
    (exec_cons _ _ [] hstep).trans (exec_nil _)⟩, full_filled.of_threads hthreads, hended,
    (fullTable_recovers (.tail hreaches hkeeps hstep)).1⟩

/-- The steps by which `main` searches a full table and goes to sleep. -/
def searchSteps : List ServerAct := .main :: (List.replicate 512 .main ++ [.main])

/-- On a full table the search ends at no slot. -/
theorem exec_searchSteps (hmain : s.main = .lock) (hmutex : s.threadAllocationMutex = none)
    (hcount : s.threadCount = 0) (hfull : s.Full) :
    exec step s searchSteps =
      .ok { s with threadAllocationMutex := some .main, main := .sleep } := by
  have hbegin : s.step .main =
      .ok { s with threadAllocationMutex := some .main, main := .search 0 } := by
    simp [step, mainStep, hmain, lock, hmutex, bind, Except.bind, pure, Except.pure]
  have hpasses : exec step { s with threadAllocationMutex := some .main, main := .search 0 }
      (List.replicate 512 .main) =
        .ok { s with threadAllocationMutex := some .main, main := .search (0 + (512 : ℕ)) } := by
    apply exec_passes (i := 0)
    · rfl
    · exact hcount.ge
    · exact le_refl 0
    · change s.threadCount + 0 + ((512 : ℕ) : ℤ) ≤ _
      rw [hcount]
      decide
    · intro k hk hlt
      change s.threadCount + 0 ≤ k at hk
      change k < s.threadCount + 0 + ((512 : ℕ) : ℤ) at hlt
      rw [hcount] at hk hlt
      exact hfull k (by omega) (by rw [show maxConnections = 512 from rfl]; omega)
  exact (exec_cons _ _ _ hbegin).trans (exec_append_eq_ok.mpr ⟨_, hpasses, rfl⟩)

/-- `main` searches a full table and goes to sleep, and then a connection ends. -/
theorem exec_endsDuringSleep (hmain : s.main = .lock) (hmutex : s.threadAllocationMutex = none)
    (hcount : s.threadCount = 0) (hfull : s.Full) (hc : s.running n = some c)
    (hpoint : c.point = .stateMachine) :
    ∃ s', exec step s (searchSteps ++ [.connection n]) = .ok s' ∧ s'.main = .sleep ∧ s'.Full ∧
      s'.Ended n ∧ s'.threadAllocationMutex = some .main := by
  obtain ⟨s', hstep, hended, hthreads, hsleep, hheld⟩ :=
    exec_ends (s := { s with threadAllocationMutex := some .main, main := .sleep }) hc hpoint
  exact ⟨s', exec_append_eq_ok.mpr ⟨_, exec_searchSteps hmain hmutex hcount hfull,
    (exec_cons _ _ [] hstep).trans (exec_nil _)⟩, hsleep, hfull.of_threads hthreads, hended, hheld⟩

/-- A connection that ends while `main` waits to retry: it cannot give its slot back, and the
table never changes again. -/
theorem endedDuringSleep_stuck :
    ∃ s, exec step Server.initial (fillSteps 512 ++ (searchSteps ++ [.connection 0])) = .ok s ∧
      s.main = .sleep ∧ s.Full ∧ s.Ended 0 ∧ s.step (.connection 0) = .error .blocked ∧
      (∀ labels s', exec step s labels = .ok s' → s'.threads = s.threads) ∧ ¬ s.Recovers := by
  have hfill : ((512 : ℕ) : ℤ) ≤ maxConnections := by decide
  obtain ⟨hmain, hmutex, hcount, -⟩ := filled_spec hfill
  have hfirst := filled_running hfill (show 0 < 512 by decide)
  obtain ⟨s, hlast, hsleep, hfull, hended, hheld⟩ :=
    exec_endsDuringSleep hmain hmutex hcount full_filled hfirst rfl
  have hrun := exec_append_eq_ok.mpr ⟨_, exec_fillSteps hfill, hlast⟩
  have horderly := orderly_of_reaches (reaches_of_exec hrun)
  have hstuck : s.Stuck := ⟨hfull, .inr hsleep, 0, hended⟩
  obtain ⟨c, hc, hpoint⟩ := hended.waits fun hholds =>
    by cases horderly.exclusive hholds (show s.Holds .main from .inr (.inl hsleep))
  refine ⟨s, hrun, hsleep, hfull, hended, ?_, fun labels s' => hstuck.exec horderly,
    hstuck.not_recovers horderly⟩
  simp [step, connectionStep, hc, hpoint, lock, hheld, bind, Except.bind]

end Server

end AmqpBroker
