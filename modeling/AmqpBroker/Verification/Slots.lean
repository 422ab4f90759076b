import AmqpBroker.Foundations.Execution
import AmqpBroker.Model.Server

/-!
# The slots of the connections

The slot search starts at `thread_count` and adds its counter without wrapping around at
the end of the table. Whether it stays inside is decided when it starts: the mutex is held
until a slot is chosen, so no slot changes while it runs.
-/

namespace AmqpBroker

open Foundations

namespace Server

/-! ## What a step does -/

/-- The steps of the server, each with what it found and what it leaves. -/
inductive StepCase (s : Server) : ServerAct → Server → Prop
  | begin (hmain : s.main = .lock) (hmutex : s.threadAllocationMutex = none) :
      StepCase s .main { s with threadAllocationMutex := some .main, main := .search 0 }
  | full (hmain : s.main = .search maxConnections) : StepCase s .main { s with main := .sleep }
  | busy {i : ℤ} (hmain : s.main = .search i) (hi : i ≠ maxConnections)
      (hlow : 0 ≤ s.threadCount + i % maxConnections)
      (hhigh : s.threadCount + i % maxConnections < maxConnections)
      (hactive : (s.threads (s.threadCount + i % maxConnections)).active = true) :
      StepCase s .main { s with main := .search (i + 1) }
  | choose {i : ℤ} (hmain : s.main = .search i) (hi : i ≠ maxConnections)
      (hlow : 0 ≤ s.threadCount + i % maxConnections)
      (hhigh : s.threadCount + i % maxConnections < maxConnections)
      (hfree : (s.threads (s.threadCount + i % maxConnections)).active = false) :
      StepCase s .main { s.setActive (s.threadCount + i % maxConnections) true with
        threadCount := s.threadCount + i % maxConnections, main := .unlock }
  | wake (hmain : s.main = .sleep) : StepCase s .main { s with main := .search 0 }
  | leave (hmain : s.main = .unlock) : StepCase s .main { s.unlock with main := .accept }
  | accept {connfd : ℤ} (hmain : s.main = .accept) (hfd : connfd ≠ -1) :
      StepCase s (.accept connfd) { s with
        threads := Function.update s.threads s.threadCount
          { s.threads s.threadCount with connfd := connfd, threadId := s.threadCount }
        running := Function.update s.running s.started (some ⟨s.threadCount, .stateMachine⟩)
        started := s.started + 1
        threadCount := (s.threadCount + 1) % maxConnections
        main := .lock }
  | ended {n : ℕ} {c : ConnectionThreadMain} (hc : s.running n = some c)
      (hpoint : c.point = .stateMachine) : StepCase s (.connection n) (s.setPoint n c .lock)
  | locked {n : ℕ} {c : ConnectionThreadMain} (hc : s.running n = some c)
      (hpoint : c.point = .lock) (hmutex : s.threadAllocationMutex = none) :
      StepCase s (.connection n)
        ({ s with threadAllocationMutex := some (.connection n) }.setPoint n c .clear)
  | cleared {n : ℕ} {c : ConnectionThreadMain} (hc : s.running n = some c)
      (hpoint : c.point = .clear) :
      StepCase s (.connection n)
        ((s.setActive (s.threads c.thread).threadId false).setPoint n c .unlock)
  | gone {n : ℕ} {c : ConnectionThreadMain} (hc : s.running n = some c)
      (hpoint : c.point = .unlock) :
      StepCase s (.connection n) { s.unlock with running := Function.update s.running n none }

/-- Locking succeeds exactly when the mutex is free. -/
theorem lock_eq_ok {s s' : Server} {locker : Locker} (h : s.lock locker = .ok s') :
    s.threadAllocationMutex = none ∧ s' = { s with threadAllocationMutex := some locker } := by
  unfold lock at h
  split at h
  · cases h
    exact ⟨‹_›, rfl⟩
  · cases h

/-- Locking either waits or succeeds. -/
theorem lock_total (s : Server) (locker : Locker) :
    s.lock locker = .error .blocked ∨ ∃ s', s.lock locker = .ok s' := by
  unfold lock
  cases s.threadAllocationMutex with
  | none => exact .inr ⟨_, rfl⟩
  | some holder => exact .inl rfl

/-- An index into `threads` is checked and kept. -/
theorem threadIndex_eq_ok {i k : ℤ} (h : threadIndex i = .ok k) :
    k = i ∧ 0 ≤ i ∧ i < maxConnections := by
  unfold threadIndex at h
  split at h
  · cases h
    exact ⟨rfl, ‹_›⟩
  · cases h

/-- An index into `threads` in range is not an error. -/
theorem threadIndex_of_range {i : ℤ} (hlow : 0 ≤ i) (hhigh : i < maxConnections) :
    threadIndex i = .ok i := if_pos ⟨hlow, hhigh⟩

/-- A probe of the search finds its slot busy or takes it. -/
theorem probe_cases {s s' : Server} {i : ℤ} (hmain : s.main = .search i)
    (hi : i ≠ maxConnections) (h : s.probe i = .ok s') : StepCase s .main s' := by
  unfold probe at h
  cases hk : threadIndex (s.threadCount + i % maxConnections) with
  | error reason =>
    rw [hk] at h
    cases h
  | ok k =>
    obtain ⟨rfl, hlow, hhigh⟩ := threadIndex_eq_ok hk
    rw [hk] at h
    cases hactive : (s.threads (s.threadCount + i % maxConnections)).active with
    | true =>
      have hs : s' = { s with main := .search (i + 1) } := by
        simpa [bind, Except.bind, pure, Except.pure, hactive] using h.symm
      rw [hs]
      exact .busy hmain hi hlow hhigh hactive
    | false =>
      have hs : s' = { s.setActive (s.threadCount + i % maxConnections) true with
          threadCount := s.threadCount + i % maxConnections, main := .unlock } := by
        simpa [bind, Except.bind, pure, Except.pure, hactive] using h.symm
      rw [hs]
      exact .choose hmain hi hlow hhigh hactive

/-- Every step of `main` is one of the cases. -/
theorem mainStep_cases {s s' : Server} (h : s.mainStep = .ok s') : StepCase s .main s' := by
  unfold mainStep at h
  cases hmain : s.main with
  | lock =>
    simp only [hmain] at h
    cases hlock : s.lock .main with
    | error reason =>
      rw [hlock] at h
      cases h
    | ok m =>
      obtain ⟨hmutex, rfl⟩ := lock_eq_ok hlock
      rw [hlock] at h
      cases h
      exact .begin hmain hmutex
  | search i =>
    simp only [hmain] at h
    by_cases hi : i = maxConnections
    · rw [if_pos hi] at h
      cases h
      exact .full (hi ▸ hmain)
    · rw [if_neg hi] at h
      exact probe_cases hmain hi h
  | sleep =>
    simp only [hmain] at h
    cases h
    exact .wake hmain
  | unlock =>
    simp only [hmain] at h
    cases h
    exact .leave hmain
  | accept =>
    simp only [hmain] at h
    cases h

/-- Every step of a connection thread is one of the cases. -/
theorem connectionStep_cases {s s' : Server} {n : ℕ} (h : s.connectionStep n = .ok s') :
    StepCase s (.connection n) s' := by
  unfold connectionStep at h
  cases hc : s.running n with
  | none =>
    simp only [hc] at h
    cases h
  | some c =>
    simp only [hc] at h
    cases hpoint : c.point with
    | stateMachine =>
      simp only [hpoint] at h
      cases h
      exact .ended hc hpoint
    | lock =>
      simp only [hpoint] at h
      cases hlock : s.lock (.connection n) with
      | error reason =>
        rw [hlock] at h
        cases h
      | ok m =>
        obtain ⟨hmutex, rfl⟩ := lock_eq_ok hlock
        rw [hlock] at h
        cases h
        exact .locked hc hpoint hmutex
    | clear =>
      simp only [hpoint] at h
      cases hk : threadIndex (s.threads c.thread).threadId with
      | error reason =>
        rw [hk] at h
        cases h
      | ok k =>
        obtain ⟨rfl, -⟩ := threadIndex_eq_ok hk
        rw [hk] at h
        cases h
        exact .cleared hc hpoint
    | unlock =>
      simp only [hpoint] at h
      cases h
      exact .gone hc hpoint

/-- Every step of the server is one of the cases. -/
theorem step_cases {s s' : Server} {a : ServerAct} (h : s.step a = .ok s') : StepCase s a s' := by
  cases a with
  | main => exact mainStep_cases h
  | connection n => exact connectionStep_cases h
  | accept connfd =>
    change s.acceptStep connfd = .ok s' at h
    unfold acceptStep at h
    by_cases hmain : s.main = .accept
    · rw [if_neg (not_not.mpr hmain)] at h
      by_cases hfd : connfd = -1
      · rw [if_pos hfd] at h
        cases h
      · rw [if_neg hfd] at h
        cases h
        exact .accept hmain hfd
    · rw [if_pos hmain] at h
      cases h

/-! ## What every state satisfies -/

/-- A search that starts at `thread_count` stays inside the table: it starts at the first
slot, or one of the slots that it reaches before the end of the table is free. -/
def SearchFits (s : Server) : Prop :=
  s.threadCount = 0 ∨
    ∃ k, s.threadCount ≤ k ∧ k < maxConnections ∧ (s.threads k).active = false

/-- Every search that a step starts stays inside the table. -/
def StartsFitting (s : Server) (a : ServerAct) : Prop :=
  a = .main → s.main = .lock → s.SearchFits

/-- The search has counted up to `i` and found nothing free so far. -/
structure Searching (s : Server) (i : ℤ) : Prop where
  low : 0 ≤ i
  high : i ≤ maxConnections
  fits : s.SearchFits
  passed : ∀ k, s.threadCount ≤ k → k < s.threadCount + i → k < maxConnections →
    (s.threads k).active = true

/-- `main` is between its lock and its unlock. -/
def MainLocked (s : Server) : Prop :=
  (∃ i, s.main = .search i) ∨ s.main = .sleep ∨ s.main = .unlock

/-- `main` has taken a slot and not yet started its thread. -/
def Chosen (s : Server) : Prop := s.main = .unlock ∨ s.main = .accept

/-- What holds of the server between two steps. -/
structure Sound (s : Server) : Prop where
  countLow : 0 ≤ s.threadCount
  countHigh : s.threadCount < maxConnections
  fresh : ∀ n, s.started ≤ n → s.running n = none
  low : ∀ n c, s.running n = some c → 0 ≤ c.thread
  high : ∀ n c, s.running n = some c → c.thread < maxConnections
  ownId : ∀ n c, s.running n = some c → (s.threads c.thread).threadId = c.thread
  unshared : ∀ n m c d, s.running n = some c → s.running m = some d → c.thread = d.thread → n = m
  taken : ∀ n c, s.running n = some c → c.point ≠ .unlock → (s.threads c.thread).active = true
  locked : ∀ n c, s.running n = some c → c.point = .clear ∨ c.point = .unlock →
    s.threadAllocationMutex = some (.connection n)
  mainLocked : s.MainLocked → s.threadAllocationMutex = some .main
  searching : ∀ i, s.main = .search i → s.Searching i
  sleeping : s.main = .sleep → s.Searching maxConnections
  reserved : s.Chosen → (s.threads s.threadCount).active = true
  apart : s.Chosen → ∀ n c, s.running n = some c → c.thread ≠ s.threadCount

/-- A search that has counted to the end has started at the first slot. -/
theorem Searching.threadCount_eq_zero {s : Server} (h : s.Searching maxConnections)
    (hlow : 0 ≤ s.threadCount) : s.threadCount = 0 := by
  obtain hzero | ⟨k, hk, hrange, hfree⟩ := h.fits
  · exact hzero
  · have hactive := h.passed k hk (by omega) hrange
    rw [hfree] at hactive
    cases hactive

/-- A search that has counted to the end has found every slot active. -/
theorem Searching.all_active {s : Server} (h : s.Searching maxConnections)
    (hlow : 0 ≤ s.threadCount) {k : ℤ} (hk : 0 ≤ k) (hrange : k < maxConnections) :
    (s.threads k).active = true := by
  have hzero := h.threadCount_eq_zero hlow
  exact h.passed k (by omega) (by omega) hrange

/-- The counter of a search that has not come to the end is the offset it probes. -/
theorem Searching.probed {s : Server} {i : ℤ} (h : s.Searching i) (hi : i ≠ maxConnections) :
    s.threadCount + i % maxConnections = s.threadCount + i := by
  have hlow := h.low
  have hhigh := h.high
  rw [Int.emod_eq_of_lt hlow (by omega)]

/-- A search that has not come to the end probes inside the table. -/
theorem Searching.in_range {s : Server} {i : ℤ} (h : s.Searching i) (hi : i ≠ maxConnections) :
    s.threadCount + i < maxConnections := by
  have hhigh := h.high
  obtain hzero | ⟨k, hk, hrange, hfree⟩ := h.fits
  · omega
  · by_contra hbeyond
    have hactive := h.passed k hk (by omega) hrange
    rw [hfree] at hactive
    cases hactive

/-- A search that starts has passed nothing. -/
theorem Searching.zero {s : Server} (hfits : s.SearchFits) : s.Searching 0 where
  low := le_refl 0
  high := by decide
  fits := hfits
  passed := by
    intro k hk hlt hrange
    omega

/-- A search goes on over a busy slot. -/
theorem Searching.succ {s : Server} {i : ℤ} (h : s.Searching i) (hi : i ≠ maxConnections)
    (hactive : (s.threads (s.threadCount + i)).active = true) : s.Searching (i + 1) where
  low := by
    have hlow := h.low
    omega
  high := by
    have hhigh := h.high
    omega
  fits := h.fits
  passed := by
    intro k hk hlt hrange
    by_cases hlast : k = s.threadCount + i
    · rwa [hlast]
    · exact h.passed k hk (by omega) hrange

/-- The server starts sound. -/
theorem Sound.initial : Sound Server.initial where
  countLow := le_refl 0
  countHigh := by decide
  fresh := by
    intro n hn
    rfl
  low := by
    intro n c hc
    cases hc
  high := by
    intro n c hc
    cases hc
  ownId := by
    intro n c hc
    cases hc
  unshared := by
    intro n m c d hc
    cases hc
  taken := by
    intro n c hc
    cases hc
  locked := by
    intro n c hc
    cases hc
  mainLocked := by
    intro h
    simp [MainLocked, Server.initial] at h
  searching := by
    intro i h
    cases h
  sleeping := by
    intro h
    cases h
  reserved := by
    intro h
    simp [Chosen, Server.initial] at h
  apart := by
    intro h n c hc
    cases hc

/-- `main` moves on inside its search or to its sleep, and nothing else changes. -/
theorem Sound.mainMoves {s : Server} (h : s.Sound) (hlocked : s.MainLocked) {point : MainPoint}
    (hpoint : (∃ i, point = .search i ∧ s.Searching i) ∨
      point = .sleep ∧ s.Searching maxConnections) :
    Sound { s with main := point } :=
  have hnot : ¬ Chosen { s with main := point } := by
    intro hchosen
    obtain ⟨i, rfl, -⟩ | ⟨rfl, -⟩ := hpoint <;> simp [Chosen] at hchosen
  { h with
    mainLocked := fun _ => h.mainLocked hlocked
    searching := by
      intro i hi
      obtain ⟨j, rfl, hj⟩ | ⟨rfl, -⟩ := hpoint
      · cases hi
        exact ⟨hj.low, hj.high, hj.fits, hj.passed⟩
      · cases hi
    sleeping := by
      intro hi
      obtain ⟨j, rfl, -⟩ | ⟨rfl, hj⟩ := hpoint
      · cases hi
      · exact ⟨hj.low, hj.high, hj.fits, hj.passed⟩
    reserved := fun hchosen => absurd hchosen hnot
    apart := fun hchosen => absurd hchosen hnot }

/-- `main` locks the mutex and starts its search. -/
theorem Sound.begin {s : Server} (h : s.Sound) (hmutex : s.threadAllocationMutex = none)
    (hfits : s.SearchFits) :
    Sound { s with threadAllocationMutex := some .main, main := .search 0 } :=
  { h with
    locked := by
      intro n c hc hpoint
      have hown := h.locked n c hc hpoint
      rw [hmutex] at hown
      cases hown
    mainLocked := fun _ => rfl
    searching := by
      intro i hi
      cases hi
      have hzero : s.Searching 0 := .zero hfits
      exact ⟨hzero.low, hzero.high, hzero.fits, hzero.passed⟩
    sleeping := by
      intro hi
      cases hi
    reserved := by
      intro hchosen
      simp [Chosen] at hchosen
    apart := by
      intro hchosen
      simp [Chosen] at hchosen }

/-- `main` takes the free slot that it has probed. -/
theorem Sound.choose {s : Server} (h : s.Sound) {i : ℤ} (hmain : s.main = .search i) {k : ℤ}
    (hlow : 0 ≤ k) (hhigh : k < maxConnections) (hfree : (s.threads k).active = false) :
    Sound { s.setActive k true with threadCount := k, main := .unlock } := by
  have hmutex : s.threadAllocationMutex = some .main := h.mainLocked (.inl ⟨i, hmain⟩)
  have hpoint : ∀ n c, s.running n = some c → c.point ≠ .unlock := by
    intro n c hc hunlock
    have hown := h.locked n c hc (.inr hunlock)
    rw [hmutex] at hown
    cases hown
  have hother : ∀ n c, s.running n = some c → c.thread ≠ k := by
    intro n c hc hsame
    have hactive := h.taken n c hc (hpoint n c hc)
    rw [hsame, hfree] at hactive
    cases hactive
  exact { h with
    countLow := hlow
    countHigh := hhigh
    ownId := by
      intro n c hc
      simp [setActive, Function.update_of_ne (hother n c hc), h.ownId n c hc]
    taken := by
      intro n c hc hrun
      simp [setActive, Function.update_of_ne (hother n c hc), h.taken n c hc hrun]
    mainLocked := fun _ => hmutex
    searching := by
      intro j hj
      cases hj
    sleeping := by
      intro hj
      cases hj
    reserved := fun _ => by simp [setActive]
    apart := fun _ n c hc => hother n c hc }

/-- `main` unlocks the mutex and waits for a client. -/
theorem Sound.leave {s : Server} (h : s.Sound) (hmain : s.main = .unlock) :
    Sound { s.unlock with main := .accept } :=
  { h with
    locked := by
      intro n c hc hpoint
      have hown := h.locked n c hc hpoint
      rw [h.mainLocked (.inr (.inr hmain))] at hown
      cases hown
    mainLocked := by
      intro hlocked
      simp [MainLocked] at hlocked
    searching := by
      intro i hi
      cases hi
    sleeping := by
      intro hi
      cases hi
    reserved := fun _ => h.reserved (.inl hmain)
    apart := fun _ => h.apart (.inl hmain) }

/-- `main` starts the thread of the slot it has taken. -/
theorem Sound.accept {s : Server} (h : s.Sound) (hmain : s.main = .accept) (connfd : ℤ) :
    Sound { s with
      threads := Function.update s.threads s.threadCount
        { s.threads s.threadCount with connfd := connfd, threadId := s.threadCount }
      running := Function.update s.running s.started (some ⟨s.threadCount, .stateMachine⟩)
      started := s.started + 1
      threadCount := (s.threadCount + 1) % maxConnections
      main := .lock } := by
  have hapart := h.apart (.inr hmain)
  have hnew : ∀ n c, Function.update s.running s.started
      (some ⟨s.threadCount, .stateMachine⟩) n = some c →
      (n = s.started ∧ c = ⟨s.threadCount, .stateMachine⟩) ∨
        (n ≠ s.started ∧ s.running n = some c) := by
    intro n c hc
    by_cases hn : n = s.started
    · rw [hn, Function.update_self] at hc
      exact .inl ⟨hn, (Option.some.inj hc).symm⟩
    · rw [Function.update_of_ne hn] at hc
      exact .inr ⟨hn, hc⟩
  constructor
  case countLow => exact Int.emod_nonneg _ (by decide)
  case countHigh => exact Int.emod_lt_of_pos _ (by decide)
  case fresh =>
    intro n hn
    have hold : s.started ≤ n := by
      change s.started + 1 ≤ n at hn
      omega
    have hne : n ≠ s.started := by
      change s.started + 1 ≤ n at hn
      omega
    change Function.update s.running s.started _ n = none
    rw [Function.update_of_ne hne, h.fresh n hold]
  case low =>
    intro n c hc
    obtain ⟨-, rfl⟩ | ⟨-, hold⟩ := hnew n c hc
    · exact h.countLow
    · exact h.low n c hold
  case high =>
    intro n c hc
    obtain ⟨-, rfl⟩ | ⟨-, hold⟩ := hnew n c hc
    · exact h.countHigh
    · exact h.high n c hold
  case ownId =>
    intro n c hc
    obtain ⟨-, rfl⟩ | ⟨-, hold⟩ := hnew n c hc
    · simp
    · simp [Function.update_of_ne (hapart n c hold), h.ownId n c hold]
  case unshared =>
    intro n m c d hc hd hsame
    obtain ⟨hn, rfl⟩ | ⟨-, hcold⟩ := hnew n c hc
    · obtain ⟨hm, -⟩ | ⟨-, hdold⟩ := hnew m d hd
      · rw [hn, hm]
      · exact absurd hsame.symm (hapart m d hdold)
    · obtain ⟨-, rfl⟩ | ⟨-, hdold⟩ := hnew m d hd
      · exact absurd hsame (hapart n c hcold)
      · exact h.unshared n m c d hcold hdold hsame
  case taken =>
    intro n c hc hrun
    obtain ⟨-, rfl⟩ | ⟨-, hold⟩ := hnew n c hc
    · simpa using h.reserved (.inr hmain)
    · simpa [Function.update_of_ne (hapart n c hold)] using h.taken n c hold hrun
  case locked =>
    intro n c hc hpoint
    obtain ⟨-, rfl⟩ | ⟨-, hold⟩ := hnew n c hc
    · simp at hpoint
    · exact h.locked n c hold hpoint
  case mainLocked =>
    intro hlocked
    simp [MainLocked] at hlocked
  case searching =>
    intro i hi
    cases hi
  case sleeping =>
    intro hi
    cases hi
  case reserved =>
    intro hchosen
    simp [Chosen] at hchosen
  case apart =>
    intro hchosen
    simp [Chosen] at hchosen

/-- A thread after another has moved on is that thread at its new point, or as it was. -/
theorem running_setPoint {s : Server} {n m : ℕ} {c d : ConnectionThreadMain}
    {point : ConnectionPoint} (hd : (s.setPoint n c point).running m = some d) :
    m = n ∧ d = { c with point := point } ∨ m ≠ n ∧ s.running m = some d := by
  change Function.update s.running n _ m = some d at hd
  by_cases hm : m = n
  · rw [hm, Function.update_self] at hd
    exact .inl ⟨hm, (Option.some.inj hd).symm⟩
  · rw [Function.update_of_ne hm] at hd
    exact .inr ⟨hm, hd⟩

/-- A thread after another has moved on was there before, with the same slot. -/
theorem running_of_setPoint {s : Server} {n m : ℕ} {c d : ConnectionThreadMain}
    {point : ConnectionPoint} (hc : s.running n = some c)
    (hd : (s.setPoint n c point).running m = some d) :
    ∃ old, s.running m = some old ∧ old.thread = d.thread := by
  obtain ⟨rfl, rfl⟩ | ⟨-, hold⟩ := running_setPoint hd
  · exact ⟨c, hc, rfl⟩
  · exact ⟨d, hold, rfl⟩

/-- A connection thread moves on without unlocking or giving its slot back. -/
theorem Sound.setPoint {s : Server} (h : s.Sound) {n : ℕ} {c : ConnectionThreadMain}
    {point : ConnectionPoint} (hc : s.running n = some c)
    (htaken : point ≠ .unlock → (s.threads c.thread).active = true)
    (hlocked : point = .clear ∨ point = .unlock →
      s.threadAllocationMutex = some (.connection n)) :
    Sound (s.setPoint n c point) :=
  { h with
    fresh := by
      intro m hm
      have hne : m ≠ n := by
        intro hsame
        rw [← hsame, h.fresh m hm] at hc
        cases hc
      change Function.update s.running n _ m = none
      rw [Function.update_of_ne hne, h.fresh m hm]
    low := by
      intro m d hd
      obtain ⟨old, hold, hsame⟩ := running_of_setPoint hc hd
      exact hsame ▸ h.low m old hold
    high := by
      intro m d hd
      obtain ⟨old, hold, hsame⟩ := running_of_setPoint hc hd
      exact hsame ▸ h.high m old hold
    ownId := by
      intro m d hd
      obtain ⟨old, hold, hsame⟩ := running_of_setPoint hc hd
      exact hsame ▸ h.ownId m old hold
    unshared := by
      intro m k d e hd he hshared
      obtain ⟨old, hold, hsame⟩ := running_of_setPoint hc hd
      obtain ⟨other, hother, hsame'⟩ := running_of_setPoint hc he
      exact h.unshared m k old other hold hother (hsame.trans (hshared.trans hsame'.symm))
    taken := by
      intro m d hd hrun
      obtain ⟨-, rfl⟩ | ⟨-, hold⟩ := running_setPoint hd
      · exact htaken hrun
      · exact h.taken m d hold hrun
    locked := by
      intro m d hd hpoint
      obtain ⟨rfl, rfl⟩ | ⟨-, hold⟩ := running_setPoint hd
      · exact hlocked hpoint
      · exact h.locked m d hold hpoint
    searching := by
      intro i hi
      have hold := h.searching i hi
      exact ⟨hold.low, hold.high, hold.fits, hold.passed⟩
    sleeping := by
      intro hi
      have hold := h.sleeping hi
      exact ⟨hold.low, hold.high, hold.fits, hold.passed⟩
    apart := by
      intro hchosen m d hd
      obtain ⟨old, hold, hsame⟩ := running_of_setPoint hc hd
      exact hsame ▸ h.apart hchosen m old hold }

/-- A thread locks the free mutex. -/
theorem Sound.lock {s : Server} (h : s.Sound) (hmutex : s.threadAllocationMutex = none)
    (n : ℕ) : Sound { s with threadAllocationMutex := some (.connection n) } := by
  have hnot : ¬ s.MainLocked := by
    intro hlocked
    have hown := h.mainLocked hlocked
    rw [hmutex] at hown
    cases hown
  exact { h with
    locked := by
      intro m d hd hpoint
      have hown := h.locked m d hd hpoint
      rw [hmutex] at hown
      cases hown
    mainLocked := fun hlocked => absurd hlocked hnot
    searching := fun i hi => absurd (.inl ⟨i, hi⟩) hnot
    sleeping := fun hi => absurd (.inr (.inl hi)) hnot }

/-- A thread that is about to unlock has its slot marked free. -/
theorem Sound.clear {s : Server} (h : s.Sound) {n : ℕ} {c : ConnectionThreadMain}
    (hc : s.running n = some c) (hpoint : c.point = .unlock) :
    Sound (s.setActive c.thread false) := by
  have hmutex : s.threadAllocationMutex = some (.connection n) := h.locked n c hc (.inr hpoint)
  have hnot : ¬ s.MainLocked := by
    intro hlocked
    have hown := h.mainLocked hlocked
    rw [hmutex] at hown
    cases hown
  have hid : ∀ k, ((s.setActive c.thread false).threads k).threadId = (s.threads k).threadId := by
    intro k
    by_cases hk : k = c.thread
    · simp [setActive, hk]
    · simp [setActive, Function.update_of_ne hk]
  have hactive : ∀ k, k ≠ c.thread →
      ((s.setActive c.thread false).threads k).active = (s.threads k).active := by
    intro k hk
    simp [setActive, Function.update_of_ne hk]
  exact { h with
    ownId := by
      intro m d hd
      rw [hid]
      exact h.ownId m d hd
    taken := by
      intro m d hd hrun
      have hne : d.thread ≠ c.thread := by
        intro hsame
        obtain rfl := h.unshared m n d c hd hc hsame
        obtain rfl := Option.some.inj (hd.symm.trans hc)
        exact hrun hpoint
      rw [hactive _ hne]
      exact h.taken m d hd hrun
    searching := fun i hi => absurd (.inl ⟨i, hi⟩) hnot
    sleeping := fun hi => absurd (.inr (.inl hi)) hnot
    reserved := by
      intro hchosen
      change ((s.setActive c.thread false).threads s.threadCount).active = true
      rw [hactive _ (h.apart hchosen n c hc).symm]
      exact h.reserved hchosen }

/-- The thread that holds the mutex unlocks it and is gone. -/
theorem Sound.gone {s : Server} (h : s.Sound) {n : ℕ} {c : ConnectionThreadMain}
    (hc : s.running n = some c) (hpoint : c.point = .unlock) :
    Sound { s.unlock with running := Function.update s.running n none } := by
  have hmutex : s.threadAllocationMutex = some (.connection n) := h.locked n c hc (.inr hpoint)
  have hnot : ¬ s.MainLocked := by
    intro hlocked
    have hown := h.mainLocked hlocked
    rw [hmutex] at hown
    cases hown
  have hleft : ∀ m d, Function.update s.running n none m = some d →
      m ≠ n ∧ s.running m = some d := by
    intro m d hd
    by_cases hm : m = n
    · rw [hm, Function.update_self] at hd
      cases hd
    · rw [Function.update_of_ne hm] at hd
      exact ⟨hm, hd⟩
  exact { h with
    fresh := by
      intro m hm
      have hold := h.fresh m hm
      by_cases hne : m = n
      · simp [hne]
      · simpa [Function.update_of_ne hne] using hold
    low := fun m d hd => h.low m d (hleft m d hd).2
    high := fun m d hd => h.high m d (hleft m d hd).2
    ownId := fun m d hd => h.ownId m d (hleft m d hd).2
    unshared := fun m k d e hd he => h.unshared m k d e (hleft m d hd).2 (hleft k e he).2
    taken := fun m d hd => h.taken m d (hleft m d hd).2
    locked := by
      intro m d hd hpoint'
      obtain ⟨hne, hold⟩ := hleft m d hd
      have hown := h.locked m d hold hpoint'
      rw [hmutex] at hown
      cases hown
      exact absurd rfl hne
    mainLocked := fun hlocked => absurd hlocked hnot
    searching := fun i hi => absurd (.inl ⟨i, hi⟩) hnot
    sleeping := fun hi => absurd (.inr (.inl hi)) hnot
    apart := fun hchosen m d hd => h.apart hchosen m d (hleft m d hd).2 }

/-- Every step that starts its search fittingly keeps the server sound. -/
theorem Sound.next {s s' : Server} {a : ServerAct} (h : s.Sound) (hfits : s.StartsFitting a)
    (hstep : s.step a = .ok s') : s'.Sound := by
  cases step_cases hstep with
  | begin hmain hmutex => exact h.begin hmutex (hfits rfl hmain)
  | full hmain => exact h.mainMoves (.inl ⟨_, hmain⟩) (.inr ⟨rfl, h.searching _ hmain⟩)
  | @busy i hmain hi _ _ hactive =>
    have hsearch := h.searching i hmain
    rw [hsearch.probed hi] at hactive
    exact h.mainMoves (.inl ⟨i, hmain⟩) (.inl ⟨i + 1, rfl, hsearch.succ hi hactive⟩)
  | choose hmain _ hlow hhigh hfree => exact h.choose hmain hlow hhigh hfree
  | wake hmain =>
    have hfits : s.SearchFits := (h.sleeping hmain).fits
    exact h.mainMoves (.inr (.inl hmain)) (.inl ⟨0, rfl, .zero hfits⟩)
  | leave hmain => exact h.leave hmain
  | accept hmain _ => exact h.accept hmain _
  | ended hc hpoint =>
    exact h.setPoint hc (fun _ => h.taken _ _ hc (by simp [hpoint])) (by simp)
  | @locked n c hc hpoint hmutex =>
    have hactive := h.taken n c hc (by simp [hpoint])
    exact (h.lock hmutex n).setPoint hc (fun _ => hactive) (fun _ => rfl)
  | @cleared n c hc hpoint =>
    have hmutex := h.locked n c hc (.inl hpoint)
    have hmoved : Sound (s.setPoint n c .unlock) := h.setPoint hc (by simp) (fun _ => hmutex)
    have hat : (s.setPoint n c .unlock).running n = some { c with point := .unlock } :=
      Function.update_self ..
    rw [h.ownId n c hc]
    exact @Sound.clear _ hmoved n { c with point := .unlock } hat rfl
  | gone hc hpoint => exact h.gone hc hpoint

/-- Every state that a run reaches whose searches start fittingly is sound. -/
theorem Sound.of_reaches {s : Server} (h : Reaches Server.step StartsFitting Server.initial s) :
    s.Sound :=
  h.invariant Sound.initial fun _ _ _ hsound hfits hstep => hsound.next hfits hstep

/-! ## The search -/

/-- The search goes on over a busy slot. -/
theorem step_busy {s : Server} {i : ℤ} (hmain : s.main = .search i) (hi : i ≠ maxConnections)
    (hlow : 0 ≤ s.threadCount + i % maxConnections)
    (hhigh : s.threadCount + i % maxConnections < maxConnections)
    (hactive : (s.threads (s.threadCount + i % maxConnections)).active = true) :
    s.step .main = .ok { s with main := .search (i + 1) } := by
  change s.mainStep = _
  unfold mainStep
  simp only [hmain, if_neg hi]
  unfold probe
  rw [threadIndex_of_range hlow hhigh]
  simp [bind, Except.bind, pure, Except.pure, hactive]

/-- The search takes a free slot. -/
theorem step_choose {s : Server} {i : ℤ} (hmain : s.main = .search i) (hi : i ≠ maxConnections)
    (hlow : 0 ≤ s.threadCount + i % maxConnections)
    (hhigh : s.threadCount + i % maxConnections < maxConnections)
    (hfree : (s.threads (s.threadCount + i % maxConnections)).active = false) :
    s.step .main = .ok { s.setActive (s.threadCount + i % maxConnections) true with
      threadCount := s.threadCount + i % maxConnections, main := .unlock } := by
  change s.mainStep = _
  unfold mainStep
  simp only [hmain, if_neg hi]
  unfold probe
  rw [threadIndex_of_range hlow hhigh]
  simp [bind, Except.bind, pure, Except.pure, hfree]

/-- The search reads the slot behind the table once it has counted that far. -/
theorem step_overrun {s : Server} {i : ℤ} (hmain : s.main = .search i) (hlow : 0 ≤ i)
    (hi : i < maxConnections) (hbeyond : s.threadCount + i = maxConnections) :
    s.step .main = .error .threadsRange := by
  change s.mainStep = _
  unfold mainStep
  simp only [hmain, if_neg hi.ne]
  unfold probe
  rw [Int.emod_eq_of_lt hlow hi, hbeyond]
  rfl

/-- The search passes over any number of busy slots. -/
theorem exec_passes {s : Server} {i : ℤ} {steps : ℕ} (hmain : s.main = .search i)
    (hcount : 0 ≤ s.threadCount) (hlow : 0 ≤ i)
    (hhigh : s.threadCount + i + steps ≤ maxConnections)
    (hactive : ∀ k, s.threadCount + i ≤ k → k < s.threadCount + i + steps →
      (s.threads k).active = true) :
    exec step s (List.replicate steps .main) = .ok { s with main := .search (i + steps) } := by
  induction steps generalizing s i with
  | zero =>
    rw [List.replicate_zero, exec_nil, Nat.cast_zero, add_zero, ← hmain]
  | succ steps ih =>
    have hprobed : s.threadCount + i % maxConnections = s.threadCount + i := by
      rw [Int.emod_eq_of_lt hlow (by omega)]
    have hbusy : s.step .main = .ok { s with main := .search (i + 1) } :=
      step_busy hmain (by omega) (by omega) (by omega)
        (by rw [hprobed]; exact hactive _ (le_refl _) (by omega))
    have hrest := ih (s := { s with main := .search (i + 1) }) (i := i + 1) rfl hcount (by omega)
      (by change s.threadCount + (i + 1) + (steps : ℤ) ≤ _; omega)
      (by
        intro k hk hlt
        change s.threadCount + (i + 1) ≤ k at hk
        change k < s.threadCount + (i + 1) + (steps : ℤ) at hlt
        exact hactive k (by omega) (by omega))
    have hcounter : i + 1 + (steps : ℤ) = i + ((steps + 1 : ℕ) : ℤ) := by
      push_cast
      ring
    rw [List.replicate_succ, exec_cons _ _ _ hbusy, hrest, hcounter]

/-- The search comes to a slot that it takes if one is free further on. -/
theorem exec_finds {s : Server} {i : ℤ} {distance : ℕ} (hmain : s.main = .search i)
    (hcount : 0 ≤ s.threadCount) (hlow : 0 ≤ i)
    (hhigh : s.threadCount + i + distance < maxConnections)
    (hfree : (s.threads (s.threadCount + i + distance)).active = false) :
    ∃ steps s', exec step s (List.replicate steps .main) = .ok s' ∧ s'.main = .unlock := by
  induction distance generalizing s i with
  | zero =>
    have hprobed : s.threadCount + i % maxConnections = s.threadCount + i := by
      rw [Int.emod_eq_of_lt hlow (by omega)]
    rw [Nat.cast_zero, add_zero, ← hprobed] at hfree
    have htaken := step_choose hmain (by omega) (by omega) (by omega) hfree
    exact ⟨1, _, exec_cons _ _ [] htaken, rfl⟩
  | succ distance ih =>
    have hprobed : s.threadCount + i % maxConnections = s.threadCount + i := by
      rw [Int.emod_eq_of_lt hlow (by omega)]
    cases hactive : (s.threads (s.threadCount + i % maxConnections)).active with
    | false =>
      have htaken := step_choose hmain (by omega) (by omega) (by omega) hactive
      exact ⟨1, _, exec_cons _ _ [] htaken, rfl⟩
    | true =>
      have hbusy := step_busy hmain (by omega) (by omega) (by omega) hactive
      have hnext : s.threadCount + (i + 1) + (distance : ℤ) =
          s.threadCount + i + ((distance + 1 : ℕ) : ℤ) := by
        push_cast
        ring
      obtain ⟨steps, s', hrun, hdone⟩ := ih (s := { s with main := .search (i + 1) }) rfl hcount
        (by omega) (by change s.threadCount + (i + 1) + (distance : ℤ) < _; omega)
        (by change (s.threads (s.threadCount + (i + 1) + (distance : ℤ))).active = false
            rw [hnext]
            exact hfree)
      exact ⟨steps + 1, s', by rw [List.replicate_succ, exec_cons _ _ _ hbusy, hrun], hdone⟩

/-- The thread id that a connection thread reads from its slot. -/
def threadIdOf (s : Server) (c : ConnectionThreadMain) : ℤ := (s.threads c.thread).threadId

/-- The slots of a server are valid and unshared. -/
structure SlotsValid (s : Server) : Prop where
  inside : ∀ a, s.step a ≠ .error .threadsRange
  chosen : ∀ s', s.step .main = .ok s' → s'.main = .unlock →
    0 ≤ s'.threadCount ∧ s'.threadCount < maxConnections ∧
      (s.threads s'.threadCount).active = false
  finds : ∀ i, s.main = .search i →
    (∃ k, 0 ≤ k ∧ k < maxConnections ∧ (s.threads k).active = false) →
      ∃ steps s', exec step s (List.replicate steps .main) = .ok s' ∧ s'.main = .unlock
  retries : s.main = .sleep → ∀ k, 0 ≤ k → k < maxConnections → (s.threads k).active = true
  valid : ∀ n c, s.running n = some c → subIndex (s.threadIdOf c) = .ok (s.threadIdOf c)
  unshared : ∀ n m c d, s.running n = some c → s.running m = some d →
    s.threadIdOf c = s.threadIdOf d → n = m

/-- A sound server does not leave the table. -/
theorem Sound.inside {s : Server} (h : s.Sound) (a : ServerAct) :
    s.step a ≠ .error .threadsRange := by
  intro hstep
  cases a with
  | main =>
    change s.mainStep = _ at hstep
    unfold mainStep at hstep
    cases hmain : s.main with
    | lock =>
      simp only [hmain] at hstep
      obtain hlock | ⟨m, hlock⟩ := lock_total s .main <;> rw [hlock] at hstep <;> cases hstep
    | search i =>
      simp only [hmain] at hstep
      by_cases hi : i = maxConnections
      · rw [if_pos hi] at hstep
        cases hstep
      · rw [if_neg hi] at hstep
        have hsearch := h.searching i hmain
        have hlow : 0 ≤ s.threadCount + i := add_nonneg h.countLow hsearch.low
        unfold probe at hstep
        rw [hsearch.probed hi, threadIndex_of_range hlow (hsearch.in_range hi)] at hstep
        simp only [bind, Except.bind, pure, Except.pure] at hstep
        split at hstep <;> cases hstep
    | sleep =>
      simp only [hmain] at hstep
      cases hstep
    | unlock =>
      simp only [hmain] at hstep
      cases hstep
    | accept =>
      simp only [hmain] at hstep
      cases hstep
  | accept connfd =>
    change s.acceptStep connfd = _ at hstep
    unfold acceptStep at hstep
    split at hstep
    · cases hstep
    · split at hstep <;> cases hstep
  | connection n =>
    change s.connectionStep n = _ at hstep
    unfold connectionStep at hstep
    cases hc : s.running n with
    | none =>
      simp only [hc] at hstep
      cases hstep
    | some c =>
      simp only [hc] at hstep
      cases hpoint : c.point with
      | stateMachine =>
        simp only [hpoint] at hstep
        cases hstep
      | lock =>
        simp only [hpoint] at hstep
        obtain hlock | ⟨m, hlock⟩ := lock_total s (.connection n) <;> rw [hlock] at hstep <;>
          cases hstep
      | clear =>
        simp only [hpoint] at hstep
        rw [h.ownId n c hc, threadIndex_of_range (h.low n c hc) (h.high n c hc)] at hstep
        cases hstep
      | unlock =>
        simp only [hpoint] at hstep
        cases hstep

/-- A search that has not come to the end finds a slot if one is free. -/
theorem Sound.finds {s : Server} (h : s.Sound) {i : ℤ} (hmain : s.main = .search i) {k : ℤ}
    (hk : 0 ≤ k) (hrange : k < maxConnections) (hfree : (s.threads k).active = false) :
    ∃ steps s', exec step s (List.replicate steps .main) = .ok s' ∧ s'.main = .unlock := by
  have hsearch := h.searching i hmain
  -- the free slot that the search can reach: any one, when it started at the first slot
  have hahead : ∃ j, s.threadCount ≤ j ∧ j < maxConnections ∧ (s.threads j).active = false := by
    obtain hzero | hahead := hsearch.fits
    · exact ⟨k, by omega, hrange, hfree⟩
    · exact hahead
  obtain ⟨j, hj, hjrange, hjfree⟩ := hahead
  have hnotPassed : s.threadCount + i ≤ j := by
    by_contra hpassed
    have hactive := hsearch.passed j hj (by omega) hjrange
    rw [hjfree] at hactive
    cases hactive
  have hdistance : s.threadCount + i + ((j - (s.threadCount + i)).toNat : ℤ) = j := by omega
  exact exec_finds hmain h.countLow hsearch.low (by rwa [hdistance]) (by rwa [hdistance])

/-- The slot that a step of `main` chooses is inside the table and was free. -/
theorem chosen_free {s s' : Server} (hstep : s.step .main = .ok s') (hafter : s'.main = .unlock) :
    0 ≤ s'.threadCount ∧ s'.threadCount < maxConnections ∧
      (s.threads s'.threadCount).active = false := by
  cases step_cases hstep with
  | begin => cases hafter
  | full => cases hafter
  | busy => cases hafter
  | choose _ _ hlow hhigh hfree => exact ⟨hlow, hhigh, hfree⟩
  | wake => cases hafter
  | leave => cases hafter

/-- The slots of a sound server are valid and unshared. -/
theorem Sound.slotsValid {s : Server} (h : s.Sound) : s.SlotsValid where
  inside := h.inside
  chosen := fun _ => chosen_free
  finds := fun _ hmain ⟨_, hk, hrange, hfree⟩ => h.finds hmain hk hrange hfree
  retries := fun hmain _ hk hrange => (h.sleeping hmain).all_active h.countLow hk hrange
  valid := by
    intro n c hc
    rw [threadIdOf, h.ownId n c hc]
    exact if_pos ⟨h.low n c hc, h.high n c hc⟩
  unshared := by
    intro n m c d hc hd hsame
    rw [threadIdOf, threadIdOf, h.ownId n c hc, h.ownId m d hd] at hsame
    exact h.unshared n m c d hc hd hsame

/-! ## One connection after the other -/

/-- The server after `main` has taken the slot at `thread_count` for a new connection. -/
def served (s : Server) (connfd : ℤ) : Server :=
  { s with
    threads := Function.update s.threads s.threadCount ⟨true, s.threadCount, connfd⟩
    running := Function.update s.running s.started (some ⟨s.threadCount, .stateMachine⟩)
    started := s.started + 1
    threadCount := (s.threadCount + 1) % maxConnections }

/-- A server that waits to start its search, with the slot at `thread_count` free. -/
structure Open (s : Server) : Prop where
  main : s.main = .lock
  mutex : s.threadAllocationMutex = none
  low : 0 ≤ s.threadCount
  high : s.threadCount < maxConnections
  free : (s.threads s.threadCount).active = false

/-- The steps by which `main` serves a connection on a free slot at `thread_count`. -/
theorem steps_served {s : Server} (h : s.Open) {connfd : ℤ} (hfd : connfd ≠ -1) :
    ∃ s₁ s₂ s₃ : Server,
      (s.step .main = .ok s₁ ∧ s₁.step .main = .ok s₂ ∧ s₂.step .main = .ok s₃ ∧
        s₃.step (.accept connfd) = .ok (s.served connfd)) ∧
      s₁.main ≠ .lock ∧ s₂.main ≠ .lock ∧ s₃.main ≠ .lock := by
  have hprobed : s.threadCount + 0 % maxConnections = s.threadCount := by
    rw [Int.zero_emod, add_zero]
  have hbegin : s.step .main =
      .ok { s with threadAllocationMutex := some .main, main := .search 0 } := by
    simp [step, mainStep, h.main, lock, h.mutex, bind, Except.bind, pure, Except.pure]
  have hchoose := step_choose (s := { s with
      threadAllocationMutex := some .main, main := .search 0 }) (i := 0) rfl (by decide)
    (by rw [hprobed]; exact h.low) (by rw [hprobed]; exact h.high) (by rw [hprobed]; exact h.free)
  refine ⟨_, _, _, ⟨hbegin, hchoose, rfl, ?_⟩, by simp, by simp, by simp⟩
  have hmain := h.main
  have hmutex := h.mutex
  simp [step, acceptStep, hfd, served, setActive, unlock, hmain, hmutex]

/-- The steps by which `main` serves a connection, as a run. -/
theorem exec_served {s : Server} (h : s.Open) {connfd : ℤ} (hfd : connfd ≠ -1) :
    exec step s [.main, .main, .main, .accept connfd] = .ok (s.served connfd) := by
  obtain ⟨s₁, s₂, s₃, ⟨h₁, h₂, h₃, h₄⟩, -⟩ := steps_served h hfd
  rw [exec_cons _ _ _ h₁, exec_cons _ _ _ h₂, exec_cons _ _ _ h₃, exec_cons _ _ _ h₄, exec_nil]

/-- A guard that lets `main` search from a free slot at `thread_count` and go on from there. -/
def LetsServe (guard : Server → ServerAct → Prop) : Prop :=
  ∀ s a, (s.main = .lock → s.Open) → (∀ n, a ≠ .connection n) → guard s a

/-- Serving a connection on a free slot at `thread_count` is a run of such a guard. -/
theorem reaches_served {guard : Server → ServerAct → Prop} (hguard : LetsServe guard) {s : Server}
    (h : s.Open) {connfd : ℤ} (hfd : connfd ≠ -1) : Reaches step guard s (s.served connfd) := by
  obtain ⟨s₁, s₂, s₃, ⟨h₁, h₂, h₃, h₄⟩, hp₁, hp₂, hp₃⟩ := steps_served h hfd
  have hto₁ : Reaches step guard s s₁ := .tail .refl (hguard _ _ (fun _ => h) (by simp)) h₁
  have hto₂ : Reaches step guard s s₂ :=
    .tail hto₁ (hguard _ _ (fun hlock => absurd hlock hp₁) (by simp)) h₂
  have hto₃ : Reaches step guard s s₃ :=
    .tail hto₂ (hguard _ _ (fun hlock => absurd hlock hp₂) (by simp)) h₃
  exact .tail hto₃ (hguard _ _ (fun hlock => absurd hlock hp₃) (by simp)) h₄

/-- A search from a free slot at `thread_count` starts fittingly. -/
theorem letsServe_startsFitting : LetsServe StartsFitting := by
  intro s a hopen _ _ hlock
  have h := hopen hlock
  exact .inr ⟨s.threadCount, le_refl _, h.high, h.free⟩

/-- The server after it has served that many connections, none of which has ended. -/
def filled : ℕ → Server
  | 0 => initial
  | n + 1 => (filled n).served (n + 3)

/-- The steps that serve that many connections, with the file descriptors 3, 4, … -/
def fillSteps : ℕ → List ServerAct
  | 0 => []
  | n + 1 => fillSteps n ++ [.main, .main, .main, .accept (n + 3)]

/-- Up to the size of the table, the slots taken so far are the first ones. -/
theorem filled_spec {n : ℕ} (hn : (n : ℤ) ≤ maxConnections) :
    (filled n).main = .lock ∧ (filled n).threadAllocationMutex = none ∧
      (filled n).threadCount = n % maxConnections ∧ (filled n).started = n ∧
      ∀ k, ((filled n).threads k).active = true ↔ 0 ≤ k ∧ k < n := by
  induction n with
  | zero =>
    refine ⟨rfl, rfl, rfl, rfl, fun k => ?_⟩
    constructor
    · intro h
      cases h
    · intro h
      push_cast at h
      omega
  | succ n ih =>
    push_cast at hn
    obtain ⟨hmain, hmutex, hcount, hstarted, hactive⟩ := ih (by omega)
    rw [Int.emod_eq_of_lt (by omega) (by omega)] at hcount
    refine ⟨hmain, hmutex, ?_, ?_, fun k => ?_⟩
    · simp [filled, served, hcount]
    · simp [filled, served, hstarted]
    · by_cases hk : k = n
      · simp [filled, served, hcount, hk]
      · have hother := hactive k
        simp only [filled, served, hcount, Function.update_of_ne hk, hother]
        push_cast
        omega

/-- Below the size of the table there is a free slot for the next connection. -/
theorem filled_open {n : ℕ} (hn : (n : ℤ) < maxConnections) : (filled n).Open := by
  obtain ⟨hmain, hmutex, hcount, -, hactive⟩ := filled_spec hn.le
  rw [Int.emod_eq_of_lt (by omega) hn] at hcount
  refine ⟨hmain, hmutex, by omega, by omega, ?_⟩
  rw [← Bool.not_eq_true, hactive, hcount]
  omega

/-- While the table fills, each connection runs on the slot of its number. -/
theorem filled_running {n m : ℕ} (hn : (n : ℤ) ≤ maxConnections) (hm : m < n) :
    (filled n).running m = some ⟨m, .stateMachine⟩ := by
  induction n with
  | zero => omega
  | succ n ih =>
    push_cast at hn
    obtain ⟨-, -, hcount, hstarted, -⟩ := filled_spec (n := n) (by omega)
    rw [Int.emod_eq_of_lt (by omega) (by omega)] at hcount
    change Function.update (filled n).running (filled n).started _ m = _
    rw [hstarted, hcount]
    by_cases hlast : m = n
    · rw [hlast, Function.update_self]
    · rw [Function.update_of_ne hlast, ih (by omega) (by omega)]

/-- The steps that fill the table do. -/
theorem exec_fillSteps {n : ℕ} (hn : (n : ℤ) ≤ maxConnections) :
    exec step initial (fillSteps n) = .ok (filled n) := by
  induction n with
  | zero => rfl
  | succ n ih =>
    push_cast at hn
    have hlast := exec_served (filled_open (n := n) (by omega)) (show (n : ℤ) + 3 ≠ -1 by omega)
    exact exec_append_eq_ok.mpr ⟨filled n, ih (by omega), hlast⟩

/-- Filling the table is a run of such a guard. -/
theorem reaches_filled {guard : Server → ServerAct → Prop} (hguard : LetsServe guard) {n : ℕ}
    (hn : (n : ℤ) ≤ maxConnections) : Reaches step guard initial (filled n) := by
  induction n with
  | zero => exact .refl
  | succ n ih =>
    push_cast at hn
    exact (ih (by omega)).trans (reaches_served hguard (filled_open (by omega)) (by omega))

/-- A search that starts with every slot from `thread_count` on busy reads behind the table,
unless it starts at the first slot. -/
theorem overruns_of_not_fits {s : Server} {steps : ℕ} (hmain : s.main = .lock)
    (hmutex : s.threadAllocationMutex = none) (hcount : 0 < s.threadCount)
    (hsteps : s.threadCount + steps = maxConnections)
    (hactive : ∀ k, s.threadCount ≤ k → k < maxConnections → (s.threads k).active = true) :
    ∃ s', exec step s (.main :: List.replicate steps .main) = .ok s' ∧
      s'.step .main = .error .threadsRange := by
  have hbegin : s.step .main =
      .ok { s with threadAllocationMutex := some .main, main := .search 0 } := by
    simp [step, mainStep, hmain, lock, hmutex, bind, Except.bind, pure, Except.pure]
  have hbusy : ∀ k, s.threadCount + 0 ≤ k → k < s.threadCount + 0 + (steps : ℤ) →
      (s.threads k).active = true := by
    intro k hk hlt
    exact hactive k (by omega) (by omega)
  have hpasses := exec_passes (s := { s with
      threadAllocationMutex := some .main, main := .search 0 }) (i := 0) rfl
    hcount.le (le_refl 0) (by change s.threadCount + 0 + (steps : ℤ) ≤ _; omega) hbusy
  refine ⟨_, (exec_cons _ _ _ hbegin).trans hpasses, ?_⟩
  exact step_overrun rfl (by omega) (by omega)
    (by change s.threadCount + (0 + (steps : ℤ)) = _; omega)

/-- The server after a connection has ended and given its slot back. -/
def released (s : Server) (n : ℕ) (c : ConnectionThreadMain) : Server :=
  { s.setActive c.thread false with running := Function.update s.running n none }

/-- The steps by which a connection ends and gives its slot back. -/
theorem exec_released {s : Server} {n : ℕ} {c : ConnectionThreadMain} (h : s.Sound)
    (hc : s.running n = some c) (hpoint : c.point = .stateMachine)
    (hmutex : s.threadAllocationMutex = none) :
    exec step s (List.replicate 4 (.connection n)) = .ok (s.released n c) := by
  have hid := h.ownId n c hc
  have hindex := threadIndex_of_range (h.low n c hc) (h.high n c hc)
  simp [List.replicate, exec, step, connectionStep, hc, hpoint, setPoint, lock, hmutex, hid,
    hindex, bind, Except.bind, pure, Except.pure, setActive, unlock, released]

/-- Let a connection end, serve another one and search again. -/
def reuseSteps (n : ℕ) : List ServerAct :=
  List.replicate 4 (.connection n) ++
    ([.main, .main, .main, .accept 3] ++ .main :: List.replicate 511 .main)

/-- When the first slot of a full table has been used again, the next search reads behind
the table. -/
theorem exec_reuseSteps {s : Server} {n : ℕ} (h : s.Sound) (hmain : s.main = .lock)
    (hmutex : s.threadAllocationMutex = none) (hcount : s.threadCount = 0)
    (hfirst : s.running n = some ⟨0, .stateMachine⟩)
    (hfull : ∀ k, 0 ≤ k → k < maxConnections → (s.threads k).active = true) :
    ∃ s', exec step s (reuseSteps n) = .ok s' ∧ s'.step .main = .error .threadsRange := by
  have hreleased := exec_released h hfirst rfl hmutex
  have hopen : (s.released n ⟨0, .stateMachine⟩).Open := by
    refine ⟨hmain, hmutex, hcount.ge, hcount.trans_lt (by decide), ?_⟩
    change ((s.setActive 0 false).threads s.threadCount).active = false
    simp [hcount, setActive]
  have hserved := exec_served hopen (show (3 : ℤ) ≠ -1 by decide)
  have hsecond : ((s.released n ⟨0, .stateMachine⟩).served 3).threadCount = 1 := by
    change (s.threadCount + 1) % maxConnections = 1
    rw [hcount]
    decide
  have hbusy : ∀ k, ((s.released n ⟨0, .stateMachine⟩).served 3).threadCount ≤ k →
      k < maxConnections →
        (((s.released n ⟨0, .stateMachine⟩).served 3).threads k).active = true := by
    intro k hk hrange
    rw [hsecond] at hk
    have hne : k ≠ 0 := by omega
    change (Function.update (s.setActive 0 false).threads s.threadCount _ k).active = true
    rw [hcount, Function.update_of_ne hne]
    simpa [setActive, Function.update_of_ne hne] using hfull k (by omega) hrange
  have hpositive : 0 < ((s.released n ⟨0, .stateMachine⟩).served 3).threadCount := by
    rw [hsecond]
    decide
  have hsteps : ((s.released n ⟨0, .stateMachine⟩).served 3).threadCount + ((511 : ℕ) : ℤ) =
      maxConnections := by
    rw [hsecond]
    decide
  obtain ⟨s', hrun, herror⟩ := overruns_of_not_fits
    (s := (s.released n ⟨0, .stateMachine⟩).served 3) hmain hmutex hpositive hsteps hbusy
  have hserve := exec_append_eq_ok.mpr ⟨_, hserved, hrun⟩
  exact ⟨s', exec_append_eq_ok.mpr ⟨_, hreleased, hserve⟩, herror⟩

/-! ## The slots over whole runs -/

/-- The slot search of `main` stays in the table, takes free slots and misses none, and live
connections have distinct thread ids that are valid indices of `subs`, in every state that a
run reaches whose searches start at the first slot or with a free slot ahead. -/
theorem slots_valid_unshared {s : Server}
    (h : Reaches Server.step StartsFitting Server.initial s) : s.SlotsValid :=
  (Sound.of_reaches h).slotsValid

/-- The slots of a full table are valid and unshared. -/
theorem slots_valid_unshared_fullTable : (filled 512).SlotsValid :=
  slots_valid_unshared (reaches_filled letsServe_startsFitting (by decide))

/-- Once the table has been filled and its first slot used again, the slots are not valid. -/
theorem refilled_overruns :
    ∃ s, exec Server.step Server.initial (fillSteps 512 ++ reuseSteps 0) = .ok s ∧
      s.step .main = .error .threadsRange ∧ ¬ s.SlotsValid := by
  have hfill : ((512 : ℕ) : ℤ) ≤ maxConnections := by decide
  obtain ⟨hmain, hmutex, hcount, -, hactive⟩ := filled_spec hfill
  obtain ⟨s, hrun, herror⟩ := exec_reuseSteps
    (.of_reaches (reaches_filled letsServe_startsFitting hfill)) hmain hmutex hcount
    (filled_running hfill (by decide)) (fun k hk hrange => (hactive k).mpr ⟨hk, hrange⟩)
  have hwhole := exec_append_eq_ok.mpr ⟨_, exec_fillSteps hfill, hrun⟩
  exact ⟨s, hwhole, herror, fun hvalid => hvalid.inside .main herror⟩

end Server

end AmqpBroker
