import AmqpBroker.Verification.Primitives

/-!
# What `write` returns does not matter

No sender looks at the result of `write`. A step whose calls of `write` return goes on as if they
had taken everything, whatever they say; a call that does not return is the only difference that
the other end of the socket can make.
-/

namespace AmqpBroker

open Foundations Program

/-- A call of `write` that does not return waits, or ends the process. -/
theorem WriteResult.not_of_stop {bad : Abort → Prop} {result : WriteResult} {reason : Abort}
    (hblocked : ¬ bad .blocked) (hbroken : ¬ bad .brokenPipe) (h : result.stop = some reason) :
    ¬ bad reason := by
  cases result with
  | returned n => cases h
  | blocked =>
    obtain rfl := Option.some.inj h
    exact hblocked
  | brokenPipe =>
    obtain rfl := Option.some.inj h
    exact hbroken

/-- The same world with a socket that takes everything. -/
def World.allTaken (w : World) : World := { w with writes := [] }

/-- Every call of `write` takes all. -/
@[simp] theorem World.allTaken_writes (w : World) : w.allTaken.writes = [] := rfl

/-- The connection does not depend on the calls of `write` to come. -/
@[simp] theorem World.allTaken_cs (w : World) : w.allTaken.cs = w.cs := rfl

/-- The socket does not depend on the calls of `write` to come. -/
@[simp] theorem World.allTaken_socket (w : World) : w.allTaken.socket = w.socket := rfl

/-- The shared memory does not depend on the calls of `write` to come. -/
@[simp] theorem World.allTaken_store (w : World) : w.allTaken.store = w.store := rfl

/-- The calls so far do not depend on the calls of `write` to come. -/
@[simp] theorem World.allTaken_trace (w : World) : w.allTaken.trace = w.trace := rfl

/-- The calls of `write` return, whatever they say. -/
def World.WritesReturn (w : World) : Prop := ∀ result ∈ w.writes, result.stop = none

/-- Where `write` takes all it returns. -/
theorem World.writesReturn_of_nil {w : World} (h : w.writes = []) : w.WritesReturn := by
  intro result hresult
  rw [h] at hresult
  cases hresult

/-- A run against the one in which every call of `write` takes all it is given: it stops in a call
that does not return, or both end in the same way. -/
inductive LikeAllTaken {α : Type} (x : Action α) (w : World) : Prop
  | hangs {result : WriteResult} {reason : Abort} : result ∈ w.writes → result.stop = some reason →
      x w = .error reason → LikeAllTaken x w
  | stops {reason : Abort} : x w = .error reason → x w.allTaken = .error reason → LikeAllTaken x w
  | returns {a : α} {w' : World} : x w = .ok (a, w') → x w.allTaken = .ok (a, w'.allTaken) →
      w'.writes ⊆ w.writes → LikeAllTaken x w

variable {α β : Type} {x : Action α} {f : α → Action β} {P : Event → Prop} {w w' : World} {a : α}
  {reason : Abort}

/-- Code that is not about the results of `write`. -/
theorem LikeAllTaken.of_update (change : World → World)
    (hcommutes : change w.allTaken = (change w).allTaken) (hwrites : (change w).writes = w.writes) :
    LikeAllTaken (Program.update change : Action Unit) w :=
  .returns rfl (congrArg (fun w' => Except.ok ((), w')) hcommutes)
    (hwrites ▸ List.Subset.refl w.writes)

/-- The shared memory does not depend on `write`. -/
theorem likeAllTaken_onStore (x : Shared α) (w : World) : LikeAllTaken (onStore x) w := by
  cases hx : x w.store with
  | error reason =>
    have hrun : onStore x w = .error reason := by rw [onStore, hx]
    have htaken : onStore x w.allTaken = .error reason := by rw [onStore, World.allTaken_store, hx]
    exact .stops hrun htaken
  | ok result =>
    have hrun : onStore x w = .ok (result.1, { w with store := result.2 }) := by rw [onStore, hx]
    have htaken : onStore x w.allTaken =
        .ok (result.1, World.allTaken { w with store := result.2 }) := by
      rw [onStore, World.allTaken_store, hx]
      rfl
    exact .returns hrun htaken (List.Subset.refl _)

/-- Reading does not depend on `write`. -/
theorem likeAllTaken_readUntil (size : ℕ) (w : World) : LikeAllTaken (readUntil size) w := by
  cases hloop : readIntoLoop maxLine size w.socket 0 w.cs.recvline with
  | error reason =>
    have hrun : readUntil size w = .error reason := by rw [readUntil, hloop]
    have htaken : readUntil size w.allTaken = .error reason := by
      rw [readUntil, World.allTaken_socket, World.allTaken_cs, hloop]
    exact .stops hrun htaken
  | ok result =>
    obtain ⟨n, socket, recvline⟩ := result
    let v : World := { w with socket := socket, cs := { w.cs with recvline := recvline } }
    have hrun : readUntil size w = .ok (n, v) := by rw [readUntil, hloop]
    have htaken : readUntil size w.allTaken = .ok (n, v.allTaken) := by
      rw [readUntil, World.allTaken_socket, World.allTaken_cs, hloop]
      rfl
    exact .returns hrun htaken (List.Subset.refl _)

/-- What follows on code that is like this is like this as a whole if it is. -/
theorem LikeAllTaken.bind (hx : LikeAllTaken x w) (hf : ∀ a w', LikeAllTaken (f a) w') :
    LikeAllTaken (x >>= f) w := by
  cases hx with
  | hangs hmem hstop hrun => exact .hangs hmem hstop (bind_of_error hrun f)
  | stops hrun htaken => exact .stops (bind_of_error hrun f) (bind_of_error htaken f)
  | @returns a w' hrun htaken hsub =>
    cases hf a w' with
    | hangs hmem hstop hnext => exact .hangs (hsub hmem) hstop ((bind_of_ok hrun f).trans hnext)
    | stops hnext hnext' =>
      exact .stops ((bind_of_ok hrun f).trans hnext) ((bind_of_ok htaken f).trans hnext')
    | returns hnext hnext' hsub' =>
      exact .returns ((bind_of_ok hrun f).trans hnext) ((bind_of_ok htaken f).trans hnext')
        (List.Subset.trans hsub' hsub)

/-- A call of `write` and what follows on it without its result. -/
theorem likeAllTaken_write (bytes : List UInt8) (hx : ∀ w, LikeAllTaken x w) (w : World) :
    LikeAllTaken (write bytes >>= fun _ => x) w := by
  have htaken : (write bytes >>= fun _ => x) w.allTaken =
      x { w.allTaken with trace := w.trace ++ [.write bytes] } := rfl
  have hreturned : ∀ later, later ⊆ w.writes →
      (write bytes >>= fun _ => x) w =
        x { w with trace := w.trace ++ [.write bytes], writes := later } →
      LikeAllTaken (write bytes >>= fun _ => x) w := by
    intro later hlater hrun
    cases hx { w with trace := w.trace ++ [.write bytes], writes := later } with
    | hangs hmem hstop hnext => exact .hangs (hlater hmem) hstop (hrun.trans hnext)
    | stops hnext hnext' => exact .stops (hrun.trans hnext) (htaken.trans hnext')
    | returns hnext hnext' hsub =>
      exact .returns (hrun.trans hnext) (htaken.trans hnext') (List.Subset.trans hsub hlater)
  cases hwrites : w.writes with
  | nil =>
    apply hreturned [] (List.nil_subset _)
    rw [bind_of_ok (a := (bytes.length : ℤ))]
    rw [write, hwrites]
    rfl
  | cons result later =>
    have hmem : result ∈ w.writes := by
      rw [hwrites]
      exact List.mem_cons_self
    cases result with
    | returned n =>
      apply hreturned later (by rw [hwrites]; exact List.subset_cons_self _ _)
      rw [bind_of_ok (a := n)]
      rw [write, hwrites]
      rfl
    | blocked | brokenPipe =>
      refine .hangs hmem rfl (bind_of_error ?_ _)
      rw [write, hwrites]

/-- The next call of `write` does what the input says. -/
theorem write_of_stop {bytes : List UInt8} {result : WriteResult} {later : List WriteResult}
    (hwrites : w.writes = result :: later) (hstop : result.stop = some reason) :
    write bytes w = .error reason := by
  cases result with
  | returned n => cases hstop
  | blocked | brokenPipe =>
    cases hstop
    rw [write, hwrites]

/-- A call of `write` that does not return is one of those which the input says do not. -/
theorem write_eq_error {bytes : List UInt8} (h : write bytes w = .error reason) :
    ∃ result ∈ w.writes, result.stop = some reason := by
  rw [write] at h
  split at h
  · cases h
  · cases h
  · rename_i hwrites
    cases h
    exact ⟨.blocked, by rw [hwrites]; exact List.mem_cons_self, rfl⟩
  · rename_i hwrites
    cases h
    exact ⟨.brokenPipe, by rw [hwrites]; exact List.mem_cons_self, rfl⟩

/-- Nothing that is built from the primitives tells the results of `write` apart. -/
theorem Built.likeAllTaken (h : Built P x) : ∀ w, LikeAllTaken x w := by
  induction h with
  | pure a => exact fun w => .returns rfl rfl (List.Subset.refl _)
  | stop reason => exact fun w => .stops rfl rfl
  | bind _ _ ihx ihf => exact fun w => (ihx w).bind ihf
  | field view => exact fun w => .returns rfl rfl (List.Subset.refl _)
  | assign change => exact fun w => .of_update _ rfl rfl
  | onStore x => exact likeAllTaken_onStore x
  | record _ => exact fun w => .of_update _ rfl rfl
  | write _ _ ihx => exact likeAllTaken_write _ ihx
  | readUntil _ => exact likeAllTaken_readUntil _

/-- A run that returns is one in which every call of `write` takes all it is given. -/
theorem LikeAllTaken.of_ok (h : LikeAllTaken x w) (hrun : x w = .ok (a, w')) :
    x w.allTaken = .ok (a, w'.allTaken) := by
  cases h with
  | hangs _ _ hstop | stops hstop _ => cases hstop.symm.trans hrun
  | returns hrun' htaken _ =>
    cases hrun'.symm.trans hrun
    exact htaken

/-- When every call of `write` returns, the run is the one in which they take everything. -/
theorem LikeAllTaken.of_returns (h : LikeAllTaken x w) (hreturns : w.WritesReturn) :
    (∃ reason, x w = .error reason ∧ x w.allTaken = .error reason) ∨
      ∃ a w', x w = .ok (a, w') ∧ x w.allTaken = .ok (a, w'.allTaken) := by
  cases h with
  | hangs hmem hstop _ => cases (hreturns _ hmem).symm.trans hstop
  | stops hrun htaken => exact Or.inl ⟨_, hrun, htaken⟩
  | returns hrun htaken _ => exact Or.inr ⟨_, _, hrun, htaken⟩

/-- Nothing that a thread does depends on the results of `write`. -/
theorem likeAllTaken_threadStep (grain : Grain) (m : MachineState) (point : DequeuePoint) :
    ∀ w, LikeAllTaken (threadStep grain m point) w :=
  (built_threadStep m point).likeAllTaken

namespace Broker

variable {grain : Grain} {s s' : Broker} {t : ℤ} {writes : List WriteResult}

/-- Where nothing is said about `write`, its calls take everything. -/
theorem world_writesReturn (s : Broker) (c : Conn) : (s.world c).WritesReturn :=
  World.writesReturn_of_nil rfl

/-- A step that is possible is possible, and the same, when `write` takes everything. -/
theorem step_run_allTaken (h : Broker.step grain s (.run t writes) = .ok s') :
    Broker.step grain s (.run t) = .ok s' := by
  simp only [Broker.step] at h ⊢
  split at h
  · cases h
  · rename_i c hc
    split at h
    · rename_i machine point w hrun
      have htaken : threadStep grain c.machine c.point (s.world c) =
          .ok ((machine, point), w.allTaken) :=
        (likeAllTaken_threadStep grain c.machine c.point _).of_ok hrun
      rw [htaken]
      exact h
    · cases h

/-- A step stops in a call of `write`, or where it stops when `write` takes everything. -/
theorem step_run_eq_error {reason : Abort}
    (h : Broker.step grain s (.run t writes) = .error reason) :
    (∃ result ∈ writes, result.stop = some reason) ∨
      Broker.step grain s (.run t) = .error reason := by
  simp only [Broker.step] at h ⊢
  cases hc : s.conns t with
  | none =>
    rw [hc] at h
    exact Or.inr h
  | some c =>
    simp only [hc] at h ⊢
    have hlike := likeAllTaken_threadStep grain c.machine c.point (s.world c writes)
    cases hlike with
    | hangs hmem hstop hrun =>
      rw [hrun] at h
      cases h
      exact Or.inl ⟨_, hmem, hstop⟩
    | stops hrun htaken =>
      rw [hrun] at h
      cases h
      have htaken' : threadStep grain c.machine c.point (s.world c) = .error reason := htaken
      exact Or.inr (by rw [htaken'])
    | returns hrun htaken _ =>
      rw [hrun] at h
      cases h

/-- A step whose calls of `write` return is the one in which they take everything. -/
theorem step_run_returns (hreturns : ∀ result ∈ writes, result.stop = none) :
    Broker.step grain s (.run t writes) = Broker.step grain s (.run t) := by
  simp only [Broker.step]
  cases s.conns t with
  | none => rfl
  | some c =>
    have hlike := likeAllTaken_threadStep grain c.machine c.point (s.world c writes)
    rcases hlike.of_returns hreturns with ⟨reason, hrun, htaken⟩ | ⟨next, w, hrun, htaken⟩
    · have htaken' : threadStep grain c.machine c.point (s.world c) = .error reason := htaken
      simp only [hrun, htaken']
    · have htaken' : threadStep grain c.machine c.point (s.world c) = .ok (next, w.allTaken) := htaken
      simp only [hrun, htaken']
      rfl

end Broker

end AmqpBroker
