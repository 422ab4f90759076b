import AmqpBroker.Verification.Reading

/-!
# What reading and sending leave alone

Frames are read into and sent from the memory of the connection itself. The shared
memory, the chosen queue and its name stay as they were; reading a frame adds nothing to
the trace but the method it returns, and sending adds what it writes.
-/

namespace AmqpBroker

open Foundations Program

/-- An assignment takes effect before what follows it. -/
theorem assign_bind_apply {α : Type} (change : ConnectionState → ConnectionState)
    (f : Unit → Action α) (w : World) :
    (assign change >>= f) w = f () { w with cs := change w.cs } := rfl

/-- A field is read before what follows it. -/
theorem field_bind_apply {α β : Type} (view : ConnectionState → β) (f : β → Action α) (w : World) :
    (field view >>= f) w = f (view w.cs) w := rfl

/-- A call of `write` that returns leaves a record, whatever it returned. -/
theorem write_eq_ok {bytes : List UInt8} {n : ℤ} {w w' : World} (h : write bytes w = .ok (n, w')) :
    w' = { w with trace := w.trace ++ [.write bytes], writes := w.writes.tail } := by
  unfold write at h
  split at h <;> cases h <;> rfl

/-- Code on an array of its own that returns yields what it computed. -/
theorem onLocal_of_ok {α : Type} {x : Program Buffer Abort α} {a : α} {array : Buffer}
    (h : x (fun _ => 0) = .ok (a, array)) : onLocal x = pure a := by
  rw [onLocal, h]

/-- Work on an array of its own that stops. -/
theorem onLocal_of_error {α : Type} {x : Program Buffer Abort α} {reason : Abort}
    (h : x (fun _ => 0) = .error reason) : onLocal x = Program.stop reason := by
  rw [onLocal, h]

/-- Code on an array of its own leaves the world alone. -/
theorem onLocal_eq_ok {α : Type} {x : Program Buffer Abort α} {a : α} {w w' : World}
    (h : onLocal x w = .ok (a, w')) : (∃ array, x (fun _ => 0) = .ok (a, array)) ∧ w' = w := by
  cases hx : x fun _ => 0 with
  | ok result =>
    rw [onLocal_of_ok hx] at h
    cases h
    exact ⟨⟨result.2, rfl⟩, rfl⟩
  | error reason =>
    rw [onLocal_of_error hx] at h
    cases h

/-- The second world differs from the first in buffers, socket and error message, and its
trace has grown by events that satisfy `P`. -/
structure Grows (P : Event → Prop) (w w' : World) : Prop where
  store : w'.store = w.store
  threadId : w'.cs.threadId = w.cs.threadId
  currentQueue : w'.cs.currentQueue = w.cs.currentQueue
  currentQueueName : w'.cs.currentQueueName = w.cs.currentQueueName
  trace : ∃ events, w'.trace = w.trace ++ events ∧ ∀ event ∈ events, P event

/-- Nothing was recorded. -/
abbrev Silent : World → World → Prop := Grows fun _ => False

/-- Only written frames were recorded. -/
abbrev Writes : World → World → Prop := Grows fun event => ∃ bytes, event = .write bytes

variable {P : Event → Prop} {w w' w'' : World}

/-- No call leaves the trace as it is. -/
theorem Grows.refl (w : World) : Grows P w w := ⟨rfl, rfl, rfl, rfl, [], by simp, by simp⟩

/-- The calls of two stretches. -/
theorem Grows.trans (h : Grows P w w') (h' : Grows P w' w'') : Grows P w w'' := by
  obtain ⟨events, htrace, hevents⟩ := h.trace
  obtain ⟨events', htrace', hevents'⟩ := h'.trace
  refine ⟨h'.store.trans h.store, h'.threadId.trans h.threadId,
    h'.currentQueue.trans h.currentQueue, h'.currentQueueName.trans h.currentQueueName,
    events ++ events', by rw [htrace', htrace, List.append_assoc], fun event hevent => ?_⟩
  rcases List.mem_append.mp hevent with hmem | hmem
  · exact hevents event hmem
  · exact hevents' event hmem

instance : Std.Refl (Grows P) := ⟨Grows.refl⟩

instance : IsTrans World (Grows P) := ⟨fun _ _ _ => Grows.trans⟩

/-- Recording less satisfies any weaker condition. -/
theorem Grows.mono {Q : Event → Prop} (h : Grows P w w') (hPQ : ∀ event, P event → Q event) :
    Grows Q w w' := by
  obtain ⟨events, htrace, hevents⟩ := h.trace
  exact ⟨h.store, h.threadId, h.currentQueue, h.currentQueueName, events, htrace,
    fun event hevent => hPQ event (hevents event hevent)⟩

/-- A silent step leaves the trace alone. -/
theorem Silent.trace_eq (h : Silent w w') : w'.trace = w.trace := by
  obtain ⟨events, htrace, hevents⟩ := h.trace
  cases events with
  | nil => simpa using htrace
  | cons event rest => exact (hevents event List.mem_cons_self).elim

/-- An assignment to a buffer or to the error message. -/
theorem keeps_assign {change : ConnectionState → ConnectionState}
    (h : ∀ cs, (change cs).threadId = cs.threadId ∧ (change cs).currentQueue = cs.currentQueue ∧
      (change cs).currentQueueName = cs.currentQueueName) : Keeps (Grows P) (assign change) :=
  Keeps.update fun w => ⟨rfl, (h w.cs).1, (h w.cs).2.1, (h w.cs).2.2, [], by simp, by simp⟩

/-- Reading a field calls nothing. -/
theorem keeps_field {α : Type} (view : ConnectionState → α) : Keeps (Grows P) (field view) :=
  Keeps.read _

/-- Setting an error calls nothing. -/
theorem keeps_setError (message : String) : Keeps (Grows P) (setError message) :=
  keeps_assign fun _ => ⟨rfl, rfl, rfl⟩

/-- Setting the error of an unexpected method calls nothing. -/
theorem keeps_setUnexpected (header : MethodHeader) : Keeps (Grows P) (setUnexpected header) :=
  keeps_setError _

/-- `write` is recorded as one call. -/
theorem keeps_write (bytes : List UInt8) : Keeps Writes (write bytes) := by
  intro w n w' h
  rw [write_eq_ok h]
  exact ⟨rfl, rfl, rfl, rfl, [.write bytes], rfl, by simp⟩

/-- Work on an array of its own calls nothing. -/
theorem keeps_onLocal {α : Type} (x : Program Buffer Abort α) : Keeps (Grows P) (onLocal x) := by
  unfold onLocal
  split
  · exact Keeps.pure _
  · exact Keeps.stop _

/-- A test of a range calls nothing. -/
theorem keeps_checkRange (offset count : ℕ) : Keeps (Grows P) (checkRange offset count) :=
  Keeps.ite (Keeps.pure _) (Keeps.stop _)

/-- Looking for the end of a string calls nothing. -/
theorem keeps_stringOf (buffer : Buffer) : Keeps (Grows P) (stringOf buffer) := by
  unfold stringOf
  split
  · exact Keeps.pure _
  · exact Keeps.stop _

/-- Reading calls nothing. -/
theorem keeps_readUntil (size : ℕ) : Keeps (Grows P) (readUntil size) := by
  intro w n w' h
  unfold readUntil at h
  split at h
  · cases h
    exact ⟨rfl, rfl, rfl, rfl, [], by simp, by simp⟩
  · cases h

/-- Reading the protocol header calls nothing. -/
theorem keeps_readProtocolHeader : Keeps (Grows P) readProtocolHeader := by
  refine Keeps.bind (keeps_readUntil 8) fun n => Keeps.ite (Keeps.pure _) ?_
  exact Keeps.bind (keeps_field _) fun _ => Keeps.pure _

/-- Reading a frame header calls nothing. -/
theorem keeps_readMessageHeader : Keeps (Grows P) readMessageHeader := by
  refine Keeps.bind (keeps_readUntil 7) fun n => Keeps.ite (Keeps.pure _) ?_
  exact Keeps.bind (keeps_field _) fun _ => Keeps.pure _

/-- Parsing a method calls nothing. -/
theorem keeps_parseMethod (n : ℕ) : Keeps (Grows P) (parseMethod n) := by
  refine Keeps.ite (Keeps.pure _) ?_
  refine Keeps.bind (keeps_checkRange _ _) fun _ => ?_
  refine Keeps.bind (keeps_assign fun _ => ⟨rfl, rfl, rfl⟩) fun _ => ?_
  refine Keeps.bind (keeps_field _) fun _ => ?_
  exact Keeps.bind (keeps_assign fun _ => ⟨rfl, rfl, rfl⟩) fun _ => Keeps.pure _

/-- Parsing a content header calls nothing. -/
theorem keeps_parseContentHeader (n : ℕ) : Keeps (Grows P) (parseContentHeader n) := by
  refine Keeps.ite (Keeps.pure _) ?_
  refine Keeps.bind (keeps_assign fun _ => ⟨rfl, rfl, rfl⟩) fun _ => ?_
  refine Keeps.bind (keeps_field _) fun _ => ?_
  exact Keeps.bind (keeps_assign fun _ => ⟨rfl, rfl, rfl⟩) fun _ => Keeps.pure _

/-- Reading a content header calls nothing. -/
theorem keeps_readContentHeader (length : ℤ) : Keeps (Grows P) (readContentHeader length) :=
  Keeps.bind (keeps_readUntil _) fun _ => Keeps.bind (keeps_parseContentHeader _) fun _ =>
    Keeps.bind (keeps_readUntil 1) fun _ => Keeps.pure _

/-- Reading a body calls nothing. -/
theorem keeps_readBody (length : ℤ) : Keeps (Grows P) (readBody length) := by
  refine Keeps.ite (Keeps.stop _) ?_
  refine Keeps.bind (keeps_readUntil _) fun n => ?_
  refine Keeps.bind (keeps_checkRange _ _) fun _ => ?_
  refine Keeps.bind (keeps_assign fun _ => ⟨rfl, rfl, rfl⟩) fun _ => Keeps.ite (Keeps.stop _) ?_
  exact Keeps.bind (keeps_checkRange _ _) fun _ => keeps_assign fun _ => ⟨rfl, rfl, rfl⟩

/-- The end of a switch calls nothing. -/
theorem keeps_finishDispatch (method : MethodHeader) (next : MachineState) :
    Keeps (Grows P) (finishDispatch method next) := by
  unfold finishDispatch
  split
  · exact Keeps.bind (keeps_setUnexpected method) fun _ => Keeps.pure _
  · exact Keeps.pure _

/-- Sending a frame only writes. -/
theorem keeps_sendFrame (frame : List UInt8) : Keeps Writes (sendFrame frame) := by
  refine Keeps.bind (keeps_checkRange _ _) fun _ => ?_
  refine Keeps.bind (keeps_assign fun _ => ⟨rfl, rfl, rfl⟩) fun _ => ?_
  refine Keeps.bind (keeps_field _) fun _ => ?_
  exact Keeps.bind (keeps_write _) fun _ => Keeps.pure _

/-- The last thing a dispatching handler does names the state it was given. -/
theorem finishDispatch_result {method : MethodHeader} {next m : MachineState}
    (h : finishDispatch method next w = .ok (m, w')) : m = next ∧ Silent w w' := by
  refine ⟨?_, keeps_finishDispatch method next _ _ _ h⟩
  unfold finishDispatch at h
  split at h
  · obtain ⟨_, _, _, h⟩ := bind_eq_ok.mp h
    cases h
    rfl
  · cases h
    rfl

/-- What a reader of methods returned: nothing, silently, or a method that is the only event. -/
def MethodOutcome (w : World) (result : Option MethodHeader) (w' : World) : Prop :=
  match result with
  | none => Silent w w'
  | some method => ∃ v, Silent w v ∧ w' = { v with trace := v.trace ++ [.readMethod method] }

/-- A silent step before a reader of methods does not show. -/
theorem MethodOutcome.after {result : Option MethodHeader} (h : Silent w w')
    (h' : MethodOutcome w' result w'') : MethodOutcome w result w'' := by
  cases result with
  | none => exact Grows.trans h h'
  | some method =>
    obtain ⟨v, hv, heq⟩ := h'
    exact ⟨v, Grows.trans h hv, heq⟩

/-- What `read_method` leaves behind. -/
theorem readMethod_outcome {length : ℤ} {result : Option MethodHeader}
    (h : readMethod length w = .ok (result, w')) : MethodOutcome w result w' := by
  obtain ⟨n, w₁, hread, h⟩ := bind_eq_ok.mp h
  refine MethodOutcome.after (keeps_readUntil _ _ _ _ hread) ?_
  split at h
  · cases h
    exact Grows.refl _
  · obtain ⟨header, w₂, hparse, h⟩ := bind_eq_ok.mp h
    refine MethodOutcome.after (keeps_parseMethod n _ _ _ hparse) ?_
    cases header with
    | none =>
      cases h
      exact Grows.refl _
    | some header =>
      obtain ⟨n, w₃, hend, h⟩ := bind_eq_ok.mp h
      refine MethodOutcome.after (keeps_readUntil _ _ _ _ hend) ?_
      split at h
      · cases h
        exact Grows.refl _
      · cases h
        exact ⟨_, Grows.refl _, rfl⟩

/-- What reading a frame header and a method leaves behind. -/
theorem readFrame_outcome {result : Option MethodHeader}
    (h : readFrame w = .ok (result, w')) : MethodOutcome w result w' := by
  obtain ⟨messageHeader, w₁, hread, h⟩ := bind_eq_ok.mp h
  refine MethodOutcome.after (keeps_readMessageHeader _ _ _ hread) ?_
  cases messageHeader with
  | none =>
    cases h
    exact ⟨rfl, rfl, rfl, rfl, [], by simp, by simp⟩
  | some messageHeader =>
    obtain ⟨method, w₂, hmethod, h⟩ := bind_eq_ok.mp h
    have houtcome := readMethod_outcome hmethod
    cases method with
    | none =>
      cases h
      exact Grows.trans houtcome ⟨rfl, rfl, rfl, rfl, [], by simp, by simp⟩
    | some method =>
      cases h
      exact houtcome

/-- A frame that was read has a header and a method. -/
theorem readFrame_eq_some {method : MethodHeader} (h : readFrame w = .ok (some method, w')) :
    ∃ messageHeader v, readMessageHeader w = .ok (some messageHeader, v) ∧
      readMethod (toInt messageHeader.length) v = .ok (some method, w') := by
  obtain ⟨messageHeader, v, hheader, h⟩ := bind_eq_ok.mp h
  cases messageHeader with
  | none => cases h
  | some messageHeader =>
    obtain ⟨result, v', hmethod, h⟩ := bind_eq_ok.mp h
    cases result with
    | none => cases h
    | some found =>
      cases h
      exact ⟨messageHeader, v, hheader, hmethod⟩

end AmqpBroker
