import AmqpBroker.Foundations.Lockstep
import AmqpBroker.Verification.Primitives

/-!
# How `read` cuts the stream does not matter

Two sockets that deliver the same bytes, in chunks of any sizes, are the same to
`read_until`: it leaves the same buffer, the same result and the same bytes to come. The
other primitives do not touch the socket, so handlers, steps of a thread and whole runs are
in lockstep on worlds that differ in the chunks only.
-/

namespace AmqpBroker

open Foundations Program MachineState

variable {grain : Grain}

/-- The worlds differ at most in how the socket cuts the bytes that it delivers. -/
def SameStream (w w' : World) : Prop :=
  ∃ bytes socket, w.socket.Delivers bytes ∧ socket.Delivers bytes ∧ w' = { w with socket := socket }

/-- Code that does not look at the socket. -/
theorem lockstep_update {change : World → World}
    (h : ∀ w socket, change { w with socket := socket } = { change w with socket := socket })
    (hsocket : ∀ w, (change w).socket = w.socket) :
    Lockstep SameStream (Program.update change : Action Unit) := by
  apply Lockstep.update
  rintro w w' ⟨bytes, socket, hw, hsame, rfl⟩
  exact ⟨bytes, socket, by rw [hsocket]; exact hw, hsame, h w socket⟩

/-- The shared memory does not depend on how the stream arrives. -/
theorem lockstep_onStore {α : Type} (x : Shared α) : Lockstep SameStream (onStore x) := by
  rintro w w' ⟨bytes, socket, hw, hsame, rfl⟩
  unfold onStore
  cases hx : x w.store with
  | error reason => exact .error reason
  | ok result => exact .ok ⟨rfl, bytes, socket, hw, hsame, rfl⟩

/-- What is written does not depend on how the stream arrives. -/
theorem lockstep_write (bytes : List UInt8) : Lockstep SameStream (write bytes) := by
  rintro w w' ⟨delivered, socket, hw, hsame, rfl⟩
  unfold write
  cases w.writes with
  | nil => exact .ok ⟨rfl, delivered, socket, hw, hsame, rfl⟩
  | cons result later =>
    cases result with
    | returned n => exact .ok ⟨rfl, delivered, socket, hw, hsame, rfl⟩
    | blocked | brokenPipe => exact .error _

/-- `read_until` sees the bytes and not the chunks. -/
theorem lockstep_readUntil {size : ℕ} (hsize : size < sizeRange) :
    Lockstep SameStream (readUntil size) := by
  rintro w w' ⟨bytes, socket, hw, hsame, rfl⟩
  have hleft := readIntoLoop_delivers hw size 0 w.cs.recvline (Nat.zero_le _) hsize (Nat.zero_le _)
  have hright := readIntoLoop_delivers hsame size 0 w.cs.recvline (Nat.zero_le _) hsize
    (Nat.zero_le _)
  unfold readUntil
  rw [hleft, show readIntoLoop maxLine size socket 0 w.cs.recvline = _ from hright]
  by_cases hroom : maxLine < 0 + min (size - 0) bytes.length
  · rw [if_pos hroom, if_pos hroom]
    exact .error _
  · rw [if_neg hroom, if_neg hroom]
    by_cases hlong : size - 0 ≤ bytes.length
    · rw [if_pos hlong, if_pos hlong]
      exact .ok ⟨rfl, bytes.drop size, socket.advance size, hw.advance size, hsame.advance size, rfl⟩
    · rw [if_neg hlong, if_neg hlong]
      exact .ok ⟨rfl, [], [], .nil, .nil, rfl⟩

/-- Nothing that is built from the primitives tells the chunks apart. -/
theorem Built.lockstep {P : Event → Prop} {α : Type} {x : Action α} (h : Built P x) :
    Lockstep SameStream x := by
  induction h with
  | pure a => exact Lockstep.pure a
  | stop reason => exact Lockstep.stop reason
  | bind _ _ ihx ihf => exact Lockstep.bind ihx ihf
  | field view =>
    apply Lockstep.read
    rintro w w' ⟨_, _, _, _, rfl⟩
    rfl
  | assign change => exact lockstep_update (fun _ _ => rfl) fun _ => rfl
  | onStore x => exact lockstep_onStore x
  | record _ => exact lockstep_update (fun _ _ => rfl) fun _ => rfl
  | write _ _ ihx => exact Lockstep.bind (lockstep_write _) fun _ => ihx
  | readUntil hsize => exact lockstep_readUntil hsize

namespace Thread

/-- The threads differ at most in how their sockets cut the bytes still to come. -/
def Alike (th th' : Thread) : Prop :=
  ∃ bytes socket, th.conn.socket.Delivers bytes ∧ socket.Delivers bytes ∧
    th' = { th with conn := { th.conn with socket := socket } }

/-- One step of each thread on the same memory. -/
theorem step_alike {th th' : Thread} (found : Store) (h : Alike th th') :
    Matched Alike (step grain th found) (step grain th' found) := by
  obtain ⟨bytes, socket, hth, hsame, rfl⟩ := h
  have hworlds : SameStream
      { cs := th.conn.cs, socket := th.conn.socket, store := found, trace := [] }
      { cs := th.conn.cs, socket := socket, store := found, trace := [] } :=
    ⟨bytes, socket, hth, hsame, rfl⟩
  unfold step
  rcases ((built_threadStep th.conn.machine th.conn.point).lockstep _ _ hworlds).cases with
    ⟨⟨next, w⟩, ⟨next', w'⟩, hleft, hright, hnext, bytes', socket', hw, hsame', rfl⟩ |
    ⟨reason, hleft, hright⟩
  · obtain rfl : next = next' := hnext
    rw [hleft, hright]
    exact .ok ⟨bytes', socket', hw, hsame', rfl⟩
  · rw [hleft, hright]
    exact .error reason

/-- The state machine passes through the same states, makes the same calls with the same
arguments and results, and sends the same bytes, however `read` cuts the client's stream. -/
theorem chunking_invisible (grain : Grain) (cs : ConnectionState) {bytes : List UInt8}
    {socket socket' : Socket} (h : socket.Delivers bytes) (h' : socket'.Delivers bytes)
    (store : Store) (found : List Store) :
    (states (step grain) (start cs socket store) found).map observed =
      (states (step grain) (start cs socket' store) found).map observed := by
  apply states_matched (R := Alike)
  · intro th th' found
    exact step_alike found
  · rintro th th' ⟨_, _, _, _, rfl⟩
    rfl
  · exact ⟨bytes, socket', h, h', rfl⟩

/-- The protocol header of a client that then hangs up, read at once and in two pieces. -/
theorem chunking_invisible_splitHeader :
    (states (step .coarse) (start (.initial 0) (Socket.chunk defaultAmqpHeader) initQueuePool)
      [initQueuePool, initQueuePool, initQueuePool]).map observed =
    (states (step .coarse) (start (.initial 0)
      [.data 0x41 [0x4d], .data 0x51 [0x50, 0, 0, 9, 1]] initQueuePool)
      [initQueuePool, initQueuePool, initQueuePool]).map observed := by
  apply chunking_invisible .coarse (.initial 0) (Socket.chunk_delivers defaultAmqpHeader)
  exact .data 0x41 [0x4d] (.data 0x51 [0x50, 0, 0, 9, 1] .nil)

end Thread

end AmqpBroker
