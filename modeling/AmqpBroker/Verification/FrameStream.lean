import AmqpBroker.Verification.Arguments
import AmqpBroker.Verification.Exchange

/-!
# Streams of frames

The readers and the senders compute the size of a frame apart from each other. Here
they are run against each other: what a sequence of sender calls writes is read back as
the same sequence, and the stream is used up to the last end octet.
-/

namespace AmqpBroker

open Foundations Program

variable {w : World} {rest : List UInt8}

/-- A call of `send_method` or `send_body`. -/
inductive SendCall where
  | sendMethod (header : MethodHeader) (channel : UInt16) (arguments : List UInt8)
  | sendBody (channel : UInt16) (payload : List UInt8)

/-- What the readers find in one frame. -/
structure Incoming where
  msgType : UInt8
  channel : UInt16
  length : ℕ
  method : Option MethodHeader
  content : List UInt8
  deriving DecidableEq, Repr

/-- Read a frame: `read_message_header`, and then `read_method` or `read_body` by its type. -/
def readIncoming : Action (Option Incoming) := do
  match ← readMessageHeader with
  | none => pure none
  | some header =>
    if header.msgType = MsgFormat.method then do
      match ← readMethod (toInt header.length) with
      | none => pure none
      | some method => do
        let arguments := (← field (·.parsed)).slice argumentsOffset (header.length.toNat - 4)
        pure (some ⟨header.msgType, header.channel, header.length.toNat, some method, arguments⟩)
    else if header.msgType = MsgFormat.body then do
      readBody (toInt header.length)
      let payload := (← field (·.parsed)).slice 0 header.length.toNat
      pure (some ⟨header.msgType, header.channel, header.length.toNat, none, payload⟩)
    else pure none

/-- Read this many frames. -/
def readAll : ℕ → Action (List (Option Incoming))
  | 0 => pure []
  | count + 1 => do
    let first ← readIncoming
    let more ← readAll count
    pure (first :: more)

namespace SendCall

/-- Make the call. -/
def run : SendCall → Action Unit
  | sendMethod header channel arguments => AmqpBroker.sendMethod header channel arguments
  | sendBody channel payload => AmqpBroker.sendBody channel payload

/-- The frame that the call is for. -/
def frame : SendCall → List UInt8
  | sendMethod header channel arguments =>
    encodeFrame MsgFormat.method channel (encodeMethod header arguments)
  | sendBody channel payload => encodeFrame MsgFormat.body channel payload

/-- What a reader should find. -/
def incoming : SendCall → Incoming
  | sendMethod header channel arguments =>
    ⟨MsgFormat.method, channel, arguments.length + 4, some header, arguments⟩
  | sendBody channel payload => ⟨MsgFormat.body, channel, payload.length, none, payload⟩

/-- The frame fits in MAXLINE. -/
def Fits (call : SendCall) : Prop := call.frame.length ≤ maxLine

/-- Make the calls one after another. -/
def runAll : List SendCall → Action Unit
  | [] => pure ()
  | call :: more => do
    call.run
    runAll more

end SendCall

/-- The payload of a BODY frame that fits the buffers is read as it was sent. -/
theorem readBody_frame {payload : List UInt8} (h : w.socket.Delivers (payload ++ frameEnd :: rest))
    (hroom : payload.length + 1 ≤ maxLine) :
    ∃ w', readBody (toInt (UInt32.ofNat payload.length)) w = .ok ((), w') ∧
      w'.cs.parsed.slice 0 payload.length = payload ∧ w'.socket.Delivers rest := by
  have hmax : maxLine < 2 ^ 32 := by decide
  have hlength := toNat_ofNat_length (show payload.length < 2 ^ 32 by omega)
  have hbytes : payload.length + 1 ≤ (payload ++ frameEnd :: rest).length := by
    rw [List.length_append, List.length_cons]
    omega
  have hread := readBody_complete h
    (show (UInt32.ofNat payload.length).toNat + 1 ≤ maxLine by rw [hlength]; exact hroom)
    (by rw [hlength]; omega)
  have hrest := receive_delivers h hbytes
  have htake : (payload ++ frameEnd :: rest).take (payload.length + 1) = payload ++ [frameEnd] := by
    rw [List.take_length_add_append]
    rfl
  have hdrop : (payload ++ frameEnd :: rest).drop (payload.length + 1) = rest := by
    rw [List.drop_length_add_append]
    rfl
  rw [hlength, htake] at hread
  rw [htake, hdrop] at hrest
  refine ⟨_, hread, ?_, hrest⟩
  have hslice : ((w.cs.parsed.write 0 (payload ++ [frameEnd])).write payload.length [0]).slice 0
      payload.length = (w.cs.parsed.write 0 (payload ++ [frameEnd])).slice 0 payload.length := by
    apply Buffer.slice_congr
    intro i _ hi
    apply Buffer.write_apply_of_before
    omega
  refine hslice.trans ?_
  rw [Buffer.slice_write_zero _ _ _ (by simp), List.take_left]

namespace SendCall

variable {call : SendCall} {calls : List SendCall}

/-- A frame that fits is written. -/
theorem run_sends (h : call.Fits) {w : World} (hreturns : w.WritesReturn) :
    ∃ w', call.run w = .ok ((), w') ∧ Sends [call.frame] w w' := by
  cases call with
  | sendMethod header channel arguments =>
    rw [Fits, frame, encodeFrame_length, encodeMethod_length] at h
    obtain ⟨w', hrun⟩ : ∃ w', AmqpBroker.sendMethod header channel arguments w = .ok ((), w') := by
      apply sendFrame_returns _ hreturns
      simp [unparseMessageHeader, unparseMethodHeader]
      omega
    exact ⟨w', hrun, sendMethod_sends hrun⟩
  | sendBody channel payload =>
    rw [Fits, frame, encodeFrame_length] at h
    obtain ⟨w', hrun⟩ : ∃ w', AmqpBroker.sendBody channel payload w = .ok ((), w') := by
      apply sendFrame_returns _ hreturns
      simp [unparseMessageHeader]
      omega
    exact ⟨w', hrun, sendBody_sends hrun⟩

/-- Frames that fit are written in the order of the calls. -/
theorem runAll_sends (h : ∀ call ∈ calls, call.Fits) {w : World} (hreturns : w.WritesReturn) :
    ∃ w', runAll calls w = .ok ((), w') ∧ Sends (calls.map frame) w w' := by
  induction calls generalizing w with
  | nil => exact ⟨w, rfl, (List.append_nil _).symm, rfl, rfl⟩
  | cons call more ih =>
    obtain ⟨w₁, hrun, hsends⟩ := run_sends (h call List.mem_cons_self) hreturns
    obtain ⟨w₂, hmore, hrest⟩ :=
      ih (fun call hcall => h call (List.mem_cons_of_mem _ hcall)) (hsends.writesReturn hreturns)
    refine ⟨w₂, ?_, hsends.append hrest⟩
    rw [runAll, bind_of_ok hrun]
    exact hmore

/-- A frame that fits is read back, whatever follows it. -/
theorem readIncoming_frame (h : call.Fits) (hw : w.socket.Delivers (call.frame ++ rest)) :
    ∃ w', readIncoming w = .ok (some call.incoming, w') ∧ w'.socket.Delivers rest := by
  have hmax : maxLine < 2 ^ 32 := by decide
  cases call with
  | sendMethod header channel arguments =>
    rw [Fits, frame, encodeFrame_length] at h
    obtain ⟨hheader, hpayload⟩ := readMessageHeader_frame hw (by omega)
    obtain ⟨hmethod, hrest⟩ := readMethod_frame hpayload (by omega)
    have hlength := toNat_ofNat_length
      (show (encodeMethod header arguments).length < 2 ^ 32 by omega)
    rw [encodeMethod_length] at hlength
    have hslice : (w.afterFrame channel header arguments).cs.parsed.slice argumentsOffset
        arguments.length = arguments := afterFrame_holds w channel header arguments
    refine ⟨w.afterFrame channel header arguments, ?_, hrest⟩
    change readMethod _ _ = .ok (some header, w.afterFrame channel header arguments) at hmethod
    rw [readIncoming, bind_of_ok hheader]
    simp only
    rw [if_pos trivial, bind_of_ok hmethod]
    simp only
    rw [field_bind_apply]
    simp only [encodeMethod_length, hlength, Nat.add_sub_cancel, hslice, incoming]
    rfl
  | sendBody channel payload =>
    rw [Fits, frame, encodeFrame_length] at h
    obtain ⟨hheader, hpayload⟩ := readMessageHeader_frame hw (by omega)
    obtain ⟨w', hbody, hslice, hrest⟩ := readBody_frame hpayload (by omega)
    have hlength := toNat_ofNat_length (show payload.length < 2 ^ 32 by omega)
    refine ⟨w', ?_, hrest⟩
    rw [readIncoming, bind_of_ok hheader]
    simp only
    rw [if_neg (by decide), if_pos trivial, bind_of_ok hbody, field_bind_apply]
    simp only [hlength, hslice, incoming]
    rfl

/-- Frames that fit are read back in order, whatever follows them. -/
theorem readAll_frames (h : ∀ call ∈ calls, call.Fits)
    (hw : w.socket.Delivers ((calls.map frame).flatten ++ rest)) :
    ∃ w', readAll calls.length w = .ok (calls.map fun call => some call.incoming, w') ∧
      w'.socket.Delivers rest := by
  induction calls generalizing w with
  | nil => exact ⟨w, rfl, hw⟩
  | cons call more ih =>
    rw [List.map_cons, List.flatten_cons, List.append_assoc] at hw
    obtain ⟨w₁, hfirst, hnext⟩ := readIncoming_frame (h call List.mem_cons_self) hw
    obtain ⟨w₂, hmore, hrest⟩ :=
      ih (fun call hcall => h call (List.mem_cons_of_mem _ hcall)) hnext
    refine ⟨w₂, ?_, hrest⟩
    rw [List.length_cons, readAll, bind_of_ok hfirst, bind_of_ok hmore]
    rfl

/-- The frame readers invert the frame senders on whole streams. Where `write` takes all bytes,
any sequence of sender calls whose frames fit returns, and it writes one frame for each call.
From any socket that delivers these bytes, however they are cut and whatever follows them, as
many frames are read with the type, channel, length, class, method and bytes of the calls, and
exactly the written bytes are used up. -/
theorem readAll_runAll (h : ∀ call ∈ calls, call.Fits) {w : World} (hwrites : w.writes = []) :
    ∃ w' frames, runAll calls w = .ok ((), w') ∧ Sends frames w w' ∧
      frames.length = calls.length ∧
      ∀ (reader : World) (rest : List UInt8), reader.socket.Delivers (frames.flatten ++ rest) →
        ∃ reader', readAll calls.length reader =
            .ok (calls.map fun call => some call.incoming, reader') ∧
          reader'.socket.Delivers rest := by
  obtain ⟨w', hrun, hsends⟩ := runAll_sends h (World.writesReturn_of_nil hwrites)
  refine ⟨w', calls.map frame, hrun, hsends, List.length_map _, ?_⟩
  intro reader rest hreader
  exact readAll_frames h hreader

/-- A method with three bytes of arguments and an empty body on another channel. -/
theorem readAll_runAll_twoCalls :
    ∃ w' frames, runAll [sendMethod ⟨ClassId.basic, MethodId.basicAck⟩ 1 [0, 206, 1],
          sendBody 512 []] ⟨.initial 0, [], initQueuePool, [], []⟩ = .ok ((), w') ∧
      Sends frames ⟨.initial 0, [], initQueuePool, [], []⟩ w' ∧ frames.length = 2 ∧
      ∀ (reader : World) (rest : List UInt8), reader.socket.Delivers (frames.flatten ++ rest) →
        ∃ reader', readAll 2 reader =
            .ok ([some ⟨1, 1, 7, some ⟨60, 80⟩, [0, 206, 1]⟩, some ⟨3, 512, 0, none, []⟩], reader') ∧
          reader'.socket.Delivers rest := by
  apply readAll_runAll _ rfl
  intro call hcall
  rw [List.mem_pair] at hcall
  rcases hcall with hfirst | hsecond
  · rw [hfirst, Fits]
    decide
  · rw [hsecond, Fits]
    decide

end SendCall

end AmqpBroker
