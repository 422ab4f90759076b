import AmqpBroker.Verification.Stops

/-!
# Frame lengths and the connection buffers

The length field of a frame decides how much the readers copy. For every value of the
field and every stream that supplies that many bytes, a handler stays inside `recvline`
and `parsed` exactly up to a limit that depends on the reader it uses.
-/

namespace AmqpBroker

open Foundations Program MachineState

/-- An index outside the buffers, or one computed from an overflow. -/
def OutOfRange (reason : Abort) : Prop := reason = .bufferRange ∨ reason = .signedOverflow

/-- The code does not leave the buffers in this world. -/
def InRangeOf (x : Action MachineState) (w : World) : Prop :=
  ∀ reason, x w = .error reason → ¬ OutOfRange reason

/-- The handler of a state does not leave the buffers in this world. -/
def InRange (m : MachineState) (w : World) : Prop := InRangeOf (actions m) w

/-- The reader that a handler uses for the payload of a frame. -/
inductive PayloadReader where
  | readMethod
  | readContentHeader
  | readBody
  deriving DecidableEq, Repr

/-- The reader of a state for a frame of this type, if it reads the payload at all. -/
def payloadReader (m : MachineState) (msgType : UInt8) : Option PayloadReader :=
  match m with
  | waitStartOk | waitTuneOk | waitOpenConnection | waitOpenChannel | waitFunctional
  | waitConsumeAck => some .readMethod
  | waitPublishContentHeader => some .readContentHeader
  | waitPublishContent =>
    if msgType = MsgFormat.method then some .readMethod
    else if msgType = MsgFormat.body then some .readBody
    else none
  | _ => none

/-- The states that read a frame. -/
def readsFrame : MachineState → Bool
  | waitStartOk | waitTuneOk | waitOpenConnection | waitOpenChannel | waitFunctional
  | waitPublishContentHeader | waitPublishContent | waitConsumeAck => true
  | _ => false

/-- The longest payload that each reader keeps inside the buffers. -/
def PayloadReader.limit : PayloadReader → ℕ
  | readMethod => maxLine - 3
  | readContentHeader => maxLine
  | readBody => maxLine - 1

/-- The length field is within the limit of the reader that the state uses. -/
def FitsBuffers (m : MachineState) (header : MessageHeader) : Prop :=
  ∀ reader, payloadReader m header.msgType = some reader → header.length.toNat ≤ reader.limit

variable {w w' : World} {bytes header payload : List UInt8} {length : UInt32} {m : MachineState}

/-- `read_method` on a stream that supplies the payload. -/
theorem readMethod_supplied (h : w.socket.Delivers bytes) (hsupply : length.toNat ≤ bytes.length) :
    (length.toNat ≤ maxLine - 3 → ∃ result, readMethod (toInt length) w = .ok result) ∧
      (¬ length.toNat ≤ maxLine - 3 → readMethod (toInt length) w = .error .bufferRange) := by
  have hmax : maxLine = 131073 := rfl
  refine ⟨fun hfits => ?_, fun hlong => ?_⟩
  · have hrequest := requested_of_le (show length.toNat ≤ maxLine by omega)
    by_cases hsmall : requested length < 4
    · obtain ⟨w', hread⟩ := readMethod_tiny h hsmall (by omega)
      exact ⟨_, hread⟩
    · by_cases hend : requested length < bytes.length
      · exact ⟨_, readMethod_complete h (by omega) (by omega) hend⟩
      · obtain ⟨w', hread⟩ := readMethod_cut h (show bytes.length ≤ requested length by omega)
          (by omega) (by omega)
        exact ⟨_, hread⟩
  · apply readMethod_overrun h
    have hle := le_requested length
    by_cases hbytes : requested length ≤ bytes.length
    · exact Or.inr ⟨hbytes, by omega⟩
    · by_cases hfits : length.toNat ≤ maxLine
      · have hrequest := requested_of_le hfits
        omega
      · exact Or.inl (by omega)

/-- `read_content_header` on a stream that supplies the payload. -/
theorem readContentHeader_supplied (h : w.socket.Delivers bytes)
    (hsupply : length.toNat ≤ bytes.length) :
    (length.toNat ≤ maxLine → ∃ result, readContentHeader (toInt length) w = .ok result) ∧
      (¬ length.toNat ≤ maxLine → readContentHeader (toInt length) w = .error .bufferRange) := by
  refine ⟨fun hfits => ?_, fun hlong => ?_⟩
  · have hrequest := requested_of_le hfits
    by_cases hend : requested length < bytes.length
    · obtain ⟨_, _, hread, -⟩ := readContentHeader_complete h (by omega) hend
      exact ⟨_, hread⟩
    · obtain ⟨_, _, hread, -⟩ := readContentHeader_cut h
        (show bytes.length ≤ requested length by omega) (by omega)
      exact ⟨_, hread⟩
  · have hle := le_requested length
    exact readContentHeader_overrun h (by omega)

/-- `read_body` on any stream, with the string it leaves in `parsed`. -/
theorem readBody_supplied (h : w.socket.Delivers bytes) (length : UInt32) :
    (length.toNat ≤ maxLine - 1 → ∃ w' body, readBody (toInt length) w = .ok ((), w') ∧
        w'.cs.parsed.cstring maxLine 0 = some body) ∧
      (¬ length.toNat ≤ maxLine - 1 →
        ∃ reason, readBody (toInt length) w = .error reason ∧ OutOfRange reason) := by
  have hmax : maxLine = 131073 := rfl
  refine ⟨fun hfits => ?_, fun hlong => ?_⟩
  · by_cases hend : length.toNat < bytes.length
    · refine ⟨_, _, readBody_complete h (by omega) hend, afterBody_string w (by omega) ?_⟩
      rw [List.length_take]
      omega
    · exact ⟨_, _, readBody_cut h (by omega) (by omega), cstring_terminated _ (by omega)⟩
  · exact readBody_overrun h (by omega)

/-- A handler that goes on safely after `read_method` is as safe as `read_method`. -/
theorem inRange_readMethod {α : Type} {x : Action α} {f : Option MethodHeader → Action α}
    (hrun : ∃ v, v.socket.Delivers bytes ∧ x w = (readMethod (toInt length) >>= f) v)
    (hf : ∀ method, Avoids OutOfRange (f method)) (hsupply : length.toNat ≤ bytes.length) :
    (∀ reason, x w = .error reason → ¬ OutOfRange reason) ↔ length.toNat ≤ maxLine - 3 := by
  obtain ⟨v, h, hrun⟩ := hrun
  rw [hrun]
  obtain ⟨hread, hoverrun⟩ := readMethod_supplied h hsupply
  by_cases hfits : length.toNat ≤ maxLine - 3
  · obtain ⟨⟨method, v'⟩, hread⟩ := hread hfits
    rw [bind_of_ok hread]
    exact ⟨fun _ => hfits, fun _ reason hstop => hf method v' reason hstop⟩
  · rw [bind_of_error (hoverrun hfits)]
    exact ⟨fun hsafe => absurd (Or.inl rfl) (hsafe _ rfl), fun hshort => absurd hshort hfits⟩

/-- The handlers that read a whole frame with `read_method` go on safely. -/
theorem inRange_readFrame {α : Type} {g : Option MethodHeader → Action α}
    (h : w.socket.Delivers (header ++ payload)) (hheader : header.length = 7)
    (hg : ∀ method, Avoids OutOfRange (g method))
    (hsupply : (decodeHeader header).length.toNat ≤ payload.length) :
    (∀ reason, (readFrame >>= g) w = .error reason → ¬ OutOfRange reason) ↔
      (decodeHeader header).length.toNat ≤ maxLine - 3 := by
  obtain ⟨hread, hrest⟩ := readMessageHeader_of_part hheader h
  obtain ⟨f, hrun, hf⟩ : ∃ f, (readFrame >>= g) w =
      (readMethod (toInt (decodeHeader header).length) >>= f) (w.receive header) ∧
        ∀ method, Avoids OutOfRange (f method) := by
    apply Exists.intro
    apply And.intro
    · rw [readFrame, bind_assoc, bind_of_ok hread]
      exact congrFun (bind_assoc _ _ _) _
    · apply avoids_option
      · exact Avoids.bind (Avoids.bind (avoids_setError _) fun _ => Avoids.pure _) hg
      · exact fun method => Avoids.bind (Avoids.pure _) hg
  exact inRange_readMethod ⟨_, hrest, hrun⟩ hf hsupply

/-- Leaving a ring touches no buffer. -/
theorem avoids_unsubscribe : Avoids OutOfRange unsubscribe :=
  Avoids.bind (avoids_field _) fun _ => Avoids.bind (avoids_field _) fun t =>
    Avoids.bind (avoids_onStore (avoids_qRemoveSubscriber (fun _ => by simp [OutOfRange])
      (by simp [OutOfRange]) (by simp [OutOfRange]) t)) fun _ => avoids_record _

/-- A terminated body is enqueued without leaving the buffers. -/
theorem enqueueBody_inRange {body : List UInt8} {reason : Abort}
    (hstring : w.cs.parsed.cstring maxLine 0 = some body) (h : enqueueBody w = .error reason) :
    ¬ OutOfRange reason := by
  have hbody : stringOf w.cs.parsed w = .ok (body, w) := by
    unfold stringOf
    rw [hstring]
    rfl
  rw [enqueueBody, field_bind_apply, bind_of_ok hbody] at h
  refine Avoids.bind (avoids_field _) (fun q => ?_) w reason h
  exact Avoids.bind (avoids_onStore (avoids_qEnqueue (fun _ => by simp [OutOfRange])
    (by simp [OutOfRange]) body)) fun _ => avoids_record _

/-- The longest payload that a reader takes. -/
theorem fitsBuffers_iff (reader : PayloadReader) {hd : MessageHeader}
    (h : payloadReader m hd.msgType = some reader) :
    FitsBuffers m hd ↔ hd.length.toNat ≤ reader.limit := by
  unfold FitsBuffers
  rw [h]
  simp

/-- A handler whose reader is `read_method` stays inside the buffers when its payload fits them. -/
theorem inRange_iff_of_readMethod {header : MessageHeader}
    (hreader : payloadReader m header.msgType = some .readMethod)
    (h : InRange m w ↔ header.length.toNat ≤ maxLine - 3) : InRange m w ↔ FitsBuffers m header := by
  rw [fitsBuffers_iff .readMethod hreader]
  exact h

/-- The handlers that wait for one method and go on. -/
theorem inRange_awaitMethod (h : w.socket.Delivers (header ++ payload)) (hheader : header.length = 7)
    (hsupply : (decodeHeader header).length.toNat ≤ payload.length) (expected : MethodHeader)
    (message : String) (next : MachineState) :
    InRangeOf (awaitMethod expected message next) w ↔
      (decodeHeader header).length.toNat ≤ maxLine - 3 := by
  apply inRange_readFrame h hheader _ hsupply
  refine avoids_option (Avoids.pure _) fun method => ?_
  exact Avoids.ite (Avoids.bind (avoids_setError _) fun _ => Avoids.pure _) (Avoids.pure _)

/-- WAIT_START_OK reads a method and the octet behind it. -/
theorem inRange_waitStartOk (h : w.socket.Delivers (header ++ payload)) (hheader : header.length = 7)
    (hsupply : (decodeHeader header).length.toNat ≤ payload.length) :
    InRange waitStartOk w ↔ (decodeHeader header).length.toNat ≤ maxLine - 3 := by
  obtain ⟨hread, hrest⟩ := readMessageHeader_of_part hheader h
  obtain ⟨f, hrun, hf⟩ : ∃ f, actions waitStartOk w =
      (readMethod (toInt (decodeHeader header).length) >>= f) (w.receive header) ∧
        ∀ method, Avoids OutOfRange (f method) := by
    refine ⟨_, bind_of_ok hread _, avoids_option (Avoids.pure _) fun method => ?_⟩
    exact Avoids.ite (Avoids.bind (avoids_setError _) fun _ => Avoids.pure _) (Avoids.pure _)
  exact inRange_readMethod ⟨_, hrest, hrun⟩ hf hsupply

/-- WAIT_FUNCTIONAL reads a method and the octet behind it. -/
theorem inRange_waitFunctional (h : w.socket.Delivers (header ++ payload))
    (hheader : header.length = 7) (hsupply : (decodeHeader header).length.toNat ≤ payload.length) :
    InRange waitFunctional w ↔ (decodeHeader header).length.toNat ≤ maxLine - 3 := by
  apply inRange_readFrame h hheader _ hsupply
  refine avoids_option (Avoids.pure _) fun method => ?_
  exact Avoids.bind (avoids_functionalSwitch method) fun _ => avoids_finishDispatch method _

/-- WAIT_CONSUME_ACK reads a method and the octet behind it. -/
theorem inRange_waitConsumeAck (h : w.socket.Delivers (header ++ payload))
    (hheader : header.length = 7) (hsupply : (decodeHeader header).length.toNat ≤ payload.length) :
    InRange waitConsumeAck w ↔ (decodeHeader header).length.toNat ≤ maxLine - 3 := by
  obtain ⟨hread, hrest⟩ := readMessageHeader_of_part hheader h
  have hreject : ∀ message, Avoids OutOfRange (do unsubscribe; setError message; pure fail) :=
    fun message => Avoids.bind avoids_unsubscribe fun _ =>
      Avoids.bind (avoids_setError message) fun _ => Avoids.pure _
  obtain ⟨f, hrun, hf⟩ : ∃ f, actions waitConsumeAck w =
      (readMethod (toInt (decodeHeader header).length) >>= f) (w.receive header) ∧
        ∀ method, Avoids OutOfRange (f method) := by
    refine ⟨_, bind_of_ok hread _, fun method => ?_⟩
    cases method with
    | none => exact hreject _
    | some method => exact Avoids.ite (hreject _) (Avoids.pure _)
  exact inRange_readMethod ⟨_, hrest, hrun⟩ hf hsupply

/-- WAIT_PUBLISH_CONTENT_HEADER reads a content header. -/
theorem inRange_waitPublishContentHeader (h : w.socket.Delivers (header ++ payload))
    (hheader : header.length = 7) (hsupply : (decodeHeader header).length.toNat ≤ payload.length) :
    InRange waitPublishContentHeader w ↔ (decodeHeader header).length.toNat ≤ maxLine := by
  obtain ⟨hread, hrest⟩ := readMessageHeader_of_part hheader h
  have hrun : actions waitPublishContentHeader w =
      (do
        let _ ← readContentHeader (toInt (decodeHeader header).length)
        pure waitPublishContent) (w.receive header) := by
    change actionWaitPublishContentHeader w = _
    rw [actionWaitPublishContentHeader, bind_of_ok hread]
  unfold InRange InRangeOf
  rw [hrun]
  obtain ⟨hcontent, hoverrun⟩ := readContentHeader_supplied hrest hsupply
  by_cases hfits : (decodeHeader header).length.toNat ≤ maxLine
  · obtain ⟨⟨content, v⟩, hcontent⟩ := hcontent hfits
    rw [bind_of_ok hcontent]
    exact ⟨fun _ => hfits, fun _ reason hstop => by cases hstop⟩
  · rw [bind_of_error (hoverrun hfits)]
    exact ⟨fun hsafe => absurd (Or.inl rfl) (hsafe _ rfl), fun hshort => absurd hshort hfits⟩

/-- The handler that waits for content uses the reader of the frame that comes. -/
theorem inRange_waitPublishContent (h : w.socket.Delivers (header ++ payload))
    (hheader : header.length = 7) (hsupply : (decodeHeader header).length.toNat ≤ payload.length) :
    InRange waitPublishContent w ↔ FitsBuffers waitPublishContent (decodeHeader header) := by
  obtain ⟨hread, hrest⟩ := readMessageHeader_of_part hheader h
  have hrun : actions waitPublishContent w = actionWaitPublishContent w := rfl
  unfold InRange InRangeOf
  rw [hrun, actionWaitPublishContent, bind_of_ok hread]
  simp only
  by_cases hmethod : (decodeHeader header).msgType = MsgFormat.method
  · rw [fitsBuffers_iff .readMethod (by rw [payloadReader, if_pos hmethod]),
      if_pos hmethod]
    refine inRange_readMethod (x := readMethod _ >>= _) ⟨_, hrest, rfl⟩ (fun method => ?_) hsupply
    cases method with
    | none => exact Avoids.bind (avoids_setError _) fun _ => Avoids.pure _
    | some method =>
      exact Avoids.bind (avoids_publishContentSwitch method) fun _ => avoids_finishDispatch method _
  · by_cases hbody : (decodeHeader header).msgType = MsgFormat.body
    · rw [fitsBuffers_iff .readBody
        (by rw [payloadReader, if_neg hmethod, if_pos hbody]), if_neg hmethod, if_pos hbody]
      obtain ⟨hread, hoverrun⟩ := readBody_supplied hrest (decodeHeader header).length
      by_cases hfits : (decodeHeader header).length.toNat ≤ maxLine - 1
      · obtain ⟨v, body, hread, hstring⟩ := hread hfits
        rw [bind_of_ok hread]
        refine ⟨fun _ => hfits, fun _ reason hstop => ?_⟩
        rcases bind_eq_error.mp hstop with hstop | ⟨_, _, _, hstop⟩
        · exact enqueueBody_inRange hstring hstop
        · cases hstop
      · obtain ⟨reason, hoverrun, hreason⟩ := hoverrun hfits
        rw [bind_of_error hoverrun]
        exact ⟨fun hsafe => absurd hreason (hsafe _ rfl), fun hshort => absurd hshort hfits⟩
    · rw [if_neg hmethod, if_neg hbody]
      have hfail : ∀ message, Avoids OutOfRange (do setError message; pure fail) :=
        fun message => Avoids.bind (avoids_setError message) fun _ => Avoids.pure _
      refine ⟨fun _ reader hreader => ?_, fun _ => hfail _ _⟩
      rw [payloadReader, if_neg hmethod, if_neg hbody] at hreader
      cases hreader

/-- A handler that reads a frame stays inside the buffers exactly when the length field is
at most `MAXLINE - 3` for `read_method`, `MAXLINE` for `read_content_header` and
`MAXLINE - 1` for `read_body`. -/
theorem inRange_iff_fitsBuffers (hm : readsFrame m = true)
    (h : w.socket.Delivers (header ++ payload)) (hheader : header.length = 7)
    (hsupply : (decodeHeader header).length.toNat ≤ payload.length) :
    InRange m w ↔ FitsBuffers m (decodeHeader header) := by
  cases m with
  | waitStartOk =>
    exact inRange_iff_of_readMethod rfl (inRange_waitStartOk h hheader hsupply)
  | waitTuneOk =>
    exact inRange_iff_of_readMethod rfl (inRange_awaitMethod h hheader hsupply _ _ _)
  | waitOpenConnection =>
    exact inRange_iff_of_readMethod rfl (inRange_awaitMethod h hheader hsupply _ _ _)
  | waitOpenChannel =>
    apply inRange_iff_of_readMethod rfl
    apply inRange_readFrame h hheader _ hsupply
    exact avoids_option (Avoids.pure _) fun method => avoids_finishDispatch method _
  | waitFunctional =>
    exact inRange_iff_of_readMethod rfl (inRange_waitFunctional h hheader hsupply)
  | waitPublishContentHeader =>
    rw [fitsBuffers_iff .readContentHeader rfl]
    exact inRange_waitPublishContentHeader h hheader hsupply
  | waitPublishContent => exact inRange_waitPublishContent h hheader hsupply
  | waitConsumeAck =>
    exact inRange_iff_of_readMethod rfl (inRange_waitConsumeAck h hheader hsupply)
  | _ => cases hm

/-- A connection that waits for Start-Ok, with these bytes to read. -/
def startOkWorld (bytes : List UInt8) : World :=
  { cs := .initial 0, socket := Socket.chunk bytes, store := initQueuePool, trace := [] }

/-- The socket of the example delivers its bytes. -/
theorem startOkWorld_delivers (bytes : List UInt8) : (startOkWorld bytes).socket.Delivers bytes :=
  Socket.chunk_delivers bytes

/-- A Start-Ok without arguments fits. -/
theorem inRange_iff_fitsBuffers_startOk :
    InRange waitStartOk (startOkWorld (encodeHeader MsgFormat.method 0 4 ++ [0, 10, 0, 11])) ↔
      FitsBuffers waitStartOk (decodeHeader (encodeHeader MsgFormat.method 0 4)) :=
  inRange_iff_fitsBuffers rfl (startOkWorld_delivers _) rfl
    (show _ ≤ [0, 10, 0, 11].length by decide)

/-- `parse_method` copies three bytes more than the payload has. -/
theorem startOk_overrun {payload : List UInt8} (hpayload : payload.length = 131071) :
    actions waitStartOk (startOkWorld (encodeHeader MsgFormat.method 0 131071 ++ payload)) =
      .error .bufferRange := by
  have hlength : (decodeHeader (encodeHeader MsgFormat.method 0 131071)).length = 131071 := by
    rw [decodeHeader_encodeHeader _ _ _ (by decide)]
    rfl
  have hdelivers := startOkWorld_delivers (encodeHeader MsgFormat.method 0 131071 ++ payload)
  obtain ⟨hread, hrest⟩ := readMessageHeader_of_part (encodeHeader_length MsgFormat.method 0 131071)
    hdelivers
  have hrequest : requested (decodeHeader (encodeHeader MsgFormat.method 0 131071)).length =
      131071 := by
    rw [hlength]
    decide
  have hcopy : requested (decodeHeader (encodeHeader MsgFormat.method 0 131071)).length ≤
      payload.length ∧ maxLine < requested (decodeHeader
        (encodeHeader MsgFormat.method 0 131071)).length + 3 := by
    rw [hrequest, hpayload]
    decide
  have hmethod := readMethod_overrun hrest (Or.inr hcopy)
  change actionWaitStartOk _ = _
  rw [actionWaitStartOk, bind_of_ok hread]
  exact bind_of_error hmethod _

/-- A METHOD frame of 131071 bytes makes `parse_method` copy 131074 bytes into `parsed`. -/
theorem startOk_out_of_range :
    readsFrame waitStartOk = true ∧
      (decodeHeader (encodeHeader MsgFormat.method 0 131071)).length.toNat ≤
        (List.replicate 131071 (0 : UInt8)).length ∧
      ¬ InRange waitStartOk
        (startOkWorld (encodeHeader MsgFormat.method 0 131071 ++ List.replicate 131071 0)) := by
  refine ⟨rfl, ?_, fun hsafe => ?_⟩
  · rw [decodeHeader_encodeHeader _ _ _ (by decide), List.length_replicate]
    decide
  · exact hsafe _ (startOk_overrun List.length_replicate) (Or.inl rfl)

end AmqpBroker
