import AmqpBroker.Foundations.Lockstep
import AmqpBroker.Verification.Arguments
import AmqpBroker.Verification.Malformed

/-!
# What a frame takes from earlier frames

`recvline` and `parsed` keep what earlier frames left in them. A frame overwrites the front
of `recvline` with its header and its payload; the argument parsers follow length octets of
the client from there on, wherever they lead.
-/

namespace AmqpBroker

open Foundations Program MachineState

variable {m : MachineState} {w : World} {header payload rest own : List UInt8} {endOctet : UInt8}
  {method : MethodHeader}

/-- The same connection with other bytes left in the buffers of its readers. -/
def World.withLeftovers (w : World) (recvline parsed : Buffer) : World :=
  { w with cs := { w.cs with recvline := recvline, parsed := parsed } }

/-- The worlds differ at most in what is left in the buffers of the readers. -/
def SameButLeftovers (w w' : World) : Prop :=
  ∃ recvline parsed, w' = w.withLeftovers recvline parsed

/-- The bodies enqueued in a sequence of calls. -/
def bodiesEnqueued (trace : List Event) : List (List UInt8) :=
  trace.filterMap fun
    | .qEnqueue _ _ body => some body
    | _ => none

/-- Both runs of a handler return the same, or stop in the same way without having left a
buffer. -/
inductive SameOutcome : Except Abort (MachineState × World) →
    Except Abort (MachineState × World) → Prop
  | returns {next : MachineState} {v v' : World}
      (currentQueueName : v.cs.currentQueueName = v'.cs.currentQueueName)
      (currentQueue : v.cs.currentQueue = v'.cs.currentQueue) (pool : v.store = v'.store)
      (enqueued : bodiesEnqueued v.trace = bodiesEnqueued v'.trace) :
      SameOutcome (.ok (next, v)) (.ok (next, v'))
  | stops {reason : Abort} (inside : ¬ OutOfRange reason) :
      SameOutcome (.error reason) (.error reason)

/-- The handler does the same whatever earlier frames have left in the buffers. -/
def IgnoresLeftovers (m : MachineState) (w : World) : Prop :=
  ∀ recvline parsed recvline' parsed',
    SameOutcome (actions m (w.withLeftovers recvline parsed))
      (actions m (w.withLeftovers recvline' parsed'))

/-- The three parsers of arguments. -/
inductive NameParser where
  | declare
  | publish
  | consume
  deriving DecidableEq, Repr

/-- The bytes that a parser copies to `current_queue_name`. -/
def NameParser.source (parser : NameParser) (args : Buffer) : List UInt8 :=
  match parser with
  | declare => args.slice (argumentsOffset + 3) (args (argumentsOffset + 2)).toNat
  | publish =>
    let queueShortStr := argumentsOffset + 3 + (args (argumentsOffset + 2)).toNat
    strncpyBytes (args.slice (queueShortStr + 1) (args queueShortStr).toNat)
  | consume => strncpyBytes (args.slice (argumentsOffset + 3) (args (argumentsOffset + 2)).toNat)

/-- The parser that a state runs on the arguments of a method. -/
def argsParser (m : MachineState) (method : MethodHeader) : Option NameParser :=
  if m = waitFunctional then
    if (method.classId = ClassId.channel ∨ method.classId = ClassId.connection) ∨
        method.classId = ClassId.queue then
      if method.methodId = MethodId.queueDeclare then some .declare else none
    else if method.classId = ClassId.basic then
      if method.methodId = MethodId.basicPublish then some .publish
      else if method.methodId = MethodId.basicConsume then some .consume
      else none
    else none
  else if method.classId = ClassId.basic ∧ method.methodId = MethodId.basicPublish then
    some .publish
  else none

/-- The bytes of a frame in `recvline` once its payload has been read over its header. -/
def ownBytes (header payload : List UInt8) : List UInt8 := payload ++ header.drop payload.length

/-- A copy by `strncpy` of `count` bytes stays inside the bytes of the frame, or ends at a
terminator there. -/
def OwnString (own : List UInt8) (start count : ℕ) : Prop :=
  start + count ≤ own.length ∨ 0 ∈ own.drop start

/-- Every byte that the parser makes use of is one of the frame. -/
def NameParser.Own (parser : NameParser) (own : List UInt8) : Prop :=
  match parser with
  | declare => argumentsOffset + 3 + (own.getD (argumentsOffset + 2) 0).toNat ≤ own.length
  | publish =>
    let queueShortStr := argumentsOffset + 3 + (own.getD (argumentsOffset + 2) 0).toNat
    queueShortStr < own.length ∧
      OwnString own (queueShortStr + 1) (own.getD queueShortStr 0).toNat
  | consume => OwnString own (argumentsOffset + 3) (own.getD (argumentsOffset + 2) 0).toNat

/-- The queue name that the frame gives is one of its own bytes. -/
def OwnName (m : MachineState) (msgType : UInt8) (header payload : List UInt8) : Prop :=
  payloadReader m msgType = some .readMethod → 4 ≤ payload.length →
    ∀ parser, argsParser m (decodeMethod payload) = some parser →
      parser.Own (ownBytes header payload)

/-! ## The name that a parser finds -/

/-- A byte of the frame, whatever is behind them. -/
theorem write_own_of_lt {i : ℕ} (foreign : Buffer) (hi : i < own.length) :
    foreign.write 0 own i = own.getD i 0 := by
  have h := Buffer.write_apply_of_lt foreign 0 own i hi
  rw [Nat.zero_add] at h
  rw [h, List.getD_eq_getElem _ _ hi]

/-- A byte behind the frame. -/
theorem write_own_of_ge {i : ℕ} (foreign : Buffer) (hi : own.length ≤ i) :
    foreign.write 0 own i = foreign i :=
  Buffer.write_apply_of_ge foreign 0 own i (by omega)

/-- A slice inside the frame. -/
theorem slice_own {start count : ℕ} (foreign : Buffer) (h : start + count ≤ own.length) :
    (foreign.write 0 own).slice start count = (own.drop start).take count := by
  simpa using Buffer.slice_write foreign 0 start count own h

/-- A slice across the end of the frame. -/
theorem slice_across {start count : ℕ} (foreign : Buffer) (hstart : start ≤ own.length)
    (h : own.length ≤ start + count) :
    (foreign.write 0 own).slice start count =
      own.drop start ++ foreign.slice own.length (start + count - own.length) := by
  have hsplit : count = (own.length - start) + (start + count - own.length) := by omega
  have hend : start + (own.length - start) = own.length := by omega
  have hbehind : ∀ i, own.length ≤ i → i < own.length + (start + count - own.length) →
      foreign.write 0 own i = foreign i := fun i hi _ => write_own_of_ge foreign hi
  conv_lhs => rw [hsplit]
  rw [Buffer.slice_append, slice_own foreign (by omega), hend, Buffer.slice_congr _ _ _ _ hbehind,
    List.take_of_length_le (by rw [List.length_drop])]

/-- A copy by `strncpy` ends at the first terminator. -/
theorem strncpyBytes_append {before after after' : List UInt8} (hzero : 0 ∈ before)
    (hlength : after.length = after'.length) :
    strncpyBytes (before ++ after) = strncpyBytes (before ++ after') := by
  have htake : ∀ tail : List UInt8, (before ++ tail).takeWhile (· ≠ 0) =
      before.takeWhile (· ≠ 0) := by
    intro tail
    rw [List.takeWhile_append, if_neg]
    intro hall
    have hself := (List.takeWhile_sublist (l := before) (· ≠ 0)).eq_of_length hall
    exact (takeWhile_ne_zero_eq_self before).mp hself hzero
  unfold strncpyBytes
  rw [htake, htake, List.length_append, List.length_append, hlength]

/-- A copy by `strncpy` of bytes without a terminator is a copy of all of them. -/
theorem strncpyBytes_of_notMem {source : List UInt8} (hzero : 0 ∉ source) :
    strncpyBytes source = source := by
  have hself := (takeWhile_ne_zero_eq_self source).mpr hzero
  rw [strncpyBytes, hself, Nat.sub_self, List.replicate_zero, List.append_nil]

/-- A copy by `strncpy` that stays inside the frame does not depend on what is behind it. -/
theorem strncpyBytes_own {start count : ℕ} (hstart : start ≤ own.length)
    (h : OwnString own start count) (foreign foreign' : Buffer) :
    strncpyBytes ((foreign.write 0 own).slice start count) =
      strncpyBytes ((foreign'.write 0 own).slice start count) := by
  by_cases hinside : start + count ≤ own.length
  · rw [slice_own foreign hinside, slice_own foreign' hinside]
  · have hzero : 0 ∈ own.drop start := h.resolve_left hinside
    rw [slice_across foreign hstart (by omega), slice_across foreign' hstart (by omega)]
    apply strncpyBytes_append hzero
    rw [Buffer.slice_length, Buffer.slice_length]

/-- A parser that makes use of bytes of the frame only finds the same whatever is behind. -/
theorem NameParser.source_own {parser : NameParser} (hown : 7 ≤ own.length)
    (h : parser.Own own) (foreign foreign' : Buffer) :
    parser.source (foreign.write 0 own) = parser.source (foreign'.write 0 own) := by
  have hsize : ∀ f : Buffer, f.write 0 own (argumentsOffset + 2) =
      own.getD (argumentsOffset + 2) 0 :=
    fun f => write_own_of_lt f (by rw [argumentsOffset]; omega)
  have hthree : argumentsOffset + 3 ≤ own.length := by
    rw [argumentsOffset]
    omega
  cases parser with
  | declare =>
    simp only [source, hsize]
    rw [slice_own foreign h, slice_own foreign' h]
  | publish =>
    obtain ⟨hin, hstring⟩ := h
    simp only [source, hsize]
    rw [write_own_of_lt foreign hin, write_own_of_lt foreign' hin]
    exact strncpyBytes_own hin hstring foreign foreign'
  | consume =>
    simp only [source, hsize]
    exact strncpyBytes_own hthree h foreign foreign'

/-- `current_queue_name` after a copy and its terminator. -/
def storedName (name : Buffer) (bytes : List UInt8) : Buffer :=
  (name.write 0 bytes).write bytes.length [0]

/-- A byte of the copy. -/
theorem storedName_of_lt (name : Buffer) {bytes : List UInt8} {k : ℕ} (hk : k < bytes.length) :
    storedName name bytes k = bytes[k] := by
  have h := Buffer.write_apply_of_lt name 0 bytes k hk
  rw [Nat.zero_add] at h
  rw [storedName, Buffer.write_apply_of_before _ _ _ _ hk, h]

/-- The terminator behind the copy. -/
theorem storedName_length (name : Buffer) (bytes : List UInt8) :
    storedName name bytes bytes.length = 0 :=
  Buffer.write_apply_of_lt (name.write 0 bytes) bytes.length [0] 0 (by simp)

/-- The first byte that a copy across the end of the frame takes from behind it. -/
theorem storedName_across {start count : ℕ} (name : Buffer) (byte : UInt8)
    (hstart : start ≤ own.length) (h : own.length < start + count) :
    storedName name ((Buffer.write (fun _ => byte) 0 own).slice start count)
      (own.length - start) = byte := by
  obtain ⟨more, hmore⟩ : ∃ more, start + count - own.length = more + 1 :=
    ⟨start + count - own.length - 1, by omega⟩
  have hslice := slice_across (fun _ => byte) hstart h.le
  rw [hmore, Buffer.slice] at hslice
  have hlast : (own.drop start).length = own.length - start := List.length_drop ..
  rw [storedName_of_lt name (by rw [Buffer.slice_length]; omega)]
  simp only [hslice]
  rw [List.getElem_append_right (by rw [hlast])]
  simp [hlast]

/-- The bytes behind the frame that `strncpy` takes show in the name. -/
theorem strncpyBytes_across {start count : ℕ} (name : Buffer) {byte : UInt8} (hbyte : byte ≠ 0)
    (hstart : start ≤ own.length) (h : ¬ OwnString own start count) :
    storedName name (strncpyBytes ((Buffer.write (fun _ => byte) 0 own).slice start count))
      (own.length - start) = byte := by
  obtain ⟨hbeyond, hzero⟩ := not_or.mp h
  have hforeign : ∀ offset more, (0 : UInt8) ∉ Buffer.slice (fun _ => byte) offset more := by
    intro offset more
    induction more generalizing offset with
    | zero => simp [Buffer.slice]
    | succ more ih => simp [Buffer.slice, ih, hbyte.symm]
  have hnone : (0 : UInt8) ∉ (Buffer.write (fun _ => byte) 0 own).slice start count := by
    rw [slice_across _ hstart (by omega), List.mem_append, not_or]
    exact ⟨hzero, hforeign _ _⟩
  rw [strncpyBytes_of_notMem hnone]
  exact storedName_across name byte hstart (by omega)

/-- A parser that makes use of other bytes gives another name when these are others. -/
theorem NameParser.source_foreign {parser : NameParser} (hown : 7 ≤ own.length)
    (h : ¬ parser.Own own) (name : Buffer) :
    ∃ foreign foreign' : Buffer,
      storedName name (parser.source (foreign.write 0 own)) ≠
        storedName name (parser.source (foreign'.write 0 own)) := by
  have hsize : ∀ f : Buffer, f.write 0 own (argumentsOffset + 2) =
      own.getD (argumentsOffset + 2) 0 :=
    fun f => write_own_of_lt f (by rw [argumentsOffset]; omega)
  have hthree : argumentsOffset + 3 ≤ own.length := by
    rw [argumentsOffset]
    omega
  have hbytes : (1 : UInt8) ≠ 2 := by decide
  -- where a byte from behind the frame stands, the two names hold two bytes
  have hdiffer : ∀ {k : ℕ} {left right : Buffer}, left k = 1 → right k = 2 → left ≠ right := by
    intro k left right hleft hright hsame
    rw [hsame, hright] at hleft
    exact hbytes hleft.symm
  cases parser with
  | declare =>
    refine ⟨fun _ => 1, fun _ => 2, ?_⟩
    simp only [source, hsize]
    exact hdiffer (storedName_across name 1 hthree (by simpa [Own] using h))
      (storedName_across name 2 hthree (by simpa [Own] using h))
  | consume =>
    refine ⟨fun _ => 1, fun _ => 2, ?_⟩
    simp only [source, hsize]
    exact hdiffer (strncpyBytes_across name (by decide) hthree h)
      (strncpyBytes_across name (by decide) hthree h)
  | publish =>
    by_cases hin : argumentsOffset + 3 + (own.getD (argumentsOffset + 2) 0).toNat < own.length
    · have hstring := fun hown' => h ⟨hin, hown'⟩
      refine ⟨fun _ => 1, fun _ => 2, ?_⟩
      simp only [source, hsize]
      rw [write_own_of_lt _ hin, write_own_of_lt _ hin]
      exact hdiffer (strncpyBytes_across name (by decide) hin hstring)
        (strncpyBytes_across name (by decide) hin hstring)
    · -- the size octet itself is from behind the frame
      refine ⟨fun _ => 0, fun _ => 1, ?_⟩
      simp only [source, hsize]
      rw [write_own_of_ge _ (by omega), write_own_of_ge _ (by omega)]
      intro hsame
      have hfirst := congrFun hsame 0
      have hnone : storedName name (strncpyBytes ((Buffer.write (fun _ => 0) 0 own).slice
          (argumentsOffset + 3 + (own.getD (argumentsOffset + 2) 0).toNat + 1)
          (0 : UInt8).toNat)) 0 = 0 := storedName_length name []
      rw [hnone] at hfirst
      have hone : (Buffer.write (fun _ => 1) 0 own).slice
          (argumentsOffset + 3 + (own.getD (argumentsOffset + 2) 0).toNat + 1)
          (1 : UInt8).toNat = [1] := by
        change [Buffer.write (fun _ => 1) 0 own _] = [1]
        rw [write_own_of_ge _ (by omega)]
      rw [hone] at hfirst
      have hstored : storedName name (strncpyBytes [1]) 0 = 1 :=
        storedName_of_lt name (show 0 < [(1 : UInt8)].length by decide)
      rw [hstored] at hfirst
      cases hfirst

/-! ## The switches -/

/-- What a switch does with the bytes that its parser copies. -/
def NameParser.run (parser : NameParser) (bytes : List UInt8) : Action MachineState :=
  match parser with
  | declare => do
    let name ← storeQueueName bytes
    record (.parseQueueDeclareArgs name)
    let q ← onStore (createQueue name)
    record (.createQueue name q)
    assign fun cs => { cs with currentQueue := some q }
    pure queueDeclareReceived
  | publish => do
    let name ← storeQueueName bytes
    record (.parseBasicPublishArgs name)
    selectQueue name
    pure basicPublishReceived
  | consume => do
    let name ← storeQueueName bytes
    record (.parseBasicConsumeArgs name)
    selectQueue name
    pure basicConsumeReceived

/-- The switch of the two states. -/
def frameSwitch (m : MachineState) (method : MethodHeader) : Action MachineState :=
  if m = waitFunctional then functionalSwitch method else publishContentSwitch method

/-- What a switch does once its parser is known. -/
def parserSwitch (next : MachineState) : Option NameParser → Action MachineState
  | none => pure next
  | some parser => do
    let args ← field (·.parsed)
    parser.run (parser.source args)

/-- Queue.Declare as a parser and what is done with its string. -/
theorem declareQueue_run :
    (do
      declareQueue
      pure queueDeclareReceived : Action MachineState) =
    parserSwitch queueDeclareReceived (some .declare) := by
  unfold declareQueue parseQueueDeclareArgs
  simp only [bind_assoc, pure_bind]
  rfl

/-- Basic.Publish as a parser and what is done with its string. -/
theorem publishQueue_run :
    (do
      selectQueue (← parseBasicPublishArgs)
      pure basicPublishReceived : Action MachineState) =
    parserSwitch basicPublishReceived (some .publish) := by
  unfold parseBasicPublishArgs
  simp only [bind_assoc, pure_bind]
  rfl

/-- Basic.Consume as a parser and what is done with its string. -/
theorem consumeQueue_run :
    (do
      selectQueue (← parseBasicConsumeArgs)
      pure basicConsumeReceived : Action MachineState) =
    parserSwitch basicConsumeReceived (some .consume) := by
  unfold parseBasicConsumeArgs
  simp only [bind_assoc, pure_bind]
  rfl

/-- The switch of WAIT_FUNCTIONAL runs its parser on `parsed`, or names the next state. -/
theorem functionalSwitch_run (method : MethodHeader) :
    functionalSwitch method =
      parserSwitch (functionalNext method) (argsParser waitFunctional method) := by
  unfold functionalSwitch functionalNext
  simp only [argsParser, if_true]
  by_cases hqueue : (method.classId = ClassId.channel ∨ method.classId = ClassId.connection) ∨
      method.classId = ClassId.queue
  · simp only [if_pos hqueue]
    by_cases hdeclared : method.methodId = MethodId.queueDeclare
    · simp only [if_pos hdeclared]
      exact declareQueue_run
    · simp only [if_neg hdeclared]
      rfl
  · simp only [if_neg hqueue]
    by_cases hbasic : method.classId = ClassId.basic
    · simp only [if_pos hbasic]
      by_cases hpublished : method.methodId = MethodId.basicPublish
      · simp only [if_pos hpublished]
        exact publishQueue_run
      · simp only [if_neg hpublished]
        by_cases hconsumed : method.methodId = MethodId.basicConsume
        · simp only [if_pos hconsumed]
          exact consumeQueue_run
        · simp only [if_neg hconsumed]
          rfl
    · simp only [if_neg hbasic]
      rfl

/-- The switch of WAIT_PUBLISH_CONTENT runs its parser on `parsed`, or names the next state. -/
theorem publishContentSwitch_run (method : MethodHeader) :
    ∃ next, publishContentSwitch method =
      parserSwitch next (argsParser waitPublishContent method) := by
  have hchannelBasic : ClassId.channel ≠ ClassId.basic := by decide
  have hnot : waitPublishContent ≠ waitFunctional := by decide
  unfold publishContentSwitch
  simp only [argsParser, if_neg hnot]
  by_cases hchannel : method.classId = ClassId.channel
  · have hbasic : method.classId ≠ ClassId.basic := by
      rw [hchannel]
      exact hchannelBasic
    simp only [if_pos hchannel, hbasic, false_and, if_false]
    split
    · exact ⟨_, rfl⟩
    · exact ⟨_, rfl⟩
  · simp only [if_neg hchannel]
    by_cases hbasic : method.classId = ClassId.basic
    · simp only [if_pos hbasic]
      by_cases hpublished : method.methodId = MethodId.basicPublish
      · rw [if_pos hpublished, if_pos ⟨hbasic, hpublished⟩]
        exact ⟨_, publishQueue_run⟩
      · simp only [hpublished, and_false, if_false]
        exact ⟨_, rfl⟩
    · simp only [hbasic, false_and, if_false]
      split
      · split
        · exact ⟨_, rfl⟩
        · exact ⟨_, rfl⟩
      · exact ⟨_, rfl⟩

/-! ## Code that does not look at the leftovers -/

/-- A field that is none of the two buffers. -/
theorem lockstep_field {α : Type} {view : ConnectionState → α}
    (h : ∀ cs recvline parsed, view { cs with recvline := recvline, parsed := parsed } = view cs) :
    Lockstep SameButLeftovers (field view) := by
  apply Lockstep.read
  intro w w' ⟨recvline, parsed, hw⟩
  rw [hw]
  exact (h w.cs recvline parsed).symm

/-- An assignment to fields that are none of the two buffers. -/
theorem lockstep_assign {change : ConnectionState → ConnectionState}
    (h : ∀ cs recvline parsed, change { cs with recvline := recvline, parsed := parsed } =
      { change cs with recvline := recvline, parsed := parsed }) :
    Lockstep SameButLeftovers (assign change) := by
  apply Lockstep.update
  intro w w' ⟨recvline, parsed, hw⟩
  refine ⟨recvline, parsed, ?_⟩
  rw [hw]
  exact congrArg (fun cs => { w with cs := cs }) (h w.cs recvline parsed)

/-- Recording a call looks at no buffer. -/
theorem lockstep_record (event : Event) : Lockstep SameButLeftovers (record event) := by
  apply Lockstep.update
  intro w w' ⟨recvline, parsed, hw⟩
  exact ⟨recvline, parsed, by rw [hw]; rfl⟩

/-- The shared memory does not depend on the buffers. -/
theorem lockstep_shared {α : Type} (x : Shared α) : Lockstep SameButLeftovers (onStore x) := by
  intro w w' ⟨recvline, parsed, hw⟩
  rw [hw]
  have hstore : (w.withLeftovers recvline parsed).store = w.store := rfl
  unfold onStore
  rw [hstore]
  cases x w.store with
  | error reason => exact .error reason
  | ok result => exact .ok ⟨rfl, recvline, parsed, rfl⟩

/-- Setting an error looks at no buffer. -/
theorem lockstep_setError (message : String) : Lockstep SameButLeftovers (setError message) :=
  lockstep_assign fun _ _ _ => rfl

/-- The end of a switch looks at no buffer. -/
theorem lockstep_finishDispatch (method : MethodHeader) (next : MachineState) :
    Lockstep SameButLeftovers (finishDispatch method next) := by
  unfold finishDispatch
  split
  · exact Lockstep.bind (lockstep_setError _) fun _ => Lockstep.pure _
  · exact Lockstep.pure _

/-- The stored name does not depend on what was there before. -/
theorem lockstep_storeQueueName (bytes : List UInt8) :
    Lockstep SameButLeftovers (storeQueueName bytes) := by
  apply Lockstep.bind (lockstep_assign fun _ _ _ => rfl)
  intro _
  apply Lockstep.bind (lockstep_field fun _ _ _ => rfl)
  intro name
  split
  · exact Lockstep.pure _
  · exact Lockstep.stop _

/-- Choosing a queue by a given name looks at no buffer. -/
theorem lockstep_selectQueue (name : List UInt8) :
    Lockstep SameButLeftovers (selectQueue name) := by
  apply Lockstep.bind (lockstep_shared _)
  intro q
  apply Lockstep.bind (lockstep_record _)
  exact fun _ => lockstep_assign fun _ _ _ => rfl

/-- What a switch does with the copied bytes does not depend on the leftovers. -/
theorem NameParser.lockstep_run (parser : NameParser) (bytes : List UInt8) :
    Lockstep SameButLeftovers (parser.run bytes) := by
  cases parser with
  | declare =>
    apply Lockstep.bind (lockstep_storeQueueName bytes)
    intro name
    apply Lockstep.bind (lockstep_record _)
    intro _
    apply Lockstep.bind (lockstep_shared _)
    intro q
    apply Lockstep.bind (lockstep_record _)
    intro _
    exact Lockstep.bind (lockstep_assign fun _ _ _ => rfl) fun _ => Lockstep.pure _
  | publish | consume =>
    apply Lockstep.bind (lockstep_storeQueueName bytes)
    intro name
    apply Lockstep.bind (lockstep_record _)
    intro _
    exact Lockstep.bind (lockstep_selectQueue name) fun _ => Lockstep.pure _

/-- `q_enqueue` of a string into the current queue. -/
def enqueueString (body : List UInt8) : Action Unit := do
  let q ← field (·.currentQueue)
  let node ← onStore (qEnqueue q body)
  record (.qEnqueue q node body)

/-- A body in `parsed` is enqueued up to its terminator. -/
theorem enqueueBody_of_string {body : List UInt8}
    (h : w.cs.parsed.cstring maxLine 0 = some body) : enqueueBody w = enqueueString body w := by
  have hstring : stringOf w.cs.parsed w = .ok (body, w) := by
    rw [stringOf, h]
    rfl
  rw [enqueueBody, field_bind_apply, bind_of_ok hstring]
  rfl

/-- Enqueueing a given body looks at no buffer. -/
theorem lockstep_enqueueString (body : List UInt8) :
    Lockstep SameButLeftovers (enqueueString body) := by
  apply Lockstep.bind (lockstep_field fun _ _ _ => rfl)
  intro q
  apply Lockstep.bind (lockstep_shared _)
  exact fun node => lockstep_record _

/-- Handlers in lockstep do the same, if they do not leave a buffer. -/
theorem sameOutcome_of_matched {x y : Except Abort (MachineState × World)}
    (h : Matched (fun p p' => p.1 = p'.1 ∧ SameButLeftovers p.2 p'.2) x y)
    (hinside : ∀ reason, x = .error reason → ¬ OutOfRange reason) : SameOutcome x y := by
  cases h with
  | @ok p p' hsame =>
    obtain ⟨next, v⟩ := p
    obtain ⟨next', v'⟩ := p'
    obtain ⟨hnext, recvline, parsed, hv⟩ := hsame
    obtain rfl : next = next' := hnext
    obtain rfl : v' = v.withLeftovers recvline parsed := hv
    exact .returns rfl rfl rfl rfl
  | error reason => exact .stops (hinside reason rfl)

/-- A parser copies fewer bytes than `current_queue_name` has room for. -/
theorem NameParser.source_length (parser : NameParser) (args : Buffer) :
    (parser.source args).length < 256 := by
  cases parser with
  | declare =>
    simp only [source, Buffer.slice_length]
    exact UInt8.toNat_lt _
  | publish | consume =>
    simp only [source, strncpyBytes_length, Buffer.slice_length]
    exact UInt8.toNat_lt _

/-- The stored name is what a switch leaves in `current_queue_name`. -/
theorem NameParser.run_name {parser : NameParser} {bytes : List UInt8} {next : MachineState}
    {w' : World} (hbytes : bytes.length < 256) (h : parser.run bytes w = .ok (next, w')) :
    w'.cs.currentQueueName = storedName w.cs.currentQueueName bytes := by
  have hstore := storeQueueName_returns hbytes w
  cases parser with
  | declare =>
    rw [run, bind_of_ok hstore] at h
    obtain ⟨_, w₁, hrecord, h⟩ := bind_eq_ok.mp h
    cases hrecord
    obtain ⟨q, w₂, hcreate, h⟩ := bind_eq_ok.mp h
    obtain ⟨-, hw₂⟩ := onStore_eq_ok hcreate
    cases h
    rw [hw₂]
    rfl
  | publish | consume =>
    rw [run, bind_of_ok hstore] at h
    obtain ⟨_, w₁, hrecord, h⟩ := bind_eq_ok.mp h
    cases hrecord
    obtain ⟨_, w₂, hselect, h⟩ := bind_eq_ok.mp h
    obtain ⟨q, -, hw₂⟩ := selectQueue_eq_ok hselect
    cases h
    rw [hw₂]
    rfl

/-! ## The frame in the buffers -/

/-! ## The frame in the buffers -/

/-- The frame in `recvline`: its bytes, and behind them what was there. -/
theorem receive_payload (w : World) (header payload : List UInt8) :
    ((w.receive header).receive payload).cs.recvline =
      w.cs.recvline.write 0 (ownBytes header payload) :=
  Buffer.write_write_zero w.cs.recvline header payload

/-- A frame overwrites its payload in `recvline`, and its header at least. -/
theorem ownBytes_length (hheader : header.length = 7) :
    (ownBytes header payload).length = max payload.length 7 := by
  rw [ownBytes, List.length_append, List.length_drop, hheader]
  omega

/-- What stands in `parsed` from its arguments on, with `parsed` and `recvline` as they were. -/
theorem afterMethod_parsed (w : World) (hheader : header.length = 7) (hlong : 4 ≤ payload.length)
    {i : ℕ} (hi : 4 ≤ i) :
    ((w.receive header).afterMethod payload endOctet).cs.parsed i =
      Buffer.write (fun i => if i < payload.length + 3 then w.cs.recvline i else w.cs.parsed i)
        0 (ownBytes header payload) i := by
  have hids : (toLE 2 (decodeMethod payload).classId.toNat ++
      toLE 2 (decodeMethod payload).methodId.toNat).length = 4 := by simp
  have hown : (ownBytes header payload).length = max payload.length 7 := ownBytes_length hheader
  change ((w.receive header).parsedMethod payload).cs.parsed i = _
  simp only [World.parsedMethod]
  rw [Buffer.write_apply_of_ge _ _ _ _ (by rw [hids]; omega), receive_payload,
    Buffer.write_slice]
  by_cases hin : i < payload.length + 3
  · rw [if_pos hin]
    by_cases hbyte : i < (ownBytes header payload).length
    · rw [write_own_of_lt _ hbyte, write_own_of_lt _ hbyte]
    · rw [write_own_of_ge _ (by omega), write_own_of_ge _ (by omega), if_pos hin]
  · rw [if_neg hin, write_own_of_ge _ (by omega), if_neg hin]
    rfl

/-- A parser looks at the arguments only. -/
theorem NameParser.source_congr (parser : NameParser) {args args' : Buffer}
    (h : ∀ i, argumentsOffset ≤ i → args i = args' i) : parser.source args = parser.source args' := by
  have hslice : ∀ offset count, argumentsOffset ≤ offset →
      args.slice offset count = args'.slice offset count := fun offset count hoffset =>
    Buffer.slice_congr args args' offset count fun i hi _ => h i (by omega)
  cases parser with
  | declare | consume =>
    simp only [source]
    rw [h _ (by omega), hslice _ _ (by omega)]
  | publish =>
    simp only [source]
    rw [h (argumentsOffset + 2) (by omega), h _ (by omega), hslice _ _ (by omega)]

/-- Two readings of one frame differ in the leftovers only. -/
theorem afterMethod_sameButLeftovers (w : World) (header payload : List UInt8) (endOctet : UInt8)
    (recvline parsed recvline' parsed' : Buffer) :
    SameButLeftovers
      (((w.withLeftovers recvline parsed).receive header).afterMethod payload endOctet)
      (((w.withLeftovers recvline' parsed').receive header).afterMethod payload endOctet) :=
  ⟨_, _, rfl⟩

/-- The switches of the two states run their parser on `parsed`. -/
theorem frameSwitch_run (hm : m = waitFunctional ∨ m = waitPublishContent)
    (method : MethodHeader) :
    ∃ next, frameSwitch m method = parserSwitch next (argsParser m method) := by
  obtain rfl | rfl := hm
  · exact ⟨_, functionalSwitch_run method⟩
  · exact publishContentSwitch_run method

/-- The switches of the two states return. -/
theorem frameSwitch_returns (hm : m = waitFunctional ∨ m = waitPublishContent)
    (method : MethodHeader) (w : World) :
    ∃ next w', (frameSwitch m method >>= finishDispatch method) w = .ok (next, w') := by
  have hswitch : ∃ next w', frameSwitch m method w = .ok (next, w') := by
    obtain rfl | rfl := hm
    · exact ⟨_, functionalSwitch_returns method w⟩
    · exact ⟨_, publishContentSwitch_returns method w⟩
  obtain ⟨next, w', hswitch⟩ := hswitch
  rw [bind_of_ok hswitch]
  exact ⟨next, finishDispatch_returns method next w'⟩

/-- What the two handlers do with a frame whose method has been read. -/
theorem actions_of_readMethod (hm : m = waitFunctional ∨ m = waitPublishContent)
    {messageHeader : MessageHeader} {v v' : World}
    (hheader : readMessageHeader w = .ok (some messageHeader, v))
    (htype : m = waitPublishContent → messageHeader.msgType = MsgFormat.method)
    (hmethod : readMethod (toInt messageHeader.length) v = .ok (some method, v')) :
    actions m w = (frameSwitch m method >>= finishDispatch method) v' := by
  obtain rfl | rfl := hm
  · have hframe : readFrame w = .ok (some method, v') := by
      rw [readFrame, bind_of_ok hheader]
      simp only
      rw [bind_of_ok hmethod]
      rfl
    change actionWaitFunctional w = _
    rw [actionWaitFunctional, bind_of_ok hframe]
    rfl
  · change actionWaitPublishContent w = _
    rw [actionWaitPublishContent, bind_of_ok hheader]
    simp only [htype rfl, if_true]
    rw [bind_of_ok hmethod]
    rfl

/-- What the two handlers do with a frame without a method. -/
theorem actions_of_readMethod_none (hm : m = waitFunctional ∨ m = waitPublishContent)
    {messageHeader : MessageHeader} {v v' : World}
    (hheader : readMessageHeader w = .ok (some messageHeader, v))
    (htype : m = waitPublishContent → messageHeader.msgType = MsgFormat.method)
    (hmethod : readMethod (toInt messageHeader.length) v = .ok (none, v')) :
    actions m w = .ok (fail, { v' with
      cs := { v'.cs with errorMsg := "Error reading method" } }) := by
  obtain rfl | rfl := hm
  · have hframe : readFrame w = .ok (none, { v' with
        cs := { v'.cs with errorMsg := "Error reading method" } }) := by
      rw [readFrame, bind_of_ok hheader]
      simp only
      rw [bind_of_ok hmethod]
      rfl
    change actionWaitFunctional w = _
    rw [actionWaitFunctional, bind_of_ok hframe]
    rfl
  · change actionWaitPublishContent w = _
    rw [actionWaitPublishContent, bind_of_ok hheader]
    simp only [htype rfl, if_true]
    rw [bind_of_ok hmethod]
    rfl

/-- A payload too short for a method stays in `recvline`. -/
theorem readMethod_of_tiny {length : UInt32} (hlength : payload.length = length.toNat)
    (hsmall : payload.length < 4) (hw : w.socket.Delivers (payload ++ endOctet :: rest)) :
    readMethod (toInt length) w = .ok (none, w.receive payload) := by
  have hmax : (4 : ℕ) ≤ maxLine := by decide
  have hrequested : requested length = payload.length := by
    rw [requested_of_le (by omega), hlength]
  have hread := readUntil_complete hw
    (show payload.length ≤ (payload ++ endOctet :: rest).length by simp) (by omega)
  rw [List.take_left' rfl] at hread
  unfold readMethod
  change (readUntil (requested length) >>= _) w = _
  rw [hrequested, bind_of_ok hread]
  by_cases hzero : payload.length = 0
  · simp only [hzero, if_true]
    rfl
  · have hparse : parseMethod payload.length (w.receive payload) =
        .ok (none, w.receive payload) := by
      rw [parseMethod, if_pos hsmall]
      rfl
    simp only [if_neg hzero]
    rw [bind_of_ok hparse]
    rfl

/-- A payload that fits is parsed as a method. -/
theorem readMethod_of_fitting {length : UInt32} (hlength : payload.length = length.toNat)
    (hlong : 4 ≤ payload.length) (hroom : payload.length + 3 ≤ maxLine)
    (hw : w.socket.Delivers (payload ++ endOctet :: rest)) :
    readMethod (toInt length) w =
      .ok (some (decodeMethod payload), w.afterMethod payload endOctet) := by
  have hrequested : requested length = payload.length := by
    rw [requested_of_le (by omega), hlength]
  have hbytes : requested length < (payload ++ endOctet :: rest).length := by
    rw [hrequested]
    simp
  have hread := readMethod_complete hw (by omega) (by omega) hbytes
  have htake : (payload ++ endOctet :: rest).take (requested length) = payload := by
    rw [hrequested]
    exact List.take_left' rfl
  have hend : (payload ++ endOctet :: rest)[requested length] = endOctet := by
    simp only [hrequested, List.getElem_append_right (Nat.le_refl _), Nat.sub_self,
      List.getElem_cons_zero]
  rw [htake, hend] at hread
  exact hread

/-- The name that a switch with a parser leaves. -/
theorem switch_name (hm : m = waitFunctional ∨ m = waitPublishContent) {parser : NameParser}
    (hparser : argsParser m method = some parser) {next : MachineState} {w' : World}
    (h : (frameSwitch m method >>= finishDispatch method) w = .ok (next, w')) :
    w'.cs.currentQueueName =
      storedName w.cs.currentQueueName (parser.source w.cs.parsed) := by
  obtain ⟨named, hswitch⟩ := frameSwitch_run hm method
  rw [hswitch, hparser] at h
  obtain ⟨next', w₁, hrun, hfinish⟩ := bind_eq_ok.mp h
  obtain ⟨-, hsilent⟩ := finishDispatch_result hfinish
  rw [hsilent.currentQueueName]
  exact NameParser.run_name (parser.source_length _) hrun

/-- A switch with a parser runs it on what `parsed` holds. -/
theorem parserSwitch_bind {α : Type} (next : MachineState) (parser : NameParser)
    (f : MachineState → Action α) (v : World) :
    (parserSwitch next (some parser) >>= f) v =
      (parser.run (parser.source v.cs.parsed) >>= f) v := by
  rw [parserSwitch, bind_assoc, field_bind_apply]

/-- A switch whose parser finds the same bytes does the same. -/
theorem switch_lockstep (hm : m = waitFunctional ∨ m = waitPublishContent) {v v' : World}
    (hsame : SameButLeftovers v v')
    (hsource : ∀ parser, argsParser m method = some parser →
      parser.source v.cs.parsed = parser.source v'.cs.parsed) :
    Matched (fun p p' => p.1 = p'.1 ∧ SameButLeftovers p.2 p'.2)
      ((frameSwitch m method >>= finishDispatch method) v)
      ((frameSwitch m method >>= finishDispatch method) v') := by
  obtain ⟨named, hswitch⟩ := frameSwitch_run hm method
  rw [hswitch]
  cases hparser : argsParser m method with
  | none =>
    exact Lockstep.bind (Lockstep.pure named) (lockstep_finishDispatch method) v v' hsame
  | some parser =>
    rw [parserSwitch_bind, parserSwitch_bind, ← hsource parser hparser]
    exact Lockstep.bind (parser.lockstep_run (parser.source v.cs.parsed))
      (lockstep_finishDispatch method) v v' hsame

/-! ## The three kinds of frames -/

/-- The frame with its payload and its end octet is what the socket delivers next. -/
structure Arrives (w : World) (header payload : List UInt8) (endOctet : UInt8)
    (rest : List UInt8) : Prop where
  seven : header.length = 7
  length : payload.length = (decodeHeader header).length.toNat
  delivers : w.socket.Delivers (header ++ (payload ++ endOctet :: rest))

/-- Whatever the leftovers, the header is read and the payload comes next. -/
theorem Arrives.reads_header (h : Arrives w header payload endOctet rest) (recvline parsed : Buffer) :
    readMessageHeader (w.withLeftovers recvline parsed) =
        .ok (some (decodeHeader header), (w.withLeftovers recvline parsed).receive header) ∧
      ((w.withLeftovers recvline parsed).receive header).socket.Delivers
        (payload ++ endOctet :: rest) :=
  readMessageHeader_of_part (w := w.withLeftovers recvline parsed) h.seven h.delivers

/-- Whatever the leftovers, the handler stays inside its buffers when the frame fits them. -/
theorem Arrives.inRange_iff (h : Arrives w header payload endOctet rest)
    (hm : m = waitFunctional ∨ m = waitPublishContent) (recvline parsed : Buffer) :
    InRange m (w.withLeftovers recvline parsed) ↔ FitsBuffers m (decodeHeader header) := by
  have hdelivers : (w.withLeftovers recvline parsed).socket.Delivers
      (header ++ (payload ++ endOctet :: rest)) := h.delivers
  have hsupply : (decodeHeader header).length.toNat ≤ (payload ++ endOctet :: rest).length := by
    rw [← h.length]
    simp
  obtain rfl | rfl := hm
  · exact inRange_iff_of_readMethod rfl (inRange_waitFunctional hdelivers h.seven hsupply)
  · exact inRange_waitPublishContent hdelivers h.seven hsupply

/-- A METHOD frame whose method is read does the same whatever is left exactly when its queue
name is its own. -/
theorem Arrives.ignores_method (h : Arrives w header payload endOctet rest)
    (hm : m = waitFunctional ∨ m = waitPublishContent)
    (htype : m = waitPublishContent → (decodeHeader header).msgType = MsgFormat.method)
    (hlong : 4 ≤ payload.length) (hroom : payload.length + 3 ≤ maxLine) :
    IgnoresLeftovers m w ↔ ∀ parser, argsParser m (decodeMethod payload) = some parser →
      parser.Own (ownBytes header payload) := by
  have hseven : 7 ≤ (ownBytes header payload).length := by
    rw [ownBytes_length h.seven]
    omega
  have hactions : ∀ recvline parsed, actions m (w.withLeftovers recvline parsed) =
      (frameSwitch m (decodeMethod payload) >>= finishDispatch (decodeMethod payload))
        (((w.withLeftovers recvline parsed).receive header).afterMethod payload endOctet) := by
    intro recvline parsed
    obtain ⟨hheader, hrest⟩ := h.reads_header recvline parsed
    exact actions_of_readMethod hm hheader htype
      (readMethod_of_fitting h.length hlong hroom hrest)
  have hsource : ∀ (parser : NameParser) recvline parsed, parser.source
      (((w.withLeftovers recvline parsed).receive header).afterMethod payload
        endOctet).cs.parsed =
      parser.source (Buffer.write (fun i => if i < payload.length + 3 then recvline i
        else parsed i) 0 (ownBytes header payload)) := by
    intro parser recvline parsed
    apply parser.source_congr
    intro i hi
    exact afterMethod_parsed (w.withLeftovers recvline parsed) h.seven hlong hi
  constructor
  · intro hignores parser hparser
    by_contra hforeign
    obtain ⟨left, right, hdiffer⟩ := parser.source_foreign hseven hforeign w.cs.currentQueueName
    have houtcome := hignores left left right right
    rw [hactions, hactions] at houtcome
    obtain ⟨next, v, hleft⟩ := frameSwitch_returns hm (decodeMethod payload)
      (((w.withLeftovers left left).receive header).afterMethod payload endOctet)
    obtain ⟨next', v', hright⟩ := frameSwitch_returns hm (decodeMethod payload)
      (((w.withLeftovers right right).receive header).afterMethod payload endOctet)
    have hname := switch_name hm hparser hleft
    have hname' := switch_name hm hparser hright
    rw [hsource] at hname hname'
    simp only [ite_self] at hname hname'
    rw [hleft, hright] at houtcome
    cases houtcome with
    | returns hsame _ _ _ =>
      apply hdiffer
      rw [hname, hname'] at hsame
      exact hsame
  · intro hown recvline parsed recvline' parsed'
    rw [hactions, hactions]
    apply sameOutcome_of_matched
    · apply switch_lockstep hm (afterMethod_sameButLeftovers w header payload endOctet _ _ _ _)
      intro parser hparser
      rw [hsource, hsource]
      exact parser.source_own hseven (hown parser hparser) _ _
    · intro reason hstop
      obtain ⟨next, v, hreturns⟩ := frameSwitch_returns hm (decodeMethod payload)
        (((w.withLeftovers recvline parsed).receive header).afterMethod payload endOctet)
      rw [hreturns] at hstop
      cases hstop

/-- A METHOD frame too short for a method does the same whatever is left. -/
theorem Arrives.ignores_tiny (h : Arrives w header payload endOctet rest)
    (hm : m = waitFunctional ∨ m = waitPublishContent)
    (htype : m = waitPublishContent → (decodeHeader header).msgType = MsgFormat.method)
    (hsmall : payload.length < 4) : IgnoresLeftovers m w := by
  have hactions : ∀ recvline parsed, ∃ v, actions m (w.withLeftovers recvline parsed) =
      .ok (fail, v) ∧ v.cs.currentQueueName = w.cs.currentQueueName ∧
        v.cs.currentQueue = w.cs.currentQueue ∧ v.store = w.store ∧ v.trace = w.trace := by
    intro recvline parsed
    obtain ⟨hheader, hrest⟩ := h.reads_header recvline parsed
    have hnone := actions_of_readMethod_none hm hheader htype
      (readMethod_of_tiny h.length hsmall hrest)
    exact ⟨_, hnone, rfl, rfl, rfl, rfl⟩
  intro recvline parsed recvline' parsed'
  obtain ⟨v, hleft, hname, hqueue, hstore, htrace⟩ := hactions recvline parsed
  obtain ⟨v', hright, hname', hqueue', hstore', htrace'⟩ := hactions recvline' parsed'
  rw [hleft, hright]
  exact .returns (hname.trans hname'.symm) (hqueue.trans hqueue'.symm)
    (hstore.trans hstore'.symm) (by rw [htrace, htrace'])

/-- A BODY frame does the same whatever is left. -/
theorem Arrives.ignores_body (h : Arrives w header payload endOctet rest)
    (htype : (decodeHeader header).msgType = MsgFormat.body) (hroom : payload.length < maxLine) :
    IgnoresLeftovers waitPublishContent w := by
  have hmethod : (decodeHeader header).msgType ≠ MsgFormat.method := by
    rw [htype]
    decide
  have hreceived : (payload ++ endOctet :: rest).take (payload.length + 1) =
      payload ++ [endOctet] := by
    rw [List.take_append, List.take_of_length_le (by omega)]
    simp
  have hfits : (decodeHeader header).length.toNat + 1 ≤ maxLine := by
    rw [← h.length]
    omega
  have hcomplete : (decodeHeader header).length.toNat < (payload ++ endOctet :: rest).length := by
    rw [← h.length]
    simp
  have hactions : ∀ recvline parsed,
      actions waitPublishContent (w.withLeftovers recvline parsed) =
        (enqueueString (payload.takeWhile (· ≠ 0)) >>= fun _ => pure waitPublishContent)
          (((w.withLeftovers recvline parsed).receive header).afterBody (payload ++ [endOctet])
            payload.length) := by
    intro recvline parsed
    obtain ⟨hheader, hrest⟩ := h.reads_header recvline parsed
    have hbody := readBody_complete hrest hfits hcomplete
    rw [← h.length, hreceived] at hbody
    have hstring := afterBody_string ((w.withLeftovers recvline parsed).receive header)
      hroom (show payload.length ≤ (payload ++ [endOctet]).length by simp)
    rw [List.take_left' rfl] at hstring
    change actionWaitPublishContent _ = _
    rw [actionWaitPublishContent, bind_of_ok hheader]
    simp only
    rw [if_neg hmethod, if_pos htype, bind_of_ok hbody]
    exact congrArg (fun result => result >>= fun p => (pure waitPublishContent :
      Action MachineState) p.2) (enqueueBody_of_string hstring)
  have hinside : FitsBuffers waitPublishContent (decodeHeader header) := by
    intro reader hreader
    rw [payloadReader, if_neg hmethod, if_pos htype] at hreader
    obtain rfl := Option.some.inj hreader
    change (decodeHeader header).length.toNat ≤ maxLine - 1
    omega
  intro recvline parsed recvline' parsed'
  apply sameOutcome_of_matched
  · rw [hactions, hactions]
    apply Lockstep.bind (lockstep_enqueueString _) fun _ => Lockstep.pure _
    exact ⟨_, _, rfl⟩
  · exact (h.inRange_iff (.inr rfl) recvline parsed).mpr hinside

/-- A frame of a type that WAIT_PUBLISH_CONTENT does not read is refused whatever is left. -/
theorem Arrives.ignores_other (h : Arrives w header payload endOctet rest)
    (hmethod : (decodeHeader header).msgType ≠ MsgFormat.method)
    (hbody : (decodeHeader header).msgType ≠ MsgFormat.body) :
    IgnoresLeftovers waitPublishContent w := by
  have hactions : ∀ recvline parsed,
      actions waitPublishContent (w.withLeftovers recvline parsed) =
        (do
          setError s!"Unexpected message type {(decodeHeader header).msgType}"
          pure fail : Action MachineState) ((w.withLeftovers recvline parsed).receive header) := by
    intro recvline parsed
    obtain ⟨hheader, -⟩ := h.reads_header recvline parsed
    change actionWaitPublishContent _ = _
    rw [actionWaitPublishContent, bind_of_ok hheader]
    simp only
    rw [if_neg hmethod, if_neg hbody]
  intro recvline parsed recvline' parsed'
  rw [hactions, hactions]
  exact .returns rfl rfl rfl rfl

/-- A frame depends on its own bytes only, exactly when it fits the buffers and the queue name
that it gives is its own. -/
theorem ignoresLeftovers_iff (hm : m = waitFunctional ∨ m = waitPublishContent)
    (h : Arrives w header payload endOctet rest) :
    IgnoresLeftovers m w ↔ FitsBuffers m (decodeHeader header) ∧
      OwnName m (decodeHeader header).msgType header payload := by
  have hreads : readsFrame m = true := by
    obtain rfl | rfl := hm
    · rfl
    · rfl
  have hfits : IgnoresLeftovers m w → FitsBuffers m (decodeHeader header) := by
    intro hignores
    rw [← h.inRange_iff hm w.cs.recvline w.cs.parsed]
    intro reason hstop
    have hsame := hignores w.cs.recvline w.cs.parsed w.cs.recvline w.cs.parsed
    rw [hstop] at hsame
    cases hsame with
    | stops hinside => exact hinside
  rw [← and_iff_right_of_imp hfits, and_congr_right_iff]
  intro hroom
  cases hreader : payloadReader m (decodeHeader header).msgType with
  | none =>
    obtain rfl | rfl := hm
    · cases hreader
    · have hmethod : (decodeHeader header).msgType ≠ MsgFormat.method := by
        intro htype
        rw [payloadReader, if_pos htype] at hreader
        cases hreader
      have hbody : (decodeHeader header).msgType ≠ MsgFormat.body := by
        intro htype
        rw [payloadReader, if_neg hmethod, if_pos htype] at hreader
        cases hreader
      simp [OwnName, hreader, h.ignores_other hmethod hbody]
  | some reader =>
    have hlength := (fitsBuffers_iff reader hreader).mp hroom
    rw [← h.length] at hlength
    cases reader with
    | readMethod =>
      have htype := (reader_caseLabels hreads hreader).2
      have hmax : PayloadReader.readMethod.limit = maxLine - 3 := rfl
      have hthree : 3 ≤ maxLine := by decide
      by_cases hsmall : payload.length < 4
      · have hvacuous : OwnName m (decodeHeader header).msgType header payload :=
          fun _ hlong => absurd hsmall (by omega)
        exact iff_of_true (h.ignores_tiny hm htype hsmall) hvacuous
      · rw [h.ignores_method hm htype (by omega) (by omega), OwnName]
        exact ⟨fun hown _ _ => hown, fun hown => hown hreader (by omega)⟩
    | readContentHeader =>
      obtain rfl | rfl := hm
      · cases hreader
      · simp only [payloadReader] at hreader
        split_ifs at hreader
        · cases hreader
        · cases hreader
    | readBody =>
      obtain rfl | rfl := hm
      · cases hreader
      · have hmethod : (decodeHeader header).msgType ≠ MsgFormat.method := by
          intro htype
          rw [payloadReader, if_pos htype] at hreader
          cases hreader
        have hbody : (decodeHeader header).msgType = MsgFormat.body := by
          by_contra htype
          rw [payloadReader, if_neg hmethod, if_neg htype] at hreader
          cases hreader
        have hmax : PayloadReader.readBody.limit = maxLine - 1 := rfl
        have hone : 1 ≤ maxLine := by decide
        simp [OwnName, hreader, h.ignores_body hbody (by omega)]

/-- A connection to which a METHOD frame arrives. -/
def declareWorld (payload : List UInt8) : World :=
  { cs := .initial 0
    socket := Socket.chunk (encodeFrame MsgFormat.method 1 payload)
    store := initQueuePool
    trace := [] }

/-- The frame arrives with its header and its payload. -/
theorem declareWorld_arrives {payload : List UInt8} (hlength : payload.length < 2 ^ 32) :
    Arrives (declareWorld payload) (encodeHeader MsgFormat.method 1 payload.length) payload
      frameEnd [] where
  seven := encodeHeader_length ..
  length := by
    rw [decodeHeader_encodeHeader _ _ _ hlength]
    exact (Nat.mod_eq_of_lt hlength).symm
  delivers := by
    have h := Socket.chunk_delivers (encodeFrame MsgFormat.method 1 payload)
    rwa [encodeFrame, List.append_assoc] at h

/-- The payload of a Queue.Declare of the queue "q". -/
def declarePayload : List UInt8 := [0, 50, 0, 10, 0, 0, 1, 113, 0, 0, 0, 0, 0]

/-- A complete Queue.Declare depends on its own bytes only. -/
theorem ignoresLeftovers_iff_declare :
    IgnoresLeftovers waitFunctional (declareWorld declarePayload) := by
  have hfits : FitsBuffers waitFunctional
      (decodeHeader (encodeHeader MsgFormat.method 1 declarePayload.length)) := by
    rw [fitsBuffers_iff .readMethod rfl]
    decide
  have hown : OwnName waitFunctional
      (decodeHeader (encodeHeader MsgFormat.method 1 declarePayload.length)).msgType
      (encodeHeader MsgFormat.method 1 declarePayload.length) declarePayload := by
    intro _ _ parser hparser
    obtain rfl : NameParser.declare = parser := Option.some.inj hparser
    unfold NameParser.Own
    decide
  exact (ignoresLeftovers_iff (.inl rfl) (declareWorld_arrives (by decide))).mpr ⟨hfits, hown⟩

/-- The payload of a Queue.Declare that ends after the size octet 5 of its name. -/
def cutDeclarePayload : List UInt8 := [0, 50, 0, 10, 0, 0, 5]

/-- A Queue.Declare that ends before its name takes the name from earlier frames. -/
theorem cutDeclare_takes_leftovers :
    Arrives (declareWorld cutDeclarePayload) (encodeHeader MsgFormat.method 1 7)
        cutDeclarePayload frameEnd [] ∧
      ¬ IgnoresLeftovers waitFunctional (declareWorld cutDeclarePayload) := by
  have harrives : Arrives (declareWorld cutDeclarePayload) (encodeHeader MsgFormat.method 1 7)
      cutDeclarePayload frameEnd [] := declareWorld_arrives (by decide)
  refine ⟨harrives, ?_⟩
  rw [harrives.ignores_method (.inl rfl) (by decide) (by decide) (by decide)]
  intro hown
  have hdeclare := hown .declare rfl
  revert hdeclare
  unfold NameParser.Own
  decide

end AmqpBroker
