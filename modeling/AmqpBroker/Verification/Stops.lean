import AmqpBroker.Verification.Effects
import AmqpBroker.Verification.Frames
import AmqpBroker.Verification.PoolLaws

/-!
# Why code can stop

The reasons for which each function stops. Choosing a queue by its name never stops at
all; a function of a queue stops at a NULL pointer, at memory that is gone, or at an index
outside the scheduler.
-/

namespace AmqpBroker

open Foundations Program MachineState

/-- Code on the shared memory stops for its own reasons. -/
theorem avoids_onStore {α : Type} {bad : Abort → Prop} {x : Shared α} (h : Avoids bad x) :
    Avoids bad (onStore x) := by
  intro w reason hw
  unfold onStore at hw
  split at hw
  · cases hw
  · rename_i heq
    cases hw
    exact h _ _ heq

/-- A continuation that goes on safely from both outcomes of a reader. -/
theorem avoids_option {α β : Type} {bad : Abort → Prop} {f : Option β → Action α}
    (hnone : Avoids bad (f none)) (hsome : ∀ found, Avoids bad (f (some found)))
    (result : Option β) : Avoids bad (f result) := by
  cases result with
  | none => exact hnone
  | some found => exact hsome found

/-- Assigning to a field does not stop. -/
theorem avoids_assign {bad : Abort → Prop} (change : ConnectionState → ConnectionState) :
    Avoids bad (assign change) := Avoids.update _

/-- Reading a field does not stop. -/
theorem avoids_field {α : Type} {bad : Abort → Prop} (view : ConnectionState → α) :
    Avoids bad (field view) := Avoids.read _

/-- Recording a call does not stop. -/
theorem avoids_record {bad : Abort → Prop} (event : Event) : Avoids bad (record event) :=
  Avoids.update _

/-- Setting an error does not stop. -/
theorem avoids_setError {bad : Abort → Prop} (message : String) : Avoids bad (setError message) :=
  avoids_assign _

/-- The memory of the queue name after a string was copied to it. -/
def World.withQueueName (w : World) (bytes : List UInt8) : World :=
  { w with cs := { w.cs with
      currentQueueName := (w.cs.currentQueueName.write 0 bytes).write bytes.length [0] } }

/-- A queue name is terminated inside `current_queue_name`. -/
theorem storeQueueName_returns {bytes : List UInt8} (hbytes : bytes.length < 256) (w : World) :
    storeQueueName bytes w = .ok (bytes.takeWhile (· ≠ 0), w.withQueueName bytes) := by
  have hend :
      ((w.cs.currentQueueName.write 0 bytes).write bytes.length [0]) (0 + bytes.length) = 0 := by
    rw [Nat.zero_add]
    exact Buffer.write_apply_of_lt (w.cs.currentQueueName.write 0 bytes) bytes.length [0] 0 (by simp)
  have hslice : ((w.cs.currentQueueName.write 0 bytes).write bytes.length [0]).slice 0 bytes.length =
      bytes := by
    rw [Buffer.slice_congr _ (w.cs.currentQueueName.write 0 bytes) _ _ fun i _ hi =>
      Buffer.write_apply_of_before _ _ _ _ (by omega), Buffer.slice_write_zero _ _ _ le_rfl,
      List.take_length]
  have hstring := Buffer.cstring_eq_takeWhile _ 0 bytes.length maxQueueName hend hbytes
  rw [hslice] at hstring
  rw [storeQueueName, assign_bind_apply, field_bind_apply]
  simp only [hstring]
  rfl

/-- Storing a short name does not stop. -/
theorem avoids_storeQueueName {bad : Abort → Prop} {name : List UInt8} (hname : name.length < 256) :
    Avoids bad (storeQueueName name) := by
  intro w reason h
  rw [storeQueueName_returns hname] at h
  cases h

/-- `strncpy` fills the whole length. -/
theorem strncpyBytes_length (source : List UInt8) : (strncpyBytes source).length = source.length := by
  have hle := (List.takeWhile_sublist (l := source) (fun byte : UInt8 => decide (byte ≠ 0))).length_le
  simp only [strncpyBytes, List.length_append, List.length_replicate]
  omega

/-- Parsing Queue.Declare does not stop. -/
theorem avoids_parseQueueDeclareArgs {bad : Abort → Prop} : Avoids bad parseQueueDeclareArgs := by
  refine Avoids.bind (avoids_field _) fun args => Avoids.bind (avoids_storeQueueName ?_) fun name =>
    Avoids.bind (avoids_record _) fun _ => Avoids.pure _
  rw [Buffer.slice_length]
  exact UInt8.toNat_lt _

/-- Parsing Basic.Publish does not stop. -/
theorem avoids_parseBasicPublishArgs {bad : Abort → Prop} : Avoids bad parseBasicPublishArgs := by
  refine Avoids.bind (avoids_field _) fun args => Avoids.bind (avoids_storeQueueName ?_) fun name =>
    Avoids.bind (avoids_record _) fun _ => Avoids.pure _
  rw [strncpyBytes_length, Buffer.slice_length]
  exact UInt8.toNat_lt _

/-- Parsing Basic.Consume does not stop. -/
theorem avoids_parseBasicConsumeArgs {bad : Abort → Prop} : Avoids bad parseBasicConsumeArgs := by
  refine Avoids.bind (avoids_field _) fun args => Avoids.bind (avoids_storeQueueName ?_) fun name =>
    Avoids.bind (avoids_record _) fun _ => Avoids.pure _
  rw [strncpyBytes_length, Buffer.slice_length]
  exact UInt8.toNat_lt _

/-- A lookup does not stop. -/
theorem avoids_lookupNode {bad : Abort → Prop} (name : List UInt8) : Avoids bad (lookupNode name) := by
  intro store reason h
  cases h

/-- `get_queue` does not stop. -/
theorem avoids_getQueue {bad : Abort → Prop} (name : List UInt8) : Avoids bad (getQueue name) :=
  Avoids.bind (avoids_lookupNode name) fun _ => Avoids.read _

/-- A name that the parser of Queue.Declare returns fits `queue.name`. -/
theorem parseQueueDeclareArgs_fits {w w' : World} {name : List UInt8}
    (h : parseQueueDeclareArgs w = .ok (name, w')) : name.length + 1 ≤ maxQueueName := by
  obtain ⟨queueName, hname, -⟩ := parseQueueDeclareArgs_eq_ok h
  exact Buffer.cstring_length_lt queueName maxQueueName 0 name hname

/-- `new_queue` does not stop for a name that fits. -/
theorem avoids_newQueue {bad : Abort → Prop} {name : List UInt8}
    (hfits : name.length + 1 ≤ maxQueueName) : Avoids bad (newQueue name) := by
  intro store reason h
  rw [newQueue_of_fits hfits] at h
  cases h

/-- `create_queue` does not stop for a name that fits. -/
theorem avoids_createQueue {bad : Abort → Prop} {name : List UInt8}
    (hfits : name.length + 1 ≤ maxQueueName) : Avoids bad (createQueue name) := by
  refine Avoids.bind (avoids_lookupNode name) fun node => Avoids.bind (Avoids.read _) fun q => ?_
  cases q with
  | some q => exact Avoids.pure _
  | none =>
    exact Avoids.bind (avoids_newQueue hfits) fun q => Avoids.bind (Avoids.update _) fun _ =>
      Avoids.pure _

/-- A queue function stops at a NULL queue, or at one that is not there. -/
theorem avoids_derefQueue {bad : Abort → Prop} {q : Option ℕ} (hnull : q = none → ¬ bad .nullQueue)
    (hdangling : ¬ bad .dangling) : Avoids bad (derefQueue q) := by
  intro store reason h
  unfold derefQueue at h
  split at h
  · cases h
    exact hnull rfl
  · split at h
    · cases h
      exact hdangling
    · cases h

/-- A pointer to a node stops where the node is gone. -/
theorem avoids_derefNode {bad : Abort → Prop} (hdangling : ¬ bad .dangling) (n : ℕ) :
    Avoids bad (derefNode n) := by
  intro store reason h
  unfold derefNode at h
  split at h
  · cases h
    exact hdangling
  · cases h

/-- `q_enqueue` stops where the queue or a node is gone. -/
theorem avoids_qEnqueue {bad : Abort → Prop} {q : Option ℕ} (hnull : q = none → ¬ bad .nullQueue)
    (hdangling : ¬ bad .dangling) (body : List UInt8) : Avoids bad (qEnqueue q body) := by
  refine Avoids.bind (fun store reason h => ?_) fun n =>
    Avoids.bind (avoids_derefQueue hnull hdangling) ?_
  · cases h
  · intro cell
    obtain ⟨p, queue⟩ := cell
    simp only
    cases queue.firstNode with
    | none => exact Avoids.bind (Avoids.update _) fun _ => Avoids.pure _
    | some first =>
      exact Avoids.bind (avoids_derefNode hdangling first) fun _ => Avoids.bind (Avoids.update _)
        fun _ => Avoids.bind (Avoids.update _) fun _ => Avoids.pure _

/-- An index stops outside the array. -/
theorem subIndex_eq_error {i : ℤ} {reason : Abort} (h : subIndex i = .error reason) :
    reason = .ringRange := by
  unfold subIndex at h
  split at h <;> cases h
  rfl

/-- `remove_subscriber` stops only at an index outside `subs`. -/
theorem removeSubscriber_eq_error {rr : RoundRobinScheduler} {t : ℤ} {reason : Abort}
    (h : removeSubscriber rr t = .error reason) : reason = .ringRange := by
  unfold removeSubscriber at h
  cases hnode : subIndex t with
  | error reason' =>
    rw [hnode] at h
    cases h
    exact subIndex_eq_error hnode
  | ok node =>
    rw [hnode] at h
    cases hprev : subIndex (rr.subs node).prev with
    | error reason' =>
      simp only [bind, Except.bind, hprev] at h
      cases h
      exact subIndex_eq_error hprev
    | ok prev =>
      cases hnext : subIndex (rr.subs node).next with
      | error reason' =>
        simp only [bind, Except.bind, hprev, hnext] at h
        cases h
        exact subIndex_eq_error hnext
      | ok next =>
        simp only [bind, Except.bind, hprev, hnext] at h
        cases h

/-- `add_subscriber` stops outside the array. -/
theorem addSubscriber_eq_error {rr : RoundRobinScheduler} {t : ℤ} {reason : Abort}
    (h : addSubscriber rr t = .error reason) : reason = .ringRange := by
  unfold addSubscriber at h
  cases hnode : subIndex t with
  | error reason' =>
    rw [hnode] at h
    cases h
    exact subIndex_eq_error hnode
  | ok node =>
    by_cases hempty : rr.count = 0
    · simp only [bind, Except.bind, hnode, hempty, if_true] at h
      cases h
    · cases hlast : subIndex rr.last with
      | error reason' =>
        simp only [bind, Except.bind, hnode, hempty, hlast, if_false] at h
        cases h
        exact subIndex_eq_error hlast
      | ok last =>
        cases hfirst : subIndex rr.first with
        | error reason' =>
          simp only [bind, Except.bind, hnode, hempty, hlast, hfirst, if_false] at h
          cases h
          exact subIndex_eq_error hfirst
        | ok first =>
          simp only [bind, Except.bind, hnode, hempty, hlast, hfirst, if_false] at h
          cases h

/-- `next_thread` stops outside the array. -/
theorem nextThread_eq_error {rr : RoundRobinScheduler} {reason : Abort}
    (h : nextThread rr = .error reason) : reason = .ringRange := by
  unfold nextThread at h
  cases hcurrent : subIndex rr.current with
  | error reason' =>
    rw [hcurrent] at h
    cases h
    exact subIndex_eq_error hcurrent
  | ok current =>
    cases hnext : subIndex (rr.subs current).next with
    | error reason' =>
      simp only [bind, Except.bind, hcurrent, hnext] at h
      cases h
      exact subIndex_eq_error hnext
    | ok next =>
      simp only [bind, Except.bind, hcurrent, hnext] at h
      cases h

/-- Falling asleep on a `round_cond` stops outside the array. -/
theorem sleepRound_eq_error {rr : RoundRobinScheduler} {t : ℤ} {reason : Abort}
    (h : sleepRound rr t = .error reason) : reason = .ringRange := by
  unfold sleepRound at h
  cases hnode : subIndex t with
  | error reason' =>
    rw [hnode] at h
    cases h
    exact subIndex_eq_error hnode
  | ok node =>
    rw [hnode] at h
    cases h

/-- A scheduler function on a queue stops where the scheduler does. -/
theorem avoids_onRing {α : Type} {bad : Abort → Prop} {q : Option ℕ}
    {f : RoundRobinScheduler → Except Abort (α × RoundRobinScheduler)}
    (hnull : q = none → ¬ bad .nullQueue) (hdangling : ¬ bad .dangling)
    (hf : ∀ rr reason, f rr = .error reason → ¬ bad reason) : Avoids bad (onRing q f) := by
  refine Avoids.bind (avoids_derefQueue hnull hdangling) fun cell => ?_
  obtain ⟨p, queue⟩ := cell
  simp only
  cases hrun : f queue.rr with
  | error reason => exact Avoids.stop (hf _ _ hrun)
  | ok result => exact Avoids.bind (Avoids.update _) fun _ => Avoids.pure _

/-- Forgetting the missing result of a scheduler function keeps its stops. -/
theorem map_eq_error {f : Except Abort RoundRobinScheduler} {reason : Abort}
    (h : (f.map fun rr => ((), rr)) = .error reason) : f = .error reason := by
  cases f with
  | error reason' =>
    cases h
    rfl
  | ok rr => cases h

/-- Leaving a ring stops where the queue is gone, or outside the array. -/
theorem avoids_qRemoveSubscriber {bad : Abort → Prop} {q : Option ℕ}
    (hnull : q = none → ¬ bad .nullQueue) (hdangling : ¬ bad .dangling) (hring : ¬ bad .ringRange)
    (t : ℤ) : Avoids bad (qRemoveSubscriber q t) := by
  refine avoids_onRing hnull hdangling fun rr reason h => ?_
  rw [removeSubscriber_eq_error (map_eq_error h)]
  exact hring

/-- Choosing a queue does not stop. -/
theorem avoids_selectQueue {bad : Abort → Prop} (name : List UInt8) : Avoids bad (selectQueue name) :=
  Avoids.bind (avoids_onStore (avoids_getQueue name)) fun _ =>
    Avoids.bind (avoids_record _) fun _ => avoids_assign _

/-- Declaring a queue does not stop. -/
theorem avoids_declareQueue {bad : Abort → Prop} : Avoids bad declareQueue :=
  Avoids.bind_of_ok avoids_parseQueueDeclareArgs fun _ _ _ hparse =>
    Avoids.bind (avoids_onStore (avoids_createQueue (parseQueueDeclareArgs_fits hparse))) fun _ =>
      Avoids.bind (avoids_record _) fun _ => avoids_assign _

/-- The dispatch in `action_wait_functional` always ends. -/
theorem avoids_functionalSwitch {bad : Abort → Prop} (method : MethodHeader) :
    Avoids bad (functionalSwitch method) := by
  have hpublish : Avoids bad (do
      selectQueue (← parseBasicPublishArgs)
      pure basicPublishReceived) :=
    Avoids.bind avoids_parseBasicPublishArgs fun _ => Avoids.bind (avoids_selectQueue _) fun _ =>
      Avoids.pure _
  have hconsume : Avoids bad (do
      selectQueue (← parseBasicConsumeArgs)
      pure basicConsumeReceived) :=
    Avoids.bind avoids_parseBasicConsumeArgs fun _ => Avoids.bind (avoids_selectQueue _) fun _ =>
      Avoids.pure _
  unfold functionalSwitch
  exact Avoids.ite
    (Avoids.ite (Avoids.bind avoids_declareQueue fun _ => Avoids.pure _) (Avoids.pure _))
    (Avoids.ite (Avoids.ite hpublish (Avoids.ite hconsume (Avoids.pure _))) (Avoids.pure _))

/-- The dispatch in `action_wait_publish_content` always ends. -/
theorem avoids_publishContentSwitch {bad : Abort → Prop} (method : MethodHeader) :
    Avoids bad (publishContentSwitch method) := by
  have hpublish : Avoids bad (do
      selectQueue (← parseBasicPublishArgs)
      pure basicPublishReceived) :=
    Avoids.bind avoids_parseBasicPublishArgs fun _ => Avoids.bind (avoids_selectQueue _) fun _ =>
      Avoids.pure _
  unfold publishContentSwitch
  exact Avoids.ite (Avoids.ite (Avoids.pure _) (Avoids.pure _))
    (Avoids.ite (Avoids.ite hpublish (Avoids.pure _))
      (Avoids.ite (Avoids.ite (Avoids.pure _) (Avoids.pure _)) (Avoids.pure _)))

/-- The end of a switch does not stop. -/
theorem avoids_finishDispatch {bad : Abort → Prop} (method : MethodHeader) (next : MachineState) :
    Avoids bad (finishDispatch method next) := by
  unfold finishDispatch
  split
  · exact Avoids.bind (avoids_setError _) fun _ => Avoids.pure _
  · exact Avoids.pure _

/-- `read_until` stops only where it would leave `recvline`. -/
theorem readIntoLoop_eq_error {size sum : ℕ} {socket : Socket} {buf : Buffer} {reason : Abort}
    (h : readIntoLoop maxLine size socket sum buf = .error reason) : reason = .bufferRange := by
  induction socket generalizing sum buf with
  | nil => cases h
  | cons event rest ih =>
    rw [readIntoLoop] at h
    split at h
    · simp only at h
      split at h
      · cases h
        rfl
      · split at h
        · exact ih h
        · cases h
    · cases h

/-- Reading stops outside the buffer. -/
theorem avoids_readUntil {bad : Abort → Prop} (hrange : ¬ bad .bufferRange) (size : ℕ) :
    Avoids bad (readUntil size) := by
  intro w reason h
  unfold readUntil at h
  split at h
  · cases h
  · rename_i hloop
    cases h
    rw [readIntoLoop_eq_error hloop]
    exact hrange

/-- A test of a range stops outside the buffer. -/
theorem avoids_checkRange {bad : Abort → Prop} (hrange : ¬ bad .bufferRange) (offset count : ℕ) :
    Avoids bad (checkRange offset count) := Avoids.ite (Avoids.pure _) (Avoids.stop hrange)

/-- A string stops where it does not end in the buffer. -/
theorem avoids_stringOf {bad : Abort → Prop} (hrange : ¬ bad .bufferRange) (buffer : Buffer) :
    Avoids bad (stringOf buffer) := by
  unfold stringOf
  split
  · exact Avoids.pure _
  · exact Avoids.stop hrange

/-- Reading the protocol header stops outside the buffer. -/
theorem avoids_readProtocolHeader {bad : Abort → Prop} (hrange : ¬ bad .bufferRange) :
    Avoids bad readProtocolHeader := by
  refine Avoids.bind (avoids_readUntil hrange 8) fun n => Avoids.ite (Avoids.pure _) ?_
  exact Avoids.bind (avoids_field _) fun _ => Avoids.pure _

/-- Reading a frame header stops outside the buffer. -/
theorem avoids_readMessageHeader {bad : Abort → Prop} (hrange : ¬ bad .bufferRange) :
    Avoids bad readMessageHeader := by
  refine Avoids.bind (avoids_readUntil hrange 7) fun n => Avoids.ite (Avoids.pure _) ?_
  exact Avoids.bind (avoids_field _) fun _ => Avoids.pure _

/-- Parsing a method stops outside the buffer. -/
theorem avoids_parseMethod {bad : Abort → Prop} (hrange : ¬ bad .bufferRange) (n : ℕ) :
    Avoids bad (parseMethod n) := by
  refine Avoids.ite (Avoids.pure _) ?_
  refine Avoids.bind (avoids_checkRange hrange _ _) fun _ => ?_
  refine Avoids.bind (avoids_assign _) fun _ => Avoids.bind (avoids_field _) fun _ => ?_
  exact Avoids.bind (avoids_assign _) fun _ => Avoids.pure _

/-- Reading a method stops outside the buffer. -/
theorem avoids_readMethod {bad : Abort → Prop} (hrange : ¬ bad .bufferRange) (length : ℤ) :
    Avoids bad (readMethod length) := by
  refine Avoids.bind (avoids_readUntil hrange _) fun n => Avoids.ite (Avoids.pure _) ?_
  refine Avoids.bind (avoids_parseMethod hrange n) (avoids_option (Avoids.pure _) fun method => ?_)
  refine Avoids.bind (avoids_readUntil hrange 1) fun n => Avoids.ite (Avoids.pure _) ?_
  exact Avoids.bind (avoids_record _) fun _ => Avoids.pure _

/-- Reading a header and a method stops outside the buffer. -/
theorem avoids_readFrame {bad : Abort → Prop} (hrange : ¬ bad .bufferRange) : Avoids bad readFrame := by
  refine Avoids.bind (avoids_readMessageHeader hrange) (avoids_option ?_ fun header => ?_)
  · exact Avoids.bind (avoids_setError _) fun _ => Avoids.pure _
  refine Avoids.bind (avoids_readMethod hrange _) (avoids_option ?_ fun method => Avoids.pure _)
  exact Avoids.bind (avoids_setError _) fun _ => Avoids.pure _

/-- Reading a content header stops outside the buffer. -/
theorem avoids_readContentHeader {bad : Abort → Prop} (hrange : ¬ bad .bufferRange) (length : ℤ) :
    Avoids bad (readContentHeader length) := by
  refine Avoids.bind (avoids_readUntil hrange _) fun _ => Avoids.bind ?_ fun _ =>
    Avoids.bind (avoids_readUntil hrange 1) fun _ => Avoids.pure _
  refine Avoids.ite (Avoids.pure _) ?_
  refine Avoids.bind (avoids_assign _) fun _ => Avoids.bind (avoids_field _) fun _ => ?_
  exact Avoids.bind (avoids_assign _) fun _ => Avoids.pure _

/-- Reading a body stops outside the buffer, or where its length overflows. -/
theorem avoids_readBody {bad : Abort → Prop} (hrange : ¬ bad .bufferRange)
    (hoverflow : ¬ bad .signedOverflow) (length : ℤ) : Avoids bad (readBody length) := by
  refine Avoids.ite (Avoids.stop hoverflow) ?_
  refine Avoids.bind (avoids_readUntil hrange _) fun _ =>
    Avoids.bind (avoids_checkRange hrange _ _) fun _ => Avoids.bind (avoids_assign _) fun _ => ?_
  refine Avoids.ite (Avoids.stop hrange) ?_
  exact Avoids.bind (avoids_checkRange hrange _ _) fun _ => avoids_assign _

/-- `write` does not return where the other end does not read, or has gone. -/
theorem avoids_write {bad : Abort → Prop} (hblocked : ¬ bad .blocked) (hbroken : ¬ bad .brokenPipe)
    (bytes : List UInt8) : Avoids bad (write bytes) := by
  intro w reason h
  rw [write] at h
  split at h
  · cases h
  · cases h
  · cases h
    exact hblocked
  · cases h
    exact hbroken

/-- Sending a frame stops outside the buffer, or in `write`. -/
theorem avoids_sendFrame {bad : Abort → Prop} (hrange : ¬ bad .bufferRange)
    (hblocked : ¬ bad .blocked) (hbroken : ¬ bad .brokenPipe) (frame : List UInt8) :
    Avoids bad (sendFrame frame) := by
  refine Avoids.bind (avoids_checkRange hrange _ _) fun _ => Avoids.bind (avoids_assign _) fun _ => ?_
  exact Avoids.bind (avoids_field _) fun _ =>
    Avoids.bind (avoids_write hblocked hbroken _) fun _ => Avoids.pure _

/-- Work on an array of its own stops for its own reasons. -/
theorem avoids_onLocal {α : Type} {bad : Abort → Prop} {x : Program Buffer Abort α}
    (h : Avoids bad x) : Avoids bad (onLocal x) := by
  unfold onLocal
  split
  · exact Avoids.pure _
  · rename_i reason hx
    exact Avoids.stop (h _ _ hx)

/-- Filling in bytes stops outside the array. -/
theorem avoids_putBytes {bad : Abort → Prop} (hrange : ¬ bad .bufferRange) (room offset : ℕ)
    (bytes : List UInt8) : Avoids bad (putBytes room offset bytes) := by
  intro array reason h
  unfold putBytes at h
  split at h
  · cases h
  · cases h
    exact hrange

/-- Reading bytes stops outside the array. -/
theorem avoids_getBytes {bad : Abort → Prop} (hrange : ¬ bad .bufferRange)
    (room offset count : ℕ) : Avoids bad (getBytes room offset count) := by
  intro array reason h
  unfold getBytes at h
  split at h
  · cases h
  · cases h
    exact hrange

/-- Putting the arguments of Declare-Ok together stops only where it leaves its array. -/
theorem avoids_fillDeclareOkArgs {bad : Abort → Prop} (hrange : ¬ bad .bufferRange)
    (name : List UInt8) (messageCount consumerCount : UInt32) :
    Avoids bad (fillDeclareOkArgs name messageCount consumerCount) := by
  refine Avoids.bind ?_ fun _ => Avoids.bind (avoids_putBytes hrange _ _ _) fun _ =>
    avoids_getBytes hrange _ _ _
  exact Avoids.bind (avoids_putBytes hrange _ _ _) fun _ =>
    Avoids.bind (avoids_putBytes hrange _ _ _) fun _ => Avoids.pure _

/-- `send_queue_declare_ok` stops outside an array, or in `write`. -/
theorem avoids_sendQueueDeclareOk {bad : Abort → Prop} (hrange : ¬ bad .bufferRange)
    (hblocked : ¬ bad .blocked) (hbroken : ¬ bad .brokenPipe) (channel : UInt16)
    (name : List UInt8) (messageCount consumerCount : UInt32) :
    Avoids bad (sendQueueDeclareOk channel name messageCount consumerCount) :=
  Avoids.bind (avoids_onLocal (avoids_fillDeclareOkArgs hrange _ _ _)) fun _ =>
    avoids_sendFrame hrange hblocked hbroken _

end AmqpBroker
