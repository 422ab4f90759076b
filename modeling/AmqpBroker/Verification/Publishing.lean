import AmqpBroker.Verification.Arguments
import AmqpBroker.Verification.OwnBytes
import AmqpBroker.Verification.Routing
import AmqpBroker.Verification.ThreadRuns

/-!
# What becomes of one publish

A Basic.Publish selects the queue, the content header is read and dropped, and every BODY
frame after it is enqueued as a message of its own, up to its first zero byte. So the
number of messages is the number of BODY frames, whatever the announced body size.
-/

namespace AmqpBroker

open Foundations Program MachineState

/-- The name has this queue in a sound memory. -/
structure Declared (store : Store) (name : List UInt8) (q : ℕ) : Prop where
  pool : PoolOk store
  lists : ListsOk store
  queue : store.queueOf name = some q

/-- What a sequence of calls enqueued, and where. -/
def enqueuesOf (trace : List Event) : List (Option ℕ × List UInt8) :=
  trace.filterMap fun
    | .qEnqueue q _ body => some (q, body)
    | _ => none

/-- A CONTENT_HEADER frame of class BASIC. -/
def contentFrame (bodySize : ℕ) (flags : UInt16) (properties : List UInt8) : List UInt8 :=
  encodeFrame MsgFormat.contentHeader 1
    (toBE 2 ClassId.basic.toNat ++ toBE 2 0 ++ toBE 8 bodySize ++ toBE 2 flags.toNat ++ properties)

variable {grain : Grain} {w w' : World} {exchange key chunk rest name : List UInt8} {q : ℕ}
  {th th' : Thread} {found : Store}

/-- What two stretches of calls enqueue. -/
@[simp] theorem enqueuesOf_append (left right : List Event) :
    enqueuesOf (left ++ right) = enqueuesOf left ++ enqueuesOf right := List.filterMap_append

/-- The arguments of Basic.Publish. -/
def publishArguments (exchange key : List UInt8) : List UInt8 :=
  [0, 0] ++ shortString exchange ++ shortString key ++ [0]

/-- The frame of Basic.Publish fits the buffers. -/
theorem publish_fits (hexchange : exchange.length < 256) (hkey : key.length < 256) :
    (encodeMethod publishMethod (publishArguments exchange key)).length + 3 ≤ maxLine := by
  have hmax : (1000 : ℕ) ≤ maxLine := by decide
  rw [encodeMethod_length]
  simp only [publishArguments, shortString, List.length_append, List.length_cons, List.length_nil]
  omega

/-- Selecting a declared queue. -/
theorem selectQueue_declared (h : Declared w.store name q) :
    ∃ w', selectQueue name w = .ok ((), w') ∧ w'.cs.currentQueue = some q ∧
      w'.socket = w.socket ∧ w'.trace = w.trace ++ [.getQueue name (some q)] := by
  obtain ⟨_, w', hselect⟩ := (avoids_selectQueue name).returns w
  obtain ⟨found, hget, hw'⟩ := selectQueue_eq_ok hselect
  obtain ⟨hfound, -⟩ := getQueue_eq_ok h.pool hget
  rw [h.queue] at hfound
  rw [hfound] at hw'
  refine ⟨w', hselect, ?_, ?_, ?_⟩
  · rw [hw']
  · rw [hw']
  · rw [hw']

/-- The routing key of a Basic.Publish frame is parsed as its queue name. -/
theorem parse_publish (h : w.socket.Delivers (publishFrame exchange key ++ rest))
    (hexchange : exchange.length < 256) (hkey : key.length < 256) :
    ∃ v, parseBasicPublishArgs (w.afterFrame 1 publishMethod (publishArguments exchange key)) =
        .ok (key.takeWhile (· ≠ 0), v) ∧
      v.store = w.store ∧ v.socket.Delivers rest ∧ enqueuesOf v.trace = enqueuesOf w.trace := by
  obtain ⟨-, hrest⟩ := readFrame_frame h (publish_fits hexchange hkey)
  obtain ⟨v, hparse, hsocket⟩ := parseBasicPublishArgs_returns
    (afterFrame_holds w 1 publishMethod (publishArguments exchange key)) [0, 0] rfl hexchange hkey
    [0] rfl
  obtain ⟨queueName, -, hv⟩ := parseBasicPublishArgs_eq_ok hparse
  refine ⟨v, hparse, ?_, ?_, ?_⟩
  · rw [hv]
    rfl
  · rw [hsocket]
    exact hrest
  · rw [hv, enqueuesOf_append]
    change enqueuesOf (w.trace ++ [.readMethod _]) ++ _ = _
    rw [enqueuesOf_append]
    simp [enqueuesOf]

/-- What a step of a publisher leaves: its queue, the bytes still to come, and the messages it
has added. -/
structure Publishes (w w' : World) (q : Option ℕ) (rest : List UInt8)
    (messages : List (Option ℕ × List UInt8)) : Prop where
  queue : w'.cs.currentQueue = q
  delivers : w'.socket.Delivers rest
  messages : enqueuesOf w'.trace = enqueuesOf w.trace ++ messages

/-- A Basic.Publish whose name is read and whose queue is looked up. -/
theorem publishQueue_ok {v : World} {name : List UInt8}
    (hparse : parseBasicPublishArgs w = .ok (name, v)) (hselect : selectQueue name v = .ok ((), w')) :
    (do
      let name ← parseBasicPublishArgs
      selectQueue name
      pure basicPublishReceived : Action MachineState) w = .ok (basicPublishReceived, w') := by
  rw [bind_of_ok hparse, bind_of_ok hselect]
  rfl

/-- A Basic.Publish in WAIT_FUNCTIONAL selects the queue of its routing key. -/
theorem actionWaitFunctional_publish (h : w.socket.Delivers (publishFrame exchange key ++ rest))
    (hexchange : exchange.length < 256) (hkey : key.length < 256)
    (hq : Declared w.store (key.takeWhile (· ≠ 0)) q) :
    ∃ w', actions waitFunctional w = .ok (basicPublishReceived, w') ∧
      Publishes w w' (some q) rest [] := by
  have hframe : w.socket.Delivers (encodeFrame MsgFormat.method 1
      (encodeMethod publishMethod (publishArguments exchange key)) ++ rest) := h
  obtain ⟨hread, -⟩ := readFrame_frame hframe (publish_fits hexchange hkey)
  obtain ⟨v, hparse, hstore, hrest, htrace⟩ := parse_publish h hexchange hkey
  rw [← hstore] at hq
  obtain ⟨w', hselect, hqueue, hsocket, hcalls⟩ := selectQueue_declared hq
  have hswitch : functionalSwitch publishMethod
      (w.afterFrame 1 publishMethod (publishArguments exchange key)) =
        .ok (basicPublishReceived, w') := publishQueue_ok hparse hselect
  refine ⟨w', ?_, hqueue, by rwa [hsocket], ?_⟩
  · change actionWaitFunctional w = _
    rw [actionWaitFunctional, bind_of_ok hread]
    simp only
    rw [bind_of_ok hswitch]
    rfl
  · rw [hcalls, enqueuesOf_append, htrace]
    rfl

/-- A Basic.Publish in WAIT_PUBLISH_CONTENT starts a new message. -/
theorem actionWaitPublishContent_publish
    (h : w.socket.Delivers (publishFrame exchange key ++ rest))
    (hexchange : exchange.length < 256) (hkey : key.length < 256) :
    ∃ w' q', actions waitPublishContent w = .ok (basicPublishReceived, w') ∧
      Publishes w w' q' rest [] := by
  obtain ⟨v, hparse, -, hrest, htrace⟩ := parse_publish h hexchange hkey
  obtain ⟨_, w', hselect⟩ := (avoids_selectQueue (key.takeWhile (· ≠ 0))).returns v
  obtain ⟨q', -, hw'⟩ := selectQueue_eq_ok hselect
  have hswitch : publishContentSwitch publishMethod
      (w.afterFrame 1 publishMethod (publishArguments exchange key)) =
        .ok (basicPublishReceived, w') := publishQueue_ok hparse hselect
  have hframe : w.socket.Delivers (encodeFrame MsgFormat.method 1
      (encodeMethod publishMethod (publishArguments exchange key)) ++ rest) := h
  have hfits := publish_fits hexchange hkey
  have hmax : maxLine < 2 ^ 32 := by decide
  obtain ⟨hheader, hpayload⟩ := readMessageHeader_frame hframe (by omega)
  obtain ⟨hmethod, -⟩ := readMethod_frame hpayload hfits
  have hafter : readMethod (toInt (UInt32.ofNat
      (encodeMethod publishMethod (publishArguments exchange key)).length)) _ =
        .ok (some publishMethod, w.afterFrame 1 publishMethod (publishArguments exchange key)) :=
    hmethod
  refine ⟨w', q', ?_, by rw [hw'], by rw [hw']; exact hrest, ?_⟩
  · change actionWaitPublishContent w = _
    rw [actionWaitPublishContent, bind_of_ok hheader]
    simp only [if_true]
    rw [bind_of_ok hafter]
    simp only
    rw [bind_of_ok hswitch]
    rfl
  · rw [hw', enqueuesOf_append, htrace]
    rfl

/-- The payload of a content header. -/
theorem contentPayload_length (bodySize : ℕ) (flags : UInt16) (properties : List UInt8) :
    (toBE 2 ClassId.basic.toNat ++ toBE 2 0 ++ toBE 8 bodySize ++ toBE 2 flags.toNat ++
      properties).length = 14 + properties.length := by
  simp
  omega

/-- A content header that fits the buffers is read and dropped. -/
theorem actionWaitPublishContentHeader_content {bodySize : ℕ} {flags : UInt16}
    {properties : List UInt8}
    (h : w.socket.Delivers (contentFrame bodySize flags properties ++ rest))
    (hroom : 14 + properties.length ≤ maxLine) :
    ∃ w', actions waitPublishContentHeader w = .ok (waitPublishContent, w') ∧
      Publishes w w' w.cs.currentQueue rest [] := by
  have hmax : maxLine < 2 ^ 32 := by decide
  have hpayload := contentPayload_length bodySize flags properties
  obtain ⟨hheader, hrest⟩ := readMessageHeader_frame h (by omega)
  have hrequested := requested_ofNat (n := 14 + properties.length) hroom
  rw [← hpayload] at hrequested hroom
  obtain ⟨header, w', hread, hdelivers⟩ := readContentHeader_complete hrest
    (by rw [hrequested]; exact hroom) (by rw [hrequested]; simp)
  have hsilent : Silent _ w' := keeps_readContentHeader _ _ _ _ hread
  have htrace : w'.trace = w.trace := hsilent.trace_eq
  refine ⟨w', ?_, hsilent.currentQueue, ?_, ?_⟩
  · change actionWaitPublishContentHeader w = _
    rw [actionWaitPublishContentHeader, bind_of_ok hheader]
    simp only
    rw [bind_of_ok hread]
    rfl
  · rw [hrequested] at hdelivers
    rwa [← List.drop_drop, List.drop_left] at hdelivers
  · rw [htrace, List.append_nil]

/-- A content header that does not fit the buffers leaves them. -/
theorem actionWaitPublishContentHeader_overrun {bodySize : ℕ} {flags : UInt16}
    {properties : List UInt8}
    (h : w.socket.Delivers (contentFrame bodySize flags properties ++ rest))
    (hlength : 14 + properties.length < 2 ^ 32) (hover : maxLine < 14 + properties.length) :
    actions waitPublishContentHeader w = .error .bufferRange := by
  have hpayload := contentPayload_length bodySize flags properties
  obtain ⟨hheader, hrest⟩ := readMessageHeader_frame h (by omega)
  rw [← hpayload] at hlength hover
  have hrequested := le_requested (UInt32.ofNat (toBE 2 ClassId.basic.toNat ++ toBE 2 0 ++
    toBE 8 bodySize ++ toBE 2 flags.toNat ++ properties).length)
  rw [toNat_ofNat_length hlength] at hrequested
  have hstop := readContentHeader_overrun hrest (by
    rw [List.length_append]
    exact lt_min (hover.trans_le hrequested) (by omega))
  change actionWaitPublishContentHeader w = _
  rw [actionWaitPublishContentHeader, bind_of_ok hheader]
  simp only
  rw [bind_of_error hstop]

/-- `q_enqueue` of a string on the queue of the connection. -/
theorem enqueueString_of_ok {body : List UInt8} {node : ℕ} {store' : Store}
    (hqueue : w.cs.currentQueue = some q)
    (henqueue : qEnqueue (some q) body w.store = .ok (node, store')) :
    ∃ v, enqueueString body w = .ok ((), v) ∧
      v = { w with store := store', trace := w.trace ++ [.qEnqueue (some q) node body] } := by
  rw [← hqueue] at henqueue
  refine ⟨_, ?_, rfl⟩
  rw [enqueueString, field_bind_apply, bind_of_ok (onStore_of_ok henqueue), hqueue]
  rfl

/-- A BODY frame that fits the buffers is a message up to its first zero byte. -/
theorem actionWaitPublishContent_body (h : w.socket.Delivers (bodyFrame chunk ++ rest))
    (hroom : chunk.length < maxLine) (hqueue : w.cs.currentQueue = some q)
    (hq : Declared w.store name q) :
    ∃ w', actions waitPublishContent w = .ok (waitPublishContent, w') ∧
      Publishes w w' (some q) rest [(some q, chunk.takeWhile (· ≠ 0))] := by
  have hmax : maxLine < 2 ^ 32 := by decide
  obtain ⟨hheader, hrest⟩ := readMessageHeader_frame h (by omega)
  have hlength : (UInt32.ofNat chunk.length).toNat = chunk.length :=
    toNat_ofNat_length (by omega)
  have hfits : (UInt32.ofNat chunk.length).toNat + 1 ≤ maxLine := by omega
  have hcomplete : (UInt32.ofNat chunk.length).toNat < (chunk ++ frameEnd :: rest).length := by
    rw [hlength]
    simp
  have hbody := readBody_complete hrest hfits hcomplete
  rw [hlength] at hbody
  have hstring := afterBody_string (w.receive (encodeHeader MsgFormat.body 1 chunk.length))
    hroom (show chunk.length ≤ ((chunk ++ frameEnd :: rest).take (chunk.length + 1)).length by
      rw [List.length_take, List.length_append]
      simp)
  have hchunk : ((chunk ++ frameEnd :: rest).take (chunk.length + 1)).take chunk.length =
      chunk := by
    rw [List.take_take, Nat.min_eq_left (Nat.le_succ _), List.take_left]
  rw [hchunk] at hstring
  have hdelivers := receive_delivers hrest
    (show chunk.length + 1 ≤ (chunk ++ frameEnd :: rest).length by simp)
  rw [← List.drop_drop, List.drop_left] at hdelivers
  obtain ⟨queue, hcell, -⟩ := hq.pool.named name q hq.queue
  obtain ⟨node, store', henqueue, -⟩ := qEnqueue_spec (chunk.takeWhile (· ≠ 0)) hq.lists hcell
  obtain ⟨v, henqueued, hv⟩ := enqueueString_of_ok
    (w := (w.receive (encodeHeader MsgFormat.body 1 chunk.length)).afterBody
      ((chunk ++ frameEnd :: rest).take (chunk.length + 1)) chunk.length) hqueue henqueue
  rw [← enqueueBody_of_string hstring] at henqueued
  refine ⟨v, ?_, ?_, ?_, ?_⟩
  · change actionWaitPublishContent w = _
    rw [actionWaitPublishContent, bind_of_ok hheader]
    simp only
    rw [if_neg (by decide), if_true, bind_of_ok hbody, bind_of_ok henqueued]
    rfl
  · rw [hv]
    exact hqueue
  · rw [hv]
    exact hdelivers
  · rw [hv, enqueuesOf_append]
    rfl

/-- A BODY frame that does not fit the buffers leaves them. -/
theorem actionWaitPublishContent_overrun (h : w.socket.Delivers (bodyFrame chunk ++ rest))
    (hlength : chunk.length < 2 ^ 32) (hover : maxLine ≤ chunk.length) :
    ∃ reason, actions waitPublishContent w = .error reason := by
  obtain ⟨hheader, hrest⟩ := readMessageHeader_frame h hlength
  have hrequest : maxLine ≤ (UInt32.ofNat chunk.length).toNat := by
    rwa [toNat_ofNat_length hlength]
  obtain ⟨reason, hstop, -⟩ := readBody_overrun hrest hrequest
  refine ⟨reason, ?_⟩
  change actionWaitPublishContent w = _
  rw [actionWaitPublishContent, bind_of_ok hheader]
  simp only
  rw [if_neg (by decide), if_true, bind_of_error hstop]

/-- Where a publisher is: its state, its queue, the bytes still to come, and what it has
enqueued. -/
structure PublisherAt (th : Thread) (m : MachineState) (q : Option ℕ) (rest : List UInt8)
    (messages : List (Option ℕ × List UInt8)) : Prop where
  machine : th.conn.machine = m
  queue : th.conn.cs.currentQueue = q
  delivers : th.conn.socket.Delivers rest
  messages : enqueuesOf th.trace = messages

/-- A handler of a publisher makes a step of its thread. -/
theorem step_publishes (grain : Grain) {m m' : MachineState} {q' : Option ℕ}
    {messages : List (Option ℕ × List UInt8)} (hm : th.conn.machine = m)
    (hdequeue : m ≠ .waitValueDequeue) (hrunning : m ≠ .finished ∧ m ≠ .fail)
    (haction : actions m (th.world found) = .ok (m', w'))
    (h : Publishes (th.world found) w' q' rest messages) :
    ∃ th', Thread.step grain th found = .ok th' ∧
      PublisherAt th' m' q' rest (enqueuesOf th.trace ++ messages) := by
  have hstep : threadStep grain th.conn.machine th.conn.point (th.world found) =
      .ok ((m', .testRound), w') := by
    rw [hm, threadStep_eq hdequeue hrunning, bind_of_ok haction]
    rfl
  refine ⟨th.after m' .testRound w', Thread.step_of_ok hstep, rfl, h.queue, h.delivers, ?_⟩
  change enqueuesOf (th.trace ++ w'.trace) = _
  rw [enqueuesOf_append, h.messages]
  rfl

/-- A handler that stops stops its thread. -/
theorem step_stops (grain : Grain) {m : MachineState} {reason : Abort} (hm : th.conn.machine = m)
    (hdequeue : m ≠ .waitValueDequeue) (hrunning : m ≠ .finished ∧ m ≠ .fail)
    (haction : actions m (th.world found) = .error reason) :
    Thread.step grain th found = .error reason := by
  have hstep : threadStep grain th.conn.machine th.conn.point (th.world found) =
      .error reason := by
    rw [hm, threadStep_eq hdequeue hrunning, bind_of_error haction]
  unfold Thread.world at hstep
  unfold Thread.step
  rw [hstep]

variable {stores : List Store} {chunks : List (List UInt8)}
  {messages : List (Option ℕ × List UInt8)} {m : MachineState}

/-- BODY frames that fit the buffers are messages of their own, in their order. -/
theorem bodies_run (grain : Grain)
    (h : PublisherAt th waitPublishContent (some q) (chunks.flatMap bodyFrame ++ rest) messages)
    (hroom : ∀ chunk ∈ chunks, chunk.length < maxLine) (hstores : stores.length = chunks.length)
    (hdeclared : ∀ store ∈ stores, Declared store name q) :
    ∃ th', exec (Thread.step grain) th stores = .ok th' ∧
      PublisherAt th' waitPublishContent (some q) rest
        (messages ++ chunks.map fun chunk => (some q, chunk.takeWhile (· ≠ 0))) := by
  induction chunks generalizing th stores messages with
  | nil =>
    obtain rfl := List.length_eq_zero_iff.mp hstores
    exact ⟨th, rfl, h.machine, h.queue, h.delivers, by simpa using h.messages⟩
  | cons chunk chunks ih =>
    obtain ⟨found, stores, rfl⟩ := List.exists_cons_of_length_eq_add_one hstores
    have hrest : (th.world found).socket.Delivers
        (bodyFrame chunk ++ (chunks.flatMap bodyFrame ++ rest)) := by
      have hdelivers := h.delivers
      rwa [List.flatMap_cons, List.append_assoc] at hdelivers
    obtain ⟨w', haction, hpublishes⟩ := actionWaitPublishContent_body hrest
      (hroom chunk List.mem_cons_self) h.queue (hdeclared found List.mem_cons_self)
    obtain ⟨th₁, hstep, hat⟩ := step_publishes grain h.machine (by decide)
      ⟨by decide, by decide⟩ haction hpublishes
    rw [h.messages] at hat
    obtain ⟨th', hrun, hat'⟩ := ih hat (fun c hc => hroom c (List.mem_cons_of_mem _ hc))
      (by simpa using hstores) fun s hs => hdeclared s (List.mem_cons_of_mem _ hs)
    refine ⟨th', ?_, ?_⟩
    · rw [exec_cons _ _ _ hstep, hrun]
    · rwa [List.append_assoc] at hat'

/-- A BODY frame that does not fit the buffers ends the run. -/
theorem bodies_stop (grain : Grain)
    (h : PublisherAt th waitPublishContent (some q) (chunks.flatMap bodyFrame ++ rest) messages)
    (hlengths : ∀ chunk ∈ chunks, chunk.length < 2 ^ 32)
    (hover : ¬ ∀ chunk ∈ chunks, chunk.length < maxLine) (hstores : stores.length = chunks.length)
    (hdeclared : ∀ store ∈ stores, Declared store name q) :
    ∃ reason, exec (Thread.step grain) th stores = .error reason := by
  induction chunks generalizing th stores messages with
  | nil => exact absurd (by simp) hover
  | cons chunk chunks ih =>
    obtain ⟨found, stores, rfl⟩ := List.exists_cons_of_length_eq_add_one hstores
    have hrest : (th.world found).socket.Delivers
        (bodyFrame chunk ++ (chunks.flatMap bodyFrame ++ rest)) := by
      have hdelivers := h.delivers
      rwa [List.flatMap_cons, List.append_assoc] at hdelivers
    by_cases hroom : chunk.length < maxLine
    · obtain ⟨w', haction, hpublishes⟩ := actionWaitPublishContent_body hrest hroom h.queue
        (hdeclared found List.mem_cons_self)
      obtain ⟨th₁, hstep, hat⟩ := step_publishes grain h.machine (by decide)
        ⟨by decide, by decide⟩ haction hpublishes
      obtain ⟨reason, hrun⟩ := ih hat (fun c hc => hlengths c (List.mem_cons_of_mem _ hc))
        (fun hall => hover (List.forall_mem_cons.mpr ⟨hroom, hall⟩)) (by simpa using hstores)
        fun s hs => hdeclared s (List.mem_cons_of_mem _ hs)
      exact ⟨reason, by rw [exec_cons _ _ _ hstep, hrun]⟩
    · obtain ⟨reason, haction⟩ := actionWaitPublishContent_overrun hrest
        (hlengths chunk List.mem_cons_self) (not_lt.mp hroom)
      have hstep := step_stops grain h.machine (by decide) ⟨by decide, by decide⟩ haction
      exact ⟨reason, by rw [exec, hstep]⟩

/-- The messages that the BODY frames make are the one message only if there is one frame,
without a zero byte. -/
theorem strings_eq_whole_iff :
    (chunks.map fun chunk => (some q, chunk.takeWhile (· ≠ 0))) = [(some q, chunks.flatten)] ↔
      ∃ chunk, chunks = [chunk] ∧ 0 ∉ chunk := by
  constructor
  · intro h
    obtain ⟨chunk, hchunks, hstring⟩ := List.map_eq_singleton_iff.mp h
    subst hchunks
    refine ⟨chunk, rfl, fun hzero => ?_⟩
    have hwhole : chunk.takeWhile (· ≠ 0) = chunk := by simpa using hstring
    simpa using List.takeWhile_eq_self_iff.mp hwhole 0 hzero
  · rintro ⟨chunk, rfl, hzero⟩
    have hwhole : chunk.takeWhile (· ≠ 0) = chunk := by
      apply List.takeWhile_eq_self_iff.mpr
      intro byte hbyte
      simpa using ne_of_mem_of_not_mem hbyte hzero
    rw [List.map_singleton, hwhole, List.flatten_singleton]

/-- A publisher reads its method and comes to the content header. -/
theorem publisher_opens (grain : Grain) (found' : Store) (hm : th.conn.machine = waitFunctional)
    (h : th.conn.socket.Delivers (publishFrame exchange key ++ rest))
    (hexchange : exchange.length < 256) (hkey : key.length < 256)
    (hq : Declared found (key.takeWhile (· ≠ 0)) q) :
    ∃ th', exec (Thread.step grain) th [found, found'] = .ok th' ∧
      PublisherAt th' waitPublishContentHeader (some q) rest (enqueuesOf th.trace) := by
  obtain ⟨w₁, hpublish, hpublishes⟩ := actionWaitFunctional_publish
    (w := th.world found) h hexchange hkey hq
  obtain ⟨th₁, hstep₁, hat₁⟩ := step_publishes grain hm (by decide)
    ⟨by decide, by decide⟩ hpublish hpublishes
  have hreceived : actions basicPublishReceived (th₁.world found') =
      .ok (waitPublishContentHeader, th₁.world found') := rfl
  have hsame : Publishes (th₁.world found') (th₁.world found') (some q) rest [] :=
    ⟨hat₁.queue, hat₁.delivers, rfl⟩
  obtain ⟨th', hstep', hat'⟩ := step_publishes grain hat₁.machine (by decide)
    ⟨by decide, by decide⟩ hreceived hsame
  refine ⟨th', ?_, ?_⟩
  · rw [exec_cons _ _ _ hstep₁, exec_cons _ _ _ hstep', exec_nil]
  · rwa [hat₁.messages, List.append_nil, List.append_nil] at hat'

variable {exchange' key' properties : List UInt8} {flags : UInt16}

/-- The frames of a publish whose payload is cut into `chunks`. -/
def publishStream (exchange key : List UInt8) (flags : UInt16) (properties : List UInt8)
    (chunks : List (List UInt8)) : List UInt8 :=
  publishFrame exchange key ++ (contentFrame chunks.flatten.length flags properties ++
    chunks.flatMap bodyFrame)

/-- The frames of a publication, one behind the other. -/
theorem publishStream_append (rest : List UInt8) :
    publishStream exchange key flags properties chunks ++ rest =
      publishFrame exchange key ++ (contentFrame chunks.flatten.length flags properties ++
        (chunks.flatMap bodyFrame ++ rest)) := by
  rw [publishStream, List.append_assoc, List.append_assoc]

/-- After these steps the thread has enqueued `p` on the queue at `q`, once and nothing else,
and has started the next publish. -/
def PublishesOne (grain : Grain) (th : Thread) (stores : List Store) (q : ℕ)
    (p : List UInt8) : Prop :=
  ∃ th', exec (Thread.step grain) th stores = .ok th' ∧
    th'.conn.machine = basicPublishReceived ∧
    enqueuesOf th'.trace = enqueuesOf th.trace ++ [(some q, p)]

/-- The memories that a publisher finds, by the frame that it reads next. -/
theorem stores_of_publish {n : ℕ} (h : stores.length = n + 4) :
    ∃ s₀ s₁ s₂ bodies last, stores = [s₀, s₁] ++ s₂ :: (bodies ++ [last]) ∧ bodies.length = n := by
  obtain ⟨s₀, tail, rfl⟩ := List.exists_cons_of_length_eq_add_one h
  rw [List.length_cons, Nat.add_right_cancel_iff] at h
  obtain ⟨s₁, tail, rfl⟩ := List.exists_cons_of_length_eq_add_one h
  rw [List.length_cons, Nat.add_right_cancel_iff] at h
  obtain ⟨s₂, tail, rfl⟩ := List.exists_cons_of_length_eq_add_one h
  rw [List.length_cons, Nat.add_right_cancel_iff] at h
  have hne : tail ≠ [] := List.ne_nil_of_length_eq_add_one h
  refine ⟨s₀, s₁, s₂, tail.dropLast, tail.getLast hne, ?_, ?_⟩
  · rw [List.dropLast_append_getLast hne]
    rfl
  · rw [List.length_dropLast, h, Nat.add_sub_cancel]

/-- The run of a publisher whose frames all fit the buffers. -/
theorem publish_run (grain : Grain) (hm : th.conn.machine = waitFunctional)
    (h : th.conn.socket.Delivers (publishStream exchange key flags properties chunks ++
      (publishFrame exchange' key' ++ rest)))
    (hexchange : exchange.length < 256) (hkey : key.length < 256)
    (hexchange' : exchange'.length < 256) (hkey' : key'.length < 256)
    (hheader : 14 + properties.length ≤ maxLine) (hroom : ∀ chunk ∈ chunks, chunk.length < maxLine)
    (hstores : stores.length = chunks.length + 4)
    (hdeclared : ∀ store ∈ stores, Declared store (key.takeWhile (· ≠ 0)) q) :
    ∃ th', exec (Thread.step grain) th stores = .ok th' ∧
      th'.conn.machine = basicPublishReceived ∧
      enqueuesOf th'.trace = enqueuesOf th.trace ++
        chunks.map fun chunk => (some q, chunk.takeWhile (· ≠ 0)) := by
  rw [publishStream_append] at h
  obtain ⟨s₀, s₁, s₂, bodies, last, rfl, hbodies⟩ := stores_of_publish hstores
  obtain ⟨th₁, hopening, hat₁⟩ := publisher_opens grain s₁ hm h hexchange hkey
    (hdeclared s₀ (by simp))
  obtain ⟨w₂, hcontent, hpublishes₂⟩ := actionWaitPublishContentHeader_content
    (w := th₁.world s₂) hat₁.delivers hheader
  obtain ⟨th₂, hstep₂, hat₂⟩ := step_publishes grain hat₁.machine (by decide)
    ⟨by decide, by decide⟩ hcontent hpublishes₂
  rw [hat₁.messages, List.append_nil, show (th₁.world s₂).cs.currentQueue = some q from
    hat₁.queue] at hat₂
  obtain ⟨th₃, hrun, hat₃⟩ := bodies_run grain hat₂ hroom hbodies fun store hstore =>
    hdeclared store (by simp [hstore])
  obtain ⟨w₄, q', hpublish, hpublishes₄⟩ := actionWaitPublishContent_publish
    (w := th₃.world last) hat₃.delivers hexchange' hkey'
  obtain ⟨th₄, hstep₄, hat₄⟩ := step_publishes grain hat₃.machine (by decide)
    ⟨by decide, by decide⟩ hpublish hpublishes₄
  refine ⟨th₄, ?_, hat₄.machine, ?_⟩
  · apply exec_append_eq_ok.mpr
    refine ⟨th₁, hopening, ?_⟩
    rw [exec_cons _ _ _ hstep₂]
    exact exec_append_eq_ok.mpr ⟨th₃, hrun, by rw [exec_cons _ _ _ hstep₄, exec_nil]⟩
  · rw [hat₄.messages, hat₃.messages, List.append_nil]

/-- A publisher whose frames do not all fit the buffers does not come to its next publish. -/
theorem publish_stops (hm : th.conn.machine = waitFunctional)
    (h : th.conn.socket.Delivers (publishStream exchange key flags properties chunks ++ rest))
    (hexchange : exchange.length < 256) (hkey : key.length < 256)
    (hproperties : 14 + properties.length < 2 ^ 32)
    (hlengths : ∀ chunk ∈ chunks, chunk.length < 2 ^ 32)
    (hover : ¬ (14 + properties.length ≤ maxLine ∧ ∀ chunk ∈ chunks, chunk.length < maxLine))
    (hstores : stores.length = chunks.length + 4)
    (hdeclared : ∀ store ∈ stores, Declared store (key.takeWhile (· ≠ 0)) q) (th' : Thread) :
    exec (Thread.step grain) th stores ≠ .ok th' := by
  intro hrun
  rw [publishStream_append] at h
  obtain ⟨s₀, s₁, s₂, bodies, last, rfl, hbodies⟩ := stores_of_publish hstores
  obtain ⟨th₁, hopening, hat₁⟩ := publisher_opens grain s₁ hm h hexchange hkey
    (hdeclared s₀ (by simp))
  obtain ⟨m₁, hfirst, hrun⟩ := exec_append_eq_ok.mp hrun
  obtain rfl := Except.ok.inj (hopening.symm.trans hfirst)
  obtain ⟨m₂, hcontent, hrun⟩ := exec_cons_eq_ok.mp hrun
  by_cases hheader : 14 + properties.length ≤ maxLine
  · obtain ⟨w₂, haction, hpublishes⟩ := actionWaitPublishContentHeader_content
      (w := th₁.world s₂) hat₁.delivers hheader
    obtain ⟨th₂, hstep, hat₂⟩ := step_publishes grain hat₁.machine (by decide)
      ⟨by decide, by decide⟩ haction hpublishes
    rw [hat₁.messages, List.append_nil, show (th₁.world s₂).cs.currentQueue = some q from
      hat₁.queue] at hat₂
    obtain rfl := Except.ok.inj (hstep.symm.trans hcontent)
    obtain ⟨m₃, hall, -⟩ := exec_append_eq_ok.mp hrun
    obtain ⟨reason, hstop⟩ := bodies_stop grain hat₂ hlengths
      (fun hroom => hover ⟨hheader, hroom⟩) hbodies fun store hstore =>
        hdeclared store (by simp [hstore])
    rw [hstop] at hall
    cases hall
  · have hstop := step_stops grain hat₁.machine (by decide) ⟨by decide, by decide⟩
      (actionWaitPublishContentHeader_overrun (w := th₁.world s₂) hat₁.delivers hproperties
        (not_le.mp hheader))
    rw [hstop] at hcontent
    cases hcontent

/-- One publish is one message if and only if the content header fits the buffers and the
payload comes in one BODY frame, which fits the buffers and has no zero byte. -/
theorem publishesOne_iff (hm : th.conn.machine = waitFunctional)
    (h : th.conn.socket.Delivers (publishStream exchange key flags properties chunks ++
      (publishFrame exchange' key' ++ rest)))
    (hexchange : exchange.length < 256) (hkey : key.length < 256)
    (hexchange' : exchange'.length < 256) (hkey' : key'.length < 256)
    (hproperties : 14 + properties.length < 2 ^ 32)
    (hlengths : ∀ chunk ∈ chunks, chunk.length < 2 ^ 32)
    (hstores : stores.length = chunks.length + 4)
    (hdeclared : ∀ store ∈ stores, Declared store (key.takeWhile (· ≠ 0)) q) :
    PublishesOne grain th stores q chunks.flatten ↔
      14 + properties.length ≤ maxLine ∧
        ∃ chunk, chunks = [chunk] ∧ chunk.length < maxLine ∧ 0 ∉ chunk := by
  constructor
  · rintro ⟨th', hrun, -, hone⟩
    by_cases hfits : 14 + properties.length ≤ maxLine ∧ ∀ chunk ∈ chunks, chunk.length < maxLine
    · obtain ⟨th'', hrun', -, hall⟩ := publish_run grain hm h hexchange hkey hexchange'
        hkey' hfits.1 hfits.2 hstores hdeclared
      obtain rfl := Except.ok.inj (hrun'.symm.trans hrun)
      obtain ⟨chunk, rfl, hzero⟩ := strings_eq_whole_iff.mp
        (List.append_cancel_left (hall.symm.trans hone))
      exact ⟨hfits.1, chunk, rfl, hfits.2 chunk (List.mem_singleton_self chunk), hzero⟩
    · exact absurd hrun (publish_stops hm h hexchange hkey hproperties hlengths hfits hstores
        hdeclared th')
  · rintro ⟨hheader, chunk, rfl, hroom, hzero⟩
    obtain ⟨th', hrun, hmachine, hall⟩ := publish_run grain hm h hexchange hkey hexchange'
      hkey' hheader (List.forall_mem_singleton.mpr hroom) hstores hdeclared
    refine ⟨th', hrun, hmachine, ?_⟩
    rw [hall, strings_eq_whole_iff.mpr ⟨chunk, rfl, hzero⟩]

/-- A name with a queue in a reachable state is declared in its memory. -/
theorem Declared.of_reaches {guard : Broker → Act → Prop} {s : Broker}
    (h : Reaches (Broker.step grain) guard Broker.initial s) (hq : s.store.queueOf name = some q) :
    Declared s.store name q :=
  ⟨(Broker.ok_of_reaches h).pool, (Broker.ok_of_reaches h).lists, hq⟩

/-- A memory that nobody changes between the steps. -/
theorem Declared.replicate {store : Store} (h : Declared store name q) (n : ℕ) :
    ∀ found ∈ List.replicate n store, Declared found name q := by
  intro found hfound
  rwa [List.eq_of_mem_replicate hfound]

/-- A thread in WAIT_FUNCTIONAL that reads these bytes next. -/
def publisher (store : Store) (bytes : List UInt8) : Thread :=
  { conn :=
      { machine := waitFunctional
        point := .testRound
        cs := .initial 0
        socket := Socket.chunk bytes }
    store := store
    trace := [] }

/-- The socket of the publisher has its stream. -/
theorem publisher_delivers (store : Store) (chunks : List (List UInt8)) :
    (publisher store (publishStream [] [113] 0 [] chunks ++
      publishFrame [] [113])).conn.socket.Delivers
        (publishStream [] [113] 0 [] chunks ++ (publishFrame [] [113] ++ [])) := by
  rw [List.append_nil]
  exact Socket.chunk_delivers (publishStream [] [113] 0 [] chunks ++ publishFrame [] [113])

/-- A client that declares the queue "q". -/
def declareOnly : List Act := session 0 (openingFrames ++ declareFrame [113]) 10

/-- A payload in one BODY frame is one message. -/
theorem publishesOne_iff_oneFrame :
    ∃ s, exec (Broker.step .fine) Broker.initial declareOnly = .ok s ∧
      PublishesOne .fine (publisher s.store (publishStream [] [113] 0 [] [[104, 105]] ++
        publishFrame [] [113])) (List.replicate 5 s.store) 0 [104, 105] := by
  have hobserved : (exec (Broker.step .fine) Broker.initial declareOnly).toOption.map
      (fun s => s.store.queueOf [113]) = some (some 0) := by decide +kernel
  obtain ⟨s, hrun, hq⟩ := exec_observed hobserved
  have hdeclared := Declared.of_reaches (reaches_of_exec hrun) hq
  refine ⟨s, hrun, ?_⟩
  apply (publishesOne_iff rfl (publisher_delivers s.store [[104, 105]]) (by decide) (by decide)
    (by decide) (by decide) (by decide) (by decide) rfl (hdeclared.replicate 5)).mpr
  exact ⟨by decide, [104, 105], rfl, by decide, by decide⟩

/-- A client that declares the queue "q" and publishes a payload in two BODY frames. -/
def publishInTwo : List Act :=
  session 0 (openingFrames ++ declareFrame [113] ++ publishFrame [] [113] ++ headerFrame 2 ++
    bodyFrame [104] ++ bodyFrame [105] ++ publishFrame [] [113]) 17

/-- A payload in two BODY frames is two messages. -/
theorem publishInTwo_twoMessages :
    ∃ s, exec (Broker.step .fine) Broker.initial publishInTwo = .ok s ∧
      (enqueuedTo [113] s.history).map Prod.snd = [[104], [105]] ∧
      ¬ PublishesOne .fine (publisher s.store (publishStream [] [113] 0 [] [[104], [105]] ++
        publishFrame [] [113])) (List.replicate 6 s.store) 0 [104, 105] := by
  have hobserved : (exec (Broker.step .fine) Broker.initial publishInTwo).toOption.map
      (fun s => (s.store.queueOf [113], (enqueuedTo [113] s.history).map Prod.snd)) =
        some (some 0, [[104], [105]]) := by decide +kernel
  obtain ⟨s, hrun, hview⟩ := exec_observed hobserved
  have hdeclared := Declared.of_reaches (reaches_of_exec hrun) (congrArg Prod.fst hview)
  refine ⟨s, hrun, congrArg Prod.snd hview, ?_⟩
  rintro ⟨th', hone, -, hmessages⟩
  obtain ⟨th'', htwo, -, hall⟩ := publish_run .fine rfl
    (publisher_delivers s.store [[104], [105]]) (by decide) (by decide) (by decide) (by decide)
    (by decide) (by decide) rfl (hdeclared.replicate 6)
  obtain rfl := Except.ok.inj (htwo.symm.trans hone)
  have htwice := List.append_cancel_left (hall.symm.trans hmessages)
  cases htwice

end AmqpBroker
