import AmqpBroker.Verification.ThreadRuns

/-!
# One delivery at a time

The conversation of a consumer from the moment its Basic.Consume is accepted: the
subscription and its answer, then deliveries, each of them a dequeue and three frames, each
but the last followed by an acknowledgement. The connection leaves this cycle only to fail.
-/

namespace AmqpBroker

open Foundations Program MachineState

variable {grain : Grain} {w w' : World} {m m' : MachineState} {point : DequeuePoint}
  {past : PastConsumeOkArgs}

/-- The frame of Basic.Consume-Ok. -/
def consumeOkFrame (past : PastConsumeOkArgs) : List UInt8 :=
  encodeFrame MsgFormat.method 1
    (encodeMethod ⟨ClassId.basic, MethodId.basicConsumeOk⟩ (basicConsumeOkArgs past))

/-- The calls that make a subscription and answer it. -/
def subscription (past : PastConsumeOkArgs) (q : Option ℕ) : List Event :=
  [.qAddSubscriber q, .write (consumeOkFrame past)]

/-- One call of `q_dequeue_rr`, then Basic.Deliver, CONTENT_HEADER and BODY. -/
inductive IsDelivery : List Event → Prop
  | intro (q : Option ℕ) (taken : Option (ℕ × List UInt8)) (body : List UInt8) :
      IsDelivery (.qDequeue q taken :: (deliveryFrames body).map Event.write)

/-- A delivery, then the Basic.Ack of the client. -/
inductive IsAcknowledged : List Event → Prop
  | intro {events : List Event} : IsDelivery events →
      IsAcknowledged (events ++ [.readMethod ackMethod])

/-- The last calls of a consumer: it reads no Basic.Ack and is no subscriber any more. -/
def IsClosing (events : List Event) : Prop :=
  ∀ event ∈ events, (∃ method, event = .readMethod method ∧ method ≠ ackMethod) ∨
    ∃ q, event = .removeSubscriber q

/-- The calls so far of a consumer, perhaps in the middle of a delivery. -/
def Conversation (past : PastConsumeOkArgs) (sofar : List Event) : Prop :=
  ∃ (q : Option ℕ) (rounds : List (List Event)) (last closing : List Event),
    (∀ round ∈ rounds, IsAcknowledged round) ∧ IsDelivery last ∧ IsClosing closing ∧
      sofar <+: subscription past q ++ (rounds.flatten ++ (last ++ closing))

/-- The BODY frames sent, which end the triples. -/
def bodiesSent (events : List Event) : ℕ :=
  (framesSent events).countP fun frame => frame.head? = some MsgFormat.body

/-- The acknowledgements read. -/
def acksRead (events : List Event) : ℕ := events.count (.readMethod ackMethod)

/-- A beginning of a conversation is one. -/
theorem Conversation.of_prefix {sofar events : List Event} (h : Conversation past events)
    (hbegins : sofar <+: events) : Conversation past sofar := by
  obtain ⟨q, rounds, last, closing, hrounds, hlast, hclosing, hevents⟩ := h
  exact ⟨q, rounds, last, closing, hrounds, hlast, hclosing, hbegins.trans hevents⟩

/-- Bodies are counted event by event. -/
@[simp] theorem bodiesSent_append (left right : List Event) :
    bodiesSent (left ++ right) = bodiesSent left + bodiesSent right := by
  rw [bodiesSent, framesSent, List.filterMap_append, List.countP_append]
  rfl

/-- Acknowledgements are counted event by event. -/
@[simp] theorem acksRead_append (left right : List Event) :
    acksRead (left ++ right) = acksRead left + acksRead right := List.count_append

/-- As many triples as acknowledgements, or one more. -/
def AtMostOneOpen (events : List Event) : Prop :=
  acksRead events ≤ bodiesSent events ∧ bodiesSent events ≤ acksRead events + 1

/-- A part whose beginnings are all at most one delivery ahead, with as many triples as
acknowledgements, can be put before another. -/
theorem atMostOneOpen_append {left right : List Event}
    (hleft : ∀ sofar, sofar <+: left → AtMostOneOpen sofar)
    (heven : bodiesSent left = acksRead left)
    (hright : ∀ sofar, sofar <+: right → AtMostOneOpen sofar) :
    ∀ sofar, sofar <+: left ++ right → AtMostOneOpen sofar := by
  intro sofar hsofar
  rcases List.prefix_or_prefix_of_prefix hsofar (List.prefix_append left right) with
    hin | ⟨rest, rfl⟩
  · exact hleft sofar hin
  · have hopen := hright rest ((List.prefix_append_right_inj left).mp hsofar)
    rw [AtMostOneOpen, bodiesSent_append, acksRead_append, heven]
    exact ⟨by have := hopen.1; omega, by have := hopen.2; omega⟩

/-- Calls that neither send a body nor read an acknowledgement. -/
theorem atMostOneOpen_of_even {events : List Event} (hbodies : bodiesSent events = 0)
    (hacks : acksRead events = 0) : ∀ sofar, sofar <+: events → AtMostOneOpen sofar := by
  rintro sofar ⟨rest, rfl⟩
  rw [bodiesSent_append] at hbodies
  rw [acksRead_append] at hacks
  exact ⟨by omega, by omega⟩

/-- The type octet is the first. -/
@[simp] theorem head?_encodeFrame (msgType : UInt8) (channel : UInt16) (payload : List UInt8) :
    (encodeFrame msgType channel payload).head? = some msgType := rfl

/-- A delivery sends one body and reads nothing. -/
theorem IsDelivery.counts {events : List Event} (h : IsDelivery events) :
    bodiesSent events = 1 ∧ acksRead events = 0 := by
  cases h with
  | intro q taken body =>
    constructor
    · have hsent : framesSent (.qDequeue q taken :: (deliveryFrames body).map Event.write) =
          deliveryFrames body := framesSent_map_write _
      have hother : MsgFormat.method ≠ MsgFormat.body ∧ MsgFormat.contentHeader ≠ MsgFormat.body := by
        decide
      rw [bodiesSent, hsent, deliveryFrames]
      simp [hother]
    · simp [acksRead, deliveryFrames]

/-- Without acknowledgement and with one body at most nothing is more than one ahead. -/
theorem atMostOneOpen_of_one {events : List Event} (hbodies : bodiesSent events = 1)
    (hacks : acksRead events = 0) : ∀ sofar, sofar <+: events → AtMostOneOpen sofar := by
  rintro sofar ⟨rest, rfl⟩
  rw [bodiesSent_append] at hbodies
  rw [acksRead_append] at hacks
  exact ⟨by omega, by omega⟩

/-- A connection that closes neither sends a body nor takes an acknowledgement. -/
theorem IsClosing.counts {events : List Event} (h : IsClosing events) :
    bodiesSent events = 0 ∧ acksRead events = 0 := by
  constructor
  · have hsent : framesSent events = [] := by
      apply framesSent_eq_nil
      intro event hevent
      rcases h event hevent with ⟨method, rfl, -⟩ | ⟨q, rfl⟩
      · rfl
      · rfl
    rw [bodiesSent, hsent]
    rfl
  · apply List.count_eq_zero.mpr
    intro hmem
    rcases h _ hmem with ⟨method, hmethod, hne⟩ | ⟨q, hq⟩
    · cases hmethod
      exact hne rfl
    · cases hq

/-- An acknowledged delivery is even again. -/
theorem IsAcknowledged.counts {round : List Event} (h : IsAcknowledged round) :
    bodiesSent round = acksRead round ∧ ∀ sofar, sofar <+: round → AtMostOneOpen sofar := by
  cases h with
  | @intro events h =>
    obtain ⟨hbodies, hacks⟩ := h.counts
    have hack : bodiesSent [.readMethod ackMethod] = 0 ∧ acksRead [.readMethod ackMethod] = 1 := by
      decide
    constructor
    · rw [bodiesSent_append, acksRead_append]
      omega
    · rintro sofar hsofar
      rcases List.prefix_or_prefix_of_prefix hsofar (List.prefix_append events _) with
        hin | ⟨rest, rfl⟩
      · exact atMostOneOpen_of_one hbodies hacks sofar hin
      · obtain ⟨more, hmore⟩ := (List.prefix_append_right_inj events).mp hsofar
        have hrest := congrArg bodiesSent hmore
        have hrest' := congrArg acksRead hmore
        rw [bodiesSent_append] at hrest
        rw [acksRead_append] at hrest'
        rw [AtMostOneOpen, bodiesSent_append, acksRead_append]
        exact ⟨by omega, by omega⟩

/-- Triples sent minus acknowledgements read is 0 or 1 all along a conversation. -/
theorem Conversation.atMostOneOpen {sofar : List Event} (h : Conversation past sofar) :
    AtMostOneOpen sofar := by
  obtain ⟨q, rounds, last, closing, hrounds, hlast, hclosing, hsofar⟩ := h
  have hend : ∀ sofar, sofar <+: last ++ closing → AtMostOneOpen sofar := by
    obtain ⟨hbodies, hacks⟩ := hlast.counts
    obtain ⟨hnobody, hnoack⟩ := hclosing.counts
    apply atMostOneOpen_of_one
    · rw [bodiesSent_append, hbodies, hnobody]
    · rw [acksRead_append, hacks, hnoack]
  have hwhole : ∀ sofar, sofar <+: rounds.flatten ++ (last ++ closing) → AtMostOneOpen sofar := by
    clear hsofar
    induction rounds with
    | nil => exact hend
    | cons round rest ih =>
      obtain ⟨heven, hround⟩ := (hrounds round List.mem_cons_self).counts
      rw [List.flatten_cons, List.append_assoc]
      exact atMostOneOpen_append hround heven
        (ih fun round' hmem => hrounds round' (List.mem_cons_of_mem _ hmem))
  have hopening : bodiesSent (subscription past q) = 0 ∧ acksRead (subscription past q) = 0 := by
    constructor
    · have hother : MsgFormat.method ≠ MsgFormat.body := by decide
      simp [bodiesSent, framesSent, subscription, Event.sent, consumeOkFrame, hother]
    · simp [acksRead, subscription]
  apply atMostOneOpen_append (atMostOneOpen_of_even hopening.1 hopening.2) _ hwhole sofar hsofar
  rw [hopening.1, hopening.2]

/-- Only a Basic.Ack lets a consumer go on, and its frame is all that was taken. -/
theorem actionWaitConsumeAck_takes (h : actionWaitConsumeAck w = .ok (m', w')) :
    m' = fail ∨ (m' = waitValueDequeue ∧ Takes ackMethod w w') := by
  have hreject : ∀ {message : Action Unit} {v : World},
      (do unsubscribe; message; pure fail : Action MachineState) v = .ok (m', w') → m' = fail := by
    intro message v h
    obtain ⟨_, _, _, h⟩ := bind_eq_ok.mp h
    obtain ⟨_, _, _, h⟩ := bind_eq_ok.mp h
    cases h
    rfl
  obtain ⟨result, v, hheader, h⟩ := bind_eq_ok.mp h
  cases result with
  | none => exact Or.inl (hreject h)
  | some messageHeader =>
    obtain ⟨result, v', hread, h⟩ := bind_eq_ok.mp h
    cases result with
    | none => exact Or.inl (hreject h)
    | some method =>
      by_cases hmethod : method.classId ≠ ClassId.basic ∨ method.methodId ≠ MethodId.basicAck
      · simp only [if_pos hmethod] at h
        exact Or.inl (hreject h)
      · simp only [if_neg hmethod] at h
        cases h
        obtain rfl : method = ackMethod := by
          by_contra hne
          exact hmethod (ids_ne_iff.mpr hne)
        exact Or.inr ⟨rfl, readMethod_takes hheader hread⟩

/-- What follows the acknowledged deliveries in each state of a consumer. -/
def OpenRound (m : MachineState) (point : DequeuePoint) (tail : List Event) : Prop :=
  match m with
  | waitValueDequeue =>
    if point = .nextThread then ∃ q taken, tail = [.qDequeue q taken] else tail = []
  | valueDequeueReceived => ∃ q taken, tail = [.qDequeue q taken]
  | waitConsumeAck => IsDelivery tail
  | fail => ∃ last closing, tail = last ++ closing ∧ IsDelivery last ∧ IsClosing closing
  | _ => False

/-- What is open is the beginning of a last delivery. -/
theorem OpenRound.exists_last {tail : List Event} (h : OpenRound m point tail) :
    ∃ last closing, IsDelivery last ∧ IsClosing closing ∧ tail <+: last ++ closing := by
  have hclosing : IsClosing [] := by simp [IsClosing]
  have hdequeued : ∀ {q taken}, tail = [.qDequeue q taken] →
      ∃ last closing, IsDelivery last ∧ IsClosing closing ∧ tail <+: last ++ closing := by
    intro q taken htail
    refine ⟨_, [], .intro q taken [], hclosing, ?_⟩
    rw [htail, List.append_nil]
    exact List.prefix_append [_] _
  cases m with
  | waitValueDequeue =>
    simp only [OpenRound] at h
    split at h
    · obtain ⟨q, taken, htail⟩ := h
      exact hdequeued htail
    · exact ⟨_, [], .intro none none [], hclosing, by rw [h]; exact List.nil_prefix⟩
  | valueDequeueReceived =>
    obtain ⟨q, taken, htail⟩ := h
    exact hdequeued htail
  | waitConsumeAck => exact ⟨tail, [], h, hclosing, List.prefix_append _ _⟩
  | fail =>
    obtain ⟨last, closing, htail, hlast, hclosing⟩ := h
    exact ⟨last, closing, hlast, hclosing, by rw [htail]⟩
  | _ => cases h

namespace Thread

variable {th th' : Thread} {found : Store} {bytes : List UInt8} {since : List Event}

/-- Of these bytes one Basic.Ack frame was taken for each acknowledgement read, and nothing
else before the connection fails. -/
def TookAcks (bytes : List UInt8) (since : List Event) (th : Thread) : Prop :=
  ∃ (frames : List (List UInt8)) (more rest : List UInt8),
    bytes = frames.flatten ++ (more ++ rest) ∧
      (∀ frame ∈ frames, FrameOf ackMethod frame) ∧ frames.length = acksRead since ∧
      th.conn.socket.Delivers rest ∧ (th.conn.machine ≠ fail → more = [])

/-- The calls since Basic.Consume was accepted. -/
inductive Consuming (past : PastConsumeOkArgs) (bytes : List UInt8) (since : List Event)
    (th : Thread) : Prop
  | accepted : th.conn.machine = basicConsumeReceived → th.conn.cs.pastConsumeOkArgs = past →
      since = [] → TookAcks bytes since th → Consuming past bytes since th
  | rounds {q : Option ℕ} {rounds : List (List Event)} {tail : List Event} :
      since = subscription past q ++ (rounds.flatten ++ tail) →
      (∀ round ∈ rounds, IsAcknowledged round) →
      OpenRound th.conn.machine th.conn.point tail → TookAcks bytes since th →
      Consuming past bytes since th

/-- Calls without an acknowledgement, and nothing taken. -/
theorem TookAcks.more (h : TookAcks bytes since th) (hm : th.conn.machine ≠ fail)
    {events : List Event} (hacks : acksRead events = 0)
    (hsocket : th'.conn.socket = th.conn.socket) : TookAcks bytes (since ++ events) th' := by
  obtain ⟨frames, more, rest, hbytes, hframes, hlength, hrest, hmore⟩ := h
  refine ⟨frames, [], more ++ rest, hbytes, hframes, ?_, ?_, fun _ => rfl⟩
  · rw [acksRead_append, hacks, hlength, Nat.add_zero]
  · rw [hsocket, hmore hm]
    exact hrest

/-- One more acknowledgement, and its frame. -/
theorem TookAcks.ack (h : TookAcks bytes since th) (hm : th.conn.machine ≠ fail)
    (htakes : Takes ackMethod (th.world found) w') (hsocket : th'.conn.socket = w'.socket) :
    TookAcks bytes (since ++ [.readMethod ackMethod]) th' := by
  obtain ⟨frames, more, rest, hbytes, hframes, hlength, hrest, hnone⟩ := h
  obtain rfl := hnone hm
  obtain ⟨frame, rest', rfl, hframe, hrest'⟩ := htakes rest hrest
  refine ⟨frames ++ [frame], [], rest', ?_, ?_, ?_, ?_, fun _ => rfl⟩
  · rw [hbytes, List.flatten_append]
    simp
  · intro frame' hframe'
    rcases List.mem_append.mp hframe' with hold | hnew
    · exact hframes frame' hold
    · rw [List.mem_singleton.mp hnew]
      exact hframe
  · rw [acksRead_append, List.length_append, hlength]
    simp [acksRead]
  · rwa [hsocket]

/-- What is taken when the connection fails is no acknowledgement. -/
theorem TookAcks.refuse (h : TookAcks bytes since th) (hm : th.conn.machine ≠ fail)
    {events : List Event} (hacks : acksRead events = 0) (htakes : Consumes (th.world found) w')
    (hsocket : th'.conn.socket = w'.socket) (hfail : th'.conn.machine = fail) :
    TookAcks bytes (since ++ events) th' := by
  obtain ⟨frames, more, rest, hbytes, hframes, hlength, hrest, hnone⟩ := h
  obtain rfl := hnone hm
  obtain ⟨taken, rest', rfl, hrest'⟩ := htakes rest hrest
  refine ⟨frames, taken, rest', hbytes, hframes, ?_, ?_, fun hne => absurd hfail hne⟩
  · rw [acksRead_append, hacks, hlength, Nat.add_zero]
  · rwa [hsocket]

/-- The subscription is made and answered. -/
theorem Consuming.subscribe (hm : th.conn.machine = basicConsumeReceived)
    (hpast : th.conn.cs.pastConsumeOkArgs = past) (htook : TookAcks bytes [] th)
    (hstep : step grain th found = .ok th') :
    ∃ events, th'.trace = th.trace ++ events ∧ Consuming past bytes ([] ++ events) th' := by
  cases step_cases hstep with
  | dequeue hm' _ _ =>
    rw [hm] at hm'
    cases hm'
  | @handler m' w' _ _ haction hth' =>
    rw [hm] at haction
    obtain ⟨rfl, htrace, hsocket⟩ := actionBasicConsumeReceived_sends haction
    rw [show (th.world found).cs.pastConsumeOkArgs = past from hpast] at htrace
    refine ⟨subscription past (th.world found).cs.currentQueue, ?_, ?_⟩
    · rw [hth']
      exact congrArg (th.trace ++ ·) htrace
    · have hsince : [] ++ subscription past (th.world found).cs.currentQueue =
          subscription past (th.world found).cs.currentQueue ++
            (([] : List (List Event)).flatten ++ []) := by
        simp
      apply Consuming.rounds hsince
      · simp
      · rw [hth']
        rfl
      · apply htook.more
        · rw [hm]
          decide
        · simp [acksRead, subscription]
        · rw [hth']
          exact hsocket

section Round

variable {q : Option ℕ} {rounds : List (List Event)} {tail events : List Event}

/-- Calls that belong to the round that is open. -/
theorem Consuming.more (hrounds : ∀ round ∈ rounds, IsAcknowledged round)
    (htook : TookAcks bytes (subscription past q ++ (rounds.flatten ++ tail)) th)
    (hm : th.conn.machine ≠ fail) (hacks : acksRead events = 0)
    (hsocket : th'.conn.socket = th.conn.socket)
    (hopen : OpenRound th'.conn.machine th'.conn.point (tail ++ events)) :
    Consuming past bytes (subscription past q ++ (rounds.flatten ++ tail) ++ events) th' := by
  have hsince : subscription past q ++ (rounds.flatten ++ tail) ++ events =
      subscription past q ++ (rounds.flatten ++ (tail ++ events)) := by
    rw [List.append_assoc, List.append_assoc]
  exact .rounds hsince hrounds hopen (htook.more hm hacks hsocket)

/-- What follows a delivery: the acknowledgement that ends its round, or the end of the
connection. -/
theorem Consuming.answered {m' : MachineState} (hrounds : ∀ round ∈ rounds, IsAcknowledged round)
    (htail : IsDelivery tail)
    (htook : TookAcks bytes (subscription past q ++ (rounds.flatten ++ tail)) th)
    (hm : th.conn.machine ≠ fail) (haction : actions waitConsumeAck (th.world found) = .ok (m', w')) :
    Consuming past bytes (subscription past q ++ (rounds.flatten ++ tail) ++ w'.trace)
      (th.after m' .testRound w') := by
  have htakes := actionWaitConsumeAck_takes haction
  cases effect_of_action (by decide) (by decide) haction with
  | ack _ _ _ htrace =>
    have htaken := htakes.resolve_left (by decide)
    have htrace : w'.trace = [.readMethod ackMethod] := htrace
    have hrounds' : ∀ round ∈ rounds ++ [tail ++ [Event.readMethod ackMethod]],
        IsAcknowledged round := by
      intro round hround
      rcases List.mem_append.mp hround with hold | hnew
      · exact hrounds round hold
      · rw [List.mem_singleton.mp hnew]
        exact .intro htail
    have hsince : subscription past q ++ (rounds.flatten ++ tail) ++ w'.trace =
        subscription past q ++ ((rounds ++ [tail ++ [Event.readMethod ackMethod]]).flatten ++ []) := by
      rw [htrace, List.flatten_append]
      simp
    have hopen : OpenRound waitValueDequeue .testRound [] := rfl
    have htook' : TookAcks bytes (subscription past q ++ (rounds.flatten ++ tail) ++ w'.trace)
        (th.after waitValueDequeue .testRound w') := by
      rw [htrace]
      exact htook.ack hm htaken.2 rfl
    exact .rounds hsince hrounds' hopen htook'
  | @reject reads _ _ _ htrace hreads =>
    have htrace : w'.trace = reads ++ [.removeSubscriber (th.world found).cs.currentQueue] := htrace
    have hclosing : IsClosing w'.trace := by
      intro event hevent
      rw [htrace] at hevent
      rcases List.mem_append.mp hevent with hread | hremove
      · exact Or.inl (hreads event hread)
      · exact Or.inr ⟨_, List.mem_singleton.mp hremove⟩
    have hsince : subscription past q ++ (rounds.flatten ++ tail) ++ w'.trace =
        subscription past q ++ (rounds.flatten ++ (tail ++ w'.trace)) := by
      rw [List.append_assoc, List.append_assoc]
    have hopen : OpenRound fail .testRound (tail ++ w'.trace) :=
      ⟨tail, w'.trace, rfl, htail, hclosing⟩
    have htook' : TookAcks bytes (subscription past q ++ (rounds.flatten ++ tail) ++ w'.trace)
        (th.after fail .testRound w') :=
      htook.refuse hm hclosing.counts.2 ((built_actions _).consumes _ _ _ haction) rfl rfl
    exact .rounds hsince hrounds hopen htook'
  | quiet hnext _ => cases hnext
  | declare hm' _ _ _ | consume hm' _ _ _ | enqueue hm' _ _ _ | subscribe hm' _ _ _ _ => cases hm'
  | publish hm' _ _ _ =>
    rcases hm' with hm' | hm'
    · cases hm'
    · cases hm'

/-- The step of a consumer with some deliveries behind it. -/
theorem Consuming.round (hrounds : ∀ round ∈ rounds, IsAcknowledged round)
    (htail : OpenRound th.conn.machine th.conn.point tail)
    (htook : TookAcks bytes (subscription past q ++ (rounds.flatten ++ tail)) th)
    (hstep : step grain th found = .ok th') :
    ∃ events, th'.trace = th.trace ++ events ∧
      Consuming past bytes (subscription past q ++ (rounds.flatten ++ tail) ++ events) th' := by
  cases step_cases hstep with
  | @dequeue p queue m' point' w' hm heffect hth' =>
    subst hth'
    rw [hm] at htail
    simp only [OpenRound] at htail
    have hmore : th.conn.machine ≠ fail := by rw [hm]; decide
    obtain ⟨hsocket, hcases⟩ := dequeueEffect_calls heffect
    refine ⟨w'.trace, rfl, ?_⟩
    rcases hcases with ⟨hpoint, rfl, rfl, taken, htrace⟩ | ⟨hpoint, rfl, htrace⟩ |
      ⟨-, hpoint, rfl, hpoint', htrace⟩
    · rw [hpoint, if_neg (by decide)] at htail
      apply Consuming.more hrounds htook hmore _ hsocket
      · rw [htail, htrace]
        exact ⟨some p, taken, rfl⟩
      · rw [htrace]
        simp [acksRead, world]
    · rw [if_pos hpoint] at htail
      apply Consuming.more hrounds htook hmore _ hsocket
      · rw [htrace, show (th.world found).trace = [] from rfl, List.append_nil]
        exact htail
      · rw [htrace]
        rfl
    · rw [if_neg hpoint] at htail
      apply Consuming.more hrounds htook hmore _ hsocket
      · rw [htail, htrace]
        simp [OpenRound, after, hpoint', world]
      · rw [htrace]
        rfl
  | @handler m' w' hdequeue hrunning haction hth' =>
    subst hth'
    refine ⟨w'.trace, rfl, ?_⟩
    have hmore := hrunning.2
    cases hm : th.conn.machine with
    | valueDequeueReceived =>
      rw [hm] at htail haction
      obtain ⟨q', taken, rfl⟩ := htail
      obtain ⟨body, -, rfl, hsends⟩ := actionValueDequeueReceived_sends haction
      have htrace : w'.trace = (deliveryFrames body).map Event.write := hsends.trace
      apply Consuming.more hrounds htook hmore _ hsends.socket
      · rw [htrace]
        exact .intro q' taken body
      · rw [htrace]
        simp [acksRead, deliveryFrames]
    | waitConsumeAck =>
      rw [hm] at htail haction
      exact Consuming.answered hrounds htail htook hmore haction
    | waitValueDequeue => exact absurd hm hdequeue
    | fail => exact absurd hm hmore
    | _ =>
      rw [hm] at htail
      cases htail

end Round

/-- A step of a consumer carries the conversation on. -/
theorem Consuming.step (h : Consuming past bytes since th)
    (hstep : Thread.step grain th found = .ok th') :
    ∃ events, th'.trace = th.trace ++ events ∧ Consuming past bytes (since ++ events) th' := by
  cases h with
  | accepted hm hpast hsince htook =>
    subst hsince
    exact Consuming.subscribe hm hpast htook hstep
  | rounds hsince hrounds htail htook =>
    subst hsince
    exact Consuming.round hrounds htail htook hstep

/-- The calls of a whole run are added one step after the other. -/
theorem Consuming.exec (h : Consuming past bytes since th) (stores : List Store)
    (hrun : exec (Thread.step grain) th stores = .ok th') :
    ∃ events, th'.trace = th.trace ++ events ∧ Consuming past bytes (since ++ events) th' := by
  induction stores generalizing th since with
  | nil =>
    cases hrun
    exact ⟨[], (List.append_nil _).symm, by rwa [List.append_nil]⟩
  | cons found stores ih =>
    obtain ⟨middle, hstep, hrest⟩ := exec_cons_eq_ok.mp hrun
    obtain ⟨first, hfirst, hmiddle⟩ := h.step hstep
    obtain ⟨later, hlater, hlast⟩ := ih hmiddle hrest
    refine ⟨first ++ later, by rw [hlater, hfirst, List.append_assoc], ?_⟩
    rwa [← List.append_assoc]

/-- The calls of a consumer are a conversation. -/
theorem Consuming.conversation (h : Consuming past bytes since th) : Conversation past since := by
  cases h with
  | accepted _ _ hsince _ =>
    rw [hsince]
    exact ⟨none, [], _, [], by simp, .intro none none [], by simp [IsClosing], List.nil_prefix⟩
  | @rounds q rounds tail hsince hrounds htail _ =>
    obtain ⟨last, closing, hlast, hclosing, hbegins⟩ := htail.exists_last
    refine ⟨q, rounds, last, closing, hrounds, hlast, hclosing, ?_⟩
    rw [hsince]
    exact (List.prefix_append_right_inj _).mpr ((List.prefix_append_right_inj _).mpr hbegins)

/-- The bytes that a consumer took since it subscribed are its acknowledgements. -/
theorem Consuming.tookAcks (h : Consuming past bytes since th) : TookAcks bytes since th := by
  cases h with
  | accepted _ _ _ htook => exact htook
  | rounds _ _ _ htook => exact htook

/-- At every point after Basic.Consume was accepted, between handlers or inside one, the
calls are a conversation, at most one delivery ahead of the acknowledgements; and the bytes
taken since are the Basic.Ack frames that were read, unless the connection has failed. -/
theorem one_unacknowledged (hm : th.conn.machine = basicConsumeReceived)
    (hsocket : th.conn.socket.Delivers bytes) {stores : List Store}
    (hrun : Foundations.exec (Thread.step grain) th stores = .ok th') :
    ∃ since, th'.trace = th.trace ++ since ∧ TookAcks bytes since th' ∧
      ∀ sofar, sofar <+: since →
        Conversation th.conn.cs.pastConsumeOkArgs sofar ∧ AtMostOneOpen sofar := by
  have hnone : TookAcks bytes [] th := ⟨[], [], bytes, rfl, by simp, rfl, hsocket, fun _ => rfl⟩
  obtain ⟨since, htrace, hconsuming⟩ := (Consuming.accepted hm rfl rfl hnone).exec stores hrun
  rw [List.nil_append] at hconsuming
  refine ⟨since, htrace, hconsuming.tookAcks, ?_⟩
  intro sofar hsofar
  have hconversation := hconsuming.conversation.of_prefix hsofar
  exact ⟨hconversation, hconversation.atMostOneOpen⟩

/-- The memory after some code has run on it. -/
def leaves {α : Type} (x : Shared α) (store : Store) : Store :=
  match x store with
  | .ok (_, store') => store'
  | .error _ => store

/-- A queue that holds one message. -/
def oneMessage : Store := leaves (createQueue [113] >>= fun q => qEnqueue (some q) [1]) initQueuePool

/-- The same queue with one subscriber. -/
def oneSubscriber : Store := leaves (qAddSubscriber (some 0) 0) oneMessage

/-- A consumer of that queue whose client will acknowledge one delivery. -/
def oneConsumer : Thread :=
  { conn :=
      { machine := basicConsumeReceived
        point := .testRound
        cs := { ConnectionState.initial 0 with currentQueue := some 0 }
        socket := Socket.chunk (methodFrame ackMethod (List.replicate 9 0)) }
    store := oneMessage
    trace := [] }

/-- A consumer that has acknowledged its only message waits for the next one. -/
theorem one_unacknowledged_oneConsumer :
    ∃ th, Foundations.exec (Thread.step .coarse) oneConsumer
        (oneMessage :: List.replicate 6 oneSubscriber) = .ok th ∧
      (th.conn.machine, bodiesSent th.trace, acksRead th.trace) = (waitValueDequeue, 1, 1) ∧
      ∃ since, th.trace = [] ++ since ∧
        TookAcks (methodFrame ackMethod (List.replicate 9 0)) since th ∧
        ∀ sofar, sofar <+: since → Conversation {} sofar ∧ AtMostOneOpen sofar := by
  have hrun : (Foundations.exec (Thread.step .coarse) oneConsumer
      (oneMessage :: List.replicate 6 oneSubscriber)).toOption.map (fun th =>
        (th.conn.machine, bodiesSent th.trace, acksRead th.trace)) =
      some (waitValueDequeue, 1, 1) := by decide +kernel
  obtain ⟨th, hth, hseen⟩ := exec_observed hrun
  have hsocket := Socket.chunk_delivers (methodFrame ackMethod (List.replicate 9 0))
  exact ⟨th, hth, hseen, one_unacknowledged rfl hsocket hth⟩

end Thread

end AmqpBroker
