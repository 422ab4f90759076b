import AmqpBroker.Verification.Closing

/-!
# The answer to Queue.Declare

Declare-Ok repeats the declared name and counts the messages of its queue. Its arguments
are put together in a local array from the sizes of a packed struct with a one-byte tail,
the length of the name and the two counters; they come out without a gap for every name.
-/

namespace AmqpBroker

open Foundations Program MachineState

/-- Declare-Ok. -/
def declareOkMethod : MethodHeader := ⟨ClassId.queue, MethodId.queueDeclareOk⟩

/-- A short string and two counters in network order. -/
def encodeDeclareOk (name : List UInt8) (messageCount consumerCount : ℕ) : List UInt8 :=
  shortString name ++ toBE 4 messageCount ++ toBE 4 consumerCount

/-- What a client makes of the arguments of Declare-Ok, if they have the right length. -/
def decodeDeclareOk : List UInt8 → Option (List UInt8 × ℕ × ℕ)
  | [] => none
  | size :: bytes =>
    if bytes.length = size.toNat + 8 then
      some (bytes.take size.toNat, ofBE ((bytes.drop size.toNat).take 4),
        ofBE (bytes.drop (size.toNat + 4)))
    else none

variable {grain : Grain} {s s' : Broker} {t : ℤ} {c : Conn} {q : ℕ} {w w' : World}
  {name arguments : List UInt8} {messageCount consumerCount : UInt32} {array : Buffer}

/-- A client reads back what was encoded. -/
theorem decodeDeclareOk_encodeDeclareOk (hname : name.length < 256)
    (messageCount consumerCount : UInt32) :
    decodeDeclareOk (encodeDeclareOk name messageCount.toNat consumerCount.toNat) =
      some (name, messageCount.toNat, consumerCount.toNat) := by
  have hmessages : messageCount.toNat < 256 ^ 4 := messageCount.toNat_lt
  have hconsumers : consumerCount.toNat < 256 ^ 4 := consumerCount.toNat_lt
  have hfour : (toBE 4 messageCount.toNat).length = 4 := toBE_length _ _
  simp only [encodeDeclareOk, shortString, List.cons_append, decodeDeclareOk,
    toNat_shortString_length hname]
  rw [if_pos (by simp), List.append_assoc, List.take_left, List.drop_left,
    ← List.append_assoc, List.drop_left' (by rw [List.length_append, hfour]),
    List.take_left' hfour, ofBE_toBE _ _ hmessages, ofBE_toBE _ _ hconsumers]

/-- The counters overwrite the terminator of the name. -/
theorem write_declareOk (array : Buffer) (name : List UInt8) (m k : ℕ) :
    (array.write 0 (shortString name ++ [0])).write (name.length + 1) (toBE 4 m ++ toBE 4 k) =
      array.write 0 (encodeDeclareOk name m k) := by
  have hsplit : ∀ after, array.write 0 (shortString name ++ after) =
      (array.write 0 (shortString name)).write (name.length + 1) after := by
    intro after
    have happend := Buffer.write_write_append array 0 (shortString name) after
    rw [Nat.zero_add] at happend
    exact happend.symm
  have hle : ([0] : List UInt8).length ≤ (toBE 4 m ++ toBE 4 k).length := by simp
  rw [encodeDeclareOk, List.append_assoc, hsplit, hsplit, Buffer.write_write_of_le _ _ hle]

/-- The arguments are the name, its size octet and two counters. -/
theorem length_encodeDeclareOk (name : List UInt8) (m k : ℕ) :
    (encodeDeclareOk name m k).length = name.length + 9 := by
  simp [encodeDeclareOk, shortString]

/-- The arguments are read back from the array as they were filled in. -/
theorem slice_encodeDeclareOk (array : Buffer) (name : List UInt8) (m k : ℕ) :
    (array.write 0 (encodeDeclareOk name m k)).slice 0 (name.length + 9) =
      encodeDeclareOk name m k := by
  have hlength := length_encodeDeclareOk name m k
  rw [← hlength, Buffer.slice_write_zero _ _ _ le_rfl, List.take_length]

/-- Bytes that fit the array are filled in. -/
theorem putBytes_of_le {room offset : ℕ} {bytes : List UInt8} (h : offset + bytes.length ≤ room)
    (array : Buffer) : putBytes room offset bytes array = .ok ((), array.write offset bytes) := by
  rw [putBytes, if_pos h]

/-- Bytes of the array are read. -/
theorem getBytes_of_le {room offset count : ℕ} (h : offset + count ≤ room) (array : Buffer) :
    getBytes room offset count array = .ok (array.slice offset count, array) := by
  rw [getBytes, if_pos h]

/-- A name and its terminator that fit are stored behind the size of the name. -/
theorem fillShortString_of_lt {room : ℕ} (h : name.length + 1 < room) (array : Buffer) :
    fillShortString room name array =
      .ok (name.length, array.write 0 (shortString name ++ [0])) := by
  have happend : (array.write 0 [UInt8.ofNat name.length]).write 1 (name ++ [0]) =
      array.write 0 (shortString name ++ [0]) :=
    Buffer.write_write_append array 0 [UInt8.ofNat name.length] (name ++ [0])
  have hsize : 0 + [UInt8.ofNat name.length].length ≤ room := by
    rw [List.length_singleton]
    omega
  have hname : 1 + (name ++ [0]).length ≤ room := by
    rw [List.length_append, List.length_singleton]
    omega
  rw [fillShortString, bind_of_ok (putBytes_of_le hsize array), bind_of_ok (putBytes_of_le hname _),
    happend, pure_apply]

/-- Every index used on the array of 300 bytes is in range, and the arguments that come out are
a short string and two counters, whatever the array held at first. -/
theorem fillDeclareOkArgs_eq (hname : name.length < 256) (messageCount consumerCount : UInt32)
    (array : Buffer) : ∃ array', fillDeclareOkArgs name messageCount consumerCount array =
      .ok (encodeDeclareOk name messageCount.toNat consumerCount.toNat, array') := by
  have hroom : name.length + 9 ≤ declareOkRoom := by
    rw [declareOkRoom]
    omega
  have hoffset : shortStringSize + name.length - 1 = name.length + 1 := by
    rw [shortStringSize]
    omega
  have hcounts : (toBE 4 messageCount.toNat ++ toBE 4 consumerCount.toNat).length = 8 := by simp
  rw [fillDeclareOkArgs, bind_of_ok (fillShortString_of_lt (by omega) array)]
  simp only [toLE_ntohl, hoffset, hcounts]
  rw [bind_of_ok (putBytes_of_le (by rw [hcounts]; omega) _), write_declareOk,
    getBytes_of_le (by omega), slice_encodeDeclareOk]
  exact ⟨_, rfl⟩

/-- `send_queue_declare_ok` sends these arguments. -/
theorem sendQueueDeclareOk_eq (hname : name.length < 256) (channel : UInt16)
    (messageCount consumerCount : UInt32) :
    sendQueueDeclareOk channel name messageCount consumerCount =
      sendMethod declareOkMethod channel
        (encodeDeclareOk name messageCount.toNat consumerCount.toNat) := by
  obtain ⟨array', hfill⟩ := fillDeclareOkArgs_eq hname messageCount consumerCount fun _ => 0
  rw [sendQueueDeclareOk, onLocal_of_ok hfill, pure_bind]
  rfl

/-- `send_queue_declare_ok` writes one METHOD frame. -/
theorem sendQueueDeclareOk_sends (hname : name.length < 256) (channel : UInt16)
    (messageCount consumerCount : UInt32) (hreturns : w.WritesReturn) :
    ∃ w', sendQueueDeclareOk channel name messageCount consumerCount w = .ok ((), w') ∧
      Sends [encodeFrame MsgFormat.method channel (encodeMethod declareOkMethod
        (encodeDeclareOk name messageCount.toNat consumerCount.toNat))] w w' ∧
      w'.store = w.store := by
  have hlength := length_encodeDeclareOk name messageCount.toNat consumerCount.toNat
  have hmax : (300 : ℕ) < maxLine := by decide
  obtain ⟨w', hsend⟩ : ∃ w', sendMethod declareOkMethod channel
      (encodeDeclareOk name messageCount.toNat consumerCount.toNat) w = .ok ((), w') := by
    apply sendFrame_returns _ hreturns
    simp [unparseMessageHeader, unparseMethodHeader, hlength]
    omega
  rw [sendQueueDeclareOk_eq hname]
  exact ⟨w', hsend, sendMethod_sends hsend, (keeps_sendMethod _ _ _ _ _ _ hsend).store⟩

/-- An `int` that counts messages is passed on as it is. -/
theorem toNat_ofInt_of_lt {count : ℕ} (h : count < 2 ^ 31) : (UInt32.ofInt count).toNat = count := by
  rw [UInt32.ofInt, UInt32.toNat_ofNat']
  omega

/-- The answer to Queue.Declare repeats the name and counts the messages of the queue. -/
theorem actionQueueDeclareReceived_echoes (hlists : ListsOk w.store)
    (hlive : Live w.store.queues q) (hqueue : w.cs.currentQueue = some q)
    (hname : w.cs.currentQueueName.cstring maxQueueName 0 = some name)
    (hcount : (w.store.messages q).length < 2 ^ 31) (hreturns : w.WritesReturn) :
    ∃ w', actions queueDeclareReceived w = .ok (waitFunctional, w') ∧
      Sends [encodeFrame MsgFormat.method 1 (encodeMethod declareOkMethod
        (encodeDeclareOk name (w.store.messages q).length 0))] w w' := by
  obtain ⟨queue, hcell⟩ := hlive
  have hsize : onStore (qSize (some q)) w = .ok (((w.store.messages q).length : ℤ), w) :=
    onStore_of_ok (qSize_spec hlists hcell)
  have hlength : name.length < 256 := Buffer.cstring_length_lt _ _ _ _ hname
  obtain ⟨w', hsend, hsends, -⟩ := sendQueueDeclareOk_sends hlength 1
    (UInt32.ofInt (w.store.messages q).length) 0 hreturns
  rw [toNat_ofInt_of_lt hcount] at hsends
  refine ⟨w', ?_, hsends⟩
  change actionQueueDeclareReceived w = _
  rw [actionQueueDeclareReceived, field_bind_apply, hqueue, bind_of_ok hsize, field_bind_apply, hname]
  simp only
  rw [bind_of_ok hsend, pure_apply]

namespace Broker

/-- The next step of the connection sends one frame: Declare-Ok on channel 1, whose arguments
decode as this name and these counts, put together within the bounds of their array. -/
def Echoes (grain : Grain) (s : Broker) (t : ℤ) (name : List UInt8)
    (messageCount consumerCount : ℕ) : Prop :=
  ∃ s' arguments, Broker.step grain s (.run t) = .ok s' ∧
    s.Sent s' t [encodeFrame MsgFormat.method 1 (encodeMethod declareOkMethod arguments)] ∧
    decodeDeclareOk arguments = some (name, messageCount, consumerCount) ∧
    ∀ array, ∃ array', fillDeclareOkArgs name (UInt32.ofNat messageCount)
      (UInt32.ofNat consumerCount) array = .ok (arguments, array')

/-- A connection that has declared a name is about to answer with it. -/
theorem echoes_of_declared (hok : s.Ok) (hc : s.conns t = some c)
    (hm : c.machine = queueDeclareReceived) (hqueue : c.cs.currentQueue = some q)
    (hname : c.cs.currentQueueName.cstring maxQueueName 0 = some name)
    (hcount : (s.store.messages q).length < 2 ^ 31) (grain : Grain) :
    s.Echoes grain t name (s.store.messages q).length 0 := by
  have hlength : name.length < 256 := Buffer.cstring_length_lt _ _ _ _ hname
  obtain ⟨w', haction, hsends⟩ := actionQueueDeclareReceived_echoes (w := s.world c) hok.lists
    (hok.chosen t c q hc hqueue) hqueue hname hcount (s.world_writesReturn c)
  have hstep := step_run_of_machine hc hm (by decide) (by decide) haction grain
  have htrace : w'.trace = [encodeFrame MsgFormat.method 1 (encodeMethod declareOkMethod
      (encodeDeclareOk name (s.store.messages q).length 0))].map Event.write := hsends.trace
  have hsent := s.sent_commit htrace t waitFunctional .testRound
  rw [framesSent_map_write] at hsent
  have hmessages : (UInt32.ofNat (s.store.messages q).length).toNat = (s.store.messages q).length :=
    toNat_ofNat_length (by omega)
  have hdecode := decodeDeclareOk_encodeDeclareOk hlength
    (UInt32.ofNat (s.store.messages q).length) 0
  rw [hmessages] at hdecode
  refine ⟨_, _, hstep, hsent, hdecode, fun array => ?_⟩
  obtain ⟨array', hfill⟩ :=
    fillDeclareOkArgs_eq hlength (UInt32.ofNat (s.store.messages q).length) 0 array
  rw [hmessages] at hfill
  exact ⟨array', hfill⟩

end Broker

/-- Declare-Ok echoes the declaration. In every reachable state, a connection that finds a
Queue.Declare of up to 255 non-zero bytes creates the queue of the name, and then, whatever
the other connections have put into the queue and taken out of it, its next step sends the
declared name, the number of messages in the queue and no consumers. -/
theorem declareOk_echoes (hs : Reaches (Broker.step grain) (fun _ _ => True) Broker.initial s)
    (hname : name.length ≤ 255) (hzero : (0 : UInt8) ∉ name) (hdeclares : s.Declares t name) :
    ∃ s₁ q, Broker.step grain s (.run t) = .ok s₁ ∧
      (∃ store', createQueue name s.store = .ok (q, store')) ∧
      ∀ s₂, Reaches (Broker.step grain) (fun _ act => ∀ writes, act ≠ .run t writes) s₁ s₂ →
        (s₂.store.messages q).length < 2 ^ 31 →
        MapsTo s₂.store name (some q) ∧
          s₂.Echoes grain t name (s₂.store.messages q).length 0 := by
  obtain ⟨s₁, c, q, hstep, hcreate, hc, hm, hqueue, hstring, hq⟩ :=
    Broker.step_declares hname hzero (Broker.ok_of_reaches hs) hdeclares grain
  have hok := (Broker.ok_of_reaches hs).step hstep
  refine ⟨s₁, q, hstep, hcreate, fun s₂ hreaches hcount => ?_⟩
  obtain ⟨hok₂, hq₂⟩ := Broker.queueOf_reaches hok hreaches hq
  have hc₂ := hreaches.invariant (P := fun s => s.conns t = some c) hc
    fun _ _ _ hc hact hnext => Broker.conns_kept hc (by rw [hm]; decide) hact hnext
  exact ⟨(mapsTo_iff hok₂.pool).mpr hq₂.symm,
    Broker.echoes_of_declared hok₂ hc₂ hm hqueue hstring hcount grain⟩

/-- One client is about to publish "h" to the queue "q" when another is about to declare it. -/
def publishBesideDeclare : List Act :=
  session 1 (openingFrames ++ declareFrame [113] ++ publishStream [] [113] 0 [] [[104]]) 14 ++
    session 0 (openingFrames ++ declareFrame [113]) 9

/-- The message arrives between the Queue.Declare and its answer, and is counted. -/
theorem declareOk_echoes_publishBesideDeclare :
    ∃ s s₁ s₂, Reaches (Broker.step .fine) (fun _ _ => True) Broker.initial s ∧
      s.Declares 0 [113] ∧ Broker.step .fine s (.run 0) = .ok s₁ ∧
      Reaches (Broker.step .fine) (fun _ act => ∀ writes, act ≠ .run 0 writes) s₁ s₂ ∧
      s₂.Echoes .fine 0 [113] 1 0 := by
  have hobserved : (exec (Broker.step .fine) Broker.initial publishBesideDeclare).toOption.map
      (Broker.nextMethod 9) = some (some (waitFunctional, some (some declareMethod,
        [0, 0] ++ shortString [113] ++ [0, 0, 0, 0, 0]))) := by decide +kernel
  have hcreated : (exec (Broker.step .fine) Broker.initial publishBesideDeclare).toOption.map
      (fun s => (createQueue [113] s.store).toOption.map Prod.fst) = some (some 0) := by
    decide +kernel
  have hobserved₂ : (exec (Broker.step .fine) Broker.initial
      (publishBesideDeclare ++ [.run 0, .run 1])).toOption.map
        (fun s => (s.store.messages 0).length) = some 1 := by decide +kernel
  obtain ⟨s, hrun, hmethod⟩ := exec_observed hobserved
  obtain ⟨s', hrun', hfirst⟩ := exec_observed hcreated
  obtain rfl := Except.ok.inj (hrun.symm.trans hrun')
  have hreaches := reaches_of_exec hrun
  have hdeclares : s.Declares 0 [113] :=
    ⟨_, ⟨[0, 0], [0, 0, 0, 0, 0], rfl, rfl⟩, Broker.finds_of_nextMethod hmethod⟩
  obtain ⟨s₁, q, hstep, ⟨store', hcreate⟩, hanswer⟩ :=
    declareOk_echoes hreaches (by decide) (by decide) hdeclares
  rw [hcreate] at hfirst
  obtain rfl : q = 0 := Option.some.inj hfirst
  obtain ⟨s₂, hrun₂, hcount⟩ := exec_observed hobserved₂
  obtain ⟨s', hrun', hrest⟩ := exec_append_eq_ok.mp hrun₂
  obtain rfl := Except.ok.inj (hrun.symm.trans hrun')
  obtain ⟨m, hstep', hrest⟩ := exec_cons_eq_ok.mp hrest
  obtain rfl := Except.ok.inj (hstep.symm.trans hstep')
  obtain ⟨m', hlast, hnil⟩ := exec_cons_eq_ok.mp hrest
  obtain rfl := Except.ok.inj hnil
  have hbetween : Reaches (Broker.step .fine) (fun _ act => ∀ writes, act ≠ .run 0 writes) s₁ m' :=
    .tail .refl (by simp) hlast
  obtain ⟨-, hechoes⟩ := hanswer m' hbetween (by rw [hcount]; decide)
  rw [hcount] at hechoes
  exact ⟨s, s₁, m', hreaches, hdeclares, hstep, hbetween, hechoes⟩

end AmqpBroker
