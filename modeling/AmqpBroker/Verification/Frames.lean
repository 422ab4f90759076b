import AmqpBroker.Verification.Quiet

/-!
# Frames on the wire

The bytes of client frames in network order, and what the readers do with them for every
way the bytes may arrive: a complete frame, a frame that ends too early, and a frame
that is longer than the buffers.
-/

namespace AmqpBroker

open Foundations Program

/-- The seven bytes before the payload of a frame. -/
def encodeHeader (msgType : UInt8) (channel : UInt16) (length : ℕ) : List UInt8 :=
  msgType :: (toBE 2 channel.toNat ++ toBE 4 length)

/-- A frame with its end octet. -/
def encodeFrame (msgType : UInt8) (channel : UInt16) (payload : List UInt8) : List UInt8 :=
  encodeHeader msgType channel payload.length ++ payload ++ [frameEnd]

/-- The payload of a METHOD frame. -/
def encodeMethod (header : MethodHeader) (arguments : List UInt8) : List UInt8 :=
  toBE 2 header.classId.toNat ++ toBE 2 header.methodId.toNat ++ arguments

/-- The header in the first seven bytes of a frame. -/
def decodeHeader (bytes : List UInt8) : MessageHeader :=
  parseMessageHeader (Buffer.write (fun _ => 0) 0 bytes)

/-- The method in the first four bytes of a payload. -/
def decodeMethod (bytes : List UInt8) : MethodHeader :=
  ⟨UInt16.ofNat (ofBE (bytes.take 2)), UInt16.ofNat (ofBE ((bytes.drop 2).take 2))⟩

/-- The bytes that a reader asks for when the length field holds `length`. -/
def requested (length : UInt32) : ℕ := toSize (toInt length)

variable {w w' : World} {bytes payload rest : List UInt8} {length : UInt32}

/-- A frame header has seven bytes. -/
@[simp] theorem encodeHeader_length (msgType : UInt8) (channel : UInt16) (length : ℕ) :
    (encodeHeader msgType channel length).length = 7 := by
  simp [encodeHeader]

/-- A frame is eight bytes longer than its payload. -/
theorem encodeFrame_length (msgType : UInt8) (channel : UInt16) (payload : List UInt8) :
    (encodeFrame msgType channel payload).length = payload.length + 8 := by
  rw [encodeFrame, List.length_append, List.length_append, encodeHeader_length]
  simp only [List.length_cons, List.length_nil]
  omega

/-- Loading and converting a 16-bit field reads its bytes in network order. -/
theorem ntohs_loadU16 (buffer : Buffer) (offset : ℕ) :
    ntohs (loadU16 buffer offset) = UInt16.ofNat (ofBE (buffer.slice offset 2)) := by
  have hlt : ofLE (buffer.slice offset 2) < 2 ^ 16 := by
    have h := ofLE_lt (buffer.slice offset 2)
    rwa [Buffer.slice_length] at h
  have hswap := swapBytes_ofLE (buffer.slice offset 2)
  rw [Buffer.slice_length] at hswap
  rw [ntohs, loadU16, UInt16.toNat_ofNat', Nat.mod_eq_of_lt hlt, hswap]

/-- Loading and converting a 32-bit field reads its bytes in network order. -/
theorem ntohl_loadU32 (buffer : Buffer) (offset : ℕ) :
    ntohl (loadU32 buffer offset) = UInt32.ofNat (ofBE (buffer.slice offset 4)) := by
  have hlt : ofLE (buffer.slice offset 4) < 2 ^ 32 := by
    have h := ofLE_lt (buffer.slice offset 4)
    rwa [Buffer.slice_length] at h
  have hswap := swapBytes_ofLE (buffer.slice offset 4)
  rw [Buffer.slice_length] at hswap
  rw [ntohl, loadU32, UInt32.toNat_ofNat', Nat.mod_eq_of_lt hlt, hswap]

/-- The header depends on the seven bytes only. -/
theorem parseMessageHeader_write (buffer : Buffer) (hbytes : bytes.length = 7) :
    parseMessageHeader (buffer.write 0 bytes) = decodeHeader bytes := by
  have hslice : ∀ (b : Buffer) offset count, offset + count ≤ 7 →
      (b.write 0 bytes).slice offset count = (bytes.drop offset).take count := by
    intro b offset count hle
    have h := Buffer.slice_write b 0 offset count bytes (by omega)
    rwa [Nat.zero_add] at h
  have hpos : 0 < bytes.length := by omega
  have hfirst : ∀ b : Buffer, b.write 0 bytes 0 = bytes[0] := by
    intro b
    exact Buffer.write_apply_of_lt b 0 bytes 0 (by omega)
  simp only [decodeHeader, parseMessageHeader, ntohs_loadU16, ntohl_loadU32,
    hslice _ 1 2 (by omega), hslice _ 3 4 (by omega), hfirst]

/-- Decoding a header gives its fields back. -/
theorem decodeHeader_encodeHeader (msgType : UInt8) (channel : UInt16) (length : ℕ)
    (hlength : length < 2 ^ 32) :
    decodeHeader (encodeHeader msgType channel length) = ⟨msgType, channel, UInt32.ofNat length⟩ := by
  have hslice : ∀ offset count, offset + count ≤ 7 →
      (Buffer.write (fun _ => 0) 0 (encodeHeader msgType channel length)).slice offset count =
        ((encodeHeader msgType channel length).drop offset).take count := by
    intro offset count hle
    have h := Buffer.slice_write (fun _ => 0) 0 offset count (encodeHeader msgType channel length)
      (by rw [encodeHeader_length]; exact hle)
    rwa [Nat.zero_add] at h
  have hchannel : ((encodeHeader msgType channel length).drop 1).take 2 = toBE 2 channel.toNat := by
    simp [encodeHeader]
  have hlengthField : ((encodeHeader msgType channel length).drop 3).take 4 = toBE 4 length := by
    simp [encodeHeader]
  have hchannelLt : channel.toNat < 256 ^ 2 := channel.toNat_lt
  rw [decodeHeader, parseMessageHeader, ntohs_loadU16, ntohl_loadU32, hslice 1 2 (by omega),
    hslice 3 4 (by omega), hchannel, hlengthField, ofBE_toBE 2 _ hchannelLt, ofBE_toBE 4 _ hlength,
    UInt16.ofNat_toNat]
  rfl

/-- Decoding a method gives its two ids back. -/
theorem decodeMethod_encodeMethod (header : MethodHeader) (arguments : List UInt8) :
    decodeMethod (encodeMethod header arguments) = header := by
  have hclass : header.classId.toNat < 256 ^ 2 := header.classId.toNat_lt
  have hmethod : header.methodId.toNat < 256 ^ 2 := header.methodId.toNat_lt
  have hfirst : (encodeMethod header arguments).take 2 = toBE 2 header.classId.toNat := by
    simp [encodeMethod, List.append_assoc]
  have hsecond : ((encodeMethod header arguments).drop 2).take 2 = toBE 2 header.methodId.toNat := by
    simp [encodeMethod, List.append_assoc]
  rw [decodeMethod, hfirst, hsecond, ofBE_toBE 2 _ hclass, ofBE_toBE 2 _ hmethod,
    UInt16.ofNat_toNat, UInt16.ofNat_toNat]

/-- The request for a length below 2^31 is the length; beyond, it is close to 2^64. -/
theorem requested_eq (length : UInt32) :
    requested length =
      if length.toNat < 2 ^ 31 then length.toNat else length.toNat + (2 ^ 64 - 2 ^ 32) := by
  have hlt := length.toNat_lt
  unfold requested toSize toInt sizeRange
  split
  · omega
  · omega

/-- What is requested of `read` is a `size_t`. -/
theorem requested_lt (length : UInt32) : requested length < sizeRange := by
  have hlt := length.toNat_lt
  rw [requested_eq]
  unfold sizeRange
  split <;> omega

/-- A request never asks for less than the length field says. -/
theorem le_requested (length : UInt32) : length.toNat ≤ requested length := by
  rw [requested_eq]
  split <;> omega

/-- A request that fits the buffers is the length field itself. -/
theorem requested_of_le (h : length.toNat ≤ maxLine) : requested length = length.toNat := by
  have hmax : maxLine < 2 ^ 31 := by decide
  rw [requested_eq, if_pos (by omega)]

/-- What is left after some bytes were received. -/
theorem receive_delivers (h : w.socket.Delivers bytes) {count : ℕ} (hcount : count ≤ bytes.length) :
    (w.receive (bytes.take count)).socket.Delivers (bytes.drop count) := by
  have hadvance := h.advance count
  simpa only [World.receive, List.length_take, Nat.min_eq_left hcount] using hadvance

/-- A complete header is read as it is. -/
theorem readMessageHeader_complete (h : w.socket.Delivers bytes) (hbytes : 7 ≤ bytes.length) :
    readMessageHeader w = .ok (some (decodeHeader (bytes.take 7)), w.receive (bytes.take 7)) := by
  have hread := readUntil_complete h hbytes (by decide)
  rw [readMessageHeader, bind_of_ok hread, if_neg (by omega)]
  change Except.ok (some (parseMessageHeader (w.cs.recvline.write 0 (bytes.take 7))), _) = _
  rw [parseMessageHeader_write _ (by rw [List.length_take]; omega)]

/-- The header of a frame is read, and what follows it is next. -/
theorem readMessageHeader_of_part {header : List UInt8} (hheader : header.length = 7)
    (hw : w.socket.Delivers (header ++ payload)) :
    readMessageHeader w = .ok (some (decodeHeader header), w.receive header) ∧
      (w.receive header).socket.Delivers payload := by
  have hseven : 7 ≤ (header ++ payload).length := by
    rw [List.length_append]
    omega
  have hread := readMessageHeader_complete hw hseven
  have hrest := receive_delivers hw hseven
  rw [← hheader, List.take_left] at hread hrest
  rw [List.drop_left] at hrest
  exact ⟨hread, hrest⟩

/-- A header that ends too early is not read. -/
theorem readMessageHeader_short (h : w.socket.Delivers bytes) (hbytes : bytes.length < 7) :
    readMessageHeader w = .ok (none, w.receive bytes) := by
  have hmax : (7 : ℕ) ≤ maxLine := by decide
  have hread := readUntil_short h hbytes (by decide) (by omega)
  rw [readMessageHeader, bind_of_ok hread, if_pos (by omega)]
  rfl

/-- The world after a payload was received and parsed as a method. -/
def World.parsedMethod (w : World) (payload : List UInt8) : World :=
  let received := w.receive payload
  let copied := w.cs.parsed.write 0 (received.cs.recvline.slice 0 (payload.length + 3))
  let header := decodeMethod payload
  { received with
    cs := { received.cs with
      parsed := copied.write 0 (toLE 2 header.classId.toNat ++ toLE 2 header.methodId.toNat) } }

/-- A received payload of at least four bytes is parsed when the copy fits `parsed`. -/
theorem parseMethod_complete (hpayload : 4 ≤ payload.length) (hroom : payload.length + 3 ≤ maxLine) :
    parseMethod payload.length (w.receive payload) =
      .ok (some (decodeMethod payload), w.parsedMethod payload) := by
  have hmod : (payload.length + 3) % sizeRange = payload.length + 3 :=
    Nat.mod_eq_of_lt (lt_of_le_of_lt hroom (by decide))
  have hrange : checkRange 0 (payload.length + 3) (w.receive payload) =
      .ok ((), w.receive payload) := by
    rw [checkRange, if_pos (by omega)]
    rfl
  have hcopy : ∀ offset count, offset + count ≤ 4 →
      (w.cs.parsed.write 0 ((w.receive payload).cs.recvline.slice 0 (payload.length + 3))).slice
        offset count = (payload.drop offset).take count := by
    intro offset count hle
    have hparsed := Buffer.slice_write w.cs.parsed 0 offset count
      ((w.receive payload).cs.recvline.slice 0 (payload.length + 3))
      (by rw [Buffer.slice_length]; omega)
    rw [Nat.zero_add, Buffer.slice_append, Nat.zero_add] at hparsed
    rw [Buffer.slice_append, Nat.zero_add, hparsed, World.receive]
    simp only [Buffer.slice_write_zero _ _ _ le_rfl, List.take_length]
    rw [List.drop_append_of_le_length (by omega), List.take_append_of_le_length]
    rw [List.length_drop]
    omega
  have hheader : decodeMethod payload =
      ⟨ntohs (loadU16 (w.cs.parsed.write 0
          ((w.receive payload).cs.recvline.slice 0 (payload.length + 3))) 0),
        ntohs (loadU16 (w.cs.parsed.write 0
          ((w.receive payload).cs.recvline.slice 0 (payload.length + 3))) 2)⟩ := by
    rw [ntohs_loadU16, ntohs_loadU16, hcopy 0 2 (by omega), hcopy 2 2 (by omega)]
    rfl
  rw [parseMethod, if_neg (by omega), hmod, bind_of_ok hrange, World.parsedMethod, hheader]
  rfl

/-- The arguments of a parsed method are those of the payload. -/
theorem parsedMethod_arguments (w : World) (i : ℕ) (hlow : 4 ≤ i) (hhigh : i < payload.length) :
    (w.parsedMethod payload).cs.parsed i = payload[i] := by
  simp only [World.parsedMethod]
  rw [Buffer.write_apply_of_ge _ _ _ _ (by simpa using hlow)]
  have hslice : ((w.receive payload).cs.recvline.slice 0 (payload.length + 3)).getD i 0 =
      payload[i] := by
    rw [Buffer.slice_append, World.receive]
    simp only [Buffer.slice_write_zero _ _ _ le_rfl, List.take_length]
    rw [List.getD_append _ _ _ _ hhigh]
    simp [hhigh]
  have hlen : i < ((w.receive payload).cs.recvline.slice 0 (payload.length + 3)).length := by
    rw [Buffer.slice_length]
    omega
  have hwrite := Buffer.write_apply_of_lt w.cs.parsed 0
    ((w.receive payload).cs.recvline.slice 0 (payload.length + 3)) i hlen
  rw [Nat.zero_add] at hwrite
  rw [hwrite, ← hslice, List.getD_eq_getElem _ _ hlen]

/-- What is left of the stream after a method was parsed. -/
theorem parsedMethod_delivers (h : w.socket.Delivers bytes) {count : ℕ}
    (hcount : count ≤ bytes.length) :
    (w.parsedMethod (bytes.take count)).socket.Delivers (bytes.drop count) :=
  receive_delivers h hcount

/-- The world after a complete METHOD payload and its end octet were read. -/
def World.afterMethod (w : World) (payload : List UInt8) (endOctet : UInt8) : World :=
  { (w.parsedMethod payload).receive [endOctet] with
    trace := w.trace ++ [.readMethod (decodeMethod payload)] }

/-- A complete METHOD payload that fits the buffers is read as it is. -/
theorem readMethod_complete (h : w.socket.Delivers bytes) (hlong : 4 ≤ requested length)
    (hroom : requested length + 3 ≤ maxLine) (hbytes : requested length < bytes.length) :
    readMethod (toInt length) w = .ok (some (decodeMethod (bytes.take (requested length))),
      w.afterMethod (bytes.take (requested length)) bytes[requested length]) := by
  have hpayload : (bytes.take (requested length)).length = requested length := by
    rw [List.length_take]
    omega
  have hread := readUntil_complete h (Nat.le_of_lt hbytes) (by omega)
  have hparse := parseMethod_complete (w := w)
    (show 4 ≤ (bytes.take (requested length)).length by omega) (by omega)
  rw [hpayload] at hparse
  have hrest := parsedMethod_delivers h (Nat.le_of_lt hbytes)
  have hend := readUntil_complete hrest
    (show 1 ≤ (bytes.drop (requested length)).length by rw [List.length_drop]; omega) (by decide)
  have htake : (bytes.drop (requested length)).take 1 = [bytes[requested length]] := by
    rw [List.drop_eq_getElem_cons hbytes]
    rfl
  rw [htake] at hend
  unfold readMethod
  change ((readUntil (requested length)) >>= _) w = _
  rw [bind_of_ok hread]
  simp only [if_neg (show requested length ≠ 0 by omega)]
  rw [bind_of_ok hparse]
  simp only
  rw [bind_of_ok hend]
  rfl

/-- A METHOD payload that ends too early, or without its end octet, is not read. -/
theorem readMethod_cut (h : w.socket.Delivers bytes) (hbytes : bytes.length ≤ requested length)
    (hroom : bytes.length ≤ maxLine)
    (hcopy : bytes.length = requested length → requested length + 3 ≤ maxLine) :
    ∃ w', readMethod (toInt length) w = .ok (none, w') := by
  unfold readMethod
  change ∃ w', ((readUntil (requested length)) >>= _) w = _
  by_cases hshort : bytes.length < requested length
  · rw [bind_of_ok (readUntil_short h hshort (requested_lt length) hroom)]
    exact ⟨_, rfl⟩
  · have hequal : bytes.length = requested length := by omega
    have hread := readUntil_complete h (Nat.le_of_eq hequal.symm) (by omega)
    rw [bind_of_ok hread]
    by_cases hlong : 4 ≤ requested length
    · have hcount := hcopy hequal
      have hpayload : (bytes.take (requested length)).length = requested length := by
        rw [List.length_take]
        omega
      have hparse := parseMethod_complete (w := w)
        (show 4 ≤ (bytes.take (requested length)).length by omega) (by omega)
      rw [hpayload] at hparse
      have hrest := parsedMethod_delivers h (Nat.le_of_eq hequal.symm)
      have hend := readUntil_short hrest
        (show (bytes.drop (requested length)).length < 1 by rw [List.length_drop]; omega) (by decide)
        (by rw [List.length_drop]; omega)
      simp only [if_neg (show requested length ≠ 0 by omega)]
      rw [bind_of_ok hparse]
      simp only
      rw [bind_of_ok hend]
      exact ⟨_, rfl⟩
    · by_cases hzero : requested length = 0
      · simp only [hzero, if_true]
        exact ⟨_, rfl⟩
      · have hparse : parseMethod (requested length)
            (w.receive (bytes.take (requested length))) =
            .ok (none, w.receive (bytes.take (requested length))) := by
          rw [parseMethod, if_pos (by omega)]
          rfl
        simp only [if_neg hzero]
        rw [bind_of_ok hparse]
        exact ⟨_, rfl⟩

/-- A METHOD payload of less than four bytes is not read. -/
theorem readMethod_tiny (h : w.socket.Delivers bytes) (hsmall : requested length < 4)
    (hbytes : requested length ≤ bytes.length) :
    ∃ w', readMethod (toInt length) w = .ok (none, w') := by
  have hmax : (4 : ℕ) ≤ maxLine := by decide
  have hread := readUntil_complete h hbytes (by omega)
  unfold readMethod
  change ∃ w', ((readUntil (requested length)) >>= _) w = _
  rw [bind_of_ok hread]
  by_cases hzero : requested length = 0
  · simp only [hzero, if_true]
    exact ⟨_, rfl⟩
  · have hparse : parseMethod (requested length) (w.receive (bytes.take (requested length))) =
        .ok (none, w.receive (bytes.take (requested length))) := by
      rw [parseMethod, if_pos hsmall]
      rfl
    simp only [if_neg hzero]
    rw [bind_of_ok hparse]
    exact ⟨_, rfl⟩

/-- A METHOD payload that leaves `recvline`, or whose copy leaves `parsed`. -/
theorem readMethod_overrun (h : w.socket.Delivers bytes)
    (hover : maxLine < min (requested length) bytes.length ∨
      (requested length ≤ bytes.length ∧ maxLine < requested length + 3)) :
    readMethod (toInt length) w = .error .bufferRange := by
  have hmax : 4 + 3 ≤ maxLine := by decide
  unfold readMethod
  change ((readUntil (requested length)) >>= _) w = _
  by_cases hread : maxLine < min (requested length) bytes.length
  · exact bind_of_error (readUntil_overrun h (requested_lt length) (by omega) (by omega)) _
  · obtain ⟨hbytes, hcopy⟩ := hover.resolve_left hread
    rw [bind_of_ok (readUntil_complete h hbytes (by omega))]
    simp only [if_neg (show requested length ≠ 0 by omega)]
    apply bind_of_error
    have hmod : (requested length + 3) % sizeRange = requested length + 3 :=
      Nat.mod_eq_of_lt (lt_of_le_of_lt (show requested length + 3 ≤ maxLine + 3 by omega) (by decide))
    rw [parseMethod, if_neg (by omega), hmod]
    apply bind_of_error
    rw [checkRange, if_neg (by omega)]
    rfl

/-- A method is returned from a complete payload only, with its end octet behind it. -/
theorem readMethod_eq_some (h : w.socket.Delivers bytes) {method : MethodHeader}
    (hread : readMethod (toInt length) w = .ok (some method, w')) :
    ∃ (hbytes : requested length < bytes.length), 4 ≤ requested length ∧
      requested length + 3 ≤ maxLine ∧ method = decodeMethod (bytes.take (requested length)) ∧
      w' = w.afterMethod (bytes.take (requested length)) bytes[requested length] := by
  by_cases hover : maxLine < min (requested length) bytes.length ∨
      (requested length ≤ bytes.length ∧ maxLine < requested length + 3)
  · rw [readMethod_overrun h hover] at hread
    cases hread
  · by_cases hbytes : requested length < bytes.length
    · by_cases hlong : 4 ≤ requested length
      · rw [readMethod_complete h hlong (by omega) hbytes] at hread
        cases hread
        exact ⟨hbytes, hlong, by omega, rfl, rfl⟩
      · have hnone : ∃ v, readMethod (toInt length) w = .ok (none, v) :=
          readMethod_tiny h (by omega) (by omega)
        obtain ⟨v, hv⟩ := hnone
        rw [hv] at hread
        cases hread
    · have hnone : ∃ v, readMethod (toInt length) w = .ok (none, v) :=
        readMethod_cut h (by omega) (by omega) (by omega)
      obtain ⟨v, hv⟩ := hnone
      rw [hv] at hread
      cases hread

/-- The content header parser never stops and reads nothing from the socket. -/
theorem parseContentHeader_returns (n : ℕ) (w : World) :
    ∃ header w', parseContentHeader n w = .ok (header, w') ∧ w'.socket = w.socket := by
  have hrun : ∃ result, parseContentHeader n w = .ok result ∧ result.2.socket = w.socket := by
    unfold parseContentHeader
    split
    · exact ⟨_, rfl, rfl⟩
    · exact ⟨_, rfl, rfl⟩
  obtain ⟨⟨header, w'⟩, hrun, hsocket⟩ := hrun
  exact ⟨header, w', hrun, hsocket⟩

/-- A CONTENT_HEADER payload and its end octet are taken from the stream. -/
theorem readContentHeader_complete (h : w.socket.Delivers bytes)
    (hroom : requested length ≤ maxLine) (hbytes : requested length < bytes.length) :
    ∃ header w', readContentHeader (toInt length) w = .ok (header, w') ∧
      w'.socket.Delivers (bytes.drop (requested length + 1)) := by
  have hread := readUntil_complete h (Nat.le_of_lt hbytes) hroom
  obtain ⟨header, w₂, hparse, hsocket⟩ :=
    parseContentHeader_returns (requested length) (w.receive (bytes.take (requested length)))
  have hrest : w₂.socket.Delivers (bytes.drop (requested length)) := by
    rw [hsocket]
    exact receive_delivers h (Nat.le_of_lt hbytes)
  have hone : 1 ≤ (bytes.drop (requested length)).length := by
    rw [List.length_drop]
    omega
  have hend := readUntil_complete hrest hone (by decide)
  have hdelivers := receive_delivers hrest hone
  rw [List.drop_drop] at hdelivers
  refine ⟨header, w₂.receive ((bytes.drop (requested length)).take 1), ?_, hdelivers⟩
  unfold readContentHeader
  change ((readUntil (requested length)) >>= _) w = _
  rw [bind_of_ok hread]
  change ((parseContentHeader (requested length)) >>= _) _ = _
  rw [bind_of_ok hparse, bind_of_ok hend]
  rfl

/-- A CONTENT_HEADER payload that ends too early uses the stream up. -/
theorem readContentHeader_cut (h : w.socket.Delivers bytes)
    (hbytes : bytes.length ≤ requested length) (hroom : bytes.length ≤ maxLine) :
    ∃ header w', readContentHeader (toInt length) w = .ok (header, w') ∧ w'.socket.Delivers [] := by
  have hread : ∃ n, readUntil (requested length) w = .ok (n, w.receive bytes) := by
    by_cases hshort : bytes.length < requested length
    · exact ⟨0, readUntil_short h hshort (requested_lt length) hroom⟩
    · have hequal : bytes.length = requested length := by omega
      have hfull := readUntil_complete h (Nat.le_of_eq hequal.symm) (by omega)
      rw [← hequal, List.take_length] at hfull
      exact ⟨_, hequal ▸ hfull⟩
  obtain ⟨n, hread⟩ := hread
  obtain ⟨header, w₂, hparse, hsocket⟩ :=
    parseContentHeader_returns (requested length) (w.receive bytes)
  have hrest : w₂.socket.Delivers [] := by
    have hall := receive_delivers h (Nat.le_refl bytes.length)
    rw [List.take_length, List.drop_length] at hall
    rw [hsocket]
    exact hall
  have hend := readUntil_short hrest (show ([] : List UInt8).length < 1 by simp) (by decide)
    (by simp)
  have hdelivers := receive_delivers hrest (Nat.le_refl 0)
  refine ⟨none, w₂.receive [], ?_, by simpa using hdelivers⟩
  unfold readContentHeader
  change ((readUntil (requested length)) >>= _) w = _
  rw [bind_of_ok hread]
  change ((parseContentHeader (requested length)) >>= _) _ = _
  rw [bind_of_ok hparse, bind_of_ok hend]
  rfl

/-- A CONTENT_HEADER payload that leaves `recvline`. -/
theorem readContentHeader_overrun (h : w.socket.Delivers bytes)
    (hover : maxLine < min (requested length) bytes.length) :
    readContentHeader (toInt length) w = .error .bufferRange :=
  bind_of_error (readUntil_overrun h (requested_lt length) (by omega) (by omega)) _

/-- Below `INT_MAX` the length of a body is what the field holds. -/
theorem toInt_of_lt (h : length.toNat < 2 ^ 31) : toInt length = length.toNat := if_pos h

/-- A number that fits a `size_t` is unchanged. -/
theorem toSize_natCast {n : ℕ} (h : n < sizeRange) : toSize n = n := by
  unfold toSize
  rw [Int.emod_eq_of_lt (by omega) (by omega), Int.toNat_natCast]

/-- The count of a copy after a body was read. -/
theorem toSize_sizeToInt {n : ℕ} (h : n ≤ maxLine) : toSize (sizeToInt n) = n := by
  have hmax : maxLine < 2 ^ 31 := by decide
  have hsize : (2 : ℕ) ^ 31 < sizeRange := by decide
  have hnat : (UInt32.ofNat n).toNat = n := by
    rw [UInt32.toNat_ofNat']
    exact Nat.mod_eq_of_lt (by omega)
  rw [sizeToInt, toInt_of_lt (by omega), hnat]
  exact toSize_natCast (by omega)

/-- The world after `read_body` of these bytes, which end with the end octet. -/
def World.afterBody (w : World) (received : List UInt8) (length : ℕ) : World :=
  let received' := w.receive received
  { received' with
    cs := { received'.cs with parsed := (w.cs.parsed.write 0 received).write length [0] } }

/-- A complete BODY payload that fits the buffers is copied to `parsed`. -/
theorem readBody_complete (h : w.socket.Delivers bytes) (hroom : length.toNat + 1 ≤ maxLine)
    (hbytes : length.toNat < bytes.length) :
    readBody (toInt length) w =
      .ok ((), w.afterBody (bytes.take (length.toNat + 1)) length.toNat) := by
  have hmax : maxLine < 2 ^ 31 := by decide
  have hsize : (2 : ℕ) ^ 31 < sizeRange := by decide
  have hint := toInt_of_lt (show length.toNat < 2 ^ 31 by omega)
  have hread := readUntil_complete h (show length.toNat + 1 ≤ bytes.length by omega) hroom
  have hrequest : toSize (length.toNat + 1) = length.toNat + 1 :=
    toSize_natCast (n := length.toNat + 1) (by omega)
  have hcopied : (w.receive (bytes.take (length.toNat + 1))).cs.recvline.slice 0 (length.toNat + 1) =
      bytes.take (length.toNat + 1) := by
    have hlen : (bytes.take (length.toNat + 1)).length = length.toNat + 1 := by
      rw [List.length_take]
      omega
    rw [World.receive]
    simp only
    rw [Buffer.slice_write_zero _ _ _ (Nat.le_of_eq hlen.symm), List.take_take, Nat.min_self]
  have hrange : ∀ v : World, checkRange 0 (length.toNat + 1) v = .ok ((), v) := by
    intro v
    rw [checkRange, if_pos (by omega)]
    rfl
  have hlast : ∀ v : World, checkRange length.toNat 1 v = .ok ((), v) := by
    intro v
    rw [checkRange, if_pos hroom]
    rfl
  have hnonneg : ¬ (length.toNat : ℤ) < 0 := by omega
  rw [hint, readBody, if_neg (by unfold intMax; omega), hrequest, bind_of_ok hread]
  simp only [toSize_sizeToInt hroom]
  rw [bind_of_ok (hrange _)]
  simp only [if_neg hnonneg, Int.toNat_natCast]
  rw [assign_bind_apply, bind_of_ok (hlast _), hcopied]
  rfl

/-- A BODY payload that ends too early leaves `parsed` as it was, but for one zero byte. -/
theorem readBody_cut (h : w.socket.Delivers bytes) (hroom : length.toNat + 1 ≤ maxLine)
    (hbytes : bytes.length ≤ length.toNat) :
    readBody (toInt length) w = .ok ((), { w.receive bytes with
      cs := { (w.receive bytes).cs with parsed := w.cs.parsed.write length.toNat [0] } }) := by
  have hmax : maxLine < 2 ^ 31 := by decide
  have hsize : (2 : ℕ) ^ 31 < sizeRange := by decide
  have hint := toInt_of_lt (show length.toNat < 2 ^ 31 by omega)
  have hread := readUntil_short h (show bytes.length < length.toNat + 1 by omega) (by omega) (by omega)
  have hrequest : toSize (length.toNat + 1) = length.toNat + 1 :=
    toSize_natCast (n := length.toNat + 1) (by omega)
  have hrange : ∀ v : World, checkRange 0 0 v = .ok ((), v) := fun v => rfl
  have hlast : ∀ v : World, checkRange length.toNat 1 v = .ok ((), v) := by
    intro v
    rw [checkRange, if_pos hroom]
    rfl
  have hnonneg : ¬ (length.toNat : ℤ) < 0 := by omega
  rw [hint, readBody, if_neg (by unfold intMax; omega), hrequest, bind_of_ok hread]
  simp only [toSize_sizeToInt (Nat.zero_le maxLine)]
  rw [bind_of_ok (hrange _)]
  simp only [if_neg hnonneg, Int.toNat_natCast]
  rw [assign_bind_apply, bind_of_ok (hlast _)]
  simp only [Buffer.slice, Buffer.write_nil]
  rfl

/-- A body length that does not leave room for the terminator stops `read_body` on every
stream. -/
theorem readBody_overrun (h : w.socket.Delivers bytes) (hover : maxLine ≤ length.toNat) :
    ∃ reason, readBody (toInt length) w = .error reason ∧
      (reason = .bufferRange ∨ reason = .signedOverflow) := by
  have hlt := length.toNat_lt
  have hmax : maxLine < 2 ^ 31 := by decide
  have hsize : sizeRange = 2 ^ 64 := rfl
  by_cases hoverflow : intMax < toInt length + 1
  · exact ⟨.signedOverflow, by rw [readBody, if_pos hoverflow]; rfl, Or.inr rfl⟩
  · refine ⟨.bufferRange, ?_, Or.inl rfl⟩
    rw [readBody, if_neg hoverflow]
    have hrequest : toSize (toInt length + 1) < sizeRange := by
      unfold toSize
      rw [hsize]
      omega
    -- whatever the read returns, the terminator is out of range
    have htail : ∀ v : World, ((if toInt length < 0 then Program.stop .bufferRange else do
        checkRange (toInt length).toNat 1
        assign fun cs => { cs with parsed := cs.parsed.write (toInt length).toNat [0] } :
        Action Unit) v) = .error .bufferRange := by
      intro v
      split
      · rfl
      · rename_i hnonneg
        have hint : length.toNat < 2 ^ 31 := by
          unfold toInt at hnonneg
          split at hnonneg <;> omega
        rw [toInt_of_lt hint, Int.toNat_natCast]
        apply bind_of_error
        rw [checkRange, if_neg (by omega)]
        rfl
    by_cases hread : maxLine < min (toSize (toInt length + 1)) bytes.length
    · exact bind_of_error (readUntil_overrun h hrequest (by omega) (by omega)) _
    · have hsome : ∃ n, n ≤ maxLine ∧ ∃ v, readUntil (toSize (toInt length + 1)) w = .ok (n, v) := by
        by_cases hfull : toSize (toInt length + 1) ≤ bytes.length
        · exact ⟨_, by omega, _, readUntil_complete h hfull (by omega)⟩
        · exact ⟨0, by omega, _, readUntil_short h (by omega) hrequest (by omega)⟩
      obtain ⟨n, hn, v, hread⟩ := hsome
      rw [bind_of_ok hread]
      simp only [toSize_sizeToInt hn]
      have hrange : checkRange 0 n v = .ok ((), v) := by
        rw [checkRange, if_pos (by omega)]
        rfl
      rw [bind_of_ok hrange, assign_bind_apply]
      exact htail _

/-- The string in a buffer that was terminated at `length`. -/
theorem cstring_terminated (buffer : Buffer) {length : ℕ} (hroom : length < maxLine) :
    (buffer.write length [0]).cstring maxLine 0 =
      some ((buffer.slice 0 length).takeWhile (· ≠ 0)) := by
  have hend : (buffer.write length [0]) (0 + length) = 0 := by
    have h := Buffer.write_apply_of_lt buffer length [0] 0 (by simp)
    rw [Nat.zero_add]
    exact h
  rw [Buffer.cstring_eq_takeWhile _ 0 length maxLine hend hroom]
  congr 2
  apply Buffer.slice_congr
  intro i _ hi
  exact Buffer.write_apply_of_before _ _ _ _ (by omega)

/-- The body that `q_enqueue` is given after a complete BODY payload. -/
theorem afterBody_string (w : World) {received : List UInt8} {length : ℕ} (hroom : length < maxLine)
    (hreceived : length ≤ received.length) :
    (w.afterBody received length).cs.parsed.cstring maxLine 0 =
      some ((received.take length).takeWhile (· ≠ 0)) := by
  rw [World.afterBody]
  simp only
  rw [cstring_terminated _ hroom, Buffer.slice_write_zero _ _ _ hreceived]

end AmqpBroker
