import AmqpBroker.Verification.Exchange

/-!
# The content header on the wire

`swipe_endianness_64` masks the lower half of its argument with `0xffff`. The sender
loses the third and fourth byte of a body size from the right, the reader the two bytes in
front of these, so the codec is exact for the body sizes that have neither.
-/

namespace AmqpBroker

open Foundations Program MachineState

/-- The fields of a content header in network order. -/
def encodeContentHeader (header : ContentHeader) : List UInt8 :=
  toBE 2 header.classId.toNat ++ toBE 2 header.weight.toNat ++ toBE 8 header.bodySize.toNat ++
    toBE 2 header.propertyFlags.toNat

/-- `parse_content_header` reads this header from these bytes, whatever else it finds. -/
def ParsesTo (bytes : List UInt8) (header : ContentHeader) : Prop :=
  ∀ w n, 14 ≤ n → w.cs.recvline.slice 0 14 = bytes →
    ∃ w', parseContentHeader n w = .ok (some header, w')

/-- The header is written in network order and read back. -/
def CodecHolds (header : ContentHeader) : Prop :=
  unparseContentHeader header = encodeContentHeader header ∧
    ParsesTo (encodeContentHeader header) header

/-- The body size that a CONTENT_HEADER frame announces. -/
def announcedSize (frame : List UInt8) : ℕ := ofBE ((frame.drop 11).take 8)

/-- The body size that arrives when this one is sent. -/
def sentSize (n : ℕ) : ℕ := n / 2 ^ 32 * 2 ^ 32 + n % 2 ^ 16

/-- The body size that is read when this one arrives. -/
def readSize (n : ℕ) : ℕ := n / 2 ^ 48 * 2 ^ 48 + n % 2 ^ 32

/-- What the reader makes of the bytes of a content header. -/
def decodeContentHeader (bytes : List UInt8) : ContentHeader where
  classId := UInt16.ofNat (ofBE (bytes.take 2))
  weight := UInt16.ofNat (ofBE ((bytes.drop 2).take 2))
  bodySize := swipeEndianness64 (UInt64.ofNat (ofLE ((bytes.drop 4).take 8)))
  propertyFlags := UInt16.ofNat (ofBE ((bytes.drop 12).take 2))

variable {w w' : World} {header : ContentHeader} {bytes body : List UInt8} {m' : MachineState}
  {n : ℕ}

/-- The two halves of a swapped number. -/
theorem swipeEndianness64_toNat (n : UInt64) :
    (swipeEndianness64 n).toNat = (ntohl (UInt32.ofNat (n.toNat / 2 ^ 32))).toNat +
      256 ^ 4 * (ntohl (UInt32.ofNat (n.toNat % 2 ^ 16))).toNat := by
  have hleft : (n >>> 32).toUInt32 = UInt32.ofNat (n.toNat / 2 ^ 32) := by
    apply UInt32.toNat_inj.mp
    simp [Nat.shiftRight_eq_div_pow]
  have hright : (n &&& 0xffff).toUInt32 = UInt32.ofNat (n.toNat % 2 ^ 16) := by
    apply UInt32.toNat_inj.mp
    have hmask := Nat.and_two_pow_sub_one_eq_mod n.toNat 16
    rw [UInt64.toNat_toUInt32, UInt64.toNat_and, UInt32.toNat_ofNat', ← hmask]
    rfl
  rw [swipeEndianness64, hleft, hright]
  generalize ntohl (UInt32.ofNat (n.toNat / 2 ^ 32)) = low
  generalize ntohl (UInt32.ofNat (n.toNat % 2 ^ 16)) = high
  have hlow := low.toNat_lt
  have hhigh := high.toNat_lt
  have hshift : high.toNat <<< 32 % 2 ^ 64 = 2 ^ 32 * high.toNat := by
    rw [Nat.shiftLeft_eq]
    omega
  rw [UInt64.toNat_or, UInt64.toNat_shiftLeft, UInt32.toNat_toUInt64, UInt32.toNat_toUInt64]
  change high.toNat <<< 32 % 2 ^ 64 ||| low.toNat = _
  rw [hshift, ← Nat.two_pow_add_eq_or_of_lt hlow, Nat.add_comm]
  rfl

/-- A swapped number in memory. -/
theorem toLE_swipeEndianness64 (n : UInt64) :
    toLE 8 (swipeEndianness64 n).toNat = toBE 8 (sentSize n.toNat) := by
  have hlt := n.toNat_lt
  have hhigh : n.toNat / 2 ^ 32 < 2 ^ 32 := by omega
  have hlow : n.toNat % 2 ^ 16 < 2 ^ 32 := by omega
  have hright : (ntohl (UInt32.ofNat (n.toNat / 2 ^ 32))).toNat < 256 ^ 4 := UInt32.toNat_lt _
  have hupper : sentSize n.toNat / 256 ^ 4 = n.toNat / 2 ^ 32 := by
    unfold sentSize
    omega
  have hlower : sentSize n.toNat = n.toNat % 2 ^ 16 + 256 ^ 4 * (n.toNat / 2 ^ 32) := by
    unfold sentSize
    omega
  have hwire : toBE 8 (sentSize n.toNat) =
      toBE 4 (n.toNat / 2 ^ 32) ++ toBE 4 (n.toNat % 2 ^ 16) := by
    rw [show 8 = 4 + 4 from rfl, toBE, toLE_add, List.reverse_append, hupper, hlower, toLE_add_mul,
      toBE, toBE]
  rw [hwire, swipeEndianness64_toNat, show 8 = 4 + 4 from rfl, toLE_add, toLE_add_mul,
    Nat.add_mul_div_left _ _ (by norm_num), Nat.div_eq_of_lt hright, Nat.zero_add, toLE_ntohl,
    toLE_ntohl, toNat_ofNat_length hhigh, toNat_ofNat_length hlow]

/-- A body size that was sent has 64 bits. -/
theorem sentSize_lt (h : n < 256 ^ 8) : sentSize n < 256 ^ 8 := by
  unfold sentSize
  omega

/-- A body size that was read has 64 bits. -/
theorem readSize_lt (h : n < 256 ^ 8) : readSize n < 256 ^ 8 := by
  unfold readSize
  omega

/-- The reader keeps a body size in its 64 bits. -/
theorem toNat_ofNat_readSize (h : n < 256 ^ 8) :
    (UInt64.ofNat (readSize n)).toNat = readSize n := by
  rw [UInt64.toNat_ofNat']
  exact Nat.mod_eq_of_lt (readSize_lt h)

/-- A number that arrives in network order and is swapped. -/
theorem swipeEndianness64_ofLE (hbytes : bytes.length = 8) :
    (swipeEndianness64 (UInt64.ofNat (ofLE bytes))).toNat = readSize (ofBE bytes) := by
  obtain ⟨low, middle, high, rfl, hlow, hmiddle, hhigh⟩ : ∃ low middle high : List UInt8,
      bytes = low ++ (middle ++ high) ∧ low.length = 2 ∧ middle.length = 2 ∧ high.length = 4 := by
    refine ⟨bytes.take 2, (bytes.drop 2).take 2, bytes.drop 4, ?_, ?_, ?_, ?_⟩
    · rw [← List.drop_drop (i := 2) (j := 2), List.take_append_drop, List.take_append_drop]
    all_goals simp [hbytes]
  have hlowLt := ofLE_lt low
  have hmiddleLt := ofLE_lt middle
  have hhighLt := ofLE_lt high
  have hhighBE := ofBE_lt high
  have hmiddleBE := ofBE_lt middle
  rw [hlow] at hlowLt
  rw [hmiddle] at hmiddleLt hmiddleBE
  rw [hhigh] at hhighLt hhighBE
  have hvalue : ofLE (low ++ (middle ++ high)) =
      ofLE low + 256 ^ 2 * (ofLE middle + 256 ^ 2 * ofLE high) := by
    rw [ofLE_append, ofLE_append, hlow, hmiddle]
  have hsent : sentSize (UInt64.ofNat (ofLE (low ++ (middle ++ high)))).toNat =
      ofLE (low ++ ([0, 0] ++ high)) := by
    rw [UInt64.toNat_ofNat', hvalue, ofLE_append, ofLE_append, hlow]
    simp only [ofLE, sentSize, List.length_cons, List.length_nil, UInt8.reduceToNat]
    omega
  have hlength : (low ++ ([0, 0] ++ high)).length = 8 := by simp [hlow, hhigh]
  have himage := toLE_swipeEndianness64 (UInt64.ofNat (ofLE (low ++ (middle ++ high))))
  rw [hsent, toBE, ← hlength, toLE_ofLE, hlength] at himage
  have hresult := congrArg ofLE himage
  rw [ofLE_toLE _ _ (UInt64.toNat_lt _)] at hresult
  rw [hresult, readSize]
  change ofBE (low ++ ([0, 0] ++ high)) = _
  rw [ofBE_append, ofBE_append, ofBE_append, ofBE_append]
  simp only [List.length_append, hmiddle, hhigh]
  have hzero : ofBE [0, 0] = 0 := rfl
  simp only [hzero, List.length_cons, List.length_nil]
  omega

/-- The header on the wire, with the body size that is sent. -/
theorem unparseContentHeader_eq (header : ContentHeader) :
    unparseContentHeader header = toBE 2 header.classId.toNat ++ toBE 2 header.weight.toNat ++
      toBE 8 (sentSize header.bodySize.toNat) ++ toBE 2 header.propertyFlags.toNat := by
  rw [unparseContentHeader, toLE_ntohs, toLE_ntohs, toLE_swipeEndianness64, toLE_ntohs]

/-- The header is in network order exactly when its body size is sent as it is. -/
theorem unparseContentHeader_eq_encode_iff :
    unparseContentHeader header = encodeContentHeader header ↔
      sentSize header.bodySize.toNat = header.bodySize.toNat := by
  have hsize : header.bodySize.toNat < 256 ^ 8 := header.bodySize.toNat_lt
  rw [unparseContentHeader_eq, encodeContentHeader, List.append_left_inj, List.append_right_inj,
    toBE_inj (sentSize_lt hsize) hsize]

/-- What the reader makes of a content header does not depend on anything else. -/
theorem parsesTo_decode (bytes : List UInt8) : ParsesTo bytes (decodeContentHeader bytes) := by
  intro w n hn hbytes
  have hlength : bytes.length = 14 := by rw [← hbytes, Buffer.slice_length]
  have hslice : ∀ offset count, offset + count ≤ 14 →
      (w.cs.parsed.write 0 bytes).slice offset count = (bytes.drop offset).take count := by
    intro offset count hle
    have h := Buffer.slice_write w.cs.parsed 0 offset count bytes (by omega)
    rwa [Nat.zero_add] at h
  have hheader : decodeContentHeader bytes =
      { classId := ntohs (loadU16 (w.cs.parsed.write 0 bytes) 0)
        weight := ntohs (loadU16 (w.cs.parsed.write 0 bytes) 2)
        bodySize := swipeEndianness64 (loadU64 (w.cs.parsed.write 0 bytes) 4)
        propertyFlags := ntohs (loadU16 (w.cs.parsed.write 0 bytes) 12) } := by
    rw [ntohs_loadU16, ntohs_loadU16, ntohs_loadU16, loadU64, hslice 0 2 (by omega),
      hslice 2 2 (by omega), hslice 4 8 (by omega), hslice 12 2 (by omega)]
    rfl
  rw [hheader, ← hbytes, parseContentHeader, if_neg (by omega)]
  exact ⟨_, rfl⟩

/-- The reader makes one header of the bytes of a content header. -/
theorem parsesTo_iff (hbytes : bytes.length = 14) :
    ParsesTo bytes header ↔ decodeContentHeader bytes = header := by
  constructor
  · intro h
    let w : World :=
      { cs := { ConnectionState.initial 0 with recvline := Buffer.write (fun _ => 0) 0 bytes }
        socket := []
        store := initQueuePool
        trace := [] }
    have hslice : w.cs.recvline.slice 0 14 = bytes := by
      rw [← hbytes, Buffer.slice_write_zero _ _ _ (Nat.le_refl _), List.take_length]
    obtain ⟨w₁, hrun⟩ := h w 14 (Nat.le_refl 14) hslice
    obtain ⟨w₂, hrun'⟩ := parsesTo_decode bytes w 14 (Nat.le_refl 14) hslice
    exact Option.some.inj (Prod.mk.inj (Except.ok.inj (hrun'.symm.trans hrun))).1
  · intro h
    rw [← h]
    exact parsesTo_decode bytes

variable {classId weight size flags : List UInt8}

/-- A field between others. -/
theorem take_drop_field {left field right : List UInt8} {start count : ℕ} (hstart : left.length = start)
    (hcount : field.length = count) : ((left ++ (field ++ right)).drop start).take count = field := by
  rw [← hstart, ← hcount, List.drop_left, List.take_left]

/-- The header that is read from four fields behind each other. -/
theorem decodeContentHeader_append (hclass : classId.length = 2) (hweight : weight.length = 2)
    (hsize : size.length = 8) (hflags : flags.length = 2) :
    decodeContentHeader (classId ++ weight ++ size ++ flags) =
      { classId := UInt16.ofNat (ofBE classId)
        weight := UInt16.ofNat (ofBE weight)
        bodySize := UInt64.ofNat (readSize (ofBE size))
        propertyFlags := UInt16.ofNat (ofBE flags) } := by
  have hfirst : (classId ++ weight ++ size ++ flags).take 2 = classId := by
    simp [List.append_assoc, ← hclass]
  have hsecond : ((classId ++ weight ++ size ++ flags).drop 2).take 2 = weight := by
    rw [List.append_assoc, List.append_assoc]
    exact take_drop_field hclass hweight
  have hthird : ((classId ++ weight ++ size ++ flags).drop 4).take 8 = size := by
    rw [List.append_assoc (classId ++ weight)]
    exact take_drop_field (by simp [hclass, hweight]) hsize
  have hfourth : ((classId ++ weight ++ size ++ flags).drop 12).take 2 = flags := by
    have htwelve : (classId ++ weight ++ size).length = 12 := by simp [hclass, hweight, hsize]
    rw [← htwelve, List.drop_left, ← hflags, List.take_length]
  rw [decodeContentHeader, hfirst, hsecond, hthird, hfourth, ← swipeEndianness64_ofLE hsize,
    UInt64.ofNat_toNat]

/-- A header in network order is read back exactly when its body size is read as it is. -/
theorem decode_encode_iff :
    decodeContentHeader (encodeContentHeader header) = header ↔
      readSize header.bodySize.toNat = header.bodySize.toNat := by
  have hsize : header.bodySize.toNat < 256 ^ 8 := header.bodySize.toNat_lt
  rw [encodeContentHeader, decodeContentHeader_append (by simp) (by simp) (by simp) (by simp),
    ofBE_toBE _ _ header.classId.toNat_lt, ofBE_toBE _ _ header.weight.toNat_lt,
    ofBE_toBE _ _ hsize, ofBE_toBE _ _ header.propertyFlags.toNat_lt, UInt16.ofNat_toNat,
    UInt16.ofNat_toNat, UInt16.ofNat_toNat]
  constructor
  · intro h
    have hvalue : (UInt64.ofNat (readSize header.bodySize.toNat)).toNat = header.bodySize.toNat :=
      congrArg (fun h => h.bodySize.toNat) h
    rwa [toNat_ofNat_readSize hsize] at hvalue
  · intro h
    rw [h, UInt64.ofNat_toNat]

/-- Bytes of a header come back exactly when their body size is read and sent as it is. -/
theorem unparse_decode_iff (hbytes : bytes.length = 14) :
    unparseContentHeader (decodeContentHeader bytes) = bytes ↔
      sentSize (readSize (ofBE ((bytes.drop 4).take 8))) = ofBE ((bytes.drop 4).take 8) := by
  obtain ⟨classId, weight, size, flags, rfl, hclass, hweight, hsize, hflags⟩ :
      ∃ classId weight size flags : List UInt8, bytes = classId ++ weight ++ size ++ flags ∧
        classId.length = 2 ∧ weight.length = 2 ∧ size.length = 8 ∧ flags.length = 2 := by
    refine ⟨bytes.take 2, (bytes.drop 2).take 2, (bytes.drop 4).take 8, bytes.drop 12, ?_, ?_⟩
    · have hsplit : bytes.drop 2 = (bytes.drop 2).take 2 ++ ((bytes.drop 4).take 8 ++
          bytes.drop 12) := by
        rw [show 12 = 4 + 8 from rfl, ← List.drop_drop, List.take_append_drop,
          show 4 = 2 + 2 from rfl, ← List.drop_drop, List.take_append_drop]
      rw [List.append_assoc, List.append_assoc, ← hsplit, List.take_append_drop]
    · simp [hbytes]
  have hthird : ((classId ++ weight ++ size ++ flags).drop 4).take 8 = size := by
    rw [List.append_assoc (classId ++ weight)]
    exact take_drop_field (by simp [hclass, hweight]) hsize
  have hshort : ∀ field : List UInt8, field.length = 2 →
      toBE 2 (UInt16.ofNat (ofBE field)).toNat = field := by
    intro field hfield
    have hlt : ofBE field < 2 ^ 16 := by
      have h := ofBE_lt field
      rwa [hfield] at h
    rw [UInt16.toNat_ofNat', Nat.mod_eq_of_lt hlt, ← hfield, toBE_ofBE]
  have hlong : ofBE size < 256 ^ 8 := hsize ▸ ofBE_lt size
  have himage : toBE 8 (ofBE size) = size := hsize ▸ toBE_ofBE size
  rw [decodeContentHeader_append hclass hweight hsize hflags, unparseContentHeader_eq, hthird,
    hshort _ hclass, hshort _ hweight, hshort _ hflags, toNat_ofNat_readSize hlong,
    List.append_left_inj,
    List.append_right_inj]
  nth_rewrite 2 [← himage]
  exact toBE_inj (sentSize_lt (readSize_lt hlong)) hlong

/-- The bits of a body size that the sender loses. -/
theorem sentSize_eq_iff : sentSize n = n ↔ n / 2 ^ 16 % 2 ^ 16 = 0 := by
  unfold sentSize
  omega

/-- The bits of a body size that the reader loses. -/
theorem readSize_eq_iff : readSize n = n ↔ n / 2 ^ 32 % 2 ^ 16 = 0 := by
  unfold readSize
  omega

/-- The bits of a body size that the reader and the sender lose. -/
theorem sentSize_readSize_eq_iff : sentSize (readSize n) = n ↔ n / 2 ^ 16 % 2 ^ 32 = 0 := by
  unfold sentSize readSize
  omega

/-- The codec is exact for one header exactly when its body size has neither of the lost bytes. -/
theorem codecHolds_iff : CodecHolds header ↔ header.bodySize.toNat / 2 ^ 16 % 2 ^ 32 = 0 := by
  have hlength : (encodeContentHeader header).length = 14 := by simp [encodeContentHeader]
  rw [CodecHolds, unparseContentHeader_eq_encode_iff, parsesTo_iff hlength, decode_encode_iff,
    sentSize_eq_iff, readSize_eq_iff]
  omega

/-- The body size that a CONTENT_HEADER frame announces. -/
theorem announcedSize_frame (header : ContentHeader) (properties : List UInt8) :
    announcedSize (encodeFrame MsgFormat.contentHeader 1 (unparseContentHeader header ++ properties)) =
      sentSize header.bodySize.toNat := by
  have hsize : sentSize header.bodySize.toNat < 256 ^ 8 := sentSize_lt header.bodySize.toNat_lt
  have hfield : ((encodeFrame MsgFormat.contentHeader 1
      (unparseContentHeader header ++ properties)).drop 11).take 8 =
        toBE 8 (sentSize header.bodySize.toNat) := by
    rw [unparseContentHeader_eq, encodeFrame, List.append_assoc (toBE 2 _ ++ toBE 2 _),
      List.append_assoc (toBE 2 _ ++ toBE 2 _), List.append_assoc (encodeHeader _ _ _),
      List.append_assoc (toBE 2 _ ++ toBE 2 _), ← List.append_assoc (encodeHeader _ _ _),
      List.append_assoc (toBE 8 _), List.append_assoc (toBE 8 _)]
    exact take_drop_field (by simp) (by simp)
  rw [announcedSize, hfield, ofBE_toBE _ _ hsize]

/-- A delivery announces the length of its BODY frame exactly when the body is shorter than
65536 bytes. -/
theorem announces_iff {m' : MachineState} (hbody : w.cs.recvline.cstring maxLine 0 = some body)
    (h : actions valueDequeueReceived w = .ok (m', w')) :
    ∃ deliver header, w'.trace = w.trace ++ [deliver, header, bodyFrame body].map Event.write ∧
      (announcedSize header = body.length ↔ body.length < 2 ^ 16) := by
  obtain ⟨body', hbody', -, hsends⟩ := actionValueDequeueReceived_sends h
  obtain rfl := Option.some.inj (hbody.symm.trans hbody')
  have hlength := Buffer.cstring_length_lt _ _ _ _ hbody
  have hmax : maxLine = 131073 := rfl
  have hsize : (UInt64.ofNat body.length).toNat = body.length := by
    rw [UInt64.toNat_ofNat']
    omega
  refine ⟨_, _, hsends.trace, ?_⟩
  rw [announcedSize_frame, hsize, sentSize_eq_iff]
  omega

/-- A content header is written in network order and read back exactly when bits 16 to 47 of its
body size are zero; so are the 14 bytes of a header given back; and a delivery announces the
length of its BODY frame exactly when the body is shorter than 65536 bytes. -/
theorem contentHeader_codec_iff (header : ContentHeader) (bytes : List UInt8) (w : World) :
    (CodecHolds header ↔ header.bodySize.toNat / 2 ^ 16 % 2 ^ 32 = 0) ∧
      (bytes.length = 14 →
        ((∃ header, ParsesTo bytes header ∧ unparseContentHeader header = bytes) ↔
          ofBE ((bytes.drop 4).take 8) / 2 ^ 16 % 2 ^ 32 = 0)) ∧
      ∀ w' m' body, w.cs.recvline.cstring maxLine 0 = some body →
        actions valueDequeueReceived w = .ok (m', w') →
        ∃ deliver header, w'.trace = w.trace ++ [deliver, header, bodyFrame body].map Event.write ∧
          (announcedSize header = body.length ↔ body.length < 2 ^ 16) := by
  refine ⟨codecHolds_iff, fun hbytes => ?_, fun w' m' body hbody h => announces_iff hbody h⟩
  rw [← sentSize_readSize_eq_iff, ← unparse_decode_iff hbytes]
  constructor
  · intro ⟨header, hparses, hunparse⟩
    rwa [(parsesTo_iff hbytes).mp hparses]
  · exact fun hunparse => ⟨_, parsesTo_decode bytes, hunparse⟩

/-- A delivery announces two bytes for a body of two, and the 14 bytes of such a header come
back. -/
theorem contentHeader_codec_iff_twoBytes :
    let w : World :=
      { cs := { ConnectionState.initial 0 with recvline := Buffer.write (fun _ => 0) 0 [104, 105] }
        socket := []
        store := initQueuePool
        trace := [] }
    let bytes : List UInt8 := [0, 60, 0, 0, 0, 0, 0, 0, 0, 0, 0, 2, 16, 0]
    CodecHolds ⟨ClassId.basic, 0, 2, 0x1000⟩ ∧
      (∃ header, ParsesTo bytes header ∧ unparseContentHeader header = bytes) ∧
      ∃ w' m' deliver header, actions valueDequeueReceived w = .ok (m', w') ∧
        w'.trace = [deliver, header, bodyFrame [104, 105]].map Event.write ∧
        announcedSize header = 2 := by
  intro w bytes
  obtain ⟨hcodec, hbytes, hdelivers⟩ :=
    contentHeader_codec_iff ⟨ClassId.basic, 0, 2, 0x1000⟩ bytes w
  have hstring : w.cs.recvline.cstring maxLine 0 = some [104, 105] := by rfl
  obtain ⟨w', hrun, -⟩ :=
    actionValueDequeueReceived_returns hstring (by decide) (World.writesReturn_of_nil rfl)
  obtain ⟨deliver, header, htrace, hsize⟩ := hdelivers w' _ _ hstring hrun
  exact ⟨hcodec.mpr (by decide), (hbytes rfl).mpr (by decide), w', _, deliver, header, hrun, htrace,
    hsize.mpr (by decide)⟩

/-- A body of 65536 bytes is announced as empty. -/
theorem longBody_announces_zero :
    ¬ CodecHolds ⟨ClassId.basic, 0, 65536, 0x1000⟩ ∧
      (deliveryFrames (List.replicate 65536 33))[1]?.map announcedSize = some 0 := by
  constructor
  · rintro ⟨hwritten, -⟩
    exact absurd hwritten (by decide)
  · simp only [deliveryFrames, List.getElem?_cons_succ, List.getElem?_cons_zero, Option.map_some,
      announcedSize_frame, List.length_replicate]
    decide

end AmqpBroker
