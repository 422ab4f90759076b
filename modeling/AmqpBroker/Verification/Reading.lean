import AmqpBroker.Model.StateMachine

/-!
# What the readers do with a byte stream

`read_until` sees only the bytes a socket delivers, however they are cut into chunks:
enough bytes fill the request, too few end in 0 with the stream used up, and more than
`recvline` holds leaves the buffer. The readers of frames follow from it.
-/

namespace AmqpBroker

open Foundations

/-- The loop of `read_until` on a stream without errors. -/
theorem readIntoLoop_delivers {socket : Socket} {bytes : List UInt8} (h : socket.Delivers bytes)
    (size sum : ℕ) (buf : Buffer) (hsum : sum ≤ size) (hsize : size < sizeRange)
    (hbuf : sum ≤ maxLine) :
    readIntoLoop maxLine size socket sum buf =
      if maxLine < sum + min (size - sum) bytes.length then .error .bufferRange
      else if size - sum ≤ bytes.length then
        .ok (size, socket.advance (size - sum), buf.write sum (bytes.take (size - sum)))
      else .ok (0, [], buf.write sum bytes) := by
  induction h generalizing sum buf with
  | nil =>
    simp only [readIntoLoop, List.length_nil, Nat.min_zero, Nat.add_zero, Nat.le_zero,
      List.take_nil, Buffer.write_nil, if_neg (Nat.not_lt.mpr hbuf), Socket.advance]
    by_cases hlt : sum < size
    · rw [if_pos hlt, if_neg (by omega)]
    · rw [if_neg hlt, if_pos (by omega), show sum = size by omega]
  | @data first more rest bytes hrest ih =>
    by_cases hlt : sum < size
    · rw [readIntoLoop, if_pos hlt]
      simp only [read]
      cases hleft : (first :: more).drop (size - sum) with
      | nil =>
        have hlen : more.length + 1 ≤ size - sum := by
          have := congrArg List.length hleft
          simp only [List.length_drop, List.length_cons, List.length_nil] at this
          omega
        have htake : (first :: more).take (size - sum) = first :: more :=
          List.take_of_length_le (by simpa using hlen)
        simp only [Socket.chunk, htake, List.length_cons, List.length_append]
        by_cases hover : maxLine < sum + (more.length + 1)
        · rw [if_pos hover, if_pos (by omega)]
        · have hmod : (sum + (more.length + 1)) % sizeRange = sum + (more.length + 1) :=
            Nat.mod_eq_of_lt (by omega)
          rw [if_neg hover, hmod, ih (sum + (more.length + 1)) _ (by omega) (by omega)]
          have hwrite : ∀ tail, (buf.write sum (first :: more)).write (sum + (more.length + 1)) tail =
              buf.write sum (first :: more ++ tail) :=
            fun tail => Buffer.write_write_append buf sum (first :: more) tail
          have hadvance : Socket.advance (.data first more :: rest) (size - sum) =
              rest.advance (size - (sum + (more.length + 1))) := by
            simp only [Socket.advance, hleft, Nat.sub_add_eq]
          have htakeAll : (first :: more ++ bytes).take (size - sum) =
              first :: more ++ bytes.take (size - (sum + (more.length + 1))) := by
            rw [List.take_append, htake, List.length_cons]
            congr 2
            omega
          have htotal : sum + (more.length + 1) + min (size - (sum + (more.length + 1))) bytes.length =
              sum + min (size - sum) (more.length + 1 + bytes.length) := by omega
          have hfit : size - (sum + (more.length + 1)) ≤ bytes.length ↔
              size - sum ≤ more.length + 1 + bytes.length := by omega
          simp only [hwrite, hadvance, htakeAll, htotal, hfit]
      | cons first' more' =>
        have hlen : size - sum < more.length + 1 := by
          have := congrArg List.length hleft
          simp only [List.length_drop, List.length_cons] at this
          omega
        have hgot : ((first :: more).take (size - sum)).length = size - sum := by
          simp only [List.length_take, List.length_cons]
          omega
        have htakeAll : (first :: more ++ bytes).take (size - sum) =
            (first :: more).take (size - sum) := by
          rw [List.take_append_of_le_length (by simp only [List.length_cons]; omega)]
        have hmin : min (size - sum) (first :: more ++ bytes).length = size - sum := by
          simp only [List.length_append, List.length_cons]
          omega
        have hmod : (sum + (size - sum)) % sizeRange = size := by
          rw [show sum + (size - sum) = size by omega, Nat.mod_eq_of_lt hsize]
        rw [hmin, htakeAll]
        simp only [Socket.chunk, hgot, hmod, List.cons_append, List.nil_append, Socket.advance, hleft]
        rw [if_pos (show size - sum ≤ (first :: (more ++ bytes)).length by
          simp only [List.length_cons, List.length_append]; omega)]
    · obtain rfl : sum = size := by omega
      simp only [readIntoLoop, lt_irrefl, if_false, Nat.sub_self, Nat.zero_min, Nat.add_zero,
        if_neg (Nat.not_lt.mpr hbuf), Nat.zero_le, if_true, Socket.advance_zero, List.take_zero,
        Buffer.write_nil]

/-- The world after these bytes were taken from the socket into `recvline`. -/
def World.receive (w : World) (bytes : List UInt8) : World :=
  { w with
    socket := w.socket.advance bytes.length
    cs := { w.cs with recvline := w.cs.recvline.write 0 bytes } }

/-- A request that the stream can fill is filled with its next bytes. -/
theorem readUntil_complete {w : World} {bytes : List UInt8} (h : w.socket.Delivers bytes) {size : ℕ}
    (hsize : size ≤ bytes.length) (hroom : size ≤ maxLine) :
    readUntil size w = .ok (size, w.receive (bytes.take size)) := by
  have hmax : maxLine < sizeRange := by decide
  rw [readUntil, readIntoLoop_delivers h size 0 _ (Nat.zero_le _) (by omega) (Nat.zero_le _)]
  simp only [Nat.sub_zero, Nat.zero_add, Nat.min_eq_left hsize, if_neg (Nat.not_lt.mpr hroom),
    if_pos hsize, World.receive, List.length_take]

/-- A request beyond the end of the stream returns 0 after storing what there was. -/
theorem readUntil_short {w : World} {bytes : List UInt8} (h : w.socket.Delivers bytes) {size : ℕ}
    (hsize : bytes.length < size) (hrange : size < sizeRange) (hroom : bytes.length ≤ maxLine) :
    readUntil size w = .ok (0, w.receive bytes) := by
  have hend : w.socket.advance bytes.length = [] := by
    have hrest := h.advance bytes.length
    rw [List.drop_length] at hrest
    cases hcases : w.socket.advance bytes.length with
    | nil => rfl
    | cons event rest =>
      rw [hcases] at hrest
      generalize hnil : ([] : List UInt8) = empty at hrest
      cases hrest with
      | data => cases hnil
  rw [readUntil, readIntoLoop_delivers h size 0 _ (Nat.zero_le _) hrange (Nat.zero_le _)]
  simp only [Nat.sub_zero, Nat.zero_add, Nat.min_eq_right (Nat.le_of_lt hsize),
    if_neg (Nat.not_lt.mpr hroom), if_neg (Nat.not_le.mpr hsize), World.receive, hend]

/-- More bytes than `recvline` holds leave the buffer. -/
theorem readUntil_overrun {w : World} {bytes : List UInt8} (h : w.socket.Delivers bytes) {size : ℕ}
    (hrange : size < sizeRange) (hsize : maxLine < size) (hbytes : maxLine < bytes.length) :
    readUntil size w = .error .bufferRange := by
  rw [readUntil, readIntoLoop_delivers h size 0 _ (Nat.zero_le _) hrange (Nat.zero_le _)]
  rw [if_pos (by omega)]

end AmqpBroker
