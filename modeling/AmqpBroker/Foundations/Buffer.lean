import Mathlib.Data.List.Basic
import Mathlib.Data.List.GetD
import Mathlib.Data.List.TakeWhile
import Mathlib.Order.Basic

/-!
# Byte buffers and NUL-terminated strings

A buffer is the map from index to byte that an array of a program denotes; the bounds of
the array are the business of the code that indexes it. Copies are writes of byte
strings, so what a copy leaves behind from earlier contents stays visible.
-/

namespace Foundations

/-- The contents of a byte array. -/
abbrev Buffer := ℕ → UInt8

namespace Buffer

/-- Overwrite the bytes from `offset` on. -/
def write (buffer : Buffer) (offset : ℕ) (bytes : List UInt8) : Buffer := fun i =>
  if offset ≤ i then bytes.getD (i - offset) (buffer i) else buffer i

/-- The `count` bytes from `offset` on. -/
def slice (buffer : Buffer) : ℕ → ℕ → List UInt8
  | _, 0 => []
  | offset, count + 1 => buffer offset :: slice buffer (offset + 1) count

/-- The string that starts at `offset`, searched in at most `room` bytes; `none` when no
terminator is found there. -/
def cstring (buffer : Buffer) : ℕ → ℕ → Option (List UInt8)
  | 0, _ => none
  | room + 1, offset =>
    if buffer offset = 0 then some []
    else (cstring buffer room (offset + 1)).map (List.cons (buffer offset))

/-- A slice has the requested length. -/
@[simp] theorem slice_length (buffer : Buffer) (offset count : ℕ) :
    (buffer.slice offset count).length = count := by
  induction count generalizing offset with
  | zero => rfl
  | succ count ih => simp [slice, ih]

/-- Writing nothing changes nothing. -/
@[simp] theorem write_nil (buffer : Buffer) (offset : ℕ) : buffer.write offset [] = buffer := by
  funext i
  simp [write]

/-- The byte at a written index. -/
theorem write_apply_of_lt (buffer : Buffer) (offset : ℕ) (bytes : List UInt8) (i : ℕ)
    (h : i < bytes.length) : buffer.write offset bytes (offset + i) = bytes[i] := by
  simp [write, h]

/-- A byte past the written region is the old one. -/
theorem write_apply_of_ge (buffer : Buffer) (offset : ℕ) (bytes : List UInt8) (i : ℕ)
    (h : offset + bytes.length ≤ i) : buffer.write offset bytes i = buffer i := by
  have hlen : bytes.length ≤ i - offset := by omega
  rw [write, List.getD_eq_default _ _ hlen, ite_self]

/-- A byte before the written region is the old one. -/
theorem write_apply_of_before (buffer : Buffer) (offset : ℕ) (bytes : List UInt8) (i : ℕ)
    (h : i < offset) : buffer.write offset bytes i = buffer i := by
  simp [write, Nat.not_le.mpr h]

/-- Every byte after a write of equal bytes. -/
theorem write_replicate (buffer : Buffer) (offset count : ℕ) (byte : UInt8) (i : ℕ) :
    buffer.write offset (List.replicate count byte) i =
      if offset ≤ i ∧ i < offset + count then byte else buffer i := by
  by_cases hin : offset ≤ i ∧ i < offset + count
  · rw [if_pos hin, write, if_pos hin.1, List.getD_replicate _ (by omega)]
  · rw [if_neg hin]
    by_cases hlow : offset ≤ i
    · apply write_apply_of_ge
      rw [List.length_replicate]
      omega
    · exact write_apply_of_before _ _ _ _ (by omega)

/-- Two adjacent writes are one write. -/
theorem write_write_append (buffer : Buffer) (offset : ℕ) (left right : List UInt8) :
    (buffer.write offset left).write (offset + left.length) right =
      buffer.write offset (left ++ right) := by
  funext i
  simp only [write]
  by_cases hlow : offset ≤ i
  · by_cases hhigh : offset + left.length ≤ i
    · have hpast : left.length ≤ i - offset := by omega
      rw [if_pos hhigh, if_pos hlow, if_pos hlow, List.getD_append_right _ _ _ _ hpast,
        List.getD_eq_default left _ hpast, Nat.sub_add_eq]
    · have hin : i - offset < left.length := by omega
      rw [if_neg hhigh, if_pos hlow, if_pos hlow, List.getD_append _ _ _ _ hin]
  · rw [if_neg (by omega), if_neg hlow, if_neg hlow]

/-- A write over a shorter one. -/
theorem write_write_of_le (buffer : Buffer) (offset : ℕ) {left right : List UInt8}
    (h : left.length ≤ right.length) :
    (buffer.write offset left).write offset right = buffer.write offset right := by
  funext i
  simp only [write]
  split
  · by_cases hin : i - offset < right.length
    · rw [List.getD_eq_getElem _ _ hin, List.getD_eq_getElem _ _ hin]
    · have hout : left.length ≤ i - offset := by omega
      rw [List.getD_eq_default right _ (by omega), List.getD_eq_default right _ (by omega),
        List.getD_eq_default left _ hout]
  · rfl

/-- A slice depends on the bytes of its range only. -/
theorem slice_congr (left right : Buffer) (offset count : ℕ)
    (h : ∀ i, offset ≤ i → i < offset + count → left i = right i) :
    left.slice offset count = right.slice offset count := by
  induction count generalizing offset with
  | zero => rfl
  | succ count ih =>
    rw [slice, slice, h offset le_rfl (by omega), ih (offset + 1) (fun i hlow hhigh =>
      h i (by omega) (by omega))]

/-- Reading inside a write gives the written bytes. -/
theorem slice_write (buffer : Buffer) (offset start count : ℕ) (bytes : List UInt8)
    (h : start + count ≤ bytes.length) :
    (buffer.write offset bytes).slice (offset + start) count = (bytes.drop start).take count := by
  induction count generalizing start with
  | zero => simp [slice]
  | succ count ih =>
    have hstart : start < bytes.length := by omega
    rw [slice, write_apply_of_lt _ _ _ _ hstart, Nat.add_assoc, ih (start + 1) (by omega),
      List.drop_eq_getElem_cons hstart, List.take_succ_cons]

/-- Reading back exactly what was written at the front. -/
theorem slice_write_zero (buffer : Buffer) (count : ℕ) (bytes : List UInt8)
    (h : count ≤ bytes.length) : (buffer.write 0 bytes).slice 0 count = bytes.take count := by
  simpa using slice_write buffer 0 0 count bytes (by omega)

/-- A slice splits at any point. -/
theorem slice_append (buffer : Buffer) (offset left right : ℕ) :
    buffer.slice offset (left + right) =
      buffer.slice offset left ++ buffer.slice (offset + left) right := by
  induction left generalizing offset with
  | zero => simp [slice]
  | succ left ih =>
    rw [Nat.succ_add, slice, ih, slice, List.cons_append, Nat.add_assoc, Nat.add_comm 1 left]

/-- A part of a buffer whose contents are known. -/
theorem slice_of_slice {buffer : Buffer} {offset start count : ℕ} {bytes : List UInt8}
    (h : buffer.slice offset bytes.length = bytes) (hcount : start + count ≤ bytes.length) :
    buffer.slice (offset + start) count = (bytes.drop start).take count := by
  have hsplit : bytes.length = start + (count + (bytes.length - (start + count))) := by omega
  rw [hsplit, slice_append, slice_append] at h
  rw [← h, List.drop_left' (slice_length _ _ _), List.take_left' (slice_length _ _ _)]

/-- A byte of a buffer whose contents are known. -/
theorem apply_of_slice {buffer : Buffer} {offset i : ℕ} {bytes : List UInt8}
    (h : buffer.slice offset bytes.length = bytes) (hi : i < bytes.length) :
    buffer (offset + i) = bytes[i] := by
  have hone := slice_of_slice h (show i + 1 ≤ bytes.length by omega)
  rw [List.drop_eq_getElem_cons hi, List.take_succ_cons] at hone
  exact (List.cons.inj hone).1

/-- The bytes of a slice. -/
theorem getD_slice (buffer : Buffer) (offset count i : ℕ) (default : UInt8) :
    (buffer.slice offset count).getD i default =
      if i < count then buffer (offset + i) else default := by
  induction count generalizing offset i with
  | zero => simp [slice]
  | succ count ih =>
    cases i with
    | zero => simp [slice]
    | succ i =>
      rw [slice, List.getD_cons_succ, ih, Nat.add_assoc, Nat.add_comm 1 i]
      simp only [Nat.succ_lt_succ_iff]

/-- A copy of the front of another buffer. -/
theorem write_slice (buffer source : Buffer) (count i : ℕ) :
    buffer.write 0 (source.slice 0 count) i = if i < count then source i else buffer i := by
  rw [write, if_pos (Nat.zero_le i), getD_slice, Nat.sub_zero, Nat.zero_add]

/-- A write over another from the start on. -/
theorem write_write_zero (buffer : Buffer) (first second : List UInt8) :
    (buffer.write 0 first).write 0 second =
      buffer.write 0 (second ++ first.drop second.length) := by
  funext i
  simp only [write, Nat.zero_le, if_true, Nat.sub_zero, List.getD_eq_getElem?_getD]
  by_cases hi : i < second.length
  · rw [List.getElem?_append_left hi, List.getElem?_eq_getElem hi]
    rfl
  · have hge : second.length ≤ i := Nat.le_of_not_lt hi
    rw [List.getElem?_append_right hge, List.getElem?_eq_none hge, List.getElem?_drop,
      Nat.add_sub_cancel' hge]
    rfl

/-- A terminator after the known bytes ends the string there at the latest. -/
theorem cstring_eq_takeWhile (buffer : Buffer) (offset count room : ℕ)
    (hend : buffer (offset + count) = 0) (hroom : count < room) :
    buffer.cstring room offset = some ((buffer.slice offset count).takeWhile (· ≠ 0)) := by
  induction count generalizing offset room with
  | zero =>
    obtain ⟨room, rfl⟩ := Nat.exists_eq_succ_of_ne_zero (by omega : room ≠ 0)
    have h : buffer offset = 0 := by simpa using hend
    simp [cstring, slice, h]
  | succ count ih =>
    obtain ⟨room, rfl⟩ := Nat.exists_eq_succ_of_ne_zero (by omega : room ≠ 0)
    have hrest := ih (offset + 1) room (by rw [Nat.add_assoc, Nat.add_comm 1]; exact hend)
      (by omega)
    by_cases h : buffer offset = 0
    · simp [cstring, slice, h]
    · simp [cstring, slice, h, hrest]

/-- No byte of a string is the terminator. -/
theorem cstring_nonzero (buffer : Buffer) (room offset : ℕ) (string : List UInt8)
    (h : buffer.cstring room offset = some string) : ∀ byte ∈ string, byte ≠ 0 := by
  induction room generalizing offset string with
  | zero => simp [cstring] at h
  | succ room ih =>
    by_cases hzero : buffer offset = 0
    · simp only [cstring, hzero, if_true, Option.some.injEq] at h
      simp [← h]
    · simp only [cstring, hzero, if_false, Option.map_eq_some_iff] at h
      obtain ⟨tail, htail, rfl⟩ := h
      intro byte hbyte
      rcases List.mem_cons.mp hbyte with rfl | hmem
      · exact hzero
      · exact ih _ _ htail byte hmem

/-- A string and its terminator fit the searched room. -/
theorem cstring_length_lt (buffer : Buffer) (room offset : ℕ) (string : List UInt8)
    (h : buffer.cstring room offset = some string) : string.length < room := by
  induction room generalizing offset string with
  | zero => simp [cstring] at h
  | succ room ih =>
    by_cases hzero : buffer offset = 0
    · simp only [cstring, hzero, if_true, Option.some.injEq] at h
      simp [← h]
    · simp only [cstring, hzero, if_false, Option.map_eq_some_iff] at h
      obtain ⟨tail, htail, rfl⟩ := h
      simpa using ih _ _ htail

end Buffer

/-- A byte string survives the string functions unchanged exactly when it holds no
terminator. -/
theorem takeWhile_ne_zero_eq_self (bytes : List UInt8) :
    bytes.takeWhile (· ≠ 0) = bytes ↔ (0 : UInt8) ∉ bytes := by
  rw [List.takeWhile_eq_self_iff]
  constructor
  · intro h hmem
    simpa using h 0 hmem
  · intro h byte hbyte
    simp only [ne_eq, decide_not, Bool.not_eq_eq_eq_not, Bool.not_true, decide_eq_false_iff_not]
    rintro rfl
    exact h hbyte

end Foundations
