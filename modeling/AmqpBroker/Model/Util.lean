import AmqpBroker.Foundations.Bytes
import AmqpBroker.Model.Connection
import Mathlib.Data.Nat.Bits

/-!
# Reading from the socket and converting integers

The functions of `util.c`, and the integer conversions that C performs between the
32-bit length field, `int` and `size_t`. The host is little-endian.
-/

namespace AmqpBroker

open Foundations

/-- One more than the largest `size_t`. -/
def sizeRange : ℕ := 2 ^ 64

/-- `INT_MAX`. -/
def intMax : ℤ := 2 ^ 31 - 1

/-- Pass a `uint32_t` as an `int`. -/
def toInt (n : UInt32) : ℤ := if n.toNat < 2 ^ 31 then n.toNat else n.toNat - 2 ^ 32

/-- Pass an `int` as a `size_t`. -/
def toSize (n : ℤ) : ℕ := (n % sizeRange).toNat

/-- Store a `size_t` in an `int`. -/
def sizeToInt (n : ℕ) : ℤ := toInt (UInt32.ofNat n)

/-- `ntohs` and `htons`. -/
def ntohs (n : UInt16) : UInt16 := UInt16.ofNat (swapBytes 2 n.toNat)

/-- `ntohl` and `htonl`. -/
def ntohl (n : UInt32) : UInt32 := UInt32.ofNat (swapBytes 4 n.toNat)

/-- `swipe_endianness_64`. -/
def swipeEndianness64 (n : UInt64) : UInt64 :=
  let left := (n >>> 32).toUInt32
  let right := (n &&& 0xffff).toUInt32
  let newLeft := ntohl right
  let newRight := ntohl left
  (newLeft.toUInt64 <<< 32) ||| newRight.toUInt64

/-- The loop of `bit_cardinality_16`, with `i` rounds left. -/
def bitCardinalityLoop : ℕ → UInt16 → ℕ
  | 0, _ => 0
  | i + 1, bits => (bits &&& 1).toNat + bitCardinalityLoop i (bits >>> 1)

/-- `bit_cardinality_16`. -/
def bitCardinality16 (bits : UInt16) : ℕ := bitCardinalityLoop 16 bits

/-- Load a `uint16_t` field of a packed struct. -/
def loadU16 (buffer : Buffer) (offset : ℕ) : UInt16 := UInt16.ofNat (ofLE (buffer.slice offset 2))

/-- Load a `uint32_t` field of a packed struct. -/
def loadU32 (buffer : Buffer) (offset : ℕ) : UInt32 := UInt32.ofNat (ofLE (buffer.slice offset 4))

/-- Load a `uint64_t` field of a packed struct. -/
def loadU64 (buffer : Buffer) (offset : ℕ) : UInt64 := UInt64.ofNat (ofLE (buffer.slice offset 8))

/-- One call of `read`: its result as the `size_t` it is stored in, the bytes it put into
the buffer, and what is left of the chunk. -/
def read (event : ReadEvent) (count : ℕ) : ℕ × List UInt8 × Socket :=
  match event with
  | .error => (sizeRange - 1, [], [])
  | .data first more =>
    let got := (first :: more).take count
    (got.length, got, Socket.chunk ((first :: more).drop count))

/-- The loop of `read_until` on a buffer of `room` bytes. Each call of `read` uses up one event
or completes the request; `_buf` is `sum` bytes into the buffer whenever it is used. -/
def readIntoLoop (room size : ℕ) : Socket → ℕ → Buffer → Except Abort (ℕ × Socket × Buffer)
  | [], sum, buf => .ok (if sum < size then 0 else sum, [], buf)
  | event :: rest, sum, buf =>
    if sum < size then
      match read event (size - sum) with
      | (n, bytes, left) =>
        if room < sum + bytes.length then .error .bufferRange
        else
          -- an error adds `(size_t) -1`: one byte back, or out of the loop from zero
          match left with
          | [] => readIntoLoop room size rest ((sum + n) % sizeRange) (buf.write sum bytes)
          | _ :: _ => .ok ((sum + n) % sizeRange, left ++ rest, buf.write sum bytes)
    else .ok (sum, event :: rest, buf)

/-- `read_until(cs->connfd, cs->recvline, size)`. -/
def readUntil (size : ℕ) : Action ℕ := fun w =>
  match readIntoLoop maxLine size w.socket 0 w.cs.recvline with
  | .ok (n, socket, recvline) =>
    .ok (n, { w with socket := socket, cs := { w.cs with recvline := recvline } })
  | .error reason => .error reason

end AmqpBroker
