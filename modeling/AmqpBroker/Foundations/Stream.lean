import Mathlib.Data.List.Basic
import Mathlib.Data.List.TakeWhile

/-!
# Byte streams delivered in chunks

A socket is the list of what its successive reads find: a nonempty chunk of bytes, or an
error. When the list is used up the stream has ended. A read takes at most the bytes it
asked for and leaves the rest of the chunk to the next one, so the same byte stream has
many sockets, one for each way the network may cut it.
-/

namespace Foundations

/-- What a read finds: at least one byte, or an error. -/
inductive ReadEvent where
  | data (first : UInt8) (more : List UInt8)
  | error
  deriving DecidableEq, Repr

/-- The pending results of the reads of a connection; the stream ends with the list. -/
abbrev Socket := List ReadEvent

/-- What a read says it found: how many bytes, or `none` for an error. -/
def ReadEvent.result : ReadEvent → Option ℕ
  | .data _ more => some (more.length + 1)
  | .error => none

namespace Socket

/-- A chunk to be read, unless it is empty. -/
def chunk : List UInt8 → Socket
  | [] => []
  | first :: more => [.data first more]

/-- The socket delivers exactly these bytes and then ends, without an error. -/
inductive Delivers : Socket → List UInt8 → Prop
  | nil : Delivers [] []
  | data (first : UInt8) (more : List UInt8) {rest : Socket} {bytes : List UInt8} :
      Delivers rest bytes → Delivers (.data first more :: rest) (first :: more ++ bytes)

/-- The bytes of the chunks in order, whatever errors come between them. -/
def bytes : Socket → List UInt8
  | [] => []
  | .data first more :: rest => first :: more ++ bytes rest
  | .error :: rest => bytes rest

/-- What the reads say they find, one after the other. -/
def results (socket : Socket) : List (Option ℕ) := socket.map ReadEvent.result

/-- How many bytes arrived with these results. -/
def arrived : List (Option ℕ) → ℕ
  | [] => 0
  | some count :: rest => count + arrived rest
  | none :: rest => arrived rest

/-- A socket with the results given, all of whose bytes are `byte`. -/
def filledWith (byte : UInt8) (results : List (Option ℕ)) : Socket :=
  results.map fun result =>
    match result with
    | some count => .data byte (List.replicate (count - 1) byte)
    | none => .error

/-- The socket after `count` bytes were taken from it. -/
def advance : Socket → ℕ → Socket
  | [], _ => []
  | .error :: rest, _ => .error :: rest
  | .data first more :: rest, count =>
    match (first :: more).drop count with
    | first' :: more' => .data first' more' :: rest
    | [] => advance rest (count - (more.length + 1))

/-- A single chunk delivers its bytes. -/
theorem chunk_delivers (bytes : List UInt8) : (chunk bytes).Delivers bytes := by
  cases bytes with
  | nil => exact .nil
  | cons first more => simpa [chunk] using Delivers.data first more .nil

/-- The delivered bytes are determined. -/
theorem Delivers.unique {socket : Socket} {left right : List UInt8} (hleft : socket.Delivers left)
    (hright : socket.Delivers right) : left = right := by
  induction hleft generalizing right with
  | nil =>
    cases hright
    rfl
  | data first more _ ih =>
    cases hright with
    | data _ _ hrest => rw [ih hrest]

/-- Nothing is taken from the socket. -/
@[simp] theorem advance_zero (socket : Socket) : socket.advance 0 = socket := by
  match socket with
  | [] => rfl
  | .error :: _ => rfl
  | .data _ _ :: _ => rfl

/-- A socket without events delivers nothing. -/
@[simp] theorem bytes_nil : bytes [] = [] := rfl

/-- A chunk delivers its bytes. -/
@[simp] theorem bytes_data (first : UInt8) (more : List UInt8) (rest : Socket) :
    bytes (.data first more :: rest) = first :: more ++ bytes rest := rfl

/-- A failed read delivers nothing. -/
@[simp] theorem bytes_error (rest : Socket) : bytes (.error :: rest) = bytes rest := rfl

/-- What two stretches of events deliver. -/
theorem bytes_append (left right : Socket) : bytes (left ++ right) = bytes left ++ bytes right := by
  induction left with
  | nil => rfl
  | cons event left ih =>
    cases event with
    | data first more => simp [ih]
    | error => simpa using ih

/-- The bytes of the rest of a chunk. -/
@[simp] theorem bytes_chunk (bytes : List UInt8) : (chunk bytes).bytes = bytes := by
  cases bytes <;> simp [chunk]

/-- The results of two stretches of events. -/
theorem results_append (left right : Socket) :
    results (left ++ right) = results left ++ results right := List.map_append

/-- No call of `read` brings nothing. -/
@[simp] theorem arrived_nil : arrived [] = 0 := rfl

/-- A call of `read` brings what it returns. -/
@[simp] theorem arrived_some (count : ℕ) (rest : List (Option ℕ)) :
    arrived (some count :: rest) = count + arrived rest := rfl

/-- A failed call of `read` brings nothing. -/
@[simp] theorem arrived_none (rest : List (Option ℕ)) : arrived (none :: rest) = arrived rest := rfl

/-- The results count the bytes. -/
theorem length_bytes (socket : Socket) : socket.bytes.length = arrived socket.results := by
  induction socket with
  | nil => rfl
  | cons event rest ih =>
    cases event with
    | data first more =>
      rw [bytes_data, List.length_append, ih]
      rfl
    | error =>
      rw [bytes_error, ih]
      exact (arrived_none _).symm

/-- A chunk of equal bytes, one of which is written apart. -/
theorem cons_replicate_pred (byte : UInt8) {count : ℕ} (h : count ≠ 0) :
    byte :: List.replicate (count - 1) byte = List.replicate count byte := by
  rw [← List.replicate_succ, Nat.sub_add_cancel (Nat.pos_of_ne_zero h)]

/-- The bytes of a socket that is made for given results. -/
theorem bytes_filledWith (byte : UInt8) {results : List (Option ℕ)} (h : some 0 ∉ results) :
    (filledWith byte results).bytes = List.replicate (arrived results) byte := by
  induction results with
  | nil => rfl
  | cons result rest ih =>
    obtain ⟨hhead, htail⟩ := List.ne_and_not_mem_of_not_mem_cons h
    cases result with
    | none =>
      rw [arrived_none]
      exact ih htail
    | some count =>
      have hpos : count ≠ 0 := fun hzero => hhead (hzero ▸ rfl)
      change byte :: List.replicate (count - 1) byte ++ (filledWith byte rest).bytes = _
      rw [cons_replicate_pred byte hpos, ih htail, List.replicate_append_replicate, arrived_some]

/-- Results that are no empty chunks belong to some socket. -/
theorem results_filledWith (byte : UInt8) {results : List (Option ℕ)} (h : some 0 ∉ results) :
    (filledWith byte results).results = results := by
  induction results with
  | nil => rfl
  | cons result rest ih =>
    obtain ⟨hhead, htail⟩ := List.ne_and_not_mem_of_not_mem_cons h
    have hrest := ih htail
    cases result with
    | none => exact congrArg (List.cons none) hrest
    | some count =>
      have hcount : count - 1 + 1 = count :=
        Nat.sub_add_cancel (Nat.pos_of_ne_zero fun hzero => hhead (hzero ▸ rfl))
      have hresult : ReadEvent.result (.data byte (List.replicate (count - 1) byte)) = some count := by
        rw [ReadEvent.result, List.length_replicate, hcount]
      exact congrArg₂ List.cons hresult hrest

/-- Taking bytes from the front leaves the others to be delivered. -/
theorem Delivers.advance {socket : Socket} {bytes : List UInt8} (h : socket.Delivers bytes)
    (count : ℕ) : (socket.advance count).Delivers (bytes.drop count) := by
  induction h generalizing count with
  | nil => simpa [Socket.advance] using Delivers.nil
  | @data first more rest bytes hrest ih =>
    have hsplit : (first :: more ++ bytes).drop count =
        (first :: more).drop count ++ bytes.drop (count - (more.length + 1)) := by
      rw [List.drop_append, List.length_cons]
    rw [hsplit, Socket.advance]
    cases hdrop : (first :: more).drop count with
    | cons first' more' =>
      have hcount : count < more.length + 1 := by
        have hlen := congrArg List.length hdrop
        simp only [List.length_drop, List.length_cons] at hlen
        omega
      rw [show count - (more.length + 1) = 0 by omega, List.drop_zero]
      exact .data first' more' hrest
    | nil => simpa using ih (count - (more.length + 1))

end Socket

end Foundations
