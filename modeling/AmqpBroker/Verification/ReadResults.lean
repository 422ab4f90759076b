import AmqpBroker.Verification.Reading

/-!
# What `read_until` makes of the results of `read`

An error of `read` is the `size_t` one below 0. Added to the sum it takes the last byte
back, to be overwritten by the next one, or it carries the sum of an empty request past
every size. So the request is all or nothing only when no error comes before its last
byte, or when the stream ends with more kept than taken back and less than asked for.
-/

namespace AmqpBroker

open Foundations

/-- `read_until` of `size` bytes stays in the first `size` bytes of the buffer and returns
either 0, or `size` with these bytes being the next ones of the stream. -/
def AllOrNothing (size : ℕ) (socket : Socket) (buf : Buffer) : Prop :=
  ∃ n rest buf', readIntoLoop size size socket 0 buf = .ok (n, rest, buf') ∧
    (∀ i, size ≤ i → buf' i = buf i) ∧
    (n = 0 ∨ n = size ∧ size + rest.bytes.length ≤ socket.bytes.length ∧
      buf'.slice 0 size = socket.bytes.take size)

/-- Enough bytes arrive before the first error, when `kept` are there already. -/
def FillsFirst (size kept : ℕ) (results : List (Option ℕ)) : Prop :=
  ∃ front, front <+: results ∧ none ∉ front ∧ size ≤ kept + Socket.arrived front

/-- At no point have more errors come than bytes, or as many bytes beyond the errors as are
asked for, when `kept` are there already. -/
def StaysShort (size kept : ℕ) (results : List (Option ℕ)) : Prop :=
  ∀ front, front <+: results → front.count none ≤ kept + Socket.arrived front ∧
    kept + Socket.arrived front < size + front.count none

/-- The results of `read` that leave `read_until` all or nothing. -/
def Harmless (size : ℕ) (results : List (Option ℕ)) : Prop :=
  FillsFirst size 0 results ∨ StaysShort size 0 results

variable {size sum room : ℕ} {buf : Buffer} {first : UInt8} {more : List UInt8} {rest : Socket}

/-- A read gives no more bytes than it was asked for. -/
theorem read_length_le (event : ReadEvent) (count : ℕ) : (read event count).2.1.length ≤ count := by
  cases event with
  | data first more => exact List.length_take_le _ _
  | error => exact Nat.zero_le _

/-- A buffer beyond the request does not matter. -/
theorem readIntoLoop_room (hroom : size ≤ room) (socket : Socket) (sum : ℕ) (buf : Buffer) :
    readIntoLoop room size socket sum buf = readIntoLoop size size socket sum buf := by
  induction socket generalizing sum buf with
  | nil => rfl
  | cons event rest ih =>
    by_cases hsum : sum < size
    · have hlength := read_length_le event (size - sum)
      have hfits : ¬ size < sum + (read event (size - sum)).2.1.length := by omega
      have hfits' : ¬ room < sum + (read event (size - sum)).2.1.length := by omega
      simp only [readIntoLoop, if_pos hsum, if_neg hfits, if_neg hfits', ih]
    · simp only [readIntoLoop, if_neg hsum]

/-- A request that `recvline` holds is the general one. -/
theorem readUntil_of_readIntoLoop (hsize : size ≤ maxLine) {w : World} {n : ℕ}
    (h : readIntoLoop size size w.socket 0 w.cs.recvline = .ok (n, rest, buf)) :
    readUntil size w =
      .ok (n, { w with socket := rest, cs := { w.cs with recvline := buf } }) := by
  rw [← readIntoLoop_room hsize] at h
  simp only [readUntil, h]

/-- A request that is complete reads nothing. -/
theorem readIntoLoop_of_le (hsum : size ≤ sum) (socket : Socket) (buf : Buffer) :
    readIntoLoop room size socket sum buf = .ok (sum, socket, buf) := by
  cases socket <;> simp only [readIntoLoop, if_neg (Nat.not_lt.mpr hsum)]

/-- The loop of `read_until` as the source writes it: one `read` for each round. -/
theorem readIntoLoop_cons (event : ReadEvent) (rest : Socket) (hsum : sum < size)
    (hrange : size < sizeRange) :
    readIntoLoop room size (event :: rest) sum buf =
      if room < sum + (read event (size - sum)).2.1.length then .error .bufferRange
      else readIntoLoop room size ((read event (size - sum)).2.2 ++ rest)
        ((sum + (read event (size - sum)).1) % sizeRange)
        (buf.write sum (read event (size - sum)).2.1) := by
  rw [readIntoLoop, if_pos hsum]
  cases event with
  | error => rfl
  | data first more =>
    simp only [read]
    cases hleft : (first :: more).drop (size - sum) with
    | nil => rfl
    | cons first' more' =>
      -- a chunk is left only when `read` filled the whole request
      have hgot : ((first :: more).take (size - sum)).length = size - sum := by
        have hlen := congrArg List.length hleft
        simp only [List.length_drop, List.length_cons] at hlen
        simp only [List.length_take, List.length_cons]
        omega
      have hfull : (sum + (size - sum)) % sizeRange = size := by
        rw [Nat.add_sub_cancel' hsum.le, Nat.mod_eq_of_lt hrange]
      simp only [hgot, hfull, readIntoLoop_of_le le_rfl]
      rfl

/-- A chunk that does not complete the request is stored. -/
theorem readIntoLoop_part (hpart : sum + (more.length + 1) < size) (hrange : size < sizeRange) :
    readIntoLoop size size (.data first more :: rest) sum buf =
      readIntoLoop size size rest (sum + (more.length + 1)) (buf.write sum (first :: more)) := by
  have htake : (first :: more).take (size - sum) = first :: more :=
    List.take_of_length_le (by rw [List.length_cons]; omega)
  have hdrop : (first :: more).drop (size - sum) = [] :=
    List.drop_of_length_le (by rw [List.length_cons]; omega)
  have hmod : (sum + (more.length + 1)) % sizeRange = sum + (more.length + 1) :=
    Nat.mod_eq_of_lt (by omega)
  rw [readIntoLoop_cons _ _ (by omega) hrange]
  simp only [read, htake, hdrop, Socket.chunk, List.length_cons, hmod, List.nil_append]
  rw [if_neg (by omega)]

/-- A chunk that completes the request ends the loop. -/
theorem readIntoLoop_full (hsum : sum < size) (hfull : size ≤ sum + (more.length + 1))
    (hrange : size < sizeRange) :
    readIntoLoop size size (.data first more :: rest) sum buf =
      .ok (size, Socket.chunk ((first :: more).drop (size - sum)) ++ rest,
        buf.write sum ((first :: more).take (size - sum))) := by
  have hlength : ((first :: more).take (size - sum)).length = size - sum := by
    rw [List.length_take, List.length_cons]
    omega
  have hmod : (sum + (size - sum)) % sizeRange = size := by
    rw [Nat.add_sub_cancel' hsum.le, Nat.mod_eq_of_lt hrange]
  rw [readIntoLoop_cons _ _ hsum hrange]
  simp only [read, hlength, hmod]
  rw [if_neg (by omega), readIntoLoop_of_le le_rfl]

/-- An error with nothing stored is taken for success. -/
theorem readIntoLoop_error_zero (hpos : 0 < size) (hrange : size < sizeRange) :
    readIntoLoop size size (.error :: rest) 0 buf = .ok (sizeRange - 1, rest, buf) := by
  have hmod : (0 + (sizeRange - 1)) % sizeRange = sizeRange - 1 := by
    rw [Nat.zero_add, Nat.mod_eq_of_lt (by omega)]
  rw [readIntoLoop_cons _ _ hpos hrange]
  simp only [read, List.length_nil, hmod, Buffer.write_nil, List.nil_append]
  rw [if_neg (by omega), readIntoLoop_of_le (by omega)]

/-- An error takes the last byte back. -/
theorem readIntoLoop_error_succ (hsum : sum + 1 < size) (hrange : size < sizeRange) :
    readIntoLoop size size (.error :: rest) (sum + 1) buf =
      readIntoLoop size size rest sum buf := by
  have hmod : (sum + 1 + (sizeRange - 1)) % sizeRange = sum := by
    rw [show sum + 1 + (sizeRange - 1) = sum + sizeRange by omega, Nat.add_mod_right,
      Nat.mod_eq_of_lt (by omega)]
  rw [readIntoLoop_cons _ _ hsum hrange]
  simp only [read, List.length_nil, hmod, Buffer.write_nil, List.nil_append]
  rw [if_neg (by omega)]

section Counts

variable {kept count : ℕ} {results front tail : List (Option ℕ)}

/-- Without a result what is kept must be enough. -/
theorem fillsFirst_nil : FillsFirst size kept [] ↔ size ≤ kept := by
  constructor
  · intro ⟨front, hfront, _, hsize⟩
    rwa [List.prefix_nil.mp hfront] at hsize
  · intro hsize
    exact ⟨[], List.prefix_rfl, List.not_mem_nil, hsize⟩

/-- Before a failed read what is kept must be enough. -/
theorem fillsFirst_none : FillsFirst size kept (none :: tail) ↔ size ≤ kept := by
  constructor
  · intro ⟨front, hfront, hnone, hsize⟩
    rcases List.prefix_cons_iff.mp hfront with rfl | ⟨front', rfl, -⟩
    · exact hsize
    · exact absurd List.mem_cons_self hnone
  · intro hsize
    exact ⟨[], List.nil_prefix, List.not_mem_nil, hsize⟩

/-- Bytes that arrive are kept. -/
theorem fillsFirst_some :
    FillsFirst size kept (some count :: tail) ↔ FillsFirst size (kept + count) tail := by
  constructor
  · intro ⟨front, hfront, hnone, hsize⟩
    rcases List.prefix_cons_iff.mp hfront with rfl | ⟨front', rfl, hfront'⟩
    · exact ⟨[], List.nil_prefix, List.not_mem_nil, hsize.trans (by simp)⟩
    · rw [Socket.arrived_some, ← Nat.add_assoc] at hsize
      exact ⟨front', hfront', List.not_mem_of_not_mem_cons hnone, hsize⟩
  · intro ⟨front, hfront, hnone, hsize⟩
    refine ⟨some count :: front, (List.prefix_cons_inj _).mpr hfront, by simpa using hnone, ?_⟩
    rwa [Socket.arrived_some, ← Nat.add_assoc]

/-- Without a result what is kept must be too little. -/
theorem staysShort_nil : StaysShort size kept [] ↔ kept < size := by
  constructor
  · intro h
    simpa using (h [] List.prefix_rfl).2
  · intro hkept front hfront
    rw [List.prefix_nil.mp hfront]
    simpa using hkept

/-- Bytes that arrive are kept. -/
theorem staysShort_some (hkept : kept < size) :
    StaysShort size kept (some count :: tail) ↔ StaysShort size (kept + count) tail := by
  constructor
  · intro h front hfront
    have hcons := h (some count :: front) ((List.prefix_cons_inj _).mpr hfront)
    rwa [Socket.arrived_some, List.count_cons_of_ne (by simp), ← Nat.add_assoc] at hcons
  · intro h front hfront
    rcases List.prefix_cons_iff.mp hfront with rfl | ⟨front', rfl, hfront'⟩
    · simpa using hkept
    · rw [Socket.arrived_some, List.count_cons_of_ne (by simp), ← Nat.add_assoc]
      exact h front' hfront'

/-- A failed read takes one byte from what is kept. -/
theorem staysShort_none (hkept : kept + 1 < size) :
    StaysShort size (kept + 1) (none :: tail) ↔ StaysShort size kept tail := by
  constructor
  · intro h front hfront
    have hcons := h (none :: front) ((List.prefix_cons_inj _).mpr hfront)
    rw [Socket.arrived_none, List.count_cons_self] at hcons
    omega
  · intro h front hfront
    rcases List.prefix_cons_iff.mp hfront with rfl | ⟨front', rfl, hfront'⟩
    · simpa using hkept
    · have hrest := h front' hfront'
      rw [Socket.arrived_none, List.count_cons_self]
      omega

/-- What is kept is too little. -/
theorem StaysShort.kept_lt (h : StaysShort size kept results) : kept < size := by
  simpa using (h [] List.nil_prefix).2

/-- A failed read with nothing kept wraps around. -/
theorem not_staysShort_zero_none : ¬ StaysShort size 0 (none :: tail) := by
  intro h
  simpa using (h [none] (by simp)).1

/-- Results without an error count as the bytes they bring. -/
theorem staysShort_append (hnone : none ∉ front) (hkept : kept + Socket.arrived front < size) :
    StaysShort size kept (front ++ tail) ↔ StaysShort size (kept + Socket.arrived front) tail := by
  induction front generalizing kept with
  | nil => rfl
  | cons result front ih =>
    cases result with
    | none => exact absurd List.mem_cons_self hnone
    | some count =>
      rw [Socket.arrived_some, ← Nat.add_assoc] at hkept ⊢
      rw [List.cons_append, staysShort_some (by omega),
        ih (List.not_mem_of_not_mem_cons hnone) hkept]

/-- Without an error the request is filled or the stream ends short of it. -/
theorem staysShort_of_not_fillsFirst (hnone : none ∉ results)
    (hfills : ¬ FillsFirst size kept results) : StaysShort size kept results := by
  intro front hfront
  have hfree : none ∉ front := fun hmem => hnone (hfront.subset hmem)
  rw [List.count_eq_zero.mpr hfree]
  refine ⟨Nat.zero_le _, ?_⟩
  by_contra hge
  exact hfills ⟨front, hfront, hfree, by omega⟩

end Counts

/-- A chunk is a call of `read` with its length. -/
theorem results_data (first : UInt8) (more : List UInt8) (rest : Socket) :
    Socket.results (.data first more :: rest) = some (more.length + 1) :: rest.results := rfl

/-- An error is a failed call of `read`. -/
theorem results_error (rest : Socket) : Socket.results (.error :: rest) = none :: rest.results := rfl

/-- A request that is filled before the first error holds the next bytes of the stream. -/
theorem readIntoLoop_of_fillsFirst {socket : Socket} (hfills : FillsFirst size sum socket.results)
    (hsum : sum < size) (hrange : size < sizeRange) (buf : Buffer) :
    ∃ rest, size + rest.bytes.length = sum + socket.bytes.length ∧
      readIntoLoop size size socket sum buf =
        .ok (size, rest, buf.write sum (socket.bytes.take (size - sum))) := by
  induction socket generalizing sum buf with
  | nil => exact absurd (fillsFirst_nil.mp hfills) (by omega)
  | cons event socket ih =>
    cases event with
    | error => exact absurd (fillsFirst_none.mp hfills) (by omega)
    | data first more =>
      rw [results_data, fillsFirst_some] at hfills
      by_cases hpart : sum + (more.length + 1) < size
      · obtain ⟨rest, hlength, hrun⟩ := ih hfills hpart (buf.write sum (first :: more))
        have htake : (first :: more ++ Socket.bytes socket).take (size - sum) =
            first :: more ++ (Socket.bytes socket).take (size - (sum + (more.length + 1))) := by
          rw [List.take_append, List.take_of_length_le (by rw [List.length_cons]; omega),
            List.length_cons, Nat.sub_sub]
        refine ⟨rest, ?_, ?_⟩
        · rw [Socket.bytes_data, List.length_append, List.length_cons]
          omega
        · rw [readIntoLoop_part hpart hrange, hrun, Socket.bytes_data, htake,
            ← Buffer.write_write_append, List.length_cons]
      · have hfull : size ≤ sum + (more.length + 1) := by omega
        refine ⟨Socket.chunk ((first :: more).drop (size - sum)) ++ socket, ?_, ?_⟩
        · rw [Socket.bytes_append, Socket.bytes_chunk, Socket.bytes_data, List.length_append,
            List.length_append, List.length_drop, List.length_cons]
          omega
        · rw [readIntoLoop_full hsum hfull hrange, Socket.bytes_data,
            List.take_append_of_le_length (by rw [List.length_cons]; omega)]

/-- A request that stays short returns 0 at the end of the stream. -/
theorem readIntoLoop_of_staysShort {socket : Socket} (hshort : StaysShort size sum socket.results)
    (hrange : size < sizeRange) (buf : Buffer) :
    ∃ buf', readIntoLoop size size socket sum buf = .ok (0, [], buf') ∧
      ∀ i, size ≤ i → buf' i = buf i := by
  have hsum := hshort.kept_lt
  induction socket generalizing sum buf with
  | nil => exact ⟨buf, by rw [readIntoLoop, if_pos hsum], fun _ _ => rfl⟩
  | cons event socket ih =>
    cases event with
    | error =>
      cases sum with
      | zero => exact absurd hshort not_staysShort_zero_none
      | succ sum =>
        rw [results_error, staysShort_none hsum] at hshort
        rw [readIntoLoop_error_succ hsum hrange]
        exact ih hshort buf hshort.kept_lt
    | data first more =>
      rw [results_data, staysShort_some hsum] at hshort
      have hpart := hshort.kept_lt
      obtain ⟨buf', hrun, hsame⟩ := ih hshort (buf.write sum (first :: more)) hpart
      refine ⟨buf', (readIntoLoop_part hpart hrange).trans hrun, fun i hi => ?_⟩
      rw [hsame i hi, Buffer.write_apply_of_ge _ _ _ _ (by rw [List.length_cons]; omega)]

/-- Results without an error bring their bytes. -/
theorem readIntoLoop_append {front : Socket} (hnone : none ∉ front.results) (tail : Socket)
    (hsum : sum + front.bytes.length < size) (hrange : size < sizeRange) (buf : Buffer) :
    readIntoLoop size size (front ++ tail) sum buf =
      readIntoLoop size size tail (sum + front.bytes.length) (buf.write sum front.bytes) := by
  induction front generalizing sum buf with
  | nil => rw [Socket.bytes_nil, Buffer.write_nil, List.nil_append, List.length_nil, Nat.add_zero]
  | cons event front ih =>
    cases event with
    | error => exact absurd List.mem_cons_self hnone
    | data first more =>
      rw [Socket.bytes_data, List.length_append, List.length_cons, ← Nat.add_assoc] at hsum ⊢
      rw [List.cons_append, readIntoLoop_part (by omega) hrange,
        ih (List.not_mem_of_not_mem_cons hnone) hsum, ← Buffer.write_write_append, List.length_cons]

/-- After a byte was taken back, the next bytes overwrite it: with zeros only to come, the
request stays short, or there is a zero in its place, or its last byte is never written. -/
theorem readIntoLoop_filledWith_zero {results : List (Option ℕ)} (hresults : some 0 ∉ results)
    (hsum : sum < size) (hrange : size < sizeRange) {place : ℕ} (hplace : place < size)
    (hzero : ∀ i, place ≤ i → i < sum → buf i = 0) (hlast : buf (size - 1) = 1) {n : ℕ}
    {buf' : Buffer}
    (hrun : readIntoLoop size size (Socket.filledWith 0 results) sum buf = .ok (n, rest, buf')) :
    (n = 0 → StaysShort size sum results) ∧
      (n ≠ 0 → buf' place = 0 ∨ buf' (size - 1) = 1) := by
  induction results generalizing sum buf with
  | nil =>
    cases hrun
    rw [if_pos hsum, staysShort_nil]
    exact ⟨fun _ => hsum, fun hne => absurd rfl hne⟩
  | cons result results ih =>
    obtain ⟨hhead, htail⟩ := List.ne_and_not_mem_of_not_mem_cons hresults
    cases result with
    | none =>
      cases sum with
      | zero =>
        have hstop : readIntoLoop size size (.error :: Socket.filledWith 0 results) 0 buf =
            .ok (n, rest, buf') := hrun
        rw [readIntoLoop_error_zero (by omega) hrange] at hstop
        cases hstop
        exact ⟨fun hn => absurd hn (by omega), fun _ => Or.inr hlast⟩
      | succ sum =>
        have hrest : readIntoLoop size size (.error :: Socket.filledWith 0 results) (sum + 1) buf =
            .ok (n, rest, buf') := hrun
        rw [readIntoLoop_error_succ hsum hrange] at hrest
        rw [staysShort_none hsum]
        exact ih htail (by omega) (fun i hi hlt => hzero i hi (by omega)) hlast hrest
    | some count =>
      have hcount : count ≠ 0 := fun heq => hhead (heq ▸ rfl)
      have hlength : (List.replicate (count - 1) (0 : UInt8)).length + 1 = count := by
        rw [List.length_replicate]
        omega
      have hchunk : readIntoLoop size size
          (.data 0 (List.replicate (count - 1) 0) :: Socket.filledWith 0 results) sum buf =
            .ok (n, rest, buf') := hrun
      by_cases hpart : sum + count < size
      · rw [readIntoLoop_part (by rw [hlength]; exact hpart) hrange, hlength,
          Socket.cons_replicate_pred 0 hcount] at hchunk
        rw [staysShort_some hsum]
        apply ih htail hpart _ _ hchunk
        · intro i hi hlt
          rw [Buffer.write_replicate]
          split
          · rfl
          · exact hzero i hi (by omega)
        · rw [Buffer.write_replicate, if_neg (by omega), hlast]
      · rw [readIntoLoop_full hsum (by rw [hlength]; omega) hrange,
          Socket.cons_replicate_pred 0 hcount, List.take_replicate] at hchunk
        cases hchunk
        refine ⟨fun hn => absurd hn (by omega), fun _ => Or.inl ?_⟩
        rw [Buffer.write_replicate]
        split
        · rfl
        · exact hzero place le_rfl (by omega)

/-- A byte of a buffer that holds the front of some ones and then zeros. -/
theorem eq_ite_of_slice_eq {buf' : Buffer} {ones zeros i : ℕ} (hi : i < size)
    (hslice : buf'.slice 0 size =
      (List.replicate ones (1 : UInt8) ++ List.replicate zeros 0).take size) :
    buf' i = if i < ones then 1 else 0 := by
  have hget := congrArg (fun bytes => bytes.getD i 0) hslice
  simp only [Buffer.getD_slice, if_pos hi, Nat.zero_add] at hget
  rw [hget, List.getD_eq_getElem?_getD, List.getElem?_take_of_lt hi, List.getElem?_append,
    List.length_replicate]
  split
  · rw [List.getElem?_replicate, if_pos (by omega)]
    rfl
  · rw [List.getElem?_replicate]
    split <;> rfl

/-- The results at which a request may be filled after an error or wrapped around. -/
theorem staysShort_of_allOrNothing {results : List (Option ℕ)} (hpos : 0 < size)
    (hrange : size < sizeRange) (hresults : some 0 ∉ results)
    (hall : ∀ socket buf, socket.results = results → AllOrNothing size socket buf)
    (hfills : ¬ FillsFirst size 0 results) : StaysShort size 0 results := by
  by_cases hnone : none ∈ results
  · obtain ⟨front, back, rfl, hfree⟩ := List.eq_append_cons_of_mem hnone
    have hshort : 0 + Socket.arrived front < size := by
      by_contra hge
      exact hfills ⟨front, List.prefix_append _ _, hfree, by omega⟩
    have hfront : some 0 ∉ front := fun hmem => hresults (List.mem_append_left _ hmem)
    have hback : some 0 ∉ back := fun hmem =>
      hresults (List.mem_append_right _ (List.mem_cons_of_mem _ hmem))
    have hsame : Socket.results (Socket.filledWith 1 front ++ .error :: Socket.filledWith 0 back) =
        front ++ none :: back := by
      rw [Socket.results_append, Socket.results_filledWith 1 hfront, results_error,
        Socket.results_filledWith 0 hback]
    have hbytes : Socket.bytes (Socket.filledWith 1 front ++ .error :: Socket.filledWith 0 back) =
        List.replicate (Socket.arrived front) 1 ++ List.replicate (Socket.arrived back) 0 := by
      rw [Socket.bytes_append, Socket.bytes_error, Socket.bytes_filledWith 1 hfront,
        Socket.bytes_filledWith 0 hback]
    -- ones before the first error, zeros after it, into a buffer of ones
    obtain ⟨n, rest, buf', hrun, -, hn⟩ := hall _ (fun _ => 1) hsame
    rw [readIntoLoop_append (by rw [Socket.results_filledWith 1 hfront]; exact hfree) _
      (by rw [Socket.length_bytes, Socket.results_filledWith 1 hfront]; exact hshort) hrange,
      Socket.bytes_filledWith 1 hfront, List.length_replicate, Nat.zero_add] at hrun
    rw [hbytes] at hn
    rw [staysShort_append hfree hshort, Nat.zero_add]
    cases harrived : Socket.arrived front with
    | zero =>
      rw [harrived, readIntoLoop_error_zero hpos hrange] at hrun
      cases hrun
      rcases hn with hn | ⟨-, hlength, -⟩
      · omega
      · rw [harrived, Socket.bytes_filledWith 0 hback] at hlength
        simp only [List.length_append, List.length_replicate] at hlength
        omega
    | succ kept =>
      rw [harrived] at hrun hn hshort
      rw [readIntoLoop_error_succ (by omega) hrange] at hrun
      obtain ⟨hzero, hfilled⟩ := readIntoLoop_filledWith_zero hback (by omega) hrange
        (show kept < size by omega) (fun i hi hlt => absurd hlt (by omega))
        (by rw [Buffer.write_replicate, ite_self]) hrun
      rw [staysShort_none (by omega)]
      rcases hn with hn | ⟨hn, hlength, hslice⟩
      · exact hzero hn
      · have hplace : buf' kept = 1 := by
          rw [eq_ite_of_slice_eq (by omega) hslice, if_pos (Nat.lt_succ_self kept)]
        have hlast : buf' (size - 1) = 0 := by
          rw [eq_ite_of_slice_eq (by omega) hslice, if_neg (by omega)]
        rcases hfilled (by omega) with hoverwritten | hkept
        · rw [hplace] at hoverwritten
          cases hoverwritten
        · rw [hlast] at hkept
          cases hkept
  · exact staysShort_of_not_fillsFirst hnone hfills

/-- The results of `read` decide whether `read_until` is all or nothing on every stream that
comes with them: exactly when the request is filled before the first error, or when the
stream ends while more bytes than errors have come, but not as many more as are asked for. -/
theorem allOrNothing_iff (hpos : 0 < size) (hrange : size < sizeRange)
    {results : List (Option ℕ)} (hresults : some 0 ∉ results) :
    (∀ socket buf, socket.results = results → AllOrNothing size socket buf) ↔
      Harmless size results := by
  constructor
  · intro hall
    by_cases hfills : FillsFirst size 0 results
    · exact Or.inl hfills
    · exact Or.inr (staysShort_of_allOrNothing hpos hrange hresults hall hfills)
  · intro hharmless socket buf hsame
    subst hsame
    rcases hharmless with hfills | hshort
    · obtain ⟨rest, hlength, hrun⟩ := readIntoLoop_of_fillsFirst hfills hpos hrange buf
      have hreceived : (socket.bytes.take size).length ≤ size := List.length_take_le _ _
      rw [Nat.sub_zero] at hrun
      refine ⟨size, rest, _, hrun, fun i hi => ?_, Or.inr ⟨rfl, by omega, ?_⟩⟩
      · exact Buffer.write_apply_of_ge _ _ _ _ (by omega)
      · rw [Buffer.slice_write_zero _ _ _ (by rw [List.length_take]; omega), List.take_take,
          Nat.min_self]
    · obtain ⟨buf', hrun, hkept⟩ := readIntoLoop_of_staysShort hshort hrange buf
      exact ⟨0, [], buf', hrun, hkept, Or.inl rfl⟩

/-- The seven bytes of a message header in two pieces, with an error after them. -/
theorem allOrNothing_iff_headerInTwo :
    some 0 ∉ [some 3, some 4, none] ∧ ∀ (socket : Socket) (buf : Buffer),
      socket.results = [some 3, some 4, none] → AllOrNothing 7 socket buf :=
  ⟨by decide, (allOrNothing_iff (by decide) (by decide) (by decide)).mpr
    (Or.inl ⟨[some 3, some 4], by decide, by decide, by decide⟩)⟩

/-- A connection that is reset before its next message header: `read_until` returns the
largest `size_t`, with not one byte in the buffer. -/
theorem resetBeforeHeader_taken :
    readIntoLoop 7 7 [.error] 0 (fun _ => 0) = .ok (2 ^ 64 - 1, [], fun _ => 0) ∧
      ¬ AllOrNothing 7 [.error] fun _ => 0 := by
  have hrun : readIntoLoop 7 7 [.error] 0 (fun _ => 0) = .ok (2 ^ 64 - 1, [], fun _ => 0) :=
    readIntoLoop_error_zero (by decide) (by decide)
  refine ⟨hrun, fun ⟨n, rest, buf', hrun', _, hn⟩ => ?_⟩
  cases hrun.symm.trans hrun'
  rcases hn with hn | ⟨hn, -⟩
  · exact absurd hn (by decide)
  · exact absurd hn (by decide)

end AmqpBroker
