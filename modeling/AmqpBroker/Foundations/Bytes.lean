import Mathlib.Data.Nat.Basic
import Mathlib.Tactic.Ring

/-!
# Fixed-width integers as byte strings

The memory image of an unsigned integer on a little-endian host, the network order
image, and the byte reversal that turns one into the other. Widths are parameters, so
the 16, 32 and 64 bit conversions of a socket program are instances.
-/

namespace Foundations

/-- The unsigned value of a little-endian byte string. -/
def ofLE : List UInt8 → ℕ
  | [] => 0
  | byte :: rest => byte.toNat + 256 * ofLE rest

/-- The first `width` little-endian bytes of a number. -/
def toLE : ℕ → ℕ → List UInt8
  | 0, _ => []
  | width + 1, n => UInt8.ofNat (n % 256) :: toLE width (n / 256)

/-- The unsigned value of a big-endian (network order) byte string. -/
def ofBE (bytes : List UInt8) : ℕ := ofLE bytes.reverse

/-- The network order image of a number. -/
def toBE (width n : ℕ) : List UInt8 := (toLE width n).reverse

/-- Reverse the bytes of a `width`-byte number held in memory. -/
def swapBytes (width n : ℕ) : ℕ := ofLE (toLE width n).reverse

/-- An image has as many bytes as its width. -/
@[simp] theorem toLE_length (width n : ℕ) : (toLE width n).length = width := by
  induction width generalizing n with
  | zero => rfl
  | succ width ih => simp [toLE, ih]

/-- A network order image has as many bytes as its width. -/
@[simp] theorem toBE_length (width n : ℕ) : (toBE width n).length = width := by
  simp [toBE]

/-- The value of a byte string fits its length. -/
theorem ofLE_lt (bytes : List UInt8) : ofLE bytes < 256 ^ bytes.length := by
  induction bytes with
  | nil => simp [ofLE]
  | cons byte rest ih =>
    have hbyte := byte.toNat_lt
    simp only [ofLE, List.length_cons, pow_succ]
    omega

/-- The value of a network order byte string fits its length. -/
theorem ofBE_lt (bytes : List UInt8) : ofBE bytes < 256 ^ bytes.length := by
  simpa [ofBE] using ofLE_lt bytes.reverse

/-- Taking the image of a value gives the bytes back. -/
theorem toLE_ofLE (bytes : List UInt8) : toLE bytes.length (ofLE bytes) = bytes := by
  induction bytes with
  | nil => rfl
  | cons byte rest ih =>
    have hbyte := byte.toNat_lt
    have hlow : (byte.toNat + 256 * ofLE rest) % 256 = byte.toNat := by omega
    have hhigh : (byte.toNat + 256 * ofLE rest) / 256 = ofLE rest := by omega
    simp only [ofLE, List.length_cons, toLE, hlow, hhigh, ih, UInt8.ofNat_toNat]

/-- Taking the value of an image gives the number back when it fits. -/
theorem ofLE_toLE (width n : ℕ) (h : n < 256 ^ width) : ofLE (toLE width n) = n := by
  induction width generalizing n with
  | zero =>
    simp only [pow_zero] at h
    simp only [toLE, ofLE]
    omega
  | succ width ih =>
    have hhigh : n / 256 < 256 ^ width := by
      rw [pow_succ] at h
      omega
    have hlow : (UInt8.ofNat (n % 256)).toNat = n % 256 := by
      rw [UInt8.toNat_ofNat']
      omega
    simp only [toLE, ofLE, ih _ hhigh, hlow]
    omega

/-- Decoding inverts encoding in network order. -/
theorem ofBE_toBE (width n : ℕ) (h : n < 256 ^ width) : ofBE (toBE width n) = n := by
  simpa [ofBE, toBE] using ofLE_toLE width n h

/-- Encoding inverts decoding in network order. -/
theorem toBE_ofBE (bytes : List UInt8) : toBE bytes.length (ofBE bytes) = bytes := by
  have h := toLE_ofLE bytes.reverse
  rw [List.length_reverse] at h
  rw [toBE, ofBE, h, List.reverse_reverse]

/-- The value of two byte strings behind each other. -/
theorem ofLE_append (left right : List UInt8) :
    ofLE (left ++ right) = ofLE left + 256 ^ left.length * ofLE right := by
  induction left with
  | nil => simp [ofLE]
  | cons byte left ih =>
    rw [List.cons_append, ofLE, ih, ofLE, List.length_cons, pow_succ]
    ring

/-- The value of two byte strings behind each other in network order. -/
theorem ofBE_append (left right : List UInt8) :
    ofBE (left ++ right) = ofBE left * 256 ^ right.length + ofBE right := by
  rw [ofBE, List.reverse_append, ofLE_append, List.length_reverse, ofBE, ofBE]
  ring

/-- An image in two parts. -/
theorem toLE_add (low high n : ℕ) :
    toLE (low + high) n = toLE low n ++ toLE high (n / 256 ^ low) := by
  induction low generalizing n with
  | zero => simp [toLE]
  | succ low ih =>
    rw [Nat.succ_add, toLE, ih, toLE, List.cons_append, Nat.div_div_eq_div_mul, ← pow_succ']

/-- An image takes no notice of what its width cannot hold. -/
theorem toLE_add_mul (width n k : ℕ) : toLE width (n + 256 ^ width * k) = toLE width n := by
  induction width generalizing n with
  | zero => rfl
  | succ width ih =>
    have hlow : (n + 256 ^ (width + 1) * k) % 256 = n % 256 := by
      rw [pow_succ', Nat.mul_assoc, Nat.add_mul_mod_self_left]
    have hhigh : (n + 256 ^ (width + 1) * k) / 256 = n / 256 + 256 ^ width * k := by
      rw [pow_succ', Nat.mul_assoc, Nat.add_mul_div_left _ _ (by norm_num)]
    rw [toLE, hlow, hhigh, ih, toLE]

/-- A network order image determines a number that fits. -/
theorem toBE_inj {width n m : ℕ} (hn : n < 256 ^ width) (hm : m < 256 ^ width) :
    toBE width n = toBE width m ↔ n = m := by
  constructor
  · intro h
    have hvalue := congrArg ofBE h
    rwa [ofBE_toBE _ _ hn, ofBE_toBE _ _ hm] at hvalue
  · intro h
    rw [h]

/-- Reversing a value loaded from memory reads the same bytes in network order. -/
theorem swapBytes_ofLE (bytes : List UInt8) : swapBytes bytes.length (ofLE bytes) = ofBE bytes := by
  rw [swapBytes, toLE_ofLE, ofBE]

/-- Storing a reversed value writes the network order image. -/
theorem toLE_swapBytes (width n : ℕ) : toLE width (swapBytes width n) = toBE width n := by
  have h := toLE_ofLE (toLE width n).reverse
  rw [List.length_reverse, toLE_length] at h
  exact h

/-- A reversed value still fits the width. -/
theorem swapBytes_lt (width n : ℕ) : swapBytes width n < 256 ^ width := by
  have h := ofLE_lt (toLE width n).reverse
  rwa [List.length_reverse, toLE_length] at h

end Foundations
