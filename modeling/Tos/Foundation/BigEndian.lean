import Mathlib.Data.Nat.Digits.Defs
import Mathlib.Data.Nat.Digits.Lemmas

/-!
# Big-endian byte strings

The two directions between natural numbers and byte strings, most significant byte first:
the value of a byte string, and the shortest byte string with a given value. The digits
themselves are Mathlib's `Nat.digits 256`; this file only turns them round and packs them
into bytes.

## Main results

* `BigEndian.value_bytes`: `bytes` is a right inverse of `value`.
* `BigEndian.bytes_value`: a byte string without a leading zero is the shortest one with
  its value.
* `BigEndian.length_bytes_le_iff`: `n` fits in `k` bytes iff `n < 256 ^ k`.
* `BigEndian.fixed_value`: a byte string is the one of its length with its value.
-/

namespace BigEndian

open List

/-- The number denoted by a byte string, most significant byte first. -/
def value (l : List UInt8) : ℕ := l.foldl (fun acc b => acc * 256 + b.toNat) 0

/-- The shortest byte string denoting `n`, most significant byte first. -/
def bytes (n : ℕ) : List UInt8 := (Nat.digits 256 n).reverse.map UInt8.ofNat

/-- No bytes are zero. -/
@[simp] lemma value_nil : value [] = 0 := rfl

/-- One more byte at the end. -/
lemma value_concat (l : List UInt8) (b : UInt8) : value (l ++ [b]) = value l * 256 + b.toNat := by
  simp [value]

/-- The value of a byte string is its digit sum in base `256`. -/
lemma value_eq_ofDigits (l : List UInt8) :
    value l = Nat.ofDigits 256 (l.reverse.map UInt8.toNat) := by
  induction l using List.reverseRecOn with
  | nil => rfl
  | append_singleton l b ih =>
    rw [value_concat, ih, reverse_append, reverse_singleton, singleton_append,
      map_cons, Nat.ofDigits_cons]
    ring

/-- The value of two parts. -/
lemma value_append (l m : List UInt8) : value (l ++ m) = value l * 256 ^ m.length + value m := by
  simp only [value_eq_ofDigits, reverse_append, map_append, Nat.ofDigits_append]
  simp [Nat.mul_comm, Nat.add_comm]

/-- One more byte in front. -/
lemma value_cons (b : UInt8) (l : List UInt8) :
    value (b :: l) = b.toNat * 256 ^ l.length + value l := by
  rw [← singleton_append, value_append]
  simp [value]

/-- The bytes of a string, read as digits, are below the base. -/
private lemma digit_lt (l : List UInt8) : ∀ d ∈ l.map UInt8.toNat, d < 256 := by
  intro d hd
  obtain ⟨b, -, rfl⟩ := List.mem_map.mp hd
  exact b.toNat_lt

/-- Packing digits into bytes loses nothing. -/
private lemma map_toNat_bytes (n : ℕ) : (bytes n).reverse.map UInt8.toNat = Nat.digits 256 n := by
  rw [bytes, ← map_reverse, reverse_reverse, map_map]
  refine (map_congr_left fun d hd => ?_).trans (map_id _)
  have hlt : d < 256 := Nat.digits_lt_base (by norm_num) hd
  simp [UInt8.toNat_ofNat', Nat.mod_eq_of_lt hlt]

/-- The shortest form has the value it is of. -/
@[simp] theorem value_bytes (n : ℕ) : value (bytes n) = n := by
  rw [value_eq_ofDigits, map_toNat_bytes, Nat.ofDigits_digits]

/-- The value of so many bytes is bounded. -/
theorem value_lt (l : List UInt8) : value l < 256 ^ l.length := by
  rw [value_eq_ofDigits]
  have h := Nat.ofDigits_lt_base_pow_length (b := 256) (by norm_num) (digit_lt l.reverse)
  simpa using h

/-- Zero is written with no bytes. -/
@[simp] lemma bytes_zero : bytes 0 = [] := by simp [bytes]

/-- Only zero is written with no bytes. -/
@[simp] lemma bytes_eq_nil_iff {n : ℕ} : bytes n = [] ↔ n = 0 := by
  simp [bytes, Nat.digits_eq_nil_iff_eq_zero]

/-- One byte for every digit to the base 256. -/
lemma length_bytes (n : ℕ) : (bytes n).length = (Nat.digits 256 n).length := by
  simp [bytes]

/-- The numbers that fit in `k` bytes. -/
theorem length_bytes_le_iff {n k : ℕ} : (bytes n).length ≤ k ↔ n < 256 ^ k := by
  rw [length_bytes]
  exact Nat.digits_length_le_iff (by norm_num) n

/-- The shortest byte string of a positive number ends in its last base-`256` digit, behind
the shortest byte string of the rest. -/
theorem bytes_of_pos {n : ℕ} (hn : 0 < n) : bytes n = bytes (n / 256) ++ [UInt8.ofNat n] := by
  have hmod : UInt8.ofNat (n % 256) = UInt8.ofNat n := UInt8.toNat_inj.mp (by simp)
  rw [bytes, Nat.digits_def' (by norm_num) hn]
  simp [bytes, hmod]

/-- A small number is one byte. -/
lemma bytes_of_lt {n : ℕ} (h0 : n ≠ 0) (h : n < 256) : bytes n = [UInt8.ofNat n] := by
  simp [bytes, Nat.digits_of_lt 256 n h0 h]

/-- The shortest byte string of a number has no leading zero. -/
theorem head?_bytes_ne_zero (n : ℕ) : (bytes n).head? ≠ some 0 := by
  intro h
  rw [head?_eq_some_iff] at h
  obtain ⟨tl, htl⟩ := h
  have hd : Nat.digits 256 n = (tl.reverse.map UInt8.toNat) ++ [0] := by
    rw [← map_toNat_bytes n, htl]
    simp
  have hne : Nat.digits 256 n ≠ [] := by rw [hd]; simp
  have hn : n ≠ 0 := Nat.digits_ne_nil_iff_ne_zero.mp hne
  have hlast := Nat.getLast_digit_ne_zero 256 hn
  exact hlast (by simp [hd])

/-- A byte string without a leading zero is the shortest one with its value. -/
theorem bytes_value {l : List UInt8} (h : l.head? ≠ some 0) : bytes (value l) = l := by
  have hdig : Nat.digits 256 (value l) = l.reverse.map UInt8.toNat := by
    rw [value_eq_ofDigits]
    refine Nat.digits_ofDigits 256 (by norm_num) _ (digit_lt _) fun hne => ?_
    intro hz
    cases l with
    | nil => simp at hne
    | cons b l =>
      apply h
      simp only [reverse_cons, map_append, map_cons, map_nil,
        getLast_append_singleton] at hz
      have hb : b = 0 := UInt8.toNat_inj.mp (by simpa using hz)
      simp [hb]
  rw [bytes, hdig, ← map_reverse, reverse_reverse, map_map]
  exact (map_congr_left fun b _ => by simp).trans (map_id _)

/-- Numbers are determined by their shortest forms. -/
theorem bytes_injective : Function.Injective bytes := fun m n h => by
  rw [← value_bytes m, h, value_bytes]

/-! ### Byte strings of a fixed length -/

/-- The byte string of length `k` denoting `n`, for `n < 256 ^ k`: the shortest one behind
zeros. -/
def fixed (k n : ℕ) : List UInt8 := List.replicate (k - (bytes n).length) 0 ++ bytes n

/-- A leading zero does not count. -/
@[simp] lemma value_zero_cons (l : List UInt8) : value (0 :: l) = value l := rfl

/-- Leading zeros do not count. -/
@[simp] lemma value_replicate_append (m : ℕ) (l : List UInt8) :
    value (List.replicate m 0 ++ l) = value l := by
  induction m with
  | zero => rfl
  | succ m ih => rw [replicate_succ, cons_append, value_zero_cons, ih]

/-- Zeros behind a byte string shift its value. -/
lemma value_append_replicate (l : List UInt8) (n : ℕ) :
    value (l ++ List.replicate n 0) = value l * 256 ^ n := by
  have hzero : value (List.replicate n 0) = 0 := by
    simpa using value_replicate_append n []
  rw [value_append, length_replicate, hzero, add_zero]

/-- A padded form has the value it is of. -/
@[simp] theorem value_fixed (k n : ℕ) : value (fixed k n) = n := by
  rw [fixed, value_replicate_append, value_bytes]

/-- A padded form has the length asked for. -/
theorem length_fixed {k n : ℕ} (h : n < 256 ^ k) : (fixed k n).length = k := by
  have := length_bytes_le_iff.mpr h
  simp only [fixed, length_append, length_replicate]
  omega

/-- A byte string is the one of its length with its value. -/
theorem fixed_value (l : List UInt8) : fixed l.length (value l) = l := by
  induction l with
  | nil => rfl
  | cons b l ih =>
    by_cases hb : b = 0
    · have hle : (bytes (value l)).length ≤ l.length := length_bytes_le_iff.mpr (value_lt l)
      rw [hb, value_zero_cons, fixed, length_cons, Nat.succ_sub hle, replicate_succ,
        cons_append]
      exact congrArg _ ih
    · have hbytes : bytes (value (b :: l)) = b :: l := bytes_value (by simpa using hb)
      rw [fixed, hbytes, Nat.sub_self, replicate_zero, nil_append]

/-- At one length, the value determines the bytes. -/
theorem value_inj {l m : List UInt8} (hlen : l.length = m.length) : value l = value m ↔ l = m :=
  ⟨fun h => by rw [← fixed_value l, hlen, h, fixed_value], congrArg value⟩

end BigEndian
