import Mathlib
import Tos.Rlp.Stream

/-!
# Modular exponentiation

The precompiled contract `modexp` and its pricer. The input is a header of three lengths of 32 bytes
each, followed by a base, an exponent and a modulus of these lengths, and it counts as continued by
zeros without end. Nothing of what is missing is ever built: a number is read from the bytes that
are there, and shifted by those that are not.

## Main results

* `parseBigEndianRightPadded_eq`: cropping and shifting reads the continued input.
* `modexp_eq`, `modexpPrice_eq`: what the contract returns, and its price.
* `modexp_spec`: both, with the result as a number.

## Implementation notes

`bigint` has no bound. A conversion to `size_t` is always made behind a comparison that makes it
exact, so it does not show here. `boost::multiprecision::powm` is a parameter.
-/

namespace Tos.Eth.Precompiled

open List

/-- `numeric_limits<size_t>::max() / 8`. -/
def maxShift : ℕ := (2 ^ 64 - 1) / 8

/-- `parseBigEndianRightPadded`: a number of `count` bytes. -/
def parseBigEndianRightPadded (input : Bytes) (start count : ℕ) : Option ℕ :=
  if input.length < start then some 0
  else if maxShift < count then none
  else
    let cropped := (input.drop start).take (min count (input.length - start))
    if maxShift < count - cropped.length then none
    else some (BigEndian.value cropped <<< (8 * (count - cropped.length)))

/-- `toBigEndian` into a byte string of length `n`: the lowest byte is written last. -/
def toBigEndian (val : ℕ) : ℕ → Bytes
  | 0 => []
  | n + 1 => toBigEndian (val >>> 8) n ++ [UInt8.ofNat (val % 256)]

/-- The precompiled contract `modexp`. -/
def modexp (powm : ℕ → ℕ → ℕ → ℕ) (input : Bytes) : Option (Bool × Bytes) := do
  let baseLength ← parseBigEndianRightPadded input 0 32
  let expLength ← parseBigEndianRightPadded input 32 32
  let modLength ← parseBigEndianRightPadded input 64 32
  guard (modLength ≤ maxShift)
  guard (baseLength ≤ maxShift)
  if modLength = 0 ∧ baseLength = 0 then
    return (true, [])
  guard (expLength ≤ maxShift)
  let base ← parseBigEndianRightPadded input 96 baseLength
  let exp ← parseBigEndianRightPadded input (96 + baseLength) expLength
  let mod ← parseBigEndianRightPadded input (96 + baseLength + expLength) modLength
  let result := if mod ≠ 0 then powm base exp mod else 0
  return (true, toBigEndian result modLength)

/-- The index of the highest bit, where there is one: `exp ? msb(exp) : 0`. -/
def msbOrZero (n : ℕ) : ℕ := if n ≠ 0 then n.log2 else 0

/-- `expLengthAdjust`. -/
def expLengthAdjust (expOffset expLength : ℕ) (input : Bytes) : Option ℕ :=
  if expLength ≤ 32 then do
    let exp ← parseBigEndianRightPadded input expOffset expLength
    return msbOrZero exp
  else do
    let expFirstWord ← parseBigEndianRightPadded input expOffset 32
    return 8 * (expLength - 32) + msbOrZero expFirstWord

/-- `multComplexity`. -/
def multComplexity (x : ℕ) : ℕ :=
  if x ≤ 64 then x * x
  else if x ≤ 1024 then x * x / 4 + 96 * x - 3072
  else x * x / 16 + 480 * x - 199680

/-- The pricer of `modexp`. -/
def modexpPrice (input : Bytes) : Option ℕ := do
  let baseLength ← parseBigEndianRightPadded input 0 32
  let expLength ← parseBigEndianRightPadded input 32 32
  let modLength ← parseBigEndianRightPadded input 64 32
  let maxLength := max modLength baseLength
  let adjustedExpLength ← expLengthAdjust (baseLength + 96) expLength input
  return multComplexity maxLength * max adjustedExpLength 1 / 20

/-! ### The input continued by zeros -/

/-- The bytes from a position on, of the input continued by zeros. -/
def paddedBytes (input : Bytes) (start count : ℕ) : Bytes :=
  (List.range count).map fun i => input.getD (start + i) 0

/-- The number that stands there. -/
def padded (input : Bytes) (start count : ℕ) : ℕ := BigEndian.value (paddedBytes input start count)

/-- The length of the base. -/
def baseLength (input : Bytes) : ℕ := padded input 0 32

/-- The length of the exponent. -/
def expLength (input : Bytes) : ℕ := padded input 32 32

/-- The length of the modulus. -/
def modLength (input : Bytes) : ℕ := padded input 64 32

/-- The base. -/
def base (input : Bytes) : ℕ := padded input 96 (baseLength input)

/-- The exponent. -/
def exponent (input : Bytes) : ℕ := padded input (96 + baseLength input) (expLength input)

/-- The modulus. -/
def modulus (input : Bytes) : ℕ :=
  padded input (96 + baseLength input + expLength input) (modLength input)

/-- The adjusted length of the exponent: the index of the highest bit of an exponent of up to 32
bytes, of a longer one that of its first 32 bytes and eight for each further byte. -/
def adjustedExponentLength (input : Bytes) : ℕ :=
  if expLength input ≤ 32 then Nat.log 2 (exponent input)
  else 8 * (expLength input - 32) + Nat.log 2 (padded input (96 + baseLength input) 32)

variable {input : Bytes} {start count : ℕ}

/-- The bytes that are there, and zeros. -/
lemma paddedBytes_eq (input : Bytes) (start count : ℕ) :
    paddedBytes input start count = (input.drop start).take count ++
      List.replicate (count - ((input.drop start).take count).length) 0 := by
  refine ext_getElem ?_ fun i hi _ => ?_
  · simp [paddedBytes]
  · rw [getElem_append]
    simp only [paddedBytes, getElem_map, getElem_range]
    split_ifs with hlt
    · rw [getElem_take, getElem_drop, getD_eq_getElem]
    · rw [getElem_replicate]
      refine getD_eq_default _ _ ?_
      simp only [length_take, length_drop, paddedBytes, length_map,
        length_range] at hi hlt
      omega

lemma length_paddedBytes : (paddedBytes input start count).length = count := by
  simp [paddedBytes]

lemma padded_lt (input : Bytes) (start count : ℕ) : padded input start count < 256 ^ count := by
  have h := BigEndian.value_lt (paddedBytes input start count)
  rwa [length_paddedBytes] at h

/-- **Cropping and shifting reads the continued input.** -/
theorem parseBigEndianRightPadded_eq (h : count ≤ maxShift) :
    parseBigEndianRightPadded input start count = some (padded input start count) := by
  rw [parseBigEndianRightPadded]
  by_cases hstart : input.length < start
  · -- all that is read lies behind the input
    have hdrop : input.drop start = [] := drop_eq_nil_of_le hstart.le
    rw [if_pos hstart, padded, paddedBytes_eq, hdrop, take_nil, nil_append,
      ← nil_append (List.replicate _ _), BigEndian.value_append_replicate]
    simp
  · have hcrop : (input.drop start).take (min count (input.length - start)) =
        (input.drop start).take count := by
      rw [← length_drop, ← take_take, take_length]
    rw [if_neg hstart, if_neg h.not_gt]
    simp only [hcrop]
    rw [if_neg (by omega), padded, paddedBytes_eq, BigEndian.value_append_replicate,
      Nat.shiftLeft_eq, Nat.pow_mul]

lemma parse_word (start : ℕ) :
    parseBigEndianRightPadded input start 32 = some (padded input start 32) :=
  parseBigEndianRightPadded_eq (by decide)

/-! ### The result -/

/-- The value of what is written, as far as it fits. -/
lemma value_toBigEndian (val n : ℕ) : BigEndian.value (toBigEndian val n) = val % 256 ^ n := by
  induction n generalizing val with
  | zero => simp [toBigEndian, Nat.mod_one]
  | succ n ih =>
    have hbyte : (UInt8.ofNat (val % 256)).toNat = val % 256 := by simp
    have hpow : 256 ^ (n + 1) = 256 * 256 ^ n := pow_succ' 256 n
    rw [toBigEndian, BigEndian.value_concat, ih, hbyte, Nat.shiftRight_eq_div_pow, hpow,
      Nat.mod_mul, Nat.mul_comm, Nat.add_comm]

lemma length_toBigEndian (val n : ℕ) : (toBigEndian val n).length = n := by
  induction n generalizing val with
  | zero => rfl
  | succ n ih => rw [toBigEndian, length_append, ih, length_singleton]

/-- The contract in terms of the continued input. -/
theorem modexp_eq (powm : ℕ → ℕ → ℕ → ℕ) (hbase : baseLength input ≤ maxShift)
    (hexp : expLength input ≤ maxShift) (hmod : modLength input ≤ maxShift) :
    modexp powm input = some (true, toBigEndian
      (if modulus input ≠ 0 then powm (base input) (exponent input) (modulus input) else 0)
      (modLength input)) := by
  have hb := @parseBigEndianRightPadded_eq input 96 _ hbase
  have he := @parseBigEndianRightPadded_eq input (96 + baseLength input) _ hexp
  have hm := @parseBigEndianRightPadded_eq input (96 + baseLength input + expLength input) _ hmod
  simp only [modexp, parse_word, Option.bind_eq_bind, Option.bind_some, guard,
    show padded input 0 32 = baseLength input from rfl,
    show padded input 32 32 = expLength input from rfl,
    show padded input 64 32 = modLength input from rfl, if_pos hbase, if_pos hexp, if_pos hmod,
    hb, he, hm]
  by_cases hzero : modLength input = 0 ∧ baseLength input = 0
  · rw [if_pos hzero, hzero.1]
    rfl
  · rw [if_neg hzero]
    rfl

lemma msbOrZero_eq (n : ℕ) : msbOrZero n = Nat.log 2 n := by
  rw [msbOrZero, Nat.log2_eq_log_two]
  split_ifs with hn
  · rfl
  · rw [not_not.mp hn, Nat.log_zero_right]

/-- The adjusted length of the exponent. -/
lemma expLengthAdjust_eq : expLengthAdjust (baseLength input + 96) (expLength input) input =
    some (adjustedExponentLength input) := by
  rw [expLengthAdjust, adjustedExponentLength, add_comm (baseLength input)]
  by_cases hle : expLength input ≤ 32
  · have hshift : expLength input ≤ maxShift := hle.trans (by decide)
    rw [if_pos hle, if_pos hle, parseBigEndianRightPadded_eq hshift]
    exact congrArg some (msbOrZero_eq _)
  · rw [if_neg hle, if_neg hle, parse_word]
    exact congrArg (fun n => some (8 * (expLength input - 32) + n)) (msbOrZero_eq _)

/-- The complexity as a number without rounding: the pieces meet at 64 and at 1024, and behind them
the square counts a quarter and a sixteenth. -/
lemma multComplexity_spec (x : ℕ) :
    (x ≤ 64 → multComplexity x = x ^ 2) ∧
    (64 < x → x ≤ 1024 → 4 * (multComplexity x + 3072) + x ^ 2 % 4 = x ^ 2 + 384 * x) ∧
    (1024 < x → 16 * (multComplexity x + 199680) + x ^ 2 % 16 = x ^ 2 + 7680 * x) := by
  rw [multComplexity, pow_two]
  refine ⟨fun h => if_pos h, fun h h' => ?_, fun h => ?_⟩
  · have hsq : 64 * 64 ≤ x * x := Nat.mul_le_mul h.le h.le
    rw [if_neg (by omega), if_pos h']
    omega
  · have hsq : 1024 * 1024 ≤ x * x := Nat.mul_le_mul h.le h.le
    rw [if_neg (by omega), if_neg (by omega)]
    omega

/-- The price, for every input. -/
theorem modexpPrice_eq (input : Bytes) :
    modexpPrice input = some (multComplexity (max (modLength input) (baseLength input)) *
      max (adjustedExponentLength input) 1 / 20) := by
  simp only [modexpPrice, parse_word, Option.bind_eq_bind, Option.bind_some]
  rw [show padded input 0 32 = baseLength input from rfl,
    show padded input 32 32 = expLength input from rfl, expLengthAdjust_eq]
  rfl

/-- **Modular exponentiation.** With lengths below `2 ^ 60` the contract succeeds and returns as
many bytes as the modulus has, which hold the power modulo the modulus, or zero if that is zero; and
the price of every input is computed from its lengths and the adjusted length of the exponent. -/
theorem modexp_spec (powm : ℕ → ℕ → ℕ → ℕ)
    (hpowm : ∀ b e m, m ≠ 0 → powm b e m = b ^ e % m) (input : Bytes) :
    (baseLength input < 2 ^ 60 → expLength input < 2 ^ 60 → modLength input < 2 ^ 60 →
      ∃ out, modexp powm input = some (true, out) ∧ out.length = modLength input ∧
        BigEndian.value out =
          if modulus input = 0 then 0 else base input ^ exponent input % modulus input) ∧
    modexpPrice input = some (multComplexity (max (modLength input) (baseLength input)) *
      max (adjustedExponentLength input) 1 / 20) := by
  refine ⟨fun hbase hexp hmod => ?_, modexpPrice_eq input⟩
  have hshift {n : ℕ} (h : n < 2 ^ 60) : n ≤ maxShift := h.le.trans (by decide)
  refine ⟨_, modexp_eq powm (hshift hbase) (hshift hexp) (hshift hmod), length_toBigEndian _ _, ?_⟩
  rw [value_toBigEndian]
  by_cases hzero : modulus input = 0
  · rw [if_neg (not_not.mpr hzero), if_pos hzero, Nat.zero_mod]
  · rw [if_pos hzero, if_neg hzero, hpowm _ _ _ hzero]
    -- the result is below the modulus, which fits into its own length
    exact Nat.mod_eq_of_lt ((Nat.mod_lt _ (Nat.pos_of_ne_zero hzero)).trans (padded_lt _ _ _))

/-- An input that ends inside the modulus: `3 ^ 2` modulo `5 * 256`. -/
def threeSquared : Bytes :=
  List.replicate 31 0 ++ [1] ++ List.replicate 31 0 ++ [1] ++ List.replicate 31 0 ++
    [2] ++ [3, 2, 5]

theorem modexp_spec_threeSquared :
    (baseLength threeSquared = 1 ∧ expLength threeSquared = 1 ∧ modLength threeSquared = 2) ∧
    ∃ out, modexp (fun b e m => b ^ e % m) threeSquared = some (true, out) ∧
      out.length = modLength threeSquared ∧
      BigEndian.value out = if modulus threeSquared = 0 then 0
        else base threeSquared ^ exponent threeSquared % modulus threeSquared :=
  ⟨by decide +kernel, (modexp_spec (fun b e m => b ^ e % m) (fun _ _ _ _ => rfl) threeSquared).1
    (by decide +kernel) (by decide +kernel) (by decide +kernel)⟩

example : modexp (fun b e m => b ^ e % m) threeSquared = some (true, [0, 9]) := by decide +kernel

end Tos.Eth.Precompiled
