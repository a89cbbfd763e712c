import Mathlib
import Tos.Rlp.Stream

/-!
# Key derivation

`ecies::kdf` of `toscrypto/Common.cpp`: a shared secret is stretched by hashing it behind a
counter, one digest for each value of the counter.

The number of rounds is computed for pieces of 512 bits, while a digest has 256. Where the
digests do not reach, the key is filled up with zeros.

## Main results

* `kdf_eq_stream`: a key that the rounds cover is the beginning of the stream.
* `kdf_eq_stream_iff`: the lengths of which this is so with every hash function.

## Implementation notes

SHA256 is a parameter with digests of 32 bytes. `unsigned` is `UInt32`, so that the number of
rounds wraps as it does in the source.
-/

namespace Tos.Crypto

open List

/-- Byte strings of length `n`: `FixedHash<n>` and `std::array<byte, n>`. -/
abbrev FixedBytes (n : ℕ) := {b : Bytes // b.length = n}

/-- `Secret`. -/
abbrev Secret := FixedBytes 32

/-- `vector::resize`. -/
def resize (k : Bytes) (n : ℕ) : Bytes := k.take n ++ List.replicate (n - k.length) 0

@[simp] lemma length_resize (k : Bytes) (n : ℕ) : (resize k n).length = n := by
  simp only [resize, length_append, length_take, length_replicate]
  omega

lemma resize_of_le {k : Bytes} {n : ℕ} (h : n ≤ k.length) : resize k n = k.take n := by
  rw [resize, Nat.sub_eq_zero_of_le h, replicate_zero, append_nil]

/-! ### The counter -/

/-- `std::array<byte, 4> ctr`. -/
structure Counter where
  c₀ : UInt8
  c₁ : UInt8
  c₂ : UInt8
  c₃ : UInt8

namespace Counter

/-- The bytes in the order in which they are hashed. -/
def bytes (c : Counter) : Bytes := [c.c₀, c.c₁, c.c₂, c.c₃]

/-- `++ctr[3] || ++ctr[2] || ++ctr[1] || ++ctr[0]`. -/
def next (c : Counter) : Counter :=
  if c.c₃ + 1 ≠ 0 then { c with c₃ := c.c₃ + 1 }
  else if c.c₂ + 1 ≠ 0 then { c with c₂ := c.c₂ + 1, c₃ := c.c₃ + 1 }
  else if c.c₁ + 1 ≠ 0 then { c with c₁ := c.c₁ + 1, c₂ := c.c₂ + 1, c₃ := c.c₃ + 1 }
  else ⟨c.c₀ + 1, c.c₁ + 1, c.c₂ + 1, c.c₃ + 1⟩

/-- The number the counter stands for. -/
def value (c : Counter) : ℕ := BigEndian.value c.bytes

lemma value_eq (c : Counter) :
    c.value = ((c.c₀.toNat * 256 + c.c₁.toNat) * 256 + c.c₂.toNat) * 256 + c.c₃.toNat := by
  simp [value, bytes, BigEndian.value]

lemma bytes_eq_fixed (c : Counter) : c.bytes = BigEndian.fixed 4 c.value :=
  (BigEndian.fixed_value c.bytes).symm

lemma toNat_succ (b : UInt8) : (b + 1).toNat = (b.toNat + 1) % 256 := by simp

lemma succ_eq_zero_iff (b : UInt8) : b + 1 = 0 ↔ b.toNat = 255 := by
  have hb := b.toNat_lt
  rw [← UInt8.toNat_inj, toNat_succ, UInt8.toNat_zero]
  omega

/-- The carries add one, as long as the counter does not overflow. -/
lemma value_next {c : Counter} (h : c.value + 1 < 2 ^ 32) : c.next.value = c.value + 1 := by
  have h₁ := c.c₁.toNat_lt
  have h₂ := c.c₂.toNat_lt
  have h₃ := c.c₃.toNat_lt
  simp only [next, ne_eq, succ_eq_zero_iff]
  rw [value_eq] at h ⊢
  split_ifs <;> simp only [value_eq, toNat_succ] <;> omega

end Counter

/-! ### The derived key -/

section Kdf

variable (sha256 : Bytes → FixedBytes 32) (z : Secret) (s₁ : Bytes)

/-- The loop of `kdf`, `n` rounds from a counter on. -/
def kdfLoop : ℕ → Counter → Bytes → Bytes
  | 0, _, k => k
  | n + 1, ctr, k => kdfLoop n ctr.next (k ++ (sha256 (ctr.bytes ++ z ++ s₁)).val)

/-- `reps`; the loop makes one round more. -/
def reps (kdByteLen : UInt32) : UInt32 := (kdByteLen + 7) * 8 / 512

/-- `ecies::kdf`. -/
def kdf (kdByteLen : UInt32) : Bytes :=
  resize (kdfLoop sha256 z s₁ ((reps kdByteLen).toNat + 1) ⟨0, 0, 0, 1⟩ []) kdByteLen.toNat

/-- The digest behind the counter `j`. -/
def block (j : ℕ) : FixedBytes 32 := sha256 (BigEndian.fixed 4 j ++ z ++ s₁)

/-- The digests for the counters `1`, `2`, … one behind the other. -/
def stream (i : ℕ) : UInt8 := (block sha256 z s₁ (i / 32 + 1)).val.getD (i % 32) 0

/-- The first `n` bytes of the stream. -/
def streamBytes (n : ℕ) : Bytes := (List.range n).map (stream sha256 z s₁)

@[simp] lemma length_streamBytes (n : ℕ) : (streamBytes sha256 z s₁ n).length = n := by
  simp [streamBytes]

lemma take_streamBytes {m n : ℕ} (h : m ≤ n) :
    (streamBytes sha256 z s₁ n).take m = streamBytes sha256 z s₁ m := by
  rw [streamBytes, ← map_take, take_range, Nat.min_eq_left h, streamBytes]

/-- One digest more. -/
lemma streamBytes_succ (n : ℕ) :
    streamBytes sha256 z s₁ (32 * (n + 1)) =
      streamBytes sha256 z s₁ (32 * n) ++ (block sha256 z s₁ (n + 1)).val := by
  rw [streamBytes, Nat.mul_succ, range_add, map_append, map_map]
  refine congrArg _ (ext_getElem (by simp [(block sha256 z s₁ (n + 1)).property]) ?_)
  intro i hi hi'
  rw [length_map, length_range] at hi
  have hdiv : (32 * n + i) / 32 = n := by omega
  have hmod : (32 * n + i) % 32 = i := by omega
  simp [stream, hdiv, hmod, getD_eq_getElem?_getD, getElem?_eq_getElem hi']

/-- The loop goes on with the stream where the counter stands.

**Proof sketch.** Induction on the rounds. The counter holds the number of the next digest, and
as it does not overflow, the round writes that digest and the carries lead to the next number. -/
lemma kdfLoop_eq {n m : ℕ} {ctr : Counter} (hctr : ctr.value = m + 1) (h : m + n + 1 < 2 ^ 32) :
    kdfLoop sha256 z s₁ n ctr (streamBytes sha256 z s₁ (32 * m)) =
      streamBytes sha256 z s₁ (32 * (m + n)) := by
  induction n generalizing m ctr with
  | zero => rfl
  | succ n ih =>
    have hblock : sha256 (ctr.bytes ++ z ++ s₁) = block sha256 z s₁ (m + 1) := by
      rw [ctr.bytes_eq_fixed, hctr, block]
    have hnext : ctr.next.value = m + 1 + 1 := by rw [Counter.value_next (by omega), hctr]
    rw [kdfLoop, hblock, ← streamBytes_succ, ih hnext (by omega)]
    congr 2
    omega

lemma reps_toNat (n : UInt32) : (reps n).toNat = (n.toNat + 7) * 8 % 2 ^ 32 / 512 := by
  simp [reps, Nat.mod_mul_mod]

/-- The key is what the rounds give, cut off or filled up with zeros. -/
lemma kdf_eq_resize (n : UInt32) :
    kdf sha256 z s₁ n =
      resize (streamBytes sha256 z s₁ (32 * ((reps n).toNat + 1))) n.toNat := by
  have hreps := reps_toNat n
  have hloop := kdfLoop_eq sha256 z s₁ (n := (reps n).toNat + 1) (m := 0)
    (show (⟨0, 0, 0, 1⟩ : Counter).value = 0 + 1 by decide) (by omega)
  rw [Nat.zero_add] at hloop
  rw [kdf, ← hloop]
  rfl

/-- A key that the rounds cover is the beginning of the stream. -/
lemma kdf_eq_stream {n : UInt32} (h : n.toNat ≤ 32 * ((reps n).toNat + 1)) :
    kdf sha256 z s₁ n = streamBytes sha256 z s₁ n.toNat := by
  rw [kdf_eq_resize, resize_of_le (by simpa using h), take_streamBytes _ _ _ h]

/-- The rounds cover two spans of lengths only. -/
lemma covered_iff (n : UInt32) :
    n.toNat ≤ 32 * ((reps n).toNat + 1) ↔ n.toNat ≤ 32 ∨ 57 ≤ n.toNat ∧ n.toNat ≤ 64 := by
  have hn := n.toNat_lt
  rw [reps_toNat]
  omega

/-- Behind the digests the key is zero. -/
lemma getD_kdf_of_uncovered {n : UInt32} (h : 32 * ((reps n).toNat + 1) < n.toNat) :
    (kdf sha256 z s₁ n).getD (32 * ((reps n).toNat + 1)) 0 = 0 := by
  rw [kdf_eq_resize, resize, take_of_length_le (by simpa using h.le),
    getD_eq_getElem?_getD, getElem?_append_right (by simp)]
  simp [Nat.sub_pos_of_lt h]

end Kdf

/-- A hash function none of whose bytes is zero. -/
def ones : Bytes → FixedBytes 32 := fun _ => ⟨List.replicate 32 1, length_replicate⟩

lemma stream_ones (z : Secret) (s₁ : Bytes) (i : ℕ) : stream ones z s₁ i = 1 := by
  have hi : i % 32 < 32 := Nat.mod_lt _ (by decide)
  rw [stream, block, ones, getD_eq_getElem?_getD, getElem?_replicate, if_pos hi,
    Option.getD_some]

/-- **The derived key.** With every hash function the key of `n` bytes is the beginning of the
stream of digests, exactly if the rounds cover it: up to one digest, and close to two.

**Proof sketch.** The loop gives `32 * (reps + 1)` bytes of the stream, and what is missing is
zero. With a hash function without zeros the first missing byte differs from the stream. -/
theorem kdf_eq_stream_iff (z : Secret) (s₁ : Bytes) (n : UInt32) :
    (∀ sha256, kdf sha256 z s₁ n = streamBytes sha256 z s₁ n.toNat) ↔
      n.toNat ≤ 32 ∨ 57 ≤ n.toNat ∧ n.toNat ≤ 64 := by
  rw [← covered_iff]
  constructor
  · intro h
    by_contra! hlt
    have hzero := getD_kdf_of_uncovered ones z s₁ hlt
    rw [h ones, List.getD_eq_getElem?_getD, streamBytes, List.getElem?_map,
      List.getElem?_range hlt] at hzero
    simp [stream_ones] at hzero
  · intro h sha256
    exact kdf_eq_stream sha256 z s₁ h

/-- A key of 33 bytes is one digest and a zero. -/
theorem kdf_thirtyThree_ne_stream :
    kdf ones ⟨List.replicate 32 0, rfl⟩ [] 33 = List.replicate 32 1 ++ [0] ∧
      kdf ones ⟨List.replicate 32 0, rfl⟩ [] 33 ≠
        streamBytes ones ⟨List.replicate 32 0, rfl⟩ [] 33 := by
  decide

end Tos.Crypto
