import Tos.Rlp.Stream
import Mathlib.Data.BitVec

/-!
# Hashes of a fixed length

The template `FixedHash`: bit vectors here, which are written as big-endian byte strings.

## Main definitions

* `Tos.Sdag.H256`: `h256`.
* `Wire.hashBytes`, `Wire.ofHashBytes`: the bytes of a hash, and the hash of
  a byte string.
-/

namespace Tos.Sdag

open BigEndian (fixed value value_fixed value_lt)

/-- `h256`. -/
abbrev H256 := BitVec 256

instance : Finite H256 :=
  Finite.of_injective BitVec.toFin fun _ _ h => BitVec.eq_of_toFin_eq h

namespace Wire

/-- The bytes of a `FixedHash` of `w / 8` bytes, as `ref()` gives them. -/
def hashBytes {w : ℕ} (h : BitVec w) : Bytes := fixed (w / 8) h.toNat

/-- The `FixedHash` with these bytes. -/
def ofHashBytes (w : ℕ) (x : Bytes) : BitVec w := BitVec.ofNat w (value x)

lemma hashBytes_injective {w : ℕ} : Function.Injective (hashBytes (w := w)) := by
  intro x y h
  have hv := congrArg value h
  rw [hashBytes, hashBytes, value_fixed, value_fixed] at hv
  exact BitVec.eq_of_toNat_eq hv

/-- A hash of full length is kept. -/
lemma hashBytes_ofHashBytes {w : ℕ} {x : Bytes} (h : w = 8 * x.length) :
    hashBytes (ofHashBytes w x) = x := by
  have hlt : value x < 2 ^ w := by
    rw [h, Nat.pow_mul]
    exact value_lt x
  rw [hashBytes, ofHashBytes, BitVec.toNat_ofNat, Nat.mod_eq_of_lt hlt, h,
    Nat.mul_div_cancel_left _ (by norm_num), BigEndian.fixed_value]

lemma ofHashBytes_hashBytes {w : ℕ} (h : BitVec w) : ofHashBytes w (hashBytes h) = h := by
  rw [ofHashBytes, hashBytes, value_fixed, BitVec.ofNat_toNat, BitVec.setWidth_eq]

lemma length_hashBytes (h : H256) : (hashBytes h).length = 32 :=
  BigEndian.length_fixed (by simpa using h.isLt)

end Wire

end Tos.Sdag
