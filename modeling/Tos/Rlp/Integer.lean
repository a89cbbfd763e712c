import Tos.Rlp.Lazy

/-!
# Integers

An integer is written as the data of its shortest big-endian form, and a strict conversion reads
nothing else. The conversion has the width of its type, so that what is written can be read back
exactly by the types in which it fits.

## Main results

* `toInt_ofBytes_eq_ok`, `toPositiveInt64_ofBytes_eq_ok`: the items that are read as an
  integer.
* `integer_canonical`: what is written and what is read.
-/

namespace Tos.RLP

open Rlp (Item encode)
open BigEndian (bytes)

/-- The types without a sign to which an item is converted. -/
inductive UnsignedInt where
  | uint8
  | uint16
  | uint32
  | uint64
  | u160
  | u256
  deriving DecidableEq, Repr

/-- `intTraits<_T>::maxSize`: the size of the type in bytes. -/
def UnsignedInt.maxSize : UnsignedInt → ℕ
  | uint8 => 1
  | uint16 => 2
  | uint32 => 4
  | uint64 => 8
  | u160 => 20
  | u256 => 32

variable {b d : Bytes} {n : ℕ}

lemma toInt_nil (maxSize : ℕ) (flags : ℕ) : toInt maxSize [] flags = .error .badRLP := rfl

/-- **Reading an integer.** An object that the strict constructor accepts is read as an integer
exactly when it is the encoding of the shortest form of that integer, and the integer fits. -/
lemma toInt_ofBytes_eq_ok (h : ofBytes b VeryStrict = .ok d) (maxSize : ℕ) :
    toInt maxSize d Strict = .ok n ↔
      n < 256 ^ maxSize ∧ d = encode (.data (bytes n)) := by
  rcases eq_or_ne b [] with rfl | hb
  · -- a null item is no encoding
    obtain rfl : [] = d := Except.ok.inj h
    rw [toInt_nil]
    exact iff_of_false (by rintro ⟨⟩) fun hd => Rlp.encode_ne_nil _ hd.2.symm
  obtain ⟨rfl, k, p, rfl, hp⟩ := exists_frame_of_ofBytes h hb
  rw [toInt_eq_ok hp, Rlp.encode_data]
  constructor
  · rintro ⟨rfl, rfl, hn⟩
    exact ⟨hn, rfl⟩
  · rintro ⟨hn, he⟩
    have hmax : maxLength < 2 ^ 64 := by norm_num [maxLength]
    have hbytes : (bytes n).length < 2 ^ 64 := by
      have hle := Rlp.length_le_length_frame .data (bytes n)
      have hsize := Rlp.length_frame_le (k := k) (hp.trans hmax)
      rw [← he] at hle
      unfold maxLength at hp
      omega
    obtain ⟨hk, hpn⟩ := Rlp.frame_inj (hp.trans hmax) hbytes he
    exact ⟨hk, hpn, hn⟩

/-- **Reading a non-negative integer of 64 bits.** -/
lemma toPositiveInt64_ofBytes_eq_ok (h : ofBytes b VeryStrict = .ok d) :
    toPositiveInt64 d Strict = .ok n ↔
      n < 2 ^ 63 ∧ d = encode (.data (bytes n)) := by
  have hthrow : has Strict ThrowOnFail = true := by decide
  rw [toPositiveInt64, bind_eq_ok_iff]
  simp only [toInt_ofBytes_eq_ok h, hthrow, true_and]
  constructor
  · rintro ⟨i, ⟨-, hd⟩, hi⟩
    split_ifs at hi with hneg
    obtain rfl := Except.ok.inj hi
    exact ⟨Nat.not_le.mp hneg, hd⟩
  · rintro ⟨hn, hd⟩
    exact ⟨n, ⟨hn.trans (by norm_num), hd⟩, by rw [if_neg (Nat.not_le.mpr hn)]; rfl⟩

/-- **Integers.** Writing an integer of up to `2 ^ 32 - 1` bytes is writing its shortest big-endian
form as data. An object that the strict constructor accepts is read as an integer of a type exactly
when it is the encoding of the shortest form of an integer that fits in the type, and throws
otherwise; the conversion to non-negative integers of 64 bits has 63 bits for them. -/
theorem integer_canonical :
    (∀ (s : RLPStream) (n : ℕ), (bytes n).length < 2 ^ 32 →
      s.appendInt n = s.append (bytes n)) ∧
    ∀ b d, ofBytes b VeryStrict = .ok d → ∀ n,
      (∀ T : UnsignedInt, toInt T.maxSize d Strict = .ok n ↔
        n < 256 ^ T.maxSize ∧ d = encode (.data (bytes n))) ∧
      (toPositiveInt64 d Strict = .ok n ↔
        n < 2 ^ 63 ∧ d = encode (.data (bytes n))) := by
  refine ⟨fun s n hn => ?_, fun b d h n =>
    ⟨fun T => toInt_ofBytes_eq_ok h T.maxSize, toPositiveInt64_ofBytes_eq_ok h⟩⟩
  have hlen : (bytes n).length < 2 ^ 64 := hn.trans (by norm_num)
  rw [RLPStream.appendInt_eq s hlen, RLPStream.append_eq s hlen]

/-- The integer `1024`, written and read by the types in which it fits. -/
theorem integer_canonical_1024 :
    (({} : RLPStream).appendInt 1024 = ({} : RLPStream).append [4, 0]) ∧
      ofBytes [0x82, 4, 0] VeryStrict = .ok [0x82, 4, 0] ∧
      toInt UnsignedInt.u256.maxSize [0x82, 4, 0] Strict = .ok 1024 ∧
      toInt UnsignedInt.uint8.maxSize [0x82, 4, 0] Strict ≠ .ok 1024 ∧
      toPositiveInt64 [0x82, 4, 0] Strict = .ok 1024 := by
  have hbytes : bytes 1024 = [4, 0] := by decide +kernel
  have hwrite := integer_canonical.1 {} 1024 (by rw [hbytes]; decide)
  have hread := integer_canonical.2 [0x82, 4, 0] [0x82, 4, 0] (by decide) 1024
  rw [hbytes] at hwrite hread
  exact ⟨hwrite, by decide, (hread.1 .u256).mpr ⟨by norm_num [UnsignedInt.maxSize], by decide⟩,
    fun h => absurd ((hread.1 .uint8).mp h).1 (by norm_num [UnsignedInt.maxSize]),
    hread.2.mpr ⟨by norm_num, by decide⟩⟩

end Tos.RLP
