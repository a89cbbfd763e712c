import Mathlib.Data.List.Basic
import Mathlib.Tactic.Common

/-!
# Hex-prefix coding

A word of nibbles as a byte string: two nibbles make a byte, and a first byte says whether the
number of nibbles is odd, in which case it holds the first of them, and carries a flag.

## Main results

* `HexPrefix.nibbles_encode`: the nibbles of a coded word are those of its first byte and the
  word.
* `HexPrefix.encode_inj`: the coding determines the flag and the word.
-/

namespace HexPrefix

/-- The upper half of a byte. -/
def high (b : UInt8) : Fin 16 := Fin.ofNat 16 (b.toNat / 16)

/-- The lower half of a byte. -/
def low (b : UInt8) : Fin 16 := Fin.ofNat 16 b.toNat

/-- The byte of two nibbles. -/
def byte (a b : Fin 16) : UInt8 := UInt8.ofNat (a * 16 + b)

/-- The nibbles of a byte string. -/
def nibbles : List UInt8 → List (Fin 16)
  | [] => []
  | b :: d => high b :: low b :: nibbles d

/-- Nibbles put together to bytes, the last one filled up with zero. -/
def pack : List (Fin 16) → List UInt8
  | [] => []
  | [a] => [byte a 0]
  | a :: b :: ks => byte a b :: pack ks

/-- The nibble that says whether a word is odd and carries the flag. -/
def mark (flag : Bool) (odd : Bool) : Fin 16 := (if flag then 2 else 0) + (if odd then 1 else 0)

/-- The hex-prefix coding of a word. -/
def encode (flag : Bool) (ks : List (Fin 16)) : List UInt8 :=
  if ks.length % 2 = 1 then pack (mark flag true :: ks) else pack (mark flag false :: 0 :: ks)

/-- The high nibble of a byte built from two. -/
@[simp] lemma high_byte (a b : Fin 16) : high (byte a b) = a := by
  decide +revert

/-- The low nibble of a byte built from two. -/
@[simp] lemma low_byte (a b : Fin 16) : low (byte a b) = b := by
  decide +revert

/-- A byte is built from its nibbles. -/
lemma byte_high_low (b : UInt8) : byte (high b) (low b) = b := by
  have hb := b.toNat_lt
  apply UInt8.toNat_inj.mp
  simp only [byte, high, low, UInt8.toNat_ofNat', Fin.ofNat]
  omega

/-- A byte has two nibbles. -/
@[simp] lemma length_nibbles (d : List UInt8) : (nibbles d).length = 2 * d.length := by
  induction d with
  | nil => rfl
  | cons b d ih =>
    simp only [nibbles, List.length_cons, ih]
    omega

/-- Bytes are determined by their nibbles. -/
lemma nibbles_injective : Function.Injective nibbles := by
  intro d e h
  induction d generalizing e with
  | nil =>
    cases e with
    | nil => rfl
    | cons b e => simp [nibbles] at h
  | cons b d ih =>
    cases e with
    | nil => simp [nibbles] at h
    | cons c e =>
      simp only [nibbles, List.cons.injEq] at h
      rw [← byte_high_low b, ← byte_high_low c, h.1, h.2.1, ih h.2.2]

/-- The nibbles of packed nibbles, if there is an even number of them. -/
lemma nibbles_pack {ks : List (Fin 16)} (h : ks.length % 2 = 0) : nibbles (pack ks) = ks := by
  induction ks using pack.induct with
  | case1 => rfl
  | case2 a => simp at h
  | case3 a b ks ih =>
    have hks : ks.length % 2 = 0 := by
      simp only [List.length_cons] at h
      omega
    simp [pack, nibbles, ih hks]

/-- What stands in front of a word in the nibbles of its coding. -/
def front (flag : Bool) (ks : List (Fin 16)) : List (Fin 16) :=
  if ks.length % 2 = 1 then [mark flag true] else [mark flag false, 0]

/-- The nibbles of a code: the front, then the path. -/
lemma nibbles_encode (flag : Bool) (ks : List (Fin 16)) :
    nibbles (encode flag ks) = front flag ks ++ ks := by
  by_cases h : ks.length % 2 = 1
  · rw [encode, if_pos h, front, if_pos h]
    apply nibbles_pack
    simp only [List.length_cons]
    omega
  · rw [encode, if_neg h, front, if_neg h]
    apply nibbles_pack
    simp only [List.length_cons]
    omega

/-- A code has one byte more than pairs of nibbles. -/
lemma length_encode (flag : Bool) (ks : List (Fin 16)) :
    (encode flag ks).length = ks.length / 2 + 1 := by
  have h := congrArg List.length (nibbles_encode flag ks)
  rw [length_nibbles, List.length_append, front] at h
  split_ifs at h <;> simp only [List.length_cons, List.length_nil] at h <;> omega

/-- The first nibble tells the flag and the parity. -/
lemma mark_inj {f g p q : Bool} (h : mark f p = mark g q) : f = g ∧ p = q := by
  decide +revert

/-- The coding determines the flag and the word. -/
lemma encode_inj {f g : Bool} {ks ls : List (Fin 16)} (h : encode f ks = encode g ls) :
    f = g ∧ ks = ls := by
  have hn := congrArg nibbles h
  rw [nibbles_encode, nibbles_encode, front, front] at hn
  split_ifs at hn with hk hl hl <;>
    simp only [List.cons_append, List.nil_append, List.cons.injEq] at hn
  · exact ⟨(mark_inj hn.1).1, hn.2⟩
  · exact absurd (mark_inj hn.1).2 (by simp)
  · exact absurd (mark_inj hn.1).2 (by simp)
  · exact ⟨(mark_inj hn.1).1, hn.2.2⟩

end HexPrefix
