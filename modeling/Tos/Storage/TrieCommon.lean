import Tos.Foundation.HexPrefix
import Tos.Foundation.Patricia
import Tos.Rlp.Reader

/-!
# Nibble slices

`toscore/storage/TrieCommon.h` and `TrieCommon.cpp`: the views on byte strings as words of
nibbles with which the trie compares keys, and the hex-prefix coding of such words. Sizes and
positions are 32-bit integers there, so that a slice of `2 ^ 31` bytes counts as empty; on
slices of up to `2 ^ 31` nibbles everything is as it should be.

## Main results

* `NibbleSlice.Valid.shared_eq`, `contains_iff`, `equal_iff`: comparing slices is comparing
  words.
* `NibbleSlice.Valid.hexPrefixEncode_eq` and others: the overloads write the hex-prefix
  coding.
* `keyOf_encode`: the key of a coded word.

## Implementation notes

A `byte` that is the result of `& 15` or of `>> 4` is an element of `Fin 16`. Reading behind the
end of a byte string, which is undefined, gives zero. The conversion to `int` and the sum behind
it in `hexPrefixEncode` are exact below `2 ^ 31`.
-/

namespace Tos

open HexPrefix (high low)
open List

/-- Conversion to `unsigned`. -/
def u32 (i : ℤ) : ℕ := (i % 2 ^ 32).toNat

/-- Conversion to `int`. -/
def i32 (i : ℤ) : ℤ := i.bmod (2 ^ 32)

/-- `nibble`. -/
def nibble (data : Bytes) (i : ℕ) : Fin 16 :=
  if i % 2 = 1 then low (data.getD (i / 2) 0) else high (data.getD (i / 2) 0)

/-- The loop of `sharedNibbles`, with `n` and `m` nibbles left. -/
def sharedLoop (first second : Bytes) : ℕ → ℕ → ℕ → ℕ → ℕ
  | n + 1, m + 1, i, j =>
    if nibble first i = nibble second j then sharedLoop first second n m (i + 1) (j + 1) + 1
    else 0
  | _, _, _, _ => 0

/-- `sharedNibbles`. -/
def sharedNibbles (first : Bytes) (beginFirst endFirst : ℕ) (second : Bytes)
    (beginSecond endSecond : ℕ) : ℕ :=
  sharedLoop first second (endFirst - beginFirst) (endSecond - beginSecond) beginFirst beginSecond

/-- The struct `NibbleSlice`. -/
structure NibbleSlice where
  data : Bytes
  offset : ℕ := 0

namespace NibbleSlice

/-- `NibbleSlice::operator[]`. -/
def get (s : NibbleSlice) (i : ℕ) : Fin 16 := nibble s.data (u32 (s.offset + i))

/-- `NibbleSlice::size`. -/
def size (s : NibbleSlice) : ℕ := u32 (s.data.length * 2 - s.offset)

/-- `NibbleSlice::mid`. -/
def mid (s : NibbleSlice) (i : ℕ) : NibbleSlice := ⟨s.data, u32 (s.offset + i)⟩

/-- `NibbleSlice::shared`. -/
def shared (s k : NibbleSlice) : ℕ :=
  sharedNibbles s.data s.offset (u32 (s.offset + s.size)) k.data k.offset
    (u32 (k.offset + k.size))

/-- `NibbleSlice::contains`. -/
def contains (s k : NibbleSlice) : Bool := s.shared k == k.size

/-- `NibbleSlice::operator==`. -/
def equal (s k : NibbleSlice) : Bool := k.size == s.size && s.shared k == k.size

end NibbleSlice

/-- One round of the loops that write nibbles: the nibble goes to the lower half of the last byte
or to the upper half of a new one. -/
def pushNibble (ret : Bytes × ℕ) (n : Fin 16) : Bytes × ℕ :=
  if ret.2 % 2 = 1 then
    (ret.1.dropLast ++ [ret.1.getLastD 0 ||| UInt8.ofNat n], ret.2 + 1)
  else (ret.1 ++ [UInt8.ofNat n <<< 4], ret.2 + 1)

/-- The loop over the nibbles from `begin` to `stop`. -/
def pushNibbles (data : Bytes) (begin stop : ℕ) (ret : Bytes × ℕ) : Bytes × ℕ :=
  (List.range' begin (stop - begin)).foldl (fun ret i => pushNibble ret (nibble data i)) ret

/-- The byte in front of the nibbles. -/
def prefixByte (leaf odd : Bool) : UInt8 :=
  ((if leaf then 2 else 0) ||| (if odd then 1 else 0)) * 16

/-- `hexPrefixEncode(NibbleSlice, bool, int, int)`. -/
def hexPrefixEncode (s : NibbleSlice) (leaf : Bool) (beginNibble : ℤ := 0)
    (endNibble : ℤ := -1) : Bytes :=
  let begin := u32 (beginNibble + s.offset)
  let stop := u32 ((if endNibble < 0 then
    (i32 (s.data.length * 2 - s.offset) + 1) + endNibble else endNibble) + s.offset)
  let odd := u32 (stop - begin) % 2 = 1
  (pushNibbles s.data begin stop ([prefixByte leaf odd], if odd then 1 else 2)).1

/-- `hexPrefixEncode(NibbleSlice, NibbleSlice, bool)`. -/
def hexPrefixEncodeJoin (s₁ s₂ : NibbleSlice) (leaf : Bool) : Bytes :=
  let end₁ := u32 (s₁.data.length * 2)
  let end₂ := u32 (s₂.data.length * 2)
  let odd := u32 (end₁ - s₁.offset + end₂ - s₂.offset) % 2 = 1
  (pushNibbles s₂.data s₂.offset end₂
    (pushNibbles s₁.data s₁.offset end₁ ([prefixByte leaf odd], if odd then 1 else 2))).1

/-- The loop of `hexPrefixEncode` on a vector of nibbles, `n` bytes from the nibble `i` on. -/
def vectorLoop (hexVector : Bytes) : ℕ → ℕ → Bytes → Bytes
  | 0, _, ret => ret
  | n + 1, i, ret =>
    vectorLoop hexVector n (i + 2) (ret ++ [hexVector.getD i 0 * 16 + hexVector.getD (i + 1) 0])

/-- `hexPrefixEncode(bytes, bool, int, int)`. -/
def hexPrefixEncodeVector (hexVector : Bytes) (leaf : Bool) (begin : ℤ := 0) (stop : ℤ := -1) :
    Bytes :=
  let begin := u32 begin
  let stop := if stop < 0 then u32 (hexVector.length + 1 + stop) else u32 stop
  let odd := u32 (stop - begin) % 2 ≠ 0
  if odd then
    vectorLoop hexVector ((stop - begin) / 2) (begin + 1)
      [prefixByte leaf true ||| hexVector.getD begin 0]
  else vectorLoop hexVector ((stop - begin) / 2) begin [prefixByte leaf false]

/-- `keyOf(bytesConstRef)`. -/
def keyOf (hpe : Bytes) : NibbleSlice :=
  if hpe.length = 0 then ⟨hpe, 0⟩
  else if hpe.getD 0 0 &&& 0x10 ≠ 0 then ⟨hpe, 1⟩
  else ⟨hpe, 2⟩

/-- The flag of a coded word, as `isLeaf` tests it. -/
def leafFlag (hpe : Bytes) : Bool := hpe.getD 0 0 &&& 0x20 != 0

/-! ### Numbers that fit -/

lemma u32_sub {a b : ℕ} (h : b ≤ a) (ha : a < 2 ^ 32 + b) : u32 (a - b) = a - b := by
  unfold u32
  omega

lemma u32_add {a b : ℕ} (h : a + b < 2 ^ 32) : u32 (a + b) = a + b := by
  unfold u32
  omega

/-! ### Slices as words -/

open HexPrefix (nibbles pack byte mark)

lemma drop_nibbles (data : Bytes) (i : ℕ) (h : i < 2 * data.length) :
    (nibbles data).drop i = nibble data i :: (nibbles data).drop (i + 1) := by
  induction data generalizing i with
  | nil => simp at h
  | cons b d ih =>
    match i with
    | 0 => rfl
    | 1 => rfl
    | i + 2 =>
      have hi : i < 2 * d.length := by
        simp only [length_cons] at h
        omega
      have hn : nibble (b :: d) (i + 2) = nibble d i := by
        simp [nibble, Nat.add_mod_right, Nat.add_div_right]
      simpa [nibbles, hn] using ih i hi

namespace NibbleSlice

/-- The slice is small enough, and its offset lies inside. -/
structure Valid (s : NibbleSlice) : Prop where
  length_le : 2 * s.data.length ≤ 2 ^ 31
  offset_le : s.offset ≤ 2 * s.data.length

/-- The word a slice stands for. -/
def word (s : NibbleSlice) : List (Fin 16) := (nibbles s.data).drop s.offset

@[simp] lemma length_word (s : NibbleSlice) : s.word.length = 2 * s.data.length - s.offset := by
  simp [word]

end NibbleSlice

variable {i j : ℕ}

lemma sharedLoop_eq {first second : Bytes} {n m i j : ℕ} (hi : i + n = 2 * first.length)
    (hj : j + m = 2 * second.length) :
    sharedLoop first second n m i j =
      Patricia.shared ((nibbles first).drop i) ((nibbles second).drop j) := by
  induction n generalizing m i j with
  | zero =>
    have hnil : (nibbles first).drop i = [] := drop_of_length_le (by simp; omega)
    simp [sharedLoop, hnil, Patricia.shared]
  | succ n ih =>
    cases m with
    | zero =>
      have hnil : (nibbles second).drop j = [] := drop_of_length_le (by simp; omega)
      rw [hnil]
      cases (nibbles first).drop i <;> simp [sharedLoop, Patricia.shared]
    | succ m =>
      rw [sharedLoop, drop_nibbles first i (by omega), drop_nibbles second j (by omega),
        Patricia.shared, ih (by omega) (by omega)]

variable {a : Fin 16} {w : List (Fin 16)}

namespace NibbleSlice.Valid

variable {s k : NibbleSlice}

lemma size_eq (h : s.Valid) : s.size = s.word.length := by
  obtain ⟨h₁, h₂⟩ := h
  have hsub := u32_sub (a := s.data.length * 2) (b := s.offset) (by omega) (by omega)
  rw [length_word, size, Nat.mul_comm 2, ← hsub]
  push_cast
  rfl

lemma get_zero (h : s.Valid) (hw : s.word = a :: w) : s.get 0 = a := by
  have hlen := congrArg List.length hw
  rw [length_word, length_cons] at hlen
  obtain ⟨h₁, h₂⟩ := h
  rw [word, drop_nibbles _ _ (by omega), List.cons.injEq] at hw
  rw [get, u32_add (by omega), Nat.add_zero, hw.1]

lemma offset_mid (h : s.Valid) (hi : i ≤ s.word.length) : (s.mid i).offset = s.offset + i := by
  obtain ⟨h₁, h₂⟩ := h
  rw [length_word] at hi
  exact u32_add (by omega)

lemma mid (h : s.Valid) (hi : i ≤ s.word.length) : (s.mid i).Valid := by
  refine ⟨h.length_le, ?_⟩
  rw [h.offset_mid hi]
  rw [length_word] at hi
  change _ ≤ 2 * s.data.length
  have := h.offset_le
  omega

lemma word_mid (h : s.Valid) (hi : i ≤ s.word.length) : (s.mid i).word = s.word.drop i := by
  rw [word, h.offset_mid hi, word, drop_drop]
  rfl

/-- What is left behind a beginning of the word. -/
lemma mid_append {w r : List (Fin 16)} (h : s.Valid) (hw : s.word = w ++ r) :
    (s.mid w.length).Valid ∧ (s.mid w.length).word = r := by
  have hle : w.length ≤ s.word.length := by simp [hw]
  exact ⟨h.mid hle, by rw [h.word_mid hle, hw, drop_left]⟩

/-- What is left behind the first nibble. -/
lemma mid_cons {a : Fin 16} {r : List (Fin 16)} (h : s.Valid) (hw : s.word = a :: r) :
    (s.mid 1).Valid ∧ (s.mid 1).word = r :=
  @mid_append _ [a] r h hw

/-- Shared nibbles are what the words share. -/
lemma shared_eq (hs : s.Valid) (hk : k.Valid) : s.shared k = Patricia.shared s.word k.word := by
  have hs' := hs.size_eq
  have hk' := hk.size_eq
  obtain ⟨h₁, h₂⟩ := hs
  obtain ⟨h₃, h₄⟩ := hk
  rw [length_word] at hs' hk'
  rw [shared, sharedNibbles, hs', hk', u32_add (by omega), u32_add (by omega),
    sharedLoop_eq (by omega) (by omega)]
  rfl

lemma contains_iff (hs : s.Valid) (hk : k.Valid) :
    s.contains k = true ↔ ∃ r, s.word = k.word ++ r := by
  rw [contains, beq_iff_eq, hs.shared_eq hk, hk.size_eq]
  obtain ⟨p, w, l, hw, hl, hp, -⟩ := Patricia.exists_shared s.word k.word
  rw [hp, hl, length_append]
  constructor
  · intro h
    obtain rfl : l = [] := List.length_eq_zero_iff.mp (by omega)
    exact ⟨w, by rw [hw, append_nil]⟩
  · rintro ⟨r, hr⟩
    have happ := Patricia.shared_append k.word r []
    have hnil : Patricia.shared r [] = 0 := by cases r <;> rfl
    have hlen := congrArg List.length hl
    rw [← hl] at hr
    rw [append_nil, ← hr, hp, hnil] at happ
    rw [length_append] at hlen
    omega

lemma equal_iff (hs : s.Valid) (hk : k.Valid) : s.equal k = true ↔ s.word = k.word := by
  have hcontains := hs.contains_iff hk
  rw [contains] at hcontains
  rw [equal, Bool.and_eq_true, hcontains, beq_iff_eq, hs.size_eq, hk.size_eq]
  constructor
  · rintro ⟨hlen, r, hr⟩
    rw [hr, length_append] at hlen
    obtain rfl : r = [] := List.length_eq_zero_iff.mp (by omega)
    rw [hr, append_nil]
  · intro h
    exact ⟨by rw [h], [], by rw [h, append_nil]⟩

end NibbleSlice.Valid

/-! ### The hex-prefix coding -/

lemma shiftLeft_or (a b : Fin 16) : UInt8.ofNat a <<< 4 ||| UInt8.ofNat b = byte a b := by
  decide +revert

lemma prefixByte_eq (leaf odd : Bool) : prefixByte leaf odd = byte (mark leaf odd) 0 := by
  decide +revert

lemma byte_or (a b : Fin 16) : byte a 0 ||| UInt8.ofNat b = byte a b := by
  decide +revert

/-- Nibbles that begin with a new byte. -/
lemma foldl_pushNibble (ns : List (Fin 16)) (ret : Bytes) {d : ℕ} (hd : d % 2 = 0) :
    (ns.foldl pushNibble (ret, d)).1 = ret ++ pack ns := by
  induction ns using HexPrefix.pack.induct generalizing ret d with
  | case1 => simp [pack]
  | case2 a =>
    have hpush : UInt8.ofNat a <<< 4 = byte a 0 := by decide +revert
    simp [pushNibble, hd, pack, hpush]
  | case3 a b ns ih =>
    have hd' : (d + 1) % 2 = 1 := by omega
    have h₁ : pushNibble (pushNibble (ret, d) a) b = (ret ++ [byte a b], d + 1 + 1) := by
      simp [pushNibble, hd, hd', shiftLeft_or]
    rw [foldl_cons, foldl_cons, h₁, ih _ (by omega), pack, append_assoc]
    rfl

/-- Nibbles that begin in the lower half of the last byte. -/
lemma foldl_pushNibble_odd (ns : List (Fin 16)) (m : Fin 16) {d : ℕ} (hd : d % 2 = 1) :
    (ns.foldl pushNibble ([byte m 0], d)).1 = pack (m :: ns) := by
  cases ns with
  | nil => rfl
  | cons a ns =>
    have h₁ : pushNibble ([byte m 0], d) a = ([byte m a], d + 1) := by
      simp [pushNibble, hd, byte_or]
    rw [foldl_cons, h₁, foldl_pushNibble ns _ (by omega), pack]
    rfl

/-- Nibbles written behind the first byte. -/
def coded (leaf odd : Bool) (ns : List (Fin 16)) : Bytes :=
  (ns.foldl pushNibble ([prefixByte leaf odd], if odd then 1 else 2)).1

lemma coded_eq_pack (leaf odd : Bool) (ns : List (Fin 16)) :
    coded leaf odd ns = pack (mark leaf odd :: if odd then ns else 0 :: ns) := by
  rw [coded, prefixByte_eq]
  cases odd with
  | true => exact foldl_pushNibble_odd ns _ rfl
  | false => exact foldl_pushNibble ns _ rfl

/-- With the right number of nibbles they make the coded word. -/
lemma coded_eq_encode (leaf : Bool) (ns : List (Fin 16)) :
    coded leaf (decide (ns.length % 2 = 1)) ns = HexPrefix.encode leaf ns := by
  rw [coded_eq_pack, HexPrefix.encode]
  by_cases h : ns.length % 2 = 1 <;> simp [h]

lemma map_nibble_range' (data : Bytes) {i n : ℕ} (h : i + n ≤ 2 * data.length) :
    (List.range' i n).map (nibble data) = ((nibbles data).drop i).take n := by
  induction n generalizing i with
  | zero => simp
  | succ n ih =>
    rw [drop_nibbles _ _ (by omega), take_succ_cons, ← ih (by omega)]
    simp [range'_succ]

lemma pushNibbles_eq {data : Bytes} (hj : j ≤ 2 * data.length) (ret : Bytes × ℕ) :
    pushNibbles data i j ret = (((nibbles data).drop i).take (j - i)).foldl pushNibble ret := by
  rcases Nat.le_total i j with hi | hi
  · rw [pushNibbles, ← map_nibble_range' data (by omega), foldl_map]
  · simp [pushNibbles, Nat.sub_eq_zero_of_le hi]

/-- A part of a byte string, with the parity of the code. -/
lemma pushNibbles_eq_coded {data : Bytes} (hj : j ≤ 2 * data.length) (leaf : Bool) :
    (pushNibbles data i j ([prefixByte leaf (decide (u32 (j - i) % 2 = 1))],
      if u32 (j - i) % 2 = 1 then 1 else 2)).1 =
      coded leaf (decide (u32 (j - i) % 2 = 1)) (((nibbles data).drop i).take (j - i)) := by
  rw [pushNibbles_eq hj, coded]
  simp only [decide_eq_true_eq]

namespace NibbleSlice

variable {s k : NibbleSlice}

/-- The nibbles in front of the end of the data, where that end is a 32-bit number. -/
def reached (s : NibbleSlice) : List (Fin 16) :=
  s.word.take (2 * s.data.length % 2 ^ 32 - s.offset)

lemma reached_eq (h : 2 * s.data.length < 2 ^ 32) : s.reached = s.word := by
  rw [reached, Nat.mod_eq_of_lt h]
  exact take_of_length_le (by simp)

lemma u32_length (d : Bytes) : u32 (d.length * 2) = 2 * d.length % 2 ^ 32 := by
  unfold u32
  omega

/-- The end that a negative argument of `-1` stands for. -/
lemma u32_stop (s : NibbleSlice) :
    u32 ((i32 (s.data.length * 2 - s.offset) + 1) + -1 + s.offset) =
      2 * s.data.length % 2 ^ 32 := by
  simp only [u32, i32, Int.bmod]
  split_ifs <;> omega

/-- The nibbles of a slice, as far as they are reached, coded. -/
lemma hexPrefixEncode_reached (h : s.offset ≤ 2 * s.data.length) (hlt : s.offset < 2 ^ 32)
    (leaf : Bool) :
    hexPrefixEncode s leaf = coded leaf (decide (s.word.length % 2 = 1)) s.reached := by
  have hbegin : u32 ((0 : ℤ) + s.offset) = s.offset := by
    unfold u32
    omega
  have hodd : u32 (((2 * s.data.length % 2 ^ 32 : ℕ) : ℤ) - s.offset) % 2 = s.word.length % 2 := by
    rw [length_word]
    unfold u32
    omega
  simp only [hexPrefixEncode, hbegin, show ((-1 : ℤ) < 0) from by decide, if_true, u32_stop]
  rw [pushNibbles_eq_coded (Nat.mod_le _ _), hodd]
  rfl

/-- Two slices one behind the other, as far as they are reached, coded. -/
lemma hexPrefixEncodeJoin_reached (hs : s.offset ≤ 2 * s.data.length)
    (hk : k.offset ≤ 2 * k.data.length) (leaf : Bool) :
    hexPrefixEncodeJoin s k leaf =
      coded leaf (decide ((s.word ++ k.word).length % 2 = 1)) (s.reached ++ k.reached) := by
  have hodd : u32 (((2 * s.data.length % 2 ^ 32 : ℕ) : ℤ) - s.offset +
      (2 * k.data.length % 2 ^ 32 : ℕ) - k.offset) % 2 = (s.word ++ k.word).length % 2 := by
    simp only [length_append, length_word]
    unfold u32
    omega
  simp only [hexPrefixEncodeJoin, u32_length, hodd]
  rw [pushNibbles_eq (Nat.mod_le _ _), pushNibbles_eq (Nat.mod_le _ _), coded, foldl_append]
  simp only [decide_eq_true_eq]
  rfl

/-- To begin later is to code what is left. -/
lemma hexPrefixEncode_mid (s : NibbleSlice) (leaf : Bool) (i : ℕ) :
    hexPrefixEncode (s.mid i) leaf = hexPrefixEncode s leaf i := by
  have hbegin : u32 ((0 : ℤ) + (s.mid i).offset) = u32 ((i : ℤ) + s.offset) := by
    simp only [mid, u32]
    omega
  simp only [hexPrefixEncode, hbegin, show ((-1 : ℤ) < 0) from by decide, if_true, u32_stop]
  rfl

namespace Valid

lemma hexPrefixEncode_eq (h : s.Valid) (leaf : Bool) :
    hexPrefixEncode s leaf = HexPrefix.encode leaf s.word := by
  obtain ⟨h₁, h₂⟩ := h
  rw [hexPrefixEncode_reached h₂ (by omega), reached_eq (by omega), coded_eq_encode]

/-- The word of a slice from the nibble `i` on, coded. -/
lemma hexPrefixEncode_drop (h : s.Valid) (hi : i ≤ s.word.length) (leaf : Bool) :
    hexPrefixEncode s leaf i = HexPrefix.encode leaf (s.word.drop i) := by
  rw [← hexPrefixEncode_mid, (h.mid hi).hexPrefixEncode_eq, h.word_mid hi]

/-- The first `j` nibbles of a slice, coded. -/
lemma hexPrefixEncode_take (h : s.Valid) (hj : j ≤ s.word.length) (leaf : Bool) :
    hexPrefixEncode s leaf 0 j = HexPrefix.encode leaf (s.word.take j) := by
  obtain ⟨h₁, h₂⟩ := h
  have hlen : (s.word.take j).length = j := length_take_of_le hj
  rw [length_word] at hj
  have hbegin : u32 ((0 : ℤ) + s.offset) = s.offset := by
    unfold u32
    omega
  have hstop : u32 ((j : ℤ) + s.offset) = s.offset + j := by
    rw [Int.add_comm, u32_add (by omega)]
  have hcount : u32 (((s.offset + j : ℕ) : ℤ) - s.offset) = j := by
    rw [u32_sub (by omega) (by omega), Nat.add_sub_cancel_left]
  have hneg : ¬ ((j : ℤ) < 0) := by omega
  simp only [hexPrefixEncode, hbegin, hneg, if_false, hstop]
  rw [pushNibbles_eq_coded (by omega), hcount, Nat.add_sub_cancel_left, ← coded_eq_encode, hlen]
  rfl

/-- Two slices one behind the other, coded. -/
lemma hexPrefixEncodeJoin_eq (hs : s.Valid) (hk : k.Valid) (leaf : Bool) :
    hexPrefixEncodeJoin s k leaf = HexPrefix.encode leaf (s.word ++ k.word) := by
  obtain ⟨h₁, h₂⟩ := hs
  obtain ⟨h₃, h₄⟩ := hk
  rw [hexPrefixEncodeJoin_reached h₂ h₄, reached_eq (by omega), reached_eq (by omega),
    coded_eq_encode]

end Valid

end NibbleSlice

/-- The first byte of a coded word. -/
lemma getD_encode (leaf : Bool) (ks : List (Fin 16)) :
    ∃ b, (HexPrefix.encode leaf ks).getD 0 0 =
      byte (mark leaf (decide (ks.length % 2 = 1))) b := by
  rw [HexPrefix.encode]
  split_ifs with h
  · cases ks with
    | nil => simp at h
    | cons a ks => exact ⟨a, by rw [h]; rfl⟩
  · exact ⟨0, by simp [pack, h]⟩

lemma leafFlag_encode (leaf : Bool) (ks : List (Fin 16)) :
    leafFlag (HexPrefix.encode leaf ks) = leaf := by
  obtain ⟨b, hb⟩ := getD_encode leaf ks
  have hflag : ∀ (leaf odd : Bool) (b : Fin 16), (byte (mark leaf odd) b &&& 0x20 != 0) = leaf := by
    decide
  rw [leafFlag, hb, hflag]

/-- The key of a coded word lies behind its mark. -/
lemma keyOf_encode_eq (leaf : Bool) (ks : List (Fin 16)) :
    keyOf (HexPrefix.encode leaf ks) =
      ⟨HexPrefix.encode leaf ks, if ks.length % 2 = 1 then 1 else 2⟩ := by
  obtain ⟨b, hb⟩ := getD_encode leaf ks
  have hlen := HexPrefix.length_encode leaf ks
  have hbits : ∀ (leaf odd : Bool) (b : Fin 16),
      byte (mark leaf odd) b &&& 0x10 ≠ 0 ↔ odd = true := by
    decide
  rw [keyOf, if_neg (by omega), hb]
  by_cases hodd : ks.length % 2 = 1
  · rw [if_pos ((hbits _ _ _).mpr (decide_eq_true hodd)), if_pos hodd]
  · rw [if_neg (fun h => hodd (of_decide_eq_true ((hbits _ _ _).mp h))), if_neg hodd]

lemma word_keyOf_encode (leaf : Bool) (ks : List (Fin 16)) :
    (keyOf (HexPrefix.encode leaf ks)).word = ks := by
  rw [keyOf_encode_eq, NibbleSlice.word, HexPrefix.nibbles_encode, HexPrefix.front]
  split_ifs <;> rfl

/-- The key of a coded word is the word. -/
lemma keyOf_encode (leaf : Bool) {ks : List (Fin 16)} (h : ks.length < 2 ^ 31 - 1) :
    (keyOf (HexPrefix.encode leaf ks)).Valid ∧ (keyOf (HexPrefix.encode leaf ks)).word = ks := by
  have hlen := HexPrefix.length_encode leaf ks
  refine ⟨?_, word_keyOf_encode leaf ks⟩
  rw [keyOf_encode_eq]
  constructor
  · simp only [hlen]
    omega
  · simp only [hlen]
    split_ifs <;> omega

/-! ### Vectors of nibbles -/

/-- A word as a vector of bytes, one for each nibble. -/
def hexes (w : List (Fin 16)) : Bytes := w.map fun a : Fin 16 => UInt8.ofNat a.val

@[simp] lemma length_hexes (w : List (Fin 16)) : (hexes w).length = w.length := length_map _

lemma hexes_append (w x : List (Fin 16)) : hexes (w ++ x) = hexes w ++ hexes x := map_append

lemma hexes_injective : Function.Injective hexes :=
  List.map_injective_iff.mpr (by decide)

/-- The nibble where a word goes on. -/
lemma getD_hexes {w r : List (Fin 16)} (h : w.drop i = a :: r) :
    (hexes w).getD i 0 = UInt8.ofNat a := by
  have hi : w[i]? = some a := by
    rw [← Nat.add_zero i, ← getElem?_drop, h]
    rfl
  rw [hexes, getD_eq_getElem?_getD, getElem?_map, hi]
  rfl

lemma drop_succ_of_drop {w r : List (Fin 16)} (h : w.drop i = a :: r) :
    w.drop (i + 1) = r := by rw [← tail_drop, h, tail_cons]

/-- The loop puts nibbles together to bytes. -/
lemma vectorLoop_eq {n i : ℕ} (h : i + 2 * n ≤ w.length) (ret : Bytes) :
    vectorLoop (hexes w) n i ret = ret ++ pack ((w.drop i).take (2 * n)) := by
  induction n generalizing i ret with
  | zero => simp [vectorLoop, pack]
  | succ n ih =>
    obtain ⟨a, r, ha⟩ := exists_cons_of_length_pos
      (show 0 < (w.drop i).length by rw [length_drop]; omega)
    have ha' := drop_succ_of_drop ha
    obtain ⟨b, r', rfl⟩ := exists_cons_of_length_pos
      (show 0 < r.length by rw [← ha', length_drop]; omega)
    have hb' : w.drop (i + 2) = r' := drop_succ_of_drop ha'
    have hbyte : ∀ a b : Fin 16, UInt8.ofNat a * 16 + UInt8.ofNat b = byte a b := by decide
    rw [vectorLoop, getD_hexes ha, getD_hexes ha', hbyte, ih (by omega), hb', ha,
      show 2 * (n + 1) = 2 * n + 1 + 1 by omega, take_succ_cons, take_succ_cons, pack,
      append_assoc]
    rfl

/-- The nibbles of a vector between two positions, coded. -/
lemma hexPrefixEncodeVector_between {begin stop : ℤ} {b e : ℕ} (hbegin : u32 begin = b)
    (hstop : (if stop < 0 then u32 (w.length + 1 + stop) else u32 stop) = e) (hbe : b ≤ e)
    (hew : e ≤ w.length) (he : e < 2 ^ 32) (leaf : Bool) :
    hexPrefixEncodeVector (hexes w) leaf begin stop =
      HexPrefix.encode leaf ((w.drop b).take (e - b)) := by
  have hlen : ((w.drop b).take (e - b)).length = e - b := by
    rw [length_take, length_drop]
    omega
  have hsize : u32 ((e : ℤ) - b) = e - b := u32_sub hbe (by omega)
  simp only [hexPrefixEncodeVector, hbegin, length_hexes, hstop, hsize]
  rw [HexPrefix.encode, hlen]
  by_cases hodd : (e - b) % 2 = 1
  · obtain ⟨a, r, ha⟩ := exists_cons_of_length_pos
      (show 0 < (w.drop b).length by rw [length_drop]; omega)
    have hmark : ∀ (leaf : Bool) (a : Fin 16),
        prefixByte leaf true ||| UInt8.ofNat a = byte (mark leaf true) a := by decide
    rw [if_pos (by omega), if_pos hodd, vectorLoop_eq (by omega), getD_hexes ha,
      drop_succ_of_drop ha, hmark, ha]
    obtain ⟨n, hn⟩ : ∃ n, e - b = 2 * n + 1 := ⟨(e - b) / 2, by omega⟩
    rw [hn, show (2 * n + 1) / 2 = n by omega, take_succ_cons, pack]
    rfl
  · rw [if_neg (by omega), if_neg hodd, vectorLoop_eq (by omega), prefixByte_eq, pack,
      show 2 * ((e - b) / 2) = e - b by omega]
    rfl

/-- The nibbles of a vector from `b` to `e`, coded. -/
lemma hexPrefixEncodeVector_eq {b e : ℕ} (hbe : b ≤ e) (hew : e ≤ w.length)
    (hw : w.length < 2 ^ 31) (leaf : Bool) :
    hexPrefixEncodeVector (hexes w) leaf b e =
      HexPrefix.encode leaf ((w.drop b).take (e - b)) := by
  apply hexPrefixEncodeVector_between _ _ hbe hew (by omega)
  · unfold u32
    omega
  · rw [if_neg (by omega)]
    unfold u32
    omega

/-- The nibbles of a vector from `b` on, coded. -/
lemma hexPrefixEncodeVector_drop {b : ℕ} (hbw : b ≤ w.length)
    (hw : w.length < 2 ^ 31) (leaf : Bool) :
    hexPrefixEncodeVector (hexes w) leaf b = HexPrefix.encode leaf (w.drop b) := by
  have hbegin : u32 b = b := by
    unfold u32
    omega
  have hstop : (if (-1 : ℤ) < 0 then u32 (w.length + 1 + -1) else u32 (-1)) = w.length := by
    rw [if_pos (by decide)]
    unfold u32
    omega
  rw [hexPrefixEncodeVector_between hbegin hstop hbw le_rfl (by omega),
    take_of_length_le (by rw [length_drop])]

end Tos
