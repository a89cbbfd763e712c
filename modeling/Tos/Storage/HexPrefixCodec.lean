import Mathlib
import Tos.Storage.TrieCommon

/-!
# The hex-prefix codec

The three overloads of `hexPrefixEncode` against each other, and against `keyOf` and the leaf flag:
a word of nibbles is laid out as a slice, as two slices and as a part of a vector, coded from each
of them and read back.

The ends of the data are 32-bit numbers. A slice of `2 ^ 31` bytes ends at zero for the code, and
what lies behind is not coded.

## Main results

* `Layout.coded_of_fits`, `Layout.fits_of_coded`: the two directions, the second for
  words without a zero.
* `Layout.coded_iff`: the codec is right on all layouts of given sizes iff these fit.

## Implementation notes

A lost nibble that is zero may not show, since the last byte is filled up with zero. Hence the
result is about all words that the sizes admit.
-/

namespace Tos

open HexPrefix (low nibbles nibbles_pack pack)
open List

namespace NibbleSlice

/-- The nibbles of a slice, one after the other. -/
def read (s : NibbleSlice) : List (Fin 16) := (List.range s.size).map s.get

lemma length_read (s : NibbleSlice) : s.read.length = s.size := by simp [read]

/-- A slice that ends in 32 bits is read as its word. -/
lemma read_eq {s : NibbleSlice} (hlen : 2 * s.data.length ≤ 2 ^ 32) (hpos : 0 < s.offset)
    (h : s.offset ≤ 2 * s.data.length) : s.read = s.word := by
  have hsize : s.size = 2 * s.data.length - s.offset := by
    simp only [size, u32]
    omega
  have hget : ∀ i ∈ List.range s.size, s.get i = nibble s.data (s.offset + i) := by
    intro i hi
    rw [hsize, mem_range] at hi
    rw [get, u32_add (by omega)]
  rw [read, map_congr_left hget, ← Function.comp_def, ← map_map, ← range'_eq_map_range,
    map_nibble_range' _ (by omega), word, take_of_length_le]
  simp [hsize]

/-- The offset lies in the data, and is an `unsigned`. -/
structure Inside (s : NibbleSlice) : Prop where
  offset_le : s.offset ≤ 2 * s.data.length
  offset_lt : s.offset < 2 ^ 32

/-- The nibbles in front of the end are fewer if the end does not fit. -/
lemma Inside.length_reached_lt {s : NibbleSlice} (h : s.Inside)
    (hlen : 2 ^ 32 ≤ 2 * s.data.length) : s.reached.length < s.word.length := by
  obtain ⟨h₁, h₂⟩ := h
  simp only [reached, length_take, length_word]
  omega

lemma length_reached_le (s : NibbleSlice) : s.reached.length ≤ s.word.length :=
  length_take_le' _ _

end NibbleSlice

/-- An odd number of nibbles is filled up with zero. -/
lemma pack_concat_zero {ks : List (Fin 16)} (h : ks.length % 2 = 1) :
    pack (ks ++ [0]) = pack ks := by
  induction ks using HexPrefix.pack.induct with
  | case1 => simp at h
  | case2 a => rfl
  | case3 a b ks ih =>
    have hks : ks.length % 2 = 1 := by
      simp only [length_cons] at h
      omega
    simp [pack, ih hks]

/-- Lost nibbles show, unless there are zeros. -/
lemma coded_ne_encode {leaf : Bool} {ns w : List (Fin 16)} (hlt : ns.length < w.length)
    (hw : (0 : Fin 16) ∉ w) :
    coded leaf (decide (w.length % 2 = 1)) ns ≠ HexPrefix.encode leaf w := by
  intro h
  rw [← coded_eq_encode, coded_eq_pack, coded_eq_pack] at h
  have hshort : ∀ xs ys : List (Fin 16), xs.length < ys.length → ys.length % 2 = 0 →
      pack xs = pack ys → ys = xs ++ [0] := by
    intro xs ys hlen heven hpack
    rcases Nat.mod_two_eq_zero_or_one xs.length with hx | hx
    · have := congrArg (List.length ∘ nibbles) hpack
      simp only [Function.comp_apply, nibbles_pack hx, nibbles_pack heven] at this
      omega
    · rw [← nibbles_pack heven, ← hpack, ← pack_concat_zero hx,
        nibbles_pack (by rw [length_append, length_singleton]; omega)]
  by_cases hodd : w.length % 2 = 1
  · simp only [hodd, decide_true, if_true] at h
    have := hshort _ _ (by simpa using hlt) (by rw [length_cons]; omega) h
    rw [cons_append, List.cons.injEq] at this
    exact hw (this.2 ▸ by simp)
  · simp only [hodd, decide_false, Bool.false_eq_true, if_false] at h
    have := hshort _ _ (by simpa using hlt) (by rw [length_cons, length_cons]; omega) h
    rw [cons_append, List.cons.injEq, cons_append, List.cons.injEq] at this
    exact hw (this.2.2 ▸ by simp)

lemma length_vectorLoop (v : Bytes) (n i : ℕ) (ret : Bytes) :
    (vectorLoop v n i ret).length = ret.length + n := by
  induction n generalizing i ret with
  | zero => rfl
  | succ n ih =>
    rw [vectorLoop, ih, length_append, length_singleton]
    omega

lemma size_keyOf_le (t : Bytes) : (keyOf t).size ≤ 2 * t.length := by
  have hsize : ∀ o : ℕ, o ≤ 2 * t.length → (⟨t, o⟩ : NibbleSlice).size ≤ 2 * t.length := by
    intro o ho
    simp only [NibbleSlice.size, u32]
    omega
  unfold keyOf
  split_ifs <;> exact hsize _ (by omega)

/-- A word of nibbles as a slice, as two slices, and as a part of a vector. -/
structure Layout where
  /-- The word. -/
  w : List (Fin 16)
  slice : NibbleSlice
  first : NibbleSlice
  second : NibbleSlice
  vector : List (Fin 16)
  begin : ℕ
  stop : ℤ
  /-- The position `stop` stands for, which counts from behind if it is negative. -/
  last : ℕ
  inside : slice.Inside ∧ first.Inside ∧ second.Inside
  begin_lt : begin < 2 ^ 31
  stop_int : -2 ^ 31 ≤ stop ∧ stop < 2 ^ 31
  last_eq : (last : ℤ) = if stop < 0 then vector.length + 1 + stop else stop
  begin_le : begin ≤ last
  last_le : last ≤ vector.length
  slice_word : slice.word = w
  join_word : first.word ++ second.word = w
  vector_word : (vector.drop begin).take (last - begin) = w

namespace Layout

/-- All ends are 32-bit numbers. -/
structure Fits (l : Layout) : Prop where
  slice : l.slice.data.length < 2 ^ 31
  first : l.first.data.length < 2 ^ 31
  second : l.second.data.length < 2 ^ 31
  last : l.last < 2 ^ 32

/-- The overloads give the same byte string, which gives back the word and the flag. -/
def Coded (l : Layout) (leaf : Bool) : Prop :=
  hexPrefixEncodeJoin l.first l.second leaf = hexPrefixEncode l.slice leaf ∧
  hexPrefixEncodeVector (hexes l.vector) leaf l.begin l.stop = hexPrefixEncode l.slice leaf ∧
  (keyOf (hexPrefixEncode l.slice leaf)).read = l.w ∧
  leafFlag (hexPrefixEncode l.slice leaf) = leaf

variable (l : Layout) (leaf : Bool)

lemma length_w : l.w.length = l.last - l.begin := by
  have := l.begin_le
  have := l.last_le
  rw [← l.vector_word, length_take, length_drop]
  omega

lemma slice_eq :
    hexPrefixEncode l.slice leaf = coded leaf (decide (l.w.length % 2 = 1)) l.slice.reached := by
  rw [← l.slice_word]
  exact NibbleSlice.hexPrefixEncode_reached l.inside.1.offset_le l.inside.1.offset_lt leaf

lemma join_eq :
    hexPrefixEncodeJoin l.first l.second leaf =
      coded leaf (decide (l.w.length % 2 = 1)) (l.first.reached ++ l.second.reached) := by
  rw [← l.join_word]
  exact NibbleSlice.hexPrefixEncodeJoin_reached l.inside.2.1.offset_le l.inside.2.2.offset_le leaf

lemma u32_last :
    (if l.stop < 0 then u32 (l.vector.length + 1 + l.stop) else u32 l.stop) = l.last % 2 ^ 32 := by
  have h := l.last_eq
  split_ifs at h ⊢ <;> rw [← h] <;> unfold u32 <;> omega

lemma u32_begin : u32 l.begin = l.begin := by
  have := l.begin_lt
  unfold u32
  omega

lemma vector_eq (h : l.last < 2 ^ 32) :
    hexPrefixEncodeVector (hexes l.vector) leaf l.begin l.stop = HexPrefix.encode leaf l.w := by
  have hlast := l.u32_last
  rw [Nat.mod_eq_of_lt h] at hlast
  rw [hexPrefixEncodeVector_between l.u32_begin hlast l.begin_le l.last_le h, l.vector_word]

lemma length_vector :
    (hexPrefixEncodeVector (hexes l.vector) leaf l.begin l.stop).length =
      1 + (l.last % 2 ^ 32 - l.begin) / 2 := by
  simp only [hexPrefixEncodeVector, l.u32_begin, length_hexes, l.u32_last]
  split_ifs <;> rw [length_vectorLoop, length_singleton]

variable {l leaf}

/-- Where all ends fit, every overload gives the coded word.

**Proof sketch.** Nothing is lost, so that all overloads give the hex-prefix coding. It has at
most `2 ^ 31` bytes, and its key begins behind its mark, so that the key is read to its end. -/
lemma coded_of_fits (h : l.Fits) : l.Coded leaf := by
  obtain ⟨h₁, h₂, h₃, h₄⟩ := h
  have hslice : hexPrefixEncode l.slice leaf = HexPrefix.encode leaf l.w := by
    rw [slice_eq, NibbleSlice.reached_eq (by omega), l.slice_word, coded_eq_encode]
  refine ⟨?_, ?_, ?_, ?_⟩
  · rw [hslice, join_eq, NibbleSlice.reached_eq (by omega), NibbleSlice.reached_eq (by omega),
      l.join_word, coded_eq_encode]
  · rw [hslice, l.vector_eq leaf h₄]
  · have hw : l.w.length ≤ 2 ^ 32 - 2 := by
      rw [← l.slice_word, NibbleSlice.length_word]
      omega
    have hlen := HexPrefix.length_encode leaf l.w
    rw [hslice, NibbleSlice.read_eq, word_keyOf_encode]
    · rw [keyOf_encode_eq]
      simp only [hlen]
      omega
    · rw [keyOf_encode_eq]
      split_ifs <;> exact Nat.succ_pos _
    · rw [keyOf_encode_eq]
      simp only [hlen]
      split_ifs <;> omega
  · rw [hslice, leafFlag_encode]

/-- An end that does not fit shows, unless there are zeros.

**Proof sketch.** If the end of the vector does not fit, the byte string is too short for the
word. Otherwise it is the coded word, and the slices are coded without the nibbles they lose. -/
lemma fits_of_coded (hw : (0 : Fin 16) ∉ l.w) (h : l.Coded leaf) : l.Fits := by
  obtain ⟨hjoin, hvector, hread, -⟩ := h
  have hlast : l.last < 2 ^ 32 := by
    by_contra! hge
    have hsize := size_keyOf_le (hexPrefixEncode l.slice leaf)
    rw [← NibbleSlice.length_read, hread, length_w, ← hvector, length_vector] at hsize
    have := l.begin_lt
    omega
  rw [l.vector_eq leaf hlast] at hvector
  rw [← hvector, join_eq] at hjoin
  rw [slice_eq] at hvector
  have hlen := congrArg List.length l.join_word
  rw [length_append] at hlen
  have hparts : ¬ (l.first.reached ++ l.second.reached).length < l.w.length :=
    fun hlt => coded_ne_encode hlt hw hjoin
  rw [length_append] at hparts
  have hfirst := l.first.length_reached_le
  have hsecond := l.second.length_reached_le
  refine ⟨?_, ?_, ?_, hlast⟩
  · by_contra! hge
    have hlt := l.inside.1.length_reached_lt (by omega)
    rw [l.slice_word] at hlt
    exact coded_ne_encode hlt hw hvector.symm
  · by_contra! hge
    have hlt := l.inside.2.1.length_reached_lt (by omega)
    omega
  · by_contra! hge
    have hlt := l.inside.2.2.length_reached_lt (by omega)
    omega

/-- The same sizes and positions. -/
structure SameSizes (l m : Layout) : Prop where
  slice : l.slice.data.length = m.slice.data.length
  first : l.first.data.length = m.first.data.length
  second : l.second.data.length = m.second.data.length
  vector : l.vector.length = m.vector.length
  offset : l.slice.offset = m.slice.offset ∧ l.first.offset = m.first.offset ∧
    l.second.offset = m.second.offset
  begin : l.begin = m.begin
  stop : l.stop = m.stop

lemma SameSizes.last {l m : Layout} (h : l.SameSizes m) : l.last = m.last := by
  have hl := l.last_eq
  rw [h.vector, h.stop, ← m.last_eq] at hl
  exact Int.ofNat.inj hl

/-! ### Words of ones -/

/-- A slice filled with ones. -/
def filled (s : NibbleSlice) : NibbleSlice := ⟨List.replicate s.data.length 0x11, s.offset⟩

lemma nibbles_replicate (n : ℕ) :
    nibbles (List.replicate n 0x11) = List.replicate (2 * n) (low 0x11) := by
  induction n with
  | zero => rfl
  | succ n ih =>
    rw [replicate_succ, nibbles, ih, Nat.mul_succ, replicate_succ, replicate_succ]
    rfl

lemma word_filled (s : NibbleSlice) :
    (filled s).word = List.replicate s.word.length (low 0x11) := by
  rw [NibbleSlice.word, filled, nibbles_replicate, drop_replicate, NibbleSlice.length_word]

lemma inside_filled {s : NibbleSlice} (h : s.Inside) : (filled s).Inside :=
  ⟨by simpa [filled] using h.offset_le, h.offset_lt⟩

variable (l) in
/-- The layout with ones everywhere. -/
def onesIn : Layout where
  w := List.replicate l.w.length (low 0x11)
  slice := filled l.slice
  first := filled l.first
  second := filled l.second
  vector := List.replicate l.vector.length (low 0x11)
  begin := l.begin
  stop := l.stop
  last := l.last
  inside := ⟨inside_filled l.inside.1, inside_filled l.inside.2.1, inside_filled l.inside.2.2⟩
  begin_lt := l.begin_lt
  stop_int := l.stop_int
  last_eq := by rw [length_replicate, l.last_eq]
  begin_le := l.begin_le
  last_le := by rw [length_replicate]; exact l.last_le
  slice_word := by rw [word_filled, l.slice_word]
  join_word := by
    rw [word_filled, word_filled, replicate_append_replicate, ← length_append,
      l.join_word]
  vector_word := by
    have := l.last_le
    rw [drop_replicate, take_replicate, length_w, Nat.min_eq_left (by omega)]

/-- **The hex-prefix codec.** On all words that are laid out in given sizes, the three overloads
agree and the key and the flag are given back, exactly if all ends are 32-bit numbers.

**Proof sketch.** Where an end does not fit, the word of ones in the same sizes is not coded. -/
theorem coded_iff (l : Layout) : (∀ m : Layout, m.SameSizes l → ∀ leaf, m.Coded leaf) ↔ l.Fits := by
  constructor
  · intro h
    have hzero : (0 : Fin 16) ∉ l.onesIn.w := fun hmem =>
      absurd (List.eq_of_mem_replicate hmem) (by decide)
    have hsame : l.onesIn.SameSizes l :=
      ⟨List.length_replicate, List.length_replicate, List.length_replicate,
        List.length_replicate, ⟨rfl, rfl, rfl⟩, rfl, rfl⟩
    obtain ⟨h₁, h₂, h₃, h₄⟩ := fits_of_coded hzero (h _ hsame false)
    rw [hsame.slice] at h₁
    rw [hsame.first] at h₂
    rw [hsame.second] at h₃
    exact ⟨h₁, h₂, h₃, h₄⟩
  · rintro ⟨h₁, h₂, h₃, h₄⟩ m hsame leaf
    refine coded_of_fits ⟨?_, ?_, ?_, ?_⟩
    · rwa [hsame.slice]
    · rwa [hsame.first]
    · rwa [hsame.second]
    · rwa [hsame.last]

/-- The nibbles `1 1` in a slice, in two slices and as a vector. -/
def twoOnes (s : NibbleSlice) (h : s.Inside) (hw : s.word = [low 0x11, low 0x11]) : Layout where
  w := [low 0x11, low 0x11]
  slice := s
  first := ⟨[0x11], 0⟩
  second := ⟨[], 0⟩
  vector := [low 0x11, low 0x11]
  begin := 0
  stop := 2
  last := 2
  inside := ⟨h, ⟨by decide, by decide⟩, ⟨by decide, by decide⟩⟩
  begin_lt := by decide
  stop_int := by decide
  last_eq := rfl
  begin_le := by decide
  last_le := by decide
  slice_word := hw
  join_word := by decide
  vector_word := rfl

/-- The last byte of a buffer of so many bytes. -/
def lastByte (n : ℕ) : NibbleSlice := ⟨List.replicate n 0x11, 2 * n - 2⟩

lemma length_lastByte (n : ℕ) : (lastByte n).data.length = n := List.length_replicate

lemma lastByte_inside {n : ℕ} (h : n ≤ 2 ^ 31) : (lastByte n).Inside := by
  refine ⟨?_, ?_⟩
  · rw [length_lastByte]
    exact Nat.sub_le _ _
  · change 2 * n - 2 < 2 ^ 32
    omega

lemma lastByte_word {n : ℕ} (h : 0 < n) : (lastByte n).word = [1, 1] := by
  rw [NibbleSlice.word, lastByte, nibbles_replicate, List.drop_replicate,
    show 2 * n - (2 * n - 2) = 2 by omega]
  rfl

/-- The codec is right on the nibbles at the end of a short buffer, and not on all at the end of a
buffer of `2 ^ 31` bytes. -/
theorem coded_iff_twoOnes :
    (∀ m : Layout, m.SameSizes (twoOnes (lastByte 3) (lastByte_inside (by norm_num))
      (lastByte_word (by norm_num))) → ∀ leaf, m.Coded leaf) ∧
    ¬ ∀ m : Layout, m.SameSizes (twoOnes (lastByte (2 ^ 31)) (lastByte_inside le_rfl)
      (lastByte_word (by norm_num))) → ∀ leaf, m.Coded leaf := by
  refine ⟨(coded_iff _).mpr ⟨by decide, by decide, by decide, by decide⟩, fun h => ?_⟩
  have hlt : (lastByte (2 ^ 31)).data.length < 2 ^ 31 := ((coded_iff _).mp h).slice
  rw [length_lastByte] at hlt
  exact absurd hlt (lt_irrefl _)

/-- Two nibbles at the end of `2 ^ 31` bytes are not coded; from two slices or a vector they
are. -/
theorem two_nibbles_lost :
    hexPrefixEncode (lastByte (2 ^ 31)) true = [0x20] ∧ (lastByte (2 ^ 31)).word = [1, 1] ∧
      (⟨[0x11], 0⟩ : NibbleSlice).word ++ (⟨[], 0⟩ : NibbleSlice).word = [1, 1] ∧
      hexPrefixEncodeJoin ⟨[0x11], 0⟩ ⟨[], 0⟩ true = [0x20, 0x11] ∧
      hexPrefixEncodeVector (hexes [1, 1]) true 0 2 = [0x20, 0x11] := by
  have hword := lastByte_word (n := 2 ^ 31) (by norm_num)
  have hinside := lastByte_inside (n := 2 ^ 31) le_rfl
  have hreached : (lastByte (2 ^ 31)).reached = [] := by
    rw [NibbleSlice.reached, length_lastByte]
    exact List.take_zero
  refine ⟨?_, hword, by decide, by decide, by decide⟩
  rw [NibbleSlice.hexPrefixEncode_reached hinside.offset_le hinside.offset_lt, hword, hreached]
  rfl

end Layout

end Tos
