import Tos.Foundation.BigEndian

/-!
# Recursive length prefix, the textbook definition

The encoding of finite trees of byte strings and lists that Ethereum calls RLP: every item
is a *frame*, its payload behind a header that gives the kind of the item and the length of
the payload, except that a single byte below `0x80` stands for itself. The payload of a
list is the concatenation of the frames of its items.

Nothing here depends on a particular reader or writer. The header has room for lengths
below `2 ^ 64`, so the statements about reading an encoding back carry that bound.

## Main results

* `Rlp.frame_append_inj`: a frame can be cut off the front of a byte string in at most one
  way; in particular no frame is a proper prefix of another one.
* `Rlp.encode_injective_of_lt`, `Rlp.encodeList_injective_of_lt`: different trees (sequences
  of trees) have different encodings.
-/

namespace Rlp

open List
open BigEndian (bytes)

/-- A finite tree of byte strings and lists. -/
inductive Item where
  | data (b : List UInt8)
  | list (xs : List Item)
  deriving Repr

/-- The two kinds of item, as the header of a frame records them. -/
inductive Kind where
  | data
  | list
  deriving DecidableEq, Repr

/-- First byte of the header of an empty item of the kind. -/
def Kind.short : Kind → ℕ
  | .data => 0x80
  | .list => 0xc0

/-- The first byte of a long header is this plus the number of bytes of the length. -/
def Kind.long : Kind → ℕ
  | .data => 0xb7
  | .list => 0xf7

/-- A single byte below `0x80` is its own encoding. -/
def selfCoded : List UInt8 → Bool
  | [b] => decide (b.toNat < 0x80)
  | _ => false

/-- The header of an item of kind `k` with `n` bytes of payload: one byte for fewer than
`56` bytes, else the length in big-endian form behind a byte that gives its size. -/
def header (k : Kind) (n : ℕ) : List UInt8 :=
  if n < 56 then [UInt8.ofNat (k.short + n)]
  else UInt8.ofNat (k.long + (bytes n).length) :: bytes n

/-- The encoding of one item from its payload. -/
def frame (k : Kind) (p : List UInt8) : List UInt8 :=
  if k = .data ∧ selfCoded p then p else header k p.length ++ p

mutual
/-- The textbook encoding of a tree. -/
def encode : Item → List UInt8
  | .data b => frame .data b
  | .list xs => frame .list (encodeList xs)

/-- The textbook encodings of a sequence of trees, one after the other. -/
def encodeList : List Item → List UInt8
  | [] => []
  | x :: xs => encode x ++ encodeList xs
end

/-! ### Frames -/

variable {p : List UInt8}

/-- What it means for a payload to be its own encoding. -/
lemma selfCoded_iff : selfCoded p = true ↔ ∃ b, p = [b] ∧ b.toNat < 0x80 := by
  unfold selfCoded
  split
  · simp
  · rename_i h
    simp only [Bool.false_eq_true, false_iff, not_exists, not_and]
    exact fun b hb _ => h b hb

/-- A low byte is its own frame. -/
lemma frame_self {b : UInt8} (h : b.toNat < 0x80) : frame .data [b] = [b] := by
  simp [frame, selfCoded, h]

variable {k : Kind}

/-- A short payload stands behind one byte. -/
lemma frame_short (hk : ¬(k = .data ∧ selfCoded p))
    (hp : p.length < 56) : frame k p = UInt8.ofNat (k.short + p.length) :: p := by
  simp [frame, hk, header, hp]

/-- A long payload is never a single byte, so its frame always has a header. -/
lemma frame_long (hp : 56 ≤ p.length) :
    frame k p = UInt8.ofNat (k.long + (bytes p.length).length) :: (bytes p.length ++ p) := by
  have hk : ¬(k = .data ∧ selfCoded p) := by
    rintro ⟨-, h⟩
    obtain ⟨b, rfl, -⟩ := selfCoded_iff.mp h
    simp at hp
  simp [frame, hk, header, Nat.not_lt.mpr hp]

/-- A list is never its own frame. -/
lemma frame_list (p : List UInt8) : frame .list p = header .list p.length ++ p := by
  simp [frame]

/-- Every header has a first byte. -/
@[simp] lemma header_ne_nil (k : Kind) (n : ℕ) : header k n ≠ [] := by
  unfold header
  split <;> simp

variable {n : ℕ}

/-- The size of a length below `2 ^ 64` is between one and eight bytes. -/
lemma length_bytes_bounds (h0 : 0 < n) (h : n < 2 ^ 64) :
    1 ≤ (bytes n).length ∧ (bytes n).length ≤ 8 := by
  refine ⟨?_, BigEndian.length_bytes_le_iff.mpr (by norm_num at h ⊢; exact h)⟩
  rw [Nat.one_le_iff_ne_zero, ne_eq, length_eq_zero_iff, BigEndian.bytes_eq_nil_iff]
  omega

/-- The three forms of a frame: a byte that stands for itself, a payload of fewer than `56`
bytes behind one byte, a longer one behind its length. -/
lemma frame_cases (k : Kind) (p : List UInt8) :
    (∃ b, k = .data ∧ p = [b] ∧ b.toNat < 0x80 ∧ frame k p = [b]) ∨
    (¬(k = .data ∧ selfCoded p) ∧ p.length < 56 ∧
      frame k p = UInt8.ofNat (k.short + p.length) :: p) ∨
    (56 ≤ p.length ∧ frame k p = UInt8.ofNat (k.long + (bytes p.length).length) ::
      (bytes p.length ++ p)) := by
  by_cases hk : k = .data ∧ selfCoded p
  · obtain ⟨rfl, hp⟩ := hk
    obtain ⟨b, rfl, hb⟩ := selfCoded_iff.mp hp
    exact Or.inl ⟨b, rfl, rfl, hb, frame_self hb⟩
  · by_cases hp : p.length < 56
    · exact Or.inr (Or.inl ⟨hk, hp, frame_short hk hp⟩)
    · exact Or.inr (Or.inr ⟨by omega, frame_long (by omega)⟩)

/-- No frame is empty. -/
@[simp] lemma frame_ne_nil (k : Kind) (p : List UInt8) : frame k p ≠ [] := by
  rcases frame_cases k p with ⟨b, -, -, -, h⟩ | ⟨-, -, h⟩ | ⟨-, h⟩ <;> simp [h]

/-- A payload is no longer than its frame. -/
lemma length_le_length_frame (k : Kind) (p : List UInt8) : p.length ≤ (frame k p).length := by
  unfold frame
  split <;> simp

/-- A frame adds at most nine bytes to its payload. -/
lemma length_frame_le (hp : p.length < 2 ^ 64) : (frame k p).length ≤ p.length + 9 := by
  rcases frame_cases k p with ⟨b, -, rfl, -, h⟩ | ⟨-, -, h⟩ | ⟨hp', h⟩
  · simp [h]
  · simp [h]
  · have := (length_bytes_bounds (by omega) hp).2
    rw [h]
    simp only [length_cons, length_append]
    omega

/-- No frame is empty. -/
lemma length_frame_pos (k : Kind) (p : List UInt8) : 0 < (frame k p).length :=
  length_pos_iff.mpr (frame_ne_nil k p)

/-- The first byte of a short frame does not overflow. -/
lemma toNat_short (h : n < 56) : (UInt8.ofNat (k.short + n)).toNat = k.short + n := by
  rw [UInt8.toNat_ofNat']
  cases k <;> simp only [Kind.short] <;> omega

/-- The first byte of a long frame does not overflow. -/
lemma toNat_long (h : n ≤ 8) : (UInt8.ofNat (k.long + n)).toNat = k.long + n := by
  rw [UInt8.toNat_ofNat']
  cases k <;> simp only [Kind.long] <;> omega

/-- **Frames cut uniquely.** Two frames at the front of the same byte string are the same
frame.

**Proof sketch.** The first byte decides the form of the frame: below `0x80` it is the whole
frame, and the ranges of the four kinds of header are disjoint. A short header gives the
length of the payload; a long one gives the size of the length, hence the length, hence the
payload. -/
theorem frame_append_inj {k k' : Kind} {p p' r r' : List UInt8} (hp : p.length < 2 ^ 64)
    (hp' : p'.length < 2 ^ 64) (h : frame k p ++ r = frame k' p' ++ r') :
    k = k' ∧ p = p' ∧ r = r' := by
  rcases frame_cases k p with ⟨b, rfl, rfl, hb, e⟩ | ⟨hs, hl, e⟩ | ⟨hl, e⟩ <;>
    rcases frame_cases k' p' with ⟨b', rfl, rfl, hb', e'⟩ | ⟨hs', hl', e'⟩ | ⟨hl', e'⟩ <;>
    rw [e, e'] at h <;>
    simp only [cons_append, nil_append, List.cons.injEq] at h <;>
    obtain ⟨hh, ht⟩ := h
  · exact ⟨rfl, by rw [hh], ht⟩
  · have := congrArg UInt8.toNat hh
    rw [toNat_short hl'] at this
    cases k' <;> simp only [Kind.short] at this <;> omega
  · have hL := length_bytes_bounds (by omega) hp'
    have := congrArg UInt8.toNat hh
    rw [toNat_long hL.2] at this
    cases k' <;> simp only [Kind.long] at this <;> omega
  · have := congrArg UInt8.toNat hh
    rw [toNat_short hl] at this
    cases k <;> simp only [Kind.short] at this <;> omega
  · have hn := congrArg UInt8.toNat hh
    rw [toNat_short hl, toNat_short hl'] at hn
    have hkl : k = k' ∧ p.length = p'.length := by
      cases k <;> cases k' <;> simp only [Kind.short] at hn <;>
        first
          | exact ⟨rfl, by omega⟩
          | omega
    obtain ⟨hpp, hrr⟩ := append_inj ht hkl.2
    exact ⟨hkl.1, hpp, hrr⟩
  · have hL := length_bytes_bounds (by omega) hp'
    have hn := congrArg UInt8.toNat hh
    rw [toNat_short hl, toNat_long hL.2] at hn
    cases k <;> cases k' <;> simp only [Kind.short, Kind.long] at hn <;> omega
  · have hL := length_bytes_bounds (by omega) hp
    have := congrArg UInt8.toNat hh
    rw [toNat_long hL.2] at this
    cases k <;> simp only [Kind.long] at this <;> omega
  · have hL := length_bytes_bounds (by omega) hp
    have hn := congrArg UInt8.toNat hh
    rw [toNat_short hl', toNat_long hL.2] at hn
    cases k <;> cases k' <;> simp only [Kind.short, Kind.long] at hn <;> omega
  · have hL := length_bytes_bounds (by omega) hp
    have hL' := length_bytes_bounds (by omega) hp'
    have hn := congrArg UInt8.toNat hh
    rw [toNat_long hL.2, toNat_long hL'.2] at hn
    have hkl : k = k' ∧
        (bytes p.length).length = (bytes p'.length).length := by
      cases k <;> cases k' <;> simp only [Kind.long] at hn <;>
        first
          | exact ⟨rfl, by omega⟩
          | omega
    rw [append_assoc, append_assoc] at ht
    obtain ⟨hbe, ht⟩ := append_inj ht hkl.2
    obtain ⟨hpp, hrr⟩ := append_inj ht (BigEndian.bytes_injective hbe)
    exact ⟨hkl.1, hpp, hrr⟩

/-- **A frame has one kind and one payload.** -/
theorem frame_inj {k k' : Kind} {p p' : List UInt8} (hp : p.length < 2 ^ 64)
    (hp' : p'.length < 2 ^ 64) (h : frame k p = frame k' p') : k = k' ∧ p = p' := by
  obtain ⟨hk, hpp, -⟩ := @frame_append_inj k k' p p' [] [] hp hp' (by rw [h])
  exact ⟨hk, hpp⟩

/-! ### Trees -/

/-- Data is the frame of its bytes. -/
@[simp] lemma encode_data (b : List UInt8) : encode (.data b) = frame .data b := by
  simp [encode]

/-- A list is the frame of its items. -/
@[simp] lemma encode_list (xs : List Item) : encode (.list xs) = frame .list (encodeList xs) := by
  simp [encode]

/-- No items have no code. -/
@[simp] lemma encodeList_nil : encodeList [] = [] := by simp [encodeList]

/-- Items are coded one behind the other. -/
@[simp] lemma encodeList_cons (x : Item) (xs : List Item) :
    encodeList (x :: xs) = encode x ++ encodeList xs := by simp [encodeList]

/-- The codes of two lists of items, one behind the other. -/
@[simp] lemma encodeList_append (xs ys : List Item) :
    encodeList (xs ++ ys) = encodeList xs ++ encodeList ys := by
  induction xs with
  | nil => simp
  | cons x xs ih => simp [ih]

/-- The kind of a tree and the payload of its encoding. -/
def Item.kind : Item → Kind
  | .data _ => .data
  | .list _ => .list

/-- The payload of the encoding of a tree. -/
def Item.payload : Item → List UInt8
  | .data b => b
  | .list xs => encodeList xs

/-- Every item is the frame of its payload. -/
lemma encode_eq_frame (x : Item) : encode x = frame x.kind x.payload := by
  cases x <;> simp [Item.kind, Item.payload]

/-- No code is empty. -/
@[simp] lemma encode_ne_nil (x : Item) : encode x ≠ [] := by
  rw [encode_eq_frame]
  exact frame_ne_nil _ _

/-- No code is empty. -/
lemma length_encode_pos (x : Item) : 0 < (encode x).length :=
  length_pos_iff.mpr (encode_ne_nil x)

variable {xs : List Item}

/-- An item is not longer than the sequence it is in. -/
lemma length_encode_le_of_mem {x : Item} (h : x ∈ xs) :
    (encode x).length ≤ (encodeList xs).length := by
  induction xs with
  | nil => simp at h
  | cons y ys ih =>
    rw [encodeList_cons, length_append]
    rcases mem_cons.mp h with rfl | h
    · omega
    · have := ih h
      omega

/-- Every item takes at least a byte. -/
lemma length_le_length_encodeList (xs : List Item) : xs.length ≤ (encodeList xs).length := by
  induction xs with
  | nil => exact Nat.zero_le _
  | cons x xs ih =>
    have := length_encode_pos x
    rw [encodeList_cons, length_append, length_cons]
    omega

/-- The size of a sequence of items of bounded size. -/
lemma length_encodeList_le_mul {m : ℕ} (h : ∀ x ∈ xs, (encode x).length ≤ m) :
    (encodeList xs).length ≤ m * xs.length := by
  induction xs with
  | nil => simp
  | cons x xs ih =>
    have h1 := h x mem_cons_self
    have h2 := ih fun y hy => h y (mem_cons_of_mem x hy)
    rw [encodeList_cons, length_append, length_cons, Nat.mul_succ]
    omega

/-- The items are no longer than their list. -/
lemma length_encodeList_le (xs : List Item) :
    (encodeList xs).length ≤ (encode (.list xs)).length := by
  rw [encode_list]
  exact length_le_length_frame _ _

/-- The list adds at most nine bytes. -/
lemma length_encode_list_le (h : (encodeList xs).length < 2 ^ 64) :
    (encode (.list xs)).length ≤ (encodeList xs).length + 9 := by
  rw [encode_list]
  exact length_frame_le h

/-- An item is no longer than its list. -/
lemma length_encode_le_of_mem_list {x : Item} (h : x ∈ xs) :
    (encode x).length ≤ (encode (.list xs)).length :=
  (length_encode_le_of_mem h).trans (length_encodeList_le xs)

mutual
/-- The encoding of a tree can be cut off the front of a byte string in at most one way.

**Proof sketch.** Structural induction. The frames agree by `frame_append_inj`, so both trees
are byte strings with the same payload, or both are lists and the sequences of their items
have the same encoding. -/
theorem encode_append_inj : ∀ {x y : Item} {r s : List UInt8}, (encode x).length < 2 ^ 64 →
    (encode y).length < 2 ^ 64 → encode x ++ r = encode y ++ s → x = y ∧ r = s
  | .data b, y, r, s, hx, hy, h => by
    rw [encode_eq_frame y] at h hy
    rw [encode_data] at h hx
    obtain ⟨hk, hp, hr⟩ := frame_append_inj
      (lt_of_le_of_lt (length_le_length_frame _ _) hx)
      (lt_of_le_of_lt (length_le_length_frame _ _) hy) h
    cases y with
    | data c => exact ⟨by rw [hp]; rfl, hr⟩
    | list ys => simp [Item.kind] at hk
  | .list xs, y, r, s, hx, hy, h => by
    rw [encode_eq_frame y] at h hy
    rw [encode_list] at h hx
    have hxs := lt_of_le_of_lt (length_le_length_frame _ _) hx
    have hys := lt_of_le_of_lt (length_le_length_frame _ _) hy
    obtain ⟨hk, hp, hr⟩ := frame_append_inj hxs hys h
    cases y with
    | data c => simp [Item.kind] at hk
    | list ys =>
      rw [encodeList_injective_of_lt hxs hys hp]
      exact ⟨rfl, hr⟩

/-- Different sequences of trees have different encodings. -/
theorem encodeList_injective_of_lt : ∀ {xs ys : List Item}, (encodeList xs).length < 2 ^ 64 →
    (encodeList ys).length < 2 ^ 64 → encodeList xs = encodeList ys → xs = ys
  | [], [], _, _, _ => rfl
  | [], y :: ys, _, _, h => by
    have := congrArg List.length h
    have := length_encode_pos y
    simp_all
  | x :: xs, [], _, _, h => by
    have := congrArg List.length h
    have := length_encode_pos x
    simp_all
  | x :: xs, y :: ys, hx, hy, h => by
    simp only [encodeList_cons, length_append] at h hx hy
    obtain ⟨hxy, hrest⟩ := encode_append_inj (by omega) (by omega) h
    have hys := encodeList_injective_of_lt (by omega) (by omega) hrest
    rw [hxy, hys]
end

/-- Different trees have different encodings. -/
theorem encode_injective_of_lt {x y : Item} (hx : (encode x).length < 2 ^ 64)
    (hy : (encode y).length < 2 ^ 64) (h : encode x = encode y) : x = y :=
  (encode_append_inj (r := []) (s := []) hx hy (by simpa using h)).1

end Rlp
