import Tos.Rlp.Reader

/-!
# The reader accepts exactly the canonical encodings

Iterating over a list works on references into the buffer: an `RLP::iterator` holds the
reference to its item and the number of bytes that follow it, and `begin() .. end()` stops
when the reference equals the one at the end of the list. References are pairs of an address
and a size here, over a buffer `mem` that is passed along.

`traverse` is the complete reading of an object: `toBytes(Strict)` on data, and the range
loop over `begin() .. end()` on a list. Whether the loop ever meets `end()` depends on the
addresses, so the traversal takes fuel, and that it never runs out is part of the result.

## Main results

* `RLP.traverse_spec`: enough fuel gives either the tree of which the bytes are the
  encoding, or an exception, in which case there is no such tree.
* `RLP.traverse_eq_ok_iff_encode`: the reader accepts exactly the textbook encodings.
-/

namespace Tos

open List

/-- `vector_ref<byte const>`: an address (`none` is the null pointer) and a size. -/
structure VectorRef where
  m_data : Option ℕ := none
  m_count : ℕ := 0
  deriving DecidableEq, Repr

namespace VectorRef

/-- The bytes referred to, in the buffer `mem`. -/
def bytes (mem : Bytes) (r : VectorRef) : Bytes :=
  match r.m_data with
  | none => []
  | some a => (mem.drop a).take r.m_count

/-- `vector_ref::cropped(_begin, _count)`. -/
def cropped (r : VectorRef) (begin count : ℕ) : VectorRef :=
  match r.m_data with
  | none => {}
  | some a =>
    if begin ≤ r.m_count ∧ count ≤ r.m_count ∧ begin + count ≤ r.m_count then
      ⟨some (a + begin), count⟩
    else {}

/-- `vector_ref::cropped(_begin)`. -/
def croppedFrom (r : VectorRef) (begin : ℕ) : VectorRef :=
  match r.m_data with
  | none => {}
  | some a => if begin ≤ r.m_count then ⟨some (a + begin), r.m_count - begin⟩ else {}

/-- `vector_ref::next().data()`. -/
def nextData (r : VectorRef) : Option ℕ := r.m_data.map (· + r.m_count)

/-- The reference to a whole buffer. -/
def ofBuffer (mem : Bytes) : VectorRef := ⟨some 0, mem.length⟩

end VectorRef

namespace RLP

/-- `RLP::iterator`. -/
structure Iterator where
  m_remaining : ℕ
  m_currentItem : VectorRef

variable (mem : Bytes)

/-- `RLP::payload`, as a reference. -/
def payloadRef (r : VectorRef) : Except RlpError VectorRef := do
  let l ← length (r.bytes mem)
  if l > r.m_count then .error .badRLP
  return r.cropped (payloadOffset (r.bytes mem)) l

/-- `RLP::begin`. -/
def beginIterator (parent : VectorRef) : Except RlpError Iterator := do
  if isList (parent.bytes mem) then
    let pl ← payloadRef mem parent
    let currentItem := pl.cropped 0 (← sizeAsEncoded (pl.bytes mem))
    return ⟨pl.m_count - currentItem.m_count, currentItem⟩
  else return ⟨0, parent.croppedFrom parent.m_count⟩

/-- `RLP::end`. -/
def endIterator (parent : VectorRef) : Iterator := ⟨0, parent.croppedFrom parent.m_count⟩

/-- `RLP::iterator::operator++`. -/
def Iterator.next (it : Iterator) : Except RlpError Iterator := do
  if it.m_remaining ≠ 0 then
    let currentItem : VectorRef := ⟨it.m_currentItem.nextData, it.m_remaining⟩
    let currentItem := currentItem.cropped 0 (← sizeAsEncoded (currentItem.bytes mem))
    return ⟨it.m_remaining - min it.m_remaining currentItem.m_count, currentItem⟩
  else return ⟨0, it.m_currentItem.nextData, 0⟩

/-- How a traversal fails: an exception of the reader, or the fuel has run out. -/
inductive TraverseError where
  | rlp (e : RlpError)
  | outOfFuel
  deriving DecidableEq, Repr

open Rlp (Item encode encodeList frame frame_list header)

mutual
/-- Read the object referred to completely, as a tree. -/
def traverse : ℕ → VectorRef → Except TraverseError Item
  | 0, _ => .error .outOfFuel
  | fuel + 1, r => do
    let d ← (ofBytes (r.bytes mem) VeryStrict).mapError .rlp
    if isList d then
      let first ← (beginIterator mem r).mapError .rlp
      return .list (← traverseItems fuel first (endIterator r))
    else
      return .data (← (toBytes d Strict).mapError .rlp)

/-- The range loop over the items from an iterator up to `last`. -/
def traverseItems : ℕ → Iterator → Iterator → Except TraverseError (List Item)
  | 0, _, _ => .error .outOfFuel
  | fuel + 1, it, last =>
    if it.m_currentItem = last.m_currentItem then .ok []
    else do
      let x ← traverse fuel it.m_currentItem
      let it ← (it.next mem).mapError .rlp
      return x :: (← traverseItems fuel it last)
end

/-! ### References to a part of the buffer -/

variable {mem}

/-- The buffer holds the bytes `d` at address `a`. -/
def Holds (mem : Bytes) (a : ℕ) (d : Bytes) : Prop := ∃ t, mem.drop a = d ++ t

/-- The reference to the bytes `d` at address `a`. -/
def refTo (a : ℕ) (d : Bytes) : VectorRef := ⟨some a, d.length⟩

lemma Holds.bytes_refTo {a : ℕ} {d : Bytes} (h : Holds mem a d) : (refTo a d).bytes mem = d := by
  obtain ⟨t, ht⟩ := h
  simp [VectorRef.bytes, refTo, ht]

lemma Holds.left {a : ℕ} {p q : Bytes} (h : Holds mem a (p ++ q)) : Holds mem a p := by
  obtain ⟨t, ht⟩ := h
  exact ⟨q ++ t, by rw [ht, append_assoc]⟩

lemma Holds.right {a : ℕ} {p q : Bytes} (h : Holds mem a (p ++ q)) :
    Holds mem (a + p.length) q := by
  obtain ⟨t, ht⟩ := h
  exact ⟨t, by rw [← drop_drop, ht, append_assoc, drop_left' rfl]⟩

lemma cropped_refTo (a : ℕ) (p q r : Bytes) :
    (refTo a (p ++ (q ++ r))).cropped p.length q.length = refTo (a + p.length) q := by
  simp only [VectorRef.cropped, refTo, length_append]
  rw [if_pos (by omega)]

lemma nextData_refTo (a : ℕ) (d : Bytes) : (refTo a d).nextData = some (a + d.length) := rfl

/-! ### The iterators -/

/-- The iterator at the first item of the bytes `d` at address `a`: what both `begin()` and
`operator++` compute. -/
def iteratorAt (a : ℕ) (d : Bytes) : Except RlpError Iterator := do
  let n ← sizeAsEncoded d
  return ⟨d.length - n, refTo a (d.take n)⟩

/-- Cutting the first item off a reference. -/
private lemma cropped_first {a n : ℕ} {d : Bytes} (hn : sizeAsEncoded d = .ok n) :
    (refTo a d).cropped 0 n = refTo a (d.take n) ∧ (d.take n).length = n := by
  have hle := sizeAsEncoded_le hn
  have hlen : (d.take n).length = n := by simpa using hle
  have h := cropped_refTo a [] (d.take n) (d.drop n)
  rw [nil_append, take_append_drop, hlen] at h
  exact ⟨h, hlen⟩

/-- `begin()` of a list starts at its payload, whatever is behind the list. -/
lemma beginIterator_eq {a : ℕ} {p t : Bytes} (hp : p.length < maxLength)
    (h : Holds mem a (frame .list p ++ t)) :
    beginIterator mem (refTo a (frame .list p ++ t)) =
      iteratorAt (a + (header .list p.length).length) p := by
  have hbytes := h.bytes_refTo
  have hframe := frame_list p
  have hoff : payloadOffset (frame .list p ++ t) = (header .list p.length).length := by
    have := payloadOffset_frame (k := .list) hp t
    rw [hframe, length_append] at this
    rw [hframe]
    omega
  have hlength := length_frame (k := .list) hp t
  have hlist : isList (frame .list p ++ t) = true := isList_frame (k := .list) hp t
  have hpl : payloadRef mem (refTo a (frame .list p ++ t)) =
      .ok (refTo (a + (header .list p.length).length) p) := by
    have hcrop := cropped_refTo a (header .list p.length) p t
    rw [← append_assoc, ← hframe] at hcrop
    have hle := Rlp.length_le_length_frame .list p
    simp only [payloadRef, hbytes, hlength, hoff, bind, Except.bind, pure, Except.pure]
    rw [if_neg (by simp only [refTo, length_append]; omega), hcrop]
  have hread : (refTo (a + (header .list p.length).length) p).bytes mem = p := by
    rw [hframe] at h
    exact h.left.right.bytes_refTo
  simp only [beginIterator, hbytes, hlist, if_true, hpl, bind, Except.bind, hread, iteratorAt]
  cases hn : sizeAsEncoded p with
  | error e => rfl
  | ok n =>
    obtain ⟨hc, hlen⟩ := cropped_first (a := a + (header .list p.length).length) hn
    simp only [pure, Except.pure, hc]
    simp only [refTo, hlen]

lemma endIterator_eq (a : ℕ) (d : Bytes) :
    endIterator (refTo a d) = ⟨0, refTo (a + d.length) []⟩ := by
  simp [endIterator, VectorRef.croppedFrom, refTo]

/-- `operator++` goes on to the bytes behind the item. -/
lemma next_eq {a : ℕ} {x r : Bytes} (h : Holds mem a (x ++ r)) :
    Iterator.next mem ⟨r.length, refTo a x⟩ = iteratorAt (a + x.length) r := by
  have hread : (refTo (a + x.length) r).bytes mem = r := h.right.bytes_refTo
  rcases eq_or_ne r [] with rfl | hr
  · simp [Iterator.next, iteratorAt, refTo, VectorRef.nextData, bind, Except.bind, pure,
      Except.pure]
  · have hpos := List.length_pos_iff.mpr hr
    simp only [Iterator.next, nextData_refTo]
    change (if r.length ≠ 0 then
      (sizeAsEncoded ((refTo (a + x.length) r).bytes mem)).bind fun n => Except.ok
        (⟨r.length - min r.length ((refTo (a + x.length) r).cropped 0 n).m_count,
          (refTo (a + x.length) r).cropped 0 n⟩ : Iterator) else _) = _
    rw [if_pos (by omega), hread, iteratorAt]
    cases hn : sizeAsEncoded r with
    | error e => rfl
    | ok n =>
      obtain ⟨hc, hlen⟩ := cropped_first (a := a + x.length) hn
      have hle := sizeAsEncoded_le hn
      simp only [Except.bind, bind, hc, pure, Except.pure]
      simp only [refTo, hlen, Nat.min_eq_right hle]

/-! ### Reading a tree -/

/-- The outcome of reading bytes that ought to be an encoding `enc` of something: either it is
read back, or there is an exception and the bytes are no such encoding. -/
def Decides {α : Type} (enc : α → Bytes) (d : Bytes) (res : Except TraverseError α) : Prop :=
  (∃ t, res = .ok t ∧ enc t = d) ∨ (∃ e, res = .error (.rlp e) ∧ ∀ t, enc t ≠ d)

/-- Reading the items from some address on. -/
def readItems (mem : Bytes) (fuel a : ℕ) (d : Bytes) : Except TraverseError (List Item) := do
  let it ← (iteratorAt a d).mapError .rlp
  traverseItems mem fuel it ⟨0, refTo (a + d.length) []⟩

/-- One round of the loop: read the frame the iterator is at, move on, read the rest. -/
private lemma readItems_frame {fuel a : ℕ} {k : Rlp.Kind} {p r : Bytes}
    (hs : sizeAsEncoded (frame k p ++ r) = .ok (frame k p).length)
    (hmem : Holds mem a (frame k p ++ r)) :
    readItems mem (fuel + 1) a (frame k p ++ r) =
      (traverse mem fuel (refTo a (frame k p))).bind fun x =>
        (readItems mem fuel (a + (frame k p).length) r).map (x :: ·) := by
  have hit : iteratorAt a (frame k p ++ r) = .ok ⟨r.length, refTo a (frame k p)⟩ := by
    simp [iteratorAt, hs, bind, Except.bind, pure, Except.pure]
  have hne : refTo a (frame k p) ≠ refTo (a + (frame k p ++ r).length) [] := by
    have := Rlp.length_frame_pos k p
    simp only [refTo, ne_eq, VectorRef.mk.injEq, Option.some.injEq, length_append]
    omega
  simp only [readItems, hit, Except.mapError, bind, Except.bind, traverseItems, next_eq hmem,
    length_append, ← Nat.add_assoc] at hne ⊢
  rw [if_neg hne]
  cases traverse mem fuel (refTo a (frame k p)) with
  | error e => rfl
  | ok x =>
    cases iteratorAt (a + (frame k p).length) r with
    | error e => rfl
    | ok it =>
      dsimp only
      cases traverseItems mem fuel it
        ⟨0, refTo (a + (frame k p).length + r.length) []⟩ <;> rfl

/-- The range loop, when each item that fits is read or refused correctly.

**Proof sketch.** Induction on the number of bytes left. Without bytes the iterator is the
end. Otherwise the bytes start with a frame, or cutting the first item off throws and no
sequence of trees can have this encoding, as the first tree would be such a frame. The frame
is read by assumption and the rest by induction. -/
theorem decides_readItems {N : ℕ} (hN : N ≤ maxLength)
    (htree : ∀ fuel a d, d.length ≤ N → d ≠ [] → 2 * d.length ≤ fuel → Holds mem a d →
      Decides encode d (traverse mem fuel (refTo a d))) :
    ∀ n ≤ N, ∀ fuel a d, d.length = n → 2 * n + 1 ≤ fuel → Holds mem a d →
      Decides encodeList d (readItems mem fuel a d) := by
  intro n
  induction n using Nat.strong_induction_on with
  | _ n ih =>
    rintro hnN (_ | fuel) a d rfl hfuel hmem
    · omega
    rcases eq_or_ne d [] with rfl | hd
    · refine Or.inl ⟨[], ?_, rfl⟩
      simp [readItems, iteratorAt, bind, Except.bind, Except.mapError, pure, Except.pure,
        traverseItems]
    cases hs : sizeAsEncoded d with
    | error e =>
      refine Or.inr ⟨e, ?_, ?_⟩
      · simp [readItems, iteratorAt, hs, bind, Except.bind, Except.mapError]
      · rintro (_ | ⟨x, xs⟩) rfl
        · exact hd rfl
        · rw [Rlp.encodeList_cons, length_append] at hnN
          simp [sizeAsEncoded_encode (x := x) (by omega)] at hs
    | ok m =>
      obtain ⟨k, p, r, rfl, hp, rfl⟩ := (sizeAsEncoded_eq_ok hd).mp hs
      rw [length_append] at hnN hfuel
      have hpos := Rlp.length_frame_pos k p
      have hhead : ∀ x xs, encodeList (x :: xs) = frame k p ++ r →
          encode x = frame k p ∧ encodeList xs = r := by
        intro x xs hx
        have hlen := congrArg List.length hx
        rw [Rlp.encodeList_cons, length_append, length_append] at hlen
        rw [Rlp.encodeList_cons, Rlp.encode_eq_frame] at hx
        have hmax : maxLength < 2 ^ 64 := by norm_num [maxLength]
        have hx64 := length_payload_lt (x := x) (by omega)
        obtain ⟨hk, hpp, hrr⟩ := Rlp.frame_append_inj (by omega) (by omega) hx
        exact ⟨by rw [Rlp.encode_eq_frame, hk, hpp], hrr⟩
      rw [readItems_frame hs hmem]
      rcases htree fuel a (frame k p) (by omega) (Rlp.frame_ne_nil k p) (by omega) hmem.left
        with ⟨x, hx, hxe⟩ | ⟨e, he, hno⟩
      · rw [hx]
        rcases ih r.length (by simp [hpos]) (by omega) fuel (a + (frame k p).length) r rfl
          (by omega) hmem.right with ⟨xs, hxs, hxse⟩ | ⟨e, he, hno⟩
        · refine Or.inl ⟨x :: xs, ?_, by rw [Rlp.encodeList_cons, hxe, hxse]⟩
          simp [Except.bind, Except.map, hxs]
        · refine Or.inr ⟨e, by simp [Except.bind, Except.map, he], ?_⟩
          rintro (_ | ⟨y, ys⟩) hy
          · exact hd (by simpa using hy.symm)
          · exact hno ys (hhead y ys hy).2
      · refine Or.inr ⟨e, by simp [Except.bind, he], ?_⟩
        rintro (_ | ⟨y, ys⟩) hy
        · exact hd (by simpa using hy.symm)
        · exact hno y (hhead y ys hy).1

/-- Reading data. -/
private lemma traverse_data {fuel a : ℕ} {p : Bytes} (hp : p.length < maxLength)
    (hok : ofBytes (frame .data p) VeryStrict = .ok (frame .data p))
    (hmem : Holds mem a (frame .data p)) :
    traverse mem (fuel + 1) (refTo a (frame .data p)) = .ok (.data p) := by
  rw [traverse, hmem.bytes_refTo, hok]
  simp [Except.mapError, bind, Except.bind, isList_whole hp, toBytes_whole hp, pure, Except.pure]

/-- Reading a list is reading its items. -/
private lemma traverse_list {fuel a : ℕ} {p : Bytes} (hp : p.length < maxLength)
    (hok : ofBytes (frame .list p) VeryStrict = .ok (frame .list p))
    (hmem : Holds mem a (frame .list p)) :
    traverse mem (fuel + 1) (refTo a (frame .list p)) =
      (readItems mem fuel (a + (header .list p.length).length) p).map .list := by
  have hkind := isList_whole (k := .list) hp
  have hend : a + (frame .list p).length =
      a + (header .list p.length).length + p.length := by
    rw [frame_list, length_append, Nat.add_assoc]
  have hbegin := beginIterator_eq (t := []) hp (by rwa [append_nil])
  rw [append_nil] at hbegin
  rw [traverse, hmem.bytes_refTo, hok, readItems]
  simp only [Except.mapError, bind, Except.bind, hkind, decide_true, if_true, hbegin,
    endIterator_eq, hend]
  cases iteratorAt (a + (header .list p.length).length) p with
  | error e => rfl
  | ok it =>
    dsimp only
    cases traverseItems mem fuel it
      ⟨0, refTo (a + (header .list p.length).length + p.length) []⟩ <;> rfl

/-- **Reading an object.** With fuel for twice its bytes, a non-empty object is either read as
the tree whose encoding it is, or there is an exception and it is no encoding.

**Proof sketch.** Induction on a bound for the size. The constructor accepts exactly the
frames. Data is read by `toBytes`; a list by the range loop over its payload, which is
shorter, so that `decides_readItems` applies. -/
theorem traverse_spec {N : ℕ} (hN : N ≤ maxLength) :
    ∀ fuel a d, d.length ≤ N → d ≠ [] → 2 * d.length ≤ fuel → Holds mem a d →
      Decides encode d (traverse mem fuel (refTo a d)) := by
  induction N with
  | zero => exact fun fuel a d hle hd => absurd (List.length_eq_zero_iff.mp (by omega)) hd
  | succ N ih =>
    rintro (_ | fuel) a d hle hd hfuel hmem
    · have := List.length_pos_iff.mpr hd
      omega
    rcases ofBytes_veryStrict_cases hd with ⟨k, p, rfl, hp, hok⟩ | ⟨e, he, hno⟩
    · cases k with
      | data => exact Or.inl ⟨.data p, traverse_data hp hok hmem, Rlp.encode_data p⟩
      | list =>
        have hlt : p.length < (frame .list p).length := by
          rw [frame_list, length_append]
          exact Nat.lt_add_of_pos_left (List.length_pos_iff.mpr (Rlp.header_ne_nil _ _))
        rw [traverse_list hp hok hmem]
        rw [frame_list] at hmem
        rcases decides_readItems (by omega) (ih (by omega)) p.length (by omega) fuel _ p rfl
          (by omega) hmem.right with ⟨xs, hxs, hxse⟩ | ⟨e, he, hno⟩
        · exact Or.inl ⟨.list xs, by rw [hxs]; rfl, by rw [Rlp.encode_list, hxse]⟩
        · refine Or.inr ⟨e, by rw [he]; rfl, fun t ht => ?_⟩
          have hmax : maxLength < 2 ^ 64 := by norm_num [maxLength]
          have htp := length_payload_lt (x := t) (by rw [ht]; omega)
          rw [Rlp.encode_eq_frame] at ht
          obtain ⟨hk, hpl, -⟩ := Rlp.frame_append_inj (r := []) (htp.trans hmax) (hp.trans hmax)
            (congrArg (· ++ []) ht)
          cases t with
          | data b => cases hk
          | list xs => exact hno xs hpl
    · refine Or.inr ⟨e, ?_, fun t ht => ?_⟩
      · rw [traverse, hmem.bytes_refTo, he]
        rfl
      · refine hno t.kind t.payload (length_payload_lt ?_) ?_
        · rw [ht]
          omega
        · rw [← ht, Rlp.encode_eq_frame]

/-- **The reader accepts exactly the canonical encodings.** Reading a non-empty byte string
completely comes to an end; it ends without an exception exactly when the byte string is the
textbook encoding of a tree, and then it gives that tree. So no two byte strings are read as
the same tree. -/
theorem traverse_eq_ok_iff_encode (b : Bytes) (hb : b ≠ []) (hlen : b.length < 2 ^ 64 - 0x100) :
    ∀ fuel ≥ 2 * b.length,
      traverse b fuel (.ofBuffer b) ≠ .error .outOfFuel ∧
      (∀ t, traverse b fuel (.ofBuffer b) = .ok t ↔ encode t = b) ∧
      ∀ b' t fuel', b' ≠ [] → b'.length < 2 ^ 64 - 0x100 → fuel' ≥ 2 * b'.length →
        traverse b fuel (.ofBuffer b) = .ok t → traverse b' fuel' (.ofBuffer b') = .ok t →
        b = b' := by
  have key : ∀ (b : Bytes) (fuel : ℕ), b ≠ [] → b.length < 2 ^ 64 - 0x100 → fuel ≥ 2 * b.length →
      Decides encode b (traverse b fuel (.ofBuffer b)) := by
    intro b fuel hb hlen hfuel
    exact traverse_spec (N := b.length) (by norm_num [maxLength]; omega) fuel 0 b le_rfl hb hfuel
      ⟨[], by simp⟩
  have sound : ∀ (b : Bytes) (fuel : ℕ) (t : Item), b ≠ [] → b.length < 2 ^ 64 - 0x100 →
      fuel ≥ 2 * b.length → traverse b fuel (.ofBuffer b) = .ok t → encode t = b := by
    intro b fuel t hb hlen hfuel h
    rcases key b fuel hb hlen hfuel with ⟨t', ht', he⟩ | ⟨e, he, -⟩
    · rw [h, Except.ok.injEq] at ht'
      rw [ht', he]
    · simp [h] at he
  intro fuel hfuel
  refine ⟨?_, fun t => ⟨sound b fuel t hb hlen hfuel, fun he => ?_⟩, ?_⟩
  · rcases key b fuel hb hlen hfuel with ⟨t, ht, -⟩ | ⟨e, he, -⟩
    · simp [ht]
    · simp [he]
  · rcases key b fuel hb hlen hfuel with ⟨t', ht', he'⟩ | ⟨e, -, hno⟩
    · rw [ht', Rlp.encode_injective_of_lt (by rw [he]; omega) (by rw [he']; omega)
        (he.trans he'.symm)]
    · exact absurd he (hno t)
  · intro b' t fuel' hb' hlen' hfuel' h h'
    rw [← sound b fuel t hb hlen hfuel h, sound b' fuel' t hb' hlen' hfuel' h']

/-- A list of a single byte, an empty list and a byte string is read back. -/
theorem traverse_eq_ok_iff_encode_nested :
    traverse [0xc5, 0x01, 0xc0, 0x82, 0x80, 0x00] 12
      (.ofBuffer [0xc5, 0x01, 0xc0, 0x82, 0x80, 0x00]) =
      .ok (.list [.data [1], .list [], .data [0x80, 0]]) :=
  ((traverse_eq_ok_iff_encode [0xc5, 0x01, 0xc0, 0x82, 0x80, 0x00] (by decide) (by decide) 12
    (by decide)).2.1 _).mpr (by decide +kernel)

end RLP

end Tos
