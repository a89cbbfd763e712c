import Tos.Foundation.Rlp

/-!
# The RLP writer

The class `RLPStream` of `toscore/utils/RLP.h` and `RLP.cpp`: a byte buffer together with a
stack of the lists that have been opened by `appendList(size_t)` and still wait for items.
A list is closed by `noteAppended`, which shifts the bytes written since it was opened to
make room for the header and then counts the list as one item of the list around it.

`size_t` values are lengths and positions of buffers in memory and are kept as natural
numbers; the places where a length has to fit a header are the ones that can throw.

## Main results

* `storeBack_eq`: the loop that writes an integer from its last byte backwards.
* `closeList_eq`: closing a list puts the textbook header in front of its items.
* `RLPStream.append_eq`, `appendListOf_eq`, `appendRaw_eq`, `appendInt_eq`: every
  operation adds textbook frames to the buffer and reports the items to `noteAppended`.
-/

namespace Tos

open BigEndian (bytes bytes_of_lt bytes_of_pos bytes_zero value value_bytes)
open Rlp (Kind frame header)
open List

/-- The byte strings of the source (`bytes`, `std::string` used as a byte buffer). -/
abbrev Bytes := List UInt8

/-- The exceptions thrown by `RLP` and `RLPStream`, with their `errinfo_comment` (empty where
the source gives none). -/
inductive RlpError where
  | badRLP
  | undersizeRLP (comment : String)
  | oversizeRLP (comment : String)
  | badCast
  | rlpException (comment : String)
  deriving DecidableEq, Repr

/-- After a result comes the rest of the computation. -/
@[simp] lemma ok_bind {ε α β : Type} (a : α) (f : α → Except ε β) : (.ok a >>= f) = f a := rfl

/-- After an exception comes nothing. -/
@[simp] lemma error_bind {ε α β : Type} (e : ε) (f : α → Except ε β) :
    (.error e >>= f) = .error e := rfl

/-- To return is to have a result. -/
@[simp] lemma pure_eq_ok {ε α : Type} (a : α) : (pure a : Except ε α) = .ok a := rfl

/-- What two computations one after the other have done when they return. -/
lemma RLP.bind_eq_ok_iff {ε α β : Type} {x : Except ε α} {f : α → Except ε β} {b : β} :
    x >>= f = .ok b ↔ ∃ a, x = .ok a ∧ f a = .ok b := by
  cases x <;> simp

def c_rlpMaxLengthBytes : ℕ := 8
def c_rlpDataImmLenStart : ℕ := 0x80
def c_rlpListStart : ℕ := 0xc0
def c_rlpDataImmLenCount : ℕ := c_rlpListStart - c_rlpDataImmLenStart - c_rlpMaxLengthBytes
def c_rlpDataIndLenZero : ℕ := c_rlpDataImmLenStart + c_rlpDataImmLenCount - 1
def c_rlpListImmLenCount : ℕ := 256 - c_rlpListStart - c_rlpMaxLengthBytes
def c_rlpListIndLenZero : ℕ := c_rlpListStart + c_rlpListImmLenCount - 1

/-- `bytesRequired`: the number of bytes it takes to shift `i` down to zero. -/
def bytesRequired (i : ℕ) : ℕ := if i = 0 then 0 else bytesRequired (i / 256) + 1
decreasing_by exact Nat.div_lt_self (by omega) (by norm_num)

/-- The loop `for (; i; i >>= 8) *(b--) = (byte)i`: store `i` in the buffer from position `b`
backwards. -/
def storeBack (out : Bytes) (b i : ℕ) : Bytes :=
  if i = 0 then out else storeBack (out.set b (UInt8.ofNat i)) (b - 1) (i / 256)
termination_by i
decreasing_by exact Nat.div_lt_self (by omega) (by norm_num)

/-- `memmove` inside one buffer: `n` bytes from `src` to `dst`. -/
def memmove (buf : Bytes) (dst src n : ℕ) : Bytes :=
  buf.take dst ++ (buf.drop src).take n ++ buf.drop (dst + n)

/-- A stream being written: the output so far and the open lists, each with the number of
items it still waits for and the position of its first item. -/
structure RLPStream where
  m_out : Bytes := []
  m_listStack : List (ℕ × ℕ) := []
  deriving DecidableEq, Repr

/-- The body of `noteAppended` that closes the list starting at `p`: make room for the header
in front of the items and write it there. -/
def closeList (out : Bytes) (p : ℕ) : Except RlpError Bytes :=
  let s := out.length - p
  let brs := bytesRequired s
  let encodeSize := if s < c_rlpListImmLenCount then 1 else 1 + brs
  let os := out.length
  let out := memmove (out ++ List.replicate encodeSize 0) (p + encodeSize) p (os - p)
  if s < c_rlpListImmLenCount then
    .ok (out.set p (UInt8.ofNat (c_rlpListStart + s)))
  else if c_rlpListIndLenZero + brs ≤ 0xff then
    .ok (storeBack (out.set p (UInt8.ofNat (c_rlpListIndLenZero + brs))) (p + brs) s)
  else
    .error (.rlpException "itemCount too large for RLP")

/-- The loop of `noteAppended` over the open lists. A list that becomes complete is closed
and counts as one item of the next one. -/
def noteAppendedLoop (out : Bytes) : List (ℕ × ℕ) → ℕ → Except RlpError RLPStream
  | [], _ => .ok ⟨out, []⟩
  | (first, p) :: stack, itemCount =>
    if first < itemCount then .error (.rlpException "itemCount too large")
    else if first - itemCount ≠ 0 then .ok ⟨out, (first - itemCount, p) :: stack⟩
    else (closeList out p).bind fun out => noteAppendedLoop out stack 1

namespace RLPStream

/-- Bytes put at the end of the buffer. -/
def push (s : RLPStream) (bytes : Bytes) : RLPStream := { s with m_out := s.m_out ++ bytes }

/-- `RLPStream::noteAppended`. -/
def noteAppended (s : RLPStream) (itemCount : ℕ) : Except RlpError RLPStream :=
  if itemCount = 0 then .ok s else noteAppendedLoop s.m_out s.m_listStack itemCount

/-- `RLPStream::appendRaw`. -/
def appendRaw (s : RLPStream) (rlp : Bytes) (itemCount : ℕ) : Except RlpError RLPStream :=
  (s.push rlp).noteAppended itemCount

/-- `RLPStream::pushInt`: make room for `br` bytes and fill it from the back. -/
def pushInt (s : RLPStream) (i br : ℕ) : RLPStream :=
  let out := s.m_out ++ List.replicate br 0
  { s with m_out := storeBack out (out.length - 1) i }

/-- `RLPStream::pushCount`. -/
def pushCount (s : RLPStream) (count base : ℕ) : Except RlpError RLPStream :=
  let br := bytesRequired count
  if br + base > 0xff then .error (.rlpException "Count too large for RLP")
  else .ok ((s.push [UInt8.ofNat (br + base)]).pushInt count br)

/-- `RLPStream::append(bytesConstRef, bool)`: a byte string, with its leading zeros dropped
when `compact` is set. -/
def append (s : RLPStream) (bytes : Bytes) (compact : Bool := false) :
    Except RlpError RLPStream := do
  let d := if compact then bytes.dropWhile (· = 0) else bytes
  if d.length = 1 ∧ (d.getD 0 0).toNat < c_rlpDataImmLenStart then
    (s.push [d.getD 0 0]).noteAppended 1
  else
    let s ← if d.length < c_rlpDataImmLenCount then
        .ok (s.push [UInt8.ofNat (d.length + c_rlpDataImmLenStart)])
      else s.pushCount d.length c_rlpDataIndLenZero
    let s ← s.appendRaw d 0
    s.noteAppended 1

/-- `RLPStream::append(bigint)`, for the non-negative integers the callers pass. -/
def appendInt (s : RLPStream) (i : ℕ) : Except RlpError RLPStream := do
  if i = 0 then
    (s.push [UInt8.ofNat c_rlpDataImmLenStart]).noteAppended 1
  else if i < c_rlpDataImmLenStart then
    (s.push [UInt8.ofNat i]).noteAppended 1
  else
    let br := bytesRequired i
    let s ← if br < c_rlpDataImmLenCount then
        .ok (s.push [UInt8.ofNat (br + c_rlpDataImmLenStart)])
      else
        let brbr := bytesRequired br
        if c_rlpDataIndLenZero + brbr > 0xff then
          .error (.rlpException "Number too large for RLP")
        else
          .ok ((s.push [UInt8.ofNat (c_rlpDataIndLenZero + brbr)]).pushInt br brbr)
    (s.pushInt i br).noteAppended 1

/-- `RLPStream::appendList(bytesConstRef)`: a list whose items have been encoded already. -/
def appendListOf (s : RLPStream) (rlp : Bytes) : Except RlpError RLPStream := do
  let s ← if rlp.length < c_rlpListImmLenCount then
      .ok (s.push [UInt8.ofNat (rlp.length + c_rlpListStart)])
    else s.pushCount rlp.length c_rlpListIndLenZero
  s.appendRaw rlp 1

/-- `RLPStream::appendList(size_t)`: open a list of `items` items. -/
def appendList (s : RLPStream) (items : ℕ) : Except RlpError RLPStream :=
  if items ≠ 0 then .ok { s with m_listStack := (items, s.m_out.length) :: s.m_listStack }
  else s.appendListOf []

/-- `RLPStream::out`: the bytes written, once every list is complete. -/
def out (s : RLPStream) : Except RlpError Bytes :=
  if s.m_listStack ≠ [] then .error (.rlpException "listStack is not empty") else .ok s.m_out

@[simp] lemma push_m_out (s : RLPStream) (b : Bytes) : (s.push b).m_out = s.m_out ++ b := rfl

@[simp] lemma push_m_listStack (s : RLPStream) (b : Bytes) :
    (s.push b).m_listStack = s.m_listStack := rfl

@[simp] lemma push_push (s : RLPStream) (b c : Bytes) : (s.push b).push c = s.push (b ++ c) := by
  simp [push]

@[simp] lemma push_nil (s : RLPStream) : s.push [] = s := by simp [push]

@[simp] lemma noteAppended_zero (s : RLPStream) : s.noteAppended 0 = .ok s := rfl

end RLPStream

/-! ### The constants, as numbers -/

@[simp] lemma c_rlpMaxLengthBytes_eq : c_rlpMaxLengthBytes = 8 := rfl
@[simp] lemma c_rlpDataImmLenStart_eq : c_rlpDataImmLenStart = 0x80 := rfl
@[simp] lemma c_rlpListStart_eq : c_rlpListStart = 0xc0 := rfl
@[simp] lemma c_rlpDataImmLenCount_eq : c_rlpDataImmLenCount = 56 := rfl
@[simp] lemma c_rlpDataIndLenZero_eq : c_rlpDataIndLenZero = 0xb7 := rfl
@[simp] lemma c_rlpListImmLenCount_eq : c_rlpListImmLenCount = 56 := rfl
@[simp] lemma c_rlpListIndLenZero_eq : c_rlpListIndLenZero = 0xf7 := rfl

/-! ### Integers -/

/-- `bytesRequired` counts the bytes of the shortest big-endian form. -/
@[simp] theorem bytesRequired_eq (i : ℕ) : bytesRequired i = (bytes i).length := by
  induction i using Nat.strong_induction_on with
  | _ i ih =>
    rw [bytesRequired]
    split_ifs with h
    · simp [h]
    · rw [ih _ (Nat.div_lt_self (by omega) (by norm_num)),
        bytes_of_pos (n := i) (by omega)]
      simp

/-- Storing backwards over a gap of the right size fills it with the big-endian form.

**Proof sketch.** Strong induction on `i`. The last byte of the gap receives the last byte
of `i`; what is left of the gap has the size of `i / 256`, and the byte just written joins
the bytes behind the gap. -/
theorem storeBack_eq (pre : Bytes) :
    ∀ (i : ℕ) (gap post : Bytes), gap.length = (bytes i).length →
      storeBack (pre ++ gap ++ post) (pre.length + gap.length - 1) i =
        pre ++ bytes i ++ post := by
  intro i
  induction i using Nat.strong_induction_on with
  | _ i ih =>
    intro gap post hgap
    rw [storeBack]
    split_ifs with h
    · have : gap = [] := by simpa [h] using hgap
      simp [h, this]
    · have hpos : 0 < i := by omega
      rw [bytes_of_pos hpos] at hgap ⊢
      obtain ⟨gap', x, rfl⟩ : ∃ gap' x, gap = gap' ++ [x] := by
        refine ⟨gap.dropLast, gap.getLast ?_, (dropLast_append_getLast _).symm⟩
        rintro rfl
        simp at hgap
      simp only [length_append, length_singleton, Nat.add_right_cancel_iff] at hgap
      have hset : (pre ++ (gap' ++ [x]) ++ post).set
          (pre.length + (gap' ++ [x]).length - 1) (UInt8.ofNat i) =
          pre ++ gap' ++ (UInt8.ofNat i :: post) := by
        have e : pre ++ (gap' ++ [x]) ++ post = (pre ++ gap') ++ (x :: post) := by simp
        rw [e, set_append_right _ _ (by simp)]
        simp
      have hidx : pre.length + (gap' ++ [x]).length - 1 - 1 =
          pre.length + gap'.length - 1 := by
        simp only [length_append, length_singleton]
        omega
      rw [hset, hidx, ih (i / 256) (Nat.div_lt_self hpos (by norm_num)) gap' _ hgap]
      simp

namespace RLPStream

/-- `pushInt` with the right number of bytes appends the big-endian form. -/
lemma pushInt_eq (s : RLPStream) (i : ℕ) : s.pushInt i (bytes i).length = s.push (bytes i) := by
  have h := storeBack_eq s.m_out i (List.replicate (bytes i).length 0) [] (by simp)
  simp only [append_nil] at h
  simp only [pushInt, push, length_append, h]

/-- `pushCount` appends a long header. -/
lemma pushCount_eq (s : RLPStream) {k : Kind} {n : ℕ} (h56 : 56 ≤ n) (h : n < 2 ^ 64) :
    s.pushCount n k.long = .ok (s.push (header k n)) := by
  have hL := Rlp.length_bytes_bounds (n := n) (by omega) h
  have hfit : ¬ (bytes n).length + k.long > 0xff := by
    cases k <;> simp only [Kind.long] <;> omega
  simp only [pushCount, bytesRequired_eq]
  rw [if_neg hfit, pushInt_eq, push_push]
  simp [header, Nat.not_lt.mpr h56, Nat.add_comm]

/-! ### Each operation adds frames -/

/-- Appending a byte string adds its frame and counts one item. -/
theorem append_eq (s : RLPStream) {d : Bytes} (hd : d.length < 2 ^ 64) :
    s.append d = (s.push (frame .data d)).noteAppended 1 := by
  simp only [append, Bool.false_eq_true, if_false, appendRaw, noteAppended_zero,
    c_rlpDataImmLenStart_eq, c_rlpDataImmLenCount_eq, c_rlpDataIndLenZero_eq]
  rcases Rlp.frame_cases .data d with ⟨b, -, rfl, hb, e⟩ | ⟨hs, hl, e⟩ | ⟨hl, e⟩
  · rw [if_pos ⟨rfl, by simpa using hb⟩, e]
    simp
  · have hself : ¬(d.length = 1 ∧ (d.getD 0 0).toNat < 0x80) := by
      rintro ⟨h1, h2⟩
      obtain ⟨b, rfl⟩ := List.length_eq_one_iff.mp h1
      exact hs ⟨rfl, Rlp.selfCoded_iff.mpr ⟨b, rfl, by simpa using h2⟩⟩
    rw [if_neg hself, if_pos hl, e]
    simp [bind, Except.bind, Kind.short, Nat.add_comm]
  · have hself : ¬(d.length = 1 ∧ (d.getD 0 0).toNat < 0x80) := by omega
    have hlong := pushCount_eq s (k := .data) hl hd
    simp only [Kind.long] at hlong
    rw [if_neg hself, if_neg (Nat.not_lt.mpr hl), hlong, e]
    simp [bind, Except.bind, header, Nat.not_lt.mpr hl]

/-- Appending an integer adds the frame of its shortest big-endian form. -/
theorem appendInt_eq (s : RLPStream) {i : ℕ} (hi : (bytes i).length < 2 ^ 64) :
    s.appendInt i = (s.push (frame .data (bytes i))).noteAppended 1 := by
  simp only [appendInt, bytesRequired_eq, c_rlpDataImmLenStart_eq, c_rlpDataImmLenCount_eq,
    c_rlpDataIndLenZero_eq]
  by_cases h0 : i = 0
  · rw [if_pos h0, h0, bytes_zero, Rlp.frame_short (by simp [Rlp.selfCoded]) (by simp)]
    simp [Kind.short]
  rw [if_neg h0]
  by_cases h1 : i < 0x80
  · rw [if_pos h1, bytes_of_lt h0 (by omega), Rlp.frame_self]
    rw [UInt8.toNat_ofNat']
    omega
  rw [if_neg h1]
  have hns : ¬(Kind.data = .data ∧ Rlp.selfCoded (bytes i)) := by
    rintro ⟨-, h⟩
    obtain ⟨b, hb, hlt⟩ := Rlp.selfCoded_iff.mp h
    have hv := congrArg value hb
    simp only [value_bytes] at hv
    simp only [value, foldl_cons, foldl_nil] at hv
    omega
  by_cases hl : (bytes i).length < 56
  · rw [if_pos hl, Rlp.frame_short hns hl]
    simp [bind, Except.bind, pushInt_eq, Kind.short, Nat.add_comm]
  · have hL := Rlp.length_bytes_bounds (n := (bytes i).length) (by omega) hi
    rw [if_neg hl, if_neg (by omega), Rlp.frame_long (by omega)]
    simp [bind, Except.bind, pushInt_eq, Kind.long]

/-- Appending encoded items as a list adds the frame of the list and counts one item. -/
theorem appendListOf_eq (s : RLPStream) {p : Bytes} (hp : p.length < 2 ^ 64) :
    s.appendListOf p = (s.push (frame .list p)).noteAppended 1 := by
  rw [Rlp.frame_list]
  simp only [appendListOf, appendRaw]
  by_cases hl : p.length < c_rlpListImmLenCount
  · have hl' : p.length < 56 := hl
    rw [if_pos hl]
    simp [bind, Except.bind, header, hl', Kind.short, Nat.add_comm]
  · have hlong := pushCount_eq s (k := .list) (Nat.not_lt.mp hl) hp
    rw [if_neg hl, show c_rlpListIndLenZero = Kind.long .list from rfl, hlong]
    simp [bind, Except.bind]

lemma appendList_zero (s : RLPStream) :
    s.appendList 0 = (s.push (frame .list [])).noteAppended 1 := by
  rw [appendList, if_neg (by simp), appendListOf_eq s (by simp)]

lemma appendList_of_pos (s : RLPStream) {n : ℕ} (h : 0 < n) :
    s.appendList n = .ok { s with m_listStack := (n, s.m_out.length) :: s.m_listStack } := by
  rw [appendList, if_pos (by omega)]

end RLPStream

/-! ### Closing a list -/

/-- Opening a gap in the middle of the buffer. -/
private lemma memmove_gap (pre items : Bytes) (n : ℕ) :
    memmove (pre ++ items ++ List.replicate n 0) (pre.length + n) pre.length items.length =
      pre ++ (items ++ List.replicate n 0).take n ++ items := by
  have h1 : (pre ++ items ++ List.replicate n 0).take (pre.length + n) =
      pre ++ (items ++ List.replicate n 0).take n := by
    rw [append_assoc, take_length_add_append]
  have h2 : ((pre ++ items ++ List.replicate n 0).drop pre.length).take items.length = items := by
    simp
  have h3 : (pre ++ items ++ List.replicate n (0 : UInt8)).drop
      (pre.length + n + items.length) = [] := by
    apply drop_of_length_le
    simp only [length_append, length_replicate]
    omega
  rw [memmove, h1, h2, h3, append_nil]

/-- **Closing a list** puts the textbook header in front of its items.

**Proof sketch.** After the shift the buffer has a gap as long as the header between what
came before the list and the items. A short header fills it with one byte. A long one
starts with the byte that gives the size of the length, and the length is stored backwards
into the rest of the gap. -/
theorem closeList_eq (pre items : Bytes) (h : items.length < 2 ^ 64) :
    closeList (pre ++ items) pre.length = .ok (pre ++ frame .list items) := by
  have hlen : (pre ++ items).length - pre.length = items.length := by simp
  simp only [closeList, hlen, bytesRequired_eq, c_rlpListImmLenCount_eq, c_rlpListStart_eq,
    c_rlpListIndLenZero_eq]
  rw [memmove_gap, Rlp.frame_list]
  by_cases hs : items.length < 56
  · simp only [if_pos hs]
    obtain ⟨x, hx⟩ : ∃ x, (items ++ List.replicate 1 (0 : UInt8)).take 1 = [x] :=
      List.length_eq_one_iff.mp (by simp)
    rw [hx, append_assoc, set_append_right _ _ (le_refl _)]
    simp [header, hs, Kind.short]
  · have hs' : 56 ≤ items.length := Nat.not_lt.mp hs
    set be := bytes items.length with hbe
    have hL : 1 ≤ be.length ∧ be.length ≤ 8 := Rlp.length_bytes_bounds (by omega) h
    have hfit : 0xf7 + be.length ≤ 0xff := by omega
    simp only [if_neg hs, if_pos hfit]
    obtain ⟨x, gap, hgap⟩ : ∃ x gap,
        (items ++ List.replicate (1 + be.length) (0 : UInt8)).take (1 + be.length) = x :: gap := by
      refine exists_cons_of_length_pos ?_
      simp only [length_take, length_append, length_replicate]
      omega
    have hgl : gap.length = be.length := by
      have := congrArg List.length hgap
      simp only [length_take, length_append, length_replicate,
        length_cons] at this
      omega
    rw [hgap, append_assoc, set_append_right _ _ (le_refl _)]
    have hst := storeBack_eq (pre ++ [UInt8.ofNat (0xf7 + be.length)]) items.length gap items hgl
    have hidx : (pre ++ [UInt8.ofNat (0xf7 + be.length)]).length + gap.length - 1 =
        pre.length + be.length := by
      simp only [length_append, length_singleton]
      omega
    rw [hidx] at hst
    simp only [append_assoc, cons_append, nil_append] at hst
    simp only [Nat.sub_self, cons_append, set_cons_zero]
    rw [hst]
    simp [header, hs, Kind.long, ← hbe]

end Tos
