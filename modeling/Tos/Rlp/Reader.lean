import Tos.Rlp.Stream

/-!
# The RLP reader

The class `RLP` of `toscore/utils/RLP.h` and `RLP.cpp`. An `RLP` object is a reference into a
buffer; all its methods except the iterators depend only on the bytes it refers to, so they
are functions of these bytes here, with `[]` for the null reference. Reading is lazy: a
constructor looks at the outermost header only, and a malformed item inside a list is found
when it is reached.

## Main results

* `RLP.actualSize_frame`, `payload_frame` and others: what the methods give on a byte
  string that starts with a textbook frame.
* `RLP.exists_frame_of_actualSize`: a header that is accepted, and whose payload is
  there, is the header of a textbook frame.
-/

namespace Tos

open BigEndian (bytes bytes_value head?_bytes_ne_zero length_bytes_le_iff value value_bytes)
open Rlp.Kind (data long short)
open List

namespace RLP

/-! ### The flags -/

def AllowNonCanon : ℕ := 1
def ThrowOnFail : ℕ := 4
def FailIfTooBig : ℕ := 8
def FailIfTooSmall : ℕ := 16
def Strict : ℕ := ThrowOnFail ||| FailIfTooBig
def VeryStrict : ℕ := ThrowOnFail ||| FailIfTooBig ||| FailIfTooSmall
def LaissezFaire : ℕ := AllowNonCanon

/-- `_flags & flag` as a condition. -/
def has (flags flag : ℕ) : Bool := flags &&& flag != 0

/-! ### Reading a header -/

/-- `m_data[i]`, as a number. -/
def byteAt (d : Bytes) (i : ℕ) : ℕ := (d.getD i 0).toNat

def isNull (d : Bytes) : Bool := d.length == 0

def isData (d : Bytes) : Bool := !isNull d && byteAt d 0 < c_rlpListStart

def isList (d : Bytes) : Bool := !isNull d && byteAt d 0 ≥ c_rlpListStart

/-- `RLP::isEmpty`: the empty byte string or the empty list. -/
def isEmpty (d : Bytes) : Bool :=
  !isNull d && (byteAt d 0 == c_rlpDataImmLenStart || byteAt d 0 == c_rlpListStart)

def isSingleByte (d : Bytes) : Bool := !isNull d && byteAt d 0 < c_rlpDataImmLenStart

/-- `RLP::requireGood`: throws on a null item and on a single byte that should have stood
for itself. -/
def requireGood (d : Bytes) : Except RlpError Unit :=
  if isNull d then .error .badRLP
  else if byteAt d 0 ≠ c_rlpDataImmLenStart + 1 then .ok ()
  else if d.length < 2 then .error .badRLP
  else if byteAt d 1 < c_rlpDataImmLenStart then .error .badRLP
  else .ok ()

/-- `RLP::lengthSize`. -/
def lengthSize (d : Bytes) : ℕ :=
  if isData d ∧ byteAt d 0 > c_rlpDataIndLenZero then byteAt d 0 - c_rlpDataIndLenZero
  else if isList d ∧ byteAt d 0 > c_rlpListIndLenZero then byteAt d 0 - c_rlpListIndLenZero
  else 0

/-- `RLP::payloadOffset`. -/
def payloadOffset (d : Bytes) : ℕ := if isSingleByte d then 0 else 1 + lengthSize d

/-- The branches of `RLP::length` for a length of `lengthSize` bytes behind the first byte,
which must be at least `limit`. The branch for data and the one for lists make the same
checks in the same order. -/
def longLength (d : Bytes) (lengthSize limit : ℕ) : Except RlpError ℕ :=
  if d.length ≤ lengthSize then .error .badRLP
  else if d.length > 1 ∧ byteAt d 1 = 0 then .error .badRLP
  else if lengthSize > 8 then .error (.undersizeRLP "")
  else if byteAt d 1 = 0 then .error .badRLP
  else
    -- the loop `ret = (ret << 8) | m_data[i + 1]`; eight bytes fit in a `size_t`
    let ret := value ((d.drop 1).take lengthSize)
    if ret < limit then .error .badRLP
    else if ret ≥ 2 ^ 64 - 1 - 0x100 then .error (.undersizeRLP "")
    else .ok ret

/-- `RLP::length`: the size of the payload according to the header. -/
def length (d : Bytes) : Except RlpError ℕ := do
  if isNull d then return 0
  requireGood d
  let n := byteAt d 0
  if n < c_rlpDataImmLenStart then return 1
  else if n ≤ c_rlpDataIndLenZero then return n - c_rlpDataImmLenStart
  else if n < c_rlpListStart then
    longLength d (n - c_rlpDataIndLenZero)
      (c_rlpListStart - c_rlpDataImmLenStart - c_rlpMaxLengthBytes)
  else if n ≤ c_rlpListIndLenZero then return n - c_rlpListStart
  else longLength d (n - c_rlpListIndLenZero) (0x100 - c_rlpListStart - c_rlpMaxLengthBytes)

/-- `RLP::actualSize`: the size of the whole item according to the header. -/
def actualSize (d : Bytes) : Except RlpError ℕ :=
  if isNull d then .ok 0
  else if isSingleByte d then .ok 1
  else if isData d ∨ isList d then (length d).map (payloadOffset d + ·)
  else .ok 0

/-- `vector_ref::cropped(_begin, _count)`: empty when it goes out of bounds. -/
def cropped (d : Bytes) (begin count : ℕ) : Bytes :=
  if begin ≤ d.length ∧ count ≤ d.length ∧ begin + count ≤ d.length then
    (d.drop begin).take count
  else []

/-- `RLP::payload`. -/
def payload (d : Bytes) : Except RlpError Bytes := do
  let l ← length d
  if l > d.length then .error .badRLP
  return cropped d (payloadOffset d) l

/-- `constructRLPSizeErrorInfo`. -/
def constructRLPSizeErrorInfo (actualSize dataSize : ℕ) : String :=
  "Actual size: " ++ toString actualSize ++ ", data size: " ++ toString dataSize

/-- The constructor `RLP(bytesConstRef, Strictness)`: the bytes the object refers to. -/
def ofBytes (d : Bytes) (s : ℕ) : Except RlpError Bytes := do
  let m_data ←
    if has s FailIfTooBig then do
      let a ← actualSize d
      if a < d.length then
        if has s ThrowOnFail then
          .error (.oversizeRLP (constructRLPSizeErrorInfo a d.length))
        else .ok []
      else .ok d
    else .ok d
  if has s FailIfTooSmall then do
    let a ← actualSize m_data
    if a > d.length then
      if has s ThrowOnFail then
        .error (.undersizeRLP (constructRLPSizeErrorInfo a d.length))
      else .ok []
    else .ok m_data
  else .ok m_data

/-- `RLP::sizeAsEncoded`. -/
def sizeAsEncoded (d : Bytes) : Except RlpError ℕ := do
  actualSize (← ofBytes d (ThrowOnFail ||| FailIfTooSmall))

/-! ### Conversions -/

/-- `RLP::isInt`: data without a leading zero. -/
def isInt (d : Bytes) : Except RlpError Bool := do
  if isNull d then return false
  requireGood d
  let n := byteAt d 0
  if n < c_rlpDataImmLenStart then return n ≠ 0
  else if n = c_rlpDataImmLenStart then return true
  else if n ≤ c_rlpDataIndLenZero then
    if d.length ≤ 1 then .error .badRLP else return byteAt d 1 ≠ 0
  else if n < c_rlpListStart then
    if d.length ≤ 1 + n - c_rlpDataIndLenZero then .error .badRLP
    else return byteAt d (1 + n - c_rlpDataIndLenZero) ≠ 0
  else return false

/-- `RLP::toBytes`. The payload reaches as far as `length()` says whenever the object was
constructed with `FailIfTooSmall`, as all are. -/
def toBytes (d : Bytes) (flags : ℕ) : Except RlpError Bytes := do
  if !isData d then
    if has flags ThrowOnFail then .error .badCast else return []
  else
    let p ← payload d
    let l ← length d
    return p.take l

/-- `RLP::toInt<_T>` for an unsigned `_T` of `maxSize` bytes; a signed one of that size is the
same bits. -/
def toInt (maxSize : ℕ) (d : Bytes) (flags : ℕ) : Except RlpError ℕ := do
  requireGood d
  if (!(← isInt d) && !has flags AllowNonCanon) || isList d || isNull d then
    if has flags ThrowOnFail then .error .badCast else return 0
  else
    let p ← payload d
    if decide (p.length > maxSize) && has flags FailIfTooBig then
      if has flags ThrowOnFail then .error .badCast else return 0
    else return value p % 256 ^ maxSize

/-- `RLP::toPositiveInt64`. -/
def toPositiveInt64 (d : Bytes) (flags : ℕ) : Except RlpError ℕ := do
  let i ← toInt 8 d flags
  -- `i < 0` as an `int64_t`
  if has flags ThrowOnFail ∧ i ≥ 2 ^ 63 then .error .badCast else return i

/-- `RLP::toHash` for a `FixedHash` of `size` bytes: the payload, aligned right. -/
def toHash (size : ℕ) (d : Bytes) (flags : ℕ) : Except RlpError Bytes := do
  requireGood d
  let p ← payload d
  let l := p.length
  if !isData d || (decide (l > size) && has flags FailIfTooBig) ||
      (decide (l < size) && has flags FailIfTooSmall) then
    if has flags ThrowOnFail then .error .badCast else return List.replicate size 0
  else
    let s := min size l
    return List.replicate (size - s) 0 ++ p.take s

/-! ### Access by index -/

/-- The list-indexing cache of an `RLP` object. -/
structure Cache where
  m_lastIndex : ℕ := 2 ^ 64 - 1
  m_lastEnd : ℕ := 0
  m_lastItem : Bytes := []

/-- The loop of `operator[]`, for at most `n` more items. -/
def seek (d : Bytes) : ℕ → Cache → Except RlpError Cache
  | 0, c => .ok c
  | n + 1, c =>
    if c.m_lastItem.length = 0 then .ok c
    else do
      let rest := (← payload d).drop c.m_lastEnd
      let lastItem := cropped rest 0 (← sizeAsEncoded rest)
      seek d n ⟨c.m_lastIndex + 1, c.m_lastEnd + lastItem.length, lastItem⟩

/-- The first branch of `operator[]`: go back to the first item when the cache is beyond the
item that is asked for. -/
def restart (d : Bytes) (c : Cache) (i : ℕ) : Except RlpError Cache :=
  if i < c.m_lastIndex then do
    let lastEnd ← sizeAsEncoded (← payload d)
    return ⟨0, lastEnd, cropped (← payload d) 0 lastEnd⟩
  else .ok c

/-- `RLP::operator[]`, which moves the cache of the object to the item read. -/
def itemCached (d : Bytes) (c : Cache) (i : ℕ) : Except RlpError (Bytes × Cache) := do
  let c ← restart d c i
  let c ← seek d (i - c.m_lastIndex) c
  return (← ofBytes c.m_lastItem (ThrowOnFail ||| FailIfTooSmall), c)

/-- `RLP::operator[]` on an object that has not been indexed before. -/
def item (d : Bytes) (i : ℕ) : Except RlpError Bytes := do
  let (x, _) ← itemCached d {} i
  return x

/-! ### The form of an accepted header -/

@[simp] lemma isNull_nil : isNull [] = true := rfl
@[simp] lemma isNull_cons (b : UInt8) (t : Bytes) : isNull (b :: t) = false := rfl
@[simp] lemma byteAt_zero (b : UInt8) (t : Bytes) : byteAt (b :: t) 0 = b.toNat := rfl
@[simp] lemma byteAt_succ (b : UInt8) (t : Bytes) (i : ℕ) :
    byteAt (b :: t) (i + 1) = byteAt t i := rfl

/-- The sizes the reader accepts for a payload. -/
def maxLength : ℕ := 2 ^ 64 - 1 - 0x100

variable {b : UInt8} {t : Bytes} {n : ℕ}

/-- The long form of a length, when it is accepted: the bytes behind the first one are the
shortest big-endian form of the length. -/
lemma longLength_eq_ok {m limit n : ℕ} (hm : 0 < m) (h : longLength (b :: t) m limit = .ok n) :
    limit ≤ n ∧ n < maxLength ∧ ∃ r, t = bytes n ++ r ∧
      (bytes n).length = m := by
  simp only [longLength, List.length_cons, byteAt_succ, drop_succ_cons, drop_zero] at h
  split_ifs at h with h1 h2 h3 h4 h5 h6
  rw [Except.ok.injEq] at h
  have hlen : (t.take m).length = m := by
    rw [length_take]
    omega
  have hhead : (t.take m).head? ≠ some 0 := by
    cases t with
    | nil => simp at hlen; omega
    | cons x t =>
      obtain ⟨m, rfl⟩ := Nat.exists_eq_succ_of_ne_zero hm.ne'
      intro hx
      simp only [Nat.succ_eq_add_one, take_succ_cons, List.head?_cons,
        Option.some.injEq] at hx
      exact h4 (by simp [hx])
  have hbytes : bytes n = t.take m := by
    rw [← h, bytes_value hhead]
  refine ⟨by omega, by unfold maxLength; omega, t.drop m, ?_, by rw [hbytes, hlen]⟩
  rw [hbytes, take_append_drop]

/-- The long form of a length is accepted. -/
lemma longLength_bytes {n limit : ℕ} (b : UInt8) (r : Bytes) (h0 : 0 < n) (hlim : limit ≤ n)
    (hn : n < maxLength) : longLength (b :: (bytes n ++ r)) (bytes n).length limit = .ok n := by
  have hL := Rlp.length_bytes_bounds h0 (lt_of_lt_of_le hn (by norm_num [maxLength]))
  have hfirst : byteAt (bytes n ++ r) 0 ≠ 0 := by
    have hne := head?_bytes_ne_zero n
    cases hb : bytes n with
    | nil => simp [hb] at hL
    | cons x t =>
      rw [hb] at hne
      intro hx
      have hx0 : x = 0 := UInt8.toNat_inj.mp (by simpa using hx)
      exact hne (by simp [hx0])
  unfold maxLength at hn
  unfold longLength
  simp only [List.length_cons, length_append, byteAt_succ, drop_succ_cons,
    drop_zero, take_left', value_bytes]
  rw [if_neg (by omega), if_neg (by tauto), if_neg (by omega), if_neg hfirst, if_neg (by omega),
    if_neg (by omega)]

/-- `length` by the range of the first byte. -/
lemma length_cons (b : UInt8) (t : Bytes) :
    length (b :: t) = (requireGood (b :: t)).bind fun _ =>
      if b.toNat < 0x80 then .ok 1
      else if b.toNat ≤ 0xb7 then .ok (b.toNat - 0x80)
      else if b.toNat < 0xc0 then longLength (b :: t) (b.toNat - 0xb7) 56
      else if b.toNat ≤ 0xf7 then .ok (b.toNat - 0xc0)
      else longLength (b :: t) (b.toNat - 0xf7) 56 := rfl

/-- `isInt` by the range of the first byte. -/
lemma isInt_cons (b : UInt8) (t : Bytes) :
    isInt (b :: t) = (requireGood (b :: t)).bind fun _ =>
      if b.toNat < 0x80 then .ok (decide (b.toNat ≠ 0))
      else if b.toNat = 0x80 then .ok true
      else if b.toNat ≤ 0xb7 then
        if t.length + 1 ≤ 1 then .error .badRLP else .ok (decide (byteAt t 0 ≠ 0))
      else if b.toNat < 0xc0 then
        if t.length + 1 ≤ 1 + b.toNat - 0xb7 then .error .badRLP
        else .ok (decide (byteAt (b :: t) (1 + b.toNat - 0xb7) ≠ 0))
      else .ok false := by
  rfl

lemma payloadOffset_cons (b : UInt8) (t : Bytes) :
    payloadOffset (b :: t) =
      if b.toNat < 0x80 then 0
      else if b.toNat ≤ 0xb7 then 1
      else if b.toNat < 0xc0 then 1 + (b.toNat - 0xb7)
      else if b.toNat ≤ 0xf7 then 1
      else 1 + (b.toNat - 0xf7) := by
  change (if decide (b.toNat < 0x80) = true then 0 else 1 +
    if decide (b.toNat < 0xc0) = true ∧ b.toNat > 0xb7 then b.toNat - 0xb7
    else if decide (b.toNat ≥ 0xc0) = true ∧ b.toNat > 0xf7 then b.toNat - 0xf7 else 0) = _
  simp only [decide_eq_true_eq]
  split_ifs <;> omega

/-- What the first byte of a short header says. -/
private lemma read_short {k : Rlp.Kind}
    (hb : b.toNat = k.short + n) (hn : n < 56) (hgood : requireGood (b :: t) = .ok ()) :
    length (b :: t) = .ok n ∧ payloadOffset (b :: t) = 1 := by
  rw [length_cons, payloadOffset_cons, hgood, Except.bind]
  cases k with
  | data =>
    have hb : b.toNat = 0x80 + n := hb
    rw [if_neg (by omega), if_pos (by omega), if_neg (by omega), if_pos (by omega)]
    exact ⟨by rw [hb, Nat.add_sub_cancel_left], rfl⟩
  | list =>
    have hb : b.toNat = 0xc0 + n := hb
    rw [if_neg (by omega), if_neg (by omega), if_neg (by omega), if_pos (by omega),
      if_neg (by omega), if_neg (by omega), if_neg (by omega), if_pos (by omega)]
    exact ⟨by rw [hb, Nat.add_sub_cancel_left], rfl⟩

/-- What the first byte of a long header says. -/
private lemma read_long {k : Rlp.Kind} {m : ℕ}
    (hb : b.toNat = k.long + m) (hm : 1 ≤ m ∧ m ≤ 8) (hgood : requireGood (b :: t) = .ok ()) :
    length (b :: t) = longLength (b :: t) m 56 ∧ payloadOffset (b :: t) = 1 + m := by
  rw [length_cons, payloadOffset_cons, hgood, Except.bind]
  cases k with
  | data =>
    have hb : b.toNat = 0xb7 + m := hb
    rw [if_neg (by omega), if_neg (by omega), if_pos (by omega), if_neg (by omega),
      if_neg (by omega), if_pos (by omega), hb, Nat.add_sub_cancel_left]
    exact ⟨rfl, rfl⟩
  | list =>
    have hb : b.toNat = 0xf7 + m := hb
    rw [if_neg (by omega), if_neg (by omega), if_neg (by omega), if_neg (by omega),
      if_neg (by omega), if_neg (by omega), if_neg (by omega), if_neg (by omega), hb,
      Nat.add_sub_cancel_left]
    exact ⟨rfl, rfl⟩

/-- What `requireGood` excludes: a single byte below `0x80` behind a header. -/
lemma requireGood_cons (b : UInt8) (t : Bytes) :
    requireGood (b :: t) = .ok () ↔
      (b.toNat = 0x81 → ∃ c r, t = c :: r ∧ 0x80 ≤ c.toNat) := by
  simp only [requireGood, isNull_cons, byteAt_zero, c_rlpDataImmLenStart_eq]
  cases t with
  | nil => by_cases hb : b.toNat = 0x81 <;> simp [hb]
  | cons c t =>
    by_cases hb : b.toNat = 0x81
    · by_cases hc : c.toNat < 0x80 <;> simp [hb, hc]
      omega
    · simp [hb]

/-- A first byte, as the number it is. -/
private lemma ofNat_eq_of_toNat (h : b.toNat = n) : UInt8.ofNat n = b := by
  rw [← h, UInt8.ofNat_toNat]

/-- A short header in front of a payload that does not stand for itself. -/
private lemma frame_of_short {k : Rlp.Kind}
    (hb : b.toNat = k.short + n) (hn : n < 56) (ht : n ≤ t.length)
    (hk : ¬(k = .data ∧ Rlp.selfCoded (t.take n))) :
    b :: t = Rlp.frame k (t.take n) ++ t.drop n ∧ (t.take n).length = n := by
  have hlen : (t.take n).length = n := by simpa using ht
  rw [Rlp.frame_short hk (by omega), hlen, ofNat_eq_of_toNat hb]
  simp

/-- A long header in front of its payload. -/
private lemma frame_of_long {k : Rlp.Kind} {r : Bytes}
    (hb : b.toNat = k.long + (bytes n).length) (hn : 56 ≤ n) (hr : n ≤ r.length) :
    b :: (bytes n ++ r) = Rlp.frame k (r.take n) ++ r.drop n ∧
      (r.take n).length = n := by
  have hlen : (r.take n).length = n := by simpa using hr
  rw [Rlp.frame_long (by omega), hlen, ofNat_eq_of_toNat hb]
  simp

/-- **An accepted header is the header of a frame**, when its payload is there.

**Proof sketch.** The five ranges of the first byte. A byte below `0x80` is a frame. In the
short forms the payload is cut off behind the first byte; `requireGood` has excluded the one
payload that would have stood for itself. In the long forms `longLength_eq_ok` gives the
length in its shortest form, and the payload is cut off behind it. -/
theorem exists_frame_of_length {d : Bytes} (hd : d ≠ []) (h : length d = .ok n)
    (hle : payloadOffset d + n ≤ d.length) :
    ∃ k p r, d = Rlp.frame k p ++ r ∧ p.length = n ∧ n < maxLength := by
  obtain ⟨b, t, rfl⟩ := exists_cons_of_ne_nil hd
  have hb := b.toNat_lt
  rw [length_cons] at h
  rw [payloadOffset_cons, List.length_cons] at hle
  cases hgood : requireGood (b :: t) with
  | error e => simp [hgood, Except.bind] at h
  | ok u =>
    simp only [hgood, Except.bind] at h
    split_ifs at h hle with h1 h2 h3 h4
    · obtain rfl : 1 = n := by simpa using h
      exact ⟨.data, [b], t, by rw [Rlp.frame_self h1]; rfl, rfl, by norm_num [maxLength]⟩
    · have hn : b.toNat = short .data + n := by
        simp only [Except.ok.injEq] at h
        simp only [short]
        omega
      have hself : ¬(data = .data ∧ Rlp.selfCoded (t.take n)) := by
        rintro ⟨-, hs⟩
        obtain ⟨c, hc, hlt⟩ := Rlp.selfCoded_iff.mp hs
        have hn1 : n = 1 := by
          have := congrArg List.length hc
          simp only [length_take, length_singleton] at this
          omega
        obtain ⟨c', r, rfl, hge⟩ :=
          (requireGood_cons b t).mp hgood (by simp [hn, hn1, short])
        subst hn1
        simp only [take_succ_cons, take_zero, List.cons.injEq, and_true] at hc
        rw [hc] at hge
        omega
      simp only [short] at hn
      obtain ⟨he, hl⟩ := frame_of_short hn (by omega) (by omega) hself
      exact ⟨_, _, _, he, hl, by norm_num [maxLength]; omega⟩
    · obtain ⟨hlim, hmax, r, rfl, hm⟩ := longLength_eq_ok (by omega) h
      simp only [length_append] at hle
      obtain ⟨he, hl⟩ := frame_of_long (k := .data) (b := b) (r := r) (n := n)
        (by simp only [long]; omega) hlim (by omega)
      exact ⟨_, _, _, he, hl, hmax⟩
    · have hn : b.toNat = short .list + n := by
        simp only [Except.ok.injEq] at h
        simp only [short]
        omega
      obtain ⟨he, hl⟩ := frame_of_short (t := t) hn
        (by simp only [short] at hn; omega) (by omega) (by simp)
      exact ⟨_, _, _, he, hl, by simp only [short] at hn; norm_num [maxLength]; omega⟩
    · obtain ⟨hlim, hmax, r, rfl, hm⟩ := longLength_eq_ok (by omega) h
      simp only [length_append] at hle
      obtain ⟨he, hl⟩ := frame_of_long (k := .list) (b := b) (r := r) (n := n)
        (by simp only [long]; omega) hlim (by omega)
      exact ⟨_, _, _, he, hl, hmax⟩

/-- The size of a non-empty item is the size of its header and that of its payload. -/
lemma actualSize_eq {d : Bytes} (hd : d ≠ []) :
    actualSize d = (length d).map (payloadOffset d + ·) := by
  obtain ⟨b, t, rfl⟩ := exists_cons_of_ne_nil hd
  have hkind : isData (b :: t) ∨ isList (b :: t) := by
    change decide (b.toNat < 0xc0) = true ∨ decide (b.toNat ≥ 0xc0) = true
    simp only [decide_eq_true_eq]
    omega
  rw [actualSize, if_neg (by simp)]
  split_ifs with hs
  · have hb : b.toNat < 0x80 := of_decide_eq_true hs
    rw [payloadOffset, if_pos hs, length_cons, (requireGood_cons b t).mpr (by omega)]
    simp [Except.bind, Except.map, hb]
  · rfl

/-! ### Reading a frame -/

section Frame

variable {k : Rlp.Kind} {p : Bytes} (hp : p.length < maxLength) (r : Bytes)
include hp

/-- The first byte of a frame and what the header says. -/
private lemma frame_header :
    ∃ b t, Rlp.frame k p ++ r = b :: t ∧ (0xc0 ≤ b.toNat ↔ k = .list) ∧
      requireGood (b :: t) = .ok () ∧ length (b :: t) = .ok p.length ∧
      payloadOffset (b :: t) + p.length = (Rlp.frame k p).length ∧
      (b :: t).drop (payloadOffset (b :: t)) = p ++ r := by
  have hp64 : p.length < 2 ^ 64 := lt_of_lt_of_le hp (by norm_num [maxLength])
  rcases Rlp.frame_cases k p with ⟨b, rfl, rfl, hb, e⟩ | ⟨hs, hl, e⟩ | ⟨hl, e⟩
  · have hgood : requireGood (b :: r) = .ok () := (requireGood_cons b r).mpr (by omega)
    refine ⟨b, r, by rw [e]; rfl, by simp; omega, hgood, ?_, ?_, ?_⟩
    · rw [length_cons, hgood]
      simp [Except.bind, hb]
    · simp [payloadOffset_cons, hb, e]
    · simp [payloadOffset_cons, hb]
  · have hb := Rlp.toNat_short (k := k) hl
    have hgood : requireGood (UInt8.ofNat (k.short + p.length) :: (p ++ r)) = .ok () := by
      refine (requireGood_cons _ _).mpr fun h81 => ?_
      rw [hb] at h81
      cases k with
      | list => simp only [short] at h81; omega
      | data =>
        obtain ⟨c, rfl⟩ := length_eq_one_iff.mp
          (show p.length = 1 by simp only [short] at h81; omega)
        refine ⟨c, r, rfl, ?_⟩
        by_contra hlt
        exact hs ⟨rfl, Rlp.selfCoded_iff.mpr ⟨c, rfl, by omega⟩⟩
    obtain ⟨hlength, hoff⟩ := read_short hb hl hgood
    refine ⟨_, p ++ r, by rw [e]; rfl, ?_, hgood, hlength, ?_, by rw [hoff]; simp⟩
    · rw [hb]
      cases k <;> simp [short]
      omega
    · rw [hoff, e, List.length_cons]
      omega
  · have hL := Rlp.length_bytes_bounds (n := p.length) (by omega) hp64
    have hb := Rlp.toNat_long (k := k) hL.2
    have hgood : requireGood (UInt8.ofNat (k.long + (bytes p.length).length) ::
        (bytes p.length ++ (p ++ r))) = .ok () := by
      refine (requireGood_cons _ _).mpr fun h81 => ?_
      rw [hb] at h81
      cases k <;> simp only [long] at h81 <;> omega
    obtain ⟨hlength, hoff⟩ := read_long hb hL hgood
    rw [longLength_bytes _ _ (by omega) hl hp] at hlength
    refine ⟨_, bytes p.length ++ (p ++ r), by rw [e]; simp, ?_, hgood, hlength, ?_,
      by rw [hoff, Nat.add_comm]; simp⟩
    · rw [hb]
      cases k <;> simp [long] <;> omega
    · rw [hoff, e, List.length_cons, length_append]
      omega

@[simp] lemma isNull_frame : isNull (Rlp.frame k p ++ r) = false := by
  obtain ⟨b, t, e, -⟩ := frame_header (k := k) hp r
  rw [e, isNull_cons]

@[simp] lemma isList_frame : isList (Rlp.frame k p ++ r) = decide (k = .list) := by
  obtain ⟨b, t, e, hk, -⟩ := frame_header (k := k) hp r
  rw [e]
  exact decide_eq_decide.mpr hk

@[simp] lemma isData_frame : isData (Rlp.frame k p ++ r) = decide (k = .data) := by
  obtain ⟨b, t, e, hk, -⟩ := frame_header (k := k) hp r
  rw [e]
  refine decide_eq_decide.mpr (show b.toNat < 0xc0 ↔ _ from ?_)
  rw [← not_le, hk]
  cases k <;> simp

@[simp] lemma requireGood_frame : requireGood (Rlp.frame k p ++ r) = .ok () := by
  obtain ⟨b, t, e, -, hgood, -⟩ := frame_header (k := k) hp r
  rw [e, hgood]

@[simp] lemma length_frame : length (Rlp.frame k p ++ r) = .ok p.length := by
  obtain ⟨b, t, e, -, -, hlen, -⟩ := frame_header (k := k) hp r
  rw [e, hlen]

lemma payloadOffset_frame :
    payloadOffset (Rlp.frame k p ++ r) + p.length = (Rlp.frame k p).length := by
  obtain ⟨b, t, e, -, -, -, hoff, -⟩ := frame_header (k := k) hp r
  rw [e, hoff]

/-- The size of an item is the size of its frame. -/
@[simp] lemma actualSize_frame : actualSize (Rlp.frame k p ++ r) = .ok (Rlp.frame k p).length := by
  obtain ⟨b, t, e, -, -, hlen, hoff, -⟩ := frame_header (k := k) hp r
  rw [e, actualSize_eq (by simp), hlen]
  exact congrArg Except.ok hoff

/-- The payload read is the payload of the frame. -/
@[simp] lemma payload_frame : payload (Rlp.frame k p ++ r) = .ok p := by
  obtain ⟨b, t, e, -, -, hlen, hoff, hdrop⟩ := frame_header (k := k) hp r
  have hle : payloadOffset (b :: t) + p.length ≤ (b :: t).length := by
    rw [hoff, ← e, length_append]
    omega
  rw [e, payload, hlen]
  simp only [bind, Except.bind, pure, Except.pure]
  rw [if_neg (by omega), cropped, if_pos (by omega), hdrop, take_left' rfl]

/-- Data is read as the payload of its frame, whatever the flags. -/
lemma toBytes_frame (flags : ℕ) : toBytes (Rlp.frame .data p ++ r) flags = .ok p := by
  simp [toBytes, isData_frame hp, payload_frame hp, length_frame hp, bind, Except.bind, pure,
    Except.pure]

omit r in
/-- A frame is good with nothing behind it. -/
lemma requireGood_whole : requireGood (Rlp.frame k p) = .ok () := by
  simpa using requireGood_frame hp []

omit r in
/-- The payload of a frame with nothing behind it. -/
lemma payload_whole : payload (Rlp.frame k p) = .ok p := by simpa using payload_frame hp []

omit r in
/-- The kind of a frame with nothing behind it. -/
lemma isList_whole : isList (Rlp.frame k p) = decide (k = .list) := by
  simpa using isList_frame hp []

omit r in
/-- A frame with nothing behind it that is a list for the reader. -/
lemma isList_whole_iff : isList (Rlp.frame k p) = true ↔ k = .list := by
  rw [isList_whole hp, decide_eq_true_iff]

omit r in
/-- Whether a frame with nothing behind it is data. -/
lemma isData_whole : isData (Rlp.frame k p) = decide (k = .data) := by
  simpa using isData_frame hp []

omit r in
/-- Data with nothing behind it. -/
lemma toBytes_whole (flags : ℕ) : toBytes (Rlp.frame .data p) flags = .ok p := by
  simpa using toBytes_frame hp [] flags

/-- Data is an integer when it has no leading zero. -/
lemma isInt_frame : isInt (Rlp.frame .data p ++ r) = .ok (decide (p.head? ≠ some 0)) := by
  have hp64 : p.length < 2 ^ 64 := lt_of_lt_of_le hp (by norm_num [maxLength])
  have hgood := requireGood_frame (k := .data) hp r
  -- whether a byte is zero, as the source and as the statement ask it
  have hzero : ∀ c : UInt8, c.toNat = 0 ↔ c = 0 := fun c => by
    rw [← UInt8.toNat_inj]
    rfl
  rcases Rlp.frame_cases .data p with ⟨b, -, rfl, hb, e⟩ | ⟨-, hl, e⟩ | ⟨hl, e⟩
  · rw [e] at hgood ⊢
    rw [singleton_append, isInt_cons, ← singleton_append, hgood]
    simp [Except.bind, hb, hzero]
  · have hb := Rlp.toNat_short (k := .data) hl
    simp only [short] at hb e
    rw [e] at hgood ⊢
    rw [cons_append, isInt_cons, ← cons_append, hgood, hb]
    cases p with
    | nil => simp [Except.bind]
    | cons c q =>
      simp only [List.length_cons] at hl
      have hshort : 128 + (q.length + 1) ≤ 183 := by omega
      simp [Except.bind, hzero, hshort]
  · have hL := Rlp.length_bytes_bounds (n := p.length) (by omega) hp64
    have hb := Rlp.toNat_long (k := .data) hL.2
    simp only [long] at hb e
    obtain ⟨c, q, rfl⟩ := exists_cons_of_length_pos (show 0 < p.length by omega)
    rw [e] at hgood ⊢
    rw [cons_append, isInt_cons, ← cons_append, hgood, hb]
    have hpos : 1 + (183 + (bytes (c :: q).length).length) - 183 =
        (bytes (c :: q).length).length + 1 := by omega
    have h128 : ¬ 183 + (bytes (c :: q).length).length < 128 := by omega
    have h129 : ¬ 183 + (bytes (c :: q).length).length = 128 := by omega
    have h183 : ¬ 183 + (bytes (c :: q).length).length ≤ 183 := by omega
    have h192 : 183 + (bytes (c :: q).length).length < 192 := by omega
    simp only [Except.bind, h128, h129, h183, h192, hpos, if_true, if_false]
    rw [if_neg (by simp)]
    simp only [byteAt, cons_append, getD_cons_succ, append_assoc]
    simp [hzero]

/-- **Strict integers.** Data is read as an integer of `maxSize` bytes exactly when it is the
shortest byte string of its value and fits. -/
lemma toInt_frame_eq_ok {maxSize n : ℕ} :
    toInt maxSize (Rlp.frame .data p ++ r) Strict = .ok n ↔
      p = bytes n ∧ n < 256 ^ maxSize := by
  have hflags : has Strict AllowNonCanon = false ∧ has Strict ThrowOnFail = true ∧
      has Strict FailIfTooBig = true := by decide
  simp only [toInt, requireGood_frame hp, isInt_frame hp, payload_frame hp, isList_frame hp,
    isNull_frame hp, hflags, bind, Except.bind, pure, Except.pure]
  by_cases hhead : p.head? = some 0
  · have hne : p ≠ bytes n := by
      rintro rfl
      exact head?_bytes_ne_zero n hhead
    simp [hhead, hne]
  · have hbytes : p = bytes n ↔ value p = n :=
      ⟨fun h => by rw [h, value_bytes], fun h => by rw [← h, bytes_value hhead]⟩
    by_cases hlen : maxSize < p.length
    · have hbig : p = bytes n → ¬ n < 256 ^ maxSize := by
        rintro rfl
        rwa [← length_bytes_le_iff, not_le]
      simpa [hhead, hlen] using hbig
    · have hfit : value p < 256 ^ maxSize := by
        rw [← length_bytes_le_iff, bytes_value hhead]
        omega
      have hboth : value p = n ∧ n < 256 ^ maxSize ↔ value p = n :=
        ⟨fun h => h.1, fun h => ⟨h, h ▸ hfit⟩⟩
      simp [hhead, hlen, Nat.mod_eq_of_lt hfit, hbytes, hboth]

/-- **Strict hashes.** Data is read as a hash of `size` bytes exactly when it is not longer
than that, and is then aligned right. -/
lemma toHash_frame_eq_ok {size : ℕ} {x : Bytes} :
    toHash size (Rlp.frame .data p ++ r) Strict = .ok x ↔
      p.length ≤ size ∧ x = List.replicate (size - p.length) 0 ++ p := by
  have hflags : has Strict ThrowOnFail = true ∧ has Strict FailIfTooBig = true ∧
      has Strict FailIfTooSmall = false := by decide
  simp only [toHash, requireGood_frame hp, payload_frame hp, isData_frame hp, hflags, bind,
    Except.bind, pure, Except.pure]
  by_cases hlen : size < p.length
  · simp [hlen]
  · have hle : p.length ≤ size := by omega
    simp only [hlen, Nat.min_eq_right hle, take_length]
    simpa [hle] using eq_comm

end Frame

/-! ### The constructor -/

lemma ofBytes_veryStrict (d : Bytes) :
    ofBytes d VeryStrict = (actualSize d).bind fun a =>
      if a < d.length then .error (.oversizeRLP (constructRLPSizeErrorInfo a d.length))
      else if a > d.length then .error (.undersizeRLP (constructRLPSizeErrorInfo a d.length))
      else .ok d := by
  simp only [ofBytes, show has VeryStrict FailIfTooBig = true from rfl,
    show has VeryStrict FailIfTooSmall = true from rfl,
    show has VeryStrict ThrowOnFail = true from rfl, if_true, bind]
  cases h : actualSize d with
  | error e => rfl
  | ok a =>
    simp only [Except.bind]
    split_ifs <;> simp_all

lemma ofBytes_failIfTooSmall (d : Bytes) :
    ofBytes d (ThrowOnFail ||| FailIfTooSmall) = (actualSize d).bind fun a =>
      if a > d.length then .error (.undersizeRLP (constructRLPSizeErrorInfo a d.length))
      else .ok d := rfl

lemma sizeAsEncoded_eq (d : Bytes) :
    sizeAsEncoded d = (actualSize d).bind fun a =>
      if a > d.length then .error (.undersizeRLP (constructRLPSizeErrorInfo a d.length))
      else .ok a := by
  rw [sizeAsEncoded, ofBytes_failIfTooSmall]
  cases h : actualSize d with
  | error e => rfl
  | ok a =>
    simp only [bind, Except.bind]
    split_ifs <;> simp_all

/-- **What the reader cuts off.** The size of the first item in a non-empty byte string is
found exactly when the byte string starts with a textbook frame, and is its size. -/
theorem sizeAsEncoded_eq_ok {d : Bytes} (hd : d ≠ []) :
    sizeAsEncoded d = .ok n ↔
      ∃ k p r, d = Rlp.frame k p ++ r ∧ p.length < maxLength ∧ n = (Rlp.frame k p).length := by
  constructor
  · intro h
    rw [sizeAsEncoded_eq, actualSize_eq hd] at h
    cases hlen : length d with
    | error e => simp [hlen, Except.map, Except.bind] at h
    | ok l =>
      simp only [hlen, Except.map, Except.bind] at h
      split_ifs at h with hle
      obtain ⟨k, p, r, rfl, hp, hmax⟩ := exists_frame_of_length hd hlen (by omega)
      subst hp
      refine ⟨k, p, r, rfl, hmax, ?_⟩
      rw [Except.ok.injEq, payloadOffset_frame hmax] at h
      exact h.symm
  · rintro ⟨k, p, r, rfl, hp, rfl⟩
    rw [sizeAsEncoded_eq, actualSize_frame hp]
    simp [Except.bind]

@[simp] lemma sizeAsEncoded_nil : sizeAsEncoded [] = .ok 0 := rfl

lemma sizeAsEncoded_pos {d : Bytes} (hd : d ≠ []) (h : sizeAsEncoded d = .ok n) : 0 < n := by
  obtain ⟨k, p, r, -, -, rfl⟩ := (sizeAsEncoded_eq_ok hd).mp h
  exact Rlp.length_frame_pos k p

/-- **What the strict constructor accepts**: exactly the frames. -/
theorem ofBytes_veryStrict_cases {d : Bytes} (hd : d ≠ []) :
    (∃ k p, d = Rlp.frame k p ∧ p.length < maxLength ∧ ofBytes d VeryStrict = .ok d) ∨
    (∃ e, ofBytes d VeryStrict = .error e ∧ ∀ k p, p.length < maxLength → d ≠ Rlp.frame k p) := by
  rw [ofBytes_veryStrict]
  by_cases hframe : ∃ k p, d = Rlp.frame k p ∧ p.length < maxLength
  · obtain ⟨k, p, rfl, hp⟩ := hframe
    have hsize : actualSize (Rlp.frame k p) = .ok (Rlp.frame k p).length := by
      simpa using actualSize_frame (k := k) hp []
    exact Or.inl ⟨k, p, rfl, hp, by simp [hsize, Except.bind]⟩
  · have hno : ∀ k p, p.length < maxLength → d ≠ Rlp.frame k p :=
      fun k p hp e => hframe ⟨k, p, e, hp⟩
    cases ha : actualSize d with
    | error e => exact Or.inr ⟨e, rfl, hno⟩
    | ok a =>
      simp only [Except.bind]
      rcases Nat.lt_trichotomy a d.length with hlt | heq | hgt
      · exact Or.inr ⟨_, if_pos hlt, hno⟩
      · have hs : sizeAsEncoded d = .ok a := by simp [sizeAsEncoded_eq, ha, Except.bind, heq]
        obtain ⟨k, p, r, hr, hp, hlen⟩ := (sizeAsEncoded_eq_ok hd).mp hs
        have hr0 : r = [] := by
          have := congrArg List.length hr
          rw [length_append] at this
          exact length_eq_zero_iff.mp (by omega)
        exact absurd (by rw [hr, hr0, append_nil]) (hno k p hp)
      · exact Or.inr ⟨_, by rw [if_neg (by omega), if_pos hgt], hno⟩

lemma sizeAsEncoded_le {d : Bytes} (h : sizeAsEncoded d = .ok n) : n ≤ d.length := by
  rcases eq_or_ne d [] with rfl | hd
  · have : 0 = n := by simpa using h
    omega
  · obtain ⟨k, p, r, rfl, -, rfl⟩ := (sizeAsEncoded_eq_ok hd).mp h
    simp

/-! ### Counting the items of a list -/

/-- The loop of `RLP::items`: cut items off until nothing is left. Every item takes at least a
byte, so the length of the payload bounds the number of rounds. -/
def itemsLoop : ℕ → Bytes → Except RlpError ℕ
  | 0, _ => .ok 0
  | fuel + 1, d =>
    if d = [] then .ok 0
    else do
      let n ← sizeAsEncoded d
      return (← itemsLoop fuel (d.drop n)) + 1

/-- `RLP::items`. -/
def items (d : Bytes) : Except RlpError ℕ := do
  if isList d then
    let p ← payload d
    itemsLoop p.length p
  else return 0

/-- `RLP::itemCount`. -/
def itemCount (d : Bytes) : Except RlpError ℕ := if isList d then items d else .ok 0

/-! ### Reading a tree -/

open Rlp (Item encode encodeList)

/-- A tree whose encoding fits has a payload that fits: the header takes at least a byte, or
the payload is a single byte. -/
lemma length_payload_lt {x : Item} (h : (encode x).length ≤ maxLength) :
    x.payload.length < maxLength := by
  rw [Rlp.encode_eq_frame] at h
  rcases Rlp.frame_cases x.kind x.payload with ⟨b, -, hb, -, -⟩ | ⟨-, -, e⟩ | ⟨-, e⟩
  · rw [hb]
    norm_num [maxLength]
  · rw [e, List.length_cons] at h
    omega
  · rw [e, List.length_cons, length_append] at h
    omega

/-- The first item of the encoding of a sequence of trees is the first tree. -/
lemma sizeAsEncoded_encode {x : Item} (h : (encode x).length ≤ maxLength) (r : Bytes) :
    sizeAsEncoded (encode x ++ r) = .ok (encode x).length := by
  refine (sizeAsEncoded_eq_ok (by simp)).mpr ⟨x.kind, x.payload, r, ?_, length_payload_lt h, ?_⟩ <;>
    rw [Rlp.encode_eq_frame]

lemma itemsLoop_encodeList {xs : List Item} (h : (encodeList xs).length < maxLength) {fuel : ℕ}
    (hfuel : xs.length ≤ fuel) : itemsLoop fuel (encodeList xs) = .ok xs.length := by
  induction xs generalizing fuel with
  | nil => cases fuel <;> simp [itemsLoop]
  | cons x xs ih =>
    cases fuel with
    | zero => simp at hfuel
    | succ fuel =>
      rw [Rlp.encodeList_cons, length_append] at h
      have hx := sizeAsEncoded_encode (x := x) (by omega) (encodeList xs)
      rw [itemsLoop, if_neg (by simp), Rlp.encodeList_cons, hx]
      simp only [bind, Except.bind]
      rw [drop_left' rfl, ih (by omega) (by simpa using hfuel)]
      rfl

/-- The number of items of a list. -/
lemma items_encode {xs : List Item} (h : (encode (.list xs)).length ≤ maxLength) :
    items (encode (.list xs)) = .ok xs.length := by
  have hp : (encodeList xs).length < maxLength := length_payload_lt h
  rw [items, Rlp.encode_list, ← append_nil (Rlp.frame _ _), isList_frame hp,
    payload_frame hp]
  exact itemsLoop_encodeList hp (Rlp.length_le_length_encodeList xs)

/-- The encoding of the tree at the front of a sequence, if there is one. -/
def firstItem (xs : List Item) : Bytes := (xs.head?.map encode).getD []

@[simp] lemma firstItem_cons (x : Item) (xs : List Item) : firstItem (x :: xs) = encode x := rfl

lemma encodeList_take_one (xs : List Item) : encodeList (xs.take 1) = firstItem xs := by
  cases xs <;> simp [firstItem]

/-- Cutting the first item off the encoding of a sequence of trees. -/
lemma cut_encodeList {xs : List Item} (h : (encodeList xs).length < maxLength) :
    sizeAsEncoded (encodeList xs) = .ok (firstItem xs).length ∧
      cropped (encodeList xs) 0 (firstItem xs).length = firstItem xs := by
  cases xs with
  | nil => exact ⟨rfl, rfl⟩
  | cons x xs =>
    rw [Rlp.encodeList_cons, length_append] at h
    refine ⟨by simpa [firstItem] using sizeAsEncoded_encode (x := x) (by omega) _, ?_⟩
    simp [firstItem, cropped]

lemma ofBytes_firstItem {xs : List Item} (h : (encodeList xs).length < maxLength) :
    ofBytes (firstItem xs) (ThrowOnFail ||| FailIfTooSmall) = .ok (firstItem xs) := by
  cases xs with
  | nil => rfl
  | cons x xs =>
    rw [Rlp.encodeList_cons, length_append] at h
    have hp := length_payload_lt (x := x) (by omega)
    have hsize := actualSize_frame (k := x.kind) hp []
    rw [append_nil, ← Rlp.encode_eq_frame] at hsize
    rw [ofBytes_failIfTooSmall]
    simp [firstItem, hsize, Except.bind]

/-- The cache of a list after its item `j` has been reached. -/
def cacheAt (xs : List Item) (j : ℕ) : Cache :=
  ⟨j, (encodeList (xs.take (j + 1))).length, firstItem (xs.drop j)⟩

variable {i : ℕ}

section ListItem

variable {d : Bytes} {xs : List Item} (hd : payload d = .ok (encodeList xs))
  (h : (encodeList xs).length < maxLength)
include hd h

lemma restart_eq {c : Cache} (hi : i < c.m_lastIndex) : restart d c i = .ok (cacheAt xs 0) := by
  obtain ⟨h1, h2⟩ := cut_encodeList h
  rw [restart, if_pos hi]
  simp only [hd, bind, Except.bind, h1, h2, pure, Except.pure, cacheAt, drop_zero,
    Nat.zero_add, encodeList_take_one]

/-- Seeking stops at the item that is asked for, or behind the last one. -/
lemma seek_cacheAt (n : ℕ) {j : ℕ} (hj : j ≤ xs.length) :
    seek d n (cacheAt xs j) = .ok (cacheAt xs (min (j + n) xs.length)) := by
  induction n generalizing j with
  | zero => simp [seek, hj]
  | succ n ih =>
    rw [seek]
    rcases Nat.lt_or_ge j xs.length with hlt | hge
    · have hdrop : (encodeList xs).drop (cacheAt xs j).m_lastEnd =
          encodeList (xs.drop (j + 1)) := by
        conv_lhs => rw [← take_append_drop (j + 1) xs, Rlp.encodeList_append]
        exact drop_left' (by simp [cacheAt])
      have hlen : (encodeList (xs.drop (j + 1))).length < maxLength := by
        rw [← hdrop, length_drop]
        omega
      obtain ⟨h1, h2⟩ := cut_encodeList hlen
      have hnext : (⟨(cacheAt xs j).m_lastIndex + 1,
          (cacheAt xs j).m_lastEnd + (firstItem (xs.drop (j + 1))).length,
          firstItem (xs.drop (j + 1))⟩ : Cache) = cacheAt xs (j + 1) := by
        simp only [cacheAt, Cache.mk.injEq, and_true, true_and]
        rw [take_add (i := j + 1), Rlp.encodeList_append, encodeList_take_one,
          length_append]
      rw [if_neg (by simp [cacheAt, firstItem, hlt])]
      simp only [hd, bind, Except.bind, hdrop, h1, h2, hnext]
      rw [ih (by omega)]
      congr 2
      omega
    · have hstop : (cacheAt xs j).m_lastItem.length = 0 := by
        simp [cacheAt, firstItem, drop_of_length_le hge]
      rw [if_pos hstop]
      congr 2
      omega

/-- `operator[]` on a list: the item that is asked for, and the null item behind the last one;
the cache stays on an item of the list. -/
lemma itemCached_eq {c : Cache} (hi : i < 2 ^ 64 - 1)
    (hc : c = {} ∨ ∃ j ≤ xs.length, c = cacheAt xs j) :
    itemCached d c i = .ok (firstItem (xs.drop i), cacheAt xs (min i xs.length)) := by
  have hseek : ∀ j ≤ xs.length, j ≤ i → seek d (i - (cacheAt xs j).m_lastIndex) (cacheAt xs j) =
      .ok (cacheAt xs (min i xs.length)) := by
    intro j hj hji
    rw [seek_cacheAt hd h _ hj]
    congr 3
    simp only [cacheAt]
    omega
  have hdrop : xs.drop (min i xs.length) = xs.drop i := by
    rcases Nat.le_total i xs.length with hle | hle
    · rw [Nat.min_eq_left hle]
    · rw [Nat.min_eq_right hle, drop_length, drop_of_length_le hle]
  have hread : ofBytes (firstItem (xs.drop i)) (ThrowOnFail ||| FailIfTooSmall) =
      .ok (firstItem (xs.drop i)) := by
    have := congrArg List.length (congrArg encodeList (take_append_drop i xs))
    rw [Rlp.encodeList_append, length_append] at this
    exact ofBytes_firstItem (by omega)
  -- both after a restart and from the cached item, the loop starts at some `j ≤ i`
  have hstart : ∃ j ≤ xs.length, j ≤ i ∧ restart d c i = .ok (cacheAt xs j) := by
    rcases hc with rfl | ⟨j, hj, rfl⟩
    · exact ⟨0, by omega, by omega, restart_eq hd h hi⟩
    · by_cases hij : i < (cacheAt xs j).m_lastIndex
      · exact ⟨0, by omega, by omega, restart_eq hd h hij⟩
      · exact ⟨j, hj, Nat.not_lt.mp hij, by rw [restart, if_neg hij]⟩
  obtain ⟨j, hj, hji, hs⟩ := hstart
  simp only [itemCached, hs, bind, Except.bind, hseek j hj hji, pure, Except.pure]
  rw [show (cacheAt xs (min i xs.length)).m_lastItem = firstItem (xs.drop i) from
    congrArg firstItem hdrop, hread]

/-- `operator[]` on a list that has not been indexed before. -/
lemma item_eq (hi : i < 2 ^ 64 - 1) : item d i = .ok (firstItem (xs.drop i)) := by
  have hj := itemCached_eq hd h hi (Or.inl rfl)
  rw [item, hj]
  rfl

end ListItem

lemma isEmpty_cons (b : UInt8) (t : Bytes) :
    isEmpty (b :: t) = decide (b.toNat = 128 ∨ b.toNat = 192) := by
  rw [Bool.eq_iff_iff]
  simp [isEmpty, byteAt, c_rlpDataImmLenStart, c_rlpListStart]

/-- A frame is empty when its payload is. -/
lemma isEmpty_frame {k : Rlp.Kind} {p : Bytes} (hp : p.length < maxLength) :
    isEmpty (Rlp.frame k p) = decide (p = []) := by
  have hlt : p.length < 2 ^ 64 := lt_of_lt_of_le hp (by norm_num [maxLength])
  rcases Rlp.frame_cases k p with ⟨b, -, rfl, hb, e⟩ | ⟨-, hlen, e⟩ | ⟨hlen, e⟩
  · rw [e, isEmpty_cons, decide_eq_decide]
    simp only [reduceCtorEq, iff_false]
    omega
  · have hb := Rlp.toNat_short (k := k) hlen
    have hiff : ((k.short + p.length = 128) ∨ (k.short + p.length = 192)) ↔ p = [] := by
      rw [← length_eq_zero_iff]
      cases k <;> simp only [short] <;> omega
    rw [e, isEmpty_cons, hb]
    exact decide_eq_decide.mpr hiff
  · have hL := Rlp.length_bytes_bounds (n := p.length) (by omega) hlt
    have hb := Rlp.toNat_long (k := k) hL.2
    have hne : p ≠ [] := by
      intro hnil
      simp [hnil] at hlen
    rw [e, isEmpty_cons, hb, decide_eq_decide]
    simp only [hne, iff_false]
    cases k <;> simp only [long] <;> omega

/-! ### The methods on the encoding of a tree -/

section Encode

variable {x : Item} (h : (encode x).length ≤ maxLength)
include h

lemma payload_encode : payload (encode x) = .ok x.payload := by
  rw [Rlp.encode_eq_frame, payload_whole (length_payload_lt h)]

lemma isList_encode : isList (encode x) = decide (x.kind = .list) := by
  rw [Rlp.encode_eq_frame, isList_whole (length_payload_lt h)]

lemma isData_encode : isData (encode x) = decide (x.kind = .data) := by
  rw [Rlp.encode_eq_frame, isData_whole (length_payload_lt h)]

lemma ofBytes_encode : ofBytes (encode x) VeryStrict = .ok (encode x) := by
  rcases ofBytes_veryStrict_cases (Rlp.encode_ne_nil x) with ⟨-, -, -, -, hok⟩ | ⟨-, -, hno⟩
  · exact hok
  · exact absurd (Rlp.encode_eq_frame x) (hno _ _ (length_payload_lt h))

omit h in
lemma toBytes_encode {d : Bytes} (h : (encode (.data d)).length ≤ maxLength) (flags : ℕ) :
    toBytes (encode (.data d)) flags = .ok d := by
  exact toBytes_whole (length_payload_lt h) flags

lemma isEmpty_encode : isEmpty (encode x) = decide (x.payload = []) := by
  rw [Rlp.encode_eq_frame, isEmpty_frame (length_payload_lt h)]

end Encode

lemma payload_list {xs : List Item} (h : (encode (.list xs)).length ≤ maxLength) :
    payload (encode (.list xs)) = .ok (encodeList xs) := payload_encode h

lemma isList_list {xs : List Item} (h : (encode (.list xs)).length ≤ maxLength) :
    isList (encode (.list xs)) = true := by
  rw [isList_encode h]
  rfl

lemma itemCount_list {xs : List Item} (h : (encode (.list xs)).length ≤ maxLength) :
    itemCount (encode (.list xs)) = .ok xs.length := by
  rw [itemCount, if_pos (isList_list h), items_encode h]

lemma item_list {xs ys : List Item} {x : Item} (hx : xs.drop i = x :: ys)
    (h : (encode (.list xs)).length ≤ maxLength) (hi : i < 2 ^ 64 - 1) :
    item (encode (.list xs)) i = .ok (encode x) := by
  rw [item_eq (payload_list h) (length_payload_lt h) hi, hx, firstItem_cons]

end RLP

end Tos
