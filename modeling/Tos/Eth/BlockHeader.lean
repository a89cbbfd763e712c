import Tos.Eth.TransactionBase

/-!
# Block headers

The class `BlockHeader` of `libethcore/BlockHeader.cpp`: the constructor that reads a header from
RLP, `streamRLP`, which writes it, and the hash that is kept with it.

The constructor reads thirteen fields and takes whatever follows them as the seal. Three things
are read that are not written in the same way. The number and the time are `int64_t`, for which
`append` has no overload of its own: the one for `unsigned` is taken, which keeps 32 bits. The
extra data is read with `toBytes()`, which gives the empty byte string for a list and for an item
that is not there. And a header that is read alone may be a byte string, whose payload is then
read as if it were a list.

## Main results

* `BlockHeader.streamRLP_eq_iff`: an accepted header is written back exactly when it is
  regular, and its hash is then the one of its fields.
* `BlockHeader.late_timestamp`: a time that is not written back.

## Implementation notes

`int64_t` is `ℤ`. The hashes in the object are caches, so `hash` gives the object back. A loop
with an `unsigned` counter over `2 ^ 32` items or more does not end.
-/

namespace Tos.Eth

open Sdag (H256)
open List
open BigEndian (bytes bytes_injective length_bytes_le_iff length_fixed)

open Sdag.Wire (Address U256 hashBytes ofHashBytes hashBytes_ofHashBytes intItem)

open Rlp (Item encode encodeList encodeList_cons frame)

/-- `IncludeSeal`. -/
inductive IncludeSeal where
  | withoutSeal
  | withSeal
  | onlySeal
  deriving DecidableEq

/-- `BlockDataType`. -/
inductive BlockDataType where
  | headerData
  | blockData
  deriving DecidableEq

/-- The exceptions of a header; `diverges` stands for a loop that does not end. -/
inductive HeaderError where
  | rlp (e : RlpError)
  | invalidBlockFormat (comment : String) (field : ℕ) (data : Bytes)
  | invalidHeader (e : RlpError) (name : String) (field : ℕ) (data : String)
  | diverges
  deriving DecidableEq

/-- The class `BlockHeader`. -/
structure BlockHeader where
  m_parentHash : H256 := 0
  m_sha3Uncles : H256 := 0
  m_stateRoot : H256 := 0
  m_transactionsRoot : H256 := 0
  m_receiptsRoot : H256 := 0
  m_logBloom : BitVec 2048 := 0
  m_number : ℤ := 0
  m_gasLimit : U256 := 0
  m_gasUsed : U256 := 0
  m_extraData : Bytes := []
  m_timestamp : ℤ := -1
  m_author : Address := 0
  m_difficulty : U256 := 0
  m_seal : List Bytes := []
  m_hash : H256 := 0
  m_hashWithout : H256 := 0
  deriving DecidableEq

/-- A digit of `toHex`. -/
def hexDigit (n : ℕ) : Char := "0123456789abcdef".toList.getD n '0'

/-- `toHex`. -/
def toHex (x : Bytes) : String :=
  String.ofList (x.flatMap fun b => [hexDigit (b.toNat / 16), hexDigit (b.toNat % 16)])

namespace BlockHeader

/-- `BlockHeader::BasicFields`. -/
def BasicFields : ℕ := 13

/-- A call of the RLP library. -/
def rlp {α : Type} (x : Except RlpError α) : Except HeaderError α := x.mapError .rlp

/-! ### Writing -/

/-- `BlockHeader::streamRLPFields`. For an `int64_t` the overload `append(unsigned)` is taken. -/
def streamRLPFields (h : BlockHeader) (s : RLPStream) : Except RlpError RLPStream := do
  let s ← s.append (hashBytes h.m_parentHash)
  let s ← s.append (hashBytes h.m_sha3Uncles)
  let s ← s.append (hashBytes h.m_author)
  let s ← s.append (hashBytes h.m_stateRoot)
  let s ← s.append (hashBytes h.m_transactionsRoot)
  let s ← s.append (hashBytes h.m_receiptsRoot)
  let s ← s.append (hashBytes h.m_logBloom)
  let s ← s.appendInt h.m_difficulty.toNat
  let s ← s.appendInt (toUnsigned h.m_number)
  let s ← s.appendInt h.m_gasLimit.toNat
  let s ← s.appendInt h.m_gasUsed.toNat
  let s ← s.appendInt (toUnsigned h.m_timestamp)
  s.append h.m_extraData

/-- The loop of `streamRLP` over the seal. -/
def streamSeal (h : BlockHeader) (s : RLPStream) : Except HeaderError RLPStream :=
  if h.m_seal.length ≥ 2 ^ 32 then throw .diverges
  else rlp (h.m_seal.foldlM (fun s x => s.appendRaw x 1) s)

/-- `BlockHeader::streamRLP`. -/
def streamRLP (h : BlockHeader) (s : RLPStream) (i : IncludeSeal) :
    Except HeaderError RLPStream := do
  let s ← rlp (if i ≠ .onlySeal then do
      let n := BasicFields + if i = .withoutSeal then 0 else h.m_seal.length
      streamRLPFields h (← s.appendList n)
    else return s)
  if i ≠ .withoutSeal then streamSeal h s else return s

/-- What `streamRLP` writes to a stream of its own. -/
def out (h : BlockHeader) (i : IncludeSeal) : Except HeaderError Bytes := do
  rlp (← streamRLP h {} i).out

variable (sha3 : Bytes → H256)

/-- `BlockHeader::hash`. -/
def hash (h : BlockHeader) (i : IncludeSeal) : Except HeaderError (H256 × BlockHeader) :=
  match i with
  | .withSeal =>
    if h.m_hash = 0 then do
      let x := sha3 (← out h i)
      return (x, { h with m_hash := x })
    else return (h.m_hash, h)
  | .withoutSeal =>
    if h.m_hashWithout = 0 then do
      let x := sha3 (← out h i)
      return (x, { h with m_hashWithout := x })
    else return (h.m_hashWithout, h)
  | .onlySeal => do return (sha3 (← out h i), h)

/-- `BlockHeader::noteDirty`. -/
def noteDirty (h : BlockHeader) : BlockHeader := { h with m_hash := 0, m_hashWithout := 0 }

/-! ### Reading -/

/-- The handler of `populate`: the exception gets the name and the field, and is thrown again. -/
def annotate {α : Type} (d : Bytes) (field : ℕ) (x : Except RlpError α) : Except HeaderError α :=
  match x with
  | .ok a => return a
  | .error e => do
    let y ← rlp (RLP.item d field)
    throw (.invalidHeader e "invalid block header format" field (toHex y))

/-- `_header[field = i]`, followed by a conversion. -/
def readField {α : Type} (d : Bytes) (c : RLP.Cache) (field : ℕ)
    (conv : Bytes → Except RlpError α) : Except HeaderError (α × RLP.Cache) :=
  annotate d field do
    let (x, c) ← RLP.itemCached d c field
    let a ← conv x
    return (a, c)

/-- `toHash<_N>(RLP::VeryStrict)` for a hash of `w` bits. -/
def toHash (w : ℕ) (x : Bytes) : Except RlpError (BitVec w) := do
  return ofHashBytes w (← RLP.toHash (w / 8) x RLP.VeryStrict)

/-- `toInt<u256>()`. -/
def toU256 (x : Bytes) : Except RlpError U256 := do
  return BitVec.ofNat 256 (← RLP.toInt 32 x RLP.Strict)

/-- `toPositiveInt64()`. -/
def toPositive (x : Bytes) : Except RlpError ℤ := do
  return (← RLP.toPositiveInt64 x RLP.Strict : ℕ)

/-- `n` items from `i` on. -/
def readSeal (d : Bytes) : ℕ → ℕ → RLP.Cache → Except RlpError (List Bytes)
  | 0, _, _ => return []
  | n + 1, i, c => do
    let (x, c) ← RLP.itemCached d c i
    return x :: (← readSeal d n (i + 1) c)

/-- The loop of `populate` over the seal. An exception is still reported for the field `12`. -/
def populateSeal (d : Bytes) (c : RLP.Cache) : Except HeaderError (List Bytes) := do
  let n ← annotate d 12 (RLP.itemCount d)
  if n ≥ 2 ^ 32 then throw .diverges else annotate d 12 (readSeal d (n - 13) 13 c)

/-- `BlockHeader::populate`, of a new object. -/
def populate (d : Bytes) : Except HeaderError BlockHeader := do
  let (parentHash, c) ← readField d {} 0 (toHash 256)
  let (sha3Uncles, c) ← readField d c 1 (toHash 256)
  let (author, c) ← readField d c 2 (toHash 160)
  let (stateRoot, c) ← readField d c 3 (toHash 256)
  let (transactionsRoot, c) ← readField d c 4 (toHash 256)
  let (receiptsRoot, c) ← readField d c 5 (toHash 256)
  let (logBloom, c) ← readField d c 6 (toHash 2048)
  let (difficulty, c) ← readField d c 7 toU256
  let (number, c) ← readField d c 8 toPositive
  let (gasLimit, c) ← readField d c 9 toU256
  let (gasUsed, c) ← readField d c 10 toU256
  let (timestamp, c) ← readField d c 11 toPositive
  let (extraData, c) ← readField d c 12 fun x => RLP.toBytes x RLP.LaissezFaire
  let items ← populateSeal d c
  let h : BlockHeader :=
    { m_parentHash := parentHash
      m_sha3Uncles := sha3Uncles
      m_stateRoot := stateRoot
      m_transactionsRoot := transactionsRoot
      m_receiptsRoot := receiptsRoot
      m_logBloom := logBloom
      m_number := number
      m_gasLimit := gasLimit
      m_gasUsed := gasUsed
      m_extraData := extraData
      m_timestamp := timestamp
      m_author := author
      m_difficulty := difficulty
      m_seal := items }
  return h

/-- One check of `extractHeader`: an item of the block is a list. -/
def requireList (x : Bytes) (comment : String) (field : ℕ) : Except HeaderError Unit :=
  if RLP.isList x then return () else throw (.invalidBlockFormat comment field x)

/-- `BlockHeader::extractHeader`. -/
def extractHeader (block : Bytes) : Except HeaderError Bytes := do
  let root ← rlp (RLP.ofBytes block RLP.VeryStrict)
  requireList root "Block must be a list" 0
  let (header, c) ← rlp (RLP.itemCached root {} 0)
  requireList header "Block header must be a list" 0
  let (x1, c) ← rlp (RLP.itemCached root c 1)
  requireList x1 "Block transactions must be a list" 1
  let (x2, _) ← rlp (RLP.itemCached root c 2)
  requireList x2 "Block uncles must be a list" 2
  return header

/-- The constructor `BlockHeader(bytesConstRef, BlockDataType, h256 const&)`. -/
def ofData (block : Bytes) (bdt : BlockDataType) (hashWith : H256 := 0) :
    Except HeaderError BlockHeader := do
  let header ← if bdt = .blockData then extractHeader block
    else rlp (RLP.ofBytes block RLP.VeryStrict)
  let h ← populate header
  return { h with m_hash := if hashWith ≠ 0 then hashWith else sha3 header }

/-! ### The form of what is accepted -/

open RLP (SeenUpTo bind_eq_ok_iff frames isData maxLength payload)

variable {sha3} {d p : Bytes}

variable {α : Type}

@[simp] lemma rlp_eq_ok {x : Except RlpError α} {a : α} : rlp x = .ok a ↔ x = .ok a := by
  cases x <;> simp [rlp, Except.mapError]

@[simp] lemma annotate_eq_ok {field : ℕ} {x : Except RlpError α} {a : α} :
    annotate d field x = .ok a ↔ x = .ok a := by
  cases x with
  | ok a => simp [annotate, pure, Except.pure]
  | error e =>
    simp only [annotate, reduceCtorEq, iff_false]
    cases RLP.item d field <;> simp [rlp, Except.mapError, bind, Except.bind]

/-- A field that was read. -/
lemma readField_eq_ok {c c' : RLP.Cache} {field : ℕ} {conv : Bytes → Except RlpError α}
    {a : α} : readField d c field conv = .ok (a, c') ↔
      ∃ x, RLP.itemCached d c field = .ok (x, c') ∧ conv x = .ok a := by
  simp only [readField, annotate_eq_ok, bind_eq_ok_iff, pure, Except.pure, Except.ok.injEq,
    Prod.mk.injEq, Prod.exists]
  aesop

section Seen

variable {fs : List (Rlp.Kind × Bytes)} {f : Rlp.Kind × Bytes} {q : Bytes}
    {c c' : RLP.Cache} {i : ℕ}

/-- A hash behind the items seen so far. -/
lemma seen_hash {w : ℕ} {x : BitVec w} (hd : payload d = .ok p) (hc : SeenUpTo p fs f q c)
    (hi : i = fs.length + 1) (hw : w = 8 * (w / 8)) (h : readField d c i (toHash w) = .ok (x, c')) :
    ∃ q', SeenUpTo p (fs ++ [f]) (.data, hashBytes x) q' c' := by
  obtain ⟨y, hy, hx⟩ := readField_eq_ok.mp h
  obtain ⟨z, hz, hx⟩ := bind_eq_ok_iff.mp hx
  obtain rfl := Except.ok.inj hx
  obtain ⟨hlen, q', hc'⟩ := hc.hash hd hi hy hz
  rw [hashBytes_ofHashBytes (by rw [hlen]; exact hw)]
  exact ⟨q', hc'⟩

/-- An integer behind the items seen so far. -/
lemma seen_u256 {x : U256} (hd : payload d = .ok p) (hc : SeenUpTo p fs f q c)
    (hi : i = fs.length + 1) (h : readField d c i toU256 = .ok (x, c')) :
    ∃ q', SeenUpTo p (fs ++ [f]) (.data, bytes x.toNat) q' c' := by
  obtain ⟨y, hy, hx⟩ := readField_eq_ok.mp h
  obtain ⟨n, hn, hx⟩ := bind_eq_ok_iff.mp hx
  obtain rfl := Except.ok.inj hx
  obtain ⟨hlt, q', hc'⟩ := hc.int hd hi hy hn
  rw [TransactionBase.toNat_ofNat_of_lt hlt]
  exact ⟨q', hc'⟩

/-- A number that is not negative behind the items seen so far. -/
lemma seen_positive {x : ℤ} (hd : payload d = .ok p) (hc : SeenUpTo p fs f q c)
    (hi : i = fs.length + 1) (h : readField d c i toPositive = .ok (x, c')) :
    0 ≤ x ∧ ∃ q', SeenUpTo p (fs ++ [f]) (.data, bytes x.toNat) q' c' := by
  obtain ⟨y, hy, hx⟩ := readField_eq_ok.mp h
  obtain ⟨n, hn, hx⟩ := bind_eq_ok_iff.mp hx
  obtain rfl := Except.ok.inj hx
  obtain ⟨m, hm, hn⟩ := bind_eq_ok_iff.mp hn
  split_ifs at hn
  obtain rfl := Except.ok.inj hn
  obtain ⟨-, q', hc'⟩ := hc.int hd hi hy hm
  exact ⟨Int.natCast_nonneg _, q', by simpa using hc'⟩

end Seen

/-- The frames of the fields before the time. -/
def fieldFrames (h : BlockHeader) (number : ℕ) : List (Rlp.Kind × Bytes) :=
  [(.data, hashBytes h.m_parentHash), (.data, hashBytes h.m_sha3Uncles),
    (.data, hashBytes h.m_author), (.data, hashBytes h.m_stateRoot),
    (.data, hashBytes h.m_transactionsRoot), (.data, hashBytes h.m_receiptsRoot),
    (.data, hashBytes h.m_logBloom), (.data, bytes h.m_difficulty.toNat),
    (.data, bytes number), (.data, bytes h.m_gasLimit.toNat),
    (.data, bytes h.m_gasUsed.toNat)]

variable {h : BlockHeader}

/-- **What is accepted.** Twelve fields have been seen as they are; the extra data and the seal are
what the last two calls have given. -/
lemma populate_spec (hd : payload d = .ok p) (hp : populate d = .ok h) :
    0 ≤ h.m_number ∧ 0 ≤ h.m_timestamp ∧ ∃ q c x c' n,
      SeenUpTo p (h.fieldFrames h.m_number.toNat) (.data, bytes h.m_timestamp.toNat) q c ∧
      RLP.itemCached d c 12 = .ok (x, c') ∧ RLP.toBytes x RLP.LaissezFaire = .ok h.m_extraData ∧
      RLP.itemCount d = .ok n ∧ n < 2 ^ 32 ∧ readSeal d (n - 13) 13 c' = .ok h.m_seal := by
  simp only [populate, bind_eq_ok_iff] at hp
  obtain ⟨⟨parentHash, c0⟩, e0, ⟨sha3Uncles, c1⟩, e1, ⟨author, c2⟩, e2, ⟨stateRoot, c3⟩, e3,
    ⟨transactionsRoot, c4⟩, e4, ⟨receiptsRoot, c5⟩, e5, ⟨logBloom, c6⟩, e6, ⟨difficulty, c7⟩, e7,
    ⟨number, c8⟩, e8, ⟨gasLimit, c9⟩, e9, ⟨gasUsed, c10⟩, e10, ⟨timestamp, c11⟩, e11,
    ⟨extraData, c12⟩, e12, items, hseal, hp⟩ := hp
  dsimp only at *
  obtain rfl := Except.ok.inj hp
  have s0 : ∃ q, SeenUpTo p [] (.data, hashBytes parentHash) q c0 := by
    obtain ⟨y, hy, hx⟩ := readField_eq_ok.mp e0
    obtain ⟨z, hz, hx⟩ := bind_eq_ok_iff.mp hx
    obtain rfl := Except.ok.inj hx
    obtain ⟨⟨k, z'⟩, q, rfl, s⟩ := SeenUpTo.first hd hy (RLP.ne_nil_of_toHash hz)
    obtain ⟨hk, hlen, rfl⟩ := (RLP.toHash_veryStrict_eq_ok (s.small _ (by simp))).mp hz
    obtain rfl : k = .data := hk
    exact ⟨q, by rw [hashBytes_ofHashBytes (by rw [hlen])]; exact s⟩
  obtain ⟨_, s0⟩ := s0
  obtain ⟨_, s1⟩ := seen_hash hd s0 rfl rfl e1
  obtain ⟨_, s2⟩ := seen_hash hd s1 rfl rfl e2
  obtain ⟨_, s3⟩ := seen_hash hd s2 rfl rfl e3
  obtain ⟨_, s4⟩ := seen_hash hd s3 rfl rfl e4
  obtain ⟨_, s5⟩ := seen_hash hd s4 rfl rfl e5
  obtain ⟨_, s6⟩ := seen_hash hd s5 rfl rfl e6
  obtain ⟨_, s7⟩ := seen_u256 hd s6 rfl e7
  obtain ⟨hnumber, _, s8⟩ := seen_positive hd s7 rfl e8
  obtain ⟨_, s9⟩ := seen_u256 hd s8 rfl e9
  obtain ⟨_, s10⟩ := seen_u256 hd s9 rfl e10
  obtain ⟨htime, q, s11⟩ := seen_positive hd s10 rfl e11
  obtain ⟨x, hx, hextra⟩ := readField_eq_ok.mp e12
  obtain ⟨n, hn, hseal⟩ := bind_eq_ok_iff.mp hseal
  split_ifs at hseal with hlt
  exact ⟨hnumber, htime, q, c11, x, c12, n, s11, hx, hextra, annotate_eq_ok.mp hn, not_le.mp hlt,
    annotate_eq_ok.mp hseal⟩

lemma length_readSeal {n i : ℕ} {c : RLP.Cache} {l : List Bytes}
    (h : readSeal d n i c = .ok l) : l.length = n := by
  induction n generalizing i c l with
  | zero =>
    obtain rfl := Except.ok.inj h
    rfl
  | succ n ih =>
    simp only [readSeal, bind_eq_ok_iff] at h
    obtain ⟨⟨x, c'⟩, -, l', hl', h⟩ := h
    obtain rfl := Except.ok.inj h
    rw [length_cons, ih hl']

/-- The items behind the thirteenth are kept as they are. -/
lemma readSeal_eq {gs : List (Rlp.Kind × Bytes)} {fs : List (Rlp.Kind × Bytes)}
    {f : Rlp.Kind × Bytes} {c : RLP.Cache} (hd : payload d = .ok p)
    (hc : SeenUpTo p fs f (frames gs) c) (hgs : ∀ g ∈ gs, g.2.length < maxLength) :
    readSeal d gs.length (fs.length + 1) c = .ok (gs.map fun g => frame g.1 g.2) := by
  induction gs generalizing fs f c with
  | nil => rfl
  | cons g gs ih =>
    have hsplit : frames (g :: gs) = frame g.1 g.2 ++ frames gs := by simp [frames]
    rw [hsplit] at hc
    obtain ⟨hg, hgs⟩ := List.forall_mem_cons.mp hgs
    obtain ⟨c', hread, hc'⟩ := hc.read hd hg
    have hrest := ih hc' hgs
    rw [length_append, length_singleton] at hrest
    simp only [length_cons, readSeal, hread, bind, Except.bind, hrest]
    rfl

/-! ### What is written -/

open RLPStream (Appends appends_append appends_appendInt)

open Sdag.Wire (appends_int)

/-- The items of the fields as they are written. -/
def writtenItems (h : BlockHeader) : List Item :=
  [.data (hashBytes h.m_parentHash), .data (hashBytes h.m_sha3Uncles), .data (hashBytes h.m_author),
    .data (hashBytes h.m_stateRoot), .data (hashBytes h.m_transactionsRoot),
    .data (hashBytes h.m_receiptsRoot), .data (hashBytes h.m_logBloom),
    intItem h.m_difficulty.toNat, intItem (toUnsigned h.m_number), intItem h.m_gasLimit.toNat,
    intItem h.m_gasUsed.toNat, intItem (toUnsigned h.m_timestamp), .data h.m_extraData]

lemma length_hashBytes_lt {w : ℕ} (hw : w = 8 * (w / 8)) (hle : w ≤ 2048) (x : BitVec w) :
    (hashBytes x).length < 2 ^ 64 := by
  have hlt : x.toNat < 256 ^ (w / 8) := by
    calc x.toNat < 2 ^ w := x.isLt
      _ = 256 ^ (w / 8) := by rw [hw, Nat.pow_mul, Nat.mul_div_cancel_left _ (by norm_num)]
  rw [hashBytes, length_fixed hlt]
  omega

lemma length_bytes_toUnsigned_le (n : ℤ) : (bytes (toUnsigned n)).length ≤ 4 := by
  refine length_bytes_le_iff.mpr ?_
  rw [toUnsigned]
  omega

lemma appends_streamRLPFields (hextra : h.m_extraData.length < 2 ^ 64) :
    Appends h.writtenItems.length h.streamRLPFields h.writtenItems := by
  have hhash : ∀ {w : ℕ}, w = 8 * (w / 8) ∧ w ≤ 2048 → ∀ x : BitVec w,
      Appends 1 (fun s => s.append (hashBytes x)) [.data (hashBytes x)] :=
    fun hw x => appends_append (length_hashBytes_lt hw.1 hw.2 x)
  have hint : ∀ n : ℤ, Appends 1 (fun s => s.appendInt (toUnsigned n)) [intItem (toUnsigned n)] :=
    fun n => appends_appendInt (by have := length_bytes_toUnsigned_le n; omega)
  exact (hhash (by norm_num) h.m_parentHash).cons <| (hhash (by norm_num) h.m_sha3Uncles).cons <|
    (hhash (by norm_num) h.m_author).cons <| (hhash (by norm_num) h.m_stateRoot).cons <|
    (hhash (by norm_num) h.m_transactionsRoot).cons <|
      (hhash (by norm_num) h.m_receiptsRoot).cons <|
    (hhash (by norm_num) h.m_logBloom).cons <| (appends_int le_rfl h.m_difficulty).cons <|
    (hint h.m_number).cons <| (appends_int le_rfl h.m_gasLimit).cons <|
    (appends_int le_rfl h.m_gasUsed).cons <| (hint h.m_timestamp).cons
      (appends_append hextra).last

/-- The header is written as the list of its fields and the seal. -/
lemma out_withSeal (hseal : h.m_seal.length < 2 ^ 32)
    (hsize : (encodeList h.writtenItems ++ h.m_seal.flatten).length < 2 ^ 64) :
    h.out .withSeal = .ok (frame .list (encodeList h.writtenItems ++ h.m_seal.flatten)) := by
  have hextra : h.m_extraData.length < 2 ^ 64 :=
    Sdag.Wire.length_lt_of_mem (show .data h.m_extraData ∈ h.writtenItems by simp [writtenItems])
      (lt_of_le_of_lt (by simp) hsize)
  obtain ⟨s, s', hopen, hfields, hlast⟩ := (appends_streamRLPFields hextra).exists_appendList_raw
    h.m_seal (by simp [writtenItems]) hsize
  have hwritten : h.writtenItems.length = 13 := rfl
  rw [hwritten] at hopen
  have hstream : h.streamRLP {} .withSeal =
      .ok ⟨frame .list (encodeList h.writtenItems ++ h.m_seal.flatten), []⟩ := by
    simp only [streamRLP, ne_eq, reduceCtorEq, not_false_eq_true, if_true, if_false, BasicFields,
      hopen, bind, Except.bind, hfields, rlp, Except.mapError, streamSeal,
      if_neg (Nat.not_le.mpr hseal), ge_iff_le, hlast]
  rw [out, hstream]
  rfl

lemma encodeList_writtenItems (h : BlockHeader) : encodeList h.writtenItems =
    frames (h.fieldFrames (toUnsigned h.m_number) ++
      [(.data, bytes (toUnsigned h.m_timestamp))]) ++ frame .data h.m_extraData := by
  simp [writtenItems, frames, fieldFrames, intItem, Rlp.encode_data]

lemma toUnsigned_eq_toNat_iff {n : ℤ} (h : 0 ≤ n) : toUnsigned n = n.toNat ↔ n < 2 ^ 32 := by
  rw [toUnsigned]
  omega

/-- Fewer bits do not take more bytes. -/
lemma length_frame_toUnsigned_le {n : ℤ} (h : 0 ≤ n) :
    (frame .data (bytes (toUnsigned n))).length ≤
      (frame .data (bytes n.toNat)).length := by
  by_cases hlt : n < 2 ^ 32
  · rw [(toUnsigned_eq_toNat_iff h).mpr hlt]
  · have h4 : 4 < (bytes n.toNat).length := by
      by_contra hle
      have := length_bytes_le_iff.mp (Nat.not_lt.mp hle)
      omega
    have hle := length_bytes_toUnsigned_le n
    have hshort : (frame .data (bytes (toUnsigned n))).length ≤ 5 := by
      rcases Rlp.frame_cases .data (bytes (toUnsigned n)) with
        ⟨b, -, -, -, e⟩ | ⟨-, -, e⟩ | ⟨h56, -⟩
      · simp [e]
      · rw [e, length_cons]
        omega
      · omega
    exact hshort.trans (h4.trans_le (Rlp.length_le_length_frame _ _))

/-- What is written for the fields before the extra data is not longer than what was read. -/
lemma length_fields_le (hnumber : 0 ≤ h.m_number) (htime : 0 ≤ h.m_timestamp) :
    (frames (h.fieldFrames (toUnsigned h.m_number) ++
        [(.data, bytes (toUnsigned h.m_timestamp))])).length ≤
      (frames (h.fieldFrames h.m_number.toNat ++ [(.data, bytes h.m_timestamp.toNat)])).length := by
  have h₁ := length_frame_toUnsigned_le hnumber
  have h₂ := length_frame_toUnsigned_le htime
  simp only [frames, fieldFrames, cons_append, nil_append, flatMap_cons,
    flatMap_nil, append_nil, length_append]
  omega

/-! ### Writing back -/

/-- `toBytes()` of a frame. -/
lemma toBytes_frame {k : Rlp.Kind} {y : Bytes} (hy : y.length < maxLength) :
    RLP.toBytes (frame k y) RLP.LaissezFaire = .ok (if k = .data then y else []) := by
  cases k with
  | data => exact RLP.toBytes_whole hy _
  | list =>
    have hflag : RLP.has RLP.LaissezFaire RLP.ThrowOnFail = false := by decide
    simp [RLP.toBytes, RLP.isData_whole hy, hflag, pure, Except.pure]

/-- What follows the time: nothing, or an item that is the extra data if it is data; behind it is
the seal if the header is a list. -/
lemma behind_fields {fs : List (Rlp.Kind × Bytes)} {f : Rlp.Kind × Bytes}
    {q x : Bytes} {c c' : RLP.Cache} {n : ℕ} (hd : payload d = .ok p)
    (hlen : fs.length = 11) (hc : SeenUpTo p fs f q c) (hx : RLP.itemCached d c 12 = .ok (x, c'))
    (hextra : RLP.toBytes x RLP.LaissezFaire = .ok h.m_extraData) (hn : RLP.itemCount d = .ok n)
    (hseal : readSeal d (n - 13) 13 c' = .ok h.m_seal) :
    (x = [] ∧ h.m_extraData = [] ∧ h.m_seal = []) ∨
      ∃ k y r, x = frame k y ∧ q = x ++ r ∧ y.length < maxLength ∧
        h.m_extraData = (if k = .data then y else []) ∧
        h.m_seal.flatten = if RLP.isList d then r else [] := by
  have hnil : n - 13 = 0 → h.m_seal = [] := by
    intro h0
    rw [h0] at hseal
    exact (Except.ok.inj hseal).symm
  have hextra_nil : x = [] → h.m_extraData = [] := by
    rintro rfl
    exact (Except.ok.inj hextra).symm
  cases hlist : RLP.isList d with
  | false =>
    obtain rfl : n = 0 := by
      simp only [RLP.itemCount, hlist, Bool.false_eq_true, if_false, Except.ok.injEq] at hn
      exact hn.symm
    by_cases hxnil : x = []
    · exact Or.inl ⟨hxnil, hextra_nil hxnil, hnil rfl⟩
    · obtain ⟨⟨k, y⟩, r, rfl, hq, hc'⟩ := hc.next hd (by omega) hx hxnil
      have hy : y.length < maxLength := hc'.small (k, y) (by simp)
      rw [toBytes_frame hy] at hextra
      exact Or.inr ⟨k, y, r, rfl, hq, hy, (Except.ok.inj hextra).symm, by simp [hnil rfl]⟩
  | true =>
    obtain ⟨gs, rfl, hcount, hgs⟩ := hc.exists_rest hd hlist hn
    cases gs with
    | nil =>
      have hseal := hnil (by rw [hcount, hlen]; rfl)
      by_cases hxnil : x = []
      · exact Or.inl ⟨hxnil, hextra_nil hxnil, hseal⟩
      · obtain ⟨g, r, rfl, hq, -⟩ := hc.next hd (by omega) hx hxnil
        simp [frames] at hq
    | cons g gs =>
      obtain ⟨hg, hgs⟩ := List.forall_mem_cons.mp hgs
      have hsplit : frames (g :: gs) = frame g.1 g.2 ++ frames gs := by simp [frames]
      rw [hsplit] at hc ⊢
      obtain ⟨c'', hread, hc''⟩ := hc.read hd hg
      rw [hlen, hx, Except.ok.injEq, Prod.mk.injEq] at hread
      obtain ⟨rfl, rfl⟩ := hread
      rw [toBytes_frame hg] at hextra
      have hall := readSeal_eq hd hc'' hgs
      have hcount' : n - 13 = gs.length := by
        rw [hcount, length_cons]
        omega
      rw [hcount'] at hseal
      rw [length_append, hlen, length_singleton] at hall
      have hmap : h.m_seal = gs.map fun g => frame g.1 g.2 :=
        Except.ok.inj (hseal.symm.trans hall)
      exact Or.inr ⟨g.1, g.2, frames gs, rfl, rfl, hg, (Except.ok.inj hextra).symm, by
        rw [hmap]; simp [frames, List.flatMap]⟩

/-- None of the things is the case that are read and not written back. -/
structure Regular (b : Bytes) (h : BlockHeader) : Prop where
  isList : RLP.isList b = true
  extraData : ∃ y, RLP.item b 12 = .ok y ∧ isData y = true
  number : h.m_number < 2 ^ 32
  timestamp : h.m_timestamp < 2 ^ 32

/-- What an accepted header is read from. -/
lemma exists_frame_of_ofData {b : Bytes} (hb : ofData sha3 b .headerData = .ok h) :
    ∃ k p h₀, b = frame k p ∧ p.length < maxLength ∧ payload b = .ok p ∧
      populate b = .ok h₀ ∧ h = { h₀ with m_hash := sha3 b } := by
  simp only [ofData, reduceCtorEq, if_false, bind_eq_ok_iff, rlp_eq_ok] at hb
  obtain ⟨d, hd, h₀, hpop, hb⟩ := hb
  have hne : b ≠ [] := by
    rintro rfl
    obtain rfl := Except.ok.inj hd
    obtain ⟨-, -, q, c, -, -, -, hseen, -⟩ := populate_spec (p := []) rfl hpop
    have hlen := congrArg List.length hseen.payload_eq
    have hpos : 0 < (frame .data (bytes h₀.m_timestamp.toNat)).length :=
      Rlp.length_frame_pos _ _
    rw [RLP.frames_append_singleton, length_append, length_append, length_nil] at hlen
    dsimp only at hlen
    omega
  obtain ⟨rfl, k, p, rfl, hp⟩ := RLP.exists_frame_of_ofBytes hd hne
  exact ⟨k, p, h₀, rfl, hp, RLP.payload_whole hp, hpop, by simpa using (Except.ok.inj hb).symm⟩

/-- What is written for a header that was read, and when it is what was read. -/
lemma out_of_populate {b : Bytes} {k : Rlp.Kind} (hframe : b = frame k p)
    (hp : p.length < maxLength) (hpay : payload b = .ok p) (hpop : populate b = .ok h) :
    ∃ b', h.out .withSeal = .ok b' ∧ (b' = b ↔ Regular b h) := by
  obtain ⟨hnumber, htime, q, c, x, c', n, hseen, hx, hextra, hn, hlt, hseal⟩ :=
    populate_spec hpay hpop
  have hbehind := behind_fields hpay rfl hseen hx hextra hn hseal
  have hmax : maxLength = 2 ^ 64 - 257 := rfl
  have hfields := length_fields_le hnumber htime
  have hpeq := hseen.payload_eq
  have hplen := congrArg List.length hpeq
  rw [length_append] at hplen
  have hsealLen : h.m_seal.length < 2 ^ 32 := by
    rw [length_readSeal hseal]
    omega
  have hrest : (frame .data h.m_extraData).length + h.m_seal.flatten.length ≤
      q.length + 1 := by
    have hone : (frame .data []).length = 1 := by decide
    rcases hbehind with ⟨-, he, hs⟩ | ⟨k', y, r, hxeq, hq, -, he, hs⟩
    · rw [he, hs, hone]
      simp
    · have hy := Rlp.length_frame_pos k' y
      rw [he, hs, hq, hxeq, length_append]
      cases k' <;> cases RLP.isList b <;> simp [hone] <;> omega
  have hsize : (encodeList h.writtenItems ++ h.m_seal.flatten).length < 2 ^ 64 := by
    rw [encodeList_writtenItems, length_append, length_append]
    omega
  have hitem : RLP.item b 12 = .ok x := by
    rw [RLP.item, hseen.itemCached_eq hpay (by simp [fieldFrames]) (by norm_num), hx]
    rfl
  refine ⟨_, out_withSeal hsealLen hsize, fun heq => ?_, fun hreg => ?_⟩
  · -- what is written is a list, and its items are those that were read
    rw [hframe] at heq
    obtain ⟨rfl, hwritten⟩ := Rlp.frame_inj hsize (by omega) heq
    have hsmall : ∀ f ∈ h.fieldFrames (toUnsigned h.m_number) ++
        [(.data, bytes (toUnsigned h.m_timestamp))], f.2.length < 2 ^ 64 := by
      intro f hf
      have := RLP.length_le_of_mem_frames hf
      omega
    rw [encodeList_writtenItems, append_assoc, hpeq] at hwritten
    obtain ⟨hfs, hq⟩ := RLP.frames_append_inj (by simp [fieldFrames]) hsmall
      (fun f hf => (hseen.small f hf).trans (by omega)) hwritten
    have hnumber' : toUnsigned h.m_number = h.m_number.toNat := by
      have h8 := congrArg (fun l => l[8]?) hfs
      simpa [fieldFrames, bytes_injective.eq_iff] using h8
    have htime' : toUnsigned h.m_timestamp = h.m_timestamp.toNat := by
      have h11 := congrArg (fun l => l[11]?) hfs
      simpa [fieldFrames, bytes_injective.eq_iff] using h11
    rw [← hq] at hseen
    have hextraLen : h.m_extraData.length < maxLength := by
      have := Rlp.length_le_length_frame .data h.m_extraData
      rw [← hq, length_append] at hplen
      omega
    obtain ⟨c'', hread, -⟩ := SeenUpTo.read (g := (.data, h.m_extraData)) hseen hpay hextraLen
    rw [show (h.fieldFrames h.m_number.toNat).length + 1 = 12 from rfl, hx] at hread
    obtain ⟨rfl, -⟩ := Prod.mk.inj (Except.ok.inj hread)
    have hdata := RLP.isData_whole (k := .data) hextraLen
    exact ⟨by rw [hframe, RLP.isList_whole_iff hp], ⟨_, hitem, by rw [hdata]; rfl⟩,
      (toUnsigned_eq_toNat_iff hnumber).mp hnumber', (toUnsigned_eq_toNat_iff htime).mp htime'⟩
  · obtain ⟨hlist, ⟨y, hy, hdata⟩, hn32, ht32⟩ := hreg
    obtain rfl : x = y := Except.ok.inj (hitem.symm.trans hy)
    rcases hbehind with ⟨rfl, -, -⟩ | ⟨k', y, r, rfl, hq, hylen, he, hs⟩
    · simp [isData] at hdata
    · have hk := RLP.isData_whole (k := k') hylen
      rw [hdata] at hk
      obtain rfl : k' = .data := of_decide_eq_true hk.symm
      rw [if_pos rfl] at he
      rw [hlist, if_pos rfl] at hs
      obtain rfl := (RLP.isList_whole_iff hp).mp (hframe ▸ hlist)
      rw [hframe, hpeq, encodeList_writtenItems, (toUnsigned_eq_toNat_iff hnumber).mpr hn32,
        (toUnsigned_eq_toNat_iff htime).mpr ht32, he, hs, append_assoc, ← hq]

/-- **An accepted header is written back exactly when it is regular**, and the hash that was taken
from the bytes is then the one that is taken from the fields. -/
theorem streamRLP_eq_iff (sha3 : Bytes → H256) {b : Bytes} {h : BlockHeader}
    (hb : ofData sha3 b .headerData = .ok h) :
    (h.out .withSeal = .ok b ↔ Regular b h) ∧
      (Regular b h → (h.hash sha3 .withSeal).map Prod.fst = .ok (sha3 b) ∧
        (h.noteDirty.hash sha3 .withSeal).map Prod.fst = .ok (sha3 b)) := by
  obtain ⟨k, p, h₀, hframe, hp, hpay, hpop, rfl⟩ := exists_frame_of_ofData hb
  obtain ⟨b', hout, hiff⟩ := out_of_populate hframe hp hpay hpop
  -- neither the cached hashes nor their absence change what is written
  have hout' : ∀ x y, ({ h₀ with m_hash := x, m_hashWithout := y } : BlockHeader).out .withSeal =
      .ok b' := fun _ _ => hout
  have hreg : Regular b { h₀ with m_hash := sha3 b } ↔ Regular b h₀ :=
    ⟨fun ⟨h1, h2, h3, h4⟩ => ⟨h1, h2, h3, h4⟩, fun ⟨h1, h2, h3, h4⟩ => ⟨h1, h2, h3, h4⟩⟩
  refine ⟨by rw [hout', Except.ok.injEq, hiff, hreg], fun h => ?_⟩
  obtain rfl := hiff.mpr (hreg.mp h)
  have hdirty : ∀ y, (hash sha3 { h₀ with m_hash := 0, m_hashWithout := y } .withSeal).map
    Prod.fst =
      .ok (sha3 b') := by
    intro y
    simp only [hash, if_true, hout', bind, Except.bind]
    rfl
  refine ⟨?_, hdirty 0⟩
  by_cases hzero : sha3 b' = 0
  · rw [hzero, hdirty, hzero]
  · rw [hash, if_neg hzero]
    rfl

/-- The items of a header with the given time and extra data, and a seal of one item. -/
def sampleItems (time : ℕ) (extraData : Item) : List Item :=
  [.data (List.replicate 32 0), .data (List.replicate 32 0), .data (List.replicate 20 0),
    .data (List.replicate 32 0), .data (List.replicate 32 0), .data (List.replicate 32 0),
    .data (List.replicate 256 0), intItem 1, intItem 1, intItem 0, intItem 0, intItem time,
    extraData, .data [5]]

/-- The header that is read from them, as far as it is read. -/
def sampleHeader (time : ℤ) (items : List Bytes) (hash : H256) : BlockHeader :=
  { m_difficulty := 1, m_number := 1, m_timestamp := time, m_seal := items, m_hash := hash }

/-- A hash function that gives the length. -/
def lengthHash (x : Bytes) : H256 := BitVec.ofNat 256 x.length

/-- **Three headers that are not written back**: a time that has more than 32 bits, of which the
hash changes as well; a list in the place of the extra data; a byte string whose payload is that
of a header. -/
theorem late_timestamp :
    (ofData lengthHash (encode (.list (sampleItems (2 ^ 32) (.data [])))) .headerData =
        .ok (sampleHeader (2 ^ 32) [[5]] 460) ∧
      (sampleHeader (2 ^ 32) [[5]] 460).out .withSeal =
        .ok (encode (.list (sampleItems 0 (.data [])))) ∧
      ((sampleHeader (2 ^ 32) [[5]] 460).noteDirty.hash lengthHash .withSeal).map Prod.fst =
        .ok 455) ∧
    (ofData lengthHash (encode (.list (sampleItems 1 (.list [])))) .headerData =
        .ok (sampleHeader 1 [[5]] 455) ∧
      (sampleHeader 1 [[5]] 455).out .withSeal ≠
        .ok (encode (.list (sampleItems 1 (.list []))))) ∧
    ofData lengthHash (encode (.data (encodeList (sampleItems 1 (.data []))))) .headerData =
        .ok (sampleHeader 1 [] 455) ∧
      (sampleHeader 1 [] 455).out .withSeal ≠
        .ok (encode (.data (encodeList (sampleItems 1 (.data []))))) := by
  decide +kernel

/-- The theorem at a header that is written back. -/
theorem streamRLP_eq_iff_sample :
    (sampleHeader 1 [[5]] 455).out .withSeal = .ok (encode (.list (sampleItems 1 (.data [])))) ∧
      ((sampleHeader 1 [[5]] 455).noteDirty.hash lengthHash .withSeal).map Prod.fst = .ok 455 := by
  have hread : ofData lengthHash (encode (.list (sampleItems 1 (.data [])))) .headerData =
      .ok (sampleHeader 1 [[5]] 455) := by decide +kernel
  have hitem : RLP.item (encode (.list (sampleItems 1 (.data [])))) 12 = .ok [0x80] := by
    decide +kernel
  have hlist : RLP.isList (encode (.list (sampleItems 1 (.data [])))) = true := by decide +kernel
  have hreg : Regular (encode (.list (sampleItems 1 (.data [])))) (sampleHeader 1 [[5]] 455) :=
    ⟨hlist, ⟨_, hitem, rfl⟩, by decide, by decide⟩
  have hhash : lengthHash (encode (.list (sampleItems 1 (.data [])))) = 455 := by decide +kernel
  refine ⟨(streamRLP_eq_iff lengthHash hread).1.mpr hreg, ?_⟩
  rw [((streamRLP_eq_iff lengthHash hread).2 hreg).2, hhash]

end BlockHeader

end Tos.Eth
