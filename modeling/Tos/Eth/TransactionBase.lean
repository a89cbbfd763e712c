import Tos.Rlp.Lazy
import Tos.Sdag.Signature

/-!
# Transactions

The class `TransactionBase` of `libethcore/TransactionBase.cpp`: the constructor that reads a
transaction from RLP, and `streamRLP`, which writes it.

The constructor counts the items and converts each of them strictly, so what it accepts is an
encoding, with one exception: `isEmpty` holds for the empty list as well as for the empty byte
string, and whatever is empty in the place of the address makes a contract creation, which is
written with the empty byte string.

## Main results

* `TransactionBase.exists_items_of_ofRlp`: the form of what is accepted.
* `TransactionBase.rlp_eq_iff`: what is accepted is written back unless an empty list is
  in the place of the address.
* `TransactionBase.creation_from_list`: an empty list there is accepted and not written
  back.

## Implementation notes

`int` is `ℤ`, with the conversions from and to 32 bits where the source makes them; the sums it
forms of a chain id that was read do not overflow. The cached hash and sender are fields, so
`sha3` and `sender` give the object back.
-/

namespace Tos.Eth

open Sdag (H256)
open BigEndian (bytes)

open Sdag.Wire (Address U256 SignatureStruct Crypto hashBytes ofHashBytes hashBytes_ofHashBytes
  maxAddress intItem)

open Rlp (Item encode encodeList encodeList_cons)

/-- `TransactionBase::Type`. -/
inductive TransactionType where
  | nullTransaction
  | contractCreation
  | messageCall
  deriving DecidableEq

/-- `CheckTransaction`. -/
inductive CheckTransaction where
  | none
  | cheap
  | everything
  deriving DecidableEq

/-- The exceptions of a transaction. -/
inductive TransactionError where
  | rlp (e : RlpError)
  | invalidTransactionFormat (comment : String)
  | invalidSignature
  | transactionIsUnsigned
  deriving DecidableEq

/-- The class `TransactionBase`. -/
structure TransactionBase where
  m_type : TransactionType := .nullTransaction
  m_nonce : U256 := 0
  m_value : U256 := 0
  m_receiveAddress : Address := 0
  m_gasPrice : U256 := 0
  m_gas : U256 := 0
  m_data : Bytes := []
  m_vrs : Option SignatureStruct := none
  m_chainId : ℤ := -4
  m_hashWith : H256 := 0
  m_sender : Address := 0
  deriving DecidableEq

/-- A call of the RLP library. -/
def rlp {α : Type} (x : Except RlpError α) : Except TransactionError α := x.mapError .rlp

lemma rlp_eq_ok {α : Type} {x : Except RlpError α} {a : α} : rlp x = .ok a ↔ x = .ok a := by
  cases x <;> simp [rlp, Except.mapError]

/-- The `int` with the given 32 bits. -/
def toInt32 (n : ℕ) : ℤ := if n < 2 ^ 31 then n else (n : ℤ) - 2 ^ 32

/-- The `unsigned` that an `int` is converted to. -/
def toUnsigned (i : ℤ) : ℕ := (i % 2 ^ 32).toNat

namespace TransactionBase

/-! ### Writing -/

/-- `TransactionBase::isZeroSignature`. -/
def isZeroSignature (r s : U256) : Bool := r == 0 && s == 0

/-- `TransactionBase::hasZeroSignature`. -/
def hasZeroSignature (tx : TransactionBase) : Bool :=
  tx.m_vrs.any fun x => isZeroSignature x.r x.s

/-- The number that `streamRLP` writes for the recovery id. -/
def vNumber (tx : TransactionBase) (x : SignatureStruct) : ℕ :=
  if tx.hasZeroSignature then toUnsigned tx.m_chainId
  else toUnsigned (x.v.toNat + (tx.m_chainId * 2 + 35))

/-- The last three items of `streamRLP`, if there are any. -/
def streamSignature (tx : TransactionBase) (sig forEip155hash : Bool) (s : RLPStream) :
    Except TransactionError RLPStream :=
  if sig then
    match tx.m_vrs with
    | some x => do
      let s ← rlp (s.appendInt (tx.vNumber x))
      let s ← rlp (s.appendInt x.r.toNat)
      rlp (s.appendInt x.s.toNat)
    | none => throw .transactionIsUnsigned
  else if forEip155hash then do
    let s ← rlp (s.appendInt (toUnsigned tx.m_chainId))
    let s ← rlp (s.appendInt 0)
    rlp (s.appendInt 0)
  else return s

/-- What `streamRLP` writes for the address. -/
def addressBytes (tx : TransactionBase) : Bytes :=
  if tx.m_type = .messageCall then hashBytes tx.m_receiveAddress else []

/-- `TransactionBase::streamRLP`. -/
def streamRLP (tx : TransactionBase) (s : RLPStream) (sig forEip155hash : Bool) :
    Except TransactionError RLPStream :=
  if tx.m_type = .nullTransaction then return s
  else do
    let s ← rlp (s.appendList ((if sig || forEip155hash then 3 else 0) + 6))
    let s ← rlp (s.appendInt tx.m_nonce.toNat)
    let s ← rlp (s.appendInt tx.m_gasPrice.toNat)
    let s ← rlp (s.appendInt tx.m_gas.toNat)
    let s ← rlp (s.append tx.addressBytes)
    let s ← rlp (s.appendInt tx.m_value.toNat)
    let s ← rlp (s.append tx.m_data)
    streamSignature tx sig forEip155hash s

/-- `TransactionBase::rlp`. -/
def rlp (tx : TransactionBase) (sig : Bool) : Except TransactionError Bytes := do
  Eth.rlp (← streamRLP tx {} sig false).out

variable (C : Crypto)

/-- `TransactionBase::sha3`. -/
def sha3 (tx : TransactionBase) (sig : Bool) : Except TransactionError (H256 × TransactionBase) :=
  if sig ∧ tx.m_hashWith ≠ 0 then return (tx.m_hashWith, tx)
  else do
    let s ← streamRLP tx {} sig (tx.m_chainId > 0 && !sig)
    let ret := C.sha3 (← Eth.rlp s.out)
    return (ret, if sig then { tx with m_hashWith := ret } else tx)

/-- `TransactionBase::sender`, with the object that has the sender in its cache. -/
def sender (tx : TransactionBase) : Except TransactionError TransactionBase :=
  if tx.m_sender ≠ 0 then return tx
  else if tx.hasZeroSignature then return { tx with m_sender := maxAddress }
  else match tx.m_vrs with
    | some x => do
      let (digest, tx) ← sha3 C tx false
      let p := C.recover x digest
      if p = 0 then throw .invalidSignature
      else return { tx with m_sender := (C.sha3 (hashBytes p)).setWidth 160 }
    | none => throw .transactionIsUnsigned

/-! ### Reading -/

/-- `rlp[3].isEmpty() ? Address() : rlp[3].toHash<Address>(RLP::VeryStrict)`. -/
def readAddress (d : Bytes) (c : RLP.Cache) : Except TransactionError (Address × RLP.Cache) := do
  let (x3, c) ← Eth.rlp (RLP.itemCached d c 3)
  if RLP.isEmpty x3 then return (0, c)
  else do
    let (x3, c) ← Eth.rlp (RLP.itemCached d c 3)
    let x ← Eth.rlp (RLP.toHash 20 x3 RLP.VeryStrict)
    return (ofHashBytes 160 x, c)

/-- The first six fields. -/
def readFields (d : Bytes) : Except TransactionError (TransactionBase × RLP.Cache) := do
  let (x0, c) ← Eth.rlp (RLP.itemCached d {} 0)
  let nonce ← Eth.rlp (RLP.toInt 32 x0 RLP.Strict)
  let (x1, c) ← Eth.rlp (RLP.itemCached d c 1)
  let gasPrice ← Eth.rlp (RLP.toInt 32 x1 RLP.Strict)
  let (x2, c) ← Eth.rlp (RLP.itemCached d c 2)
  let gas ← Eth.rlp (RLP.toInt 32 x2 RLP.Strict)
  let (x3, c) ← Eth.rlp (RLP.itemCached d c 3)
  let type := if RLP.isEmpty x3 then TransactionType.contractCreation else .messageCall
  let (receiveAddress, c) ← readAddress d c
  let (x4, c) ← Eth.rlp (RLP.itemCached d c 4)
  let value ← Eth.rlp (RLP.toInt 32 x4 RLP.Strict)
  let (x5, c) ← Eth.rlp (RLP.itemCached d c 5)
  if !RLP.isData x5 then
    throw (.invalidTransactionFormat "transaction data RLP must be an array")
  else do
    let (x5, c) ← Eth.rlp (RLP.itemCached d c 5)
    let data ← Eth.rlp (RLP.toBytes x5 RLP.LaissezFaire)
    let tx : TransactionBase :=
      { m_type := type
        m_nonce := BitVec.ofNat 256 nonce
        m_value := BitVec.ofNat 256 value
        m_receiveAddress := receiveAddress
        m_gasPrice := BitVec.ofNat 256 gasPrice
        m_gas := BitVec.ofNat 256 gas
        m_data := data }
    return (tx, c)

/-- The chain id that a recovery id stands for. -/
def chainIdOf (v : ℤ) : Except TransactionError ℤ :=
  if v > 36 then return (v - 35).tdiv 2
  else if v = 27 ∨ v = 28 then return -4
  else throw .invalidSignature

/-- What is done with the signature. -/
def setSignature (tx : TransactionBase) (v : ℤ) (r s : U256) (check : CheckTransaction) :
    Except TransactionError TransactionBase :=
  if isZeroSignature r s then return { tx with m_chainId := v, m_vrs := some ⟨r, s, 0⟩ }
  else do
    let chainId ← chainIdOf v
    let x : SignatureStruct := ⟨r, s, UInt8.ofNat ((v - (chainId * 2 + 35)) % 256).toNat⟩
    if check ≠ .none && !x.isValid then throw .invalidSignature
    else return { tx with m_chainId := chainId, m_vrs := some x }

/-- The last three fields. -/
def readSignature (d : Bytes) (c : RLP.Cache) (tx : TransactionBase) (check : CheckTransaction) :
    Except TransactionError TransactionBase := do
  let (x6, c) ← Eth.rlp (RLP.itemCached d c 6)
  let v ← Eth.rlp (RLP.toInt 4 x6 RLP.Strict)
  let (x7, c) ← Eth.rlp (RLP.itemCached d c 7)
  let r ← Eth.rlp (RLP.toInt 32 x7 RLP.Strict)
  let (x8, _) ← Eth.rlp (RLP.itemCached d c 8)
  let s ← Eth.rlp (RLP.toInt 32 x8 RLP.Strict)
  setSignature tx (toInt32 v) (BitVec.ofNat 256 r) (BitVec.ofNat 256 s) check

/-- The sender is looked for when everything is to be checked. -/
def checkSender (tx : TransactionBase) (check : CheckTransaction) :
    Except TransactionError TransactionBase :=
  if check = .everything then sender C tx else return tx

/-- `if (rlp.itemCount() > 9)`. -/
def checkCount (d : Bytes) : Except TransactionError Unit := do
  let n ← Eth.rlp (RLP.itemCount d)
  if n > 9 then throw (.invalidTransactionFormat "too many fields in the transaction RLP")
  else return ()

/-- The constructor `TransactionBase(bytesConstRef, CheckTransaction)`. -/
def ofRlp (b : Bytes) (check : CheckTransaction) : Except TransactionError TransactionBase := do
  let d ← Eth.rlp (RLP.ofBytes b RLP.VeryStrict)
  if !RLP.isList d then throw (.invalidTransactionFormat "transaction RLP must be a list")
  else do
    let (tx, c) ← readFields d
    let tx ← readSignature d c tx check
    let tx ← checkSender C tx check
    checkCount d
    return tx

/-! ### The form of what is accepted -/

variable {C : Crypto}

/-- The items of a transaction with a signature. -/
def items (tx : TransactionBase) (addr : Item) (v : ℕ) (x : SignatureStruct) : List Item :=
  [intItem tx.m_nonce.toNat, intItem tx.m_gasPrice.toNat, intItem tx.m_gas.toNat, addr,
    intItem tx.m_value.toNat, .data tx.m_data, intItem v, intItem x.r.toNat, intItem x.s.toNat]

open RLP (SeenUpTo bind_eq_ok_iff frames isEmpty_frame maxLength)

variable {d p : Bytes}

/-- The address that is read from an item that has been read before. -/
lemma readAddress_spec {x : Bytes} {c c' : RLP.Cache} {addr : Address}
    (hx : RLP.itemCached d c 3 = .ok (x, c)) (h : readAddress d c = .ok (addr, c')) :
    c' = c ∧ (RLP.isEmpty x = true ∨ RLP.isEmpty x = false ∧
      ∃ z, RLP.toHash 20 x RLP.VeryStrict = .ok z ∧ addr = ofHashBytes 160 z) := by
  simp only [readAddress, hx, bind_eq_ok_iff, Eth.rlp_eq_ok, Except.ok.injEq, exists_eq_left'] at h
  cases hempty : RLP.isEmpty x with
  | true =>
    rw [hempty, if_pos rfl] at h
    exact ⟨(Prod.mk.inj (Except.ok.inj h)).2.symm, Or.inl rfl⟩
  | false =>
    rw [hempty, if_neg (by simp)] at h
    simp only [bind_eq_ok_iff, Eth.rlp_eq_ok, Except.ok.injEq, exists_eq_left'] at h
    obtain ⟨z, hz, h⟩ := h
    obtain ⟨rfl, rfl⟩ := Prod.mk.inj (Except.ok.inj h)
    exact ⟨rfl, Or.inr ⟨rfl, z, hz, rfl⟩⟩

lemma toNat_ofNat_of_lt {n : ℕ} (h : n < 256 ^ 32) : (BitVec.ofNat 256 n).toNat = n := by
  rw [BitVec.toNat_ofNat, Nat.mod_eq_of_lt (by simpa using h)]

/-- A transaction before its signature has been read. -/
structure Unsigned (tx : TransactionBase) : Prop where
  type : tx.m_type ≠ .nullTransaction
  hashWith : tx.m_hashWith = 0

/-- The frames of the first five fields. -/
def fieldFrames (tx : TransactionBase) (k : Rlp.Kind) : List (Rlp.Kind × Bytes) :=
  [(.data, bytes tx.m_nonce.toNat), (.data, bytes tx.m_gasPrice.toNat),
    (.data, bytes tx.m_gas.toNat), (k, tx.addressBytes),
    (.data, bytes tx.m_value.toNat)]

variable {tx : TransactionBase}

/-- What has been seen when the first six fields have been read. -/
lemma readFields_spec {c : RLP.Cache} (hd : RLP.payload d = .ok p)
    (h : readFields d = .ok (tx, c)) :
    Unsigned tx ∧ ∃ k q, (k = .data ∨ tx.addressBytes = []) ∧
      SeenUpTo p (fieldFrames tx k) (.data, tx.m_data) q c := by
  simp only [readFields, bind_eq_ok_iff, Eth.rlp_eq_ok] at h
  obtain ⟨⟨x0, c0⟩, e0, nonce, hnonce, ⟨x1, c1⟩, e1, gasPrice, hgasPrice, ⟨x2, c2⟩, e2, gas, hgas,
    ⟨x3, c3⟩, e3, ⟨addr, c3'⟩, haddr, ⟨x4, c4⟩, e4, value, hvalue, ⟨x5, c5⟩, e5, h⟩ := h
  dsimp only at *
  obtain ⟨⟨k0, p0⟩, q0, rfl, s0⟩ := SeenUpTo.first hd e0 (RLP.ne_nil_of_toInt hnonce)
  obtain ⟨hk0, hp0, hnonce'⟩ := (RLP.toInt_eq_ok (s0.small _ (by simp))).mp hnonce
  obtain rfl : k0 = .data := hk0
  obtain rfl : p0 = bytes nonce := hp0
  obtain ⟨hgasPrice, q1, s1⟩ := s0.int hd rfl e1 hgasPrice
  obtain ⟨hgas, q2, s2⟩ := s1.int hd rfl e2 hgas
  obtain ⟨rfl, haddr⟩ := readAddress_spec (RLP.itemCached_again e3) haddr
  have hx3 : x3 ≠ [] := by
    rintro rfl
    rcases haddr with haddr | ⟨-, z, hz, -⟩
    · simp [RLP.isEmpty] at haddr
    · exact RLP.ne_nil_of_toHash hz rfl
  obtain ⟨⟨k3, p3⟩, q3, rfl, -, s3⟩ := s2.next hd rfl e3 hx3
  have hp3 : p3.length < maxLength := s3.small (k3, p3) (by simp)
  obtain ⟨hvalue, q4, s4⟩ := s3.int hd rfl e4 hvalue
  cases hdata : RLP.isData x5 with
  | false => simp [hdata] at h
  | true =>
    obtain ⟨⟨k5, p5⟩, q5, rfl, -, s5⟩ :=
      s4.next hd rfl e5 (by rintro rfl; simp [RLP.isData] at hdata)
    have hp5 : p5.length < maxLength := s5.small (k5, p5) (by simp)
    have hk5 := RLP.isData_whole (k := k5) hp5
    rw [hdata] at hk5
    obtain rfl : k5 = .data := of_decide_eq_true hk5.symm
    have hbytes := RLP.toBytes_whole hp5 RLP.LaissezFaire
    simp only [hdata, RLP.itemCached_again e5, hbytes, bind_eq_ok_iff, Eth.rlp_eq_ok,
      Except.ok.injEq, exists_eq_left', Bool.not_true, Bool.false_eq_true, if_false] at h
    obtain ⟨rfl, rfl⟩ := Prod.mk.inj (Except.ok.inj h)
    rw [isEmpty_frame hp3] at haddr
    rcases haddr with hnil | ⟨hne, z, hz, rfl⟩
    · obtain rfl : p3 = [] := of_decide_eq_true hnil
      refine ⟨⟨by simp [isEmpty_frame hp3], rfl⟩, k3, q5, Or.inr ?_, ?_⟩
      · simp [addressBytes, isEmpty_frame hp3]
      · simpa [fieldFrames, addressBytes, isEmpty_frame hp3, toNat_ofNat_of_lt hnonce',
          toNat_ofNat_of_lt hgasPrice, toNat_ofNat_of_lt hgas, toNat_ofNat_of_lt hvalue,
          -BitVec.toNat_ofNat] using s5
    · obtain ⟨rfl, hlen, rfl⟩ := (RLP.toHash_veryStrict_eq_ok hp3).mp hz
      have hhash := hashBytes_ofHashBytes (w := 160) (x := z) (by rw [hlen])
      have hz : z ≠ [] := of_decide_eq_false hne
      refine ⟨⟨by simp [isEmpty_frame hp3, hz], rfl⟩, .data, q5, Or.inl rfl, ?_⟩
      simpa [fieldFrames, addressBytes, isEmpty_frame hp3, hz, hhash, toNat_ofNat_of_lt hnonce',
          toNat_ofNat_of_lt hgasPrice, toNat_ofNat_of_lt hgas, toNat_ofNat_of_lt hvalue,
          -BitVec.toNat_ofNat] using s5

lemma toUnsigned_toInt32 {n : ℕ} (h : n < 256 ^ 4) : toUnsigned (toInt32 n) = n := by
  rw [toUnsigned, toInt32]
  split_ifs <;> omega

variable {tx' : TransactionBase} {check : CheckTransaction}

/-- The signature is set so that its recovery id is written as it was read. -/
lemma setSignature_spec {v : ℕ} {r s : U256}
    (hv : v < 256 ^ 4) (h : setSignature tx (toInt32 v) r s check = .ok tx') :
    ∃ x id, x.r = r ∧ x.s = s ∧ tx' = { tx with m_chainId := id, m_vrs := some x } ∧
      tx'.vNumber x = v := by
  have hback := toUnsigned_toInt32 hv
  by_cases hzero : isZeroSignature r s = true
  · rw [setSignature, if_pos hzero] at h
    obtain rfl := Except.ok.inj h
    refine ⟨⟨r, s, 0⟩, _, rfl, rfl, rfl, ?_⟩
    simpa [vNumber, hasZeroSignature, hzero] using hback
  · rw [setSignature, if_neg hzero] at h
    obtain ⟨id, hid, h⟩ := bind_eq_ok_iff.mp h
    have hdiff : 0 ≤ toInt32 v - (id * 2 + 35) ∧ toInt32 v - (id * 2 + 35) < 256 := by
      rw [chainIdOf] at hid
      split_ifs at hid with h36 h27
      · obtain rfl := Except.ok.inj hid
        rw [Int.tdiv_eq_ediv_of_nonneg (by omega)]
        omega
      · obtain rfl := Except.ok.inj hid
        omega
    dsimp only at h
    split_ifs at h
    obtain rfl := Except.ok.inj h
    refine ⟨_, id, rfl, rfl, rfl, ?_⟩
    have hx : ((UInt8.ofNat ((toInt32 v - (id * 2 + 35)) % 256).toNat).toNat : ℤ) =
        toInt32 v - (id * 2 + 35) := by
      rw [UInt8.toNat_ofNat']
      omega
    simp only [vNumber, hasZeroSignature, Option.any_some, hzero, hx]
    simpa using hback

/-- What has been seen when the signature has been read. -/
lemma readSignature_spec {fs : List (Rlp.Kind × Bytes)} {f : Rlp.Kind × Bytes} {q : Bytes}
    {c : RLP.Cache} (hd : RLP.payload d = .ok p) (hc : SeenUpTo p fs f q c) (hlen : fs.length = 5)
    (h : readSignature d c tx check = .ok tx') :
    ∃ x id q' c', tx' = { tx with m_chainId := id, m_vrs := some x } ∧
      SeenUpTo p (fs ++ [f] ++ [(.data, bytes (tx'.vNumber x))] ++
        [(.data, bytes x.r.toNat)]) (.data, bytes x.s.toNat) q' c' := by
  simp only [readSignature, bind_eq_ok_iff, Eth.rlp_eq_ok] at h
  obtain ⟨⟨x6, c6⟩, e6, v, hv, ⟨x7, c7⟩, e7, r, hr, ⟨x8, c8⟩, e8, s, hs, h⟩ := h
  dsimp only at *
  obtain ⟨hv, q6, s6⟩ := hc.int hd (by omega) e6 hv
  obtain ⟨hr, q7, s7⟩ := s6.int hd (by simp [hlen]) e7 hr
  obtain ⟨hs, q8, s8⟩ := s7.int hd (by simp [hlen]) e8 hs
  obtain ⟨x, id, hxr, hxs, htx, hnum⟩ := setSignature_spec hv h
  refine ⟨x, id, q8, c8, htx, ?_⟩
  rw [hnum, hxr, hxs, toNat_ofNat_of_lt hr, toNat_ofNat_of_lt hs]
  exact s8

/-- Looking for the sender changes nothing else. -/
lemma checkSender_spec
    (h : checkSender C tx check = .ok tx') : ∃ a, tx' = { tx with m_sender := a } := by
  rw [checkSender] at h
  split_ifs at h
  · rw [sender] at h
    split_ifs at h
    · exact ⟨_, (Except.ok.inj h).symm⟩
    · exact ⟨_, (Except.ok.inj h).symm⟩
    · split at h
      · simp only [sha3, bind_eq_ok_iff] at h
        obtain ⟨⟨digest, tx₁⟩, hsha, h⟩ := h
        simp only [Bool.false_eq_true, false_and, if_false, bind_eq_ok_iff] at hsha
        obtain ⟨st, -, y, -, hsha⟩ := hsha
        obtain ⟨-, rfl⟩ := Prod.mk.inj (Except.ok.inj hsha)
        split_ifs at h
        exact ⟨_, (Except.ok.inj h).symm⟩
      · cases h
  · exact ⟨_, (Except.ok.inj h).symm⟩

/-- The item in the place of the address: that of the address, or an empty list. -/
def AddressItem (tx : TransactionBase) (addr : Item) : Prop :=
  addr = .data tx.addressBytes ∨ addr = .list [] ∧ tx.addressBytes = []

/-- What stands in the place of the address, from its frame. -/
lemma exists_addressItem {k : Rlp.Kind} (hk : k = .data ∨ tx.addressBytes = []) :
    ∃ addr, tx.AddressItem addr ∧ encode addr = Rlp.frame k tx.addressBytes := by
  cases k with
  | data => exact ⟨_, Or.inl rfl, Rlp.encode_data _⟩
  | list =>
    have hnil : tx.addressBytes = [] := hk.resolve_left (by simp)
    exact ⟨_, Or.inr ⟨rfl, hnil⟩, by rw [hnil, Rlp.encode_list, Rlp.encodeList_nil]⟩

lemma encodeList_items (tx : TransactionBase) (v : ℕ) (x : SignatureStruct) {addr : Item}
    {k : Rlp.Kind} (h : encode addr = Rlp.frame k tx.addressBytes) :
    encodeList (tx.items addr v x) = frames (tx.fieldFrames k ++ [(.data, tx.m_data)] ++
      [(.data, bytes v)] ++ [(.data, bytes x.r.toNat)] ++ [(.data, bytes x.s.toNat)]) := by
  simp [items, frames, fieldFrames, h, intItem, Rlp.encode_data]

/-- **What is accepted.** An accepted byte string is the encoding of nine items, which are those of
the transaction except that an empty list may be in the place of the address.

**Proof sketch.** Each conversion gives the frame of the item that was read, and the number of
items leaves nothing behind the ninth. -/
theorem exists_items_of_ofRlp {b : Bytes} (h : ofRlp C b check = .ok tx) :
    Unsigned tx ∧ ∃ addr x, tx.AddressItem addr ∧ tx.m_vrs = some x ∧
      b = encode (.list (tx.items addr (tx.vNumber x) x)) ∧
      (encodeList (tx.items addr (tx.vNumber x) x)).length < maxLength := by
  simp only [ofRlp, bind_eq_ok_iff, Eth.rlp_eq_ok] at h
  obtain ⟨d, hd, h⟩ := h
  cases hlist : RLP.isList d with
  | false => simp [hlist] at h
  | true =>
    obtain ⟨rfl, p, hb, hp⟩ := RLP.exists_list_of_ofBytes hd hlist
    have hpay := RLP.payload_whole (k := .list) hp
    rw [← hb] at hpay
    simp only [hlist, Bool.not_true, Bool.false_eq_true, if_false, bind_eq_ok_iff] at h
    obtain ⟨⟨tx₁, c₁⟩, hfields, tx₂, hsig, tx₃, hsender, u, hcount, h⟩ := h
    obtain rfl := Except.ok.inj h
    obtain ⟨⟨htype, hhash⟩, k, q, hk, hseen⟩ := readFields_spec hpay hfields
    obtain ⟨x, id, q', c', rfl, hseen⟩ := readSignature_spec hpay hseen rfl hsig
    obtain ⟨a, rfl⟩ := checkSender_spec hsender
    simp only [checkCount, bind_eq_ok_iff, Eth.rlp_eq_ok] at hcount
    obtain ⟨n, hn, hle⟩ := hcount
    have hnine : n ≤ 9 := by
      by_contra hgt
      rw [if_pos (by omega)] at hle
      cases hle
    obtain rfl := hseen.rest_eq_nil hpay hlist hn hnine
    have hpeq := hseen.payload_eq
    rw [List.append_nil] at hpeq
    obtain ⟨addr, haddr, henc⟩ := exists_addressItem hk
    refine ⟨⟨htype, hhash⟩, addr, x, haddr, rfl, ?_⟩
    have hitems := hpeq.trans (encodeList_items _ _ x henc).symm
    rw [hitems] at hb hp
    exact ⟨hb.trans (Rlp.encode_list _).symm, hp⟩

/-! ### Writing back -/

open RLPStream (appends_append appends_appendInt)

open Sdag.Wire (appends_int length_lt_of_mem run_empty_of_appends out_mk)

@[simp] lemma rlp_ok {α : Type} (a : α) : Eth.rlp (.ok a) = .ok a := rfl

/-- A transaction with a signature is written as the encoding of its items. -/
theorem rlp_eq {x : SignatureStruct} (htype : tx.m_type ≠ .nullTransaction)
    (hvrs : tx.m_vrs = some x)
    (hsize : (encodeList (tx.items (.data tx.addressBytes) (tx.vNumber x) x)).length < 2 ^ 64) :
    streamRLP tx {} true false =
        .ok ⟨encode (.list (tx.items (.data tx.addressBytes) (tx.vNumber x) x)), []⟩ ∧
      tx.rlp true = .ok (encode (.list (tx.items (.data tx.addressBytes) (tx.vNumber x) x))) := by
  have haddr : tx.addressBytes.length < 2 ^ 64 := length_lt_of_mem (by simp [items]) hsize
  have hdata : tx.m_data.length < 2 ^ 64 := length_lt_of_mem (by simp [items]) hsize
  have hv : (bytes (tx.vNumber x)).length < 2 ^ 64 :=
    length_lt_of_mem (by simp [items, intItem]) hsize
  have hall := run_empty_of_appends (((appends_int le_rfl tx.m_nonce).cons <|
    (appends_int le_rfl tx.m_gasPrice).cons <| (appends_int le_rfl tx.m_gas).cons <|
    (appends_append haddr).cons <| (appends_int le_rfl tx.m_value).cons <|
    (appends_append hdata).cons <| (appends_appendInt hv).cons <|
    (appends_int le_rfl x.r).cons (appends_int le_rfl x.s).last).opened hsize)
  obtain ⟨s₁, h₁, hall⟩ := bind_eq_ok_iff.mp hall
  obtain ⟨s₂, h₂, hall⟩ := bind_eq_ok_iff.mp hall
  obtain ⟨s₃, h₃, hall⟩ := bind_eq_ok_iff.mp hall
  obtain ⟨s₄, h₄, hall⟩ := bind_eq_ok_iff.mp hall
  obtain ⟨s₅, h₅, hall⟩ := bind_eq_ok_iff.mp hall
  obtain ⟨s₆, h₆, hall⟩ := bind_eq_ok_iff.mp hall
  obtain ⟨s₇, h₇, hall⟩ := bind_eq_ok_iff.mp hall
  obtain ⟨s₈, h₈, hall⟩ := bind_eq_ok_iff.mp hall
  obtain ⟨s₉, h₉, hall⟩ := bind_eq_ok_iff.mp hall
  simp only [List.length_cons, List.length_nil, Nat.reduceAdd] at h₁
  have hstream : streamRLP tx {} true false =
      .ok ⟨encode (.list (tx.items (.data tx.addressBytes) (tx.vNumber x) x)), []⟩ := by
    simp only [streamRLP, htype, if_false, Bool.or_false, if_true, Nat.reduceAdd, h₁, h₂, h₃, h₄,
      h₅, h₆, h₇, rlp_ok, bind, Except.bind, streamSignature, hvrs, h₈, h₉, hall]
    rfl
  refine ⟨hstream, ?_⟩
  rw [rlp, hstream]
  rfl

/-- The item in the place of the address is data. -/
def AddressIsData (b : Bytes) : Prop := ∃ y, RLP.item b 3 = .ok y ∧ RLP.isData y = true

/-- The item in the place of the address, as the reader finds it. -/
lemma addressIsData_encode {addr : Item} {v : ℕ} {x : SignatureStruct}
    (hsize : (encodeList (tx.items addr v x)).length < maxLength) (haddr : tx.AddressItem addr) :
    AddressIsData (encode (.list (tx.items addr v x))) ↔ addr = .data tx.addressBytes := by
  have hpay := RLP.payload_whole (k := .list) hsize
  rw [← Rlp.encode_list] at hpay
  have hitem := RLP.item_eq (i := 3) hpay hsize (by norm_num)
  have hfirst : RLP.firstItem ((tx.items addr v x).drop 3) = encode addr := RLP.firstItem_cons ..
  rw [hfirst] at hitem
  have hlt : addr.payload.length < maxLength := by
    have hmem := Rlp.length_encode_le_of_mem (show addr ∈ tx.items addr v x by simp [items])
    rw [Rlp.encode_eq_frame] at hmem
    exact ((Rlp.length_le_length_frame _ _).trans hmem).trans_lt hsize
  have hdata := RLP.isData_whole (k := addr.kind) hlt
  rw [← Rlp.encode_eq_frame] at hdata
  simp only [AddressIsData, hitem, Except.ok.injEq, exists_eq_left', hdata]
  rcases haddr with rfl | ⟨rfl, -⟩
  · simp [Item.kind]
  · simp [Item.kind]

/-- What is written for an accepted byte string, and when it is that byte string. -/
lemma rlp_of_ofRlp {b : Bytes} (h : ofRlp C b check = .ok tx) :
    ∃ b', tx.rlp true = .ok b' ∧ (sha3 C tx true).map Prod.fst = .ok (C.sha3 b') ∧
      (b' = b ↔ AddressIsData b) := by
  obtain ⟨⟨htype, hhash⟩, addr, x, haddr, hvrs, rfl, hsize⟩ := exists_items_of_ofRlp h
  have hmax : maxLength = 2 ^ 64 - 257 := rfl
  -- both forms of the item have one size
  have hlen : (encodeList (tx.items (.data tx.addressBytes) (tx.vNumber x) x)).length =
      (encodeList (tx.items addr (tx.vNumber x) x)).length := by
    rcases haddr with rfl | ⟨rfl, hnil⟩
    · rfl
    · have hone : (encode (.data [])).length = (encode (.list [])).length := by decide
      simp only [items, hnil, encodeList_cons, List.length_append, hone]
  have hsize' : (encodeList (tx.items (.data tx.addressBytes) (tx.vNumber x) x)).length <
      maxLength := hlen ▸ hsize
  obtain ⟨hstream, hrlp⟩ := rlp_eq htype hvrs (hsize'.trans (by omega))
  refine ⟨_, hrlp, ?_, ?_⟩
  · simp only [sha3, hhash, ne_eq, not_true_eq_false, and_false, if_false, Bool.not_true,
      Bool.and_false, hstream, out_mk, rlp_ok, bind, Except.bind]
    rfl
  · rw [addressIsData_encode hsize haddr]
    constructor
    · intro heq
      have hbound : ∀ {xs : List Item}, (encodeList xs).length < maxLength →
          (encode (.list xs)).length < 2 ^ 64 := by
        intro xs hxs
        have := Rlp.length_frame_le (k := .list) (p := encodeList xs) (by omega)
        rw [Rlp.encode_list]
        omega
      have hinj := Rlp.encode_injective_of_lt (hbound hsize') (hbound hsize) heq
      simp only [items, Item.list.injEq, List.cons.injEq] at hinj
      exact hinj.2.2.2.1.symm
    · rintro rfl
      rfl

/-- **What is accepted is written back unless an empty list is in the place of the address**, and
byte strings that are written back have different hashes. -/
theorem rlp_eq_iff (C : Crypto) (W : Set Bytes) (hinj : Set.InjOn C.sha3 W) {b : Bytes}
    {check : CheckTransaction} {tx : TransactionBase} (h : ofRlp C b check = .ok tx) :
    (tx.rlp true = .ok b ↔ AddressIsData b) ∧
      ∀ {b' : Bytes} {check' : CheckTransaction} {tx' : TransactionBase},
        ofRlp C b' check' = .ok tx' → b ∈ W → b' ∈ W → AddressIsData b → AddressIsData b' →
        (sha3 C tx true).map Prod.fst = (sha3 C tx' true).map Prod.fst → b = b' := by
  obtain ⟨y, hrlp, hhash, hy⟩ := rlp_of_ofRlp h
  refine ⟨by rw [hrlp, Except.ok.injEq, hy], ?_⟩
  intro b' check' tx' h' hb hb' haddr haddr' heq
  obtain ⟨y', -, hhash', hy'⟩ := rlp_of_ofRlp h'
  obtain rfl := hy.mpr haddr
  obtain rfl := hy'.mpr haddr'
  rw [hhash, hhash', Except.ok.injEq] at heq
  exact hinj hb hb' heq

/-- A transfer with a zero signature, and the same bytes with an empty list in the place of the
address. -/
def sampleTx (addr : Bytes) : Bytes :=
  let fields := [0x80, 0x80, 0x80] ++ addr ++ [0x80, 0x80, 0x01, 0x80, 0x80]
  UInt8.ofNat (0xc0 + fields.length) :: fields

/-- A hash function that gives the length. -/
def lengthCrypto : Crypto where
  sha3 := fun x => BitVec.ofNat 256 x.length
  sign := fun _ _ => ⟨0, 0, 0⟩
  recover := fun _ _ => 0

/-- The contract creation with a zero signature for the chain `1`. -/
def sampleCreation : TransactionBase :=
  { m_type := .contractCreation, m_vrs := some ⟨0, 0, 0⟩, m_chainId := 1 }

/-- **An empty list in the place of the address** is accepted, and the empty byte string is written
for it; so two byte strings have one hash, whatever the hash function. -/
theorem creation_from_list :
    ofRlp lengthCrypto (sampleTx [0xc0]) .none = .ok sampleCreation ∧
      ofRlp lengthCrypto (sampleTx [0x80]) .none = .ok sampleCreation ∧
      sampleCreation.rlp true = .ok (sampleTx [0x80]) ∧ sampleTx [0xc0] ≠ sampleTx [0x80] := by
  decide +kernel

/-- The theorem at a creation that is written back. -/
theorem rlp_eq_iff_creation : sampleCreation.rlp true = .ok (sampleTx [0x80]) := by
  have haccepted : ofRlp lengthCrypto (sampleTx [0x80]) .none = .ok sampleCreation := by
    decide +kernel
  have haddr : RLP.item (sampleTx [0x80]) 3 = .ok [0x80] := by decide +kernel
  exact (rlp_eq_iff lengthCrypto {sampleTx [0x80]} (by simp) haccepted).1.mpr ⟨_, haddr, rfl⟩

end TransactionBase

end Tos.Eth
