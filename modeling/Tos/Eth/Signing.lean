import Tos.Eth.TransactionBase

/-!
# Signing a transaction

The methods `setNonce`, `sign`, `sha3`, `sender` and `rlp` of `TransactionBase`, called in any order
on an object that came from a constructor. `sender` and `sha3(WithSignature)` keep their result in
the object, and nothing empties the two caches: neither `sign`, which replaces the signature they
were computed from, nor `setNonce`, which replaces the signature by zeros.

## Main results

* `TransactionBase.ofRlp_rlp`: a transaction with a valid signature is read back.
* `TransactionBase.signedBy_of_signable`: in runs in which only signable transactions are
  signed, each signature is coherent.
* `TransactionBase.sender_stale`: a transaction that is signed again keeps its sender.

## Implementation notes

A constructor that takes a secret initialises the fields and then calls `sign`; the initialised
objects are the starting points here, and the call is the first step of a run. A byte vector has
fewer than `2 ^ 63` bytes.
-/

namespace Tos.Eth

open List
open Sdag (H256)
open BigEndian (bytes length_bytes_le_iff length_fixed)
open TransactionBase (sender sha3)

open Sdag.Wire (Address U256 SignatureStruct Crypto hashBytes ofHashBytes hashBytes_ofHashBytes
  maxAddress intItem OnItems onItems_cacheAt itemCached_new itemCached_cacheAt itemCached_list
  toInt_data length_encode_le_maxLength)

open Rlp (Item encode encodeList)

open RLP (maxLength bind_eq_ok_iff)

/-- `TransactionSkeleton`. -/
structure TransactionSkeleton where
  creation : Bool := false
  from_ : Address := 0
  to_ : Address := 0
  value : U256 := 0
  data : Bytes := []
  nonce : U256 := BitVec.allOnes 256
  gas : U256 := BitVec.allOnes 256
  gasPrice : U256 := BitVec.allOnes 256

namespace TransactionBase

/-! ### The methods -/

/-- The fields that the constructor from a skeleton initialises. -/
def ofSkeleton (ts : TransactionSkeleton) : TransactionBase where
  m_type := if ts.creation then .contractCreation else .messageCall
  m_nonce := ts.nonce
  m_value := ts.value
  m_receiveAddress := ts.to_
  m_gasPrice := ts.gasPrice
  m_gas := ts.gas
  m_data := ts.data
  m_sender := ts.from_

/-- The fields that the constructors of a message call initialise. -/
def messageCall (value gasPrice gas : U256) (dest : Address) (data : Bytes) (nonce : U256) :
    TransactionBase where
  m_type := .messageCall
  m_nonce := nonce
  m_value := value
  m_receiveAddress := dest
  m_gasPrice := gasPrice
  m_gas := gas
  m_data := data

/-- The fields that the constructors of a contract creation initialise. -/
def contractCreation (value gasPrice gas : U256) (data : Bytes) (nonce : U256) :
    TransactionBase where
  m_type := .contractCreation
  m_nonce := nonce
  m_value := value
  m_gasPrice := gasPrice
  m_gas := gas
  m_data := data

/-- `TransactionBase::setNonce`, with `clearSignature`. -/
def setNonce (tx : TransactionBase) (n : U256) : TransactionBase :=
  { tx with m_vrs := some ⟨0, 0, 0⟩, m_nonce := n }

variable (C : Crypto)

/-- `TransactionBase::sign`. -/
def sign (tx : TransactionBase) (priv : BitVec 256) : Except TransactionError TransactionBase := do
  let (digest, tx) ← sha3 C tx false
  let sigStruct := C.sign priv digest
  return if sigStruct.isValid then { tx with m_vrs := some sigStruct } else tx

/-- The objects with which a run begins. -/
inductive Constructed : TransactionBase → Prop where
  | null : Constructed {}
  | skeleton (ts : TransactionSkeleton) (h : ts.data.length < 2 ^ 63) : Constructed (ofSkeleton ts)
  | messageCall (value gasPrice gas : U256) (dest : Address) (data : Bytes) (nonce : U256)
      (h : data.length < 2 ^ 63) :
      Constructed (TransactionBase.messageCall value gasPrice gas dest data nonce)
  | contractCreation (value gasPrice gas : U256) (data : Bytes) (nonce : U256)
      (h : data.length < 2 ^ 63) :
      Constructed (TransactionBase.contractCreation value gasPrice gas data nonce)
  | decoded (b : Bytes) (check : CheckTransaction) (tx : TransactionBase) (hb : b.length < 2 ^ 63)
      (h : ofRlp C b check = .ok tx) : Constructed tx

/-- A call of a method. -/
inductive TxCall where
  | setNonce (n : U256)
  | sign (priv : BitVec 256)
  | sha3 (sig : Bool)
  | sender
  | rlp (sig : Bool)

/-- The object after a call. A call that throws leaves it as it is. -/
def after (tx : TransactionBase) : TxCall → TransactionBase
  | .setNonce n => tx.setNonce n
  | .sign priv => (tx.sign C priv).toOption.getD tx
  | .sha3 sig => ((sha3 C tx sig).map Prod.snd).toOption.getD tx
  | .sender => (sender C tx).toOption.getD tx
  | .rlp _ => tx

/-! ### The digest -/

/-- What `sha3(WithoutSignature)` hashes. -/
def unsignedBytes (tx : TransactionBase) : Except TransactionError Bytes := do
  Eth.rlp (← streamRLP tx {} false (tx.m_chainId > 0)).out

/-- The digest that is signed. -/
def digest (tx : TransactionBase) : Except TransactionError H256 := tx.unsignedBytes.map C.sha3

lemma sha3_false (tx : TransactionBase) : sha3 C tx false = (tx.digest C).map fun d => (d, tx) := by
  rw [sha3, digest, unsignedBytes]
  simp only [Bool.false_eq_true, false_and, if_false, Bool.not_false, Bool.and_true]
  cases streamRLP tx {} false (decide (tx.m_chainId > 0)) with
  | error e => rfl
  | ok s =>
    simp only [bind, Except.bind]
    cases Eth.rlp s.out <;> rfl

variable {C} {tx : TransactionBase} {x : SignatureStruct}

/-! ### Reading back -/

/-- The fields of a transaction without signature and caches. -/
def unsigned (tx : TransactionBase) : TransactionBase :=
  { tx with m_vrs := none, m_chainId := -4, m_hashWith := 0, m_sender := 0 }

section ReadBack

variable {v : ℕ} {c : RLP.Cache}

lemma toInt_item {xs : List Item} (h : (encode (.list xs)).length ≤ maxLength) {y : U256}
    (hy : intItem y.toNat ∈ xs) :
    RLP.toInt 32 (encode (intItem y.toNat)) RLP.Strict = .ok y.toNat :=
  (toInt_data (length_encode_le_maxLength hy h)).mpr ⟨rfl, y.isLt⟩

lemma length_address (a : Address) : (hashBytes a).length = 20 :=
  length_fixed (by simpa using a.isLt)

/-- The place of the address is empty for a contract creation. -/
lemma isEmpty_address (hlen : (encode (.data tx.addressBytes)).length ≤ maxLength) :
    RLP.isEmpty (encode (.data tx.addressBytes)) = decide (tx.m_type ≠ .messageCall) := by
  rw [RLP.isEmpty_encode hlen, decide_eq_decide, addressBytes]
  split_ifs with hcall
  · have hne : hashBytes tx.m_receiveAddress ≠ [] := by
      rw [← length_pos_iff, length_address]
      norm_num
    exact ⟨fun h => absurd h hne, fun h => absurd hcall h⟩
  · exact ⟨fun _ => hcall, fun _ => rfl⟩

/-- The address that is read back. -/
lemma readAddress_items (hlen : (encode (.list (tx.items (.data tx.addressBytes) v x))).length ≤
      maxLength) (hc : OnItems (tx.items (.data tx.addressBytes) v x) c)
    (htype : tx.m_type ≠ .messageCall → tx.m_receiveAddress = 0) :
    readAddress (encode (.list (tx.items (.data tx.addressBytes) v x))) c =
      .ok (tx.m_receiveAddress, RLP.cacheAt (tx.items (.data tx.addressBytes) v x) 3) := by
  have hi : 3 < (tx.items (.data tx.addressBytes) v x).length := by simp [items]
  have e₁ := itemCached_list hlen hc hi
  have e₂ := itemCached_cacheAt hlen hi hi
  rw [show (tx.items (.data tx.addressBytes) v x)[3] = .data tx.addressBytes from rfl] at e₁ e₂
  have haddr : (encode (.data tx.addressBytes)).length ≤ maxLength :=
    length_encode_le_maxLength (by simp [items]) hlen
  rw [readAddress, e₁]
  by_cases hcall : tx.m_type = .messageCall
  · have hbytes : tx.addressBytes = hashBytes tx.m_receiveAddress := if_pos hcall
    have hread : RLP.toHash 20 (encode (.data tx.addressBytes)) RLP.VeryStrict =
        .ok tx.addressBytes := by
      have hsmall : tx.addressBytes.length < maxLength := RLP.length_payload_lt haddr
      rw [Rlp.encode_data, RLP.toHash_veryStrict_eq_ok hsmall]
      exact ⟨rfl, by rw [hbytes, length_address], rfl⟩
    simp only [rlp_ok, bind, Except.bind, isEmpty_address haddr, hcall, ne_eq, not_true,
      decide_false, Bool.false_eq_true, if_false, e₂, hread, pure, Except.pure]
    rw [hbytes, Sdag.Wire.ofHashBytes_hashBytes]
  · simp only [rlp_ok, bind, Except.bind, isEmpty_address haddr, hcall, ne_eq, not_false_iff,
      decide_true, if_true, pure, Except.pure, htype hcall]

/-- The first six fields that are read back. -/
lemma readFields_items
    (hlen : (encode (.list (tx.items (.data tx.addressBytes) v x))).length ≤ maxLength)
    (htype : tx.m_type ≠ .messageCall → tx.m_receiveAddress = 0)
    (hnull : tx.m_type ≠ .nullTransaction) :
    readFields (encode (.list (tx.items (.data tx.addressBytes) v x))) =
      .ok (tx.unsigned, RLP.cacheAt (tx.items (.data tx.addressBytes) v x) 5) := by
  have hmem : ∀ y ∈ tx.items (.data tx.addressBytes) v x, (encode y).length ≤ maxLength :=
    fun y hy => length_encode_le_maxLength hy hlen
  have e₄ := readAddress_items hlen (onItems_cacheAt (i := 3) (by simp [items])) htype
  have hdata : (encode (.data tx.m_data)).length ≤ maxLength := hmem _ (by simp [items])
  have hisData : RLP.isData (encode (.data tx.m_data)) = true := by
    rw [RLP.isData_encode hdata]
    rfl
  have hempty := isEmpty_address (hmem (.data tx.addressBytes) (by simp [items]))
  have hkind : (if decide (tx.m_type ≠ .messageCall) = true then TransactionType.contractCreation
      else .messageCall) = tx.m_type := by
    cases htx : tx.m_type with
    | nullTransaction => exact absurd htx hnull
    | contractCreation => rfl
    | messageCall => rfl
  have hnonce := toInt_item hlen (y := tx.m_nonce) (by simp [items])
  have hprice := toInt_item hlen (y := tx.m_gasPrice) (by simp [items])
  have hgas := toInt_item hlen (y := tx.m_gas) (by simp [items])
  have hvalue := toInt_item hlen (y := tx.m_value) (by simp [items])
  unfold items at hlen e₄ ⊢
  simp (disch := simp) only [readFields, itemCached_new hlen, itemCached_cacheAt hlen, e₄,
    getElem_cons_succ, getElem_cons_zero, rlp_ok, bind, Except.bind, hnonce, hprice, hgas,
    hvalue, hisData, Bool.not_true,
    Bool.false_eq_true, if_false, RLP.toBytes_encode hdata, hempty, hkind, BitVec.ofNat_toNat,
    BitVec.setWidth_eq]
  rfl

/-- A chain id whose numbers for the recovery ids can be read. -/
def ReadableChain (chainId : ℤ) : Prop :=
  chainId = -4 ∨ 0 < chainId ∧ 2 * chainId + 36 < 2 ^ 31

lemma SignatureStruct.not_zero (hx : x.isValid = true) : isZeroSignature x.r x.s = false := by
  simp only [SignatureStruct.isValid, Bool.and_eq_true, decide_eq_true_eq] at hx
  have hr : x.r ≠ 0 := by
    rintro h0
    rw [h0] at hx
    exact absurd hx.1.1.1.2 (by decide)
  rw [isZeroSignature, beq_eq_false_iff_ne.mpr hr, Bool.false_and]

lemma SignatureStruct.v_le (hx : x.isValid = true) : x.v.toNat ≤ 1 := by
  simp only [SignatureStruct.isValid, Bool.and_eq_true, decide_eq_true_eq] at hx
  exact UInt8.le_iff_toNat_le.mp hx.1.1.1.1

/-- The number that is written for the recovery id, as an `int`. -/
lemma toInt32_vNumber (hx : x.isValid = true) (hvrs : tx.m_vrs = some x)
    (hchain : ReadableChain tx.m_chainId) :
    toInt32 (tx.vNumber x) = x.v.toNat + (tx.m_chainId * 2 + 35) := by
  have hv := SignatureStruct.v_le hx
  have hzero : tx.hasZeroSignature = false := by
    rw [hasZeroSignature, hvrs]
    exact SignatureStruct.not_zero hx
  have hrange : 0 ≤ (x.v.toNat : ℤ) + (tx.m_chainId * 2 + 35) ∧
      (x.v.toNat : ℤ) + (tx.m_chainId * 2 + 35) < 2 ^ 31 := by
    rcases hchain with h | ⟨h, h'⟩ <;> constructor <;> omega
  rw [vNumber, hzero, if_neg (by simp), toUnsigned, Int.emod_eq_of_lt hrange.1 (by omega),
    toInt32, if_pos (by omega), Int.toNat_of_nonneg hrange.1]

/-- The signature that is read back. -/
lemma setSignature_vNumber (hx : x.isValid = true) (hvrs : tx.m_vrs = some x)
    (hchain : ReadableChain tx.m_chainId) (check : CheckTransaction) :
    setSignature tx.unsigned (toInt32 (tx.vNumber x)) x.r x.s check =
      .ok { tx with m_hashWith := 0, m_sender := 0 } := by
  have hv := SignatureStruct.v_le hx
  have hid : chainIdOf (x.v.toNat + (tx.m_chainId * 2 + 35)) = .ok tx.m_chainId := by
    rcases hchain with h | ⟨h, -⟩
    · rw [chainIdOf, if_neg (by omega), if_pos (by omega), h]
      rfl
    · rw [chainIdOf, if_pos (by omega)]
      have hdiv : ((x.v.toNat : ℤ) + (tx.m_chainId * 2 + 35) - 35).tdiv 2 = tx.m_chainId := by
        rw [Int.tdiv_eq_ediv_of_nonneg (by omega)]
        omega
      rw [hdiv]
      rfl
  have hrec : UInt8.ofNat (((x.v.toNat : ℤ) + (tx.m_chainId * 2 + 35) -
      (tx.m_chainId * 2 + 35)) % 256).toNat = x.v := by
    rw [add_sub_cancel_right, Int.emod_eq_of_lt (by omega) (by omega), Int.toNat_natCast,
      UInt8.ofNat_toNat]
  rw [toInt32_vNumber hx hvrs hchain, setSignature, SignatureStruct.not_zero hx,
    if_neg (by simp), hid]
  simp only [bind, Except.bind, hrec, hx, Bool.not_true, Bool.and_false, Bool.false_eq_true,
    if_false]
  rw [show (⟨x.r, x.s, x.v⟩ : SignatureStruct) = x from rfl, ← hvrs]
  rfl

/-- The signature that is read back from the items. -/
lemma readSignature_items
    (hlen : (encode (.list (tx.items (.data tx.addressBytes) (tx.vNumber x) x))).length ≤ maxLength)
    (hc : OnItems (tx.items (.data tx.addressBytes) (tx.vNumber x) x) c) (hx : x.isValid = true)
    (hvrs : tx.m_vrs = some x) (hchain : ReadableChain tx.m_chainId) (check : CheckTransaction) :
    readSignature (encode (.list (tx.items (.data tx.addressBytes) (tx.vNumber x) x))) c
      tx.unsigned check = .ok { tx with m_hashWith := 0, m_sender := 0 } := by
  have hr := toInt_item hlen (y := x.r) (by simp [items])
  have hs := toInt_item hlen (y := x.s) (by simp [items])
  have hv : RLP.toInt 4 (encode (intItem (tx.vNumber x))) RLP.Strict = .ok (tx.vNumber x) := by
    refine (toInt_data (length_encode_le_maxLength (by simp [items, intItem]) hlen)).mpr ⟨rfl, ?_⟩
    unfold vNumber toUnsigned
    split_ifs <;> omega
  unfold items at hlen hc ⊢
  simp (disch := simp) only [readSignature, itemCached_list hlen hc, itemCached_cacheAt hlen,
    getElem_cons_succ, getElem_cons_zero, rlp_ok, bind, Except.bind, hv, hr, hs,
    BitVec.ofNat_toNat, BitVec.setWidth_eq]
  exact setSignature_vNumber hx hvrs hchain check

end ReadBack

/-- The sender that is recovered from a signature. -/
lemma sender_eq {d : H256} (hsender : tx.m_sender = 0) (hx : x.isValid = true)
    (hvrs : tx.m_vrs = some x) (hd : tx.digest C = .ok d) (hp : C.recover x d ≠ 0) :
    sender C tx =
      .ok { tx with m_sender := (C.sha3 (hashBytes (C.recover x d))).setWidth 160 } := by
  have hzero : tx.hasZeroSignature = false := by
    rw [hasZeroSignature, hvrs]
    exact SignatureStruct.not_zero hx
  rw [sender, if_neg (by simp [hsender]), hzero, if_neg (by simp)]
  split
  · next y hy =>
    obtain rfl : y = x := Option.some.inj (hy.symm.trans hvrs)
    simp only [sha3_false, hd, bind, Except.bind, Except.map, if_neg hp]
    rfl
  · next hnone =>
    rw [hnone] at hvrs
    cases hvrs

/-- Byte strings behind each other take nine bytes more each. -/
lemma length_encodeList_data_le (ds : List Bytes) (h : ∀ d ∈ ds, d.length < 2 ^ 64) :
    (encodeList (ds.map .data)).length ≤ (ds.map fun d => d.length + 9).sum := by
  induction ds with
  | nil => simp
  | cons d ds ih =>
    have hd := Rlp.length_frame_le (k := .data) (h d (by simp))
    have hrest := ih fun e he => h e (mem_cons_of_mem d he)
    simp only [map_cons, Rlp.encodeList_cons, Rlp.encode_data, length_append,
      sum_cons]
    omega

/-- The size of a signed transaction. -/
lemma length_items_le (hdata : tx.m_data.length < 2 ^ 63) :
    (encode (.list (tx.items (.data tx.addressBytes) (tx.vNumber x) x))).length ≤ maxLength := by
  have hint (y : U256) : (bytes y.toNat).length ≤ 32 :=
    length_bytes_le_iff.mpr (by simpa using y.isLt)
  have hv : (bytes (tx.vNumber x)).length ≤ 4 := by
    rw [length_bytes_le_iff]
    unfold vNumber toUnsigned
    split_ifs <;> omega
  have haddr : tx.addressBytes.length ≤ 20 := by
    unfold addressBytes
    split_ifs
    · rw [length_address]
    · simp
  have h₁ := hint tx.m_nonce
  have h₂ := hint tx.m_gasPrice
  have h₃ := hint tx.m_gas
  have h₄ := hint tx.m_value
  have h₅ := hint x.r
  have h₆ := hint x.s
  have hall := length_encodeList_data_le [bytes tx.m_nonce.toNat,
    bytes tx.m_gasPrice.toNat, bytes tx.m_gas.toNat, tx.addressBytes,
    bytes tx.m_value.toNat, tx.m_data, bytes (tx.vNumber x),
    bytes x.r.toNat, bytes x.s.toNat] (by
      simp only [mem_cons, not_mem_nil, or_false]
      rintro d (rfl | rfl | rfl | rfl | rfl | rfl | rfl | rfl | rfl) <;> omega)
  have hsum : (encodeList (tx.items (.data tx.addressBytes) (tx.vNumber x) x)).length ≤
      2 ^ 63 + 400 := by
    refine hall.trans ?_
    simp only [map_cons, map_nil, sum_cons, sum_nil]
    omega
  have hframe := Rlp.length_frame_le (k := .list)
    (p := encodeList (tx.items (.data tx.addressBytes) (tx.vNumber x) x)) (by omega)
  rw [Rlp.encode_list]
  unfold maxLength
  omega

/-- **A transaction with a valid signature is read back.** The bytes that `rlp` writes are accepted
with all checks, and give the transaction with the sender that the signature has. -/
theorem ofRlp_rlp {d : H256} (hnull : tx.m_type ≠ .nullTransaction)
    (htype : tx.m_type ≠ .messageCall → tx.m_receiveAddress = 0)
    (hdata : tx.m_data.length < 2 ^ 63) (hx : x.isValid = true) (hvrs : tx.m_vrs = some x)
    (hchain : ReadableChain tx.m_chainId) (hd : tx.digest C = .ok d) (hp : C.recover x d ≠ 0) :
    ∃ b, tx.rlp true = .ok b ∧ streamRLP tx {} true false = .ok ⟨b, []⟩ ∧
      ofRlp C b .everything = .ok { tx with
        m_hashWith := 0, m_sender := (C.sha3 (hashBytes (C.recover x d))).setWidth 160 } := by
  have hlen := length_items_le (x := x) hdata
  obtain ⟨hstream, hrlp⟩ := rlp_eq hnull hvrs
    ((Rlp.length_encodeList_le _).trans_lt (hlen.trans_lt (by norm_num [maxLength])))
  refine ⟨_, hrlp, hstream, ?_⟩
  have hfields := readFields_items hlen htype hnull
  have hc : OnItems (tx.items (.data tx.addressBytes) (tx.vNumber x) x) (RLP.cacheAt _ 5) :=
    onItems_cacheAt (by simp [items])
  have hsender := @sender_eq C { tx with m_hashWith := 0, m_sender := 0 } x d rfl hx hvrs hd hp
  have hcount := RLP.itemCount_list hlen
  rw [ofRlp, RLP.ofBytes_encode hlen]
  simp only [rlp_ok, bind, Except.bind, RLP.isList_list hlen, Bool.not_true, Bool.false_eq_true,
    if_false, hfields, readSignature_items hlen hc hx hvrs hchain, checkSender, if_true, hsender,
    checkCount, hcount]
  rfl

/-! ### Runs -/

/-- A transaction that can be signed: its type is written, the decoder knows its chain, and the
caches are empty. -/
structure Signable (tx : TransactionBase) : Prop where
  type : tx.m_type ≠ .nullTransaction
  address : tx.m_type = .contractCreation → tx.m_receiveAddress = 0
  chain : ReadableChain tx.m_chainId
  hash : tx.m_hashWith = 0
  sender : tx.m_sender = 0

variable (C)

/-- The states of the runs in which only signable transactions are signed. -/
inductive Reached : TransactionBase → Prop where
  | start {tx : TransactionBase} (h : Constructed C tx) : Reached tx
  | step {tx : TransactionBase} (hs : Reached tx) (c : TxCall)
      (hc : ∀ priv, c = .sign priv → tx.Signable) : Reached (tx.after C c)

/-- The address of a public key. -/
def toAddress (p : BitVec 512) : Address := (C.sha3 (hashBytes p)).setWidth 160

/-- The transaction is signed by a key with the public key `p`: `sender` gives its address,
`sha3(WithSignature)` is the hash of `rlp`, and the decoder reads the transaction back, with that
sender. -/
structure SignedBy (p : BitVec 512) (tx : TransactionBase) : Prop where
  sender : (sender C tx).map m_sender = .ok (toAddress C p)
  rlp : ∃ b, tx.rlp true = .ok b ∧ (sha3 C tx true).map Prod.fst = .ok (C.sha3 b) ∧
    ofRlp C b .everything = .ok { tx with m_hashWith := 0, m_sender := toAddress C p }

variable {C}

lemma data_sha3 {sig : Bool} {y : H256 × TransactionBase} (h : sha3 C tx sig = .ok y) :
    y.2.m_data = tx.m_data := by
  rw [sha3] at h
  split_ifs at h with hcache
  · rw [← Except.ok.inj h]
  all_goals
    obtain ⟨s, -, h⟩ := bind_eq_ok_iff.mp h
    obtain ⟨b, -, h⟩ := bind_eq_ok_iff.mp h
    rw [← Except.ok.inj h]

/-- `sign` replaces the signature by a valid one. -/
lemma sign_eq (tx : TransactionBase) (priv : BitVec 256) :
    sign C tx priv = (tx.digest C).map fun d =>
    if (C.sign priv d).isValid then { tx with m_vrs := some (C.sign priv d) } else tx := by
  rw [sign, sha3_false]
  cases tx.digest C <;> rfl

/-- The data of a transaction stays. -/
lemma data_after (c : TxCall) : (tx.after C c).m_data = tx.m_data := by
  cases c with
  | setNonce n => rfl
  | sign priv =>
    rw [after, sign_eq]
    cases tx.digest C with
    | error e => rfl
    | ok d =>
      change (if (C.sign priv d).isValid then _ else tx).m_data = _
      split_ifs <;> rfl
  | sha3 sig =>
    rw [after]
    cases h : sha3 C tx sig with
    | error e => rfl
    | ok y => exact data_sha3 h
  | sender =>
    rw [after]
    cases h : sender C tx with
    | error e => rfl
    | ok tx' =>
      have hcheck : checkSender C tx .everything = .ok tx' := by rwa [checkSender, if_pos rfl]
      obtain ⟨a, rfl⟩ := checkSender_spec hcheck
      rfl
  | rlp sig => rfl

/-- The data of a transaction is a byte vector. -/
lemma Reached.data_lt (h : Reached C tx) : tx.m_data.length < 2 ^ 63 := by
  induction h with
  | @start t h =>
    cases h with
    | null => simp
    | skeleton ts h => exact h
    | messageCall value gasPrice gas dest data nonce h => exact h
    | contractCreation value gasPrice gas data nonce h => exact h
    | decoded b check _ hb h =>
      obtain ⟨-, addr, x, -, -, rfl, -⟩ := exists_items_of_ofRlp h
      have hitem : .data t.m_data ∈ t.items addr (t.vNumber x) x := by simp [items]
      have hmem := Rlp.length_encode_le_of_mem_list hitem
      have hdata := Rlp.length_le_length_frame .data t.m_data
      rw [Rlp.encode_data] at hmem
      omega
  | step hs c hc ih => rwa [data_after]

/-- **Signing in runs.** If only signable transactions are signed, then after each call of `sign`
that stores a signature the transaction is signed by that key: its sender, its hash and the bytes
that are read back are the right ones. The library's `recover` is assumed to give the public key
back from a signature and the digest that was signed. -/
theorem signedBy_of_signable {pub : BitVec 256 → BitVec 512}
    (hrecover : ∀ k d, (C.sign k d).isValid = true → C.recover (C.sign k d) d = pub k ∧ pub k ≠ 0)
    (hs : Reached C tx) (hsign : tx.Signable) {k : BitVec 256} {d : H256}
    (hd : tx.digest C = .ok d) (hvalid : (C.sign k d).isValid = true) :
    SignedBy C (pub k) (tx.after C (.sign k)) := by
  obtain ⟨hk, hne⟩ := hrecover k d hvalid
  set tx' : TransactionBase := { tx with m_vrs := some (C.sign k d) } with htx'
  have hafter : tx.after C (.sign k) = tx' := by
    rw [after, sign_eq, hd]
    change (if (C.sign k d).isValid then _ else tx) = _
    rw [if_pos hvalid]
  have htype : tx'.m_type ≠ .messageCall → tx'.m_receiveAddress = 0 := by
    intro hcall
    refine hsign.address ?_
    cases htx : tx.m_type with
    | nullTransaction => exact absurd htx hsign.type
    | contractCreation => rfl
    | messageCall => exact absurd htx hcall
  have hp : C.recover (C.sign k d) d ≠ 0 := by rwa [hk]
  have hd' : tx'.digest C = .ok d := hd
  have hsender := @sender_eq C tx' _ d hsign.sender hvalid rfl hd' hp
  obtain ⟨b, hrlp, hstream, hread⟩ :=
    @ofRlp_rlp C tx' _ d hsign.type htype hs.data_lt hvalid rfl hsign.chain hd' hp
  rw [hk] at hsender hread
  have hhash : (sha3 C tx' true).map Prod.fst = .ok (C.sha3 b) := by
    rw [sha3, if_neg (by simp [htx', hsign.hash])]
    simp only [Bool.not_true, Bool.and_false, hstream, bind, Except.bind]
    rfl
  rw [hafter]
  exact ⟨by rw [hsender]; rfl, b, hrlp, hhash, hread⟩

/-! ### A transaction that is signed twice -/

/-- A library whose signatures carry the secret, which is also the public key. -/
def plainCrypto : Crypto where
  sha3 := fun b => BitVec.ofNat 256 ((b.map UInt8.toNat).sum + 1)
  sign := fun k _ => ⟨1, k, 0⟩
  recover := fun x _ => x.s.setWidth 512

lemma plainCrypto_recover (k : BitVec 256) (d : H256) (h : (plainCrypto.sign k d).isValid = true) :
    plainCrypto.recover (plainCrypto.sign k d) d = k.setWidth 512 ∧ k.setWidth 512 ≠ 0 := by
  refine ⟨rfl, fun hk => ?_⟩
  have hpos : 0 < k := by
    simp only [SignatureStruct.isValid, Bool.and_eq_true, decide_eq_true_eq] at h
    exact h.1.1.2
  have hzero : k = 0 := by
    have h256 := congrArg (BitVec.setWidth 256) hk
    simpa using h256
  rw [hzero] at hpos
  exact absurd hpos (by decide)

/-- A transfer that has not been signed. -/
def transfer : TransactionBase := messageCall 5 1 21000 7 [] 0

/-- The transfer, signed with the key `1`, with the nonce changed after that. -/
def renonced : TransactionBase :=
  (transfer.after plainCrypto (.sign 1)).after plainCrypto (.setNonce 3)

/-- The transfer with the new nonce is signed by the key `2`. -/
theorem signedBy_of_signable_transfer :
    SignedBy plainCrypto ((2 : BitVec 256).setWidth 512)
      (renonced.after plainCrypto (.sign 2)) := by
  have htransfer : transfer.Signable := by
    refine ⟨?_, ?_, Or.inl rfl, rfl, rfl⟩ <;> decide
  have hs : Reached plainCrypto renonced :=
    .step (.step (.start (.messageCall 5 1 21000 7 [] 0 (by simp))) _ fun _ _ => htransfer) _
      fun _ h => nomatch h
  have hsign : renonced.Signable := by
    refine ⟨?_, ?_, Or.inl ?_, ?_, ?_⟩ <;> decide +kernel
  have hd : renonced.digest plainCrypto = .ok 733 := by decide +kernel
  exact signedBy_of_signable plainCrypto_recover hs hsign hd (by decide +kernel)

/-- The transfer, signed with the key `1`, asked for its sender, and signed with the key `2`. -/
def signedTwice : TransactionBase :=
  ((transfer.after plainCrypto (.sign 1)).after plainCrypto .sender).after plainCrypto (.sign 2)

/-- The signature is the one of the second key, and the sender is still the first. -/
theorem sender_stale :
    signedTwice.m_vrs = some (plainCrypto.sign 2 858) ∧
      signedTwice.digest plainCrypto = .ok 858 ∧
      (sender plainCrypto signedTwice).map m_sender =
        .ok (toAddress plainCrypto ((1 : BitVec 256).setWidth 512)) ∧
      toAddress plainCrypto ((1 : BitVec 256).setWidth 512) ≠
        toAddress plainCrypto ((2 : BitVec 256).setWidth 512) := by
  decide +kernel

end TransactionBase

end Tos.Eth
