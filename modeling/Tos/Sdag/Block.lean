import Tos.Foundation.Method
import Tos.Rlp.Writer
import Tos.Rlp.Reader
import Tos.Sdag.Pool

/-!
# Blocks on the wire

The class `Block` of `sdag/Block.h` with the fields that are written to the wire and the caches
its methods keep: the stream of the unsigned part, the last encoding, the hash and the sender.
A method may throw in the middle of its work and leaves the object as far as it got, so a method
is a state transformer that returns its outcome together with the object. (The local variables
`m_type`, `m_status`, `m_sumDifficulty` and `m_refMainBlock` are not touched by these methods;
they are in `Tos.Sdag.Pool`.)

## Main results

* `Block.getStreamWithoutRSV_on`, `Block.encode_on`: the methods write the textbook
  encodings of these trees.
* `Content.item_injective`: the tree of the unsigned part determines it.
-/

namespace Tos.Sdag.Wire

open List
open Rlp (Item)
open RLP (Cache Strict bind_eq_ok_iff isList itemCached maxLength toInt)

/-- `h160`. -/
abbrev Address := BitVec 160

/-- `u256`. -/
abbrev U256 := BitVec 256

/-- The class `BlockHeader`. The time is a time stamp of the clock or has been read by
`toPositiveInt64`, so it is not negative. -/
structure BlockHeader where
  m_type : U256 := 0
  m_time : BitVec 63 := 0
  m_gasPrice : U256 := 0
  m_gasLimit : U256 := 0
  deriving DecidableEq

structure OutputStruct where
  addr : Address
  amount : U256
  deriving DecidableEq

structure BlockLinkStruct where
  blockHash : H256
  gasUsed : U256
  deriving DecidableEq

structure SignatureStruct where
  r : H256
  s : H256
  v : UInt8
  deriving DecidableEq

/-- The class `Block`: the fields that are written to the wire, and the private caches. -/
structure Block where
  m_blockHeader : BlockHeader := {}
  m_outputs : List OutputStruct := []
  m_links : List BlockLinkStruct := []
  m_payload : Bytes := []
  m_vrs : Option SignatureStruct := none
  m_nonce : U256 := 0
  m_sender : Address := 0
  m_unSignStream : RLPStream := {}
  m_hash : H256 := 0
  m_rlpData : Bytes := []
  deriving DecidableEq

/-- The ways a method of a block fails to return. -/
inductive BlockError where
  | rlp (e : RlpError)
  /-- `m_vrs` is dereferenced while it holds no signature. -/
  | noSignature
  /-- A loop with an `unsigned int` counter over `2 ^ 32` or more elements never ends. -/
  | diverges
  deriving DecidableEq

/-- A method of a class with objects `σ`: its outcome, and the object it leaves. -/
abbrev MethodM (σ : Type) := Method BlockError σ

abbrev BlockM := MethodM Block

/-- A call of the RLP library. -/
def rlp {σ α : Type} (x : Except RlpError α) : MethodM σ α := Method.call .rlp x

/-! ### Writing -/

/-- `BlockHeader::encode`. -/
def BlockHeader.encode (h : BlockHeader) (stream : RLPStream) : Except RlpError RLPStream := do
  let stream ← stream.appendList 4
  let stream ← stream.appendInt h.m_type.toNat
  let stream ← stream.appendInt h.m_time.toNat
  let stream ← stream.appendInt h.m_gasPrice.toNat
  stream.appendInt h.m_gasLimit.toNat

/-- An output or a link on a stream of its own: a hash and an integer. -/
def pairStream (hash : Bytes) (i : ℕ) : Except RlpError RLPStream := do
  let s ← RLPStream.appendList {} 2
  let s ← s.append hash
  s.appendInt i

/-- The outputs or the links on a stream of their own. -/
def pairsStream (ps : List (Bytes × ℕ)) : Except RlpError RLPStream := do
  let s ← RLPStream.appendList {} ps.length
  ps.foldlM (fun s p => do s.appendRaw (← (← pairStream p.1 p.2).out) 1) s

/-- The bytes of the outputs or the links. The counter of the loop over them is an
`unsigned int`. -/
def encodePairs (ps : List (Bytes × ℕ)) : BlockM Bytes :=
  if 2 ^ 32 ≤ ps.length then throw .diverges
  else do rlp (← rlp (pairsStream ps)).out

/-- An operation on `m_unSignStream`. -/
def unSign (f : RLPStream → Except RlpError RLPStream) : BlockM Unit := do
  let s ← rlp (f (← get).m_unSignStream)
  modify fun b => { b with m_unSignStream := s }

/-- What is written of the outputs. -/
def outputPairs (outputs : List OutputStruct) : List (Bytes × ℕ) :=
  outputs.map fun o => (hashBytes o.addr, o.amount.toNat)

/-- What is written of the links. -/
def linkPairs (links : List BlockLinkStruct) : List (Bytes × ℕ) :=
  links.map fun l => (hashBytes l.blockHash, l.gasUsed.toNat)

namespace Block

/-- `Block::getStreamWithoutRSV`. -/
def getStreamWithoutRSV : BlockM RLPStream := do
  modify fun b => { b with m_unSignStream := {} }
  let headerStream ← rlp ((← get).m_blockHeader.encode {})
  unSign (·.appendList 4)
  let header ← rlp headerStream.out
  unSign (·.appendRaw header 1)
  let outputs ← encodePairs (outputPairs (← get).m_outputs)
  unSign (·.appendRaw outputs 1)
  let links ← encodePairs (linkPairs (← get).m_links)
  unSign (·.appendRaw links 1)
  let payload := (← get).m_payload
  unSign (·.append payload)
  return (← get).m_unSignStream

/-- `*m_vrs`. -/
def vrs : BlockM SignatureStruct := do
  match (← get).m_vrs with
  | some x => return x
  | none => throw .noSignature

/-- `Block::encode`. -/
def encode : BlockM Bytes := do
  let bStream ← getStreamWithoutRSV
  let s ← rlp (RLPStream.appendList {} 5)
  let s ← rlp (s.appendRaw (← rlp bStream.out) 1)
  let x ← vrs
  let s ← rlp (s.appendInt x.v.toNat)
  let s ← rlp (s.appendInt x.r.toNat)
  let s ← rlp (s.appendInt x.s.toNat)
  let s ← rlp (s.appendInt (← get).m_nonce.toNat)
  let out ← rlp s.out
  modify fun b => { b with m_rlpData := out }
  return out

/-- `Block::getHash`. -/
def getHash (sha3 : Bytes → H256) : BlockM H256 := do
  if (← get).m_hash = 0 then
    if (← get).m_rlpData = [] then
      let _ ← encode
    modify fun b => { b with m_hash := sha3 b.m_rlpData }
  return (← get).m_hash

end Block

/-! ### Reading -/

/-- The constructor `BlockHeader(RLP)`. -/
def BlockHeader.ofRLP (x : Bytes) : Except RlpError BlockHeader := do
  if !isList x then throw .badCast
  let (x0, c) ← itemCached x {} 0
  let type ← toInt 32 x0 Strict
  let (x1, c) ← itemCached x c 1
  let time ← RLP.toPositiveInt64 x1 Strict
  let (x2, c) ← itemCached x c 2
  let gasPrice ← toInt 32 x2 Strict
  let (x3, _) ← itemCached x c 3
  let gasLimit ← toInt 32 x3 Strict
  return ⟨BitVec.ofNat 256 type, BitVec.ofNat 63 time, BitVec.ofNat 256 gasPrice,
    BitVec.ofNat 256 gasLimit⟩

/-- A hash of `size` bytes and an integer, the first two items of a list. -/
def readPair (size : ℕ) (x : Bytes) : Except RlpError (Bytes × ℕ) := do
  let (x0, c) ← itemCached x {} 0
  let hash ← RLP.toHash size x0 Strict
  let (x1, _) ← itemCached x c 1
  let i ← toInt 32 x1 Strict
  return (hash, i)

def OutputStruct.ofPair (p : Bytes × ℕ) : OutputStruct :=
  ⟨ofHashBytes 160 p.1, BitVec.ofNat 256 p.2⟩

def BlockLinkStruct.ofPair (p : Bytes × ℕ) : BlockLinkStruct :=
  ⟨ofHashBytes 256 p.1, BitVec.ofNat 256 p.2⟩

/-- The loop over the outputs or the links: `k` items from the item `i` on. -/
def readPairs (size : ℕ) (push : Bytes × ℕ → Block → Block) (x : Bytes) :
    ℕ → ℕ → Cache → BlockM Unit
  | 0, _, _ => pure ()
  | k + 1, i, c => do
    let (y, c) ← rlp (itemCached x c i)
    if isList y then
      let p ← rlp (readPair size y)
      modify (push p)
    readPairs size push x k (i + 1) c

/-- The outputs or the links: anything but a list is passed over. -/
def decodePairs (size : ℕ) (push : Bytes × ℕ → Block → Block) (x : Bytes) : BlockM Unit := do
  if isList x then
    let n ← rlp (RLP.itemCount x)
    readPairs size push x n 0 {}

namespace Block

/-- `m_outputs.push_back(out)`. -/
def pushOutput (p : Bytes × ℕ) (b : Block) : Block :=
  { b with m_outputs := b.m_outputs ++ [OutputStruct.ofPair p] }

/-- `m_links.push_back(link)`. -/
def pushLink (p : Bytes × ℕ) (b : Block) : Block :=
  { b with m_links := b.m_links ++ [BlockLinkStruct.ofPair p] }

/-- `Block::decodeBlockWithoutRSV`. -/
def decodeBlockWithoutRSV (x : Bytes) : BlockM Unit := do
  let (x0, c) ← rlp (itemCached x {} 0)
  let tHeader ← rlp (BlockHeader.ofRLP x0)
  modify fun b => { b with m_blockHeader := tHeader }
  let (outputs, c) ← rlp (itemCached x c 1)
  decodePairs 20 pushOutput outputs
  let (links, c) ← rlp (itemCached x c 2)
  decodePairs 32 pushLink links
  let (x3, _) ← rlp (itemCached x c 3)
  let payload ← rlp (RLP.toBytes x3 RLP.LaissezFaire)
  modify fun b => { b with m_payload := payload }

/-- `Block::decode`. Bytes that are not a list are ignored. -/
def decode (byts : Bytes) : BlockM Unit := do
  let x ← rlp (RLP.ofBytes byts RLP.VeryStrict)
  if isList x then
    let (x0, c) ← rlp (itemCached x {} 0)
    decodeBlockWithoutRSV x0
    let (x1, c) ← rlp (itemCached x c 1)
    let v ← rlp (toInt 4 x1 Strict)
    let (x2, c) ← rlp (itemCached x c 2)
    let r ← rlp (toInt 32 x2 Strict)
    let (x3, c) ← rlp (itemCached x c 3)
    let s ← rlp (toInt 32 x3 Strict)
    modify fun b => { b with
      m_vrs := some ⟨BitVec.ofNat 256 r, BitVec.ofNat 256 s, UInt8.ofNat v⟩ }
    let (x4, _) ← rlp (itemCached x c 4)
    let nonce ← rlp (toInt 32 x4 Strict)
    modify fun b => { b with m_nonce := BitVec.ofNat 256 nonce }

end Block

/-! ### Running methods -/

namespace MethodM

variable {σ α β : Type} {b b' : σ}

@[simp] lemma on_rlp_ok (a : α) : (rlp (.ok a) : MethodM σ α).on b = (.ok a, b) := rfl

@[simp] lemma on_rlp_error (e : RlpError) :
    (rlp (.error e : Except RlpError α) : MethodM σ α).on b = (.error (.rlp e), b) := rfl

lemma on_rlp_bind_eq_ok {x : Except RlpError α} {f : α → MethodM σ β} {y : β} :
    (rlp x >>= f).on b = (.ok y, b') ↔ ∃ a, x = .ok a ∧ (f a).on b = (.ok y, b') := by
  rw [Method.on_bind]
  cases x <;> simp

lemma keeps_rlp {γ : Type} {part : σ → γ} (x : Except RlpError α) :
    Method.Keeps part (rlp x : MethodM σ α) := Method.keeps_call _ x

end MethodM

/-! ### What decoding leaves alone -/

/-- The private caches of a block. -/
def Block.caches (b : Block) : Address × RLPStream × H256 × Bytes :=
  (b.m_sender, b.m_unSignStream, b.m_hash, b.m_rlpData)

open Method (Keeps keeps_pure keeps_modify)

open MethodM (keeps_rlp)

lemma keeps_readPairs {γ : Type} {part : Block → γ} {size : ℕ} {push : Bytes × ℕ → Block → Block}
    (h : ∀ p b, part (push p b) = part b) (x : Bytes) (k i : ℕ) (c : Cache) :
    Keeps part (readPairs size push x k i c) := by
  induction k generalizing i c with
  | zero => exact keeps_pure ()
  | succ k ih =>
    refine (keeps_rlp _).bind fun y => ?_
    refine Keeps.ite ?_ (ih _ _)
    exact (keeps_rlp _).bind fun p => (keeps_modify (h p)).bind fun _ => ih _ _

lemma keeps_decodePairs {γ : Type} {part : Block → γ} {size : ℕ}
    {push : Bytes × ℕ → Block → Block} (h : ∀ p b, part (push p b) = part b) (x : Bytes) :
    Keeps part (decodePairs size push x) :=
  Keeps.ite ((keeps_rlp _).bind fun _ => keeps_readPairs h _ _ _ _) (keeps_pure ())

lemma Block.keeps_decodeBlockWithoutRSV (x : Bytes) :
    Keeps Block.caches (decodeBlockWithoutRSV x) := by
  have houtputs : ∀ y, Keeps Block.caches (decodePairs 20 pushOutput y) :=
    keeps_decodePairs fun _ _ => rfl
  have hlinks : ∀ y, Keeps Block.caches (decodePairs 32 pushLink y) :=
    keeps_decodePairs fun _ _ => rfl
  unfold decodeBlockWithoutRSV
  refine (keeps_rlp _).bind fun _ => (keeps_rlp _).bind fun _ => ?_
  refine Keeps.bind (keeps_modify ?_) fun _ => ?_
  · exact fun _ => rfl
  refine (keeps_rlp _).bind fun _ => (houtputs _).bind fun _ => ?_
  refine (keeps_rlp _).bind fun _ => (hlinks _).bind fun _ => ?_
  exact (keeps_rlp _).bind fun _ => (keeps_rlp _).bind fun _ => keeps_modify fun _ => rfl

/-- Decoding does not touch the caches, even where it throws. -/
theorem Block.keeps_decode (byts : Bytes) : Keeps Block.caches (decode byts) := by
  unfold decode
  refine (keeps_rlp _).bind fun x => Keeps.ite ?_ (keeps_pure ())
  refine (keeps_rlp _).bind fun _ => (keeps_decodeBlockWithoutRSV _).bind fun _ => ?_
  refine (keeps_rlp _).bind fun _ => (keeps_rlp _).bind fun _ => ?_
  refine (keeps_rlp _).bind fun _ => (keeps_rlp _).bind fun _ => ?_
  refine (keeps_rlp _).bind fun _ => (keeps_rlp _).bind fun _ => ?_
  refine Keeps.bind (keeps_modify ?_) fun _ => ?_
  · exact fun _ => rfl
  exact (keeps_rlp _).bind fun _ => (keeps_rlp _).bind fun _ => keeps_modify fun _ => rfl

/-! ### The trees -/

/-- The tree of an integer. -/
def intItem (i : ℕ) : Item := .data (BigEndian.bytes i)

/-- The tree of an output or a link. -/
def pairItem (p : Bytes × ℕ) : Item := .list [.data p.1, intItem p.2]

def BlockHeader.item (h : BlockHeader) : Item :=
  .list [intItem h.m_type.toNat, intItem h.m_time.toNat, intItem h.m_gasPrice.toNat,
    intItem h.m_gasLimit.toNat]

/-- The unsigned part of a block. -/
@[ext] structure Content where
  header : BlockHeader
  outputs : List OutputStruct
  links : List BlockLinkStruct
  payload : Bytes
  deriving DecidableEq

def Content.item (c : Content) : Item :=
  .list [c.header.item, .list ((outputPairs c.outputs).map pairItem),
    .list ((linkPairs c.links).map pairItem), .data c.payload]

/-- The loops over the outputs and the links end, and the encoding has a size that RLP can
express. -/
structure Content.Encodable (c : Content) : Prop where
  outputs : c.outputs.length < 2 ^ 32
  links : c.links.length < 2 ^ 32
  size : (Rlp.encode c.item).length < maxLength

def Block.content (b : Block) : Content := ⟨b.m_blockHeader, b.m_outputs, b.m_links, b.m_payload⟩

/-- The tree of a block with the given signature. -/
def Block.item (b : Block) (x : SignatureStruct) : Item :=
  .list [b.content.item, intItem x.v.toNat, intItem x.r.toNat, intItem x.s.toNat,
    intItem b.m_nonce.toNat]

lemma intItem_injective : Function.Injective intItem := fun _ _ h =>
  BigEndian.bytes_injective (Item.data.inj h)

lemma pairItem_injective : Function.Injective pairItem := by
  rintro ⟨x, i⟩ ⟨y, j⟩ h
  simp only [pairItem, Item.list.injEq, List.cons.injEq, Item.data.injEq, and_true] at h
  rw [h.1, intItem_injective h.2]

lemma outputPairs_injective : Function.Injective outputPairs := by
  refine map_injective_iff.mpr ?_
  rintro ⟨a, i⟩ ⟨c, j⟩ h
  simp only [Prod.mk.injEq] at h
  rw [hashBytes_injective h.1, BitVec.eq_of_toNat_eq h.2]

lemma linkPairs_injective : Function.Injective linkPairs := by
  refine map_injective_iff.mpr ?_
  rintro ⟨a, i⟩ ⟨c, j⟩ h
  simp only [Prod.mk.injEq] at h
  rw [hashBytes_injective h.1, BitVec.eq_of_toNat_eq h.2]

lemma BlockHeader.item_injective : Function.Injective BlockHeader.item := by
  rintro ⟨t, m, p, l⟩ ⟨t', m', p', l'⟩ h
  simp only [BlockHeader.item, Item.list.injEq, List.cons.injEq, intItem_injective.eq_iff,
    and_true] at h
  obtain ⟨ht, hm, hp, hl⟩ := h
  rw [BitVec.eq_of_toNat_eq ht, BitVec.eq_of_toNat_eq hm, BitVec.eq_of_toNat_eq hp,
    BitVec.eq_of_toNat_eq hl]

/-- The tree of the unsigned part determines it. -/
theorem Content.item_injective : Function.Injective Content.item := by
  intro c c' h
  simp only [Content.item, Item.list.injEq, List.cons.injEq, Item.data.injEq, and_true,
    (map_injective_iff.mpr pairItem_injective).eq_iff] at h
  exact Content.ext (BlockHeader.item_injective h.1) (outputPairs_injective h.2.1)
    (linkPairs_injective h.2.2.1) h.2.2.2

/-! ### Writing a block -/

open RLPStream (Appends appends_append appends_appendInt appends_appendRaw appends_foldlM)

/-- Integers of at most `2 ^ 256` have short encodings. -/
lemma length_bytes_toNat_le {w : ℕ} (hw : w ≤ 256) (x : BitVec w) :
    (BigEndian.bytes x.toNat).length ≤ 32 := by
  refine BigEndian.length_bytes_le_iff.mpr (lt_of_lt_of_le x.isLt ?_)
  calc 2 ^ w ≤ 2 ^ 256 := Nat.pow_le_pow_right (by norm_num) hw
    _ = 256 ^ 32 := by norm_num

lemma length_intItem_le {w : ℕ} (hw : w ≤ 256) (x : BitVec w) :
    (Rlp.encode (intItem x.toNat)).length ≤ 41 := by
  have h := length_bytes_toNat_le hw x
  rw [intItem, Rlp.encode_data]
  exact (Rlp.length_frame_le (by omega)).trans (by omega)

lemma appends_int {w : ℕ} (hw : w ≤ 256) (x : BitVec w) :
    Appends 1 (fun s => s.appendInt x.toNat) [intItem x.toNat] :=
  appends_appendInt (by have := length_bytes_toNat_le hw x; omega)

/-- The header. -/
lemma BlockHeader.appends_encode (h : BlockHeader) : Appends 1 h.encode [h.item] := by
  have hx : (Rlp.encodeList [intItem h.m_type.toNat, intItem h.m_time.toNat,
      intItem h.m_gasPrice.toNat, intItem h.m_gasLimit.toNat]).length < 2 ^ 64 := by
    have h1 := length_intItem_le le_rfl h.m_type
    have h2 := length_intItem_le (by norm_num) h.m_time
    have h3 := length_intItem_le le_rfl h.m_gasPrice
    have h4 := length_intItem_le le_rfl h.m_gasLimit
    simp only [Rlp.encodeList_cons, Rlp.encodeList_nil, length_append, length_nil]
    omega
  have hitems := (appends_int le_rfl h.m_type).cons <|
    (appends_int (by norm_num) h.m_time).cons <|
    (appends_int le_rfl h.m_gasPrice).cons (appends_int le_rfl h.m_gasLimit).last
  exact hitems.opened hx

/-- A function that appends one tree leaves its encoding on a stream of its own. -/
lemma run_empty_of_appends {g : RLPStream → Except RlpError RLPStream} {n : ℕ} {x : Item}
    (h : Appends n g [x]) : g {} = .ok ⟨Rlp.encode x, []⟩ := by
  simpa using h.run_empty

lemma out_mk (out : Bytes) : RLPStream.out ⟨out, []⟩ = .ok out := rfl

/-- A byte string in an encoding that has a size has a size. -/
lemma length_lt_of_mem {d : Bytes} {xs : List Item} (h : .data d ∈ xs)
    (hx : (Rlp.encodeList xs).length < 2 ^ 64) : d.length < 2 ^ 64 := by
  have hd := Rlp.length_encode_le_of_mem h
  rw [Rlp.encode_data] at hd
  exact lt_of_le_of_lt ((Rlp.length_le_length_frame .data d).trans hd) hx

lemma pairStream_eq {p : Bytes × ℕ} (hp : (Rlp.encode (pairItem p)).length < 2 ^ 64) :
    pairStream p.1 p.2 = .ok ⟨Rlp.encode (pairItem p), []⟩ := by
  have hx := lt_of_le_of_lt (Rlp.length_encodeList_le _) hp
  have hd : p.1.length < 2 ^ 64 := length_lt_of_mem (by simp) hx
  have hi : (BigEndian.bytes p.2).length < 2 ^ 64 := length_lt_of_mem (by simp [intItem]) hx
  exact run_empty_of_appends (((appends_append hd).cons (appends_appendInt hi).last).opened hx)

lemma pairsStream_eq {ps : List (Bytes × ℕ)}
    (hps : (Rlp.encode (.list (ps.map pairItem))).length < 2 ^ 64) :
    pairsStream ps = .ok ⟨Rlp.encode (.list (ps.map pairItem)), []⟩ := by
  have hx := lt_of_le_of_lt (Rlp.length_encodeList_le _) hps
  have hloop : Appends (ps.map pairItem).length (fun s => ps.foldlM (fun s p => do
      s.appendRaw (← (← pairStream p.1 p.2).out) 1) s) (ps.map pairItem) := by
    refine appends_foldlM ps fun p hp => ?_
    have hmem := Rlp.length_encode_le_of_mem (mem_map_of_mem (f := pairItem) hp)
    rw [pairStream_eq (lt_of_le_of_lt hmem hx)]
    exact appends_appendRaw (pairItem p)
  have h := run_empty_of_appends (hloop.opened hx)
  rwa [length_map] at h

/-- The bytes of the outputs or the links. -/
lemma encodePairs_on (ps : List (Bytes × ℕ)) (hlen : ps.length < 2 ^ 32)
    (hps : (Rlp.encode (.list (ps.map pairItem))).length < 2 ^ 64) (b : Block) :
    (encodePairs ps).on b = (.ok (Rlp.encode (.list (ps.map pairItem))), b) := by
  rw [encodePairs, if_neg (by omega), pairsStream_eq hps]
  rfl

namespace Block

/-- **The stream of the unsigned part** holds the textbook encoding of its tree. -/
theorem getStreamWithoutRSV_on {b : Block} (h : b.content.Encodable) :
    getStreamWithoutRSV.on b = (.ok ⟨Rlp.encode b.content.item, []⟩,
      { b with m_unSignStream := ⟨Rlp.encode b.content.item, []⟩ }) := by
  have houtputs : (outputPairs b.m_outputs).length < 2 ^ 32 := by
    rw [outputPairs, length_map]
    exact h.outputs
  have hlinks : (linkPairs b.m_links).length < 2 ^ 32 := by
    rw [linkPairs, length_map]
    exact h.links
  have hx := (Rlp.length_encodeList_le _).trans_lt (h.size.trans (by norm_num [maxLength] :
    maxLength < 2 ^ 64))
  have hheader := run_empty_of_appends b.m_blockHeader.appends_encode
  have hos := encodePairs_on (outputPairs b.m_outputs) houtputs
    (lt_of_le_of_lt (Rlp.length_encode_le_of_mem (by simp [content])) hx)
  have hls := encodePairs_on (linkPairs b.m_links) hlinks
    (lt_of_le_of_lt (Rlp.length_encode_le_of_mem (by simp [content])) hx)
  have hpayload : b.m_payload.length < 2 ^ 64 := length_lt_of_mem (by simp [content]) hx
  -- the operations on `m_unSignStream`, one by one
  have hall := run_empty_of_appends (((appends_appendRaw b.m_blockHeader.item).cons <|
    (appends_appendRaw (.list ((outputPairs b.m_outputs).map pairItem))).cons <|
    (appends_appendRaw (.list ((linkPairs b.m_links).map pairItem))).cons
      (appends_append hpayload).last).opened hx)
  obtain ⟨s₁, h₁, hall⟩ := bind_eq_ok_iff.mp hall
  obtain ⟨s₂, h₂, hall⟩ := bind_eq_ok_iff.mp hall
  obtain ⟨s₃, h₃, hall⟩ := bind_eq_ok_iff.mp hall
  obtain ⟨s₄, h₄, h₅⟩ := bind_eq_ok_iff.mp hall
  simp only [length_cons, length_nil, Nat.reduceAdd] at h₁
  simp only [getStreamWithoutRSV, Method.on_bind, unSign, Method.on_modify, Method.on_get,
    MethodM.on_rlp_ok, Method.on_pure, hheader, out_mk, h₁, h₂, h₃, h₄, h₅, hos, hls]
  rfl

lemma vrs_on (b : Block) :
    vrs.on b = (match b.m_vrs with
      | some x => .ok x
      | none => .error .noSignature, b) := by
  rw [vrs, Method.on_bind, Method.on_get]
  cases h : b.m_vrs <;> simp only [h] <;> rfl

/-- The object after the unsigned part has been written to its stream. -/
def rebuilt (b : Block) : Block :=
  { b with m_unSignStream := ⟨Rlp.encode b.content.item, []⟩ }

/-- The items of an encodable block, with the header of a list, have a size. -/
lemma length_items_lt {b : Block} (h : b.content.Encodable) (x : SignatureStruct) :
    (Rlp.encodeList [b.content.item, intItem x.v.toNat, intItem x.r.toNat,
      intItem x.s.toNat, intItem b.m_nonce.toNat]).length + 9 < 2 ^ 64 := by
  have h0 := h.size
  simp only [maxLength] at h0
  have h1 := length_intItem_le (by norm_num) x.v.toBitVec
  have h2 := length_intItem_le le_rfl x.r
  have h3 := length_intItem_le le_rfl x.s
  have h4 := length_intItem_le le_rfl b.m_nonce
  simp only [UInt8.toNat_toBitVec] at h1
  simp only [Rlp.encodeList_cons, Rlp.encodeList_nil, length_append, length_nil]
  omega

/-- **The encoding of a block** is the textbook encoding of its tree. -/
theorem encode_on {b : Block} {x : SignatureStruct} (h : b.content.Encodable)
    (hvrs : b.m_vrs = some x) :
    encode.on b = (.ok (Rlp.encode (b.item x)),
      { b.rebuilt with m_rlpData := Rlp.encode (b.item x) }) := by
  have hx := (Nat.le_add_right _ 9).trans_lt (length_items_lt h x)
  have hv : Appends 1 (fun s => s.appendInt x.v.toNat) [intItem x.v.toNat] :=
    appends_int (by norm_num) x.v.toBitVec
  have hall := run_empty_of_appends (((appends_appendRaw b.content.item).cons <| hv.cons <|
    (appends_int le_rfl x.r).cons <| (appends_int le_rfl x.s).cons
      (appends_int le_rfl b.m_nonce).last).opened hx)
  obtain ⟨s₁, h₁, hall⟩ := bind_eq_ok_iff.mp hall
  obtain ⟨s₂, h₂, hall⟩ := bind_eq_ok_iff.mp hall
  obtain ⟨s₃, h₃, hall⟩ := bind_eq_ok_iff.mp hall
  obtain ⟨s₄, h₄, hall⟩ := bind_eq_ok_iff.mp hall
  obtain ⟨s₅, h₅, h₆⟩ := bind_eq_ok_iff.mp hall
  simp only [length_cons, length_nil, Nat.reduceAdd] at h₁
  simp only [encode, Method.on_bind, getStreamWithoutRSV_on h, vrs_on, hvrs, Method.on_modify,
    Method.on_get, MethodM.on_rlp_ok, Method.on_pure, out_mk, h₁, h₂, h₃, h₄, h₅, h₆]
  rw [rebuilt, hvrs]
  rfl

/-- Without a signature the encoding fails, behind the stream of the unsigned part. -/
theorem encode_on_of_none {b : Block} (h : b.content.Encodable) (hvrs : b.m_vrs = none) :
    encode.on b = (.error .noSignature, b.rebuilt) := by
  have h₁ : RLPStream.appendList {} 5 = .ok ⟨[], [(5, 0)]⟩ := rfl
  have h₂ : RLPStream.appendRaw ⟨[], [(5, 0)]⟩ (Rlp.encode b.content.item) 1 =
      .ok ⟨Rlp.encode b.content.item, [(4, 0)]⟩ := by
    simp [RLPStream.appendRaw, RLPStream.push, RLPStream.noteAppended, noteAppendedLoop]
  simp only [encode, Method.on_bind, getStreamWithoutRSV_on h, vrs_on, hvrs, MethodM.on_rlp_ok,
    out_mk, h₁, h₂]
  rw [rebuilt, hvrs]

end Block

end Tos.Sdag.Wire
