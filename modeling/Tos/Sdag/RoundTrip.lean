import Tos.Rlp.Integer
import Tos.Sdag.Signature

/-!
# Writing a block and reading it back

`Block::decode` reads what `Block::encode` has written, item by item: the integers are in their
shortest form, the hashes have full length, and every output and every link is a list. The two
methods differ in the counters of their loops. Those of `encode` are of type `unsigned int`, those
of `decode` of type `size_t`; with `2 ^ 32` outputs or links the loop of `encode` does not end.

## Main results

* `Block.decode_encode`: every object reads the encoding of a block.
* `roundTrips_iff`: the signed blocks that can be written and read back.
-/

namespace Tos.Sdag.Wire

open List
open Rlp (Item)
open RLP (maxLength)

/-! ### Reading integers and hashes -/

lemma length_intItem_le_maxLength {w : ℕ} (hw : w ≤ 256) (x : BitVec w) :
    (Rlp.encode (intItem x.toNat)).length ≤ maxLength :=
  (length_intItem_le hw x).trans (by norm_num [maxLength])

lemma toInt_intItem {w k : ℕ} (hw : w ≤ 256) (hk : w ≤ 8 * k) (x : BitVec w) :
    RLP.toInt k (Rlp.encode (intItem x.toNat)) RLP.Strict = .ok x.toNat :=
  (toInt_data (length_intItem_le_maxLength hw x)).mpr
    ⟨rfl, x.isLt.trans_le (Nat.pow_le_pow_right (by norm_num) hk)⟩

lemma toPositiveInt64_intItem (x : BitVec 63) :
    RLP.toPositiveInt64 (Rlp.encode (intItem x.toNat)) RLP.Strict = .ok x.toNat := by
  have hlen := length_intItem_le_maxLength (by norm_num) x
  exact (RLP.toPositiveInt64_ofBytes_eq_ok (RLP.ofBytes_encode hlen)).mpr ⟨x.isLt, rfl⟩

/-! ### Reading the parts of a block -/

/-- **The header** is read back. -/
lemma BlockHeader.ofRLP_encode (h : BlockHeader) : ofRLP (Rlp.encode h.item) = .ok h := by
  have hlen : (Rlp.encode h.item).length ≤ maxLength := by
    have h1 := length_intItem_le le_rfl h.m_type
    have h2 := length_intItem_le (by norm_num) h.m_time
    have h3 := length_intItem_le le_rfl h.m_gasPrice
    have h4 := length_intItem_le le_rfl h.m_gasLimit
    have hitems : (Rlp.encodeList [intItem h.m_type.toNat, intItem h.m_time.toNat,
        intItem h.m_gasPrice.toNat, intItem h.m_gasLimit.toNat]).length ≤ 164 := by
      simp only [Rlp.encodeList_cons, Rlp.encodeList_nil, length_append, length_nil]
      omega
    exact (Rlp.length_encode_list_le (by omega)).trans (by unfold maxLength; omega)
  rw [BlockHeader.item] at hlen ⊢
  simp (disch := simp) only [ofRLP, RLP.isList_list hlen, Bool.not_true, Bool.false_eq_true,
    if_false, itemCached_new hlen, itemCached_cacheAt hlen, getElem_cons_succ,
    getElem_cons_zero, bind, Except.bind, toInt_intItem le_rfl (show 256 ≤ 8 * 32 by norm_num),
    toPositiveInt64_intItem, BitVec.ofNat_toNat, BitVec.setWidth_eq]
  rfl

/-- An output or a link with a hash of the right size and an integer that fits. -/
structure Fits (size : ℕ) (p : Bytes × ℕ) : Prop where
  hash : p.1.length = size
  int : p.2 < 2 ^ 256

/-- An output or a link is read back. -/
lemma readPair_encode {size : ℕ} {p : Bytes × ℕ} (hp : Fits size p)
    (hlen : (Rlp.encode (pairItem p)).length ≤ maxLength) :
    readPair size (Rlp.encode (pairItem p)) = .ok p := by
  have hhash : RLP.toHash size (Rlp.encode (.data p.1)) RLP.Strict = .ok p.1 := by
    rw [← hp.hash]
    exact (toHash_data (length_encode_le_maxLength (by simp) hlen)).mpr rfl
  have hint : RLP.toInt 32 (Rlp.encode (intItem p.2)) RLP.Strict = .ok p.2 :=
    (toInt_data (length_encode_le_maxLength (by simp [intItem]) hlen)).mpr ⟨rfl, hp.int⟩
  rw [pairItem] at hlen ⊢
  simp (disch := simp) only [readPair, itemCached_new hlen, itemCached_cacheAt hlen,
    getElem_cons_succ, getElem_cons_zero, hhash, hint, bind, Except.bind]
  rfl

/-- **The loop over the outputs or the links** pushes what the remaining items hold.

**Proof sketch.** Induction on the number of remaining items; the cache stays on the items of the
list, so the item that is read is the next one, and it is a list. -/
lemma readPairs_encode {size : ℕ} {push : Bytes × ℕ → Block → Block} {ps : List (Bytes × ℕ)}
    (hps : ∀ p ∈ ps, Fits size p)
    (hlen : (Rlp.encode (.list (ps.map pairItem))).length ≤ maxLength) (k : ℕ) :
    ∀ {i : ℕ} {c : RLP.Cache} (b : Block), i + k = ps.length → OnItems (ps.map pairItem) c →
      (readPairs size push (Rlp.encode (.list (ps.map pairItem))) k i c).on b =
        (.ok (), (ps.drop i).foldl (fun b q => push q b) b) := by
  induction k with
  | zero =>
    intro i c b hi _
    rw [drop_of_length_le (show ps.length ≤ i by omega)]
    rfl
  | succ k ih =>
    intro i c b hi hc
    have hilt : i < ps.length := by omega
    have hmem : ps[i] ∈ ps := getElem_mem hilt
    have hilt' : i < (ps.map pairItem).length := by rwa [length_map]
    have hlist := length_encode_le_maxLength (mem_map_of_mem (f := pairItem) hmem) hlen
    have hisList : RLP.isList (Rlp.encode (pairItem ps[i])) = true := RLP.isList_list hlist
    rw [readPairs, itemCached_list hlen hc hilt', getElem_map,
      Method.on_bind_of_ok (MethodM.on_rlp_ok _)]
    dsimp only
    rw [if_pos hisList, readPair_encode (hps _ hmem) hlist,
      Method.on_bind_of_ok (MethodM.on_rlp_ok _), Method.on_modify_bind,
      ih _ (by omega) (onItems_cacheAt hilt'),
      drop_eq_getElem_cons hilt, foldl_cons]

/-- The outputs or the links are read back. -/
lemma decodePairs_encode {size : ℕ} (push : Bytes × ℕ → Block → Block) {ps : List (Bytes × ℕ)}
    (hps : ∀ p ∈ ps, Fits size p)
    (hlen : (Rlp.encode (.list (ps.map pairItem))).length ≤ maxLength) (b : Block) :
    (decodePairs size push (Rlp.encode (.list (ps.map pairItem)))).on b =
      (.ok (), ps.foldl (fun b q => push q b) b) := by
  have hcount : RLP.itemCount (Rlp.encode (.list (ps.map pairItem))) = .ok ps.length := by
    rw [RLP.itemCount_list hlen, length_map]
  rw [decodePairs, if_pos (RLP.isList_list hlen), hcount,
    Method.on_bind_of_ok (MethodM.on_rlp_ok _),
    readPairs_encode hps hlen ps.length b (Nat.zero_add _) (Or.inl rfl), drop_zero]

lemma fits_outputPairs (outputs : List OutputStruct) : ∀ p ∈ outputPairs outputs, Fits 20 p := by
  intro p hp
  obtain ⟨o, -, rfl⟩ := mem_map.mp hp
  exact ⟨BigEndian.length_fixed (o.addr.isLt.trans_le (by norm_num)), o.amount.isLt⟩

lemma fits_linkPairs (links : List BlockLinkStruct) : ∀ p ∈ linkPairs links, Fits 32 p := by
  intro p hp
  obtain ⟨l, -, rfl⟩ := mem_map.mp hp
  exact ⟨length_hashBytes l.blockHash, l.gasUsed.isLt⟩

lemma map_ofPair_outputPairs (outputs : List OutputStruct) :
    (outputPairs outputs).map OutputStruct.ofPair = outputs :=
  outputPairs_injective (outputPairs_map fun q hq =>
    ⟨(fits_outputPairs outputs q hq).hash, (fits_outputPairs outputs q hq).int⟩)

lemma map_ofPair_linkPairs (links : List BlockLinkStruct) :
    (linkPairs links).map BlockLinkStruct.ofPair = links :=
  linkPairs_injective (linkPairs_map fun q hq =>
    ⟨(fits_linkPairs links q hq).hash, (fits_linkPairs links q hq).int⟩)

namespace Block

/-! ### Reading a block -/

/-- The object `b₀` after it has read the unsigned part `c`: the outputs and links are appended. -/
def afterContent (b₀ : Block) (c : Content) : Block :=
  { b₀ with
    m_blockHeader := c.header
    m_outputs := b₀.m_outputs ++ c.outputs
    m_links := b₀.m_links ++ c.links
    m_payload := c.payload }

/-- The object `b₀` after it has read the encoding of `b` with the signature `x`. -/
def afterDecode (b₀ b : Block) (x : SignatureStruct) : Block :=
  { b₀.afterContent b.content with m_vrs := some x, m_nonce := b.m_nonce }

/-- **The unsigned part** is read back. -/
lemma decodeBlockWithoutRSV_encode (b₀ : Block) {c : Content}
    (hlen : (Rlp.encode c.item).length ≤ maxLength) :
    (decodeBlockWithoutRSV (Rlp.encode c.item)).on b₀ = (.ok (), b₀.afterContent c) := by
  rw [Content.item] at hlen ⊢
  have hmem := fun (x : Item) hx => length_encode_le_maxLength (x := x) hx hlen
  have houtputs := decodePairs_encode pushOutput (fits_outputPairs c.outputs)
    (hmem _ (by simp))
  have hlinks := decodePairs_encode pushLink (fits_linkPairs c.links)
    (hmem _ (by simp))
  have hpayload : RLP.toBytes (Rlp.encode (.data c.payload)) RLP.LaissezFaire = .ok c.payload := by
    exact RLP.toBytes_encode (hmem _ (by simp)) _
  simp (disch := simp) only [decodeBlockWithoutRSV, itemCached_new hlen, itemCached_cacheAt hlen,
    getElem_cons_succ, getElem_cons_zero, Method.on_bind, MethodM.on_rlp_ok,
    BlockHeader.ofRLP_encode, Method.on_modify, houtputs, hlinks, foldl_pushOutput,
    foldl_pushLink, map_ofPair_outputPairs, map_ofPair_linkPairs, hpayload]
  rfl

/-- **Reading a block.** Every object reads the encoding of a signed block. -/
theorem decode_encode (b₀ b : Block) (x : SignatureStruct)
    (hlen : (Rlp.encode (b.item x)).length ≤ maxLength) :
    (decode (Rlp.encode (b.item x))).on b₀ = (.ok (), b₀.afterDecode b x) := by
  have hbytes := RLP.ofBytes_encode hlen
  rw [item] at hlen hbytes ⊢
  have hinner := decodeBlockWithoutRSV_encode b₀ (c := b.content)
    (length_encode_le_maxLength (by simp) hlen)
  have hv : RLP.toInt 4 (Rlp.encode (intItem x.v.toNat)) RLP.Strict = .ok x.v.toNat :=
    toInt_intItem (by norm_num) (by norm_num) x.v.toBitVec
  have hint : ∀ i : BitVec 256, RLP.toInt 32 (Rlp.encode (intItem i.toNat)) RLP.Strict =
      .ok i.toNat := toInt_intItem le_rfl (by norm_num)
  simp (disch := simp) only [decode, hbytes, RLP.isList_list hlen, if_true, itemCached_new hlen,
    itemCached_cacheAt hlen, getElem_cons_succ, getElem_cons_zero, Method.on_bind,
    MethodM.on_rlp_ok, hinner, hv, hint, Method.on_modify, BitVec.ofNat_toNat, BitVec.setWidth_eq,
    UInt8.ofNat_toNat]
  rfl

/-- The encoding of a block can be read if its parts have a size. -/
lemma length_item_le_maxLength {b : Block} (x : SignatureStruct) (ho : b.m_outputs.length < 2 ^ 32)
    (hl : b.m_links.length < 2 ^ 32) (hp : b.m_payload.length < 2 ^ 63) :
    (Rlp.encode (b.item x)).length ≤ maxLength := by
  have h0 := Content.length_item_le (c := b.content) ho hl hp
  have h1 := length_intItem_le (by norm_num) x.v.toBitVec
  have h2 := length_intItem_le le_rfl x.r
  have h3 := length_intItem_le le_rfl x.s
  have h4 := length_intItem_le le_rfl b.m_nonce
  rw [UInt8.toNat_toBitVec] at h1
  have hitems : (Rlp.encodeList [b.content.item, intItem x.v.toNat, intItem x.r.toNat,
      intItem x.s.toNat, intItem b.m_nonce.toNat]).length ≤ 2 ^ 63 + 2 ^ 43 := by
    simp only [Rlp.encodeList_cons, Rlp.encodeList_nil, length_append, length_nil]
    omega
  exact (Rlp.length_encode_list_le (by omega)).trans (by unfold maxLength; omega)

end Block

/-! ### There and back -/

/-- Everything of a block that is written. -/
def Block.fields (b : Block) : Content × Option SignatureStruct × U256 :=
  (b.content, b.m_vrs, b.m_nonce)

/-- The block is written; a new block reads the bytes, has its fields then, and is written as the
same bytes. -/
def RoundTrips (b : Block) : Prop :=
  ∃ y b' b'', Block.encode.on b = (.ok y, b') ∧ (Block.decode y).on {} = (.ok (), b'') ∧
    b''.fields = b.fields ∧ (Block.encode.on b'').1 = .ok y

/-- A signed block whose parts have a size is written, read back and written again. -/
lemma Block.roundTrips {b : Block} {x : SignatureStruct} (hvrs : b.m_vrs = some x)
    (ho : b.m_outputs.length < 2 ^ 32) (hl : b.m_links.length < 2 ^ 32)
    (hp : b.m_payload.length < 2 ^ 63) : RoundTrips b := by
  have henc : b.content.Encodable := Content.encodable ho hl hp
  have hread := decode_encode {} b x (length_item_le_maxLength x ho hl hp)
  set b'' := afterDecode {} b x with hb''
  have hcontent : b''.content = b.content := by
    rw [hb'', afterDecode, afterContent]
    simp [content]
  have hitem : b''.item x = b.item x := by
    rw [item, hcontent]
    rfl
  have hagain := encode_on (b := b'') (x := x) (by rwa [hcontent]) rfl
  refine ⟨_, _, b'', encode_on henc hvrs, hread, ?_, ?_⟩
  · rw [fields, hcontent, fields, hvrs]
    rfl
  · rw [hagain, hitem]

/-- **There and back.** A signed block is written, read back with all its fields and written again
as the same bytes exactly when it has fewer than `2 ^ 32` outputs and fewer than `2 ^ 32` links;
with more of them it is not written. (A payload is a vector of fewer than `2 ^ 63` bytes.) -/
theorem roundTrips_iff (b : Block) (x : SignatureStruct) (hvrs : b.m_vrs = some x)
    (hp : b.m_payload.length < 2 ^ 63) :
    RoundTrips b ↔ b.m_outputs.length < 2 ^ 32 ∧ b.m_links.length < 2 ^ 32 := by
  constructor
  · rintro ⟨y, b', -, hy, -⟩
    exact Block.length_lt_of_encode hy
  · rintro ⟨ho, hl⟩
    exact Block.roundTrips hvrs ho hl hp

/-- A signed block with two outputs, two links and a payload. -/
def fullBlock : Block where
  m_blockHeader := ⟨1, 1500000000, 20, 21000⟩
  m_outputs := [⟨0xabc, 1000⟩, ⟨0, 0⟩]
  m_links := [⟨1 <<< 255, 300⟩, ⟨7, 0⟩]
  m_payload := [0, 128, 255]
  m_vrs := some ⟨5, 6, 1⟩
  m_nonce := 12

/-- The block with outputs, links and a payload is read back as it was written. -/
theorem roundTrips_iff_fullBlock : RoundTrips fullBlock :=
  (roundTrips_iff fullBlock ⟨5, 6, 1⟩ rfl (by decide)).mpr ⟨by decide, by decide⟩

/-- A signed block with `2 ^ 32` outputs. -/
def crowdedBlock : Block :=
  { m_outputs := List.replicate (2 ^ 32) ⟨0, 0⟩, m_vrs := some ⟨1, 1, 0⟩ }

/-- With `2 ^ 32` outputs the encoding does not end. -/
theorem crowdedBlock_diverges :
    (Block.encode.on crowdedBlock).1 = .error .diverges ∧ ¬ RoundTrips crowdedBlock := by
  have hlen : 2 ^ 32 ≤ crowdedBlock.m_outputs.length := length_replicate.ge
  refine ⟨Block.encode_diverges (Block.getStreamWithoutRSV_diverges hlen), ?_⟩
  rintro ⟨y, b', -, hy, -⟩
  exact absurd (Block.length_lt_of_encode hy).1 (Nat.not_lt.mpr hlen)

end Tos.Sdag.Wire
