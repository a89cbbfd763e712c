import Tos.Sdag.Block

/-!
# The identity of a received block

`Block::getHash` of a received block hashes a new encoding of its fields, not the bytes that
were received. `Block::decode` does not insist on the form `Block::encode` writes: it does not
count items, passes over outputs and links that are not lists, pads short hashes, reads any
payload that is not a byte string as empty, and cuts the recovery id to one byte. So the hash is
the one of the bytes exactly for the byte strings that have this form.

## Main results

* `Received.item_eq`: a tree of this form is the tree of the block that is read
  from it.
* `getHash_eq_sha3_iff`: the hash of a received block is the hash of the bytes
  exactly when they have this form.
-/

namespace Tos.Sdag.Wire

open Rlp (Item)
open MethodM (keeps_rlp on_rlp_bind_eq_ok)
open List
open Method
open RLP (bind_eq_ok_iff firstItem_cons isList_list itemCached length_payload_lt maxLength seek)
open BigEndian (bytes fixed length_fixed value value_bytes)

/-- An output or a link with the bytes of its integer. -/
def rawPair (p : Bytes × Bytes) : Item := .list [.data p.1, .data p.2]

/-- The form of a block on the wire: five items behind each other, the first with four items,
its header with four, the outputs and links with a hash of full length and an integer each, a
payload that is a byte string and a recovery id of one byte. -/
inductive WireForm : Item → Prop where
  | mk (type time gasPrice gasLimit payload v r s nonce : Bytes)
      (outputs links : List (Bytes × Bytes)) (houtputs : outputs.length < 2 ^ 32)
      (hlinks : links.length < 2 ^ 32) (haddr : ∀ o ∈ outputs, o.1.length = 20)
      (hhash : ∀ l ∈ links, l.1.length = 32) (hv : value v < 256) :
      WireForm (.list [.list [.list [.data type, .data time, .data gasPrice, .data gasLimit],
        .list (outputs.map rawPair), .list (links.map rawPair), .data payload],
        .data v, .data r, .data s, .data nonce])

/-- The byte string is a list, fits in a byte vector, and a new block reads it. -/
structure Received (byts : Bytes) (b : Block) : Prop where
  size : byts.length < 2 ^ 63
  isList : RLP.isList byts = true
  decode : (Block.decode byts).on {} = (.ok (), b)

/-! ### Reading items of a tree -/

/-- The cache of an object is the one of a new object or on an item. -/
def OnItems (xs : List Item) (c : RLP.Cache) : Prop :=
  c = {} ∨ ∃ j ≤ xs.length, c = RLP.cacheAt xs j

variable {xs : List Item} {c : RLP.Cache} {i : ℕ}

/-- An object that has been asked for an item is on it. -/
lemma onItems_cacheAt (hi : i < xs.length) : OnItems xs (RLP.cacheAt xs i) :=
  Or.inr ⟨i, hi.le, rfl⟩

/-- `operator[]` reads an item of a list; the cache is then on this item. -/
lemma itemCached_list (h : (Rlp.encode (.list xs)).length ≤ maxLength)
    (hc : OnItems xs c) (hi : i < xs.length) :
    itemCached (Rlp.encode (.list xs)) c i = .ok (Rlp.encode xs[i], RLP.cacheAt xs i) := by
  have hcount := (Rlp.length_le_length_encodeList xs).trans
    ((Rlp.length_encodeList_le xs).trans h)
  rw [RLP.itemCached_eq (RLP.payload_list h) (length_payload_lt h)
    (by unfold maxLength at hcount; omega) hc, Nat.min_eq_left hi.le, drop_eq_getElem_cons hi]
  rfl

/-- The first access of an object. -/
lemma itemCached_new (h : (Rlp.encode (.list xs)).length ≤ maxLength) (hi : i < xs.length) :
    itemCached (Rlp.encode (.list xs)) {} i = .ok (Rlp.encode xs[i], RLP.cacheAt xs i) :=
  itemCached_list h (Or.inl rfl) hi

/-- An access after another one. -/
lemma itemCached_cacheAt {j : ℕ} (h : (Rlp.encode (.list xs)).length ≤ maxLength)
    (hj : j < xs.length) (hi : i < xs.length) :
    itemCached (Rlp.encode (.list xs)) (RLP.cacheAt xs j) i =
      .ok (Rlp.encode xs[i], RLP.cacheAt xs i) :=
  itemCached_list h (onItems_cacheAt hj) hi

variable {d : Bytes} {n : ℕ}

lemma toInt_data (h : (Rlp.encode (.data d)).length ≤ maxLength) {k n : ℕ} :
    RLP.toInt k (Rlp.encode (.data d)) RLP.Strict = .ok n ↔
      d = bytes n ∧ n < 2 ^ (8 * k) := by
  have hp : d.length < maxLength := length_payload_lt h
  have := @RLP.toInt_frame_eq_ok d hp [] k n
  rwa [append_nil, ← Rlp.encode_data, show 256 = 2 ^ 8 from rfl, ← Nat.pow_mul] at this

variable {w : ℕ}

lemma toNat_ofNat_of_lt (h : n < 2 ^ w) : (BitVec.ofNat w n).toNat = n := by
  rw [BitVec.toNat_ofNat, Nat.mod_eq_of_lt h]

lemma intItem_ofNat (h : n < 2 ^ w) : intItem (BitVec.ofNat w n).toNat = .data (bytes n) := by
  rw [intItem, toNat_ofNat_of_lt h]

lemma toPositiveInt64_data (h : (Rlp.encode (.data d)).length ≤ maxLength)
    (hread : RLP.toPositiveInt64 (Rlp.encode (.data d)) RLP.Strict = .ok n) :
    d = bytes n ∧ n < 2 ^ 63 := by
  simp only [RLP.toPositiveInt64, bind_eq_ok_iff] at hread
  obtain ⟨i, hi, hread⟩ := hread
  split_ifs at hread with hneg
  obtain rfl : i = n := Except.ok.inj hread
  exact ⟨((toInt_data h).mp hi).1, by
    by_contra hge
    exact hneg ⟨rfl, Nat.not_lt.mp hge⟩⟩

variable {x : Bytes}

lemma toHash_data (h : (Rlp.encode (.data d)).length ≤ maxLength) :
    RLP.toHash d.length (Rlp.encode (.data d)) RLP.Strict = .ok x ↔ x = d := by
  have hp : d.length < maxLength := length_payload_lt h
  have := @RLP.toHash_frame_eq_ok d hp [] d.length x
  rw [append_nil, ← Rlp.encode_data] at this
  simpa using this

/-- The length of an item of a list that can be read. -/
lemma length_encode_le_maxLength {x : Item} (hx : x ∈ xs)
    (h : (Rlp.encode (.list xs)).length ≤ maxLength) : (Rlp.encode x).length ≤ maxLength :=
  (Rlp.length_encode_le_of_mem_list hx).trans h

/-- The header that is read has the tree it is read from. -/
lemma BlockHeader.ofRLP_item {type time gasPrice gasLimit : Bytes} {h : BlockHeader}
    (hlen : (Rlp.encode (.list [.data type, .data time, .data gasPrice, .data gasLimit])).length ≤
      maxLength) (hread : BlockHeader.ofRLP
      (Rlp.encode (.list [.data type, .data time, .data gasPrice, .data gasLimit])) = .ok h) :
    h.item = .list [.data type, .data time, .data gasPrice, .data gasLimit] := by
  simp (disch := simp) only [ofRLP, isList_list hlen, Bool.not_true, Bool.false_eq_true, if_false,
    bind_eq_ok_iff, itemCached_new hlen, itemCached_cacheAt hlen, Except.ok.injEq, exists_eq_left',
    getElem_cons_succ, getElem_cons_zero] at hread
  obtain ⟨n₀, h₀, n₁, h₁, n₂, h₂, n₃, h₃, hh⟩ := hread
  obtain ⟨rfl, l₁⟩ := toPositiveInt64_data (length_encode_le_maxLength (by simp) hlen) h₁
  obtain ⟨rfl, l₀⟩ := (toInt_data (length_encode_le_maxLength (by simp) hlen)).mp h₀
  obtain ⟨rfl, l₂⟩ := (toInt_data (length_encode_le_maxLength (by simp) hlen)).mp h₂
  obtain ⟨rfl, l₃⟩ := (toInt_data (length_encode_le_maxLength (by simp) hlen)).mp h₃
  obtain rfl : _ = h := Except.ok.inj hh
  simp only [BlockHeader.item, intItem_ofNat l₀, intItem_ofNat l₁, intItem_ofNat l₂,
    intItem_ofNat l₃]

/-- What is read of an output or a link with a hash of full length. -/
lemma readPair_item {p : Bytes × Bytes} {q : Bytes × ℕ}
    (hlen : (Rlp.encode (rawPair p)).length ≤ maxLength)
    (hread : readPair p.1.length (Rlp.encode (rawPair p)) = .ok q) :
    pairItem q = rawPair p ∧ q.1.length = p.1.length ∧ q.2 < 2 ^ 256 := by
  unfold rawPair at hlen hread ⊢
  simp (disch := simp) only [readPair, bind_eq_ok_iff, itemCached_new hlen, itemCached_cacheAt hlen,
    Except.ok.injEq, exists_eq_left', getElem_cons_succ, getElem_cons_zero] at hread
  obtain ⟨x, hx, n, hn, hq⟩ := hread
  obtain rfl := (toHash_data (length_encode_le_maxLength (by simp) hlen)).mp hx
  obtain ⟨hp, hlt⟩ := (toInt_data (length_encode_le_maxLength (by simp) hlen)).mp hn
  obtain rfl : (p.1, n) = q := Except.ok.inj hq
  exact ⟨by rw [hp]; rfl, rfl, hlt⟩

variable {b b' : Block}

/-- **The loop over the outputs or the links.** When it returns, it has pushed what the
remaining items hold.

**Proof sketch.** Induction on the number of remaining items. The item read is the next one,
because the cache stays on the items of the list; it is a list, so it is pushed. -/
lemma readPairs_on {size : ℕ} {push : Bytes × ℕ → Block → Block} {ps : List (Bytes × Bytes)}
    (hps : ∀ p ∈ ps, p.1.length = size)
    (hlen : (Rlp.encode (.list (ps.map rawPair))).length ≤ maxLength) (k : ℕ) :
    ∀ {i : ℕ} {c : RLP.Cache} {b b' : Block}, i + k = ps.length → OnItems (ps.map rawPair) c →
      (readPairs size push (Rlp.encode (.list (ps.map rawPair))) k i c).on b = (.ok (), b') →
      ∃ qs : List (Bytes × ℕ), qs.map pairItem = (ps.drop i).map rawPair ∧
        (∀ q ∈ qs, q.1.length = size ∧ q.2 < 2 ^ 256) ∧
        b' = qs.foldl (fun b q => push q b) b := by
  induction k with
  | zero =>
    intro i c b b' hi _ hread
    obtain rfl : b = b' := congrArg Prod.snd hread
    exact ⟨[], by simp [drop_of_length_le (show ps.length ≤ i by omega)], by simp, rfl⟩
  | succ k ih =>
    intro i c b b' hi hc hread
    have hilt : i < ps.length := by omega
    have hmem : ps[i] ∈ ps := getElem_mem hilt
    have hlist := length_encode_le_maxLength (mem_map_of_mem (f := rawPair) hmem) hlen
    have hilt' : i < (ps.map rawPair).length := by rwa [length_map]
    have e := itemCached_list hlen hc hilt'
    rw [getElem_map] at e
    simp only [readPairs, on_rlp_bind_eq_ok, e, Except.ok.injEq, exists_eq_left',
      isList_list hlist, rawPair, if_true] at hread
    obtain ⟨q, hq, hread⟩ := hread
    rw [on_bind, on_modify] at hread
    obtain ⟨qs, hmap, hall, hb⟩ := ih (by omega) (onItems_cacheAt hilt') hread
    rw [← hps _ hmem] at hq
    obtain ⟨hitem, hsize, hlt⟩ := readPair_item hlist hq
    refine ⟨q :: qs, ?_, ?_, hb⟩
    · rw [map_cons, hmap, hitem, drop_eq_getElem_cons hilt, map_cons]
    · rintro r hr
      rcases List.mem_cons.mp hr with rfl | hr
      · exact ⟨hsize.trans (hps _ hmem), hlt⟩
      · exact hall r hr

/-- The outputs or the links that are read, from a tree that holds nothing else. -/
lemma decodePairs_on {size : ℕ} {push : Bytes × ℕ → Block → Block} {ps : List (Bytes × Bytes)}
    (hps : ∀ p ∈ ps, p.1.length = size)
    (hlen : (Rlp.encode (.list (ps.map rawPair))).length ≤ maxLength)
    (hread : (decodePairs size push (Rlp.encode (.list (ps.map rawPair)))).on b = (.ok (), b')) :
    ∃ qs : List (Bytes × ℕ), qs.map pairItem = ps.map rawPair ∧
      (∀ q ∈ qs, q.1.length = size ∧ q.2 < 2 ^ 256) ∧
      b' = qs.foldl (fun b q => push q b) b := by
  have hcount : RLP.itemCount (Rlp.encode (.list (ps.map rawPair))) = .ok ps.length := by
    rw [RLP.itemCount_list hlen, length_map]
  simp only [decodePairs, isList_list hlen, if_true, on_rlp_bind_eq_ok, hcount,
    Except.ok.injEq, exists_eq_left'] at hread
  exact readPairs_on hps hlen ps.length (Nat.zero_add _) (Or.inl rfl) hread

namespace Block

lemma foldl_pushOutput (qs : List (Bytes × ℕ)) (b : Block) :
    qs.foldl (fun b q => pushOutput q b) b =
      { b with m_outputs := b.m_outputs ++ qs.map OutputStruct.ofPair } := by
  induction qs generalizing b with
  | nil => simp
  | cons q qs ih => rw [foldl_cons, ih]; simp [pushOutput]

lemma foldl_pushLink (qs : List (Bytes × ℕ)) (b : Block) :
    qs.foldl (fun b q => pushLink q b) b =
      { b with m_links := b.m_links ++ qs.map BlockLinkStruct.ofPair } := by
  induction qs generalizing b with
  | nil => simp
  | cons q qs ih => rw [foldl_cons, ih]; simp [pushLink]

end Block

lemma outputPairs_map {qs : List (Bytes × ℕ)} (h : ∀ q ∈ qs, q.1.length = 20 ∧ q.2 < 2 ^ 256) :
    outputPairs (qs.map OutputStruct.ofPair) = qs := by
  rw [outputPairs, map_map]
  refine (map_congr_left fun q hq => ?_).trans (map_id _)
  obtain ⟨hlen, hlt⟩ := h q hq
  exact Prod.ext (hashBytes_ofHashBytes (by rw [hlen])) (toNat_ofNat_of_lt hlt)

lemma linkPairs_map {qs : List (Bytes × ℕ)} (h : ∀ q ∈ qs, q.1.length = 32 ∧ q.2 < 2 ^ 256) :
    linkPairs (qs.map BlockLinkStruct.ofPair) = qs := by
  rw [linkPairs, map_map]
  refine (map_congr_left fun q hq => ?_).trans (map_id _)
  obtain ⟨hlen, hlt⟩ := h q hq
  exact Prod.ext (hashBytes_ofHashBytes (by rw [hlen])) (toNat_ofNat_of_lt hlt)

variable {t : Item}

namespace Block

/-- The unsigned part of a new block that reads a tree of the right form is the one of the
tree. -/
lemma decodeBlockWithoutRSV_on {type time gasPrice gasLimit payload : Bytes}
    {outputs links : List (Bytes × Bytes)} (haddr : ∀ o ∈ outputs, o.1.length = 20)
    (hhash : ∀ l ∈ links, l.1.length = 32) (ho : b.m_outputs = []) (hl : b.m_links = [])
    (ht : t = .list [.list [.data type, .data time, .data gasPrice, .data gasLimit],
      .list (outputs.map rawPair), .list (links.map rawPair), .data payload])
    (hlen : (Rlp.encode t).length ≤ maxLength)
    (hread : (decodeBlockWithoutRSV (Rlp.encode t)).on b = (.ok (), b')) :
    b'.content.item = t ∧ b'.m_outputs.length = outputs.length ∧
      b'.m_links.length = links.length := by
  subst ht
  have hmem := fun (x : Item) hx => length_encode_le_maxLength (x := x) hx hlen
  have hpayload : RLP.toBytes (Rlp.encode (.data payload)) RLP.LaissezFaire = .ok payload := by
    exact RLP.toBytes_encode (hmem _ (by simp)) _
  simp (disch := simp) only [decodeBlockWithoutRSV, on_rlp_bind_eq_ok, on_modify_bind,
    itemCached_new hlen, itemCached_cacheAt hlen, Except.ok.injEq, exists_eq_left',
    getElem_cons_succ, getElem_cons_zero] at hread
  obtain ⟨h, hh, hread⟩ := hread
  obtain ⟨⟨⟩, b₁, hreado, hread⟩ := on_bind_eq_ok.mp hread
  simp (disch := simp) only [on_rlp_bind_eq_ok, itemCached_cacheAt hlen, Except.ok.injEq,
    exists_eq_left', getElem_cons_succ, getElem_cons_zero] at hread
  obtain ⟨⟨⟩, b₂, hreadl, hread⟩ := on_bind_eq_ok.mp hread
  simp only [on_rlp_bind_eq_ok, hpayload, Except.ok.injEq, exists_eq_left', on_modify,
    Prod.mk.injEq, true_and] at hread
  obtain ⟨os, hos, hosr, rfl⟩ := decodePairs_on haddr (hmem _ (by simp)) hreado
  obtain ⟨ls, hls, hlsr, rfl⟩ := decodePairs_on hhash (hmem _ (by simp)) hreadl
  rw [foldl_pushOutput, foldl_pushLink] at hread
  subst hread
  refine ⟨?_, ?_, ?_⟩
  · simp only [content, Content.item, ho, hl, nil_append, outputPairs_map hosr,
      linkPairs_map hlsr, hos, hls, BlockHeader.ofRLP_item (hmem _ (by simp)) hh]
  · simpa [ho] using congrArg List.length hos
  · simpa [hl] using congrArg List.length hls

end Block

/-- **A tree of the right form is the tree of the block that is read from it.** -/
theorem Received.item_eq (h : Received (Rlp.encode t) b) (ht : WireForm t) :
    b.content.outputs.length < 2 ^ 32 ∧ b.content.links.length < 2 ^ 32 ∧
      ∃ x, b.m_vrs = some x ∧ b.item x = t := by
  obtain ⟨hsize, -, hread⟩ := h
  obtain ⟨type, time, gasPrice, gasLimit, payload, v, r, s, nonce, outputs, links, houtputs, hlinks,
    haddr, hhash, hv⟩ := ht
  have hlen := hsize.le.trans (show 2 ^ 63 ≤ maxLength by norm_num [maxLength])
  have hmem := fun (x : Item) hx => length_encode_le_maxLength (x := x) hx hlen
  simp (disch := simp) only [Block.decode, RLP.ofBytes_encode hlen, on_rlp_bind_eq_ok,
    isList_list hlen, if_true, itemCached_new hlen, Except.ok.injEq, exists_eq_left',
    getElem_cons_zero] at hread
  obtain ⟨⟨⟩, b₁, hinner, hread⟩ := on_bind_eq_ok.mp hread
  simp (disch := simp) only [on_rlp_bind_eq_ok, on_modify_bind, itemCached_cacheAt hlen,
    Except.ok.injEq, exists_eq_left', getElem_cons_succ, getElem_cons_zero, on_modify,
    Prod.mk.injEq, true_and] at hread
  obtain ⟨nv, hnv, nr, hnr, ns, hns, nn, hnn, rfl⟩ := hread
  obtain ⟨rfl, -⟩ := (toInt_data (hmem _ (by simp))).mp hnv
  obtain ⟨rfl, lr⟩ := (toInt_data (hmem _ (by simp))).mp hnr
  obtain ⟨rfl, ls⟩ := (toInt_data (hmem _ (by simp))).mp hns
  obtain ⟨rfl, ln⟩ := (toInt_data (hmem _ (by simp))).mp hnn
  obtain ⟨hitem, ho, hl⟩ :=
    Block.decodeBlockWithoutRSV_on haddr hhash rfl rfl rfl (hmem _ (by simp)) hinner
  refine ⟨ho ▸ houtputs, hl ▸ hlinks, _, rfl, ?_⟩
  rw [value_bytes] at hv
  have hv' : (UInt8.ofNat nv).toNat = nv := UInt8.toNat_ofNat_of_lt hv
  simp only [Block.item, intItem_ofNat lr, intItem_ofNat ls, intItem_ofNat ln, hv']
  rw [← hitem]
  rfl

/-! ### The size of what is read -/

lemma length_cropped_le (d : Bytes) (i n : ℕ) : (RLP.cropped d i n).length ≤ d.length := by
  unfold RLP.cropped
  split_ifs
  · simp
  · simp

lemma length_payload_le {d p : Bytes} (h : RLP.payload d = .ok p) : p.length ≤ d.length := by
  simp only [RLP.payload, bind_eq_ok_iff] at h
  obtain ⟨l, -, h⟩ := h
  split_ifs at h
  · simp [bind, Except.bind] at h
  · exact Except.ok.inj h ▸ length_cropped_le _ _ _

/-- The cache holds nothing longer than the object. -/
def CacheFits (d : Bytes) (c : RLP.Cache) : Prop := c.m_lastItem.length ≤ d.length

lemma cacheFits_seek (n : ℕ) {c c' : RLP.Cache} (hc : CacheFits d c)
    (h : seek d n c = .ok c') : CacheFits d c' := by
  induction n generalizing c with
  | zero => exact Except.ok.inj h ▸ hc
  | succ n ih =>
    rw [seek] at h
    split_ifs at h
    · exact Except.ok.inj h ▸ hc
    · simp only [bind_eq_ok_iff] at h
      obtain ⟨p, hp, m, -, h⟩ := h
      refine ih ?_ h
      have h1 := length_cropped_le (p.drop c.m_lastEnd) 0 m
      have h2 := length_payload_le hp
      rw [length_drop] at h1
      exact h1.trans (by omega)

/-- Nothing that is read by index is longer than the object. -/
lemma length_itemCached_le {c c' : RLP.Cache} (hc : CacheFits d c)
    (h : itemCached d c i = .ok (x, c')) : x.length ≤ d.length ∧ CacheFits d c' := by
  simp only [itemCached, bind_eq_ok_iff] at h
  obtain ⟨c₁, h₁, c₂, h₂, y, hy, h⟩ := h
  obtain ⟨rfl, rfl⟩ := Prod.mk.inj (Except.ok.inj h)
  have hc₁ : CacheFits d c₁ := by
    unfold RLP.restart at h₁
    split_ifs at h₁
    · simp only [bind_eq_ok_iff] at h₁
      obtain ⟨p, hp, n, -, p', hp', h₁⟩ := h₁
      obtain rfl := Except.ok.inj h₁
      exact (length_cropped_le _ _ _).trans (length_payload_le hp')
    · exact Except.ok.inj h₁ ▸ hc
  have hc₂ := cacheFits_seek _ hc₁ h₂
  refine ⟨?_, hc₂⟩
  rw [RLP.ofBytes_failIfTooSmall] at hy
  obtain ⟨a, -, hy⟩ := bind_eq_ok_iff.mp hy
  split_ifs at hy
  exact Except.ok.inj hy ▸ hc₂

/-- The payload that is read is not longer than the item it is read from. -/
lemma Block.length_payload_of_decode
    (h : (decodeBlockWithoutRSV x).on b = (.ok (), b')) : b'.m_payload.length ≤ x.length := by
  simp only [decodeBlockWithoutRSV, on_rlp_bind_eq_ok, on_modify_bind] at h
  obtain ⟨⟨x₀, c₀⟩, e₀, hdr, -, ⟨x₁, c₁⟩, e₁, h⟩ := h
  obtain ⟨⟨⟩, b₁, -, h⟩ := on_bind_eq_ok.mp h
  simp only [on_rlp_bind_eq_ok] at h
  obtain ⟨⟨x₂, c₂⟩, e₂, h⟩ := h
  obtain ⟨⟨⟩, b₂, -, h⟩ := on_bind_eq_ok.mp h
  simp only [on_rlp_bind_eq_ok, on_modify, Prod.mk.injEq, true_and] at h
  obtain ⟨⟨x₃, c₃⟩, e₃, payload, hp, rfl⟩ := h
  have hc₀ := (length_itemCached_le (Nat.zero_le _) e₀).2
  have hc₁ := (length_itemCached_le hc₀ e₁).2
  have hc₂ := (length_itemCached_le hc₁ e₂).2
  have hx₃ := (length_itemCached_le hc₂ e₃).1
  refine le_trans ?_ hx₃
  change payload.length ≤ x₃.length
  unfold RLP.toBytes at hp
  split_ifs at hp with hd ht
  · obtain rfl := Except.ok.inj hp
    exact Nat.zero_le _
  · simp only [bind_eq_ok_iff] at hp
    obtain ⟨p, hpl, l, -, hp⟩ := hp
    obtain rfl := Except.ok.inj hp
    exact (length_take_le' _ _).trans (length_payload_le hpl)

/-- A received block has a signature, and its payload is not longer than the bytes. -/
lemma Received.payload_le {byts : Bytes} (h : Received byts b) :
    b.m_payload.length ≤ byts.length ∧ ∃ x, b.m_vrs = some x := by
  have hread := h.decode
  simp only [Block.decode, on_rlp_bind_eq_ok] at hread
  obtain ⟨y, hy, hread⟩ := hread
  obtain rfl : y = byts := by
    rw [RLP.ofBytes_veryStrict] at hy
    obtain ⟨a, -, hy⟩ := bind_eq_ok_iff.mp hy
    split_ifs at hy
    exact (Except.ok.inj hy).symm
  simp only [h.isList, if_true, on_rlp_bind_eq_ok] at hread
  obtain ⟨⟨x₀, c₀⟩, e₀, hread⟩ := hread
  obtain ⟨⟨⟩, b₁, hinner, hread⟩ := on_bind_eq_ok.mp hread
  simp only [on_rlp_bind_eq_ok, on_modify_bind, on_modify, Prod.mk.injEq,
    true_and] at hread
  obtain ⟨-, -, -, -, -, -, -, -, -, -, -, -, -, -, -, -, rfl⟩ := hread
  exact ⟨(Block.length_payload_of_decode hinner).trans
    (length_itemCached_le (Nat.zero_le _) e₀).1, _, rfl⟩

/-! ### The size of what is written -/

lemma encodePairs_eq_ok {ps : List (Bytes × ℕ)} {y : Bytes}
    (h : (encodePairs ps).on b = (.ok y, b')) : ps.length < 2 ^ 32 ∧ b' = b := by
  unfold encodePairs at h
  split_ifs at h with hge
  · simp at h
  · refine ⟨Nat.not_le.mp hge, ?_⟩
    have hkeep : Keeps id (do rlp (← rlp (pairsStream ps)).out : BlockM Bytes) :=
      (keeps_rlp _).bind fun _ => keeps_rlp _
    have := hkeep b
    rw [h] at this
    exact this

/-- An operation on `m_unSignStream` keeps the content. -/
lemma content_unSign {f : RLPStream → Except RlpError RLPStream}
    {r : Except BlockError Unit} (h : (unSign f).on b = (r, b')) : b'.content = b.content := by
  have hkeep : Keeps Block.content (unSign f) := by
    refine Keeps.bind (fun _ => rfl) fun _ => (keeps_rlp _).bind fun _ => ?_
    exact fun _ => rfl
  have := hkeep b
  rwa [h] at this

/-- When the encoding returns, there were not too many outputs and links. -/
lemma Block.length_lt_of_encode {y : Bytes} (h : encode.on b = (.ok y, b')) :
    b.content.outputs.length < 2 ^ 32 ∧ b.content.links.length < 2 ^ 32 := by
  obtain ⟨s, b₁, h, -⟩ := on_bind_eq_ok.mp h
  simp only [getStreamWithoutRSV, on_modify_bind, on_get_bind,
    on_rlp_bind_eq_ok] at h
  obtain ⟨hdr, -, h⟩ := h
  obtain ⟨⟨⟩, b₂, h₂, h⟩ := on_bind_eq_ok.mp h
  simp only [on_rlp_bind_eq_ok] at h
  obtain ⟨x, -, h⟩ := h
  obtain ⟨⟨⟩, b₃, h₃, h⟩ := on_bind_eq_ok.mp h
  simp only [on_get_bind] at h
  obtain ⟨outputs, b₄, h₄, h⟩ := on_bind_eq_ok.mp h
  obtain ⟨⟨⟩, b₅, h₅, h⟩ := on_bind_eq_ok.mp h
  simp only [on_get_bind] at h
  obtain ⟨links, b₆, h₆, -⟩ := on_bind_eq_ok.mp h
  obtain ⟨ho, rfl⟩ := encodePairs_eq_ok h₄
  obtain ⟨hl, rfl⟩ := encodePairs_eq_ok h₆
  have hc₃ := (content_unSign h₃).trans (content_unSign h₂)
  have hc₅ := (content_unSign h₅).trans hc₃
  rw [outputPairs, length_map] at ho
  rw [linkPairs, length_map] at hl
  exact ⟨(congrArg (fun c => c.outputs.length) hc₃) ▸ ho,
    (congrArg (fun c => c.links.length) hc₅) ▸ hl⟩

/-- The encoding of an output or a link is short. -/
lemma length_pairItem_le (hw : w ≤ 256) (h : BitVec w) (i : BitVec 256) :
    (Rlp.encode (pairItem (hashBytes h, i.toNat))).length ≤ 91 := by
  have hhash : (hashBytes h).length ≤ 32 := by
    have := length_bytes_toNat_le hw h
    simp only [hashBytes, fixed, length_append, length_replicate]
    omega
  have h1 := Rlp.length_frame_le (k := .data) (p := hashBytes h) (by omega)
  have h2 := length_intItem_le le_rfl i
  have hitems : (Rlp.encodeList [.data (hashBytes h), intItem i.toNat]).length ≤ 82 := by
    simp only [Rlp.encodeList_cons, Rlp.encodeList_nil, Rlp.encode_data, length_append,
      length_nil]
    omega
  exact (Rlp.length_encode_list_le (hitems.trans_lt (by norm_num))).trans
    (Nat.add_le_add_right hitems 9)

/-- The encodings of fewer than `2 ^ 32` outputs or links. -/
lemma length_pairs_le (ps : List (Bytes × ℕ)) (hlen : ps.length < 2 ^ 32)
    (h : ∀ p ∈ ps, (Rlp.encode (pairItem p)).length ≤ 91) :
    (Rlp.encode (.list (ps.map pairItem))).length ≤ 91 * 2 ^ 32 + 9 := by
  have hall : ∀ x ∈ ps.map pairItem, (Rlp.encode x).length ≤ 91 := by
    intro x hx
    obtain ⟨p, hp, rfl⟩ := mem_map.mp hx
    exact h p hp
  have hitems := Rlp.length_encodeList_le_mul hall
  rw [length_map] at hitems
  exact (Rlp.length_encode_list_le (by omega)).trans (by omega)

/-- The encoding of the unsigned part is not much longer than its payload may be. -/
lemma Content.length_item_le {c : Content} (ho : c.outputs.length < 2 ^ 32)
    (hl : c.links.length < 2 ^ 32) (hp : c.payload.length < 2 ^ 63) :
    (Rlp.encode c.item).length ≤ 2 ^ 63 + 2 ^ 42 + 9 := by
  have hheader : (Rlp.encode c.header.item).length ≤ 173 := by
    have h1 := length_intItem_le le_rfl c.header.m_type
    have h2 := length_intItem_le (by norm_num) c.header.m_time
    have h3 := length_intItem_le le_rfl c.header.m_gasPrice
    have h4 := length_intItem_le le_rfl c.header.m_gasLimit
    have hitems : (Rlp.encodeList [intItem c.header.m_type.toNat, intItem c.header.m_time.toNat,
        intItem c.header.m_gasPrice.toNat, intItem c.header.m_gasLimit.toNat]).length ≤ 164 := by
      simp only [Rlp.encodeList_cons, Rlp.encodeList_nil, length_append, length_nil]
      omega
    exact (Rlp.length_encode_list_le (by omega)).trans (by omega)
  have houtputs := length_pairs_le (outputPairs c.outputs)
    (by rwa [outputPairs, length_map]) (by
      intro p hp
      obtain ⟨o, -, rfl⟩ := mem_map.mp hp
      exact length_pairItem_le (by norm_num) _ _)
  have hlinks := length_pairs_le (linkPairs c.links)
    (by rwa [linkPairs, length_map]) (by
      intro p hp
      obtain ⟨l, -, rfl⟩ := mem_map.mp hp
      exact length_pairItem_le le_rfl _ _)
  have hpayload := Rlp.length_frame_le (k := .data) (p := c.payload) (by omega)
  have hitems : (Rlp.encodeList [c.header.item, .list ((outputPairs c.outputs).map pairItem),
      .list ((linkPairs c.links).map pairItem), .data c.payload]).length ≤
      2 ^ 63 + 2 ^ 42 := by
    rw [← Rlp.encode_data] at hpayload
    simp only [Rlp.encodeList_cons, Rlp.encodeList_nil, length_append, length_nil]
    omega
  exact (Rlp.length_encode_list_le (by omega)).trans (Nat.add_le_add_right hitems 9)

/-- The content of a block is encodable if its parts have a size. -/
lemma Content.encodable {c : Content} (ho : c.outputs.length < 2 ^ 32)
    (hl : c.links.length < 2 ^ 32) (hp : c.payload.length < 2 ^ 63) : c.Encodable := by
  refine ⟨ho, hl, (Content.length_item_le ho hl hp).trans_lt ?_⟩
  norm_num [RLP.maxLength]

/-! ### The hash of a received block -/

variable {sha3 : Bytes → H256}

/-- The hash of a block without cached bytes is the hash of its encoding. -/
theorem Block.getHash_on {x : SignatureStruct}
    (hhash : b.m_hash = 0) (hdata : b.m_rlpData = []) (h : b.content.Encodable)
    (hvrs : b.m_vrs = some x) : ((getHash sha3).on b).1 = .ok (sha3 (Rlp.encode (b.item x))) := by
  simp only [getHash, hhash, hdata, if_true, on_bind, encode_on h hvrs, on_modify,
    on_get, on_pure]

/-- A hash is only given for a block whose encoding returns. -/
lemma Block.encode_of_getHash {x : H256} (hhash : b.m_hash = 0)
    (hdata : b.m_rlpData = []) (h : ((getHash sha3).on b).1 = .ok x) :
    ∃ y b', encode.on b = (.ok y, b') := by
  rcases he : encode.on b with ⟨r, b'⟩
  cases r with
  | ok y => exact ⟨y, b', rfl⟩
  | error e =>
    simp [getHash, hhash, hdata, on_bind, he] at h

/-- The tree of a block has the form of a block on the wire. -/
lemma Block.wireForm_item (x : SignatureStruct) (ho : b.content.outputs.length < 2 ^ 32)
    (hl : b.content.links.length < 2 ^ 32) : WireForm (b.item x) := by
  have hraw : ∀ ps : List (Bytes × ℕ), ps.map pairItem =
      (ps.map fun p => (p.1, bytes p.2)).map rawPair := by
    intro ps
    rw [map_map]
    rfl
  rw [Block.item, Content.item, hraw, hraw]
  refine WireForm.mk _ _ _ _ _ _ _ _ _ _ _ ?_ ?_ ?_ ?_ ?_
  · rwa [length_map, outputPairs, length_map]
  · rwa [length_map, linkPairs, length_map]
  · intro o ho
    simp only [outputPairs, map_map, mem_map] at ho
    obtain ⟨o', -, rfl⟩ := ho
    exact length_fixed (lt_of_lt_of_le o'.addr.isLt (by norm_num))
  · intro l hl
    simp only [linkPairs, map_map, mem_map] at hl
    obtain ⟨l', -, rfl⟩ := hl
    exact length_fixed (lt_of_lt_of_le l'.blockHash.isLt (by norm_num))
  · rw [value_bytes]
    exact x.v.toNat_lt

/-- The caches of a received block are empty. -/
lemma Received.caches {byts : Bytes} (h : Received byts b) : b.m_hash = 0 ∧ b.m_rlpData = [] := by
  have hkeep := Block.keeps_decode byts {}
  rw [h.decode] at hkeep
  simp only [Block.caches, Prod.mk.injEq] at hkeep
  exact ⟨hkeep.2.2.1, hkeep.2.2.2⟩

/-- The hash of a received block of the right form is the one of the bytes. -/
lemma Received.getHash_of_wireForm (h : Received (Rlp.encode t) b) (ht : WireForm t) :
    ((Block.getHash sha3).on b).1 = .ok (sha3 (Rlp.encode t)) := by
  obtain ⟨hhash, hdata⟩ := h.caches
  obtain ⟨ho, hl, x, hvrs, hitem⟩ := h.item_eq ht
  have henc : b.content.Encodable := Content.encodable ho hl (h.payload_le.1.trans_lt h.size)
  rw [Block.getHash_on hhash hdata henc hvrs, hitem]

/-- **The identity of a received block.** Let `sha3` have no collision on a set of byte strings.
The hash of a block received as one of them, with an encoding in the set, is the hash of the
bytes exactly when they have the form of a block on the wire; and two blocks received in this
form have the same hash only if the same bytes were received.

**Proof sketch.** In one direction, the tree of the bytes is the tree of the block, so the new
encoding gives the bytes back. In the other direction, the encoding must have returned, and the
tree of a block always has this form. -/
theorem getHash_eq_sha3_iff (sha3 : Bytes → H256) (W : Set Bytes) (hinj : Set.InjOn sha3 W) :
    (∀ byts b, Received byts b → byts ∈ W →
      (∀ y, (Block.encode.on b).1 = .ok y → y ∈ W) →
      (((Block.getHash sha3).on b).1 = .ok (sha3 byts) ↔
        ∃ t, WireForm t ∧ byts = Rlp.encode t)) ∧
    (∀ t₁ t₂ b₁ b₂, Received (Rlp.encode t₁) b₁ → Received (Rlp.encode t₂) b₂ →
      WireForm t₁ → WireForm t₂ → Rlp.encode t₁ ∈ W → Rlp.encode t₂ ∈ W →
      ((Block.getHash sha3).on b₁).1 = ((Block.getHash sha3).on b₂).1 →
      Rlp.encode t₁ = Rlp.encode t₂) := by
  refine ⟨fun byts b h hbyts henc => ⟨fun hget => ?_, ?_⟩, ?_⟩
  · obtain ⟨hhash, hdata⟩ := h.caches
    obtain ⟨y, b', hy⟩ := Block.encode_of_getHash hhash hdata hget
    obtain ⟨ho, hl⟩ := Block.length_lt_of_encode hy
    obtain ⟨hp, x, hvrs⟩ := h.payload_le
    have hencodable : b.content.Encodable := Content.encodable ho hl (hp.trans_lt h.size)
    have hin : Rlp.encode (b.item x) ∈ W :=
      henc _ (congrArg Prod.fst (Block.encode_on hencodable hvrs))
    rw [Block.getHash_on hhash hdata hencodable hvrs, Except.ok.injEq] at hget
    exact ⟨b.item x, Block.wireForm_item x ho hl, (hinj hin hbyts hget).symm⟩
  · rintro ⟨t, ht, rfl⟩
    exact h.getHash_of_wireForm ht
  · intro t₁ t₂ b₁ b₂ h₁ h₂ hf₁ hf₂ hw₁ hw₂ hget
    rw [h₁.getHash_of_wireForm hf₁, h₂.getHash_of_wireForm hf₂, Except.ok.injEq] at hget
    exact hinj hw₁ hw₂ hget

/-! ### An item too much -/

/-- The encoding of a block without outputs, links and payload. -/
def plainBytes : Bytes :=
  [0xcd, 0xc8, 0xc4, 0x80, 0x80, 0x80, 0x80, 0xc0, 0xc0, 0x80, 0x80, 0x80, 0x80, 0x80]

/-- The same with a sixth item. -/
def paddedBytes : Bytes :=
  [0xce, 0xc8, 0xc4, 0x80, 0x80, 0x80, 0x80, 0xc0, 0xc0, 0x80, 0x80, 0x80, 0x80, 0x80, 0x80]

/-- The block both are read as. -/
def plainBlock : Block := { m_vrs := some ⟨0, 0, 0⟩ }

lemma received_plainBytes : Received plainBytes plainBlock :=
  ⟨by decide, by decide, by decide +kernel⟩

lemma received_paddedBytes : Received paddedBytes plainBlock :=
  ⟨by decide, by decide, by decide +kernel⟩

lemma encode_plainBlock : (Block.encode.on plainBlock).1 = .ok plainBytes := by
  decide +kernel

/-- The theorem at the padded bytes, for a hash that tells the two byte strings apart. -/
theorem getHash_eq_sha3_iff_padded :
    ((Block.getHash fun x => BitVec.ofNat 256 x.length).on plainBlock).1 =
        .ok (BitVec.ofNat 256 paddedBytes.length) ↔
      ∃ t, WireForm t ∧ paddedBytes = Rlp.encode t := by
  have hinj : Set.InjOn (fun x : Bytes => (BitVec.ofNat 256 x.length : H256))
      {plainBytes, paddedBytes} := by
    rintro x (rfl | rfl) y (rfl | rfl) h
    · rfl
    · exact absurd h (by decide)
    · exact absurd h (by decide)
    · rfl
  refine (getHash_eq_sha3_iff _ _ hinj).1 _ _ received_paddedBytes (Or.inr rfl) fun y hy => ?_
  rw [encode_plainBlock] at hy
  exact Or.inl (Except.ok.inj hy).symm

/-- Two different byte strings are read as the same block, so the blocks have the same hash; it
is the hash of the first of them only. -/
theorem plainBytes_paddedBytes :
    plainBytes ≠ paddedBytes ∧ Received plainBytes plainBlock ∧ Received paddedBytes plainBlock ∧
      (Block.encode.on plainBlock).1 = .ok plainBytes ∧
      ((Block.getHash fun x => BitVec.ofNat 256 x.length).on plainBlock).1 ≠
        .ok (BitVec.ofNat 256 paddedBytes.length) :=
  ⟨by decide, received_plainBytes, received_paddedBytes, encode_plainBlock, by decide +kernel⟩

end Tos.Sdag.Wire
