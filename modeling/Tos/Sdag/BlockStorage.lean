import Tos.Sdag.MemPool
import Tos.Sdag.RoundTrip

/-!
# The key of a stored block

`BlockStorage::write` stores a new encoding of a block under the hash that `Block::getHash` gives.
The encoding is made from the fields each time, but `getHash` remembers its first result, which it
takes from the last encoding if there is one: no assignment and no call of `decode` or `sign` takes
it back. So after any calls a block is stored under the hash of the stored bytes when no hash has
been taken, or the fields are those of the encoding whose hash was taken; and only then, unless the
hash function has a collision.

## Main results

* `BlockMemPool.write_on_bytes`: what is stored, and under which key.
* `Traced.describes`: what the caches hold in every run.
* `contentAddressed_of_traced`: when the key is the hash of the stored bytes.
-/

namespace Tos.Sdag.Wire

/-- Writing the block succeeds; the key is the hash of the bytes that are stored, and a new block
that reads these bytes has the fields of the block. -/
def ContentAddressed (sha3 : Bytes → H256) (b : Block) : Prop :=
  ∃ b' code, (∀ pool, (BlockMemPool.write sha3 b).on pool =
      (.ok b', pool.store (toSlice (sha3 code)) code)) ∧
    ∃ b'', (Block.decode code).on {} = (.ok (), b'') ∧ b''.fields = b.fields

/-- The block is signed, the loops of its encoding end, and the hash it remembers, if any, is the
one of its current encoding. -/
structure Writable (sha3 : Bytes → H256) (b : Block) : Prop where
  signed : b.m_vrs.isSome
  outputs : b.m_outputs.length < 2 ^ 32
  links : b.m_links.length < 2 ^ 32
  hash : b.m_hash = 0 ∨ b.m_hash = sha3 b.bytes

/-- The hash that `getHash` gives for a block that has just been encoded. -/
def Block.keyHash (sha3 : Bytes → H256) (b : Block) : H256 :=
  if b.m_hash = 0 then sha3 b.bytes else b.m_hash

lemma Block.bytes_ne_nil {b : Block} (h : b.m_vrs.isSome) : b.bytes ≠ [] := by
  obtain ⟨x, hx⟩ := Option.isSome_iff_exists.mp h
  simp only [bytes, hx, Option.map_some, Option.getD_some]
  exact Rlp.encode_ne_nil _

/-- The hash of a block that has just been encoded. -/
lemma Block.getHash_on_encoded (sha3 : Bytes → H256) {b : Block} (h : b.m_vrs.isSome) :
    ∃ b', (getHash sha3).on b.encoded = (.ok (b.keyHash sha3), b') := by
  have hhash : b.encoded.m_hash = b.m_hash := by simp only [encoded, rebuilt]
  have hdata : b.encoded.m_rlpData = b.bytes := rfl
  rw [getHash, Method.on_get_bind, hhash, keyHash]
  split_ifs with h0
  · rw [Method.on_get_bind, hdata, if_neg (bytes_ne_nil h), Method.on_modify_bind,
      Method.on_get_bind, Method.on_pure, ← hdata]
    exact ⟨_, rfl⟩
  · exact ⟨b.encoded, by rw [Method.on_get_bind, hhash, Method.on_pure]⟩

namespace BlockMemPool

variable {sha3 : Bytes → H256} {b : Block}

/-- **What is stored.** A signed block is stored with its current encoding, under the hash it
remembers if it remembers one. -/
lemma write_on_bytes (sha3 : Bytes → H256) (henc : b.content.Encodable) (h : b.m_vrs.isSome) :
    ∃ b', ∀ pool, (write sha3 b).on pool =
      (.ok b', pool.store (toSlice (b.keyHash sha3)) b.bytes) := by
  obtain ⟨b', hb'⟩ := Block.getHash_on_encoded sha3 h
  refine ⟨b', fun pool => ?_⟩
  rw [write, Method.on_bind_of_ok (onBlock_on (Block.encode_on_bytes henc h) pool),
    Method.on_bind_of_ok (onBlock_on hb' pool), Method.on_modify_bind]
  rfl

/-- A block that is written has been encoded. -/
lemma encode_of_write {pool pool' : BlockMemPool} {b' : Block}
    (h : (write sha3 b).on pool = (.ok b', pool')) : ∃ y b₁, Block.encode.on b = (.ok y, b₁) := by
  rcases e : Block.encode.on b with ⟨r, b₁⟩
  cases r with
  | ok y => exact ⟨y, b₁, rfl⟩
  | error x =>
    have herr : (onBlock Block.encode b).on pool = (.error x, pool) := by
      rw [onBlock, e]
      rfl
    rw [write, Method.on_bind_of_error herr] at h
    cases h

/-- The entry of a new storage tells what has been stored. -/
lemma store_injective {k k' code code' : Bytes}
    (h : store k code {} = store k' code' {}) : k = k' ∧ code = code' := by
  have hstorage := congrFun (congrArg m_blockStorage h) k
  simp only [store, Function.update_self] at hstorage
  by_cases hk : k = k'
  · subst hk
    rw [Function.update_self, Option.some.injEq] at hstorage
    exact ⟨rfl, hstorage⟩
  · rw [Function.update_of_ne hk] at hstorage
    cases hstorage

end BlockMemPool

/-- What can be said of a block that is stored under the hash of its bytes. -/
lemma ContentAddressed.writable {sha3 : Bytes → H256} {b : Block} (h : ContentAddressed sha3 b)
    (hp : b.m_payload.length < 2 ^ 63) : Writable sha3 b := by
  obtain ⟨b', code, hwrite, -⟩ := h
  obtain ⟨y, b₁, hy⟩ := BlockMemPool.encode_of_write (hwrite {})
  obtain ⟨ho, hl⟩ := Block.length_lt_of_encode hy
  have henc : b.content.Encodable := Content.encodable ho hl hp
  have hsigned : b.m_vrs.isSome := by
    by_contra hnone
    rw [Block.encode_on_of_none henc (Option.not_isSome_iff_eq_none.mp hnone)] at hy
    cases hy
  refine ⟨hsigned, ho, hl, ?_⟩
  -- the key and the bytes are those of the only entry of a new storage
  obtain ⟨b₂, hb₂⟩ := BlockMemPool.write_on_bytes sha3 henc hsigned
  obtain ⟨hkey, rfl⟩ := BlockMemPool.store_injective
    (congrArg Prod.snd ((hb₂ {}).symm.trans (hwrite {})))
  have hhash := BlockMemPool.toSlice_injective hkey
  unfold Block.keyHash at hhash
  split_ifs at hhash with h0
  · exact Or.inl h0
  · exact Or.inr hhash

/-- **One write.** It stores bytes that are read as the fields of the block, under the hash of these
bytes, exactly when the block is signed, the loops of its encoding end, and it remembers no hash or
the one of its current encoding. -/
lemma contentAddressed_iff_writable (sha3 : Bytes → H256) (b : Block)
    (hp : b.m_payload.length < 2 ^ 63) : ContentAddressed sha3 b ↔ Writable sha3 b := by
  refine ⟨fun h => h.writable hp, ?_⟩
  rintro ⟨hsigned, ho, hl, hhash⟩
  have henc : b.content.Encodable := Content.encodable ho hl hp
  obtain ⟨b', hb'⟩ := BlockMemPool.write_on_bytes sha3 henc hsigned
  have hkey : b.keyHash sha3 = sha3 b.bytes := by
    unfold Block.keyHash
    split_ifs with h0
    · rfl
    · exact hhash.resolve_left h0
  obtain ⟨x, hx⟩ := Option.isSome_iff_exists.mp hsigned
  obtain ⟨y, b₁, b₂, hy, hread, hfields, -⟩ := Block.roundTrips hx ho hl hp
  obtain rfl : b.bytes = y :=
    Except.ok.inj (congrArg Prod.fst ((Block.encode_on_bytes henc hsigned).symm.trans hy))
  exact ⟨b', b.bytes, fun pool => by rw [hb', hkey], b₂, hread, hfields⟩

/-! ### Calls -/

/-- What the caches of a block go back to: the block as it was at the encoding that is kept, and as
it was at the encoding whose hash is kept. -/
structure Kept where
  encoded : Option Block := none
  hashed : Option Block := none

/-- What is kept after a call. An encoding without a signature throws and is not kept. A hash is
taken once, from the encoding that is kept or, if there is none, from a new one. -/
def Op.keep (b : Block) (k : Kept) : Op → Kept
  | encode => if b.m_vrs.isSome then { k with encoded := some b } else k
  | getHash =>
    if b.m_hash ≠ 0 then k
    else if b.m_rlpData ≠ [] then { k with hashed := k.encoded }
    else if b.m_vrs.isSome then ⟨some b, some b⟩
    else k
  | _ => k

/-- The objects that calls lead to, from a new block on, with what is kept. A call that does not
end is the last one. -/
inductive Traced (C : Crypto) : Block → Kept → Prop where
  | new : Traced C {} {}
  | step {b b' : Block} {k : Kept} {r : Except BlockError Unit} (op : Op) (h : Traced C b k)
      (hsize : (Rlp.encode b.content.item).length < RLP.maxLength)
      (hop : (op.run C).on b = (r, b')) (hr : r ≠ .error .diverges) : Traced C b' (op.keep b k)

/-- The block is signed, the loops of its encoding end, and if a hash is kept, then the fields are
those of the encoding it was taken from: no assignment and no call of `decode` or `sign` has changed
them since. -/
structure Kept.Current (k : Kept) (b : Block) : Prop where
  signed : b.m_vrs.isSome
  outputs : b.m_outputs.length < 2 ^ 32
  links : b.m_links.length < 2 ^ 32
  fields : ∀ e, k.hashed = some e → e.fields = b.fields

/-- What the caches hold. -/
structure Kept.Describes (sha3 : Bytes → H256) (k : Kept) (b : Block) : Prop where
  data : b.m_rlpData = (k.encoded.map Block.bytes).getD []
  hash : b.m_hash = (k.hashed.map fun e => sha3 e.bytes).getD 0
  encoded : ∀ e, k.encoded = some e → e.content.Encodable ∧ e.m_vrs.isSome
  hashed : ∀ e, k.hashed = some e → e.content.Encodable ∧ e.m_vrs.isSome

/-- The two caches. -/
def Block.dataHash (b : Block) : Bytes × H256 := (b.m_rlpData, b.m_hash)

section Calls

variable {C : Crypto} {b b' : Block} {k : Kept}

/-- A call that leaves the caches leaves what is said of them. -/
lemma Kept.Describes.congr (h : k.Describes C.sha3 b) (hb : b'.dataHash = b.dataHash) :
    k.Describes C.sha3 b' := by
  obtain ⟨hdata, hhash⟩ := Prod.mk.inj hb
  exact ⟨hdata.trans h.data, hhash.trans h.hash, h.encoded, h.hashed⟩

/-- An encoding that ends returns exactly when the block is signed. -/
lemma Block.isSome_iff_of_encode (hsize : (Rlp.encode b.content.item).length < RLP.maxLength)
    {r : Except BlockError Bytes} (hop : Block.encode.on b = (r, b')) (hr : r ≠ .error .diverges) :
    b.m_vrs.isSome ↔ ∃ y, r = .ok y := by
  rcases Block.encodable_or_diverges hsize with henc | hdiv
  · by_cases hv : b.m_vrs.isSome
    · rw [Block.encode_on_bytes henc hv] at hop
      exact iff_of_true hv ⟨_, (Prod.mk.inj hop).1.symm⟩
    · rw [Block.encode_on_of_none henc (Option.not_isSome_iff_eq_none.mp hv)] at hop
      rw [← (Prod.mk.inj hop).1]
      simp [hv]
  · have hstream := Block.encode_diverges hdiv
    rw [hop] at hstream
    exact absurd hstream hr

/-- An encoding that ends is kept if the block is signed. -/
lemma Kept.Describes.encode (h : k.Describes C.sha3 b)
    (hsize : (Rlp.encode b.content.item).length < RLP.maxLength) {r : Except BlockError Bytes}
    (hop : Block.encode.on b = (r, b')) (hr : r ≠ .error .diverges) :
    (Op.encode.keep b k).Describes C.sha3 b' := by
  rcases Block.encodable_or_diverges hsize with henc | hdiv
  · rw [Op.keep]
    split_ifs with hv
    · rw [Block.encode_on_bytes henc hv] at hop
      obtain ⟨-, rfl⟩ := Prod.mk.inj hop
      have hdata : b.encoded.m_rlpData = b.bytes := rfl
      have hhash : b.encoded.m_hash = b.m_hash := by simp only [Block.encoded, Block.rebuilt]
      refine ⟨hdata, hhash.trans h.hash, fun e he => ?_, h.hashed⟩
      obtain rfl : b = e := Option.some.inj he
      exact ⟨henc, hv⟩
    · rw [Block.encode_on_of_none henc (Option.not_isSome_iff_eq_none.mp hv)] at hop
      obtain ⟨-, rfl⟩ := Prod.mk.inj hop
      exact h.congr rfl
  · have hstream := Block.encode_diverges hdiv
    rw [hop] at hstream
    exact absurd hstream hr

/-- A hash is taken from the encoding that is kept, or from a new one. -/
lemma Kept.Describes.getHash (h : k.Describes C.sha3 b)
    (hsize : (Rlp.encode b.content.item).length < RLP.maxLength) {r : Except BlockError H256}
    (hop : (Block.getHash C.sha3).on b = (r, b')) (hr : r ≠ .error .diverges) :
    (Op.getHash.keep b k).Describes C.sha3 b' := by
  rw [Block.getHash, Method.on_get_bind] at hop
  by_cases hhash : b.m_hash = 0
  · rw [if_pos hhash, Method.on_get_bind] at hop
    by_cases hdata : b.m_rlpData = []
    · rw [if_pos hdata, Method.on_bind] at hop
      have hkeep : Op.getHash.keep b k = if b.m_vrs.isSome then ⟨some b, some b⟩ else k := by
        simp [Op.keep, hhash, hdata]
      rcases e : Block.encode.on b with ⟨r', b₁⟩
      rw [e] at hop
      cases r' with
      | error x =>
        obtain ⟨rfl, rfl⟩ := Prod.mk.inj hop
        have hx : (.error x : Except BlockError Bytes) ≠ .error .diverges :=
          fun h' => hr (congrArg _ (Except.error.inj h'))
        have henc := h.encode hsize e hx
        have hv : ¬ b.m_vrs.isSome := by
          intro hv
          obtain ⟨y, hy⟩ := (Block.isSome_iff_of_encode hsize e hx).mp hv
          cases hy
        rw [Op.keep, if_neg hv] at henc
        rwa [hkeep, if_neg hv]
      | ok y =>
        have henc := h.encode hsize e (by simp)
        have hv : b.m_vrs.isSome := (Block.isSome_iff_of_encode hsize e (by simp)).mpr ⟨y, rfl⟩
        rw [Op.keep, if_pos hv] at henc
        obtain rfl : b₁.hashed C.sha3 = b' := congrArg Prod.snd hop
        rw [hkeep, if_pos hv]
        exact ⟨henc.data, congrArg C.sha3 henc.data, henc.encoded, henc.encoded⟩
    · rw [if_neg hdata] at hop
      obtain rfl : b.hashed C.sha3 = b' := congrArg Prod.snd hop
      have hkeep : Op.getHash.keep b k = { k with hashed := k.encoded } := by
        simp [Op.keep, hhash, hdata]
      rw [hkeep]
      refine ⟨h.data, ?_, h.encoded, h.encoded⟩
      have hd := h.data
      cases he : k.encoded with
      | none => simp [hd, he] at hdata
      | some e =>
        rw [he] at hd
        exact congrArg C.sha3 hd
  · rw [if_neg hhash] at hop
    obtain rfl : b = b' := congrArg Prod.snd hop
    rwa [Op.keep, if_pos hhash]

/-- **One call.** What is kept describes the caches after every call that ends. -/
lemma Kept.Describes.step (h : k.Describes C.sha3 b) (op : Op) {r : Except BlockError Unit}
    (hsize : (Rlp.encode b.content.item).length < RLP.maxLength)
    (hop : (op.run C).on b = (r, b')) (hr : r ≠ .error .diverges) :
    (op.keep b k).Describes C.sha3 b' := by
  have hkeeps : ∀ m : BlockM Unit, Method.Keeps Block.dataHash m → m.on b = (r, b') →
      k.Describes C.sha3 b' := by
    intro m hm e
    have hb := hm b
    rw [e] at hb
    exact h.congr hb
  cases op with
  | assign c vrs nonce => exact hkeeps _ (fun _ => rfl) hop
  | encode =>
    obtain ⟨r', hop', hr'⟩ := MethodM.on_discard hop hr
    exact h.encode hsize hop' hr'
  | streamRLP =>
    obtain ⟨r', hop', hr'⟩ := MethodM.on_discard hop hr
    rcases Block.encodable_or_diverges hsize with henc | hdiv
    · rw [Block.getStreamWithoutRSV_on henc] at hop'
      obtain ⟨-, rfl⟩ := Prod.mk.inj hop'
      exact h.congr rfl
    · rw [hop'] at hdiv
      exact absurd hdiv hr'
  | decode byts =>
    have hcaches := Block.keeps_decode byts b
    rw [show (Block.decode byts).on b = (r, b') from hop] at hcaches
    exact h.congr (congrArg (fun c => (c.2.2.2, c.2.2.1)) hcaches)
  | getHash =>
    obtain ⟨r', hop', hr'⟩ := MethodM.on_discard hop hr
    exact h.getHash hsize hop' hr'
  | sign priv => exact hkeeps _ (Block.keeps_sign (fun _ _ => rfl) C priv) hop
  | sender =>
    exact hkeeps _ ((Block.keeps_sender (fun _ _ => rfl) C).bind fun _ => Method.keeps_pure _) hop

/-- **Every run.** What is kept describes the caches. -/
theorem Traced.describes (h : Traced C b k) : k.Describes C.sha3 b := by
  induction h with
  | new => exact ⟨rfl, rfl, by simp, by simp⟩
  | step op _ hsize hop hr ih => exact ih.step op hsize hop hr

/-- The encoding of a signed block determines its fields. -/
lemma Block.fields_of_bytes {e : Block} (he : e.content.Encodable ∧ e.m_vrs.isSome)
    (hb : b.content.Encodable ∧ b.m_vrs.isSome) (h : e.bytes = b.bytes) : e.fields = b.fields := by
  have hlen : ∀ {c : Block} {z}, c.content.Encodable → (Rlp.encode (c.item z)).length < 2 ^ 64 := by
    intro c z hc
    have hitems := length_items_lt hc z
    exact (Rlp.length_encode_list_le (by omega)).trans_lt hitems
  obtain ⟨⟨r, s, v⟩, hx⟩ := Option.isSome_iff_exists.mp he.2
  obtain ⟨⟨r', s', v'⟩, hy⟩ := Option.isSome_iff_exists.mp hb.2
  simp only [bytes, hx, hy, Option.map_some, Option.getD_some] at h
  have hitem := Rlp.encode_injective_of_lt (hlen he.1) (hlen hb.1) h
  simp only [item, Rlp.Item.list.injEq, List.cons.injEq, intItem_injective.eq_iff,
    and_true] at hitem
  obtain ⟨hc, hv, hr, hs, hn⟩ := hitem
  rw [fields, fields, hx, hy, Content.item_injective hc, UInt8.toNat_inj.mp hv,
    BitVec.eq_of_toNat_eq hr, BitVec.eq_of_toNat_eq hs, BitVec.eq_of_toNat_eq hn]

end Calls

/-- The hash function has no collision between the current encoding and the one whose hash is kept,
and does not give zero for the latter. -/
def Kept.Collisionless (sha3 : Bytes → H256) (k : Kept) (b : Block) : Prop :=
  ∀ e, k.hashed = some e → sha3 e.bytes ≠ 0 ∧ (sha3 e.bytes = sha3 b.bytes → e.bytes = b.bytes)

/-- **When a stored block is found under its hash.** After any calls on a block, writing it stores
bytes that are read as its fields, under the hash of these bytes, if the block is signed, the loops
of its encoding end, and either no hash has been taken or the fields are those of the encoding whose
hash was taken. Where the hash function has no collision, it does so only then.

**Proof sketch.** By `Traced.describes` the hash that is remembered is the one of the encoding it
was taken from, and by `contentAddressed_iff_writable` it has to be zero or the one of the current
encoding. Without a collision the two encodings are the same, and so are the fields. -/
theorem contentAddressed_of_traced (C : Crypto) (b : Block) (k : Kept) (h : Traced C b k)
    (hp : b.m_payload.length < 2 ^ 63) :
    (k.Current b → ContentAddressed C.sha3 b) ∧
      (k.Collisionless C.sha3 b → ContentAddressed C.sha3 b → k.Current b) := by
  have hd := h.describes
  rw [contentAddressed_iff_writable _ _ hp]
  constructor
  · rintro ⟨hsigned, ho, hl, hfields⟩
    refine ⟨hsigned, ho, hl, ?_⟩
    cases hk : k.hashed with
    | none => exact Or.inl (by rw [hd.hash, hk]; rfl)
    | some e =>
      have hf := hfields e hk
      simp only [Block.fields, Prod.mk.injEq] at hf
      have hbytes : e.bytes = b.bytes := Block.bytes_congr hf.1 hf.2.1 hf.2.2
      exact Or.inr (by rw [hd.hash, hk, ← hbytes]; rfl)
  · rintro hcoll ⟨hsigned, ho, hl, hhash⟩
    refine ⟨hsigned, ho, hl, fun e hk => ?_⟩
    have he : b.m_hash = C.sha3 e.bytes := by rw [hd.hash, hk]; rfl
    obtain ⟨hzero, hinj⟩ := hcoll e hk
    rw [he] at hhash
    exact Block.fields_of_bytes (hd.hashed e hk) ⟨Content.encodable ho hl hp, hsigned⟩
      (hinj (hhash.resolve_left hzero))

/-! ### A hash that is taken early -/

/-- A library whose hash is the length. -/
def lengthCrypto : Crypto := ⟨BlockMemPool.lengthHash, fun _ _ => ⟨1, 1, 0⟩, fun _ _ => 0⟩

/-- The assignment of all fields of a block. -/
def Op.fill (b : Block) : Op := .assign b.content b.m_vrs b.m_nonce

/-- The block with outputs, links and a payload after its hash has been taken. -/
def hashedFull : Block := ((Op.getHash.run lengthCrypto).on fullBlock).2

/-- The block when its nonce is changed afterwards. -/
def renonced : Block := { hashedFull with m_nonce := 256 }

/-- The block is put together by assignments, and its hash is taken. -/
lemma traced_hashedFull : Traced lengthCrypto hashedFull ⟨some fullBlock, some fullBlock⟩ := by
  have hfull : Traced lengthCrypto fullBlock {} :=
    Traced.step (.fill fullBlock) Traced.new (encodable_assigned 0 (by norm_num)).size rfl (by simp)
  exact Traced.step .getHash hfull (by decide +kernel) (r := .ok ()) (by decide +kernel) (by simp)

/-- A block with outputs, links and a payload is stored under its hash also when that has been
taken before. -/
theorem contentAddressed_of_traced_hashedFull :
    hashedFull.m_hash ≠ 0 ∧ ContentAddressed lengthCrypto.sha3 hashedFull := by
  refine ⟨by decide +kernel, (contentAddressed_of_traced lengthCrypto hashedFull _
    traced_hashedFull (by decide +kernel)).1 ⟨by decide +kernel, by decide +kernel,
      by decide +kernel, fun e he => ?_⟩⟩
  obtain rfl : fullBlock = e := Option.some.inj he
  decide +kernel

/-- After `getHash` and a new nonce, the block is stored under its old hash, which is not the hash
of the bytes that are stored. -/
theorem renonced_not_contentAddressed :
    Traced lengthCrypto renonced ⟨some fullBlock, some fullBlock⟩ ∧
      renonced.keyHash lengthCrypto.sha3 = fullBlock.hash lengthCrypto.sha3 ∧
      (∃ b', ∀ pool, (BlockMemPool.write lengthCrypto.sha3 renonced).on pool =
        (.ok b', pool.store (toSlice (renonced.keyHash lengthCrypto.sha3)) renonced.bytes)) ∧
      renonced.keyHash lengthCrypto.sha3 ≠ lengthCrypto.sha3 renonced.bytes ∧
      ¬ ContentAddressed lengthCrypto.sha3 renonced := by
  have henc : renonced.content.Encodable :=
    ⟨by decide +kernel, by decide +kernel, by decide +kernel⟩
  refine ⟨Traced.step (.fill renonced) traced_hashedFull (by decide +kernel) (r := .ok ())
    (by decide +kernel) (by simp), by decide +kernel,
    BlockMemPool.write_on_bytes lengthCrypto.sha3 henc (by decide +kernel), by decide +kernel,
    fun h => ?_⟩
  have hhash := (h.writable (by decide +kernel)).hash
  revert hhash
  decide +kernel

end Tos.Sdag.Wire
