import Tos.Sdag.Identity

/-!
# What the signature of a block binds

`Block::sign` and `Block::sender` take their digest from the stream of the unsigned part that
the object keeps. Only `encode` (and `getHash` and `streamRLP`, where they come to it) writes
this stream anew; assignments to the fields and `decode` leave it as it was. So the digest
belongs to the unsigned part the block had when the stream was last written.

## Main results

* `Run.stream_eq`: what the stream holds in every run.
* `Run.digest_eq_iff`: the digest is the one of the current unsigned part exactly
  when the stream was written with it.
-/

namespace Tos.Sdag.Wire

open Method

/-- The parts of the cryptographic library that a block uses. -/
structure Crypto where
  /-- `dev::sha3` -/
  sha3 : Bytes → H256
  /-- `dev::sign`, of a secret and a digest -/
  sign : BitVec 256 → H256 → SignatureStruct
  /-- `dev::recover`, the public key behind a signature of a digest -/
  recover : SignatureStruct → H256 → BitVec 512

/-- `s_max`. -/
def s_max : H256 := 0xfffffffffffffffffffffffffffffffebaaedce6af48a03bbfd25e8cd0364141

/-- `SignatureStruct::isValid`. -/
def SignatureStruct.isValid (x : SignatureStruct) : Bool :=
  x.v ≤ 1 && 0 < x.r && 0 < x.s && x.r < s_max && x.s < s_max

/-- `MaxAddress`. -/
def maxAddress : Address := BitVec.allOnes 160

namespace Block

variable (C : Crypto)

/-- `Block::sha3`: the digest of the stream of the unsigned part. -/
def sha3 : BlockM H256 := do
  return C.sha3 (← rlp (← get).m_unSignStream.out)

/-- What `Block::sign` does with the digest. The last line of the source writes `m_vrs` to the
log. -/
def signDigest (priv : BitVec 256) (digest : H256) : BlockM Unit := do
  let sigStruct := C.sign priv digest
  if sigStruct.isValid then
    modify fun b => { b with m_vrs := some sigStruct }
  let _ ← vrs

/-- `Block::sign`. -/
def sign (priv : BitVec 256) : BlockM Unit := do signDigest C priv (← sha3 C)

/-- `Block::hasZeroSignature`. -/
def hasZeroSignature (b : Block) : Bool :=
  match b.m_vrs with
  | some x => x.r == 0 && x.s == 0
  | none => false

/-- What `Block::sender` does with the digest: the address of the public key. -/
def recoverDigest (digest : H256) : BlockM Unit := do
  let p := C.recover (← vrs) digest
  modify fun b => { b with m_sender := (C.sha3 (hashBytes p)).setWidth 160 }

/-- `Block::sender`, with the method that gives the digest. -/
def senderWith (digest : BlockM H256) : BlockM Address := do
  if (← get).m_sender = 0 then
    if (← get).hasZeroSignature then
      modify fun b => { b with m_sender := maxAddress }
    else recoverDigest C (← digest)
  return (← get).m_sender

/-- `Block::sender`. -/
def sender : BlockM Address := senderWith C (sha3 C)

end Block

/-- A call on a block, or an assignment to its fields. -/
inductive Op where
  | assign (c : Content) (vrs : Option SignatureStruct) (nonce : U256)
  | encode
  | streamRLP
  | decode (byts : Bytes)
  | getHash
  | sign (priv : BitVec 256)
  | sender

namespace Op

/-- The effect of a call. -/
def run (C : Crypto) : Op → BlockM Unit
  | assign c vrs nonce => modify fun b => { b with
      m_blockHeader := c.header, m_outputs := c.outputs, m_links := c.links,
      m_payload := c.payload, m_vrs := vrs, m_nonce := nonce }
  | encode => do let _ ← Block.encode
  | streamRLP => do let _ ← Block.getStreamWithoutRSV
  | decode byts => Block.decode byts
  | getHash => do let _ ← Block.getHash C.sha3
  | sign priv => Block.sign C priv
  | sender => do let _ ← Block.sender C

/-- The call writes the stream of the unsigned part. -/
def rebuilds (b : Block) : Op → Bool
  | encode | streamRLP => true
  | getHash => b.m_hash = 0 && b.m_rlpData = []
  | _ => false

end Op

/-- The objects that calls lead to, from a new block on; with each the unsigned part at the last
call that wrote the stream. A call that does not end is the last one. -/
inductive Run (C : Crypto) : Block → Option Content → Prop where
  | new : Run C {} none
  | step {b b' : Block} {last : Option Content} {r : Except BlockError Unit} (op : Op)
      (h : Run C b last) (hsize : (Rlp.encode b.content.item).length < RLP.maxLength)
      (hop : (op.run C).on b = (r, b')) (hr : r ≠ .error .diverges) :
      Run C b' (if op.rebuilds b then some b.content else last)

/-! ### Calls that write the stream -/

variable {b b' : Block}

/-- A call whose result is not used. -/
lemma MethodM.on_discard {α : Type} {m : BlockM α} {r : Except BlockError Unit}
    (h : (do let _ ← m : BlockM Unit).on b = (r, b')) (hr : r ≠ .error .diverges) :
    ∃ r', m.on b = (r', b') ∧ r' ≠ .error .diverges := by
  rw [on_bind] at h
  rcases e : m.on b with ⟨r', b₁⟩
  rw [e] at h
  cases r' with
  | ok a => exact ⟨_, by rw [← (Prod.mk.inj h).2], by simp⟩
  | error x =>
    obtain ⟨rfl, rfl⟩ := Prod.mk.inj h
    exact ⟨_, rfl, fun h' => hr (congrArg _ (Except.error.inj h'))⟩

namespace Block

/-- Raw items for a list that waits for more. -/
lemma appendRaw_open (out x : Bytes) {f : ℕ} (hf : 1 < f) :
    RLPStream.appendRaw ⟨out, [(f, 0)]⟩ x 1 = .ok ⟨out ++ x, [(f - 1, 0)]⟩ := by
  have h1 : ¬ f < 1 := by omega
  have h2 : f - 1 ≠ 0 := by omega
  simp [RLPStream.appendRaw, RLPStream.push, RLPStream.noteAppended, noteAppendedLoop, h1, h2]

lemma encodePairs_on_of_ge {ps : List (Bytes × ℕ)} (h : 2 ^ 32 ≤ ps.length) (b : Block) :
    (encodePairs ps).on b = (.error .diverges, b) := by
  rw [encodePairs, if_pos h, on_throw]

/-- The loop over too many outputs does not end. -/
lemma getStreamWithoutRSV_diverges (h : 2 ^ 32 ≤ b.m_outputs.length) :
    (getStreamWithoutRSV.on b).1 = .error .diverges := by
  have hheader := run_empty_of_appends b.m_blockHeader.appends_encode
  have h₁ : RLPStream.appendList {} 4 = .ok ⟨[], [(4, 0)]⟩ := rfl
  have h₂ := appendRaw_open [] (Rlp.encode b.m_blockHeader.item) (show 1 < 4 by norm_num)
  have ho : 2 ^ 32 ≤ (outputPairs b.m_outputs).length := by
    rwa [outputPairs, List.length_map]
  simp only [getStreamWithoutRSV, on_bind, unSign, on_modify, on_get,
    MethodM.on_rlp_ok, hheader, out_mk, h₁, h₂, encodePairs_on_of_ge ho]

lemma encode_diverges (h : (getStreamWithoutRSV.on b).1 = .error .diverges) :
    (encode.on b).1 = .error .diverges := by
  rw [encode, on_bind]
  rcases e : getStreamWithoutRSV.on b with ⟨r, b'⟩
  rw [e] at h
  rw [show r = .error .diverges from h]

/-- Unless a loop over the outputs or the links does not end, the block is encodable. -/
lemma encodable_or_diverges (hsize : (Rlp.encode b.content.item).length < RLP.maxLength) :
    b.content.Encodable ∨ (getStreamWithoutRSV.on b).1 = .error .diverges := by
  by_cases ho : b.m_outputs.length < 2 ^ 32
  · by_cases hl : b.m_links.length < 2 ^ 32
    · exact Or.inl ⟨ho, hl, hsize⟩
    · right
      have hheader := run_empty_of_appends b.m_blockHeader.appends_encode
      have hx := (Rlp.length_encodeList_le _).trans_lt
        (hsize.trans (by norm_num [RLP.maxLength] : RLP.maxLength < 2 ^ 64))
      have hos := encodePairs_on (outputPairs b.m_outputs)
        (by rwa [outputPairs, List.length_map])
        (lt_of_le_of_lt (Rlp.length_encode_le_of_mem (by simp [content])) hx)
      have hls : 2 ^ 32 ≤ (linkPairs b.m_links).length := by
        rw [linkPairs, List.length_map]
        exact Nat.not_lt.mp hl
      have h₁ : RLPStream.appendList {} 4 = .ok ⟨[], [(4, 0)]⟩ := rfl
      have h₂ := appendRaw_open [] (Rlp.encode b.m_blockHeader.item) (show 1 < 4 by norm_num)
      have h₃ := appendRaw_open (Rlp.encode b.m_blockHeader.item)
        (Rlp.encode (.list ((outputPairs b.m_outputs).map pairItem))) (show 1 < 3 by norm_num)
      simp only [getStreamWithoutRSV, on_bind, unSign, on_modify, on_get,
        MethodM.on_rlp_ok, hheader, out_mk, h₁, h₂, List.nil_append, Nat.reduceSub, hos, h₃,
        encodePairs_on_of_ge hls]
  · exact Or.inr (getStreamWithoutRSV_diverges (Nat.not_lt.mp ho))

/-- An encoding that ends has written the stream, with or without a signature. -/
lemma encode_stream {r : Except BlockError Bytes}
    (hsize : (Rlp.encode b.content.item).length < RLP.maxLength) (h : encode.on b = (r, b'))
    (hr : r ≠ .error .diverges) : b'.m_unSignStream = ⟨Rlp.encode b.content.item, []⟩ := by
  rcases encodable_or_diverges hsize with henc | hdiv
  · cases hvrs : b.m_vrs with
    | none =>
      rw [encode_on_of_none henc hvrs] at h
      rw [← (Prod.mk.inj h).2]
      rfl
    | some x =>
      rw [encode_on henc hvrs] at h
      rw [← (Prod.mk.inj h).2]
      rfl
  · have hstream := encode_diverges hdiv
    rw [h] at hstream
    exact absurd hstream hr

/-- `getHash` writes the stream when it has neither a hash nor bytes. -/
lemma getHash_stream {C : Crypto} {r : Except BlockError H256}
    (hsize : (Rlp.encode b.content.item).length < RLP.maxLength)
    (h : (getHash C.sha3).on b = (r, b')) (hr : r ≠ .error .diverges) :
    b'.m_unSignStream = if b.m_hash = 0 ∧ b.m_rlpData = [] then ⟨Rlp.encode b.content.item, []⟩
      else b.m_unSignStream := by
  by_cases hhash : b.m_hash = 0
  · by_cases hdata : b.m_rlpData = []
    · rw [if_pos ⟨hhash, hdata⟩]
      rcases he : encode.on b with ⟨r', b₁⟩
      simp only [getHash, on_bind, on_get, hhash, hdata, if_true, he] at h
      cases r' with
      | error e =>
        obtain ⟨rfl, rfl⟩ := Prod.mk.inj h
        exact encode_stream hsize he fun h' => hr (congrArg _ (Except.error.inj h'))
      | ok y =>
        have hb : { b₁ with m_hash := C.sha3 b₁.m_rlpData } = b' := congrArg Prod.snd h
        rw [← hb]
        change b₁.m_unSignStream = _
        exact encode_stream hsize he (by simp)
    · rw [if_neg fun h => hdata h.2]
      simp only [getHash, on_bind, on_get, hhash, hdata, if_true, if_false,
        on_modify, on_pure] at h
      rw [← (Prod.mk.inj h).2]
  · rw [if_neg fun h => hhash h.1]
    simp only [getHash, on_bind, on_get, hhash, if_false, on_pure] at h
    rw [← (Prod.mk.inj h).2]

/-! ### Calls that leave the stream -/

open Method (Keeps keeps_pure keeps_modify)

open MethodM (keeps_rlp)

variable {γ : Type}

lemma keeps_get (part : Block → γ) : Keeps part (get : BlockM Block) := fun _ => rfl

lemma keeps_vrs (part : Block → γ) : Keeps part vrs := fun b => by rw [vrs_on]

lemma keeps_sha3 (part : Block → γ) (C : Crypto) : Keeps part (sha3 C) :=
  (keeps_get part).bind fun _ => (keeps_rlp _).bind fun _ => keeps_pure _

/-- Signing changes the signature only. -/
lemma keeps_sign {part : Block → γ} (h : ∀ b x, part { b with m_vrs := x } = part b)
    (C : Crypto) (priv : BitVec 256) : Keeps part (sign C priv) := by
  refine (keeps_sha3 _ C).bind fun d => ?_
  refine Keeps.ite ?_ ((keeps_vrs _).bind fun _ => keeps_pure _)
  exact (keeps_modify fun b => h b _).bind fun _ => (keeps_vrs _).bind fun _ => keeps_pure _

/-- Recovering the sender changes the sender only. -/
lemma keeps_sender {part : Block → γ} (h : ∀ b x, part { b with m_sender := x } = part b)
    (C : Crypto) : Keeps part (sender C) := by
  unfold sender senderWith
  refine (keeps_get _).bind fun b => Keeps.ite ?_ ((keeps_get _).bind fun _ => keeps_pure _)
  refine (keeps_get _).bind fun b => Keeps.ite ?_ ?_
  · exact (keeps_modify fun b => h b _).bind fun _ => (keeps_get _).bind fun _ => keeps_pure _
  · refine (keeps_sha3 _ C).bind fun d => ?_
    exact ((keeps_vrs _).bind fun x => keeps_modify fun b => h b _).bind fun _ =>
      (keeps_get _).bind fun _ => keeps_pure _

end Block

/-- **One call.** A call that ends leaves the stream as it is or writes the unsigned part of the
block to it. -/
theorem Op.run_stream {C : Crypto} (op : Op) {r : Except BlockError Unit}
    (hsize : (Rlp.encode b.content.item).length < RLP.maxLength)
    (hop : (op.run C).on b = (r, b')) (hr : r ≠ .error .diverges) :
    b'.m_unSignStream = if op.rebuilds b then ⟨Rlp.encode b.content.item, []⟩
      else b.m_unSignStream := by
  have hkeep : ∀ m : BlockM Unit, Keeps Block.m_unSignStream m → m.on b = (r, b') →
      b'.m_unSignStream = b.m_unSignStream := by
    intro m hm e
    have := hm b
    rwa [e] at this
  cases op with
  | assign c vrs nonce => exact hkeep _ (fun _ => rfl) hop
  | encode =>
    obtain ⟨r', h, hr'⟩ := MethodM.on_discard hop hr
    exact Block.encode_stream hsize h hr'
  | streamRLP =>
    obtain ⟨r', h, hr'⟩ := MethodM.on_discard hop hr
    rcases Block.encodable_or_diverges hsize with henc | hdiv
    · rw [Block.getStreamWithoutRSV_on henc] at h
      rw [← (Prod.mk.inj h).2]
      rfl
    · rw [h] at hdiv
      exact absurd hdiv hr'
  | decode byts =>
    have hcaches := Block.keeps_decode byts b
    rw [show (Block.decode byts).on b = (r, b') from hop] at hcaches
    exact congrArg (fun c => c.2.1) hcaches
  | getHash =>
    obtain ⟨r', h, hr'⟩ := MethodM.on_discard hop hr
    simpa [rebuilds] using Block.getHash_stream hsize h hr'
  | sign priv => exact hkeep _ (Block.keeps_sign (fun _ _ => rfl) C priv) hop
  | sender =>
    exact hkeep _ ((Block.keeps_sender (fun _ _ => rfl) C).bind fun _ => keeps_pure _) hop

/-- What the stream holds if the unsigned part `last` was written last. -/
def streamOf : Option Content → RLPStream
  | none => {}
  | some c => ⟨Rlp.encode c.item, []⟩

variable {last : Option Content}

/-- **Every run.** The stream holds the unsigned part the block had at the last call that wrote
it. -/
theorem Run.stream_eq {C : Crypto} (h : Run C b last) :
    b.m_unSignStream = streamOf last ∧
      ∀ c, last = some c → (Rlp.encode c.item).length < RLP.maxLength := by
  induction h with
  | new => exact ⟨rfl, by simp⟩
  | @step b b' last r op h hsize hop hr ih =>
    have hstream := op.run_stream hsize hop hr
    by_cases hre : op.rebuilds b
    · simp only [hre, if_true] at hstream ⊢
      refine ⟨hstream, ?_⟩
      rintro c hc
      rwa [← Option.some.inj hc]
    · simp only [hre] at hstream ⊢
      exact ⟨hstream.trans ih.1, ih.2⟩

/-! ### The digest -/

/-- The digest of a block that calls have led to. -/
lemma Run.sha3_on {C : Crypto} (h : Run C b last) :
    (Block.sha3 C).on b = (.ok (C.sha3 b.m_unSignStream.m_out), b) := by
  have hout : b.m_unSignStream.out = .ok b.m_unSignStream.m_out := by
    rw [h.stream_eq.1]
    cases last <;> rfl
  simp only [Block.sha3, on_bind, on_get, hout, MethodM.on_rlp_ok, on_pure]

lemma Block.senderWith_on {C : Crypto} {m : BlockM H256} {d : H256}
    (h : m.on b = (.ok d, b)) : (senderWith C m).on b = (senderWith C (pure d)).on b := by
  unfold senderWith
  rw [on_get_bind, on_get_bind]
  split_ifs
  · rw [on_get_bind, on_get_bind]
    split_ifs
    · rfl
    · rw [on_bind_of_ok h, on_bind_of_ok (on_pure d)]
  · rfl

/-- The stream holds the encoding of an unsigned part exactly when it was written last. -/
lemma Run.stream_eq_iff {C : Crypto} (h : Run C b last)
    {c : Content} (hc : (Rlp.encode c.item).length < RLP.maxLength) :
    b.m_unSignStream.m_out = Rlp.encode c.item ↔ last = some c := by
  obtain ⟨hstream, hlast⟩ := h.stream_eq
  have hmax : RLP.maxLength < 2 ^ 64 := by norm_num [RLP.maxLength]
  cases last with
  | none =>
    have hne : ([] : Bytes) ≠ Rlp.encode c.item := (Rlp.encode_ne_nil _).symm
    simp [hstream, streamOf, hne]
  | some c' =>
    rw [hstream, Option.some.injEq]
    constructor
    · intro he
      exact Content.item_injective
        (Rlp.encode_injective_of_lt ((hlast c' rfl).trans hmax) (hc.trans hmax) he)
    · rintro rfl
      rfl

/-- **What the digest binds.** Let `sha3` have no collision on a set of byte strings. For every
block that calls have led to, `sign` and `sender` use the same digest, and it is the one of the
current unsigned part exactly when this was the unsigned part at the last call that wrote the
stream. Two blocks for which this holds have the same digest only if their unsigned parts are
the same. -/
theorem Run.digest_eq_iff (C : Crypto) (W : Set Bytes) (hinj : Set.InjOn C.sha3 W) :
    (∀ b last, Run C b last → (Rlp.encode b.content.item).length < RLP.maxLength →
      b.m_unSignStream.m_out ∈ W → Rlp.encode b.content.item ∈ W →
      ∃ d, (Block.sha3 C).on b = (.ok d, b) ∧
        (∀ priv, (Block.sign C priv).on b = (Block.signDigest C priv d).on b) ∧
        (Block.sender C).on b = (Block.senderWith C (pure d)).on b ∧
        (d = C.sha3 (Rlp.encode b.content.item) ↔ last = some b.content)) ∧
    (∀ b₁ b₂, Run C b₁ (some b₁.content) → Run C b₂ (some b₂.content) →
      Rlp.encode b₁.content.item ∈ W → Rlp.encode b₂.content.item ∈ W →
      ((Block.sha3 C).on b₁).1 = ((Block.sha3 C).on b₂).1 → b₁.content = b₂.content) := by
  constructor
  · intro b last h hsize hstream hcontent
    refine ⟨_, h.sha3_on, fun priv => ?_, Block.senderWith_on h.sha3_on, ?_⟩
    · exact on_bind_of_ok h.sha3_on
    · rw [← h.stream_eq_iff hsize]
      exact ⟨fun he => hinj hstream hcontent he, fun he => by rw [he]⟩
  · intro b₁ b₂ h₁ h₂ hw₁ hw₂ he
    have hsize₁ := h₁.stream_eq.2 _ rfl
    have hsize₂ := h₂.stream_eq.2 _ rfl
    rw [h₁.sha3_on, h₂.sha3_on, Except.ok.injEq, (h₁.stream_eq_iff hsize₁).mpr rfl,
      (h₂.stream_eq_iff hsize₂).mpr rfl] at he
    have hmax : RLP.maxLength < 2 ^ 64 := by norm_num [RLP.maxLength]
    exact Content.item_injective (Rlp.encode_injective_of_lt (hsize₁.trans hmax)
      (hsize₂.trans hmax) (hinj hw₁ hw₂ he))

/-! ### Blocks with and without a stream -/

/-- A block whose payload, of `n` zeros, has been assigned. -/
def assigned (n : ℕ) : Block := { m_payload := List.replicate n 0 }

lemma encodable_assigned (n : ℕ) (hn : n < 2 ^ 63) : (assigned n).content.Encodable :=
  Content.encodable (by simp [assigned, Block.content]) (by simp [assigned, Block.content])
    (by simpa [assigned, Block.content] using hn)

lemma run_assigned (C : Crypto) (n : ℕ) : Run C (assigned n) none :=
  Run.step (.assign ⟨{}, [], [], List.replicate n 0⟩ none 0) Run.new
    (encodable_assigned 0 (by norm_num)).size rfl (by simp)

/-- The block after its stream has been written. -/
lemma run_rebuilt (C : Crypto) (n : ℕ) (hn : n < 2 ^ 63) :
    Run C (assigned n).rebuilt (some (assigned n).content) := by
  have hop : (Op.streamRLP.run C).on (assigned n) = (.ok (), (assigned n).rebuilt) :=
    on_bind_of_ok (Block.getStreamWithoutRSV_on (encodable_assigned n hn))
  exact Run.step .streamRLP (run_assigned C n) (encodable_assigned n hn).size hop (by simp)

/-- The theorem at a block whose stream has been written, for a hash that takes the length. -/
theorem Run.digest_eq_iff_rebuilt :
    ∃ d, (Block.sha3 ⟨fun x => BitVec.ofNat 256 x.length, fun _ _ => ⟨1, 1, 0⟩, fun _ _ => 0⟩).on
        (assigned 2).rebuilt = (.ok d, (assigned 2).rebuilt) ∧
      d = BitVec.ofNat 256 (Rlp.encode (assigned 2).rebuilt.content.item).length := by
  let C : Crypto := ⟨fun x => BitVec.ofNat 256 x.length, fun _ _ => ⟨1, 1, 0⟩, fun _ _ => 0⟩
  have hinj : Set.InjOn C.sha3 {Rlp.encode (assigned 2).content.item} := by simp
  obtain ⟨d, hd, -, -, hiff⟩ := (Run.digest_eq_iff C _ hinj).1 _ _
    (run_rebuilt C 2 (by norm_num)) (encodable_assigned 2 (by norm_num)).size rfl rfl
  exact ⟨d, hd, hiff.mpr rfl⟩

/-- A block that was received and one that was put together by assignments have the same digest,
the one of the empty byte string, although their unsigned parts are different and neither has an
empty encoding. -/
theorem plainBlock_assigned_sha3 :
    plainBlock.content ≠ (assigned 1).content ∧
      Rlp.encode plainBlock.content.item ≠ [] ∧ Rlp.encode (assigned 1).content.item ≠ [] ∧
      ∀ C : Crypto, Run C plainBlock none ∧ Run C (assigned 1) none ∧
        ((Block.sha3 C).on plainBlock).1 = .ok (C.sha3 []) ∧
        ((Block.sha3 C).on (assigned 1)).1 = .ok (C.sha3 []) := by
  refine ⟨by decide, Rlp.encode_ne_nil _, Rlp.encode_ne_nil _, fun C => ?_⟩
  have hplain : Run C plainBlock none := Run.step (.decode plainBytes) Run.new
    (encodable_assigned 0 (by norm_num)).size received_plainBytes.decode (by simp)
  exact ⟨hplain, run_assigned C 1, by rw [hplain.sha3_on]; rfl,
    by rw [(run_assigned C 1).sha3_on]; rfl⟩

end Tos.Sdag.Wire
