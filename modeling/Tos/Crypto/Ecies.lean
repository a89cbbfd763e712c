import Tos.Crypto.Kdf

/-!
# Encryption to a public key

`Secp256k1PP::encryptECIES` and `decryptECIES` of `toscrypto/CryptoPP.cpp`. A message is the byte
`4`, the public half of a fresh key pair, the initial counter block, the ciphertext, and a tag
over the two before it and the shared MAC data, which is not sent. The two sides ask for derived
keys of different lengths and use the same first half of them.

## Main results

* `eKey_eq`, `mKey_eq`: both sides derive the same keys.
* `decryptECIES_eq`: what is made of a message, by its parts.
* `ecies_authenticated`: messages come back, and altered ones are refused.

## Implementation notes

The fresh key pair and the counter block are arguments. A buffer that is passed by reference is
returned with the result. An exception of the cipher is `none`. No function into 32 bytes is
injective on all byte strings, so that injectivity of the tag is assumed of the two strings that
are compared.
-/

namespace Tos.Crypto

open List

/-- `Public`. -/
abbrev Public := FixedBytes 64

/-- The functions of the libraries: SHA256, its HMAC, the public key of a secret, the key
agreement, and AES in counter mode. -/
structure Primitives where
  sha256 : Bytes → FixedBytes 32
  hmac : FixedBytes 32 → Bytes → FixedBytes 32
  toPublic : Secret → Option Public
  agree : Secret → Public → Option Secret
  ctrEncrypt : Bytes → FixedBytes 16 → Bytes → Option Bytes
  ctrDecrypt : Bytes → FixedBytes 16 → Bytes → Option Bytes

/-- `KeyPair`, with a valid secret. -/
structure Primitives.KeyPair (P : Primitives) where
  secret : Secret
  pub : Public
  toPublic_eq : P.toPublic secret = some pub

/-- The key agreement is symmetric, and the cipher is invertible and keeps the length. -/
structure Primitives.Sound (P : Primitives) : Prop where
  agree_comm : ∀ r k : P.KeyPair,
    ∃ z, P.agree r.secret k.pub = some z ∧ P.agree k.secret r.pub = some z
  ctr : ∀ (k : Bytes) (iv : FixedBytes 16) (plain : Bytes), k.length = 16 →
    ∃ c, P.ctrEncrypt k iv plain = some c ∧ c.length = plain.length ∧
      P.ctrDecrypt k iv c = some plain

/-- Under no key do the two byte strings have the same tag, unless they are equal. -/
def Primitives.TellsApart (P : Primitives) (a b : Bytes) : Prop :=
  ∀ key, P.hmac key a = P.hmac key b → a = b

/-- `vector_ref::cropped`. -/
def cropped (b : Bytes) (begin count : ℕ) : Bytes := (b.drop begin).take count

variable (P : Primitives)

/-- `encryptAES128CTR`. -/
def encryptAES128CTR (k : Bytes) (iv : FixedBytes 16) (plain : Bytes) : Bytes :=
  if k.length ≠ 16 ∧ k.length ≠ 24 ∧ k.length ≠ 32 then [] else (P.ctrEncrypt k iv plain).getD []

/-- `decryptAES128CTR`. -/
def decryptAES128CTR (k : Bytes) (iv : FixedBytes 16) (cipher : Bytes) : Bytes :=
  if k.length ≠ 16 ∧ k.length ≠ 24 ∧ k.length ≠ 32 then []
  else (P.ctrDecrypt k iv cipher).getD []

/-- `eKey`, from a derived key of `n` bytes. -/
def eKey (z : Secret) (n : UInt32) : Bytes := cropped (kdf P.sha256 z [] n) 0 16

/-- `mKey`, from a derived key of `n` bytes. -/
def mKey (z : Secret) (n : UInt32) : FixedBytes 32 :=
  P.sha256 (cropped (kdf P.sha256 z [] n) 16 16)

/-- `encryptECIES`. The result of `agree` is not looked at: if it fails, `z` stays zero. -/
def encryptECIES (r : P.KeyPair) (iv : FixedBytes 16) (k : Public)
    (sharedMacData ioCipher : Bytes) :
    Bytes :=
  let z := (P.agree r.secret k).getD ⟨List.replicate 32 0, length_replicate⟩
  let cipherText := encryptAES128CTR P (eKey P z 32) iv ioCipher
  if cipherText = [] then ioCipher
  else
    let msg := [4] ++ r.pub.val ++ (iv.val ++ cipherText)
    msg ++ (P.hmac (mKey P z 32) (cropped msg 65 (16 + cipherText.length) ++ sharedMacData)).val

/-- `cipherLen`. -/
def cipherLen (text : Bytes) : ℕ := text.length - 1 - 64 - 16 - 32

/-- `cipherWithIV`. -/
def cipherWithIV (text : Bytes) : Bytes := cropped text 65 (16 + cipherLen text)

/-- `msgMac`. -/
def msgMac (text : Bytes) : Bytes := cropped text (65 + 16 + cipherLen text) 32

/-- The `n` bytes of a `FixedHash` at the beginning of a byte string. -/
def toFixed (n : ℕ) (b : Bytes) : FixedBytes n := ⟨resize b n, length_resize b n⟩

/-- `decryptECIES`: what it returns, and the buffer behind the call. -/
def decryptECIES (k : Secret) (sharedMacData ioText : Bytes) : Bool × Bytes :=
  if ioText = [] ∨ ioText.getD 0 0 < 2 ∨ 4 < ioText.getD 0 0 then (false, ioText)
  else if ioText.length < 1 + 64 + 16 + 1 + 32 then (false, ioText)
  else match P.agree k (toFixed 64 (ioText.drop 1)) with
    | none => (false, ioText)
    | some z =>
      if (P.hmac (mKey P z 64) (cipherWithIV ioText ++ sharedMacData)).val ≠ msgMac ioText then
        (false, ioText)
      else
        (true, decryptAES128CTR P (eKey P z 64) (toFixed 16 (cipherWithIV ioText))
          (cropped (cipherWithIV ioText) 16 (cipherLen ioText)))

/-! ### Keys -/

lemma kdf_sixtyFour_take (z : Secret) : (kdf P.sha256 z [] 64).take 32 = kdf P.sha256 z [] 32 := by
  rw [kdf_eq_stream _ _ _ (by decide), kdf_eq_stream _ _ _ (by decide)]
  exact take_streamBytes _ _ _ (by decide)

lemma cropped_kdf (z : Secret) {i : ℕ} (hi : i ≤ 16) :
    cropped (kdf P.sha256 z [] 64) i 16 = cropped (kdf P.sha256 z [] 32) i 16 := by
  rw [cropped, cropped, ← kdf_sixtyFour_take, drop_take, take_take,
    Nat.min_eq_left (by omega)]

/-- Both sides derive the same key for the cipher. -/
lemma eKey_eq (z : Secret) : eKey P z 64 = eKey P z 32 := cropped_kdf P z (by decide)

/-- Both sides derive the same key for the tag. -/
lemma mKey_eq (z : Secret) : mKey P z 64 = mKey P z 32 :=
  congrArg P.sha256 (cropped_kdf P z le_rfl)

lemma length_eKey (z : Secret) : (eKey P z 32).length = 16 := by
  rw [eKey, cropped, kdf, length_take, length_drop, length_resize]
  rfl

/-! ### Messages -/

section Message

variable {text : Bytes} {n : ℕ}

lemma length_cipherWithIV (h : text.length = 65 + n + 32) (hn : 16 ≤ n) :
    (cipherWithIV text).length = n := by
  simp only [cipherWithIV, cropped, cipherLen, length_take, length_drop]
  omega

/-- A message is what is in front of its body, the body and the tag. -/
lemma split_message (h : text.length = 65 + n + 32) (hn : 16 ≤ n) :
    text = text.take 65 ++ (cipherWithIV text ++ msgMac text) := by
  have hmac : msgMac text = (text.drop 65).drop (16 + cipherLen text) := by
    rw [msgMac, cropped, drop_drop, Nat.add_assoc, take_of_length_le]
    rw [length_drop, cipherLen]
    omega
  rw [hmac, cipherWithIV, cropped, take_append_drop, take_append_drop]

/-- The parts of a message that is put together. -/
lemma parts_append {head body tag : Bytes} (hhead : head.length = 65) (hbody : 16 ≤ body.length)
    (htag : tag.length = 32) :
    cipherWithIV (head ++ (body ++ tag)) = body ∧ msgMac (head ++ (body ++ tag)) = tag := by
  have hlen : 16 + cipherLen (head ++ (body ++ tag)) = body.length := by
    rw [cipherLen, length_append, length_append]
    omega
  have hdrop : (head ++ (body ++ tag)).drop 65 = body ++ tag := drop_left' hhead
  rw [cipherWithIV, msgMac, cropped, cropped, Nat.add_assoc, ← drop_drop, hlen, hdrop]
  exact ⟨take_left, by rw [drop_left, take_of_length_le htag.le]⟩

/-- What is made of a message, by its parts. -/
lemma decryptECIES_eq {k z : Secret} {pub : Public} (mac : Bytes) (h : text.length = 65 + n + 32)
    (hn : 17 ≤ n) (hpub : text.take 65 = 4 :: pub.val) (hagree : P.agree k pub = some z) :
    decryptECIES P k mac text =
      if (P.hmac (mKey P z 32) (cipherWithIV text ++ mac)).val ≠ msgMac text then (false, text)
      else (true, decryptAES128CTR P (eKey P z 32) (toFixed 16 (cipherWithIV text))
        ((cipherWithIV text).drop 16)) := by
  have hhead : text.getD 0 0 = 4 := by
    have hget := congrArg (·.getD 0 0) hpub
    simpa [getD_eq_getElem?_getD, getElem?_take] using hget
  have hfirst : ¬ (text = [] ∨ text.getD 0 0 < 2 ∨ 4 < text.getD 0 0) := by
    rintro (rfl | hlt | hlt)
    · cases hpub
    · rw [hhead] at hlt
      exact absurd hlt (by decide)
    · rw [hhead] at hlt
      exact absurd hlt (by decide)
  have hkey : toFixed 64 (text.drop 1) = pub := by
    have hdrop := congrArg (List.drop 1) hpub
    rw [drop_take] at hdrop
    apply Subtype.ext
    change resize (text.drop 1) 64 = pub.val
    rw [resize_of_le (by rw [length_drop]; omega)]
    exact hdrop
  have hcipher : cropped (cipherWithIV text) 16 (cipherLen text) = (cipherWithIV text).drop 16 := by
    rw [cropped, take_of_length_le]
    rw [length_drop, length_cipherWithIV h (by omega), cipherLen]
    omega
  rw [decryptECIES, if_neg hfirst, if_neg (by omega), hkey, hagree]
  simp only [hcipher, mKey_eq, eKey_eq]

end Message

variable {P}

/-- An encrypted text is a message. -/
lemma encryptECIES_eq {r : P.KeyPair} {iv : FixedBytes 16} {k : Public} {mac plain c : Bytes}
    {z : Secret} (hagree : P.agree r.secret k = some z)
    (hc : P.ctrEncrypt (eKey P z 32) iv plain = some c) (hne : c ≠ []) :
    encryptECIES P r iv k mac plain = (4 :: r.pub.val) ++
      (iv.val ++ c ++ (P.hmac (mKey P z 32) (iv.val ++ c ++ mac)).val) := by
  have haes : encryptAES128CTR P (eKey P z 32) iv plain = c := by
    rw [encryptAES128CTR, if_neg (fun h => h.1 (length_eKey P z)), hc, Option.getD_some]
  have hbody : cropped ([4] ++ r.pub.val ++ (iv.val ++ c)) 65 (16 + c.length) = iv.val ++ c := by
    rw [cropped, drop_left' (by simp [r.pub.property]), take_of_length_le]
    rw [length_append, iv.property]
  simp only [encryptECIES, hagree, Option.getD_some, haes, if_neg hne, hbody]
  exact append_assoc _ _ _

/-- **Encryption to a public key.** What is encrypted to the public key of a pair is decrypted by
its secret. A message is refused, and the buffer kept, if the counter block or the ciphertext is
altered in place, if the tag is altered, and if other MAC data is given.

**Proof sketch.** Both sides agree on a secret and derive the same two keys from it. The message
splits into the parts it was made of, so that its tag is computed again. An altered body or other
MAC data gives another string to be tagged, which has another tag. -/
theorem ecies_authenticated (hP : P.Sound) (r k : P.KeyPair) (iv : FixedBytes 16)
    (mac plain : Bytes) (hplain : plain ≠ []) :
    let msg := encryptECIES P r iv k.pub mac plain
    decryptECIES P k.secret mac msg = (true, plain) ∧
    (∀ msg', msg'.length = msg.length → msg'.take 65 = msg.take 65 → msgMac msg' = msgMac msg →
      msg' ≠ msg → P.TellsApart (cipherWithIV msg' ++ mac) (cipherWithIV msg ++ mac) →
      decryptECIES P k.secret mac msg' = (false, msg')) ∧
    (∀ msg', msg'.length = msg.length →
      msg'.take (msg.length - 32) = msg.take (msg.length - 32) → msg' ≠ msg →
      decryptECIES P k.secret mac msg' = (false, msg')) ∧
    ∀ mac', mac' ≠ mac → P.TellsApart (cipherWithIV msg ++ mac') (cipherWithIV msg ++ mac) →
      decryptECIES P k.secret mac' msg = (false, msg) := by
  intro msg
  obtain ⟨z, hrk, hkr⟩ := hP.agree_comm r k
  obtain ⟨c, hc, hclen, hdec⟩ := hP.ctr (eKey P z 32) iv plain (length_eKey P z)
  have hpos : 0 < c.length := by
    rw [hclen]
    exact length_pos_of_ne_nil hplain
  obtain ⟨tag, htag⟩ : ∃ tag, tag = P.hmac (mKey P z 32) (iv.val ++ c ++ mac) := ⟨_, rfl⟩
  have hmsg : msg = (4 :: r.pub.val) ++ (iv.val ++ c ++ tag.val) := by
    rw [htag]
    exact encryptECIES_eq hrk hc (ne_nil_of_length_pos hpos)
  have hhead : (4 :: r.pub.val).length = 65 := by rw [length_cons, r.pub.property]
  have hlen : msg.length = 65 + (16 + c.length) + 32 := by
    rw [hmsg, length_append, length_append, length_append, hhead, iv.property,
      tag.property]
    rfl
  have htake : msg.take 65 = 4 :: r.pub.val := by rw [hmsg, take_left' hhead]
  obtain ⟨hbody, hmac⟩ : cipherWithIV msg = iv.val ++ c ∧ msgMac msg = tag.val := by
    rw [hmsg]
    exact parts_append hhead (by rw [length_append, iv.property]; omega) tag.property
  have hmsg' := split_message hlen (by omega)
  refine ⟨?_, ?_, ?_, ?_⟩
  · have hiv : toFixed 16 (iv.val ++ c) = iv := by
      apply Subtype.ext
      change resize (iv.val ++ c) 16 = iv.val
      rw [resize_of_le (by simp [iv.property]), take_left' iv.property]
    rw [decryptECIES_eq P mac hlen (by omega) htake hkr, hbody, hmac, htag,
      if_neg (not_not.mpr rfl),
      hiv, drop_left' iv.property, decryptAES128CTR,
      if_neg (fun h => h.1 (length_eKey P z)), hdec, Option.getD_some]
  · intro msg' hlen' htake' hmac' hne hapart
    rw [decryptECIES_eq P mac (hlen'.trans hlen) (by omega) (htake'.trans htake) hkr, if_pos]
    intro heq
    rw [hbody] at hapart
    rw [hmac', hmac, htag] at heq
    have hbody' := append_cancel_right (hapart _ (Subtype.ext heq))
    refine hne ?_
    rw [split_message (hlen'.trans hlen) (by omega), htake', hmac', hbody', ← hbody, ← hmsg']
  · intro msg' hlen' hrest hne
    have htake' : msg'.take 65 = msg.take 65 := by
      have h := congrArg (List.take 65) hrest
      rwa [take_take, take_take, Nat.min_eq_left (by omega)] at h
    have hbody' : cipherWithIV msg' = cipherWithIV msg := by
      have h := congrArg (List.drop 65) hrest
      rw [drop_take, drop_take] at h
      rw [cipherWithIV, cipherWithIV, cropped, cropped, cipherLen, cipherLen, hlen',
        show 16 + (msg.length - 1 - 64 - 16 - 32) = msg.length - 32 - 65 by omega, h]
    rw [decryptECIES_eq P mac (hlen'.trans hlen) (by omega) (htake'.trans htake) hkr, if_pos]
    intro heq
    refine hne ?_
    rw [split_message (hlen'.trans hlen) (by omega), htake', ← heq, hbody', hbody, ← htag, ← hmac,
      ← hbody, ← hmsg']
  · intro mac' hne hapart
    rw [hbody] at hapart
    rw [decryptECIES_eq P mac' hlen (by omega) htake hkr, hbody, hmac, htag, if_pos]
    exact fun heq => hne (append_cancel_left (hapart _ (Subtype.ext heq)))

/-- Simple primitives: one agreed secret, a cipher that changes nothing, and tags that are the
beginning of what is tagged. -/
def plainPrimitives : Primitives where
  sha256 := ones
  hmac _ m := toFixed 32 m
  toPublic s := some (toFixed 64 s.val)
  agree _ _ := some (toFixed 32 [])
  ctrEncrypt _ _ plain := some plain
  ctrDecrypt _ _ cipher := some cipher

/-- A key pair of them. -/
def plainPair : plainPrimitives.KeyPair := ⟨toFixed 32 [1], toFixed 64 (toFixed 32 [1]).val, rfl⟩

/-- A text of one byte comes back, and is refused once its ciphertext is altered. -/
theorem ecies_authenticated_plain :
    let msg := encryptECIES plainPrimitives plainPair (toFixed 16 []) plainPair.pub [7] [1]
    decryptECIES plainPrimitives plainPair.secret [7] msg = (true, [1]) ∧
      decryptECIES plainPrimitives plainPair.secret [7] (msg.set 81 2) = (false, msg.set 81 2) := by
  have hsound : plainPrimitives.Sound :=
    ⟨fun _ _ => ⟨_, rfl, rfl⟩, fun _ _ plain _ => ⟨plain, rfl, rfl, rfl⟩⟩
  have h := ecies_authenticated hsound plainPair plainPair (toFixed 16 []) [7] [1] (by decide)
  have hapart : toFixed 32 (cipherWithIV ((encryptECIES plainPrimitives plainPair (toFixed 16 [])
        plainPair.pub [7] [1]).set 81 2) ++ [7]) ≠
      toFixed 32 (cipherWithIV (encryptECIES plainPrimitives plainPair (toFixed 16 [])
        plainPair.pub [7] [1]) ++ [7]) := by decide +kernel
  exact ⟨h.1, h.2.1 _ length_set (by decide +kernel) (by decide +kernel)
    (by decide +kernel) fun _ htag => absurd htag hapart⟩

end Tos.Crypto
