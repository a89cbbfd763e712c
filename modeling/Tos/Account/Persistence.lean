import Tos.Account.Registry
import Mathlib.Data.List.Induction

/-!
# What a key manager writes and reads back

`KeyManager::create` writes the key file with a key that is derived from the master password;
`import`, `kill` and `recode` write it again with the key that is remembered. A new key manager that
loads the files has the accounts of the one that wrote them, as long as each account finds its key
in the secret store.

Two things can prevent this. The key zero stands for "none": if it is the one that is derived from
the password, all writes after the first one are left out. And if the secret store draws the uuid of
an account for a new key, removing one of the two accounts removes the key of the other one.

## Main results

* `KeyManager.plainText_eq`: the tree that is written to the key file.
* `KeyManager.load_saved`: a key file that is up to date is read back.
* `KeyManager.load_of_kept`: every run.
-/

namespace Tos.Account

open Sdag (H256)
open List
open UnorderedMap (lookup_of_erase lookup_of_insert)

open Sdag.Wire (Address hashBytes ofHashBytes OnItems onItems_cacheAt itemCached_list itemCached_new
  itemCached_cacheAt toInt_data toHash_data length_encode_le_maxLength)

open Rlp (Item encode encodeList)

open RLP (maxLength)

/-- What the files have to agree with: the account map with the uuids of the accounts, the default
password, and the files themselves. -/
structure Vault where
  addrs : UnorderedMap Address H128
  infos : UnorderedMap Address KeyInfo
  default : Bytes
  key : H128
  files : Files

namespace Vault

/-- The tree of an account. -/
def infoItem (v : Vault) (x : Σ _ : Address, KeyInfo) : Item :=
  .list [.data (hashBytes x.1), .data (hashBytes (uuidOf v.addrs x.1)),
    .data (hashBytes x.2.passHash),
    .data x.2.accountName, .data x.2.passwordHint]

/-- The tree of a hint. -/
def hintItem (x : Σ _ : H256, Bytes) : Item := .list [.data (hashBytes x.1), .data x.2]

/-- The tree of the key file. -/
def items (v : Vault) (hints : List (Σ _ : H256, Bytes)) : List Item :=
  [.data (BigEndian.bytes 1), .list (v.infos.entries.map v.infoItem), .list (hints.map hintItem),
    .data v.default]

end Vault

namespace KeyManager

open Method

/-- The vault of a key manager. -/
def vault (km : KeyManager) : Vault where
  addrs := km.m_addrLookup
  infos := km.m_keyInfo
  default := km.m_defaultPasswordDeprecated
  key := km.m_keysFileKey
  files := km.files

/-- The tree of the key file that is written next. -/
def items (km : KeyManager) : List Item := km.vault.items km.m_passwordHint.entries

/-! ### Writing -/

variable {xs : List Item}

section Writing

variable {km : KeyManager}

lemma appends_data (h : (encode (.list xs)).length ≤ maxLength) {d : Bytes}
    (hd : .data d ∈ xs) : RLPStream.Appends 1 (fun s => s.append d) [.data d] := by
  refine RLPStream.appends_append ?_
  have hlt : d.length < maxLength :=
    RLP.length_payload_lt (x := .data d) (length_encode_le_maxLength hd h)
  exact hlt.trans (by norm_num [maxLength])

lemma length_encodeList_lt (h : (encode (.list xs)).length ≤ maxLength) :
    (encodeList xs).length < 2 ^ 64 :=
  (Rlp.length_encodeList_le xs).trans_lt (h.trans_lt (by norm_num [maxLength]))

lemma appends_info (x : Σ _ : Address, KeyInfo)
    (h : (encode (km.vault.infoItem x)).length ≤ maxLength) :
    RLPStream.Appends 1 (fun s => km.appendInfo s x) [km.vault.infoItem x] := by
  have hd := fun d hd => appends_data (d := d) h hd
  have huuid := hd (hashBytes (uuidOf km.vault.addrs x.1)) (by simp)
  exact ((hd _ (by simp)).cons (huuid.cons ((hd _ (by simp)).cons ((hd _ (by simp)).cons
    (hd _ (by simp)).last)))).opened (length_encodeList_lt h)

lemma appends_hint (x : Σ _ : H256, Bytes) (h : (encode (Vault.hintItem x)).length ≤ maxLength) :
    RLPStream.Appends 1 (fun s => appendHint s x) [Vault.hintItem x] := by
  have hd := fun d hd => appends_data (d := d) h hd
  exact ((hd _ (by simp)).cons (hd _ (by simp)).last).opened (length_encodeList_lt h)

end Writing

lemma appends_infos (km : KeyManager)
    (h : (encode (.list (km.m_keyInfo.entries.map km.vault.infoItem))).length ≤ maxLength) :
    RLPStream.Appends 1 km.appendInfos [.list (km.m_keyInfo.entries.map km.vault.infoItem)] := by
  have hall := (RLPStream.appends_foldlM (w := km.appendInfo) km.m_keyInfo.entries fun x hx =>
    appends_info x (length_encode_le_maxLength (mem_map_of_mem hx) h)).opened
      (length_encodeList_lt h)
  rwa [length_map] at hall

lemma appends_hints (km : KeyManager)
    (h : (encode (.list (km.m_passwordHint.entries.map Vault.hintItem))).length ≤ maxLength) :
    RLPStream.Appends 1 km.appendHints [.list (km.m_passwordHint.entries.map Vault.hintItem)] := by
  have hall := (RLPStream.appends_foldlM (w := appendHint) km.m_passwordHint.entries fun x hx =>
    appends_hint x (length_encode_le_maxLength (mem_map_of_mem hx) h)).opened
      (length_encodeList_lt h)
  rwa [length_map] at hall

/-- The tree that is written to the key file. -/
theorem plainText_eq {km : KeyManager} (h : (encode (.list km.items)).length ≤ maxLength) :
    km.plainText = .ok (encode (.list km.items)) := by
  have hmem : ∀ x ∈ km.items, (encode x).length ≤ maxLength := fun x hx =>
    length_encode_le_maxLength hx h
  have hversion := RLPStream.appends_appendInt (i := 1) (by decide)
  have hinfos := appends_infos km (hmem _ (by simp [items, Vault.items, vault]))
  have hhints := appends_hints km (hmem _ (by simp [items, Vault.items]))
  have hdefault := appends_data (d := km.m_defaultPasswordDeprecated) h
    (by simp [items, Vault.items, vault])
  have hrun := ((hversion.cons (hinfos.cons (hhints.cons hdefault.last))).opened
    (length_encodeList_lt h)).run_empty
  change (km.appendRecords {}).bind (fun s => s.out) = _
  rw [show km.appendRecords {} = _ from hrun]
  simp [Except.bind, RLPStream.out, items, Vault.items, vault]

/-! ### Reading -/

section Reading

variable {α : Type}

/-- The range loop over the items of a list that is the encoding of a tree. -/
lemma forItems_encodeList (body : α → Bytes → KeyMethod α) (xs : List Item) (x : α) {n : ℕ}
    (hn : xs.length ≤ n) (h : ∀ y ∈ xs, (encode y).length ≤ maxLength) (km : KeyManager) :
    (forItems body n x (encodeList xs)).on km =
      (xs.foldlM (fun x y => body x (encode y)) x).on km := by
  induction xs generalizing x n km with
  | nil => cases n <;> rfl
  | cons y ys ih =>
    cases n with
    | zero => simp at hn
    | succ n =>
      have hy := h y mem_cons_self
      have hcut : RLP.cropped (encode y ++ encodeList ys) 0 (encode y).length = encode y := by
        simp [RLP.cropped]
      have hdrop : (encode y ++ encodeList ys).drop (encode y).length = encodeList ys :=
        drop_left' rfl
      rw [Rlp.encodeList_cons, forItems, if_neg (by simp), RLP.sizeAsEncoded_encode hy, rlpCall,
        Method.call, pure_bind, hcut, hdrop, foldlM_cons, on_bind, on_bind]
      rcases (body x (encode y)).on km with ⟨r, km'⟩
      cases r with
      | error e => rfl
      | ok x' =>
        exact ih x' (by simpa using hn) (fun z hz => h z (mem_cons_of_mem y hz)) km'

/-- `for (auto const& i: list)` over the encoding of a tree. -/
lemma forEach_list (body : α → Bytes → KeyMethod α) (x : α)
    (h : (encode (.list xs)).length ≤ maxLength) (km : KeyManager) :
    (forEach (encode (.list xs)) x body).on km =
      (xs.foldlM (fun x y => body x (encode y)) x).on km := by
  rw [forEach, if_pos (RLP.isList_list h), RLP.payload_list h, rlpCall, Method.call, pure_bind]
  exact forItems_encodeList body xs x (Rlp.length_le_length_encodeList xs)
    (fun y hy => length_encode_le_maxLength hy h) km

end Reading

/-- A hash that has been written is read. -/
lemma toHash_hashBytes {n : ℕ} (x : BitVec (8 * n))
    (h : (encode (.data (hashBytes x))).length ≤ maxLength) :
    RLP.toHash n (encode (.data (hashBytes x))) RLP.Strict = .ok (hashBytes x) := by
  have hlen : (hashBytes x).length = n := by
    have hn : 8 * n / 8 = n := by omega
    have hlt : x.toNat < 256 ^ n := by
      rw [show 256 = 2 ^ 8 from rfl, ← Nat.pow_mul]
      exact x.isLt
    rw [hashBytes, hn, BigEndian.length_fixed hlt]
  have hread := (toHash_data (x := hashBytes x) h).mpr rfl
  rwa [hlen] at hread

section Reading

variable {v : Vault} {x : Σ _ : Address, KeyInfo}
  (h : (encode (v.infoItem x)).length ≤ maxLength)
include h

lemma readInfo_infoItem {c : RLP.Cache}
    (hc : OnItems [.data (hashBytes x.1), .data (hashBytes (uuidOf v.addrs x.1)),
      .data (hashBytes x.2.passHash), .data x.2.accountName, .data x.2.passwordHint] c) :
    readInfo (encode (v.infoItem x)) c = .ok x.2 := by
  unfold Vault.infoItem at h ⊢
  have hhash := toHash_hashBytes (n := 32) x.2.passHash (length_encode_le_maxLength (by simp) h)
  have hname := RLP.toBytes_encode (d := x.2.accountName)
    (length_encode_le_maxLength (by simp) h) RLP.LaissezFaire
  have hhint := RLP.toBytes_encode (d := x.2.passwordHint)
    (length_encode_le_maxLength (by simp) h) RLP.LaissezFaire
  have hcount := RLP.itemCount_list h
  simp (disch := simp) only [readInfo, itemCached_list h hc, itemCached_cacheAt h, hhash, hname,
    hcount, hhint, bind, Except.bind, pure, Except.pure, length_cons, length_nil, getElem_cons_succ,
    getElem_cons_zero]
  rw [if_pos (by norm_num)]
  simp only [Sdag.Wire.ofHashBytes_hashBytes]

omit h in
/-- Noting an address removes no key. -/
lemma mem_noteAddress {s : SecretStore} {u w : H128} {a : Address} (hu : u ∈ s.m_keys) :
    u ∈ (s.noteAddress w a).2.m_keys := by
  unfold SecretStore.noteAddress
  cases s.m_keys.lookup w with
  | none => exact hu
  | some k =>
    simp only
    split_ifs
    · exact (AList.mem_insert _).mpr (.inr hu)
    · exact hu

/-- The entry of an account is read: if it has a uuid, the secret store needs to have the key. -/
lemma loadAccount_on (saveRequired : Bool) (km : KeyManager)
    (hkey : uuidOf v.addrs x.1 = 0 ∨ uuidOf v.addrs x.1 ∈ km.m_store.m_keys) :
    ∃ b km', (loadAccount saveRequired (encode (v.infoItem x))).on km = (.ok b, km') ∧
      km'.m_keyInfo = km.m_keyInfo.insert x.1 x.2 ∧
      ∀ u ∈ km.m_store.m_keys, u ∈ km'.m_store.m_keys := by
  have hread := fun c => readInfo_infoItem (c := c) h
  have hitem := RLP.ofBytes_encode h
  unfold Vault.infoItem at h hread hitem ⊢
  have huuid := toHash_hashBytes (n := 16) (uuidOf v.addrs x.1)
    (length_encode_le_maxLength (by simp) h)
  have haddr := toHash_hashBytes (n := 20) x.1 (length_encode_le_maxLength (by simp) h)
  simp (disch := simp) only [loadAccount, hitem, itemCached_new h, itemCached_cacheAt h,
    getElem_cons_succ, getElem_cons_zero, huuid, haddr, rlpCall, Method.call, pure_bind,
    Sdag.Wire.ofHashBytes_hashBytes, on_get_bind, loadInfo,
    hread _ (onItems_cacheAt (i := 0) (by simp))]
  by_cases hzero : uuidOf v.addrs x.1 = 0
  · rw [if_pos hzero]
    exact ⟨_, _, rfl, rfl, fun u hu => hu⟩
  · rw [if_neg hzero, if_pos (hkey.resolve_left hzero)]
    exact ⟨_, _, rfl, rfl, fun u hu => mem_noteAddress hu⟩

end Reading

/-- The loop over the accounts. -/
lemma loadAccounts_on {v : Vault} (l : List (Σ _ : Address, KeyInfo))
    (h : ∀ x ∈ l, (encode (v.infoItem x)).length ≤ maxLength) (saveRequired : Bool)
    (km : KeyManager) (hkeys : ∀ x ∈ l, uuidOf v.addrs x.1 = 0 ∨
      uuidOf v.addrs x.1 ∈ km.m_store.m_keys) :
    ∃ b km', ((l.map v.infoItem).foldlM (fun b y => loadAccount b (encode y)) saveRequired).on km =
        (.ok b, km') ∧
      km'.m_keyInfo = l.foldl (fun m x => m.insert x.1 x.2) km.m_keyInfo := by
  induction l generalizing saveRequired km with
  | nil => exact ⟨_, _, rfl, rfl⟩
  | cons x l ih =>
    obtain ⟨b₁, km₁, e₁, hinfo, hmem⟩ := loadAccount_on (h x mem_cons_self) saveRequired km
      (hkeys x mem_cons_self)
    obtain ⟨b₂, km₂, e₂, hinfo'⟩ := ih (fun y hy => h y (mem_cons_of_mem x hy)) b₁ km₁
      fun y hy => (hkeys y (mem_cons_of_mem x hy)).imp_right (hmem _)
    refine ⟨b₂, km₂, ?_, ?_⟩
    · rw [map_cons, foldlM_cons, on_bind_of_ok e₁]
      exact e₂
    · rw [hinfo', hinfo]
      rfl

/-- The entry of a hint is read. -/
lemma loadHint_on {x : Σ _ : H256, Bytes} (h : (encode (Vault.hintItem x)).length ≤ maxLength)
    (km : KeyManager) :
    ∃ km', (loadHint () (encode (Vault.hintItem x))).on km = (.ok (), km') ∧
      km'.m_keyInfo = km.m_keyInfo := by
  have hitem := RLP.ofBytes_encode h
  unfold Vault.hintItem at h hitem ⊢
  have hhash := toHash_hashBytes (n := 32) x.1 (length_encode_le_maxLength (by simp) h)
  have hhint := RLP.toBytes_encode (d := x.2) (length_encode_le_maxLength (by simp) h)
    RLP.LaissezFaire
  simp (disch := simp) only [loadHint, hitem, itemCached_new h, itemCached_cacheAt h,
    getElem_cons_succ, getElem_cons_zero, hhash, hhint, rlpCall, Method.call, pure_bind]
  exact ⟨_, rfl, rfl⟩

/-- The loop over the hints. -/
lemma loadHints_on (l : List (Σ _ : H256, Bytes))
    (h : ∀ x ∈ l, (encode (Vault.hintItem x)).length ≤ maxLength) (km : KeyManager) :
    ∃ km', ((l.map Vault.hintItem).foldlM (fun b y => loadHint b (encode y)) ()).on km =
        (.ok (), km') ∧ km'.m_keyInfo = km.m_keyInfo := by
  induction l generalizing km with
  | nil => exact ⟨_, rfl, rfl⟩
  | cons x l ih =>
    obtain ⟨km₁, e₁, hinfo₁⟩ := loadHint_on (h x mem_cons_self) km
    obtain ⟨km₂, e₂, hinfo₂⟩ := ih (fun y hy => h y (mem_cons_of_mem x hy)) km₁
    refine ⟨km₂, ?_, hinfo₂.trans hinfo₁⟩
    rw [map_cons, foldlM_cons, on_bind_of_ok e₁]
    exact e₂

/-- Inserting the entries of a map into the empty one gives the map. -/
lemma lookup_foldl_insert {κ ν : Type} [DecidableEq κ] (l : List (Σ _ : κ, ν))
    (hl : l.NodupKeys) (m : UnorderedMap κ ν) (a : κ) :
    (l.foldl (fun m x => m.insert x.1 x.2) m).lookup a = (l.dlookup a).or (m.lookup a) := by
  induction l generalizing m with
  | nil => simp
  | cons x l ih =>
    obtain ⟨hx, hl'⟩ := List.nodupKeys_cons.mp hl
    rw [foldl_cons, ih hl']
    by_cases ha : a = x.1
    · subst ha
      rw [AList.lookup_insert, List.dlookup_eq_none.mpr hx]
      obtain ⟨k, y⟩ := x
      rw [dlookup_cons_eq]
      rfl
    · rw [AList.lookup_insert_ne ha]
      obtain ⟨k, y⟩ := x
      rw [dlookup_cons_ne _ _ ha]

/-- The records of a key file are read. -/
lemma loadRecords_on {v : Vault} {hints : List (Σ _ : H256, Bytes)}
    (h : (encode (.list (v.items hints))).length ≤ maxLength) {c : RLP.Cache}
    (hc : OnItems (v.items hints) c) {km : KeyManager} (hempty : km.m_keyInfo = ∅)
    (hkeys : ∀ a ∈ v.infos, uuidOf v.addrs a = 0 ∨ uuidOf v.addrs a ∈ km.m_store.m_keys) :
    ∃ km', (loadRecords (encode (.list (v.items hints))) c).on km = (.ok (), km') ∧
      (∀ a, km'.m_keyInfo.lookup a = v.infos.lookup a) ∧
      km'.m_defaultPasswordDeprecated = v.default := by
  have hmem : ∀ x ∈ v.items hints, (encode x).length ≤ maxLength := fun x hx =>
    length_encode_le_maxLength hx h
  have hinfos := hmem (.list (v.infos.entries.map v.infoItem)) (by simp [Vault.items])
  have hhints := hmem (.list (hints.map Vault.hintItem)) (by simp [Vault.items])
  have hdefault := RLP.toBytes_encode (d := v.default) (hmem _ (by simp [Vault.items]))
    RLP.LaissezFaire
  obtain ⟨b, km₁, hloop₁, hinfo₁⟩ := loadAccounts_on (v := v) v.infos.entries
    (fun x hx => length_encode_le_maxLength (mem_map_of_mem hx) hinfos) false km
    fun x hx => hkeys x.1 (mem_map_of_mem (f := Sigma.fst) hx)
  obtain ⟨km₂, hsave, hinfo₂⟩ : ∃ km₂, (onlyIf b (modify saveStore)).on km₁ = (.ok (), km₂) ∧
      km₂.m_keyInfo = km₁.m_keyInfo := by
    cases b
    · exact ⟨_, rfl, rfl⟩
    · exact ⟨_, rfl, rfl⟩
  obtain ⟨km₃, hloop₃, hinfo₃⟩ := loadHints_on hints
    (fun x hx => length_encode_le_maxLength (mem_map_of_mem hx) hhints) km₂
  unfold Vault.items at h hc ⊢
  simp (disch := simp) only [loadRecords, itemCached_list h hc, itemCached_cacheAt h,
    getElem_cons_succ, getElem_cons_zero, hdefault, rlpCall, Method.call, pure_bind]
  rw [on_bind_of_ok ((forEach_list loadAccount false hinfos km).trans hloop₁), on_bind_of_ok hsave,
    on_bind_of_ok ((forEach_list loadHint () hhints km₂).trans hloop₃)]
  refine ⟨_, rfl, fun a => ?_, rfl⟩
  calc km₃.m_keyInfo.lookup a
      = (v.infos.entries.foldl (fun m x => m.insert x.1 x.2) (∅ : UnorderedMap _ _)).lookup a := by
        rw [hinfo₃, hinfo₂, hinfo₁, hempty]
    _ = v.infos.lookup a := by
        rw [lookup_foldl_insert _ v.infos.nodupKeys, AList.lookup_empty, Option.or_none]
        rfl

end KeyManager

/-! ### What the files have to agree with -/

namespace Vault

/-- The key is derived from the password and is not zero, no two accounts share a uuid, and the
secret store has saved the key of each account that has a uuid. -/
structure Ready (C : KeyCrypto) (pass : Bytes) (v : Vault) : Prop where
  key : v.key = KeyManager.fileKey C pass v.files.saltFile
  key_ne : v.key ≠ 0
  one : ∀ a b u, v.addrs.lookup a = some u → v.addrs.lookup b = some u → u ≠ 0 → a = b
  stored : ∀ a ∈ v.infos, ∀ u, v.addrs.lookup a = some u → u ≠ 0 → u ∈ v.files.secrets

/-- Moreover, the key file has the accounts. -/
structure Saved (C : KeyCrypto) (pass : Bytes) (v : Vault) : Prop extends Ready C pass v where
  file : ∃ hints, (encode (.list (v.items hints))).length ≤ maxLength ∧
    v.files.keysFile = C.encryptSym v.key (encode (.list (v.items hints)))

end Vault

namespace KeyManager

open Method

variable {C : KeyCrypto} {pass : Bytes}

lemma new_fields (files : Files) :
    (new files).m_keyInfo = ∅ ∧ (new files).m_store.m_keys = files.secrets ∧
      (new files).files = files := by
  have h : ∀ (l : List (Σ _ : H128, EncryptedKey)) (km : KeyManager),
      (l.foldl (fun km k => km.link k.1 k.2.address) km).m_keyInfo = km.m_keyInfo ∧
      (l.foldl (fun km k => km.link k.1 k.2.address) km).m_store = km.m_store ∧
      (l.foldl (fun km k => km.link k.1 k.2.address) km).files = km.files := by
    intro l
    induction l with
    | nil => exact fun _ => ⟨rfl, rfl, rfl⟩
    | cons k l ih => exact fun km => ih (km.link k.1 k.2.address)
  obtain ⟨h₁, h₂, h₃⟩ := h files.secrets.entries { m_store := { m_keys := files.secrets }, files }
  exact ⟨h₁, congrArg SecretStore.m_keys h₂, h₃⟩

/-- A key file that is up to date is read back. -/
theorem load_saved (hdec : ∀ k b, C.decryptSym k (C.encryptSym k b) = b)
    (hlen : ∀ k b, (C.encryptSym k b).length = b.length) {v : Vault} (h : v.Saved C pass) :
    ∃ km', (load C pass).on (new v.files) = (.ok true, km') ∧
      (∀ a, km'.m_keyInfo.lookup a = v.infos.lookup a) ∧
      km'.m_defaultPasswordDeprecated = v.default := by
  obtain ⟨hints, hsize, hfile⟩ := h.file
  obtain ⟨hinfo, hkeys, hfiles⟩ := new_fields v.files
  set km := new v.files
  have hne : v.files.keysFile ≠ [] := by
    rw [hfile, ← length_pos_iff, hlen, length_pos_iff]
    exact Rlp.encode_ne_nil _
  have hcount : 0 < (v.items hints).length := by simp [Vault.items]
  have e := itemCached_new hsize hcount
  rw [show (v.items hints)[0] = .data (BigEndian.bytes 1) from rfl] at e
  have hversion : RLP.toInt 4 (encode (.data (BigEndian.bytes 1))) RLP.Strict = .ok 1 :=
    (toInt_data (length_encode_le_maxLength (by simp [Vault.items]) hsize)).mpr ⟨rfl, by norm_num⟩
  have hinfo' : ({ km with m_keysFileKey := v.key } : KeyManager).m_keyInfo = ∅ := hinfo
  obtain ⟨km₁, hrecords, hinfos, hdefault⟩ := loadRecords_on hsize (onItems_cacheAt hcount)
      hinfo' fun a ha => by
    rw [show ({ km with m_keysFileKey := v.key } : KeyManager).m_store.m_keys = v.files.secrets
      from hkeys]
    unfold uuidOf
    cases hu : v.addrs.lookup a with
    | none => exact .inl rfl
    | some u =>
      rcases eq_or_ne u 0 with rfl | hu0
      · exact .inl rfl
      · exact .inr (h.stored a ha u hu hu0)
  have hunlock : (unlock C pass).on km =
      ((cachePasswords C pass >>= fun _ => pure true).on km₁) := by
    rw [unlock, on_get_bind, hfiles, if_neg hne, ← h.key, on_modify_bind, hfile, hdec,
      RLP.ofBytes_encode hsize]
    simp only [e, hversion, rlpCall, Method.call, pure_bind, onlyIf, if_true]
    rw [on_bind_of_ok hrecords]
  obtain ⟨km₂, hcache, hinfo₂, hdefault₂⟩ : ∃ km₂,
      (cachePasswords C pass >>= fun _ => pure true).on km₁ = (.ok true, km₂) ∧
      km₂.m_keyInfo = km₁.m_keyInfo ∧
      km₂.m_defaultPasswordDeprecated = km₁.m_defaultPasswordDeprecated := ⟨_, rfl, rfl, rfl⟩
  refine ⟨km₂, ?_, fun a => ?_, hdefault₂.trans hdefault⟩
  · rw [load, on_tryCatch, hunlock, hcache]
  · rw [hinfo₂]
    exact hinfos a

/-! ### Steps -/

/-- The plain text of the key file fits into memory. -/
def Storable (km : KeyManager) : Prop := (encode (.list km.items)).length < 2 ^ 63

lemma Storable.le_maxLength {km : KeyManager} (h : km.Storable) :
    (encode (.list km.items)).length ≤ maxLength :=
  h.le.trans (by norm_num [maxLength])

lemma keeps_writeWithKey_items (key : H128) : Keeps items (writeWithKey C key) := by
  refine keeps_get.bind fun _ => (keeps_call _ _).bind fun _ => Keeps.bind ?_ fun _ => ?_
  · exact keeps_modify fun _ => rfl
  · exact (keeps_cacheDefault C).of_part items

lemma keeps_write_items : Keeps items (write C) :=
  keeps_get.bind fun _ =>
    .ite (keeps_pure _) ((keeps_writeWithKey_items _).bind fun _ => keeps_pure _)

/-- The key file after it has been written. -/
lemma vault_writeWithKey {km : KeyManager} (key : H128) (h : km.Storable) :
    ((writeWithKey C key).on km).2.vault =
      { km.vault with
        key
        files := { km.files with keysFile := C.encryptSym key (encode (.list km.items)) } } := by
  rw [writeWithKey, on_get_bind, plainText_eq h.le_maxLength, rlpCall, Method.call, pure_bind,
    on_modify_bind]
  exact (keeps_cacheDefault C).of_part vault _

lemma saved_writeWithKey {km : KeyManager} {key : H128} (h : km.Storable)
    (hready : ({ km.vault with key } : Vault).Ready C pass) :
    ((writeWithKey C key).on km).2.vault.Saved C pass := by
  rw [vault_writeWithKey key h]
  exact ⟨⟨hready.key, hready.key_ne, hready.one, hready.stored⟩,
    km.m_passwordHint.entries, h.le_maxLength, rfl⟩

/-- Writing the key file with the remembered key makes it agree with the accounts. -/
lemma saved_write {km : KeyManager} (hready : km.vault.Ready C pass)
    (h : ((write C).on km).2.Storable) : ((write C).on km).2.vault.Saved C pass := by
  have hitems := keeps_write_items (C := C) km
  have hs : km.Storable := by rwa [Storable, ← hitems]
  rw [write, on_get_bind, if_neg (show km.m_keysFileKey ≠ 0 from hready.key_ne), on_bind_pure_snd]
  exact saved_writeWithKey hs hready

end KeyManager

namespace Vault.Ready

variable {C : KeyCrypto} {pass : Bytes} {v : Vault} {a : Address} {u : H128}

variable {s : UnorderedMap H128 EncryptedKey}

/-- An account with a key of its own. -/
lemma withKey (h : v.Ready C pass) (i : KeyInfo)
    (hs : ∀ x ∈ v.files.secrets, x ∈ s) (hu : u ∈ s) (hfresh : ∀ b, v.addrs.lookup b ≠ some u) :
    Ready C pass { v with
      addrs := v.addrs.insert a u, infos := v.infos.insert a i,
      files := { v.files with secrets := s } } where
  key := h.key
  key_ne := h.key_ne
  one := by
    intro x y w hx hy hw
    rcases lookup_of_insert hx with ⟨rfl, rfl⟩ | ⟨-, hx'⟩
    · rcases lookup_of_insert hy with ⟨rfl, -⟩ | ⟨-, hy'⟩
      · rfl
      · exact absurd hy' (hfresh y)
    · rcases lookup_of_insert hy with ⟨rfl, rfl⟩ | ⟨-, hy'⟩
      · exact absurd hx' (hfresh x)
      · exact h.one x y w hx' hy' hw
  stored := by
    intro x hx w hw hw0
    rcases lookup_of_insert hw with ⟨-, rfl⟩ | ⟨hxa, hw'⟩
    · exact hu
    · have hx' : x ∈ v.infos := ((AList.mem_insert _).mp hx).resolve_left hxa
      exact hs w (h.stored x hx' w hw' hw0)

/-- The password of an account changes, and its key is in the files. -/
lemma withInfo (h : v.Ready C pass) (i : KeyInfo)
    (hs : ∀ x ∈ v.files.secrets, x ∈ s) (hu : uuidOf v.addrs a ∈ s) :
    Ready C pass { v with
      infos := v.infos.insert a i, files := { v.files with secrets := s } } where
  key := h.key
  key_ne := h.key_ne
  one := h.one
  stored := by
    intro x hx w hw hw0
    rcases (AList.mem_insert _).mp hx with rfl | hx
    · have huw : uuidOf v.addrs x = w := by rw [uuidOf, hw]; rfl
      rwa [← huw]
    · exact hs w (h.stored x hx w hw hw0)

/-- An account is removed; only the file of its key may be. -/
lemma without (h : v.Ready C pass) (a : Address)
    (hs : ∀ x ∈ v.files.secrets, x ≠ uuidOf v.addrs a → x ∈ s) :
    Ready C pass { v with
      addrs := v.addrs.erase a, infos := v.infos.erase a,
      files := { v.files with secrets := s } } where
  key := h.key
  key_ne := h.key_ne
  one := by
    intro x y w hx hy hw
    exact h.one x y w (lookup_of_erase hx).2 (lookup_of_erase hy).2 hw
  stored := by
    intro x hx w hw hw0
    obtain ⟨hxa, hw'⟩ := lookup_of_erase hw
    have hx' : x ∈ v.infos := (AList.mem_erase.mp hx).2
    refine hs w (h.stored x hx' w hw' hw0) fun e => hxa ?_
    -- the key that is removed is the one of `a`, which no other account has
    unfold uuidOf at e
    cases ha : v.addrs.lookup a with
    | none =>
      rw [ha] at e
      exact absurd e hw0
    | some w' =>
      rw [ha] at e
      exact h.one x a w hw' (ha.trans (congrArg some e.symm)) hw0

end Vault.Ready

/-! ### Runs -/

namespace KeyManager

open Method

/-- A call of `import`, `kill` or `recode`; the uuid that the secret store draws is not the one of
an account. -/
def Draws (km : KeyManager) : KeyCall → Prop
  | .import_ _ _ _ _ u _ | .importDefault _ _ u _ => ∀ a, km.m_addrLookup.lookup a ≠ some u
  | .kill _ | .killUuid _ | .recode .. => True
  | .importExisting .. | .importExistingAs .. => False

/-- The states of a key manager on given files that are reached by `create` and further calls, with
conditions on the salt that is drawn and on the calls. -/
inductive Kept (C : KeyCrypto) (pass : Bytes) (files : Files) (okSalt : H256 → Prop)
    (okCall : KeyManager → KeyCall → Prop) : KeyManager → Prop
  | create (default salt : H256) (hsalt : okSalt salt)
      (hsize : ((create C pass default salt).on (new files)).2.Storable) :
      Kept C pass files okSalt okCall ((create C pass default salt).on (new files)).2
  | call {km : KeyManager} (c : KeyCall) (h : Kept C pass files okSalt okCall km)
      (hc : okCall km c) (hsize : (km.after C c).Storable) :
      Kept C pass files okSalt okCall (km.after C c)

variable {C : KeyCrypto} {pass : Bytes}

lemma saved_import {km : KeyManager} (h : km.vault.Saved C pass) {s accountName p hint : Bytes}
    {u : H128} {rnd : ℕ} (hu : ∀ a, km.m_addrLookup.lookup a ≠ some u)
    (hsize : ((import_ C s accountName p hint u rnd).on km).2.Storable) :
    ((import_ C s accountName p hint u rnd).on km).2.vault.Saved C pass := by
  simp only [import_, storeImport, cachePassword, on_get_bind, on_modify_bind, bind_assoc]
    at hsize ⊢
  cases henc : C.encryptKey s p .Scrypt rnd with
  | error e => exact h
  | ok encryptedKey =>
    rw [henc] at hsize
    simp only [Method.call, pure_bind, on_modify_bind, on_bind_pure_snd] at hsize ⊢
    refine saved_write (h.toReady.withKey _ (fun x hx => ?_) ?_ hu) hsize
    · exact AList.mem_union.mpr (.inr hx)
    · exact AList.mem_union.mpr (.inl ((AList.mem_insert _).mpr (.inl rfl)))

lemma saved_kill {km : KeyManager} (h : km.vault.Saved C pass) {a : Address}
    (hsize : ((kill C a).on km).2.Storable) : ((kill C a).on km).2.vault.Saved C pass := by
  simp only [kill, on_modify_bind, on_bind_pure_snd] at hsize ⊢
  refine saved_write ?_ hsize
  unfold storeKill
  split_ifs
  · exact h.toReady.without a fun x hx hne => AList.mem_erase.mpr ⟨hne, hx⟩
  · exact h.toReady.without a fun x hx _ => hx

/-- `SecretStore::secret` changes nothing that the files have to agree with. -/
lemma keeps_storeSecret (u : H128) {p : KeyMethod Bytes} (hp : Keeps vault p) :
    Keeps vault (storeSecret C u p) := by
  refine keeps_get.bind fun km => ?_
  cases km.m_store.m_cached.lookup u with
  | some s => exact keeps_pure s
  | none =>
    cases km.m_store.m_keys.lookup u with
    | none => exact keeps_pure []
    | some key =>
      refine hp.bind fun p => (keeps_call _ _).bind fun s => Keeps.bind ?_ fun _ => keeps_pure s
      refine keeps_modify fun km => ?_
      split_ifs <;> rfl

/-- `SecretStore::recode` changes nothing that the files have to agree with, or it saves the key. -/
lemma storeRecode_cases (u : H128) (newPass : Bytes) {p : KeyMethod Bytes} (hp : Keeps vault p)
    (kdf : KDF) (rnd : ℕ) (km : KeyManager) :
    ((storeRecode C u newPass p kdf rnd).on km).2.vault = km.vault ∧
      ((storeRecode C u newPass p kdf rnd).on km).1 ≠ .ok true ∨
    ∃ km', (storeRecode C u newPass p kdf rnd).on km = (.ok true, km') ∧
      km'.vault = { km.vault with files := { km.files with secrets := km'.files.secrets } } ∧
      u ∈ km'.files.secrets ∧ ∀ x ∈ km.files.secrets, x ∈ km'.files.secrets := by
  have hsecret := keeps_storeSecret (C := C) u hp km
  rw [storeRecode, on_bind]
  rcases e : (storeSecret C u p).on km with ⟨r, km₁⟩
  rw [e] at hsecret
  cases r with
  | error e => exact .inl ⟨hsecret, nofun⟩
  | ok s =>
    simp only [on_ite]
    by_cases hs : s = []
    · rw [if_pos hs]
      exact .inl ⟨hsecret, nofun⟩
    · rw [if_neg hs, on_modify_bind]
      cases C.encryptKey s newPass kdf rnd with
      | error e => exact .inl ⟨hsecret, nofun⟩
      | ok encryptedKey =>
        have hfiles : km₁.files = km.files := congrArg Vault.files hsecret
        refine .inr ⟨_, rfl, ?_, ?_, fun x hx => ?_⟩
        · rw [← hsecret, ← hfiles]
          rfl
        · exact AList.mem_union.mpr (.inl ((AList.mem_insert _).mpr (.inl rfl)))
        · rw [← hfiles] at hx
          exact AList.mem_union.mpr (.inr hx)

lemma saved_recode {km : KeyManager} (h : km.vault.Saved C pass) {a : Address}
    {newPass hint : Bytes} {ask : ℕ → Except KeyError Bytes} {kdf : KDF} {rnd : ℕ}
    (hsize : ((recode C a newPass hint ask kdf rnd).on km).2.Storable) :
    ((recode C a newPass hint ask kdf rnd).on km).2.vault.Saved C pass := by
  simp only [recode, noteHint, on_modify_bind, on_get_bind] at hsize ⊢
  obtain ⟨km₀, hkm₀⟩ : ∃ km₀, km₀ = if hint = [] then km else
    { km with m_passwordHint := km.m_passwordHint.insert (km.hashPassword C newPass) hint } :=
    ⟨_, rfl⟩
  have hv : km₀.vault = km.vault := by
    rw [hkm₀]
    split_ifs <;> rfl
  rw [← hkm₀] at hsize ⊢
  rcases storeRecode_cases (C := C) (km₀.uuid a) newPass
    ((keeps_getPasswordOf C (km₀.uuid a) ask).of_part vault) kdf rnd km₀ with
    ⟨hvault, hne⟩ | ⟨km₁, hon, hvault, hu, hs⟩
  · -- the key could not be decrypted or encrypted, and nothing is written
    rw [on_bind] at hsize ⊢
    rcases e : (storeRecode C (km₀.uuid a) newPass (getPasswordOf C (km₀.uuid a) ask) kdf rnd).on
      km₀ with ⟨r, km₁⟩
    rw [e] at hvault hne
    cases r with
    | error e =>
      rw [← hv, ← hvault] at h
      exact h
    | ok b =>
      cases b with
      | true => exact absurd rfl hne
      | false =>
        rw [← hv, ← hvault] at h
        exact h
  · rw [on_bind_of_ok hon] at hsize ⊢
    simp only [if_true, on_modify_bind, on_bind_pure_snd] at hsize ⊢
    refine saved_write ?_ hsize
    have hready := h.toReady
    rw [← hv] at hready
    have hinfo := hready.withInfo (a := a)
      { km₁.info a with passHash := km₁.hashPassword C newPass } hs hu
    change Vault.Ready C pass { km₁.vault with infos := km₁.vault.infos.insert a _ }
    rw [hvault]
    exact hinfo

/-- Each address that the lookup of a new key manager has is the one of the key. -/
lemma new_addrs {files : Files} {a : Address} {u : H128}
    (h : (new files).m_addrLookup.lookup a = some u) :
    ∃ k, files.secrets.lookup u = some k ∧ k.address = a := by
  suffices hl : ∀ (l : List (Σ _ : H128, EncryptedKey)) (km : KeyManager),
      km.m_addrLookup = ∅ →
      (l.foldl (fun km k => km.link k.1 k.2.address) km).m_addrLookup.lookup a = some u →
      ∃ x ∈ l, x.1 = u ∧ x.2.address = a by
    obtain ⟨x, hx, rfl, ha⟩ := hl _ _ rfl h
    exact ⟨x.2, AList.mem_lookup_iff.mpr hx, ha⟩
  intro l km hkm hlookup
  induction l using List.reverseRecOn with
  | nil =>
    rw [foldl_nil, hkm] at hlookup
    exact absurd hlookup (by simp)
  | append_singleton l k ih =>
    rw [foldl_append] at hlookup
    rcases lookup_of_insert hlookup with ⟨rfl, rfl⟩ | ⟨-, hlookup⟩
    · exact ⟨k, by simp, rfl, rfl⟩
    · obtain ⟨x, hx, hxu⟩ := ih hlookup
      exact ⟨x, by simp [hx], hxu⟩

lemma saved_create {files : Files} {default salt : H256}
    (hkey : fileKey C pass (hashBytes salt) ≠ 0)
    (hsize : ((create C pass default salt).on (new files)).2.Storable) :
    ((create C pass default salt).on (new files)).2.vault.Saved C pass := by
  have hinfo := (new_fields files).1
  simp only [create, writeWithPassword, cachePassword, on_modify_bind] at hsize ⊢
  refine saved_writeWithKey ?_ ⟨rfl, hkey, fun a b u ha hb _ => ?_, fun a ha => ?_⟩
  · rwa [Storable, keeps_writeWithKey_items] at hsize
  · obtain ⟨k, hk, rfl⟩ := new_addrs ha
    obtain ⟨l, hl, rfl⟩ := new_addrs hb
    rw [Option.some.inj (hk.symm.trans hl)]
  · have ha' : a ∈ (new files).m_keyInfo := ha
    rw [hinfo] at ha'
    exact absurd ha' (AList.notMem_empty a)

/-- One call leaves the files in agreement with the accounts. -/
lemma saved_after {km : KeyManager} (h : km.vault.Saved C pass) {c : KeyCall}
    (hc : km.Draws c) (hsize : (km.after C c).Storable) : (km.after C c).vault.Saved C pass := by
  cases c with
  | import_ s accountName p hint u rnd => exact saved_import h hc hsize
  | importDefault s accountName u rnd =>
    have hp : vault ((defaultPassword C).on km).2 = vault km :=
      (keeps_defaultPassword C).of_part vault km
    simp only [after, importDefault, on_bind] at hsize ⊢
    rcases e : (defaultPassword C).on km with ⟨r, km₁⟩
    rw [e] at hp hsize
    cases r with
    | error x =>
      rw [← hp] at h
      exact h
    | ok p =>
      have haddrs : km₁.m_addrLookup = km.m_addrLookup := congrArg Vault.addrs hp
      rw [← hp] at h
      exact saved_import h (haddrs ▸ hc) hsize
  | kill a => exact saved_kill h hsize
  | killUuid u =>
    simp only [after, killUuid, on_get_bind] at hsize ⊢
    exact saved_kill h hsize
  | recode a newPass hint ask kdf rnd => exact saved_recode h hsize
  | importExisting | importExistingAs => exact hc.elim

/-- After every sequence of calls that starts with `create`, a new key manager on the files loads
them with the password, and has the account map and the default password. -/
theorem load_of_kept (hdec : ∀ k b, C.decryptSym k (C.encryptSym k b) = b)
    (hlen : ∀ k b, (C.encryptSym k b).length = b.length) {files : Files} {km : KeyManager}
    (h : Kept C pass files (fun salt => fileKey C pass (hashBytes salt) ≠ 0) Draws km) :
    ∃ km', (load C pass).on (new km.files) = (.ok true, km') ∧
      (∀ a, km'.m_keyInfo.lookup a = km.m_keyInfo.lookup a) ∧
      km'.m_defaultPasswordDeprecated = km.m_defaultPasswordDeprecated := by
  suffices hs : km.vault.Saved C pass from load_saved hdec hlen hs
  induction h with
  | create default salt hkey hsize => exact saved_create hkey hsize
  | call c _ hc hsize ih => exact saved_after ih hc hsize

/-- The key manager on empty files after `create`. -/
def created (pass : Bytes) : KeyManager := ((create .plain pass 1 2).on (new {})).2

/-- The key manager after the secret of the address 7 was imported, too. -/
def imported (pass : Bytes) : KeyManager :=
  (created pass).after .plain (.import_ [7] [] [] [] 1 0)

/-- The theorem at one account. -/
theorem load_of_kept_imported :
    ∃ km', (load .plain [1]).on (new (imported [1]).files) = (.ok true, km') ∧
      (∀ a, km'.m_keyInfo.lookup a = (imported [1]).m_keyInfo.lookup a) ∧
      km'.m_defaultPasswordDeprecated = (imported [1]).m_defaultPasswordDeprecated := by
  refine @load_of_kept .plain [1] (fun _ _ => rfl) (fun _ _ => rfl) {} _
    (.call _ (.create 1 2 (by decide +kernel) ?_) (fun a => ?_) ?_)
  · unfold Storable
    decide +kernel
  · exact nofun
  · unfold Storable
    decide +kernel

/-- Two runs whose accounts are not read back. In the first one, the key that is derived from the
password is zero, and the account is not written. In the second one, the secrets of the addresses 7
and 8 get the same uuid, and removing the first account removes the key of the second one. -/
theorem not_loaded :
    (∃ km, Kept .plain [] {} (fun _ => True) Draws km ∧ km.m_keyInfo.lookup 7 ≠ none ∧
      ((load .plain []).on (new km.files)).2.m_keyInfo.lookup 7 = none) ∧
    ∃ km, Kept .plain [1] {} (fun salt => fileKey .plain [1] (hashBytes salt) ≠ 0)
        (fun _ _ => True) km ∧ km.m_keyInfo.lookup 8 ≠ none ∧
      ((load .plain [1]).on (new km.files)).2.m_keyInfo.lookup 8 = none := by
  refine ⟨⟨imported [], .call _ (.create 1 2 trivial ?_) (fun a => ?_) ?_, ?_, ?_⟩,
    ((imported [1]).after .plain (.import_ [8] [] [] [] 1 0)).after .plain (.kill 7),
    .call _ (.call _ (.call _ (.create 1 2 ?_ ?_) trivial ?_) trivial ?_) trivial ?_, ?_, ?_⟩
  case refine_2 => exact nofun
  all_goals try unfold Storable
  all_goals decide +kernel

end KeyManager

end Tos.Account
