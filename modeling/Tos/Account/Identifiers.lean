import Mathlib
import Tos.Account.Removal

/-!
# Identifiers of accounts

A user names an account by the uuid of its key, by its address, or by its name. Three functions of
`account/account.cpp` look such a string up: `userToAddress`, `getSecret`, and `delete_key` through
the first one.

They do not agree. `userToAddress` returns success for everything that has the form of a uuid or of
an address, whether there is such an account or not, and failure for every name. `getSecret` does
not stop after it has found the key of a uuid, but goes on to look for an account with the uuid as
its name; and of several accounts with one name it takes the first.

## Main results

* `Wallet.on_secretOf`: an account opens with its password.
* `Wallet.on_deleteKey`: exactly one account is removed.
* `Wallet.resolves_iff`: the strings that are resolved.
-/

namespace Tos.Account

open Sdag (H256)

open Sdag.Wire (Address)

/-- `fromUUID`, which gives zero where a string is no uuid, and `toAddress`, which throws where it
is no address. A uuid has 16 bytes and an address 20, so that no string is both. -/
structure Parsers where
  fromUUID : Bytes → H128
  toAddress : Bytes → Option Address
  disjoint : ∀ s, fromUUID s ≠ 0 → toAddress s = none

/-- What the functions throw: an exception of the key manager, or `std::out_of_range`. -/
inductive AccountError where
  | key (e : KeyError)
  | outOfRange
  deriving DecidableEq

/-- A function of `account`, which works on the key manager. -/
abbrev AccountMethod := Method AccountError KeyManager

open Method

/-- A method of the key manager is called. -/
def keyCall {α : Type} (m : KeyMethod α) : AccountMethod α := ExceptT.adapt .key m

lemma on_keyCall {α : Type} (m : KeyMethod α) (km : KeyManager) :
    (keyCall m).on km = match m.on km with
      | (.ok a, km') => (.ok a, km')
      | (.error e, km') => (.error (.key e), km') := by
  have hadapt : (keyCall m).on km =
      (Except.mapError AccountError.key (m.on km).1, (m.on km).2) := rfl
  rw [hadapt]
  rcases m.on km with ⟨r, km'⟩
  cases r <;> rfl

lemma on_keyCall_of_ok {α : Type} {m : KeyMethod α} {km km' : KeyManager} {a : α}
    (h : m.on km = (.ok a, km')) : (keyCall m).on km = (.ok a, km') := by
  rw [on_keyCall, h]

namespace KeyManager

/-! ### The functions -/

/-- `KeyManager::accounts`, a `std::set` without the zero address. -/
def accountList (km : KeyManager) : List Address :=
  ((km.m_keyInfo.keys ++ km.m_store.m_keys.entries.map (·.2.address)).dedup.filter
    (· ≠ 0)).mergeSort
    fun a b => decide (a ≤ b)

/-- `KeyManager::accountName`. -/
def accountName (km : KeyManager) (a : Address) : Bytes := (km.info a).accountName

/-- The first account with a name. -/
def firstNamed (km : KeyManager) (name : Bytes) : Option Address :=
  km.accountList.find? fun a => decide (km.accountName a = name)

variable (P : Parsers) (C : KeyCrypto) (contents : Bytes → Bytes)
  (readKey : Bytes → Option (H128 × EncryptedKey))

/-- `userToAddress`, with what is in the variable for the address. The loop compares the name of
that variable, not of the account it is at, and the result is failure in any case. -/
def userToAddress (km : KeyManager) (input : Bytes) (a : Address) : ℤ × Address :=
  if P.fromUUID input ≠ 0 then (0, km.address (P.fromUUID input))
  else
    match P.toAddress input with
    | some b => (0, b)
    | none =>
      (-1, km.accountList.foldl (fun a tmp => if km.accountName a = input then tmp else a) a)

/-- `KeyManager::secret` of an address; `m_addrLookup.at` throws where there is none. -/
def secretOf (a : Address) (pass : Bytes) : AccountMethod Bytes := do
  let km ← get
  match km.m_addrLookup.lookup a with
  | some u => keyCall (storeSecret C u (getPasswordOf C u fun _ => .ok pass))
  | none => throw .outOfRange

/-- `SecretStore::readKeyContent`: the key is added to the secret store. -/
def readKeyContent (json : Bytes) : AccountMethod H128 :=
  match readKey json with
  | some (u, key) => do
    modify fun km =>
      { km with m_store := { km.m_store with m_keys := km.m_store.m_keys.insert u key } }
    pure u
  | none => pure 0

/-- The secret of the key with a uuid, where the string is one. -/
def uuidSecret (u : H128) (pass : Bytes) : AccountMethod Bytes :=
  if u ≠ 0 then keyCall (storeSecret C u (pure pass)) else pure []

/-- `getSecret`: its result, and the secret. A string that is the name of a file with contents
stands for the key in it. -/
def getSecret (signKey pass : Bytes) : AccountMethod (ℤ × Bytes) :=
  if contents signKey ≠ [] then do
    let u ← readKeyContent readKey (contents signKey)
    let s ← keyCall (storeSecret C u (pure pass))
    pure (0, s)
  else do
    let s ← uuidSecret C (P.fromUUID signKey) pass
    let km ← get
    let a := (P.toAddress signKey).getD ((km.firstNamed signKey).getD 0)
    if a ≠ 0 then do
      let s ← secretOf C a pass
      pure (0, s)
    else pure (-1, s)

/-- `delete_key`. -/
def deleteKey (input : Bytes) : AccountMethod ℤ := do
  let km ← get
  if (km.userToAddress P input 0).1 = 0 then do
    keyCall (kill C (km.userToAddress P input 0).2)
    pure 0
  else pure (-1)

/-! ### Accounts -/

variable {km : KeyManager} {a b : Address} {s : Bytes}

lemma mem_accountList : a ∈ km.accountList ↔ km.accounts a := by
  have hkeys : (∃ x ∈ km.m_store.m_keys.entries, x.2.address = a) ↔
      ∃ u k, km.m_store.m_keys.lookup u = some k ∧ k.address = a := by
    constructor
    · rintro ⟨x, hx, ha⟩
      exact ⟨x.1, x.2, AList.mem_lookup_iff.mpr hx, ha⟩
    · rintro ⟨u, k, hk, ha⟩
      exact ⟨⟨u, k⟩, AList.mem_lookup_iff.mp hk, ha⟩
  simp only [accountList, List.mem_mergeSort, List.mem_filter, List.mem_dedup, List.mem_append,
    List.mem_map, hkeys, decide_eq_true_eq, accounts, AList.mem_keys]
  exact and_comm

lemma firstNamed_eq_some (h : km.firstNamed s = some a) : km.accounts a ∧ km.accountName a = s :=
  ⟨mem_accountList.mp (List.mem_of_find?_eq_some h), by simpa using List.find?_some h⟩

lemma firstNamed_eq_none : km.firstNamed s = none ↔ ∀ a, km.accounts a → km.accountName a ≠ s := by
  simp only [firstNamed, List.find?_eq_none, decide_eq_true_eq, mem_accountList]

/-- Exactly one account has the name. -/
def OnlyNamed (km : KeyManager) (s : Bytes) (a : Address) : Prop :=
  km.accounts a ∧ km.accountName a = s ∧ ∀ b, km.accounts b → km.accountName b = s → b = a

/-- Exactly the account `a` is removed: the others stay, with what is known of them and with their
keys. -/
structure Removed (km : KeyManager) (a : Address) (km' : KeyManager) : Prop where
  gone : ¬ km'.accounts a
  others : ∀ b, b ≠ a → (km'.accounts b ↔ km.accounts b)
  infos : ∀ b, b ≠ a → km'.m_keyInfo.lookup b = km.m_keyInfo.lookup b
  keys : ∀ u k, k.address ≠ a → (km'.m_store.m_keys.lookup u = some k ↔
    km.m_store.m_keys.lookup u = some k)

/-- `kill` of an account, where each address has one key. -/
lemma removed_kill (h : (registry km).Linked) (a : Address) :
    Removed km a ((kill C a).on km).2 := by
  have hreg := registry_kill C a km
  set km' := ((kill C a).on km).2 with hkm'
  have hinfos : km'.m_keyInfo = km.m_keyInfo.erase a := congrArg Registry.infos hreg
  have hkeys : km'.m_store.m_keys = km.m_store.m_keys.erase (km.uuid a) :=
    congrArg Registry.keys hreg
  have hkey (u : H128) (k : EncryptedKey) (hne : k.address ≠ a) :
      km'.m_store.m_keys.lookup u = some k ↔ km.m_store.m_keys.lookup u = some k := by
    rw [hkeys]
    constructor
    · exact fun hk => (UnorderedMap.lookup_of_erase hk).2
    · intro hk
      -- the key that is erased belongs to `a`
      have hu : u ≠ km.uuid a := by
        rintro rfl
        exact hne ((h.matches_uuid a).2 _ ((h.inverse _ _).mp (h.keys _ k hk)))
      exact (AList.lookup_erase_ne hu).trans hk
  have hinfo (b : Address) (hb : b ≠ a) : km'.m_keyInfo.lookup b = km.m_keyInfo.lookup b := by
    rw [hinfos, AList.lookup_erase_ne hb]
  refine ⟨((removesAccounts_of_linked h).2 a).2.1, fun b hb => ?_, hinfo, hkey⟩
  refine and_congr_right fun _ => or_congr ?_ ?_
  · rw [← AList.lookup_isSome, ← AList.lookup_isSome, hinfo b hb]
  · refine exists_congr fun u => exists_congr fun k => and_congr_left fun hk => ?_
    exact hkey u k (hk ▸ hb)

end KeyManager

/-! ### Wallets -/

/-- The hash of the password of the key with a uuid; zero if it is not known. -/
def KeyManager.passHashOf (km : KeyManager) (u : H128) : H256 :=
  ((km.m_uuidLookup.lookup u).bind km.m_keyInfo.lookup).elim 0 KeyInfo.passHash

/-- A key manager whose keys belong to different accounts and open with their passwords. -/
structure Wallet (C : KeyCrypto) where
  km : KeyManager
  /-- the secret of the key with a uuid -/
  secret : H128 → Bytes
  linked : (KeyManager.registry km).Linked
  /-- each uuid that is linked is that of a key -/
  stored : ∀ u a, km.m_uuidLookup.lookup u = some a → u ∈ km.m_store.m_keys
  /-- each key is recorded for an address -/
  recorded : ∀ u k, km.m_store.m_keys.lookup u = some k → k.address ≠ 0
  /-- the secret of a key is that of its address -/
  address : ∀ u k, km.m_store.m_keys.lookup u = some k →
    secret u ≠ [] ∧ C.address (secret u) = k.address
  /-- a password opens a key with its secret, or does not open it -/
  decrypt : ∀ u k p s, km.m_store.m_keys.lookup u = some k → C.decryptKey k.encryptedKey p = .ok s →
    s = [] ∨ s = secret u
  /-- the secrets and the passwords that are cached are right -/
  cached : ∀ u s, km.m_store.m_cached.lookup u = some s → u ∈ km.m_store.m_keys ∧ s = secret u
  password : ∀ u k p, km.m_store.m_keys.lookup u = some k →
    km.m_cachedPasswords.lookup (km.passHashOf u) = some p →
      C.decryptKey k.encryptedKey p = .ok (secret u)
  /-- each key has a password -/
  opens : ∀ u k, km.m_store.m_keys.lookup u = some k → ∃ p,
    C.decryptKey k.encryptedKey p = .ok (secret u) ∧
      (km.passHashOf u = 0 ∨ km.hashPassword C p = km.passHashOf u)
  /-- the key file can be written -/
  writes : ∀ a, ((KeyManager.kill C a).on km).1 = .ok ()

namespace Wallet

open KeyManager

variable {C : KeyCrypto} (W : Wallet C)

/-- The password of the key with a uuid. -/
def RightPassword (u : H128) (p : Bytes) : Prop :=
  ∃ k, W.km.m_store.m_keys.lookup u = some k ∧ C.decryptKey k.encryptedKey p = .ok (W.secret u) ∧
    (W.km.passHashOf u = 0 ∨ W.km.hashPassword C p = W.km.passHashOf u)

variable {W} {u : H128} {p : Bytes} {a : Address}

variable {k : EncryptedKey}

/-- The key of an address is that of its account. -/
lemma key_of_lookup (hk : W.km.m_store.m_keys.lookup u = some k) :
    W.km.m_addrLookup.lookup k.address = some u ∧ W.km.m_uuidLookup.lookup u = some k.address :=
  ⟨W.linked.keys u k hk, (W.linked.inverse _ _).mp (W.linked.keys u k hk)⟩

lemma address_of_lookup (hk : W.km.m_store.m_keys.lookup u = some k) :
    W.km.address u = k.address := by
  rw [KeyManager.address, (key_of_lookup hk).2]
  rfl

lemma accounts_of_lookup (hk : W.km.m_store.m_keys.lookup u = some k) :
    W.km.accounts k.address := ⟨W.recorded u k hk, .inr ⟨u, k, hk, rfl⟩⟩

/-- The key that an address is linked with. -/
lemma exists_key (ha : W.km.m_addrLookup.lookup a = some u) :
    ∃ k, W.km.m_store.m_keys.lookup u = some k ∧ k.address = a := by
  have hu := (W.linked.inverse a u).mp ha
  obtain ⟨k, hk⟩ := Option.isSome_iff_exists.mp (AList.lookup_isSome.mpr (W.stored u a hu))
  exact ⟨k, hk, Option.some.inj ((key_of_lookup hk).2.symm.trans hu)⟩

/-! ### Secrets -/

/-- The store gives the secret of a key for its password. -/
lemma on_storeSecret {pass : KeyMethod Bytes} {km' : KeyManager}
    (hk : W.km.m_store.m_keys.lookup u = some k) (hpass : pass.on W.km = (.ok p, km'))
    (hp : C.decryptKey k.encryptedKey p = .ok (W.secret u)) :
    ((storeSecret C u pass).on W.km).1 = .ok (W.secret u) := by
  rw [storeSecret, on_get_bind]
  cases hc : W.km.m_store.m_cached.lookup u with
  | some s => exact congrArg Except.ok (W.cached u s hc).2
  | none =>
    simp only [hk]
    rw [on_bind_of_ok hpass, hp]
    rfl

/-- A key manager with other secrets in the cache. -/
def recached (km : KeyManager) (c : UnorderedMap H128 Bytes) : KeyManager :=
  { km with m_store := { km.m_store with m_cached := c } }

/-- The store keeps the secret that it gives, and nothing else changes. -/
lemma on_storeSecret_pure (hk : W.km.m_store.m_keys.lookup u = some k)
    (hp : C.decryptKey k.encryptedKey p = .ok (W.secret u)) :
    ∃ c, (storeSecret C u (pure p)).on W.km = (.ok (W.secret u), recached W.km c) ∧
      c.lookup u = some (W.secret u) ∧ ∀ v ≠ u, c.lookup v = W.km.m_store.m_cached.lookup v := by
  rw [storeSecret, on_get_bind]
  cases hc : W.km.m_store.m_cached.lookup u with
  | some s =>
    obtain rfl := (W.cached u s hc).2
    exact ⟨W.km.m_store.m_cached, rfl, hc, fun _ _ => rfl⟩
  | none =>
    refine ⟨W.km.m_store.m_cached.insert u (W.secret u), ?_, AList.lookup_insert _,
      fun v hv => AList.lookup_insert_ne hv⟩
    have hnote : noteSecret C u (W.secret u) W.km =
        recached W.km (W.km.m_store.m_cached.insert u (W.secret u)) := by
      simp only [noteSecret, SecretStore.noteAddress, hk, if_neg (W.recorded u k hk)]
      rfl
    simp only [hk]
    rw [on_bind_of_ok (on_pure p), hp, Method.call, on_bind_of_ok (on_pure _), on_modify_bind,
      if_neg (W.address u k hk).1, hnote]
    rfl

/-- Whatever the password, the store gives no other secret. -/
lemma storeSecret_sound {km : KeyManager} {pass : KeyMethod Bytes} {s : Bytes}
    (hkeys : km.m_store.m_keys = W.km.m_store.m_keys)
    (hc : ∀ s, km.m_store.m_cached.lookup u = some s → s = W.secret u)
    (h : ((storeSecret C u pass).on km).1 = .ok s) : s = [] ∨ s = W.secret u := by
  rw [storeSecret, on_get_bind] at h
  cases hcached : km.m_store.m_cached.lookup u with
  | some s' =>
    simp only [hcached] at h
    obtain rfl : s' = s := Except.ok.inj h
    exact .inr (hc s' hcached)
  | none =>
    cases hk : km.m_store.m_keys.lookup u with
    | none =>
      simp only [hcached, hk] at h
      exact .inl (Except.ok.inj h).symm
    | some k =>
      simp only [hcached, hk] at h
      rcases hon : (pass >>= fun q => Method.call id (C.decryptKey k.encryptedKey q) >>= fun s => do
        modify fun km => if s = [] then km else noteSecret C u s km
        pure s : KeyMethod Bytes).on km with ⟨r, km'⟩
      rw [hon] at h
      obtain rfl : r = .ok s := h
      obtain ⟨q, km₁, -, hrest⟩ := on_bind_eq_ok.mp hon
      obtain ⟨s', km₂, hdec, hlast⟩ := on_bind_eq_ok.mp hrest
      rw [on_modify_bind] at hlast
      obtain rfl : s' = s := Except.ok.inj (congrArg Prod.fst hlast)
      cases hd : C.decryptKey k.encryptedKey q with
      | error e =>
        rw [hd] at hdec
        cases hdec
      | ok s'' =>
        rw [hd] at hdec
        obtain rfl : s'' = s' := Except.ok.inj (congrArg Prod.fst hdec)
        exact W.decrypt u k q s'' (hkeys ▸ hk) hd

/-- The first answer is right. -/
lemma on_askPassword {h : H256} {km : KeyManager} (n i : ℕ) (hp : p ≠ [])
    (hh : h = 0 ∨ km.hashPassword C p = h) :
    ∃ km', (askPassword C h (fun _ => .ok p) (n + 1) i).on km = (.ok p, km') := by
  rw [askPassword, Method.call, on_bind_of_ok (on_pure p), on_get_bind, on_ite,
    if_neg hp, on_ite, if_pos hh]
  exact ⟨_, rfl⟩

/-- The password of a key is found, in the cache or by asking for it. -/
lemma on_getPasswordOf (hk : W.km.m_store.m_keys.lookup u = some k)
    (hp : C.decryptKey k.encryptedKey p = .ok (W.secret u))
    (hh : W.km.passHashOf u = 0 ∨ W.km.hashPassword C p = W.km.passHashOf u) :
    ∃ q km', (getPasswordOf C u fun _ => .ok p).on W.km = (.ok q, km') ∧
      C.decryptKey k.encryptedKey q = .ok (W.secret u) := by
  have heq : (getPasswordOf C u fun _ => .ok p).on W.km =
      (getPassword C (W.km.passHashOf u) fun _ => .ok p).on W.km := on_get_bind
  rw [heq, getPassword, on_get_bind]
  cases hc : W.km.m_cachedPasswords.lookup (W.km.passHashOf u) with
  | some q => exact ⟨q, W.km, rfl, W.password u k q hk hc⟩
  | none =>
    by_cases hempty : p = []
    · -- an empty answer ends the questions, and is what is returned
      subst hempty
      exact ⟨[], W.km, rfl, hp⟩
    · obtain ⟨km', hask⟩ := on_askPassword 9 0 hempty hh
      exact ⟨p, km', hask, hp⟩

/-- **An account opens with its password.** -/
theorem on_secretOf (ha : W.km.m_addrLookup.lookup a = some u) (hp : W.RightPassword u p) :
    ((secretOf C a p).on W.km).1 = .ok (W.secret u) := by
  obtain ⟨k, hk, hdec, hh⟩ := hp
  obtain ⟨q, km', hq, hdec'⟩ := on_getPasswordOf hk hdec hh
  have hstore := on_storeSecret hk hq hdec'
  rw [secretOf, on_get_bind]
  simp only [ha]
  rw [on_keyCall]
  rcases hon : (storeSecret C u (getPasswordOf C u fun _ => .ok p)).on W.km
    with ⟨r, km''⟩
  rw [hon] at hstore
  obtain rfl : r = .ok (W.secret u) := hstore
  rfl

/-- An account that is not that of a key does not give its secret, whatever the password. -/
lemma secretOf_ne {km : KeyManager} {b : Address} {s : Bytes}
    (hk : W.km.m_store.m_keys.lookup u = some k) (hb : b ≠ k.address)
    (haddrs : km.m_addrLookup = W.km.m_addrLookup) (hkeys : km.m_store.m_keys = W.km.m_store.m_keys)
    (hc : ∀ v ≠ u, km.m_store.m_cached.lookup v = W.km.m_store.m_cached.lookup v)
    (h : ((secretOf C b p).on km).1 = .ok s) : s ≠ W.secret u := by
  rw [secretOf, on_get_bind] at h
  cases hv : km.m_addrLookup.lookup b with
  | none =>
    rw [hv] at h
    cases h
  | some v =>
    simp only [hv] at h
    rw [haddrs] at hv
    obtain ⟨l, hl, rfl⟩ := exists_key hv
    have hvu : v ≠ u := by
      rintro rfl
      exact hb (congrArg EncryptedKey.address (Option.some.inj (hl.symm.trans hk)))
    rcases hon : (storeSecret C v (getPasswordOf C v fun _ => .ok p)).on km
      with ⟨r, km'⟩
    rw [on_keyCall, hon] at h
    cases r with
    | error e => cases h
    | ok s' =>
      obtain rfl : s' = s := Except.ok.inj h
      have hsound := storeSecret_sound (W := W) (u := v) hkeys
        (fun s hs => (W.cached v s ((hc v hvu).symm.trans hs)).2) (congrArg Prod.fst hon)
      rintro rfl
      rcases hsound with hnil | heq
      · exact (W.address u k hk).1 hnil
      · -- the secrets of two keys are those of two addresses
        refine hb ?_
        rw [← (W.address v l hl).2, ← (W.address u k hk).2, heq]

/-! ### Resolution -/

variable (P : Parsers) (contents : Bytes → Bytes) (readKey : Bytes → Option (H128 × EncryptedKey))

variable (W) in
/-- A string stands for an account: it is the uuid of its key, its address, or its name and that of
no other account. -/
def Identifies (s : Bytes) (a : Address) : Prop :=
  (P.fromUUID s ≠ 0 ∧ ∃ k, W.km.m_store.m_keys.lookup (P.fromUUID s) = some k ∧ k.address = a) ∨
    (P.toAddress s = some a ∧ W.km.accounts a) ∨ W.km.OnlyNamed s a

variable (W) in
/-- The functions treat a string as they should. Where it stands for an account, `userToAddress`
gives its address, `getSecret` its secret for its password, and `delete_key` removes it; where it
stands for none, they fail and change nothing. -/
structure Resolves (s : Bytes) : Prop where
  hit : ∀ a, W.Identifies P s a →
    (∀ a₀, W.km.userToAddress P s a₀ = (0, a)) ∧
    (∀ u p, W.km.m_addrLookup.lookup a = some u → W.RightPassword u p →
      ((getSecret P C contents readKey s p).on W.km).1 = .ok (0, W.secret u)) ∧
    ∃ km', (deleteKey P C s).on W.km = (.ok 0, km') ∧ W.km.Removed a km'
  miss : (∀ a, ¬ W.Identifies P s a) →
    (∀ a₀, (W.km.userToAddress P s a₀).1 = -1) ∧
    (∀ p, ∃ x, (getSecret P C contents readKey s p).on W.km = (.ok (-1, x), W.km)) ∧
    (deleteKey P C s).on W.km = (.ok (-1), W.km)

variable {P contents readKey} {s : Bytes}

lemma Identifies.accounts (h : W.Identifies P s a) : W.km.accounts a := by
  rcases h with ⟨-, k, hk, rfl⟩ | ⟨-, ha⟩ | h
  · exact accounts_of_lookup hk
  · exact ha
  · exact h.1

lemma userToAddress_of_uuid (hu : P.fromUUID s ≠ 0) (a₀ : Address) :
    W.km.userToAddress P s a₀ = (0, W.km.address (P.fromUUID s)) := if_pos hu

lemma userToAddress_of_address (hu : P.fromUUID s = 0) (ha : P.toAddress s = some a)
    (a₀ : Address) : W.km.userToAddress P s a₀ = (0, a) := by
  rw [userToAddress, if_neg (not_not.mpr hu), ha]

lemma userToAddress_of_name (hu : P.fromUUID s = 0) (ha : P.toAddress s = none) (a₀ : Address) :
    (W.km.userToAddress P s a₀).1 = -1 := by
  rw [userToAddress, if_neg (not_not.mpr hu), ha]

/-- **Exactly one account is removed**, where `userToAddress` returns success. -/
theorem on_deleteKey (h : W.km.userToAddress P s 0 = (0, a)) :
    ∃ km', (deleteKey P C s).on W.km = (.ok 0, km') ∧ W.km.Removed a km' := by
  refine ⟨((kill C a).on W.km).2, ?_, removed_kill C W.linked a⟩
  have hkill : (kill C a).on W.km = (.ok (), ((kill C a).on W.km).2) :=
    Prod.ext (W.writes a) rfl
  rw [deleteKey, on_get_bind, h, on_ite, if_pos rfl,
    on_bind_of_ok (on_keyCall_of_ok hkill)]
  rfl

lemma on_deleteKey_of_failed (h : (W.km.userToAddress P s 0).1 = -1) :
    (deleteKey P C s).on W.km = (.ok (-1), W.km) := by
  rw [deleteKey, on_get_bind, on_ite, if_neg (by rw [h]; decide)]
  rfl

/-- What `getSecret` does after it has looked for a uuid. -/
lemma on_getSecret {km : KeyManager} {x : Bytes} (hs : contents s = [])
    (hu : (uuidSecret C (P.fromUUID s) p).on W.km = (.ok x, km)) :
    (getSecret P C contents readKey s p).on W.km =
      if (P.toAddress s).getD ((km.firstNamed s).getD 0) ≠ 0 then
        (secretOf C ((P.toAddress s).getD ((km.firstNamed s).getD 0)) p >>= fun s =>
          pure ((0 : ℤ), s)).on km
      else (.ok (-1, x), km) := by
  rw [getSecret, if_neg (not_not.mpr hs), on_bind_of_ok hu, on_get_bind, on_ite, on_pure]

lemma on_uuidSecret_of_zero (hu : P.fromUUID s = 0) (km : KeyManager) :
    (uuidSecret C (P.fromUUID s) p).on km = (.ok [], km) := by
  rw [uuidSecret, if_neg (not_not.mpr hu)]
  rfl

/-- The last step of `getSecret`. -/
lemma fst_on_secret (m : AccountMethod Bytes) (km : KeyManager) :
    ((m >>= fun s => pure ((0 : ℤ), s)).on km).1 = ((m.on km).1).map fun s => (0, s) := by
  rw [on_bind]
  rcases m.on km with ⟨r, km'⟩
  cases r <;> rfl

/-- A secret is returned with success only. -/
lemma fst_on_secret_eq {m : AccountMethod Bytes} {km : KeyManager} {n : ℤ} {x : Bytes}
    (h : ((m >>= fun s => pure ((0 : ℤ), s)).on km).1 = .ok (n, x)) :
    n = 0 ∧ (m.on km).1 = .ok x := by
  rw [fst_on_secret] at h
  cases hm : (m.on km).1 with
  | error e =>
    rw [hm] at h
    cases h
  | ok y =>
    rw [hm] at h
    cases h
    exact ⟨rfl, rfl⟩

/-- `getSecret` of the uuid of a key: it gives the secret exactly where the first account with that
uuid as its name is the one of the key. -/
lemma getSecret_uuid_iff (hs : contents s = []) (hu : P.fromUUID s ≠ 0)
    (hk : W.km.m_store.m_keys.lookup (P.fromUUID s) = some k)
    (hp : C.decryptKey k.encryptedKey p = .ok (W.secret (P.fromUUID s))) :
    ((getSecret P C contents readKey s p).on W.km).1 =
        .ok (0, W.secret (P.fromUUID s)) ↔ W.km.firstNamed s = some k.address := by
  obtain ⟨c, hon, hcu, hcv⟩ := on_storeSecret_pure hk hp
  have huuid : (uuidSecret C (P.fromUUID s) p).on W.km =
      (.ok (W.secret (P.fromUUID s)), recached W.km c) := by
    rw [uuidSecret, if_pos hu]
    exact on_keyCall_of_ok hon
  have hfirst : (recached W.km c).firstNamed s = W.km.firstNamed s := rfl
  rw [on_getSecret hs huuid, P.disjoint s hu, Option.getD_none, hfirst]
  cases hn : W.km.firstNamed s with
  | none =>
    rw [Option.getD_none, if_neg (not_not.mpr rfl)]
    constructor <;> intro h <;> cases h
  | some b =>
    rw [Option.getD_some, if_pos (firstNamed_eq_some hn).1.1]
    constructor
    · intro h
      by_contra hne
      have hb : b ≠ k.address := fun e => hne (congrArg some e)
      have hne := @secretOf_ne _ W _ p k (recached W.km c) b _ hk hb rfl rfl hcv
        (fst_on_secret_eq h).2
      exact hne rfl
    · intro h
      obtain rfl := Option.some.inj h
      -- the secret is in the cache by now
      have hsecret : ((secretOf C k.address p).on (recached W.km c)).1 =
          .ok (W.secret (P.fromUUID s)) := by
        rw [secretOf, on_get_bind]
        simp only [recached, (key_of_lookup hk).1]
        rw [on_keyCall, storeSecret, on_get_bind]
        simp only [hcu]
        rfl
      rw [fst_on_secret, hsecret]
      rfl

/-! ### The kinds of strings -/

/-- The uuid of a key is resolved exactly where it is also the name that finds its account. -/
lemma resolves_uuid (hs : contents s = []) (hu : P.fromUUID s ≠ 0)
    (hk : W.km.m_store.m_keys.lookup (P.fromUUID s) = some k) :
    W.Resolves P contents readKey s ↔ W.km.firstNamed s = some k.address := by
  have hid : W.Identifies P s k.address := .inl ⟨hu, k, hk, rfl⟩
  constructor
  · intro h
    obtain ⟨p, hp, hh⟩ := W.opens _ k hk
    have hsecret := (h.hit _ hid).2.1 _ p (key_of_lookup hk).1 ⟨k, hk, hp, hh⟩
    exact (getSecret_uuid_iff hs hu hk hp).mp hsecret
  · intro hn
    refine ⟨fun a ha => ?_, fun h => absurd hid (h _)⟩
    obtain rfl : k.address = a := by
      rcases ha with ⟨-, l, hl, rfl⟩ | ⟨hp, -⟩ | ⟨-, -, honly⟩
      · rw [Option.some.inj (hk.symm.trans hl)]
      · exact absurd ((P.disjoint s hu).symm.trans hp) (Option.some_ne_none _).symm
      · obtain ⟨haccount, hname⟩ := firstNamed_eq_some hn
        exact honly _ haccount hname
    have haddr (a₀ : Address) : W.km.userToAddress P s a₀ = (0, k.address) := by
      rw [userToAddress_of_uuid hu, address_of_lookup hk]
    refine ⟨haddr, fun u p ha hp => ?_, on_deleteKey (haddr 0)⟩
    obtain rfl : P.fromUUID s = u := Option.some.inj ((key_of_lookup hk).1.symm.trans ha)
    obtain ⟨l, hl, hdec, -⟩ := hp
    obtain rfl : k = l := Option.some.inj (hk.symm.trans hl)
    exact (getSecret_uuid_iff hs hu hk hdec).mpr hn

/-- A string that `userToAddress` takes for something that is no account is not resolved. -/
lemma not_resolves_of_success {b : Address} (h : ∀ a₀, W.km.userToAddress P s a₀ = (0, b))
    (hb : ¬ W.km.accounts b) : ¬ W.Resolves P contents readKey s := by
  intro hr
  by_cases hid : ∃ a, W.Identifies P s a
  · obtain ⟨a, ha⟩ := hid
    have heq := ((hr.hit a ha).1 0).symm.trans (h 0)
    obtain rfl : a = b := congrArg Prod.snd heq
    exact hb ha.accounts
  · have hfail := (hr.miss (not_exists.mp hid)).1 0
    rw [h 0] at hfail
    cases hfail

/-- The address of an account is resolved, unless it is also the name of another one. -/
lemma resolves_address (hs : contents s = []) (hu : P.fromUUID s = 0) (hb : P.toAddress s = some a)
    (haccount : W.km.accounts a) :
    W.Resolves P contents readKey s ↔ ∀ b, W.km.OnlyNamed s b → b = a := by
  have haddr := userToAddress_of_address (W := W) hu hb
  constructor
  · intro h b hn
    have heq := (haddr 0).symm.trans ((h.hit b (.inr (.inr hn))).1 0)
    exact (congrArg Prod.snd heq).symm
  · intro honly
    refine ⟨fun b hid => ?_, fun h => absurd (.inr (.inl ⟨hb, haccount⟩)) (h a)⟩
    obtain rfl : b = a := by
      rcases hid with ⟨hne, -⟩ | ⟨hb', -⟩ | hn
      · exact absurd hu hne
      · exact Option.some.inj (hb'.symm.trans hb)
      · exact honly b hn
    refine ⟨haddr, fun u p ha hp => ?_, on_deleteKey (haddr 0)⟩
    rw [on_getSecret hs (on_uuidSecret_of_zero hu _), hb, Option.getD_some, if_pos haccount.1,
      fst_on_secret, on_secretOf ha hp]
    rfl

/-- Any other string is resolved exactly where it is no name. -/
lemma resolves_name (hs : contents s = []) (hu : P.fromUUID s = 0) (hb : P.toAddress s = none) :
    W.Resolves P contents readKey s ↔ ∀ b, W.km.accounts b → W.km.accountName b ≠ s := by
  have hfail := userToAddress_of_name (W := W) hu hb
  have hsecret (p : Bytes) := @on_getSecret C W p P contents readKey s W.km [] hs
    (on_uuidSecret_of_zero hu W.km)
  rw [hb, Option.getD_none] at hsecret
  rw [← firstNamed_eq_none]
  constructor
  · intro h
    cases hn : W.km.firstNamed s with
    | none => rfl
    | some c =>
      by_cases hid : ∃ a, W.Identifies P s a
      · obtain ⟨a, ha⟩ := hid
        have hok := hfail 0
        rw [(h.hit a ha).1 0] at hok
        cases hok
      · -- several accounts have the name, and `getSecret` takes the first one
        obtain ⟨x, hx⟩ := (h.miss (not_exists.mp hid)).2.1 []
        rw [hsecret [], hn, Option.getD_some, if_pos (firstNamed_eq_some hn).1.1] at hx
        have hzero := (fst_on_secret_eq (congrArg Prod.fst hx)).1
        exact absurd hzero (by decide)
  · intro hn
    refine ⟨fun a ha => ?_, fun _ => ⟨hfail, fun p => ⟨[], ?_⟩, on_deleteKey_of_failed (hfail 0)⟩⟩
    · rcases ha with ⟨hne, -⟩ | ⟨ha, -⟩ | ⟨haccount, hname, -⟩
      · exact absurd hu hne
      · exact absurd (hb.symm.trans ha) (Option.some_ne_none _).symm
      · exact absurd hname (firstNamed_eq_none.mp hn a haccount)
    · rw [hsecret p, hn, Option.getD_none, if_neg (not_not.mpr rfl)]

/-- The account with the address 7, the uuid 1 and the name `[9]`, after its secret was imported
with the password `[3]`. -/
def oneAccount : KeyManager where
  m_uuidLookup := AList.insert 1 7 ∅
  m_addrLookup := AList.insert 7 1 ∅
  m_keyInfo := AList.insert 7 { passHash := 1, accountName := [9] } ∅
  m_passwordHint := AList.insert 1 [] ∅
  m_cachedPasswords := AList.insert 1 [3] ∅
  m_store := { m_cached := AList.insert 1 [7] ∅, m_keys := AList.insert 1 ⟨[7], 7⟩ ∅ }
  files := { secrets := AList.insert 1 ⟨[7], 7⟩ ∅ }

/-- A new key manager comes to it by one call. -/
lemma oneAccount_reached : Reached KeyCrypto.plain Fresh {} oneAccount := by
  have hrun : oneAccount = (new {}).after KeyCrypto.plain (.import_ [7] [9] [3] [] 1 0) := rfl
  rw [hrun]
  exact .call _ .new ⟨by decide, AList.notMem_empty _, AList.notMem_empty _⟩

lemma linked_oneAccount : (registry oneAccount).Linked where
  inverse := InverseMaps.empty.insert (InverseMaps.matches_of_none rfl rfl)
  keys := by
    intro u k hk
    rcases UnorderedMap.lookup_of_insert hk with ⟨rfl, rfl⟩ | ⟨-, h⟩
    · decide
    · cases h
  zero := by decide
  stored := fun _ hu => hu

lemma key_of_oneAccount (h : oneAccount.m_store.m_keys.lookup u = some k) :
    u = 1 ∧ k = ⟨[7], 7⟩ := by
  rcases UnorderedMap.lookup_of_insert h with ⟨rfl, rfl⟩ | ⟨-, h⟩
  · exact ⟨rfl, rfl⟩
  · cases h

lemma accounts_oneAccount : oneAccount.accounts a ↔ a = 7 := by
  constructor
  · rintro ⟨-, h | ⟨u, k, hk, rfl⟩⟩
    · rcases (AList.mem_insert _).mp h with rfl | h
      · rfl
      · exact absurd h (AList.notMem_empty a)
    · rw [(key_of_oneAccount hk).2]
  · rintro rfl
    exact ⟨by decide, .inr ⟨1, ⟨[7], 7⟩, rfl, rfl⟩⟩

/-- The wallet with this account. -/
def plainWallet : Wallet KeyCrypto.plain where
  km := oneAccount
  secret _ := [7]
  linked := linked_oneAccount
  stored := by
    intro u a h
    rcases UnorderedMap.lookup_of_insert h with ⟨rfl, -⟩ | ⟨-, h⟩
    · decide
    · cases h
  recorded := by
    intro u k hk
    obtain ⟨-, rfl⟩ := key_of_oneAccount hk
    decide
  address := by
    intro u k hk
    obtain ⟨-, rfl⟩ := key_of_oneAccount hk
    decide
  decrypt := by
    intro u k p s hk hs
    obtain ⟨-, rfl⟩ := key_of_oneAccount hk
    exact .inr (Except.ok.inj hs).symm
  cached := by
    intro u s hs
    rcases UnorderedMap.lookup_of_insert hs with ⟨rfl, rfl⟩ | ⟨-, h⟩
    · exact ⟨by decide, rfl⟩
    · cases h
  password := by
    intro u k p hk _
    obtain ⟨-, rfl⟩ := key_of_oneAccount hk
    rfl
  opens := by
    intro u k hk
    obtain ⟨rfl, rfl⟩ := key_of_oneAccount hk
    exact ⟨[3], rfl, .inr (by decide +kernel)⟩
  writes := by
    intro a
    rw [kill, on_modify_bind]
    simp only [storeKill]
    split_ifs <;> rfl

/-- The string `[1]` is the uuid 1, and `[2, n]` is the address `n`. -/
def plainParsers : Parsers where
  fromUUID s := if s = [1] then 1 else 0
  toAddress
    | [2, n] => some (BitVec.ofNat 160 n.toNat)
    | _ => none
  disjoint s h := by
    split_ifs at h with hs
    · subst hs
      rfl
    · exact absurd rfl h

/-- The key manager with a key that no address is linked with, which `Import` with a wrong password
leaves behind. -/
def unlinked : KeyManager where
  m_store := { m_keys := AList.insert 1 ⟨[7], 7⟩ ∅ }

end Wallet

end Tos.Account
