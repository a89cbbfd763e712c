import Tos.Account.KeyManager

/-!
# The registry of a key manager

Most of what a key manager keeps has to do with passwords and with the key file. Which accounts
there are, and which key belongs to which account, is only a part of it: the registry. This file
says what each method does to the registry, whatever its outcome.

## Main results

* `KeyManager.registry_import`, `registry_importExisting`, `registry_kill`: what the
  methods of the key manager do to its registry.
* `KeyManager.registry_new`: the registry of a new key manager.
-/

namespace Tos.Account

open Sdag (H256)

open Sdag.Wire (Address)

namespace UnorderedMap

variable {κ ν : Type} [DecidableEq κ] {m : UnorderedMap κ ν} {x y : κ} {b c : ν}

lemma erase_of_notMem (h : x ∉ m) : m.erase x = m := AList.ext (List.kerase_of_notMem_keys h)

/-- What a map has after an entry was inserted. -/
lemma lookup_of_insert (h : (m.insert y c).lookup x = some b) :
    x = y ∧ c = b ∨ x ≠ y ∧ m.lookup x = some b := by
  by_cases hxy : x = y
  · subst hxy
    exact .inl ⟨rfl, Option.some.inj ((AList.lookup_insert m).symm.trans h)⟩
  · exact .inr ⟨hxy, (AList.lookup_insert_ne hxy).symm.trans h⟩

/-- What is left in a map from which an entry was erased. -/
lemma lookup_of_erase (h : (m.erase y).lookup x = some b) : x ≠ y ∧ m.lookup x = some b := by
  have hne : x ≠ y := by
    rintro rfl
    exact absurd ((AList.lookup_erase _ m).symm.trans h) nofun
  exact ⟨hne, (AList.lookup_erase_ne hne).symm.trans h⟩

end UnorderedMap

/-- Which accounts and keys there are. -/
structure Registry where
  addrs : UnorderedMap Address H128
  uuids : UnorderedMap H128 Address
  infos : UnorderedMap Address KeyInfo
  keys : UnorderedMap H128 EncryptedKey
  files : UnorderedMap H128 EncryptedKey

namespace Registry

/-- A uuid and an address belong to each other. -/
def link (r : Registry) (u : H128) (a : Address) : Registry :=
  { r with addrs := r.addrs.insert a u, uuids := r.uuids.insert u a }

/-- An entry of the account map. -/
def setInfo (r : Registry) (a : Address) (i : KeyInfo) : Registry :=
  { r with infos := r.infos.insert a i }

/-- A key is stored, and all keys are saved. -/
def addKey (r : Registry) (u : H128) (k : EncryptedKey) : Registry :=
  { r with keys := r.keys.insert u k, files := r.keys.insert u k ∪ r.files }

/-- The address of a key whose address is not known yet. -/
def noteAddress (r : Registry) (u : H128) (a : Address) : Registry :=
  match r.keys.lookup u with
  | some k =>
    if k.address = 0 then { r with keys := r.keys.insert u { k with address := a } } else r
  | none => r

/-- An account is removed, together with its key. -/
def remove (r : Registry) (a : Address) : Registry :=
  { addrs := r.addrs.erase a
    uuids := r.uuids.erase (uuidOf r.addrs a)
    infos := r.infos.erase a
    keys := r.keys.erase (uuidOf r.addrs a)
    files := if uuidOf r.addrs a ∈ r.keys then r.files.erase (uuidOf r.addrs a) else r.files }

end Registry

namespace KeyManager

open Method

/-- The registry of a key manager. -/
def registry (km : KeyManager) : Registry where
  addrs := km.m_addrLookup
  uuids := km.m_uuidLookup
  infos := km.m_keyInfo
  keys := km.m_store.m_keys
  files := km.files.secrets

variable (C : KeyCrypto)

/-! ### Passwords and the key file -/

/-- All but the passwords that are cached. -/
def uncached (km : KeyManager) : KeyManager := { km with m_cachedPasswords := ∅ }

lemma keeps_cachePassword (p : Bytes) : Keeps uncached (cachePassword C p) :=
  keeps_modify fun _ => rfl

lemma keeps_askPassword (passHash : H256) (ask : ℕ → Except KeyError Bytes) (n i : ℕ) :
    Keeps uncached (askPassword C passHash ask n i) := by
  induction n generalizing i with
  | zero => exact keeps_pure _
  | succ n ih =>
    refine (keeps_call _ _).bind fun p => keeps_get.bind fun km => .ite (keeps_pure _) ?_
    exact .ite ((keeps_cachePassword C p).bind fun _ => keeps_pure _) (ih _)

lemma keeps_getPassword (passHash : H256) (ask : ℕ → Except KeyError Bytes) :
    Keeps uncached (getPassword C passHash ask) := by
  refine keeps_get.bind fun km => ?_
  cases km.m_cachedPasswords.lookup passHash with
  | some p => exact keeps_pure p
  | none => exact keeps_askPassword C passHash ask 10 0

lemma keeps_getPasswordOf (u : H128) (ask : ℕ → Except KeyError Bytes) :
    Keeps uncached (getPasswordOf C u ask) :=
  keeps_get.bind fun _ => keeps_getPassword C _ ask

lemma keeps_defaultPassword : Keeps uncached (defaultPassword C) :=
  keeps_get.bind fun _ => keeps_getPassword C _ _

lemma keeps_cacheDefault :
    Keeps uncached (do let p ← defaultPassword C; cachePassword C p : KeyMethod Unit) :=
  (keeps_defaultPassword C).bind fun p => keeps_cachePassword C p

lemma keeps_writeWithKey (key : H128) : Keeps registry (writeWithKey C key) := by
  refine keeps_get.bind fun _ => (keeps_call _ _).bind fun _ => Keeps.bind ?_ fun _ => ?_
  · exact keeps_modify fun _ => rfl
  · exact (keeps_cacheDefault C).of_part registry

lemma keeps_write : Keeps registry (write C) :=
  keeps_get.bind fun _ =>
    .ite (keeps_pure _) ((keeps_writeWithKey C _).bind fun _ => keeps_pure _)

/-! ### The methods -/

lemma registry_then_write {α : Type} (x : α) (km : KeyManager) :
    registry ((do let _ ← write C; pure x : KeyMethod α).on km).2 = registry km :=
  ((keeps_write C).bind fun _ => keeps_pure x) km

/-- What `import` does to the registry: nothing if the key cannot be encrypted. -/
theorem registry_import (s accountName pass hint : Bytes) (u : H128) (rnd : ℕ) (km : KeyManager) :
    registry ((import_ C s accountName pass hint u rnd).on km).2 = registry km ∨
    ∃ encryptedKey, registry ((import_ C s accountName pass hint u rnd).on km).2 =
      (((registry km).addKey u ⟨encryptedKey, C.address s⟩).setInfo (C.address s)
        { passHash := km.hashPassword C pass, accountName }).link u (C.address s) := by
  simp only [import_, storeImport, cachePassword, on_get_bind, on_modify_bind, bind_assoc]
  cases h : C.encryptKey s pass .Scrypt rnd with
  | error e =>
    left
    rfl
  | ok encryptedKey =>
    right
    refine ⟨encryptedKey, ?_⟩
    exact registry_then_write C u _

/-- What `importExisting` with an address does to the registry. -/
theorem registry_importExistingAs (u : H128) (accountName : Bytes) (a : Address) (passHash : H256)
    (hint : Bytes) (km : KeyManager) :
    registry ((importExistingAs C u accountName a passHash hint).on km).2 =
      ((registry km).link u a).setInfo a { km.info a with passHash, accountName } :=
  registry_then_write C () _

/-- What `kill` does to the registry. -/
theorem registry_kill (a : Address) (km : KeyManager) :
    registry ((kill C a).on km).2 = (registry km).remove a := by
  refine (registry_then_write C () _).trans ?_
  simp only [storeKill]
  by_cases h : km.uuid a ∈ km.m_store.m_keys
  · have h' : uuidOf (registry km).addrs a ∈ (registry km).keys := h
    rw [if_pos h, Registry.remove, if_pos h']
    rfl
  · have h' : uuidOf (registry km).addrs a ∉ (registry km).keys := h
    rw [if_neg h, Registry.remove, if_neg h', UnorderedMap.erase_of_notMem h']
    rfl

lemma registry_noteSecret (u : H128) (s : Bytes) (km : KeyManager) :
    registry (noteSecret C u s km) = (registry km).noteAddress u (C.address s) := by
  simp only [noteSecret, SecretStore.noteAddress, Registry.noteAddress, registry]
  cases km.m_store.m_keys.lookup u with
  | none => rfl
  | some k =>
    simp only
    split_ifs <;> rfl

/-- What `SecretStore::secret` does to the registry when it is asked for a secret: at most, it
notes the address of the key. -/
lemma registry_storeSecret (u : H128) {pass : KeyMethod Bytes} (hpass : Keeps registry pass)
    (km : KeyManager) :
    registry ((storeSecret C u pass).on km).2 = registry km ∨
    ∃ s, ((storeSecret C u pass).on km).1 = .ok s ∧ s ≠ [] ∧
      registry ((storeSecret C u pass).on km).2 = (registry km).noteAddress u (C.address s) := by
  rw [storeSecret, on_get_bind]
  cases km.m_store.m_cached.lookup u with
  | some s => exact .inl rfl
  | none =>
    cases km.m_store.m_keys.lookup u with
    | none => exact .inl rfl
    | some key =>
      have hp := hpass km
      simp only [on_bind]
      rcases e : pass.on km with ⟨r, km₁⟩
      rw [e] at hp
      cases r with
      | error e => exact .inl hp
      | ok p =>
        simp only
        cases C.decryptKey key.encryptedKey p with
        | error e => exact .inl hp
        | ok s =>
          by_cases hs : s = []
          · subst hs
            exact .inl hp
          · refine .inr ⟨s, rfl, hs, ?_⟩
            simp only [Method.call, on_pure, on_modify, if_neg hs]
            rw [registry_noteSecret, ← hp]

/-- What `importExisting` does to the registry when the store has a secret for the uuid. -/
theorem registry_importExisting (u : H128) (info pass hint : Bytes) (km : KeyManager) :
    registry ((importExisting C u info pass hint).on km).2 = registry km ∨
    ∃ s r i, ((storeSecret C u (pure pass)).on km).1 = .ok s ∧
      (r = registry km ∨ r = (registry km).noteAddress u (C.address s)) ∧
      registry ((importExisting C u info pass hint).on km).2 =
        (r.link u (C.address s)).setInfo (C.address s) i := by
  have hstore := registry_storeSecret C u (keeps_pure pass) km
  rw [importExisting, on_bind]
  rcases e : (storeSecret C u (pure pass)).on km with ⟨o, km₁⟩
  rw [e] at hstore
  cases o with
  | error x =>
    refine .inl ?_
    simpa using hstore
  | ok s =>
    simp only [Except.ok.injEq, on_ite] at hstore ⊢
    by_cases hs : s = []
    · subst hs
      refine .inl ?_
      simpa using hstore
    · rw [if_neg hs, on_get_bind]
      -- the password may be cached before the lookups are changed
      obtain ⟨km₂, h₂, hreg⟩ : ∃ km₂, (onlyIf (km₁.hashPassword C pass ∉ km₁.m_cachedPasswords)
          (cachePassword C pass)).on km₁ = (.ok (), km₂) ∧ registry km₂ = registry km₁ := by
        rw [on_onlyIf]
        split_ifs
        · exact ⟨_, rfl, rfl⟩
        · exact ⟨_, rfl, rfl⟩
      rw [on_bind_of_ok h₂, registry_importExistingAs, hreg]
      exact .inr ⟨s, registry km₁, _, rfl,
        hstore.imp_right fun ⟨s', hs', _, hr⟩ => by rw [hr, ← hs'], rfl⟩

theorem registry_new (files : Files) :
    registry (new files) = files.secrets.entries.foldl (fun r k => r.link k.1 k.2.address)
      ⟨∅, ∅, ∅, files.secrets, files.secrets⟩ :=
  (List.foldl_hom registry fun _ _ => rfl).symm

end KeyManager

end Tos.Account
