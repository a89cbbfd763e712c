import Tos.Account.Registry
import Tos.Foundation.InverseMaps
import Mathlib.Data.List.Induction

/-!
# Removing an account

`KeyManager::kill` removes the key that `m_addrLookup` has for an address. This is all there is of
the account as long as each address has one key and the two lookups are inverse to each other.
`import` does not look whether an address has a key already: a secret that is imported twice is
stored under two uuids, `m_addrLookup` has the second one only, and after `kill` the first key is
still in the secret store and `hasAccount` is still true.

## Main results

* `Registry.Linked.link`, `addKey`, `noteAddress`, `remove`: one step.
* `KeyManager.removesAccounts_of_reached`: every run in which each address gets one key.
* `KeyManager.imported_twice`: a secret that is imported twice.
-/

namespace Tos.Account

open Sdag (H256)

open Sdag.Wire (Address)

namespace Registry

/-- Each key belongs to the address it is recorded for, and the uuid zero, which stands for "none",
belongs to none. -/
structure Linked (r : Registry) : Prop where
  inverse : InverseMaps r.addrs r.uuids
  keys : ∀ u k, r.keys.lookup u = some k → r.addrs.lookup k.address = some u
  zero : r.uuids.lookup 0 = none
  stored : ∀ u ∈ r.files, u ∈ r.keys

namespace Linked

variable {r : Registry} {u : H128} {a : Address}

lemma setInfo (h : r.Linked) (i : KeyInfo) : (r.setInfo a i).Linked := ⟨h.1, h.2, h.3, h.4⟩

lemma uuids_link_zero (h : r.Linked) (hu : u ≠ 0) : (r.uuids.insert u a).lookup 0 = none := by
  rw [AList.lookup_insert_ne hu.symm]
  exact h.zero

/-- A uuid and an address that belong to nothing else are linked. -/
lemma link (h : r.Linked) (hu : u ≠ 0) (hm : InverseMaps.Matches r.addrs r.uuids a u) :
    (r.link u a).Linked where
  inverse := h.inverse.insert hm
  keys := by
    intro u' k hk
    have haddr := h.keys u' k hk
    by_cases ha : k.address = a
    · rw [ha] at haddr ⊢
      rw [hm.1 u' haddr]
      exact AList.lookup_insert _
    · exact (AList.lookup_insert_ne ha).trans haddr
  zero := h.uuids_link_zero hu
  stored := h.stored

/-- A key is stored, and linked with its address. -/
lemma addKey {k : EncryptedKey} (h : r.Linked) (hu : u ≠ 0)
    (hm : InverseMaps.Matches r.addrs r.uuids k.address u) :
    ((r.addKey u k).link u k.address).Linked where
  inverse := h.inverse.insert hm
  keys := by
    intro u' k' hk'
    rcases UnorderedMap.lookup_of_insert hk' with ⟨rfl, rfl⟩ | ⟨hu', hk'⟩
    · exact AList.lookup_insert _
    · have haddr := h.keys u' k' hk'
      have hne : k'.address ≠ k.address := by
        intro e
        rw [e] at haddr
        exact hu' (hm.1 u' haddr)
      exact (AList.lookup_insert_ne hne).trans haddr
  zero := h.uuids_link_zero hu
  stored := by
    intro u' hu'
    rcases AList.mem_union.mp hu' with hmem | hmem
    · exact hmem
    · exact (AList.mem_insert r.keys).mpr (.inr (h.stored u' hmem))

/-- Noting an address that the uuid may be linked with: the address was known. -/
lemma noteAddress (h : r.Linked) (hm : InverseMaps.Matches r.addrs r.uuids a u) :
    (r.noteAddress u a).Linked ∧ (r.noteAddress u a).addrs = r.addrs ∧
      (r.noteAddress u a).uuids = r.uuids := by
  unfold Registry.noteAddress
  cases hk : r.keys.lookup u with
  | none => exact ⟨h, rfl, rfl⟩
  | some k =>
    simp only
    split_ifs with hzero
    · refine ⟨⟨h.inverse, fun u' k' hk' => ?_, h.zero, fun u' hu' => ?_⟩, rfl, rfl⟩
      · rcases UnorderedMap.lookup_of_insert hk' with ⟨rfl, rfl⟩ | ⟨-, hk'⟩
        · have hk0 := h.keys u' k hk
          rw [hzero] at hk0
          -- the key is recorded for the address zero, and linked with it, so that `a` is zero
          have ha : 0 = a := hm.2 0 ((h.inverse 0 u').mp hk0)
          rw [← ha]
          exact hk0
        · exact h.keys u' k' hk'
      · exact (AList.mem_insert r.keys).mpr (.inr (h.stored u' hu'))
    · exact ⟨h, rfl, rfl⟩

/-- An address matches its uuid, or zero if it has none. -/
lemma matches_uuid (h : r.Linked) (a : Address) :
    InverseMaps.Matches r.addrs r.uuids a (uuidOf r.addrs a) := by
  unfold uuidOf
  cases ha : r.addrs.lookup a with
  | none => exact InverseMaps.matches_of_none ha h.zero
  | some u => exact h.inverse.matches_of_lookup ha

/-- A key that is left after an account has been removed belongs to another address. -/
lemma address_ne_of_remove (h : r.Linked) {k : EncryptedKey}
    (hk : (r.remove a).keys.lookup u = some k) : r.keys.lookup u = some k ∧ k.address ≠ a := by
  obtain ⟨hu, hk'⟩ := UnorderedMap.lookup_of_erase hk
  refine ⟨hk', fun e => hu ?_⟩
  have haddr := h.keys u k hk'
  rw [e] at haddr
  rw [uuidOf, haddr]
  rfl

lemma remove (h : r.Linked) (a : Address) : (r.remove a).Linked where
  inverse := h.inverse.erase (h.matches_uuid a)
  keys := by
    intro u k hk
    obtain ⟨hk', hne⟩ := h.address_ne_of_remove hk
    exact (AList.lookup_erase_ne hne).trans (h.keys u k hk')
  zero := by
    by_cases h0 : (0 : H128) = uuidOf r.addrs a
    · exact (congrArg (fun u => (r.uuids.erase u).lookup 0) h0.symm).trans (AList.lookup_erase _ _)
    · exact (AList.lookup_erase_ne h0).trans h.zero
  stored := by
    intro u hu
    refine AList.mem_erase.mpr ?_
    by_cases hid : uuidOf r.addrs a ∈ r.keys
    · rw [Registry.remove, if_pos hid] at hu
      have hu' := AList.mem_erase.mp hu
      exact ⟨hu'.1, h.stored u hu'.2⟩
    · rw [Registry.remove, if_neg hid] at hu
      have hu' := h.stored u hu
      exact ⟨fun e => hid (e ▸ hu'), hu'⟩

end Linked

/-- Linking changes the lookups only. -/
lemma foldl_link (l : List (Σ _ : H128, EncryptedKey)) (r : Registry) :
    (l.foldl (fun r k => r.link k.1 k.2.address) r).keys = r.keys ∧
      (l.foldl (fun r k => r.link k.1 k.2.address) r).files = r.files := by
  induction l generalizing r with
  | nil => exact ⟨rfl, rfl⟩
  | cons k l ih => exact ih (r.link k.1 k.2.address)

/-- The lookups of a new key manager, for keys that are recorded for different addresses.

**Proof sketch.** By induction on the keys that have been linked: `m_addrLookup` has exactly their
addresses, so the next key matches. -/
lemma linked_foldl {r : Registry} (haddrs : r.addrs = ∅) (huuids : r.uuids = ∅)
    (l : List (Σ _ : H128, EncryptedKey))
    (hl : ∀ x ∈ l, ∀ y ∈ l, x.1 = y.1 ↔ x.2.address = y.2.address) :
    InverseMaps (l.foldl (fun r k => r.link k.1 k.2.address) r).addrs
        (l.foldl (fun r k => r.link k.1 k.2.address) r).uuids ∧
      ∀ a u, (l.foldl (fun r k => r.link k.1 k.2.address) r).addrs.lookup a = some u ↔
        ∃ x ∈ l, x.1 = u ∧ x.2.address = a := by
  induction l using List.reverseRecOn with
  | nil =>
    simp only [List.foldl_nil, haddrs, huuids]
    exact ⟨InverseMaps.empty, by simp⟩
  | append_singleton l e ih =>
    obtain ⟨hinv, hiff⟩ := ih fun x hx y hy => hl x (by simp [hx]) y (by simp [hy])
    have he : ∀ x ∈ l, x.1 = e.1 ↔ x.2.address = e.2.address := fun x hx =>
      hl x (by simp [hx]) e (by simp)
    simp only [List.foldl_append, List.foldl_cons, List.foldl_nil]
    set r' := l.foldl (fun r k => r.link k.1 k.2.address) r
    have hm : InverseMaps.Matches r'.addrs r'.uuids e.2.address e.1 := by
      refine ⟨fun u hu => ?_, fun a ha => ?_⟩
      · obtain ⟨x, hx, rfl, hxa⟩ := (hiff _ _).mp hu
        exact (he x hx).mpr hxa
      · obtain ⟨x, hx, hxu, rfl⟩ := (hiff _ _).mp ((hinv a e.1).mpr ha)
        exact (he x hx).mp hxu
    refine ⟨hinv.insert hm, fun a u => ?_⟩
    simp only [List.mem_append, List.mem_singleton, or_and_right, exists_or, exists_eq_left,
      Registry.link]
    by_cases ha : a = e.2.address
    · subst ha
      rw [AList.lookup_insert]
      refine ⟨fun h => .inr ⟨Option.some.inj h, rfl⟩, ?_⟩
      rintro (⟨x, hx, rfl, hxa⟩ | ⟨rfl, -⟩)
      · rw [(he x hx).mpr hxa]
      · rfl
    · rw [AList.lookup_insert_ne ha, hiff a u]
      exact ⟨.inl, fun h => h.resolve_right fun h' => ha h'.2.symm⟩

end Registry

namespace KeyManager

open Method

variable (C : KeyCrypto)

/-- The states that a new key manager reaches by calls for which `ok` holds. -/
inductive Reached (ok : KeyManager → KeyCall → Prop) (files : Files) : KeyManager → Prop
  | new : Reached ok files (new files)
  | call {km : KeyManager} (c : KeyCall) (h : Reached ok files km) (hc : ok km c) :
      Reached ok files (km.after C c)

/-- The uuid that the secret store draws is neither zero nor in use. -/
def Fresh (km : KeyManager) : KeyCall → Prop
  | .import_ _ _ _ _ u _ | .importDefault _ _ u _ =>
    u ≠ 0 ∧ u ∉ km.m_store.m_keys ∧ u ∉ km.m_uuidLookup
  | _ => True

/-- A uuid and an address may be linked: neither of them is linked with something else. -/
def Linkable (km : KeyManager) (u : H128) (a : Address) : Prop :=
  u ≠ 0 ∧ InverseMaps.Matches km.m_addrLookup km.m_uuidLookup a u

/-- The call gives no address a second key, and no key a second address: an imported secret is of an
address without key, and an existing key is imported for the address it is linked with, if any. It
is a call of `import`, `importExisting` or `kill`. -/
def Single (km : KeyManager) : KeyCall → Prop
  | .import_ s _ _ _ _ _ | .importDefault s _ _ _ => C.address s ∉ km.m_addrLookup
  | .importExisting u _ pass _ =>
    ∀ s, ((storeSecret C u (pure pass)).on km).1 = .ok s → km.Linkable u (C.address s)
  | .importExistingAs u _ a _ _ => km.Linkable u a
  | .kill _ | .killUuid _ => True
  | .recode .. => False

/-- The keys of the files are recorded for different addresses, and none has the uuid zero. -/
def OneKeyEach (files : Files) : Prop :=
  0 ∉ files.secrets ∧ ∀ u v k l, files.secrets.lookup u = some k → files.secrets.lookup v = some l →
    k.address = l.address → u = v

/-- The lookups are inverse to each other, and right after `kill` nothing is left of the account:
`hasAccount` is false, `accounts` does not have it, no key in the store is recorded for it, and each
file that is left is of a key of another address. -/
def RemovesAccounts (km : KeyManager) : Prop :=
  InverseMaps km.m_addrLookup km.m_uuidLookup ∧
  ∀ a, ((kill C a).on km).2.hasAccount a = false ∧ ¬((kill C a).on km).2.accounts a ∧
    (∀ u k, ((kill C a).on km).2.m_store.m_keys.lookup u = some k → k.address ≠ a) ∧
    ∀ u ∈ ((kill C a).on km).2.files.secrets,
      ∃ k, ((kill C a).on km).2.m_store.m_keys.lookup u = some k ∧ k.address ≠ a

/-! ### Runs -/

variable {C}

lemma linked_new {files : Files} (h : OneKeyEach files) : (registry (new files)).Linked := by
  have hmem : ∀ x ∈ files.secrets.entries, files.secrets.lookup x.1 = some x.2 := fun x hx =>
    AList.mem_lookup_iff.mpr hx
  obtain ⟨hinv, hiff⟩ := Registry.linked_foldl (r := ⟨∅, ∅, ∅, files.secrets, files.secrets⟩)
    rfl rfl files.secrets.entries fun x hx y hy => by
      refine ⟨fun e => ?_, h.2 _ _ _ _ (hmem x hx) (hmem y hy)⟩
      rw [Option.some.inj ((hmem x hx).symm.trans (e ▸ hmem y hy))]
  obtain ⟨hkeys, hstored⟩ := Registry.foldl_link files.secrets.entries
    ⟨∅, ∅, ∅, files.secrets, files.secrets⟩
  rw [registry_new]
  refine ⟨hinv, fun u k hk => ?_, Option.eq_none_iff_forall_ne_some.mpr fun a ha => ?_, ?_⟩
  · rw [hkeys] at hk
    exact (hiff _ _).mpr ⟨⟨u, k⟩, AList.mem_lookup_iff.mp hk, rfl, rfl⟩
  · obtain ⟨x, hx, hx0, -⟩ := (hiff a 0).mp ((hinv a 0).mpr ha)
    refine h.1 (AList.lookup_isSome.mp ?_)
    rw [← hx0, hmem x hx]
    rfl
  · rw [hkeys, hstored]
    exact fun u hu => hu

/-- Once the lookups are linked, `kill` leaves nothing of an account. -/
lemma removesAccounts_of_linked {km : KeyManager} (h : (registry km).Linked) :
    km.RemovesAccounts C := by
  refine ⟨h.inverse, fun a => ?_⟩
  set km' := ((kill C a).on km).2 with hkm'
  have hreg : registry km' = (registry km).remove a := registry_kill C a km
  have hkeys : ∀ u k, km'.m_store.m_keys.lookup u = some k → k.address ≠ a := by
    intro u k hk
    have hk' : ((registry km).remove a).keys.lookup u = some k := by rw [← hreg]; exact hk
    exact (h.address_ne_of_remove hk').2
  have hinfo : a ∉ km'.m_keyInfo := by
    have : km'.m_keyInfo = km.m_keyInfo.erase a := congrArg Registry.infos hreg
    rw [this]
    simp
  refine ⟨?_, ?_, hkeys, fun u hu => ?_⟩
  · unfold hasAccount
    split_ifs with h0
    · rfl
    · simp only [List.any_eq_false, decide_eq_true_eq]
      exact fun x hx => hkeys x.1 x.2 (AList.mem_lookup_iff.mpr hx)
  · rintro ⟨-, hmem | ⟨u, k, hk, rfl⟩⟩
    · exact hinfo hmem
    · exact hkeys u k hk rfl
  · have hl : (registry km').Linked := hreg ▸ h.remove a
    obtain ⟨k, hk⟩ := Option.isSome_iff_exists.mp (AList.lookup_isSome.mpr (hl.stored u hu))
    exact ⟨k, hk, hkeys u k hk⟩

lemma linked_import {km : KeyManager} (h : (registry km).Linked) {s : Bytes} {u : H128}
    (hu : u ≠ 0) (hu' : u ∉ km.m_uuidLookup) (hs : C.address s ∉ km.m_addrLookup)
    (accountName pass hint : Bytes) (rnd : ℕ) :
    (registry ((import_ C s accountName pass hint u rnd).on km).2).Linked := by
  rcases registry_import C s accountName pass hint u rnd km with hreg | ⟨key, hreg⟩
  · rw [hreg]
    exact h
  · rw [hreg]
    exact (h.addKey (k := ⟨key, C.address s⟩) hu (InverseMaps.matches_of_none
      (AList.lookup_eq_none.mpr hs) (AList.lookup_eq_none.mpr hu'))).setInfo _

lemma linked_importExisting {km : KeyManager} (h : (registry km).Linked) {u : H128}
    {info pass hint : Bytes}
    (hs : ∀ s, ((storeSecret C u (pure pass)).on km).1 = .ok s → km.Linkable u (C.address s)) :
    (registry ((importExisting C u info pass hint).on km).2).Linked := by
  rcases registry_importExisting C u info pass hint km with hreg | ⟨s, r, i, hok, hr, hreg⟩
  · rw [hreg]
    exact h
  · obtain ⟨hu, hm⟩ := hs s hok
    rw [hreg]
    rcases hr with rfl | rfl
    · exact (h.link hu hm).setInfo _
    · obtain ⟨hl, haddrs, huuids⟩ := h.noteAddress hm
      refine (hl.link hu ?_).setInfo _
      rw [haddrs, huuids]
      exact hm

/-- One call keeps the lookups linked. -/
lemma linked_after {km : KeyManager} {c : KeyCall} (h : (registry km).Linked)
    (hf : km.Fresh c) (hs : km.Single C c) : (registry (km.after C c)).Linked := by
  cases c with
  | import_ s accountName pass hint u rnd =>
    exact linked_import h hf.1 hf.2.2 hs accountName pass hint rnd
  | importDefault s accountName u rnd =>
    have hp : registry ((defaultPassword C).on km).2 = registry km :=
      (keeps_defaultPassword C).of_part registry km
    simp only [after, importDefault, on_bind]
    rcases e : (defaultPassword C).on km with ⟨r, km₁⟩
    rw [e] at hp
    cases r with
    | error x =>
      rw [hp]
      exact h
    | ok pass =>
      have huuids : km₁.m_uuidLookup = km.m_uuidLookup := congrArg Registry.uuids hp
      have haddrs : km₁.m_addrLookup = km.m_addrLookup := congrArg Registry.addrs hp
      exact linked_import (hp ▸ h) hf.1 (huuids ▸ hf.2.2) (haddrs ▸ hs) accountName pass [] rnd
  | importExisting u info pass hint => exact linked_importExisting h hs
  | importExistingAs u accountName a passHash hint =>
    rw [after, registry_importExistingAs]
    exact (h.link hs.1 hs.2).setInfo _
  | kill a =>
    rw [after, registry_kill]
    exact h.remove a
  | killUuid u =>
    rw [after, killUuid, on_get_bind, registry_kill]
    exact h.remove _
  | recode => exact hs.elim

variable (C)

/-- In every run in which each address gets one key, the lookups are inverse to each other and
`kill` removes all there is of an account. -/
theorem removesAccounts_of_reached {files : Files} (hfiles : OneKeyEach files) {km : KeyManager}
    (h : Reached C (fun km c => km.Fresh c ∧ km.Single C c) files km) : km.RemovesAccounts C := by
  suffices hl : (registry km).Linked from removesAccounts_of_linked hl
  induction h with
  | new => exact linked_new hfiles
  | call c _ hc ih => exact linked_after ih hc.1 hc.2

/-- The theorem at one secret that is imported and removed. -/
theorem removesAccounts_of_reached_import :
    (((new {}).after KeyCrypto.plain (.import_ [7] [] [] [] 1 0)).RemovesAccounts
      KeyCrypto.plain) := by
  refine @removesAccounts_of_reached KeyCrypto.plain {} ⟨by decide, by simp⟩ _
    (.call _ .new ⟨⟨by decide, ?_, ?_⟩, ?_⟩)
  · exact AList.notMem_empty _
  · exact AList.notMem_empty _
  · exact AList.notMem_empty _

/-- A secret is imported twice, with different uuids. After `kill` the first key is still there,
`hasAccount` is true, and `m_uuidLookup` still has the address. -/
theorem imported_twice :
    ∃ km, Reached KeyCrypto.plain Fresh {} km ∧ ¬InverseMaps km.m_addrLookup km.m_uuidLookup ∧
      ((kill KeyCrypto.plain 7).on km).2.hasAccount 7 = true ∧
      ((kill KeyCrypto.plain 7).on km).2.accounts 7 ∧
      ∃ k, ((kill KeyCrypto.plain 7).on km).2.m_store.m_keys.lookup 1 = some k ∧ k.address = 7 := by
  refine ⟨((new {}).after KeyCrypto.plain (.import_ [7] [] [] [] 1 0)).after KeyCrypto.plain
    (.import_ [7] [] [] [] 2 0), .call _ (.call _ .new ?_) ?_, ?_, ?_, ?_, ?_⟩
  · exact ⟨by decide, by decide, by decide⟩
  · exact ⟨by decide, by decide, by decide⟩
  · intro h
    exact absurd ((h 7 1).mpr (by decide)) (by decide)
  · decide
  · exact ⟨by decide, .inr ⟨1, ⟨[7], 7⟩, by decide, rfl⟩⟩
  · exact ⟨⟨[7], 7⟩, by decide, rfl⟩

end KeyManager

end Tos.Account
