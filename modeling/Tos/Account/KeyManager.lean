import Mathlib.Data.List.AList
import Tos.Sdag.Identity

/-!
# The key manager

The class `KeyManager` of `account/KeyManager.cpp` with the part of `SecretStore`
(`toscrypto/SecretStore.cpp`) that it uses. The secret store keeps one encrypted key for each uuid,
in memory and in a file of its own. The key manager keeps which address belongs to which uuid, and
for each address the hash of the password, a name and a hint; this is written, encrypted, to the
key file. The key of the key file is derived from the master password and the salt in a second
file, and is remembered for the next time the file is written; the key zero stands for "none".

## Main definitions

* `Tos.Account.SecretStore`, `KeyManager`, `Files`: the objects, and the files they share.
* `KeyCrypto`: the functions of the cryptographic library.
* `KeyManager.create`, `load`, `import_`, `importExisting`, `kill`, `recode`: the
  methods.
* `KeyCall`, `KeyManager.after`: the calls that change the accounts.

## Implementation notes

An `unordered_map` is an association list without repeated keys (`AList`); the order in which it is
iterated is the one of the list. Strings are byte strings. The files of the secret store are the
records they hold, by uuid, and the key file and the salt file are their contents. What the random
number generator gives is an argument of the methods. The callback for passwords gets the number
of the call, and may throw. The names of the key files are left out, as is what is only logged.
-/

namespace Tos.Account

open Sdag (H256)
open RLP (Cache LaissezFaire Strict VeryStrict itemCached ofBytes toBytes toHash)
open Method (call onlyIf)

open Sdag.Wire (Address hashBytes ofHashBytes)

/-- `h128`, the uuid of a key or the key of a file. -/
abbrev H128 := BitVec 128

/-- `std::unordered_map`. -/
abbrev UnorderedMap (κ ν : Type) := AList fun _ : κ => ν

/-- The exceptions of a key manager. -/
inductive KeyError where
  | rlp (e : RlpError)
  | passwordUnknown
  | crypto (comment : String)
  deriving DecidableEq

inductive KDF where
  | PBKDF2_SHA256
  | Scrypt
  deriving DecidableEq

/-- The functions of the cryptographic library. -/
structure KeyCrypto where
  /-- `pbkdf2` of a password, a salt, the number of iterations and the size of the key -/
  pbkdf2 : Bytes → Bytes → ℕ → (dkLen : ℕ) → BitVec (8 * dkLen)
  /-- `encryptSymNoAuth` with the initialisation vector zero -/
  encryptSym : H128 → Bytes → Bytes
  /-- `decryptSymNoAuth` with the initialisation vector zero -/
  decryptSym : H128 → Bytes → Bytes
  /-- the address of the key pair of a secret -/
  address : Bytes → Address
  /-- `SecretStore::encrypt` of a secret with a password, and what it draws at random -/
  encryptKey : Bytes → Bytes → KDF → ℕ → Except KeyError Bytes
  /-- `SecretStore::decrypt` -/
  decryptKey : Bytes → Bytes → Except KeyError Bytes

/-- A library for examples: nothing is encrypted, and a key is the length of the password. -/
def KeyCrypto.plain : KeyCrypto where
  pbkdf2 pass _ _ dkLen := BitVec.ofNat (8 * dkLen) pass.length
  encryptSym _ b := b
  decryptSym _ b := b
  address s := ofHashBytes 160 s
  encryptKey s _ _ _ := .ok s
  decryptKey k _ := .ok k

/-! ### The objects -/

/-- `KeyInfo`. -/
structure KeyInfo where
  passHash : H256 := 0
  accountName : Bytes := []
  passwordHint : Bytes := []
  deriving DecidableEq

/-- `SecretStore::EncryptedKey`, without the name of its file. -/
structure EncryptedKey where
  encryptedKey : Bytes := []
  address : Address := 0
  deriving DecidableEq

/-- The class `SecretStore`. -/
structure SecretStore where
  m_cached : UnorderedMap H128 Bytes := ∅
  m_keys : UnorderedMap H128 EncryptedKey := ∅
  deriving DecidableEq

/-- The files: the key file, its salt, and the keys in the directory of the secret store. -/
structure Files where
  keysFile : Bytes := []
  saltFile : Bytes := []
  secrets : UnorderedMap H128 EncryptedKey := ∅
  deriving DecidableEq

/-- The class `KeyManager`, together with its files. -/
structure KeyManager where
  m_uuidLookup : UnorderedMap H128 Address := ∅
  m_addrLookup : UnorderedMap Address H128 := ∅
  m_keyInfo : UnorderedMap Address KeyInfo := ∅
  m_passwordHint : UnorderedMap H256 Bytes := ∅
  m_cachedPasswords : UnorderedMap H256 Bytes := ∅
  m_defaultPasswordDeprecated : Bytes := []
  m_keysFileKey : H128 := 0
  m_master : H256 := 0
  m_store : SecretStore := {}
  files : Files := {}
  deriving DecidableEq

/-- The uuid that a lookup has for an address, zero if there is none. -/
def uuidOf (addrs : UnorderedMap Address H128) (a : Address) : H128 := (addrs.lookup a).getD 0

/-- A method of the key manager. -/
abbrev KeyMethod := Method KeyError KeyManager

/-- A call of the RLP library. -/
def rlpCall {α : Type} (x : Except RlpError α) : KeyMethod α := call .rlp x

namespace SecretStore

/-- `SecretStore::noteAddress`. -/
def noteAddress (s : SecretStore) (uuid : H128) (address : Address) : Bool × SecretStore :=
  match s.m_keys.lookup uuid with
  | some k =>
    if k.address = 0 then (true, { s with m_keys := s.m_keys.insert uuid { k with address } })
    else (false, s)
  | none => (false, s)

end SecretStore

namespace KeyManager

/-- The lookups get a uuid and an address for each other. -/
def link (km : KeyManager) (u : H128) (a : Address) : KeyManager :=
  { km with
    m_addrLookup := km.m_addrLookup.insert a u
    m_uuidLookup := km.m_uuidLookup.insert u a }

/-- The constructor: the keys of the secret store are read from their files, and the lookups are
filled from them. -/
def new (files : Files) : KeyManager :=
  files.secrets.entries.foldl (fun km k => km.link k.1 k.2.address)
    { m_store := { m_keys := files.secrets }, files }

/-- `KeyManager::uuid`. -/
def uuid (km : KeyManager) (a : Address) : H128 := uuidOf km.m_addrLookup a

/-- `KeyManager::address`. -/
def address (km : KeyManager) (u : H128) : Address := (km.m_uuidLookup.lookup u).getD 0

/-- `m_keyInfo[a]`, which is the default where there is no entry. -/
def info (km : KeyManager) (a : Address) : KeyInfo := (km.m_keyInfo.lookup a).getD {}

/-- `KeyManager::accounts`, as a predicate. The zero address is removed. -/
def accounts (km : KeyManager) (a : Address) : Prop :=
  a ≠ 0 ∧ (a ∈ km.m_keyInfo ∨ ∃ u k, km.m_store.m_keys.lookup u = some k ∧ k.address = a)

/-- `KeyManager::hasAccount`. -/
def hasAccount (km : KeyManager) (a : Address) : Bool :=
  if a = 0 then false
  else if a ∈ km.m_keyInfo then true
  else km.m_store.m_keys.entries.any fun k => k.2.address = a

variable (C : KeyCrypto)

/-! ### Passwords -/

/-- `KeyManager::hashPassword`. -/
def hashPassword (km : KeyManager) (pass : Bytes) : H256 :=
  C.pbkdf2 pass km.m_defaultPasswordDeprecated 262144 32

/-- The key of the key file for a password. -/
def fileKey (pass salt : Bytes) : H128 := C.pbkdf2 pass salt 262144 16

/-- `KeyManager::cachePassword`. -/
def cachePassword (pass : Bytes) : KeyMethod Unit :=
  modify fun km =>
    { km with m_cachedPasswords := km.m_cachedPasswords.insert (km.hashPassword C pass) pass }

/-- `KeyManager::noteHint`. -/
def noteHint (pass hint : Bytes) : KeyMethod Unit :=
  modify fun km =>
    if hint = [] then km
    else { km with m_passwordHint := km.m_passwordHint.insert (km.hashPassword C pass) hint }

/-- The loop of `getPassword`, with `n` attempts left. -/
def askPassword (passHash : H256) (ask : ℕ → Except KeyError Bytes) : ℕ → ℕ → KeyMethod Bytes
  | 0, _ => pure []
  | n + 1, i => do
    let p ← call id (ask i)
    let km ← get
    if p = [] then pure []
    else if passHash = 0 ∨ km.hashPassword C p = passHash then do
      cachePassword C p
      pure p
    else askPassword passHash ask n (i + 1)

/-- `KeyManager::getPassword` of a hash. -/
def getPassword (passHash : H256) (ask : ℕ → Except KeyError Bytes) : KeyMethod Bytes := do
  let km ← get
  match km.m_cachedPasswords.lookup passHash with
  | some p => pure p
  | none => askPassword C passHash ask 10 0

/-- `KeyManager::getPassword` of a uuid. -/
def getPasswordOf (u : H128) (ask : ℕ → Except KeyError Bytes) : KeyMethod Bytes := do
  let km ← get
  let passHash := ((km.m_uuidLookup.lookup u).bind km.m_keyInfo.lookup).elim 0 KeyInfo.passHash
  getPassword C passHash ask

/-- `DontKnowThrow`. -/
def dontKnowThrow (_ : ℕ) : Except KeyError Bytes := .error .passwordUnknown

/-- `KeyManager::defaultPassword`. -/
def defaultPassword : KeyMethod Bytes := do
  let km ← get
  getPassword C km.m_master dontKnowThrow

/-! ### The key file -/

/-- One entry of the accounts in the key file. -/
def appendInfo (km : KeyManager) (s : RLPStream) (info : Σ _ : Address, KeyInfo) :
    Except RlpError RLPStream := do
  let s ← s.appendList 5
  let s ← s.append (hashBytes info.1)
  let s ← s.append (hashBytes (km.uuid info.1))
  let s ← s.append (hashBytes info.2.passHash)
  let s ← s.append info.2.accountName
  s.append info.2.passwordHint

/-- One entry of the hints in the key file. -/
def appendHint (s : RLPStream) (i : Σ _ : H256, Bytes) : Except RlpError RLPStream := do
  let s ← s.appendList 2
  let s ← s.append (hashBytes i.1)
  s.append i.2

/-- The list of the accounts. -/
def appendInfos (km : KeyManager) (s : RLPStream) : Except RlpError RLPStream := do
  let s ← s.appendList km.m_keyInfo.entries.length
  km.m_keyInfo.entries.foldlM km.appendInfo s

/-- The list of the hints. -/
def appendHints (km : KeyManager) (s : RLPStream) : Except RlpError RLPStream := do
  let s ← s.appendList km.m_passwordHint.entries.length
  km.m_passwordHint.entries.foldlM appendHint s

/-- The version, the accounts, the hints and the default password. -/
def appendRecords (km : KeyManager) (s : RLPStream) : Except RlpError RLPStream := do
  let s ← s.appendList 4
  let s ← s.appendInt 1
  let s ← km.appendInfos s
  let s ← km.appendHints s
  s.append km.m_defaultPasswordDeprecated

/-- The plain text of the key file. -/
def plainText (km : KeyManager) : Except RlpError Bytes := do
  let s ← km.appendRecords {}
  s.out

/-- `KeyManager::write` with a key. -/
def writeWithKey (key : H128) : KeyMethod Unit := do
  let km ← get
  let out ← rlpCall km.plainText
  modify fun km =>
    { km with
      files := { km.files with keysFile := C.encryptSym key out }
      m_keysFileKey := key }
  let p ← defaultPassword C
  cachePassword C p

/-- `KeyManager::write` with the remembered key. -/
def write : KeyMethod Bool := do
  let km ← get
  if km.m_keysFileKey = 0 then pure false
  else do
    writeWithKey C km.m_keysFileKey
    pure true

/-- `KeyManager::write` with a password, and the salt that is drawn. -/
def writeWithPassword (pass : Bytes) (salt : H256) : KeyMethod Unit := do
  modify fun km => { km with files := { km.files with saltFile := hashBytes salt } }
  cachePassword C pass
  modify fun km => { km with m_master := km.hashPassword C pass }
  writeWithKey C (fileKey C pass (hashBytes salt))

/-- `KeyManager::create`, with the default password and the salt that are drawn. -/
def create (pass : Bytes) (default salt : H256) : KeyMethod Unit := do
  modify fun km => { km with m_defaultPasswordDeprecated := hashBytes default }
  writeWithPassword C pass salt

/-! ### The secret store -/

/-- `SecretStore::save`. -/
def saveStore (km : KeyManager) : KeyManager :=
  { km with files := { km.files with secrets := km.m_store.m_keys ∪ km.files.secrets } }

/-- What `SecretStore::secret` does with a secret that it has decrypted. -/
def noteSecret (u : H128) (s : Bytes) (km : KeyManager) : KeyManager :=
  let store := { km.m_store with m_cached := km.m_store.m_cached.insert u s }
  { km with m_store := (store.noteAddress u (C.address s)).2 }

/-- `SecretStore::secret`, with its cache. -/
def storeSecret (u : H128) (pass : KeyMethod Bytes) : KeyMethod Bytes := do
  let km ← get
  match km.m_store.m_cached.lookup u with
  | some s => pure s
  | none =>
    match km.m_store.m_keys.lookup u with
    | none => pure []
    | some key => do
      let p ← pass
      let s ← call id (C.decryptKey key.encryptedKey p)
      modify fun km => if s = [] then km else noteSecret C u s km
      pure s

/-- `SecretStore::importSecret`, for the uuid that is drawn. -/
def storeImport (s pass : Bytes) (u : H128) (rnd : ℕ) : KeyMethod Unit := do
  let encryptedKey ← call id (C.encryptKey s pass .Scrypt rnd)
  modify fun km =>
    { km with m_store :=
      { m_cached := km.m_store.m_cached.insert u s
        m_keys := km.m_store.m_keys.insert u { encryptedKey, address := C.address s } } }
  modify saveStore

/-- `SecretStore::kill`. -/
def storeKill (u : H128) (km : KeyManager) : KeyManager :=
  let cached := km.m_store.m_cached.erase u
  if u ∈ km.m_store.m_keys then
    { km with
      m_store := { m_cached := cached, m_keys := km.m_store.m_keys.erase u }
      files := { km.files with secrets := km.files.secrets.erase u } }
  else { km with m_store := { km.m_store with m_cached := cached } }

/-- `SecretStore::recode`. -/
def storeRecode (u : H128) (newPass : Bytes) (pass : KeyMethod Bytes) (kdf : KDF) (rnd : ℕ) :
    KeyMethod Bool := do
  let s ← storeSecret C u pass
  if s = [] then pure false
  else do
    modify fun km =>
      { km with m_store := { km.m_store with m_cached := km.m_store.m_cached.erase u } }
    let encryptedKey ← call id (C.encryptKey s newPass kdf rnd)
    modify fun km =>
      let key := (km.m_store.m_keys.lookup u).getD {}
      { km with m_store := { km.m_store with
        m_keys := km.m_store.m_keys.insert u { key with encryptedKey } } }
    modify saveStore
    pure true

/-! ### Accounts -/

/-- `KeyManager::import`. -/
def import_ (s accountName pass hint : Bytes) (u : H128) (rnd : ℕ) : KeyMethod H128 := do
  let addr := C.address s
  let km ← get
  let passHash := km.hashPassword C pass
  cachePassword C pass
  modify fun km => { km with m_passwordHint := km.m_passwordHint.insert passHash hint }
  storeImport C s pass u rnd
  modify fun km =>
    { km with m_keyInfo := km.m_keyInfo.insert addr { passHash, accountName } }
  modify fun km => km.link u addr
  let _ ← write C
  pure u

/-- `KeyManager::import` with the default password. -/
def importDefault (s accountName : Bytes) (u : H128) (rnd : ℕ) : KeyMethod H128 := do
  let pass ← defaultPassword C
  import_ C s accountName pass [] u rnd

/-- `KeyManager::importExisting` with the address and the hash of the password. -/
def importExistingAs (u : H128) (accountName : Bytes) (a : Address) (passHash : H256)
    (hint : Bytes) : KeyMethod Unit := do
  modify fun km =>
    { km with
      m_passwordHint :=
        if passHash ∈ km.m_passwordHint then km.m_passwordHint
        else km.m_passwordHint.insert passHash hint }
  modify fun km => km.link u a
  modify fun km =>
    { km with m_keyInfo := km.m_keyInfo.insert a { km.info a with passHash, accountName } }
  let _ ← write C
  pure ()

/-- `KeyManager::importExisting` with the password. -/
def importExisting (u : H128) (info pass hint : Bytes) : KeyMethod Unit := do
  let key ← storeSecret C u (pure pass)
  if key = [] then pure ()
  else do
    let km ← get
    let passHash := km.hashPassword C pass
    onlyIf (passHash ∉ km.m_cachedPasswords) (cachePassword C pass)
    importExistingAs C u info (C.address key) passHash hint

/-- `KeyManager::kill`. -/
def kill (a : Address) : KeyMethod Unit := do
  modify fun km =>
    let id := km.uuid a
    storeKill id
      { km with
        m_uuidLookup := km.m_uuidLookup.erase id
        m_addrLookup := km.m_addrLookup.erase a
        m_keyInfo := km.m_keyInfo.erase a }
  let _ ← write C
  pure ()

/-- `KeyManager::recode`. -/
def recode (a : Address) (newPass hint : Bytes) (ask : ℕ → Except KeyError Bytes) (kdf : KDF)
    (rnd : ℕ) : KeyMethod Bool := do
  noteHint C newPass hint
  let km ← get
  let u := km.uuid a
  if ← storeRecode C u newPass (getPasswordOf C u ask) kdf rnd then do
    modify fun km =>
      { km with m_keyInfo :=
        km.m_keyInfo.insert a { km.info a with passHash := km.hashPassword C newPass } }
    let _ ← write C
    pure true
  else pure false

/-- `KeyManager::kill` of a uuid. -/
def killUuid (u : H128) : KeyMethod Unit := do
  let km ← get
  kill C (km.address u)

/-! ### Loading -/

/-- The range loop over the items of a list, from its payload. `end()` is met behind the last
item, as the reference to an item that `operator[]` gives ends with it. -/
def forItems {α : Type} (body : α → Bytes → KeyMethod α) : ℕ → α → Bytes → KeyMethod α
  | 0, x, _ => pure x
  | n + 1, x, rest =>
    if rest = [] then pure x
    else do
      let size ← rlpCall (RLP.sizeAsEncoded rest)
      let x ← body x (RLP.cropped rest 0 size)
      forItems body n x (rest.drop size)

/-- `for (auto const& i: list)`. -/
def forEach {α : Type} (list : Bytes) (x : α) (body : α → Bytes → KeyMethod α) : KeyMethod α := do
  if RLP.isList list then do
    let p ← rlpCall (RLP.payload list)
    forItems body p.length x p
  else pure x

/-- The `KeyInfo` of an entry. -/
def readInfo (i : Bytes) (c : Cache) : Except RlpError KeyInfo := do
  let (x2, c) ← itemCached i c 2
  let passHash ← toHash 32 x2 Strict
  let (x3, c) ← itemCached i c 3
  let accountName ← toBytes x3 LaissezFaire
  let n ← RLP.itemCount i
  let passwordHint ←
    if n > 4 then do
      let (x4, _) ← itemCached i c 4
      toBytes x4 LaissezFaire
    else pure []
  return { passHash := ofHashBytes 256 passHash, accountName, passwordHint }

/-- The entry of an address in the account map is read. -/
def loadInfo (i : Bytes) (c : Cache) (addr : Address) : KeyMethod Unit := do
  let info ← rlpCall (readInfo i c)
  modify fun km => { km with m_keyInfo := km.m_keyInfo.insert addr info }

/-- The body of the loop over the accounts; the result is `saveRequired`. -/
def loadAccount (saveRequired : Bool) (i : Bytes) : KeyMethod Bool := do
  let i ← rlpCall (ofBytes i VeryStrict)
  let (x1, c) ← rlpCall (itemCached i {} 1)
  let u ← rlpCall (toHash 16 x1 Strict)
  let u : H128 := ofHashBytes 128 u
  let (x0, c) ← rlpCall (itemCached i c 0)
  let addr ← rlpCall (toHash 20 x0 Strict)
  let addr : Address := ofHashBytes 160 addr
  let km ← get
  if u = 0 then do
    loadInfo i c addr
    pure saveRequired
  else if u ∈ km.m_store.m_keys then do
    modify fun km => km.link u addr
    loadInfo i c addr
    let km ← get
    let (noted, store) := km.m_store.noteAddress u addr
    set { km with m_store := store }
    pure (noted || saveRequired)
  -- the key is missing, which is logged
  else pure saveRequired

/-- The body of the loop over the hints. -/
def loadHint (_ : Unit) (i : Bytes) : KeyMethod Unit := do
  let i ← rlpCall (ofBytes i VeryStrict)
  let (x0, c) ← rlpCall (itemCached i {} 0)
  let hash ← rlpCall (toHash 32 x0 Strict)
  let (x1, _) ← rlpCall (itemCached i c 1)
  let hint ← rlpCall (toBytes x1 LaissezFaire)
  modify fun km =>
    { km with m_passwordHint := km.m_passwordHint.insert (ofHashBytes 256 hash) hint }

/-- The records of a key file of version 1. -/
def loadRecords (s : Bytes) (c : Cache) : KeyMethod Unit := do
  let (x1, c) ← rlpCall (itemCached s c 1)
  let saveRequired ← forEach x1 false loadAccount
  onlyIf saveRequired (modify saveStore)
  let (x2, c) ← rlpCall (itemCached s c 2)
  forEach x2 () loadHint
  let (x3, _) ← rlpCall (itemCached s c 3)
  let default ← rlpCall (toBytes x3 LaissezFaire)
  modify fun km => { km with m_defaultPasswordDeprecated := default }

/-- The end of `KeyManager::load`. -/
def cachePasswords (pass : Bytes) : KeyMethod Unit := do
  let km ← get
  cachePassword C km.m_defaultPasswordDeprecated
  cachePassword C (hashBytes km.m_keysFileKey)
  modify fun km => { km with m_master := km.hashPassword C pass }
  cachePassword C pass

/-- The block that `KeyManager::load` tries. -/
def unlock (pass : Bytes) : KeyMethod Bool := do
  let km ← get
  let encKeys := km.files.keysFile
  if encKeys = [] then pure false
  else do
    let key := fileKey C pass km.files.saltFile
    modify fun km => { km with m_keysFileKey := key }
    let s ← rlpCall (ofBytes (C.decryptSym key encKeys) VeryStrict)
    let (x0, c) ← rlpCall (itemCached s {} 0)
    let version ← rlpCall (RLP.toInt 4 x0 Strict)
    onlyIf (version = 1) (loadRecords s c)
    cachePasswords C pass
    pure true

/-- `KeyManager::load`, which catches everything. -/
def load (pass : Bytes) : KeyMethod Bool := tryCatch (unlock C pass) fun _ => pure false

end KeyManager

/-! ### Calls -/

/-- The calls that change the accounts, with what is drawn at random. -/
inductive KeyCall where
  | import_ (s accountName pass hint : Bytes) (u : H128) (rnd : ℕ)
  | importDefault (s accountName : Bytes) (u : H128) (rnd : ℕ)
  | importExisting (u : H128) (info pass hint : Bytes)
  | importExistingAs (u : H128) (accountName : Bytes) (a : Address) (passHash : H256)
      (hint : Bytes)
  | kill (a : Address)
  | killUuid (u : H128)
  | recode (a : Address) (newPass hint : Bytes) (ask : ℕ → Except KeyError Bytes) (kdf : KDF)
      (rnd : ℕ)

/-- The key manager after a call, whether it threw or not. -/
def KeyManager.after (C : KeyCrypto) (km : KeyManager) : KeyCall → KeyManager
  | .import_ s accountName pass hint u rnd => ((import_ C s accountName pass hint u rnd).on km).2
  | .importDefault s accountName u rnd => ((importDefault C s accountName u rnd).on km).2
  | .importExisting u info pass hint => ((importExisting C u info pass hint).on km).2
  | .importExistingAs u accountName a passHash hint =>
    ((importExistingAs C u accountName a passHash hint).on km).2
  | .kill a => ((kill C a).on km).2
  | .killUuid u => ((killUuid C u).on km).2
  | .recode a newPass hint ask kdf rnd => ((recode C a newPass hint ask kdf rnd).on km).2

end Tos.Account
