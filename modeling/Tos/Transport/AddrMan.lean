import Mathlib.Data.Int.Order.Basic
import Mathlib.Data.List.FinRange
import Tos.Foundation.OrderedMap
import Tos.Transport.Address

/-!
# The address manager

The class `CAddrMan` of `transport/addrman.cpp` with the entries `CAddrInfo`. Every address that the
manager knows has an id. `mapInfo` has the entry of each id, `mapAddr` the id of each address, and
`vRandom` all ids in some order; each entry knows its place in it. Addresses that have been tried
with success are in one place of the tried table, the other ones in up to eight places of the new
table. The tables have ids, or `-1` where a place is free.

## Main definitions

* `Tos.Net.CAddrInfo`, `CAddrMan`: the classes.
* `CAddrMan.add_`, `good_`, `attempt_`, `connected_`, `setServices_`, `getAddr_`: the
  methods.
* `CAddrMan.check_`: the consistency check.

## Implementation notes

Ids, counters and positions are integers. `nIdCount` is the only one that can leave the range of
`int`; this is an error, as a failed `assert` is. A table is a function of its bucket and place. The
double hash of `CHashWriter` is a parameter, of which only the first eight bytes are used. What the
random number generator and the clock give are arguments.
-/

namespace Tos.Net

/-- `operator<` of network addresses. -/
def CNetAddr.lt (a b : CNetAddr) : Bool := memcmpLt a.ip b.ip

lemma CNetAddr.lt_iff (a b : CNetAddr) :
    CNetAddr.lt a b = true ↔ BigEndian.value a.ip.toList < BigEndian.value b.ip.toList := by
  simp [CNetAddr.lt, memcmpLt]

instance : IsStrictWeakOrder CNetAddr (fun a b => CNetAddr.lt a b = true) :=
  isStrictWeakOrder_of_key _ CNetAddr.lt_iff

lemma CNetAddr.same_iff {a b : CNetAddr} : OrderedMap.Same CNetAddr.lt a b ↔ a.ip = b.ip := by
  have h (x y : CNetAddr) := not_congr (CNetAddr.lt_iff x y)
  simp only [Bool.not_eq_true, not_lt] at h
  rw [OrderedMap.Same, h, h, ← le_antisymm_iff, value_toList_inj, eq_comm]

/-- The order of ids. -/
def idLt (a b : ℤ) : Bool := decide (a < b)

instance : IsStrictWeakOrder ℤ (fun a b => idLt a b = true) :=
  isStrictWeakOrder_of_key id fun _ _ => decide_eq_true_iff

@[simp] lemma same_idLt {a b : ℤ} : OrderedMap.Same idLt a b ↔ a = b := by
  simp only [OrderedMap.Same, idLt, decide_eq_false_iff_not, not_lt]
  exact ⟨fun h => le_antisymm h.2 h.1, fun h => ⟨h.ge, h.le⟩⟩

abbrev ADDRMAN_TRIED_BUCKET_COUNT : ℕ := 256
abbrev ADDRMAN_NEW_BUCKET_COUNT : ℕ := 1024
abbrev ADDRMAN_BUCKET_SIZE : ℕ := 64
def ADDRMAN_TRIED_BUCKETS_PER_GROUP : ℕ := 8
def ADDRMAN_NEW_BUCKETS_PER_SOURCE_GROUP : ℕ := 64
def ADDRMAN_NEW_BUCKETS_PER_ADDRESS : ℤ := 8
def ADDRMAN_HORIZON_DAYS : Int64 := 30
def ADDRMAN_RETRIES : ℤ := 3
def ADDRMAN_MAX_FAILURES : ℤ := 10
def ADDRMAN_MIN_FAIL_DAYS : Int64 := 7
def ADDRMAN_GETADDR_MAX_PCT : ℕ := 23
def ADDRMAN_GETADDR_MAX : ℕ := 2500

/-- The buckets and their places. -/
abbrev TriedBucket := Fin ADDRMAN_TRIED_BUCKET_COUNT
abbrev NewBucket := Fin ADDRMAN_NEW_BUCKET_COUNT
abbrev Place := Fin ADDRMAN_BUCKET_SIZE

/-! ### Entries -/

/-- `CService::GetKey`. -/
def CService.getKey (a : CService) : Bytes :=
  a.ip.toList ++ [UInt8.ofNat (a.port.toNat / 0x100), UInt8.ofNat (a.port.toNat % 0x100)]

/-- `operator==` of services. -/
def CService.eqv (a b : CService) : Bool := a.ip == b.ip && a.port == b.port

/-- The class `CAddrInfo`. -/
structure CAddrInfo extends CAddress where
  nLastTry : Int64 := 0
  nLastCountAttempt : Int64 := 0
  source : CNetAddr := {}
  nLastSuccess : Int64 := 0
  nAttempts : ℤ := 0
  nRefCount : ℤ := 0
  fInTried : Bool := false
  nRandomPos : ℤ := -1
  deriving DecidableEq

/-- What the manager takes from the hash of `CHashWriter`: `GetHash().GetCheapHash()`. -/
abbrev CheapHash := Bytes → UInt64

/-- A byte vector as `CHashWriter` takes it; it is shorter than 253 bytes. -/
def serializeVector (v : Bytes) : Bytes := UInt8.ofNat v.length :: v

/-- An integer of `n` bytes as `CHashWriter` takes it, the low byte first. -/
def serializeInt (n : ℕ) (x : ℕ) : Bytes := (BigEndian.fixed n x).reverse

namespace CAddrInfo

variable (hash : CheapHash) (nKey : Bytes) (info : CAddrInfo)

/-- `CAddrInfo::GetTriedBucket`. -/
def getTriedBucket : TriedBucket :=
  let hash1 := hash (nKey ++ serializeVector info.getKey)
  let hash2 := hash (nKey ++ serializeVector info.getGroup ++
    serializeInt 8 (hash1.toNat % ADDRMAN_TRIED_BUCKETS_PER_GROUP))
  Fin.ofNat _ hash2.toNat

/-- `CAddrInfo::GetNewBucket`. -/
def getNewBucket (src : CNetAddr) : NewBucket :=
  let vchSourceGroupKey := src.getGroup
  let hash1 := hash (nKey ++ serializeVector info.getGroup ++ serializeVector vchSourceGroupKey)
  let hash2 := hash (nKey ++ serializeVector vchSourceGroupKey ++
    serializeInt 8 (hash1.toNat % ADDRMAN_NEW_BUCKETS_PER_SOURCE_GROUP))
  Fin.ofNat _ hash2.toNat

/-- `CAddrInfo::GetBucketPosition`; `fNew` is the character `N` or `K`. -/
def getBucketPosition (fNew : Bool) (nBucket : ℕ) : Place :=
  let hash1 := hash (nKey ++ [if fNew then 78 else 75] ++ serializeInt 4 nBucket ++
    serializeVector info.getKey)
  Fin.ofNat _ hash1.toNat

/-- `nTime`, as it is promoted. -/
def time : Int64 := info.nTime.toUInt64.toInt64

/-- `CAddrInfo::IsTerrible`. -/
def isTerrible (nNow : Int64) : Bool :=
  -- never remove things tried in the last minute
  if info.nLastTry ≠ 0 ∧ info.nLastTry ≥ nNow - 60 then false
  -- came in a flying DeLorean
  else if info.time > nNow + 10 * 60 then true
  -- not seen in recent history
  else if info.nTime = 0 ∨ nNow - info.time > ADDRMAN_HORIZON_DAYS * 24 * 60 * 60 then true
  -- tried N times and never a success
  else if info.nLastSuccess = 0 ∧ info.nAttempts ≥ ADDRMAN_RETRIES then true
  -- N successive failures in the last week
  else if nNow - info.nLastSuccess > ADDRMAN_MIN_FAIL_DAYS * 24 * 60 * 60 ∧
      info.nAttempts ≥ ADDRMAN_MAX_FAILURES then true
  else false

end CAddrInfo

/-! ### The manager -/

/-- The ways in which a method of the manager ends the program. -/
inductive AddrManError where
  | assertion (text : String)
  | overflow
  deriving DecidableEq

/-- The class `CAddrMan`. -/
structure CAddrMan where
  nIdCount : ℤ := 0
  mapInfo : OrderedMap ℤ CAddrInfo idLt := .empty
  mapAddr : OrderedMap CNetAddr ℤ CNetAddr.lt := .empty
  vRandom : Array ℤ := #[]
  nTried : ℤ := 0
  vvTried : TriedBucket → Place → ℤ := fun _ _ => -1
  nNew : ℤ := 0
  vvNew : NewBucket → Place → ℤ := fun _ _ => -1
  nLastGood : Int64 := 1
  nKey : Bytes

/-- A call of a method: it may change the manager, or end the program. -/
abbrev AddrManM := StateT CAddrMan (Except AddrManError)

/-- `assert`. -/
def assert_ (c : Prop) [Decidable c] (text : String) : AddrManM Unit :=
  if c then pure () else throw (.assertion text)

namespace AddrManM

variable {α β : Type} {m m' : CAddrMan}

lemma run_bind_of_ok {x : AddrManM α} {f : α → AddrManM β} {a : α} (h : x.run m = .ok (a, m')) :
    (x >>= f).run m = (f a).run m' := by
  rw [StateT.run_bind, h]
  rfl

lemma run_get_bind {f : CAddrMan → AddrManM β} : (get >>= f).run m = (f m).run m := rfl

lemma run_modify_bind {g : CAddrMan → CAddrMan} {f : Unit → AddrManM β} :
    (modify g >>= f).run m = (f ()).run (g m) := rfl

lemma run_assert_bind {c : Prop} [Decidable c] {text : String} {f : Unit → AddrManM β} (h : c) :
    (assert_ c text >>= f).run m = (f ()).run m := by
  rw [assert_, if_pos h]
  rfl

end AddrManM

namespace CAddrMan

variable (hash : CheapHash)

/-- `mapInfo[nId]`, which is a new entry where there is none. -/
def info (m : CAddrMan) (nId : ℤ) : CAddrInfo := (m.mapInfo.get? nId).getD {}

/-- An entry is changed. -/
def modifyInfo (nId : ℤ) (f : CAddrInfo → CAddrInfo) (m : CAddrMan) : CAddrMan :=
  { m with mapInfo := m.mapInfo.set nId (f (m.info nId)) }

lemma get?_modifyInfo (nId n : ℤ) (f : CAddrInfo → CAddrInfo) (m : CAddrMan) :
    (modifyInfo nId f m).mapInfo.get? n =
      if nId = n then some (f (m.info nId)) else m.mapInfo.get? n := by
  simp only [modifyInfo, OrderedMap.get?_set, same_idLt]

lemma info_eq {m : CAddrMan} {nId : ℤ} {info : CAddrInfo} (h : m.mapInfo.get? nId = some info) :
    m.info nId = info := by
  rw [CAddrMan.info, h]
  rfl

/-- `vvNew[nUBucket][nUBucketPos] = nId`. -/
def setNew (nUBucket : NewBucket) (nUBucketPos : Place) (nId : ℤ) (m : CAddrMan) : CAddrMan :=
  { m with vvNew := fun b i => if b = nUBucket ∧ i = nUBucketPos then nId else m.vvNew b i }

/-- `vvTried[nKBucket][nKBucketPos] = nId`. -/
def setTried (nKBucket : TriedBucket) (nKBucketPos : Place) (nId : ℤ) (m : CAddrMan) : CAddrMan :=
  { m with vvTried := fun b i => if b = nKBucket ∧ i = nKBucketPos then nId else m.vvTried b i }

/-- `CAddrMan::Clear`, with the key that is drawn. -/
def clear (nKey : Bytes) : CAddrMan := { nKey }

/-- `CAddrMan::Find`. -/
def find (m : CAddrMan) (addr : CNetAddr) : Option (ℤ × CAddrInfo) :=
  match m.mapAddr.get? addr with
  | none => none
  | some nId => (m.mapInfo.get? nId).map fun info => (nId, info)

/-- `CAddrMan::Create`. -/
def create (addr : CAddress) (addrSource : CNetAddr) : AddrManM ℤ := do
  let m ← get
  let nId := m.nIdCount
  if nId ≥ 2 ^ 31 - 1 then throw .overflow
  else do
    set { m with
      nIdCount := nId + 1
      mapInfo := m.mapInfo.set nId
        { toCAddress := addr, source := addrSource, nRandomPos := m.vRandom.size }
      mapAddr := m.mapAddr.set addr.toCNetAddr nId
      vRandom := m.vRandom.push nId }
    pure nId

/-- `CAddrMan::SwapRandom`. -/
def swapRandom (nRndPos1 nRndPos2 : ℕ) : AddrManM Unit := do
  let m ← get
  if nRndPos1 = nRndPos2 then pure ()
  else if h : nRndPos1 < m.vRandom.size ∧ nRndPos2 < m.vRandom.size then do
    let nId1 := m.vRandom[nRndPos1]
    let nId2 := m.vRandom[nRndPos2]
    assert_ ((m.mapInfo.get? nId1).isSome) "mapInfo.count(nId1) == 1"
    assert_ ((m.mapInfo.get? nId2).isSome) "mapInfo.count(nId2) == 1"
    modify (modifyInfo nId1 fun info => { info with nRandomPos := nRndPos2 })
    modify (modifyInfo nId2 fun info => { info with nRandomPos := nRndPos1 })
    modify fun m' => { m' with vRandom := m.vRandom.swap nRndPos1 nRndPos2 h.1 h.2 }
  else throw (.assertion "nRndPos1 < vRandom.size() && nRndPos2 < vRandom.size()")

/-- `CAddrMan::Delete`. -/
def delete (nId : ℤ) : AddrManM Unit := do
  let m ← get
  assert_ ((m.mapInfo.get? nId).isSome) "mapInfo.count(nId) != 0"
  assert_ (!(m.info nId).fInTried) "!info.fInTried"
  assert_ ((m.info nId).nRefCount = 0) "info.nRefCount == 0"
  -- the position is converted to `unsigned int`
  swapRandom ((m.info nId).nRandomPos % 2 ^ 32).toNat (m.vRandom.size - 1)
  modify fun m =>
    { m with
      vRandom := m.vRandom.pop
      mapAddr := m.mapAddr.erase (m.info nId).toCNetAddr
      mapInfo := m.mapInfo.erase nId
      nNew := m.nNew - 1 }

/-- `CAddrMan::ClearNew`. -/
def clearNew (nUBucket : NewBucket) (nUBucketPos : Place) : AddrManM Unit := do
  let m ← get
  let nIdDelete := m.vvNew nUBucket nUBucketPos
  if nIdDelete ≠ -1 then do
    assert_ ((m.info nIdDelete).nRefCount > 0) "infoDelete.nRefCount > 0"
    modify (modifyInfo nIdDelete fun info => { info with nRefCount := info.nRefCount - 1 })
    modify (setNew nUBucket nUBucketPos (-1))
    let m ← get
    if (m.info nIdDelete).nRefCount = 0 then delete nIdDelete else pure ()
  else pure ()

/-- One round of the first loop of `MakeTried`. -/
def leaveBucket (nId : ℤ) (m : CAddrMan) (bucket : NewBucket) : CAddrMan :=
  let pos := (m.info nId).getBucketPosition hash m.nKey true bucket
  if m.vvNew bucket pos = nId then
    modifyInfo nId (fun info => { info with nRefCount := info.nRefCount - 1 })
      (setNew bucket pos (-1) m)
  else m

/-- The part of `MakeTried` that makes space: the entry of the place is moved to the new table. -/
def evict (nKBucket : TriedBucket) (nKBucketPos : Place) : AddrManM Unit := do
  let m ← get
  let nIdEvict := m.vvTried nKBucket nKBucketPos
  if nIdEvict ≠ -1 then do
    assert_ ((m.mapInfo.get? nIdEvict).isSome) "mapInfo.count(nIdEvict) == 1"
    let infoOld := m.info nIdEvict
    modify (modifyInfo nIdEvict fun info => { info with fInTried := false })
    modify (setTried nKBucket nKBucketPos (-1))
    modify fun m => { m with nTried := m.nTried - 1 }
    let nUBucket := infoOld.getNewBucket hash m.nKey infoOld.source
    let nUBucketPos := infoOld.getBucketPosition hash m.nKey true nUBucket
    clearNew nUBucket nUBucketPos
    let m ← get
    assert_ (m.vvNew nUBucket nUBucketPos = -1) "vvNew[nUBucket][nUBucketPos] == -1"
    modify (modifyInfo nIdEvict fun info => { info with nRefCount := 1 })
    modify (setNew nUBucket nUBucketPos nIdEvict)
    modify fun m => { m with nNew := m.nNew + 1 }
  else pure ()

/-- `CAddrMan::MakeTried`. -/
def makeTried (nId : ℤ) : AddrManM Unit := do
  modify fun m => (List.finRange ADDRMAN_NEW_BUCKET_COUNT).foldl (leaveBucket hash nId) m
  modify fun m => { m with nNew := m.nNew - 1 }
  let m ← get
  assert_ ((m.info nId).nRefCount = 0) "info.nRefCount == 0"
  let nKBucket := (m.info nId).getTriedBucket hash m.nKey
  let nKBucketPos := (m.info nId).getBucketPosition hash m.nKey false nKBucket
  evict hash nKBucket nKBucketPos
  let m ← get
  assert_ (m.vvTried nKBucket nKBucketPos = -1) "vvTried[nKBucket][nKBucketPos] == -1"
  modify (setTried nKBucket nKBucketPos nId)
  modify fun m => { m with nTried := m.nTried + 1 }
  modify (modifyInfo nId fun info => { info with fInTried := true })

/-- The entry that `Find` gives for a service, if it has the same port. -/
def findSame (m : CAddrMan) (addr : CService) : Option ℤ :=
  match m.find addr.toCNetAddr with
  | some (nId, info) => if info.toCService.eqv addr then some nId else none
  | none => none

/-- `CAddrMan::Good_`, with the random number that is drawn. -/
def good_ (addr : CService) (nTime : Int64) (rnd : ℕ) : AddrManM Unit := do
  modify fun m => { m with nLastGood := nTime }
  let m ← get
  match m.findSame addr with
  | none => pure ()
  | some nId => do
    modify (modifyInfo nId fun info =>
      { info with nLastSuccess := nTime, nLastTry := nTime, nAttempts := 0 })
    let m ← get
    if (m.info nId).fInTried then pure ()
    else do
      -- find a bucket it is in now, from a random one on
      let nRnd := rnd % ADDRMAN_NEW_BUCKET_COUNT
      let found := (List.finRange ADDRMAN_NEW_BUCKET_COUNT).any fun n =>
        let nB : NewBucket := Fin.ofNat _ (n + nRnd)
        m.vvNew nB ((m.info nId).getBucketPosition hash m.nKey true nB) = nId
      if found then makeTried hash nId else pure ()

/-- The entry that is known for an address gets the time and the services of `addr`. -/
def refresh (addr : CAddress) (nTimePenalty now : Int64) (info : CAddrInfo) : CAddrInfo :=
  let time := addr.nTime.toUInt64.toInt64
  let fCurrentlyOnline := decide (now - time < 24 * 60 * 60)
  let nUpdateInterval : Int64 := if fCurrentlyOnline then 60 * 60 else 24 * 60 * 60
  let info :=
    if addr.nTime ≠ 0 ∧
        (info.nTime = 0 ∨ info.time < time - nUpdateInterval - nTimePenalty) then
      { info with nTime := (max 0 (time - nTimePenalty)).toUInt64.toUInt32 }
    else info
  { info with nServices := info.nServices ||| addr.nServices }

/-- The tests of `Add_` for an address that is known: whether it may get one more place. -/
def mayAdd (addr : CAddress) (info : CAddrInfo) (rnd : ℕ) : Bool :=
  -- no new information
  if addr.nTime = 0 ∨ (info.nTime ≠ 0 ∧ addr.nTime ≤ info.nTime) then false
  else if info.fInTried then false
  else if info.nRefCount = ADDRMAN_NEW_BUCKETS_PER_ADDRESS then false
  else
    -- the previous `nRefCount` is `N`: `2 ^ N` times harder to increase it
    let nFactor := 2 ^ info.nRefCount.toNat
    !(decide (nFactor > 1) && decide (rnd % nFactor ≠ 0))

/-- The end of `Add_`: an entry gets a place in the new table. -/
def place (nId : ℤ) (source : CNetAddr) (now : Int64) : AddrManM Unit := do
  let m ← get
  let info := m.info nId
  let nUBucket := info.getNewBucket hash m.nKey source
  let nUBucketPos := info.getBucketPosition hash m.nKey true nUBucket
  let existing := m.vvNew nUBucket nUBucketPos
  if existing = nId then pure ()
  else
    let infoExisting := m.info existing
    if existing = -1 ∨ infoExisting.isTerrible now ∨
        (infoExisting.nRefCount > 1 ∧ info.nRefCount = 0) then do
      clearNew nUBucket nUBucketPos
      modify (modifyInfo nId fun info => { info with nRefCount := info.nRefCount + 1 })
      modify (setNew nUBucket nUBucketPos nId)
    else if info.nRefCount = 0 then delete nId
    else pure ()

/-- `CAddrMan::Add_`, with the random number that is drawn and the two times at which the clock is
read. -/
def add_ (addr : CAddress) (source : CNetAddr) (nTimePenalty : Int64) (rnd : ℕ) (now now' : Int64) :
    AddrManM Bool := do
  if !addr.isRoutable then pure false
  else do
    let m ← get
    -- no penalty for a source's self-announcement
    let nTimePenalty := if addr.ip = source.ip then 0 else nTimePenalty
    match m.find addr.toCNetAddr with
    | some (nId, info) => do
      let info := refresh addr nTimePenalty now info
      modify (modifyInfo nId fun _ => info)
      if mayAdd addr info rnd then do
        place hash nId source now'
        pure false
      else pure false
    | none => do
      let nId ← create addr source
      modify (modifyInfo nId fun info =>
        { info with nTime := (max 0 (info.time - nTimePenalty)).toUInt64.toUInt32 })
      modify fun m => { m with nNew := m.nNew + 1 }
      place hash nId source now'
      pure true

/-- `CAddrMan::Attempt_`. -/
def attempt_ (addr : CService) (fCountFailure : Bool) (nTime : Int64) : AddrManM Unit := do
  let m ← get
  match m.findSame addr with
  | none => pure ()
  | some nId =>
    modify (modifyInfo nId fun info =>
      let info := { info with nLastTry := nTime }
      if fCountFailure ∧ info.nLastCountAttempt < m.nLastGood then
        { info with nLastCountAttempt := nTime, nAttempts := info.nAttempts + 1 }
      else info)

/-- `CAddrMan::Connected_`. -/
def connected_ (addr : CService) (nTime : Int64) : AddrManM Unit := do
  let m ← get
  match m.findSame addr with
  | none => pure ()
  | some nId =>
    modify (modifyInfo nId fun info =>
      if nTime - info.time > 20 * 60 then { info with nTime := nTime.toUInt64.toUInt32 } else info)

/-- `CAddrMan::SetServices_`. -/
def setServices_ (addr : CService) (nServices : UInt64) : AddrManM Unit := do
  let m ← get
  match m.findSame addr with
  | none => pure ()
  | some nId => modify (modifyInfo nId fun info => { info with nServices })

/-- The loop of `GetAddr_` from round `n` on, with `k` rounds left. In round `n`, `rand n` is the
random number that is drawn and `now n` the time. -/
def getAddrLoop (rand : ℕ → ℕ) (now : ℕ → Int64) (nNodes : ℕ) :
    ℕ → ℕ → List CAddress → AddrManM (List CAddress)
  | 0, _, vAddr => pure vAddr
  | k + 1, n, vAddr =>
    if vAddr.length ≥ nNodes then pure vAddr
    else do
      let m ← get
      let nRndPos := rand n % (m.vRandom.size - n) + n
      swapRandom n nRndPos
      let m ← get
      let nId := m.vRandom.getD n 0
      assert_ ((m.mapInfo.get? nId).isSome) "mapInfo.count(vRandom[n]) == 1"
      let ai := m.info nId
      getAddrLoop rand now nNodes k (n + 1)
        (if ai.isTerrible (now n) then vAddr else vAddr ++ [ai.toCAddress])

/-- The number of addresses that `GetAddr_` gives at most. -/
def getAddrMax (m : CAddrMan) : ℕ :=
  min ADDRMAN_GETADDR_MAX (ADDRMAN_GETADDR_MAX_PCT * m.vRandom.size / 100)

/-- `CAddrMan::GetAddr_`, on the vector `vAddr`. -/
def getAddr_ (rand : ℕ → ℕ) (now : ℕ → Int64) (vAddr : List CAddress) :
    AddrManM (List CAddress) := do
  let m ← get
  getAddrLoop rand now m.getAddrMax m.vRandom.size 0 vAddr

/-! ### The consistency check -/

/-- What `Check_` collects in its first loop: the ids of the tried entries, and the ids of the other
ones with their reference counts. -/
structure CheckState where
  setTried : List ℤ := []
  mapNew : OrderedMap ℤ ℤ idLt := .empty

/-- The tests of an entry that depend on its table. -/
def noteEntry (s : CheckState) (entry : ℤ × CAddrInfo) : Except ℤ CheckState :=
  let (n, info) := entry
  if info.fInTried then
    if info.nLastSuccess = 0 then .error (-1)
    else if info.nRefCount ≠ 0 then .error (-2)
    else .ok { s with setTried := s.setTried ++ [n] }
  else
    if info.nRefCount < 0 ∨ info.nRefCount > ADDRMAN_NEW_BUCKETS_PER_ADDRESS then .error (-3)
    else if info.nRefCount = 0 then .error (-4)
    else .ok { s with mapNew := s.mapNew.set n info.nRefCount }

/-- The tests of the first loop of `Check_`. -/
def checkEntry (m : CAddrMan) (s : CheckState) (entry : ℤ × CAddrInfo) : Except ℤ CheckState := do
  let s ← noteEntry s entry
  let (n, info) := entry
  -- where `mapAddr` has no entry, the test makes one with the id zero
  if (m.mapAddr.get? info.toCNetAddr).getD 0 ≠ n then .error (-5)
  else if info.nRandomPos < 0 ∨ info.nRandomPos ≥ m.vRandom.size ∨
      m.vRandom.getD info.nRandomPos.toNat 0 ≠ n then .error (-14)
  else if info.nLastTry < 0 then .error (-6)
  else if info.nLastSuccess < 0 then .error (-8)
  else .ok s

/-- The test of a place of the tried table. -/
def checkTried (m : CAddrMan) (setTried : List ℤ) (place : TriedBucket × Place) :
    Except ℤ (List ℤ) :=
  let (n, i) := place
  let nId := m.vvTried n i
  if nId = -1 then .ok setTried
  else if nId ∉ setTried then .error (-11)
  else if (m.info nId).getTriedBucket hash m.nKey ≠ n then .error (-17)
  else if (m.info nId).getBucketPosition hash m.nKey false n ≠ i then .error (-18)
  else .ok (setTried.erase nId)

/-- The test of a place of the new table. -/
def checkNew (m : CAddrMan) (mapNew : OrderedMap ℤ ℤ idLt) (place : NewBucket × Place) :
    Except ℤ (OrderedMap ℤ ℤ idLt) :=
  let (n, i) := place
  let nId := m.vvNew n i
  if nId = -1 then .ok mapNew
  else match mapNew.get? nId with
    | none => .error (-12)
    | some count =>
      if (m.info nId).getBucketPosition hash m.nKey true n ≠ i then .error (-19)
      else if count - 1 = 0 then .ok (mapNew.erase nId)
      else .ok (mapNew.set nId (count - 1))

/-- All places of a table, bucket by bucket. -/
def places (n : ℕ) : List (Fin n × Place) :=
  (List.finRange n).flatMap fun b => (List.finRange ADDRMAN_BUCKET_SIZE).map fun i => (b, i)

/-- The tests of `Check_`; an error has the code that is returned. -/
def checkAll (m : CAddrMan) : Except ℤ Unit := do
  if (m.vRandom.size : ℤ) ≠ m.nTried + m.nNew then .error (-7)
  else do
    let s ← m.mapInfo.entries.foldlM m.checkEntry {}
    if (s.setTried.length : ℤ) ≠ m.nTried then .error (-9)
    else if (s.mapNew.entries.length : ℤ) ≠ m.nNew then .error (-10)
    else do
      let setTried ← (places ADDRMAN_TRIED_BUCKET_COUNT).foldlM (m.checkTried hash) s.setTried
      let mapNew ← (places ADDRMAN_NEW_BUCKET_COUNT).foldlM (m.checkNew hash) s.mapNew
      if setTried.length ≠ 0 then .error (-13)
      else if mapNew.entries.length ≠ 0 then .error (-15)
      else if m.nKey.all (· == 0) then .error (-16)
      else .ok ()

/-- `CAddrMan::Check_`. -/
def check_ (m : CAddrMan) : ℤ :=
  match m.checkAll hash with
  | .ok () => 0
  | .error code => code

end CAddrMan

end Tos.Net
