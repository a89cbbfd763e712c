import Tos.Storage.OverlayDB

/-!
# Auxiliary data, rollback and the retries of a commit

The whole class `OverlayDB`: besides the nodes there is a map of auxiliary data, which is written to
the same database under the bytes of the hash with one byte `255` behind them. `rollback` is to
bring back what the database holds, and `commit` is to try ten times before it gives up.

`rollback` clears the map of the nodes only. And `commit` hands its batch over with the first
attempt, so that every later one is made without a batch.

## Main results

* `FullOverlayDB.run_refines`: the nodes alone behave as in `OverlayDB`.
* `FullOverlayDB.rollback_restores_iff`: when a rollback restores the view of the database.
* `FullOverlayDB.commit_transient_iff`: when a commit survives failures.
-/

namespace Tos

open Sdag (H256)
open Sdag.Wire (hashBytes ofHashBytes hashBytes_injective length_hashBytes ofHashBytes_hashBytes)

/-- The database behind: a `db::DatabaseFace`. -/
abbrev Disk := Bytes → Option Bytes

/-- A `DatabaseError`: thrown by `LevelDB::commit` with the comment "Cannot commit null batch", or
with the status of a write that failed. -/
inductive DatabaseError where
  | nullBatch
  | status
  deriving DecidableEq

/-- `LevelDB::commit`: the keys of the batch get their values, unless the write fails. -/
def levelDBCommit (fails : Bool) (batch : Option Disk) (d : Disk) : Except DatabaseError Disk :=
  match batch with
  | none => .error .nullBatch
  | some b => if fails then .error .status else .ok fun key => (b key).or (d key)

/-- The class `OverlayDB`. -/
structure FullOverlayDB extends MemoryDB where
  m_aux : H256 → Option (Bytes × Bool) := fun _ => none
  m_db : Option Disk := none

namespace FullOverlayDB

/-- The key of auxiliary data. -/
def auxKey (h : H256) : Bytes := hashBytes h ++ [255]

/-- `OverlayDB(_db)`. -/
def fresh (d : Option Disk) : FullOverlayDB := { m_db := d }

/-- `OverlayDB::lookup`. -/
def lookup (db : FullOverlayDB) (h : H256) : Bytes :=
  match db.toMemoryDB.lookup h, db.m_db with
  | [], some d => (d (hashBytes h)).getD []
  | ret, _ => ret

/-- `OverlayDB::exists`. -/
def hasNode (db : FullOverlayDB) (h : H256) : Bool :=
  db.toMemoryDB.hasNode h || db.m_db.any fun d => (d (hashBytes h)).isSome

/-- `MemoryDB::lookupAux`. -/
def lookupMemoryAux (db : FullOverlayDB) (h : H256) : Bytes :=
  match db.m_aux h with
  | some (v, live) => if !db.m_enforceRefs || live then v else []
  | none => []

/-- `OverlayDB::lookupAux`. -/
def lookupAux (db : FullOverlayDB) (h : H256) : Bytes :=
  match db.lookupMemoryAux h, db.m_db with
  | [], some d => (d (auxKey h)).getD []
  | ret, _ => ret

/-- `MemoryDB::insert`. -/
def insert (db : FullOverlayDB) (h : H256) (v : Bytes) : FullOverlayDB :=
  { db with toMemoryDB := db.toMemoryDB.insert h v }

/-- `OverlayDB::kill`: where there is nothing to be given back in memory, it only warns. -/
def kill (db : FullOverlayDB) (h : H256) : FullOverlayDB :=
  { db with toMemoryDB := (db.toMemoryDB.kill h).2 }

/-- `MemoryDB::insertAux`. -/
def insertAux (db : FullOverlayDB) (h : H256) (v : Bytes) : FullOverlayDB :=
  { db with m_aux := Function.update db.m_aux h (some (v, true)) }

/-- `MemoryDB::removeAux`: the data stay, and an entry is made if there is none. -/
def removeAux (db : FullOverlayDB) (h : H256) : FullOverlayDB :=
  { db with
    m_aux := Function.update db.m_aux h (some (((db.m_aux h).map Prod.fst).getD [], false)) }

/-- `OverlayDB::rollback`. -/
def rollback (db : FullOverlayDB) : FullOverlayDB := { db with m_main := fun _ => none }

/-- A loop over a map that inserts each entry into a batch, under its own key. -/
def insertAll (toKey : H256 → Bytes) (ofKey : Bytes → H256) (entries : H256 → Option Bytes)
    (batch : Disk) : Disk := fun key =>
  if toKey (ofKey key) = key then (entries (ofKey key)).or (batch key) else batch key

/-- The hash that a key of auxiliary data is made of. -/
def ofAuxKey (key : Bytes) : H256 := ofHashBytes 256 key.dropLast

/-- What the first loop of `commit` inserts: the nodes with a positive count. -/
def counted (db : FullOverlayDB) (h : H256) : Option Bytes :=
  match db.m_main h with
  | some (v, n) => if n ≠ 0 then some v else none
  | none => none

/-- What its second loop inserts: the auxiliary data that are live. -/
def live (db : FullOverlayDB) (h : H256) : Option Bytes :=
  match db.m_aux h with
  | some (v, live) => if live then some v else none
  | none => none

/-- The write batch of a `commit`. -/
def batch (db : FullOverlayDB) : Disk :=
  insertAll auxKey ofAuxKey db.live (insertAll hashBytes (ofHashBytes 256) db.counted fun _ => none)

/-- The loop of `commit` over its attempts. `std::move` empties the pointer to the batch whether or
not the write succeeds; after the failure of the last attempt the process exits. -/
def commitLoop (fails : ℕ → Bool) (d : Disk) : List ℕ → Option Disk → Option Disk
  | [], _ => some d
  | i :: is, batch =>
    match levelDBCommit (fails i) batch d with
    | .ok d => some d
    | .error _ => if i = 9 then none else commitLoop fails d is none

/-- `OverlayDB::commit`. -/
def commit (fails : ℕ → Bool) (db : FullOverlayDB) : Option FullOverlayDB :=
  match db.m_db with
  | none => some db
  | some d => (commitLoop fails d (List.range 10) (some db.batch)).map fun d =>
      { db with m_main := fun _ => none, m_aux := fun _ => none, m_db := some d }

/-- A call. -/
inductive Call where
  | insert (h : H256) (v : Bytes)
  | kill (h : H256)
  | insertAux (h : H256) (v : Bytes)
  | removeAux (h : H256)
  | commit (fails : ℕ → Bool)
  | rollback

/-- The database after a call. -/
def call (db : FullOverlayDB) : Call → Option FullOverlayDB
  | .insert h v => some (db.insert h v)
  | .kill h => some (db.kill h)
  | .insertAux h v => some (db.insertAux h v)
  | .removeAux h => some (db.removeAux h)
  | .commit fails => db.commit fails
  | .rollback => some db.rollback

/-- The database after a sequence of calls. -/
def run (calls : List Call) (db : FullOverlayDB) : Option FullOverlayDB := calls.foldlM call db

variable {db db' : FullOverlayDB} {d : Disk} {h : H256} {fails : ℕ → Bool}

/-! ### The batch and the attempts -/

section InsertAll

variable {toKey : H256 → Bytes} {ofKey : Bytes → H256} {entries : H256 → Option Bytes} {b : Disk}

/-- The key of an entry has its value after the loop. -/
lemma insertAll_toKey (hleft : ofKey (toKey h) = h) :
    insertAll toKey ofKey entries b (toKey h) = (entries h).or (b (toKey h)) := by
  rw [insertAll, hleft, if_pos rfl]

/-- The loop leaves other keys as they are. -/
lemma insertAll_of_ne {key : Bytes} (hne : ∀ h, toKey h ≠ key) :
    insertAll toKey ofKey entries b key = b key := if_neg (hne _)

end InsertAll

lemma ofAuxKey_auxKey (h : H256) : ofAuxKey (auxKey h) = h := by
  rw [ofAuxKey, auxKey, List.dropLast_concat, ofHashBytes_hashBytes]

/-- No node and no auxiliary data have the same key. -/
lemma auxKey_ne_hashBytes (h h' : H256) : auxKey h ≠ hashBytes h' := by
  intro heq
  have hlen := congrArg List.length heq
  rw [auxKey, List.length_append, length_hashBytes, length_hashBytes] at hlen
  exact absurd hlen (by decide)

/-- A node is in the batch if it has a positive count. -/
lemma batch_hashBytes (h : H256) : db.batch (hashBytes h) = db.counted h := by
  rw [batch, insertAll_of_ne (auxKey_ne_hashBytes · h), insertAll_toKey (ofHashBytes_hashBytes h),
    Option.or_none]

/-- Auxiliary data are in the batch if they are live. -/
lemma batch_auxKey (h : H256) : db.batch (auxKey h) = db.live h := by
  rw [batch, insertAll_toKey (ofAuxKey_auxKey h),
    insertAll_of_ne fun h' => (auxKey_ne_hashBytes h h').symm, Option.or_none]

/-- Without a batch no attempt succeeds. -/
lemma commitLoop_none {is : List ℕ} (h : 9 ∈ is) : commitLoop fails d is none = none := by
  induction is with
  | nil => cases h
  | cons i is ih =>
    rw [commitLoop, levelDBCommit]
    by_cases hi : i = 9
    · exact if_pos hi
    · exact (if_neg hi).trans (ih ((List.mem_cons.mp h).resolve_left (Ne.symm hi)))

/-- Only the first attempt counts. -/
lemma commit_eq (hd : db.m_db = some d) :
    db.commit fails =
      if fails 0 then none
      else some { db with
        m_main := fun _ => none, m_aux := fun _ => none,
        m_db := some fun key => (db.batch key).or (d key) } := by
  have hrange : List.range 10 = 0 :: (List.range 9).map (· + 1) := rfl
  have hlater : commitLoop fails d ((List.range 9).map (· + 1)) none = none :=
    commitLoop_none (by decide)
  simp only [commit, hd, hrange, commitLoop, levelDBCommit]
  cases hf : fails 0 with
  | true => simp [hlater]
  | false => rfl

/-! ### The nodes alone -/

/-- The database without auxiliary data. -/
def toOverlayDB (db : FullOverlayDB) : OverlayDB :=
  { toMemoryDB := db.toMemoryDB, m_db := db.m_db.map fun d h => d (hashBytes h) }

lemma toOverlayDB_lookup (h : H256) : db.toOverlayDB.lookup h = db.lookup h := by
  simp only [OverlayDB.lookup, lookup, toOverlayDB]
  cases db.m_db <;> cases db.toMemoryDB.lookup h <;> rfl

lemma toOverlayDB_hasNode (h : H256) : db.toOverlayDB.hasNode h = db.hasNode h := by
  simp only [OverlayDB.hasNode, hasNode, toOverlayDB]
  cases db.m_db <;> rfl

/-- A commit that returns is the commit of the database without auxiliary data. -/
theorem toOverlayDB_commit (h : db.commit fails = some db') :
    db'.toOverlayDB = db.toOverlayDB.commit := by
  cases hd : db.m_db with
  | none =>
    rw [commit, hd] at h
    obtain rfl := Option.some.inj h
    simp [OverlayDB.commit, toOverlayDB, hd]
  | some d =>
    rw [commit_eq hd] at h
    split_ifs at h with hf
    obtain rfl := Option.some.inj h
    have hwrite : (fun h => (db.batch (hashBytes h)).or (d (hashBytes h))) =
        OverlayDB.writeBatch db.toMemoryDB fun h => d (hashBytes h) := by
      funext h
      rw [batch_hashBytes, counted, OverlayDB.writeBatch]
      cases db.m_main h with
      | none => rfl
      | some e =>
        obtain ⟨v, n⟩ := e
        by_cases hn : n = 0 <;> simp [hn]
    simp [OverlayDB.commit, toOverlayDB, hd, hwrite]

/-- What a call does to the nodes. -/
def nodeCall (db : OverlayDB) : Call → OverlayDB
  | .insert h v => db.insert h v
  | .kill h => db.kill h
  | .insertAux _ _ | .removeAux _ => db
  | .commit _ => db.commit
  | .rollback => db.rollback

lemma toOverlayDB_call {c : Call} (h : db.call c = some db') :
    db'.toOverlayDB = nodeCall db.toOverlayDB c := by
  cases c with
  | commit => exact toOverlayDB_commit h
  | _ =>
    obtain rfl := Option.some.inj h
    rfl

lemma toOverlayDB_run {calls : List Call} (h : run calls db = some db') :
    db'.toOverlayDB = calls.foldl nodeCall db.toOverlayDB := by
  induction calls generalizing db with
  | nil =>
    obtain rfl := Option.some.inj h
    rfl
  | cons c calls ih =>
    obtain ⟨db₁, hc, hrest⟩ := Option.bind_eq_some_iff.mp h
    rw [ih hrest, toOverlayDB_call hc]
    rfl

/-- **Nodes alone.** After any calls that return, with auxiliary data and failures of writes among
them, the nodes are those of the database without auxiliary data. -/
theorem run_refines {calls : List Call} (hrun : run calls db = some db') (h : H256) :
    db'.lookup h = (calls.foldl nodeCall db.toOverlayDB).lookup h ∧
      db'.hasNode h = (calls.foldl nodeCall db.toOverlayDB).hasNode h := by
  rw [← toOverlayDB_run hrun, toOverlayDB_lookup, toOverlayDB_hasNode]
  exact ⟨rfl, rfl⟩

theorem run_refines_committed : ∃ db', run [.insert 7 [1], .insertAux 7 [2],
    .commit fun i => i = 3] (fresh (some fun _ => none)) = some db' ∧ db'.lookup 7 = [1] :=
  ⟨_, rfl, (@run_refines (fresh (some fun _ => none)) _
    [.insert 7 [1], .insertAux 7 [2], .commit fun i => i = 3] rfl 7).1.trans (by decide +kernel)⟩

/-! ### Rollback -/

/-- Two databases give the same results. -/
def SameView (db db' : FullOverlayDB) : Prop :=
  ∀ h, db.lookup h = db'.lookup h ∧ db.hasNode h = db'.hasNode h ∧ db.lookupAux h = db'.lookupAux h

/-- What is stored on disk as auxiliary data. -/
def diskAux (db : FullOverlayDB) (h : H256) : Bytes :=
  ((db.m_db.bind fun d => d (auxKey h))).getD []

/-- Without data in memory those of the database are found. -/
lemma lookupAux_eq : db.lookupAux h =
    if db.lookupMemoryAux h = [] then db.diskAux h else db.lookupMemoryAux h := by
  rw [lookupAux, diskAux]
  cases db.lookupMemoryAux h <;> cases db.m_db <;> rfl

lemma lookupAux_fresh (d : Option Disk) : (fresh d).lookupAux h = (fresh d).diskAux h := by
  rw [lookupAux_eq]
  exact if_pos rfl

/-- The nodes are those of the database after every rollback. -/
lemma rollback_nodes (h : H256) : db.rollback.lookup h = (fresh db.m_db).lookup h ∧
    db.rollback.hasNode h = (fresh db.m_db).hasNode h := ⟨rfl, rfl⟩

/-- A rollback restores the view of the database if the auxiliary data in memory, as far as they can
be looked up and are not empty, are those of the database. -/
lemma rollback_sameView_iff : SameView db.rollback (fresh db.m_db) ↔
    ∀ h, db.lookupMemoryAux h ≠ [] → db.lookupMemoryAux h = db.diskAux h := by
  have haux (h : H256) : db.rollback.lookupAux h = (fresh db.m_db).lookupAux h ↔
      (db.lookupMemoryAux h ≠ [] → db.lookupMemoryAux h = db.diskAux h) := by
    have hroll : db.rollback.lookupAux h = db.lookupAux h := rfl
    have hdisk : (fresh db.m_db).diskAux h = db.diskAux h := rfl
    rw [hroll, lookupAux_fresh, hdisk, lookupAux_eq]
    split_ifs with hempty
    · exact ⟨fun _ hne => absurd hempty hne, fun _ => rfl⟩
    · exact ⟨fun heq _ => heq, fun himp => himp hempty⟩
  exact ⟨fun hview h => (haux h).mp (hview h).2.2,
    fun hcond h => ⟨(rollback_nodes h).1, (rollback_nodes h).2, (haux h).mpr (hcond h)⟩⟩

/-- **When a rollback restores the view of the database.** After any calls on a database that is
opened, a rollback gives the results of a new object over the same database exactly if the auxiliary
data that are in memory before it, as far as they can be looked up and are not empty, are on disk
already. -/
theorem rollback_restores_iff {d : Option Disk} {calls : List Call}
    (hrun : run calls (fresh d) = some db) :
    (∃ db', run (calls ++ [.rollback]) (fresh d) = some db' ∧ SameView db' (fresh db'.m_db)) ↔
      ∀ h v live, db.m_aux h = some (v, live) → (db.m_enforceRefs = false ∨ live = true) → v ≠ [] →
        ((db.m_db.bind fun d => d (auxKey h))).getD [] = v := by
  have hcall : run (calls ++ [.rollback]) (fresh d) = some db.rollback := by
    rw [run, List.foldlM_append, ← run, hrun]
    rfl
  have hcond : (∀ h, db.lookupMemoryAux h ≠ [] → db.lookupMemoryAux h = db.diskAux h) ↔
      ∀ h v live, db.m_aux h = some (v, live) → (db.m_enforceRefs = false ∨ live = true) → v ≠ [] →
        db.diskAux h = v := by
    have hmem {h : H256} {v : Bytes} {live : Bool} (haux : db.m_aux h = some (v, live)) :
        db.lookupMemoryAux h = if db.m_enforceRefs = false ∨ live = true then v else [] := by
      rw [lookupMemoryAux, haux]
      cases db.m_enforceRefs <;> cases live <;> rfl
    constructor
    · intro hall h v live haux hvis hne
      have hv := hmem haux
      rw [if_pos hvis] at hv
      have hdisk := hall h (by rwa [hv])
      rw [← hdisk, hv]
    · intro hall h hne
      cases haux : db.m_aux h with
      | none => exact absurd (by rw [lookupMemoryAux, haux]) hne
      | some e =>
        obtain ⟨v, live⟩ := e
        rw [hmem haux] at hne ⊢
        split_ifs at hne ⊢ with hvis
        · exact (hall h v live haux hvis hne).symm
        · exact absurd rfl hne
  rw [hcall]
  constructor
  · rintro ⟨db', heq, hview⟩
    obtain rfl := Option.some.inj heq
    exact hcond.mp (rollback_sameView_iff.mp hview)
  · intro hall
    exact ⟨_, rfl, rollback_sameView_iff.mpr (hcond.mpr hall)⟩

/-- Auxiliary data that are committed are gone from memory. -/
theorem rollback_restores_iff_committed :
    ∃ db, run [.insertAux 7 [1], .commit fun _ => false] (fresh (some fun _ => none)) = some db ∧
      ((∃ db', run ([.insertAux 7 [1], .commit fun _ => false] ++ [.rollback])
          (fresh (some fun _ => none)) = some db' ∧ SameView db' (fresh db'.m_db)) ↔
        ∀ h v live, db.m_aux h = some (v, live) → (db.m_enforceRefs = false ∨ live = true) →
          v ≠ [] → ((db.m_db.bind fun d => d (auxKey h))).getD [] = v) :=
  ⟨_, rfl, rollback_restores_iff rfl⟩

/-- Auxiliary data that were inserted are found after a rollback, although the database is empty. -/
theorem rollback_keeps_aux :
    (run [.insertAux 7 [1], .rollback] (fresh (some fun _ => none))).map
      (fun db => db.lookupAux 7) =
        some [1] ∧
      (fresh (some fun _ => none)).lookupAux 7 = [] :=
  ⟨by decide +kernel, by decide +kernel⟩

/-! ### Retries -/

/-- **When a commit survives failures.** If the write fails on the first `j` attempts and succeeds
on the next, the commit returns with everything in the database exactly if `j` is zero. -/
theorem commit_transient_iff (hd : db.m_db = some d) {j : ℕ} (hj : j < 9) :
    (∃ db' d', db.commit (fun i => decide (i < j)) = some db' ∧ db'.m_db = some d' ∧
      (∀ h v n, db.m_main h = some (v, n) → n ≠ 0 → d' (hashBytes h) = some v) ∧
      ∀ h v, db.m_aux h = some (v, true) → d' (auxKey h) = some v) ↔ j = 0 := by
  rw [commit_eq hd]
  constructor
  · rintro ⟨db', d', heq, -⟩
    by_contra hne
    rw [if_pos (by simpa using Nat.pos_of_ne_zero hne)] at heq
    cases heq
  · rintro rfl
    refine ⟨_, _, if_neg (by simp), rfl, ?_, ?_⟩
    · intro h v n hmain hn
      rw [batch_hashBytes, counted, hmain]
      simp [hn]
    · intro h v haux
      rw [batch_auxKey, live, haux]
      simp

theorem commit_transient_iff_insert :
    ((fresh (some fun _ => none)).insert 7 [1]).m_db = some (fun _ => none) ∧ 1 < 9 ∧
    ((∃ db' d', ((fresh (some fun _ => none)).insert 7 [1]).commit (fun i => decide (i < 1)) =
        some db' ∧ db'.m_db = some d' ∧
      (∀ h v n, ((fresh (some fun _ => none)).insert 7 [1]).m_main h = some (v, n) → n ≠ 0 →
        d' (hashBytes h) = some v) ∧
      ∀ h v, ((fresh (some fun _ => none)).insert 7 [1]).m_aux h = some (v, true) →
        d' (auxKey h) = some v) ↔ 1 = 0) :=
  ⟨rfl, by decide, commit_transient_iff rfl (by decide)⟩

/-- One failed write, and the process exits. -/
theorem commit_exits_after_failure :
    (((fresh (some fun _ => none)).insert 7 [1]).commit fun i => decide (i < 1)).isNone = true := by
  decide +kernel

end FullOverlayDB

end Tos
