import Tos.Storage.TrieDB

/-!
# The database in memory

The class `MemoryDB` of `toscore/storage/MemoryDB.cpp`: a map from hashes to byte strings with a
reference count. An entry is never erased by `kill`; its count goes down, and whether an entry
with count zero can still be looked up depends on `m_enforceRefs`, which is false except in the
scope of an `EnforceRefs` object.

## Main definitions

* `Tos.MemoryDB`: the database, without the map `m_aux`, which the trie does not use.
-/

namespace Tos

open Sdag (H256)

/-- The class `MemoryDB`. -/
structure MemoryDB where
  m_main : H256 → Option (Bytes × UInt32) := fun _ => none
  m_enforceRefs : Bool := false

namespace MemoryDB

/-- `MemoryDB::lookup`. -/
def lookup (db : MemoryDB) (h : H256) : Bytes :=
  match db.m_main h with
  | some (v, n) => if !db.m_enforceRefs || n > 0 then v else []
  | none => []

/-- `MemoryDB::exists`. -/
def hasNode (db : MemoryDB) (h : H256) : Bool :=
  match db.m_main h with
  | some (_, n) => !db.m_enforceRefs || n > 0
  | none => false

/-- The reference count of an entry. -/
def count (db : MemoryDB) (h : H256) : UInt32 := ((db.m_main h).map Prod.snd).getD 0

/-- `MemoryDB::insert`. -/
def insert (db : MemoryDB) (h : H256) (v : Bytes) : MemoryDB :=
  { db with m_main := Function.update db.m_main h (some (v, db.count h + 1)) }

/-- `MemoryDB::kill`, with its result. -/
def kill (db : MemoryDB) (h : H256) : Bool × MemoryDB :=
  match db.m_main h with
  | some (v, n) =>
    if n > 0 then (true, { db with m_main := Function.update db.m_main h (some (v, n - 1)) })
    else (false, db)
  | none => (false, db)

instance : NodeDB MemoryDB where
  lookup := lookup
  hasNode := hasNode
  insert := insert
  kill db h := (db.kill h).2

end MemoryDB

end Tos
