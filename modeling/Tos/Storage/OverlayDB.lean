import Mathlib
import Tos.Storage.TrieCount

/-!
# The database in memory over one on disk

The class `OverlayDB` of `toscore/storage/OverlayDB.cpp`: a `MemoryDB` in front of a database from
which nothing is ever erased. What is not found in memory is looked up behind it; `commit` writes
the entries with a positive count to the database and forgets all of them.

A trie over such a database can be opened again at the root that it had at the last `commit`. The
counts matter here: an entry of a live node whose count is zero would be lost. For a node that the
database behind has, the count says nothing any more, as giving back such a node may find no
entry; it is exact for the others, and only these have to be written.

## Main results

* `OverlayDB.Holds.commit`: after a `commit` all live nodes are in the database behind.
* `Trie.reopen_after_commit`: a trie that is opened again is the map at the last `commit`.
* `Trie.reopened_long_keys_share_entry`: keys of `2 ^ 31` bytes are not told apart.
-/

namespace Tos

open Sdag (H256)
open List

/-- The database behind: a `db::DatabaseFace`, as far as keys of 32 bytes go. -/
abbrev Database := H256 → Option Bytes

/-- The class `OverlayDB`. -/
structure OverlayDB extends MemoryDB where
  m_db : Option Database := none

namespace OverlayDB

/-- `OverlayDB::lookup`. -/
def lookup (db : OverlayDB) (h : H256) : Bytes :=
  match db.toMemoryDB.lookup h, db.m_db with
  | [], some d => (d h).getD []
  | ret, _ => ret

/-- `OverlayDB::exists`. -/
def hasNode (db : OverlayDB) (h : H256) : Bool :=
  db.toMemoryDB.hasNode h || db.m_db.any fun d => (d h).isSome

/-- `OverlayDB::insert`, which is that of `MemoryDB`. -/
def insert (db : OverlayDB) (h : H256) (v : Bytes) : OverlayDB :=
  { db with toMemoryDB := db.toMemoryDB.insert h v }

/-- `OverlayDB::kill`: where there is nothing to be given back in memory, it only warns. -/
def kill (db : OverlayDB) (h : H256) : OverlayDB :=
  { db with toMemoryDB := (db.toMemoryDB.kill h).2 }

instance : NodeDB OverlayDB where
  lookup := lookup
  hasNode := hasNode
  insert := insert
  kill := kill

/-- The database after the batch of a `commit`: the entries with a positive count are written. -/
def writeBatch (db : MemoryDB) (d : Database) : Database := fun h =>
  match db.m_main h with
  | some (v, n) => if n ≠ 0 then some v else d h
  | none => d h

/-- `OverlayDB::commit`, where the database takes the batch. -/
def commit (db : OverlayDB) : OverlayDB :=
  match db.m_db with
  | some d => { db with m_main := fun _ => none, m_db := some (writeBatch db.toMemoryDB d) }
  | none => db

/-- `OverlayDB::rollback`. -/
def rollback (db : OverlayDB) : OverlayDB := { db with m_main := fun _ => none }

end OverlayDB

/-- A step of a session: an operation of the trie, or a `commit` of its database. -/
inductive OverlayStep where
  | op (op : TrieOp)
  | commit
  deriving DecidableEq

namespace OverlayStep

/-- The call of a step. -/
def call (sha3 : Bytes → H256) (fuel : ℕ) : OverlayStep → TrieM OverlayDB Unit
  | op o => o.call sha3 fuel
  | commit => modify fun t => { t with m_db := t.m_db.commit }

/-- Steps one after the other. -/
def calls (sha3 : Bytes → H256) (fuel : ℕ) : List OverlayStep → TrieM OverlayDB Unit
  | [] => pure ()
  | step :: steps => do
    step.call sha3 fuel
    calls sha3 fuel steps

/-- Steps on a trie that was started with `init`. -/
def session (sha3 : Bytes → H256) (fuel : ℕ) (steps : List OverlayStep) :
    TrieM OverlayDB Unit := do
  GenericTrieDB.init sha3 fuel
  calls sha3 fuel steps

/-- The operations of a session. -/
def ops (steps : List OverlayStep) : List TrieOp :=
  steps.filterMap fun
    | op o => some o
    | commit => none

lemma ops_append_op (steps : List OverlayStep) (o : TrieOp) :
    ops (steps ++ [op o]) = ops steps ++ [o] := by simp [ops]

lemma ops_append_commit (steps : List OverlayStep) : ops (steps ++ [commit]) = ops steps := by
  simp [ops]

end OverlayStep

namespace OverlayDB

variable {sha3 : Bytes → H256} {W T V : Set Bytes} {d : Database} {db : OverlayDB}
  {M : Trie.Tally} {s : Bytes}

/-! ### Nodes that are held -/

/-- What a database has under the hash of a node is the node. -/
def Sound (sha3 : Bytes → H256) (W : Set Bytes) (d : Database) : Prop :=
  ∀ s ∈ W, ∀ v, d (sha3 s) = some v → v = s

/-- The nodes of `M` are in memory or in the database `d` behind; those of `T` that are not behind
are counted. -/
structure Holds (sha3 : Bytes → H256) (W T : Set Bytes) (d : Database) (db : OverlayDB)
    (M : Trie.Tally) : Prop where
  refs : db.m_enforceRefs = false
  behind : db.m_db = some d
  entry : ∀ s, 0 < M s → s ∈ W ∧ (db.m_main (sha3 s) ≠ none ∨ d (sha3 s) ≠ none)
  value : ∀ s ∈ W, ∀ v n, db.m_main (sha3 s) = some (v, n) → v = s
  count : ∀ s ∈ T, s ∈ W → d (sha3 s) = none → (db.count (sha3 s)).toNat = M s % 2 ^ 32

namespace Holds

/-- Nothing is held by a database without entries in memory. -/
lemma empty (d : Database) : Holds sha3 W T d { m_db := some d } 0 where
  refs := rfl
  behind := rfl
  entry _ hs := absurd hs (lt_irrefl 0)
  value _ _ _ _ hv := absurd hv (by simp)
  count _ _ _ _ := rfl

/-- A database without entries in memory holds what is behind. -/
lemma of_behind (h : ∀ s, 0 < M s → s ∈ W ∧ d (sha3 s) = some s) :
    Holds sha3 W ∅ d { m_db := some d } M where
  refs := rfl
  behind := rfl
  entry s hs := ⟨(h s hs).1, Or.inr (by rw [(h s hs).2]; simp)⟩
  value _ _ _ _ hv := absurd hv (by simp)
  count _ hs := absurd hs (Set.notMem_empty _)

lemma uncounted (hd : Holds sha3 W T d db M) : Holds sha3 W ∅ d db M where
  refs := hd.refs
  behind := hd.behind
  entry := hd.entry
  value := hd.value
  count _ hs := absurd hs (Set.notMem_empty _)

lemma memory_lookup (hd : Holds sha3 W T d db M) (hs : s ∈ W) :
    db.toMemoryDB.lookup (sha3 s) = if db.m_main (sha3 s) = none then [] else s := by
  rw [MemoryDB.lookup]
  cases hm : db.m_main (sha3 s) with
  | none => rfl
  | some e =>
    obtain ⟨v, n⟩ := e
    simp [hd.refs, hd.value s hs v n hm]

lemma lookup_eq (hsound : Sound sha3 W d) (hd : Holds sha3 W T d db M) (hs : 0 < M s) :
    db.lookup (sha3 s) = s := by
  obtain ⟨hsW, hor⟩ := hd.entry s hs
  have hbehind : d (sha3 s) ≠ none → (d (sha3 s)).getD [] = s := by
    intro hne
    obtain ⟨v, hv⟩ := Option.ne_none_iff_exists'.mp hne
    rw [hv, hsound s hsW v hv]
    rfl
  rw [lookup, hd.memory_lookup hsW, hd.behind]
  by_cases hm : db.m_main (sha3 s) = none
  · rw [if_pos hm]
    exact hbehind (hor.resolve_left (by simp [hm]))
  · rw [if_neg hm]
    cases s with
    | cons b s => rfl
    | nil =>
      by_cases hnone : d (sha3 []) = none
      · simp [hnone]
      · exact hbehind hnone

lemma hasNode_eq (hd : Holds sha3 W T d db M) (hs : 0 < M s) : db.hasNode (sha3 s) = true := by
  obtain ⟨hsW, hor⟩ := hd.entry s hs
  rw [hasNode, hd.behind, MemoryDB.hasNode, Bool.or_eq_true]
  refine hor.imp (fun hm => ?_) fun hne => ?_
  · obtain ⟨⟨v, n⟩, hv⟩ := Option.ne_none_iff_exists'.mp hm
    simp [hv, hd.refs]
  · exact Option.isSome_iff_ne_none.mpr hne

/-- A node is put in memory. -/
lemma insert (hinj : Set.InjOn sha3 W) (hd : Holds sha3 W T d db M) (hs : s ∈ W) :
    Holds sha3 W T d (db.insert (sha3 s) s) (Pi.single s 1 + M) where
  refs := hd.refs
  behind := hd.behind
  entry x hx := by
    by_cases hxs : x = s
    · subst hxs
      exact ⟨hs, Or.inl (by rw [OverlayDB.insert, MemoryDB.insert_main_self]; simp)⟩
    · rw [Pi.add_apply, Pi.single_eq_of_ne hxs, zero_add] at hx
      obtain ⟨hxW, hor⟩ := hd.entry x hx
      refine ⟨hxW, hor.imp_left fun hm => ?_⟩
      rwa [OverlayDB.insert, MemoryDB.insert_main_of_ne fun e => hxs (hinj hxW hs e)]
  value x hxW v n hv := by
    rw [OverlayDB.insert] at hv
    by_cases hxs : x = s
    · subst hxs
      rw [MemoryDB.insert_main_self] at hv
      exact (Prod.mk.inj (Option.some.inj hv)).1.symm
    · rw [MemoryDB.insert_main_of_ne fun e => hxs (hinj hxW hs e)] at hv
      exact hd.value x hxW v n hv
  count x hxT hxW hnone := by
    have hcount := hd.count x hxT hxW hnone
    by_cases hxs : x = s
    · subst hxs
      rw [OverlayDB.insert, MemoryDB.toNat_count_insert hcount, Pi.add_apply, Pi.single_eq_same]
    · rw [Pi.add_apply, Pi.single_eq_of_ne hxs, zero_add, ← hcount, OverlayDB.insert,
        MemoryDB.count_congr (MemoryDB.insert_main_of_ne fun e => hxs (hinj hxW hs e))]

lemma kill_main_ne_none {h h' : H256} (hne : db.m_main h' ≠ none) :
    (db.kill h).m_main h' ≠ none := by
  obtain ⟨⟨v, n⟩, hv⟩ := Option.ne_none_iff_exists'.mp hne
  by_cases hh : h' = h
  · subst hh
    rw [OverlayDB.kill, MemoryDB.kill_main_self hv]
    simp
  · rwa [OverlayDB.kill, MemoryDB.kill_main_of_ne hh]

lemma value_kill (hd : Holds sha3 W T d db M) (h : H256) (hs : s ∈ W) {v : Bytes} {n : UInt32}
    (hv : (db.kill h).m_main (sha3 s) = some (v, n)) : v = s := by
  rw [OverlayDB.kill] at hv
  by_cases hh : sha3 s = h
  · subst hh
    cases hm : db.m_main (sha3 s) with
    | none =>
      rw [MemoryDB.kill_main_none hm, hm] at hv
      simp at hv
    | some e =>
      rw [MemoryDB.kill_main_self hm] at hv
      rw [← (Prod.mk.inj (Option.some.inj hv)).1]
      exact hd.value s hs _ _ hm
  · rw [MemoryDB.kill_main_of_ne hh] at hv
    exact hd.value s hs v n hv

/-- A node is given back. -/
lemma kill (hinj : Set.InjOn sha3 W) (hd : Holds sha3 W T d db (Pi.single s 1 + M))
    (hT : s ∈ T → M s + 1 < 2 ^ 32) : Holds sha3 W T d (db.kill (sha3 s)) M where
  refs := MemoryDB.kill_enforceRefs.trans hd.refs
  behind := hd.behind
  entry x hx := (hd.entry x (by rw [Pi.add_apply]; omega)).imp_right fun hor =>
    hor.imp_left kill_main_ne_none
  value _ hxW _ _ hv := hd.value_kill _ hxW hv
  count x hxT hxW hnone := by
    have hcount := hd.count x hxT hxW hnone
    have hsW := (hd.entry s (by rw [Pi.add_apply, Pi.single_eq_same]; omega)).1
    by_cases hxs : x = s
    · subst hxs
      rw [Pi.add_apply, Pi.single_eq_same] at hcount
      exact MemoryDB.toNat_count_kill hcount (hT hxT)
    · rw [Pi.add_apply, Pi.single_eq_of_ne hxs, zero_add] at hcount
      rw [← hcount, OverlayDB.kill,
        MemoryDB.count_congr (MemoryDB.kill_main_of_ne fun e => hxs (hinj hxW hsW e))]

/-- A kill does no harm where nothing is counted. -/
lemma kill_uncounted (hd : Holds sha3 W ∅ d db M) (h : H256) : Holds sha3 W ∅ d (db.kill h) M where
  refs := MemoryDB.kill_enforceRefs.trans hd.refs
  behind := hd.behind
  entry x hx := (hd.entry x hx).imp_right fun hor => hor.imp_left kill_main_ne_none
  value _ hxW _ _ hv := hd.value_kill _ hxW hv
  count _ hs := absurd hs (Set.notMem_empty _)

/-! ### Committing -/

lemma commit_eq (hd : Holds sha3 W T d db M) : db.commit =
    { m_enforceRefs := false, m_db := some (writeBatch db.toMemoryDB d) } := by
  rw [OverlayDB.commit, hd.behind, ← hd.refs]

lemma sound_writeBatch (hsound : Sound sha3 W d) (hd : Holds sha3 W T d db M) :
    Sound sha3 W (writeBatch db.toMemoryDB d) := by
  intro s hs v hv
  rw [writeBatch] at hv
  split at hv
  next w n hm =>
    split_ifs at hv
    · rw [← Option.some.inj hv]
      exact hd.value s hs w n hm
    · exact hsound s hs v hv
  next => exact hsound s hs v hv

/-- **A live node is in the database behind** after a `commit`: either it was there, or its count
is the number of times that it is held. -/
lemma writeBatch_eq (hsound : Sound sha3 W d) (hd : Holds sha3 W Set.univ d db M)
    (hs : 0 < M s) (hlt : M s < 2 ^ 32) : writeBatch db.toMemoryDB d (sha3 s) = some s := by
  obtain ⟨hsW, -⟩ := hd.entry s hs
  have hne : writeBatch db.toMemoryDB d (sha3 s) ≠ none := by
    by_cases hnone : d (sha3 s) = none
    · have hcount := hd.count s trivial hsW hnone
      rw [Nat.mod_eq_of_lt hlt, MemoryDB.count] at hcount
      rw [writeBatch]
      cases hm : db.m_main (sha3 s) with
      | none =>
        rw [hm] at hcount
        change 0 = M s at hcount
        omega
      | some e =>
        rw [hm] at hcount
        change e.2.toNat = M s at hcount
        have hn : e.2 ≠ 0 := by
          intro h0
          rw [h0] at hcount
          change 0 = M s at hcount
          omega
        simp [hn]
    · rw [writeBatch]
      split
      · split_ifs
        · simp
        · exact hnone
      · exact hnone
  obtain ⟨v, hv⟩ := Option.ne_none_iff_exists'.mp hne
  rw [hv, hd.sound_writeBatch hsound s hsW v hv]

/-- What is held is held after a `commit`. -/
lemma commit (hsound : Sound sha3 W d) (hd : Holds sha3 W Set.univ d db M)
    (hlt : ∀ s, M s < 2 ^ 32) : Holds sha3 W Set.univ (writeBatch db.toMemoryDB d) db.commit M := by
  rw [hd.commit_eq]
  refine ⟨rfl, rfl, fun s hs => ⟨(hd.entry s hs).1, Or.inr ?_⟩, fun _ _ _ _ hv => ?_,
    fun s _ hsW hnone => ?_⟩
  · rw [hd.writeBatch_eq hsound hs (hlt s)]
    simp
  · exact absurd hv (by simp)
  · have hzero : M s = 0 := by
      by_contra hne
      rw [hd.writeBatch_eq hsound (Nat.pos_of_ne_zero hne) (hlt s)] at hnone
      exact absurd hnone (by simp)
    rw [hzero]
    rfl

end Holds

/-- The overlay as a keeper, which counts the nodes of `T` that are not behind. -/
def keeper (hinj : Set.InjOn sha3 W) (hsound : Sound sha3 W d) (T V : Set Bytes) :
    Trie.Keeper OverlayDB sha3 W where
  Holds := Holds sha3 W T d
  plan := V
  KillOk B := ∀ s ∈ T, B s < 2 ^ 32
  Lax := T = ∅
  killOk_mono := MemoryDB.killOk_mono
  lookup hd hs := hd.lookup_eq hsound hs
  hasNode hd hs := hd.hasNode_eq hs
  insert hd hs := hd.insert hinj hs
  kill hd hk := hd.kill hinj (MemoryDB.succ_lt_of_killOk hk)
  kill_lax hT _ _ h hd := by
    subst hT
    exact hd.kill_uncounted h

end OverlayDB

namespace Trie

open GenericTrieDB hiding item insert

open OverlayDB (Sound keeper writeBatch)

open OverlayStep (calls ops ops_append_commit ops_append_op session)

variable {sha3 : Bytes → H256} {S W : Set Bytes} {d : Database} {t : GenericTrieDB OverlayDB}
  {steps pre : List OverlayStep} {fuel : ℕ}

/-! ### Sessions -/

/-- A trie over a database, before `init` or `setRoot`. -/
abbrev onDatabase (d : Database) : GenericTrieDB OverlayDB := { m_db := { m_db := some d } }

lemma session_append (pre post : List OverlayStep) :
    session sha3 fuel (pre ++ post) =
      session sha3 fuel pre >>= fun _ => calls sha3 fuel post := by
  have hcalls : calls sha3 fuel (pre ++ post) =
      calls sha3 fuel pre >>= fun _ => calls sha3 fuel post := by
    induction pre with
    | nil => simp only [nil_append, calls, pure_bind]
    | cons step pre ih => simp only [cons_append, calls, ih, bind_assoc]
  simp only [session, hcalls, bind_assoc]

instance (step : OverlayStep) : Method.Grows written (step.call sha3 fuel) := by
  cases step with
  | commit => exact ⟨fun _ => suffix_rfl⟩
  | op o => exact inferInstanceAs (Method.Grows written (o.call sha3 fuel))

instance (steps : List OverlayStep) : Method.Grows written (calls sha3 fuel steps) := by
  induction steps with
  | nil => exact inferInstanceAs (Method.Grows written (pure _))
  | cons step steps ih =>
    unfold calls
    infer_instance

/-- What a session has written, a longer one has written as well. -/
lemma writtenSet_session_subset (h : pre <+: steps) (t : GenericTrieDB OverlayDB) :
    writtenSet ((session sha3 fuel pre).on t).2 ⊆
      writtenSet ((session sha3 fuel steps).on t).2 := by
  obtain ⟨post, rfl⟩ := h
  rw [session_append, Method.on_bind]
  rcases (session sha3 fuel pre).on t with ⟨r, t'⟩
  cases r with
  | error e => exact subset_rfl
  | ok a => exact (Method.Grows.suffix t' : written t' <:+ written _).subset

/-- A step after a session. -/
lemma session_concat_on {step : OverlayStep} {r : Except TrieError Unit × GenericTrieDB OverlayDB}
    (hpre : (session sha3 fuel pre).on (onDatabase d) = (.ok (), t))
    (hstep : (step.call sha3 fuel).on t = r) :
    (session sha3 fuel (pre ++ [step])).on (onDatabase d) = r := by
  rw [session_append, Method.on_bind_of_ok hpre, ← hstep]
  simp [calls]

/-- How a trie stands after some steps, with a database `d` behind: no node of its tree has too
many positions, and the nodes of the trie at the last `commit` are in `d`. -/
structure Underway (hinj : Set.InjOn sha3 W) (S : Set Bytes) (pre : List OverlayStep) (d : Database)
    (t : GenericTrieDB OverlayDB) : Prop where
  sound : Sound sha3 W d
  keys : Over S (treeOf (ops pre))
  stands : Stands (keeper hinj sound Set.univ Set.univ) t (treeOf (ops pre))
  few : ∀ s, stored sha3 (treeOf (ops pre)) s < 2 ^ 31
  durable : ∀ p q, pre = p ++ .commit :: q → .commit ∉ q →
    ∀ s, 0 < stored sha3 (treeOf (ops p)) s → s ∈ W ∧ d (sha3 s) = some s

namespace Underway

variable {hinj : Set.InjOn sha3 W}

/-- The start of a session. -/
lemma init (hsound : Sound sha3 W d) (hfuel : 1 ≤ fuel)
    (hW : writtenSet ((session sha3 fuel []).on (Trie.onDatabase d)).2 ⊆ W) :
    ∃ t, (session sha3 fuel []).on (Trie.onDatabase d) = (.ok (), t) ∧ Underway hinj S [] d t := by
  have hruns : Runs (keeper hinj hsound Set.univ Set.univ) (session sha3 fuel [])
    (Trie.onDatabase d)
      fun _ t => Stands (keeper hinj hsound Set.univ Set.univ) t .nil :=
    (init_runs _ (OverlayDB.Holds.empty d) hfuel (Set.mem_univ RLPNull)).bind fun _ t ht =>
       .of_on (Method.on_pure ()) rfl ht
  obtain ⟨⟨⟩, t, hon, ht⟩ := hruns.returns hW
  refine ⟨t, hon, hsound, fun x hx => absurd rfl hx, ht, fun s => ?_, fun p q h => ?_⟩
  · have hle : (Pi.single (enc sha3 .nil) 1 : Tally) s ≤ 1 := by
      rw [Pi.single_apply]
      split_ifs <;> simp
    change (Pi.single (enc sha3 .nil) 1 : Tally) s + 0 < 2 ^ 31
    omega
  · simp at h

/-- An operation of the trie. -/
lemma op (h : Underway hinj S pre d t) (hS : PrefixFree S) {o : TrieOp} (hkey : o.key ∈ S)
    (hsmall : o.Small) (hfuel : 2 ^ 31 + 5 ≤ fuel) (hW : writtenSet ((o.call sha3 fuel).on t).2 ⊆ W)
    (hfew : ∀ t' hs, (o.call sha3 fuel).on t = (.ok (), t') →
      (positions fuel).on t' = (.ok hs, t') → ∀ h, hs.count h < 2 ^ 31) :
    ∃ t', (o.call sha3 fuel).on t = (.ok (), t') ∧ Underway hinj S (pre ++ [.op o]) d t' := by
  have hnext : act (treeOf (ops pre)) o = treeOf (ops (pre ++ [.op o])) := by
    simp [ops_append_op, treeOf]
  have hlen : 2 * o.key.length + 5 ≤ fuel := by
    have := hsmall.length_key
    omega
  -- without counting, the trie stands for the next tree, which bounds the positions of its nodes
  have hloose : Stands (keeper hinj h.sound ∅ Set.univ) t (treeOf (ops pre)) :=
    ⟨h.stands.canon, h.stands.small, h.stands.root, h.stands.holds.uncounted⟩
  obtain ⟨⟨⟩, t', hon, ht'⟩ := (call_runs _ hS hloose h.keys hkey hsmall hlen
    (allows_of_killOk _ (fun _ s hs => absurd hs (Set.notMem_empty s)) (fun s => Set.mem_univ s)
      _ _)).returns hW
  have hbound : ∀ s, stored sha3 (act (treeOf (ops pre)) o) s < 2 ^ 31 := by
    intro s
    rw [← count_nodes]
    exact (count_le_count_map ..).trans_lt
      (hfew t' _ hon (positions_on _ ht' (by omega)) (sha3 s))
  -- so the counts can be relied on
  obtain ⟨⟨⟩, u, hu, hstands⟩ := (call_runs _ hS h.stands h.keys hkey hsmall hlen
    (allows_of_few _ (fun B hB s _ => hB s) (fun s => Set.mem_univ s) h.few hbound)).returns hW
  obtain rfl : t' = u := (Prod.mk.inj (hon.symm.trans hu)).2
  refine ⟨t', hon, h.sound, ?_, ?_, ?_, fun p q he hq => ?_⟩
  · rw [← hnext]
    exact h.keys.act hkey
  · rwa [← hnext]
  · rwa [← hnext]
  · obtain rfl | ⟨q', y, rfl⟩ := eq_nil_or_concat' q
    · exact absurd (append_inj_right' he rfl) (by simp)
    · rw [← cons_append, ← append_assoc] at he
      obtain ⟨hpre, -⟩ := append_inj' he rfl
      exact h.durable p q' hpre fun hmem => hq (mem_append_left _ hmem)

/-- A `commit`. -/
lemma commit (h : Underway hinj S pre d t) :
    Underway hinj S (pre ++ [.commit]) (writeBatch t.m_db.toMemoryDB d)
      { t with m_db := t.m_db.commit } := by
  have hlt : ∀ s, stored sha3 (treeOf (ops pre)) s < 2 ^ 32 :=
    fun s => (h.few s).trans (by norm_num)
  have hholds : OverlayDB.Holds sha3 W Set.univ d t.m_db (stored sha3 (treeOf (ops pre))) :=
    h.stands.holds
  refine ⟨hholds.sound_writeBatch h.sound, ?_, ?_, ?_, fun p q he hq => ?_⟩
  · rw [ops_append_commit]
    exact h.keys
  · rw [ops_append_commit]
    exact ⟨h.stands.canon, h.stands.small, h.stands.root, hholds.commit h.sound hlt⟩
  · rw [ops_append_commit]
    exact h.few
  · obtain rfl | ⟨q', y, rfl⟩ := eq_nil_or_concat' q
    · obtain ⟨rfl, -⟩ := append_inj' he rfl
      exact fun s hs => ⟨(hholds.entry s hs).1, hholds.writeBatch_eq h.sound hs (hlt s)⟩
    · rw [← cons_append, ← append_assoc] at he
      obtain ⟨-, hy⟩ := append_inj' he rfl
      exact absurd (mem_append_right q' (by simpa using hy)) hq

end Underway

/-- **Every session** leaves a trie that stands for the tree of its operations, with the nodes of
the last `commit` behind. -/
theorem session_underway {hinj : Set.InjOn sha3 W} (hS : PrefixFree S)
    (hkeys : ∀ o, .op o ∈ steps → o.key ∈ S) (hsmall : ∀ o, .op o ∈ steps → o.Small)
    (hfuel : 2 ^ 31 + 5 ≤ fuel) (hsound : Sound sha3 W d)
    (hW : writtenSet ((session sha3 fuel steps).on (onDatabase d)).2 ⊆ W)
    (hfew : ∀ pre t hs, pre <+: steps → (session sha3 fuel pre).on (onDatabase d) = (.ok (), t) →
      (positions fuel).on t = (.ok hs, t) → ∀ h, hs.count h < 2 ^ 31) (hpre : pre <+: steps) :
    ∃ d' t, (session sha3 fuel pre).on (onDatabase d) = (.ok (), t) ∧ Underway hinj S pre d' t := by
  induction pre using List.reverseRecOn with
  | nil =>
    obtain ⟨t, hon, ht⟩ := @Underway.init _ S _ _ _ hinj hsound (by omega)
      ((writtenSet_session_subset hpre _).trans hW)
    exact ⟨d, t, hon, ht⟩
  | append_singleton pre step ih =>
    obtain ⟨d', t, hon, ht⟩ := ih ((prefix_append _ _).trans hpre)
    have hmem : step ∈ steps := hpre.subset (by simp)
    cases step with
    | commit => exact ⟨_, _, session_concat_on hon rfl, ht.commit⟩
    | op o =>
      have hcall : (session sha3 fuel (pre ++ [.op o])).on (onDatabase d) =
        (o.call sha3 fuel).on t :=
        session_concat_on hon rfl
      have hwritten : writtenSet ((o.call sha3 fuel).on t).2 ⊆ W := by
        rw [← hcall]
        exact (writtenSet_session_subset hpre _).trans hW
      obtain ⟨t', hon', ht'⟩ := ht.op hS (hkeys o hmem) (hsmall o hmem) hfuel hwritten
        fun t' hs ht' hpos => hfew _ t' hs hpre (hcall.trans ht') hpos
      exact ⟨d', t', hcall.trans hon', ht'⟩

/-- **Persistence.** Keys of one length are inserted in a trie over an overlay and removed from it,
and the overlay is committed in between. Opening a new trie at the root held at the last `commit`,
over a new overlay on the same database, gives the map at that `commit`, if no node had `2 ^ 31`
positions. Keys are shorter than `2 ^ 30` bytes and values shorter than `2 ^ 62` bytes. -/
theorem reopen_after_commit {n : ℕ} (hn : n < 2 ^ 30)
    (hkeys : ∀ o, .op o ∈ steps → o.key.length = n)
    (hvalues : ∀ k v, .op (.insert k v) ∈ steps → v ≠ [] ∧ v.length < 2 ^ 62)
    (hfuel : 2 ^ 31 + 5 ≤ fuel) (hd : ∀ h v, d h = some v → sha3 v = h) (hinj : Set.InjOn sha3
      (writtenSet ((session sha3 fuel steps).on (onDatabase d)).2 ∪ {v | ∃ h, d h = some v}))
    (hfew : ∀ pre t hs, pre <+: steps → (session sha3 fuel pre).on (onDatabase d) = (.ok (), t) →
      (positions fuel).on t = (.ok hs, t) → ∀ h, hs.count h < 2 ^ 31) :
    ∀ pre post, steps = pre ++ .commit :: post → .commit ∉ post →
      ∃ t t' d' u, (session sha3 fuel pre).on (onDatabase d) = (.ok (), t) ∧
        (session sha3 fuel steps).on (onDatabase d) = (.ok (), t') ∧ t'.m_db.m_db = some d' ∧
        (setRoot sha3 fuel t.m_root).on (onDatabase d') = (.ok (), u) ∧
        ∀ k, k.length = n →
          (at_ fuel k).on u = (.ok ((TrieOp.contents (ops pre) k).getD []), u) := by
  intro pre post hsplit hpost
  have hsound : Sound sha3
      (writtenSet ((session sha3 fuel steps).on (onDatabase d)).2 ∪ {v | ∃ h, d h = some v}) d :=
    fun s hs v hv => hinj (Or.inr ⟨_, hv⟩) hs (hd _ v hv)
  have hsmall : ∀ o, .op o ∈ steps → o.Small := by
    intro o ho
    have hlen := hkeys o ho
    cases o with
    | insert k v =>
      exact ⟨hlen.trans_lt hn, (hvalues k v ho).2, (hvalues k v ho).1⟩
    | remove k => exact hlen.trans_lt hn
  have hstands : ∀ {p}, p <+: steps → ∃ d' t, (session sha3 fuel p).on (onDatabase d) =
    (.ok (), t) ∧
      Underway hinj {k | k.length = n} p d' t :=
    session_underway (prefixFree_length n) hkeys hsmall hfuel hsound Set.subset_union_left hfew
  obtain ⟨_, t, hon, ht⟩ := hstands ⟨_, hsplit.symm⟩
  obtain ⟨d', t', hon', ht'⟩ := hstands List.prefix_rfl
  have hnew : Stands (keeper hinj ht'.sound ∅ Set.univ)
      { (onDatabase d') with m_root := t.m_root } (treeOf (ops pre)) :=
    ⟨ht.stands.canon, ht.stands.small, ht.stands.root,
      OverlayDB.Holds.of_behind (ht'.durable pre post hsplit hpost)⟩
  obtain _ | fuel := fuel
  · omega
  refine ⟨t, t', d', _, hon, hon', ht'.stands.holds.behind, setRoot_on _ hnew, fun k hk => ?_⟩
  rw [at_on _ hnew (by omega) (by omega), lookup_treeOf]

theorem reopen_after_commit_three_steps :
    ∃ t t' d' u, (session shortHash (2 ^ 31 + 5) [.op (.insert [0x12] [1])]).on
          (onDatabase fun _ => none) = (.ok (), t) ∧
      (session shortHash (2 ^ 31 + 5) [.op (.insert [0x12] [1]), .commit,
        .op (.remove [0x12])]).on (onDatabase fun _ => none) = (.ok (), t') ∧
      t'.m_db.m_db = some d' ∧
      (setRoot shortHash (2 ^ 31 + 5) t.m_root).on (onDatabase d') = (.ok (), u) ∧
      ∀ k, k.length = 1 → (at_ (2 ^ 31 + 5) k).on u =
        (.ok ((TrieOp.contents [.insert [0x12] [1]] k).getD []), u) := by
  refine reopen_after_commit (by norm_num) ?_ ?_ le_rfl ?_ ?_ ?_
    [.op (.insert [0x12] [1])] [.op (.remove [0x12])] rfl (by simp)
  · intro o ho
    simp only [List.mem_cons, OverlayStep.op.injEq, reduceCtorEq, List.not_mem_nil, false_or,
      or_false] at ho
    rcases ho with rfl | rfl <;> rfl
  · intro k v hv
    simp only [List.mem_cons, OverlayStep.op.injEq, TrieOp.insert.injEq, reduceCtorEq,
      List.not_mem_nil, or_false] at hv
    obtain ⟨-, rfl⟩ := hv
    decide
  · intro h v hv
    simp at hv
  · have hall : ∀ s ∈ ((session shortHash (2 ^ 31 + 5) [.op (.insert [0x12] [1]), .commit,
        .op (.remove [0x12])]).on (onDatabase fun _ => none)).2.written,
        ∀ s' ∈ ((session shortHash (2 ^ 31 + 5) [.op (.insert [0x12] [1]), .commit,
          .op (.remove [0x12])]).on (onDatabase fun _ => none)).2.written,
        shortHash s = shortHash s' → s = s' := by decide +kernel
    rintro s (hs | ⟨h, hs⟩) s' (hs' | ⟨h, hs'⟩)
    · exact hall s hs s' hs'
    all_goals simp at hs hs'
  · intro pre t hs hpre hrun hhs h
    have hall : ∀ pre ∈ [.op (.insert [0x12] [1]), .commit, .op (.remove [0x12])].inits,
        ((((positions (2 ^ 31 + 5)).on ((session shortHash (2 ^ 31 + 5) pre).on
          (onDatabase fun _ => none)).2).1).map List.length).toOption.getD 0 < 2 ^ 31 := by
      decide +kernel
    have hlen := hall pre ((List.mem_inits _ _).mpr hpre)
    rw [hrun, hhs] at hlen
    exact List.count_le_length.trans_lt hlen

/-! ### Keys that are too long -/

/-- **Keys of `2 ^ 31` bytes are not told apart** in a trie that is opened again. -/
theorem reopened_long_keys_share_entry : ∃ (sha3 : Bytes → H256) (k l : Bytes),
    k.length = 2 ^ 31 ∧ l.length = 2 ^ 31 ∧ k ≠ l ∧ ∀ fuel, 2 ^ 31 + 5 ≤ fuel →
      ∃ t t' d' u,
        (session sha3 fuel [.op (.insert k [1])]).on (onDatabase fun _ => none) = (.ok (), t) ∧
        (session sha3 fuel [.op (.insert k [1]), .commit]).on (onDatabase fun _ => none) =
          (.ok (), t') ∧ Set.InjOn sha3 (writtenSet t') ∧ t'.m_db.m_db = some d' ∧
        (setRoot sha3 fuel t.m_root).on (onDatabase d') = (.ok (), u) ∧
        TrieOp.contents (ops [.op (.insert k [1])]) l = none ∧
        (at_ fuel l).on u = (.ok [1], u) := by
  obtain ⟨k, l, hk, hl, hne⟩ := exists_two_keys (n := 2 ^ 31) (by norm_num)
  refine ⟨twoHash, k, l, hk, hl, hne, fun fuel hfuel => ?_⟩
  obtain _ | fuel := fuel
  · omega
  have hsound : Sound twoHash twoNodes fun _ => none := fun _ _ _ hv => absurd hv (by simp)
  obtain ⟨⟨⟩, t, hon, hstands, hwritten⟩ :=
    (@insert_long_run fuel _ _ (keeper injOn_twoNodes hsound Set.univ twoNodes) rfl
      (fun s _ => by norm_num) (onDatabase fun _ => none) (OverlayDB.Holds.empty _) k
      hk).returns_planned subset_rfl
  have hholds : OverlayDB.Holds twoHash twoNodes Set.univ (fun _ => none) t.m_db
    (stored twoHash (.leaf [] [1])) := hstands.holds
  have hon' : (session twoHash (fuel + 1) [.op (.insert k [1])]).on (onDatabase fun _ => none) =
    (.ok (), t) := hon
  have hcommit : (session twoHash (fuel + 1) ([.op (.insert k [1])] ++ [.commit])).on
      (onDatabase fun _ => none) = (.ok (), { t with m_db := t.m_db.commit }) :=
    session_concat_on hon' rfl
  have hlt : ∀ s, stored twoHash (.leaf [] [1]) s < 2 ^ 32 := fun s =>
    (single_le_one _ s).trans_lt (by norm_num)
  have hnew : Stands (keeper injOn_twoNodes (hholds.sound_writeBatch hsound) ∅ Set.univ)
      { (onDatabase (writeBatch t.m_db.toMemoryDB fun _ => none)) with m_root := t.m_root }
      (.leaf [] [1]) :=
    ⟨hstands.canon, hstands.small, hstands.root, OverlayDB.Holds.of_behind fun s hs =>
      ⟨(hholds.entry s hs).1, hholds.writeBatch_eq hsound hs (hlt s)⟩⟩
  refine ⟨t, _, _, _, hon', hcommit, injOn_twoNodes.mono fun s hs => ?_, ?_,
    setRoot_on _ hnew, ?_, at_long hnew hl⟩
  · exact (hwritten s hs).resolve_right List.not_mem_nil
  · exact (hholds.commit hsound hlt).behind
  · simp [TrieOp.contents, TrieOp.edit, ops, hne.symm]

end Trie

end Tos
