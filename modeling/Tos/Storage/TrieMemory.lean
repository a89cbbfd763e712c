import Tos.Storage.MemoryDB
import Tos.Storage.TrieRun

/-!
# The trie over the database in memory

A `MemoryDB` keeps the nodes of a trie, as long as the hash is free of collisions on what was put
in it. Its counts are 32-bit integers: they agree with the number of times a node is held, as
long as that number is small enough. An entry is never erased, so a node that was written is
found whatever its count; the trie as a map does not depend on the counts.

## Main results

* `Trie.memory_run`: a run leaves a trie that stands for its tree.
* `Trie.at_after_run`: the trie is a map, for keys that are not too long.
* `Trie.long_keys_share_entry`: keys of `2 ^ 31` bytes are not told apart.
-/

namespace Tos

open Sdag (H256)
open TrieOp (insert run)

namespace MemoryDB

variable {db : MemoryDB} {h h' : H256} {v : Bytes} {n : UInt32}

/-! ### The operations on one entry -/

lemma insert_main_self (db : MemoryDB) (h : H256) (v : Bytes) :
    (db.insert h v).m_main h = some (v, db.count h + 1) := Function.update_self ..

lemma insert_main_of_ne (hne : h' ≠ h) : (db.insert h v).m_main h' = db.m_main h' :=
  Function.update_of_ne hne ..

lemma kill_main_of_ne (hne : h' ≠ h) : (db.kill h).2.m_main h' = db.m_main h' := by
  unfold kill
  split
  · split_ifs
    · exact Function.update_of_ne hne ..
    · rfl
  · rfl

/-- A count goes down to zero and stays there. -/
lemma kill_main_self (hentry : db.m_main h = some (v, n)) :
    (db.kill h).2.m_main h = some (v, if n > 0 then n - 1 else n) := by
  unfold kill
  rw [hentry]
  dsimp only
  split_ifs
  · exact Function.update_self ..
  · exact hentry

lemma kill_main_none (hnone : db.m_main h = none) : (db.kill h).2 = db := by
  unfold kill
  rw [hnone]

lemma kill_enforceRefs : (db.kill h).2.m_enforceRefs = db.m_enforceRefs := by
  unfold kill
  split
  · split_ifs <;> rfl
  · rfl

lemma count_congr {db' : MemoryDB} (hmain : db'.m_main h = db.m_main h) :
    db'.count h = db.count h := by rw [count, count, hmain]

/-- A count follows a number as it goes up. -/
lemma toNat_count_insert {m : ℕ} (hcount : (db.count h).toNat = m % 2 ^ 32) (v : Bytes) :
    ((db.insert h v).count h).toNat = (1 + m) % 2 ^ 32 := by
  rw [count, insert_main_self, Option.map_some, Option.getD_some, UInt32.toNat_add, hcount]
  change (m % 2 ^ 32 + 1) % 2 ^ 32 = (1 + m) % 2 ^ 32
  omega

/-- A count follows a number as it goes down, if it has not wrapped around. -/
lemma toNat_count_kill {m : ℕ} (hcount : (db.count h).toNat = (1 + m) % 2 ^ 32)
    (hlt : m + 1 < 2 ^ 32) : ((db.kill h).2.count h).toNat = m % 2 ^ 32 := by
  rw [Nat.mod_eq_of_lt (by omega), count] at hcount
  cases hentry : db.m_main h with
  | none =>
    rw [hentry] at hcount
    change 0 = 1 + m at hcount
    omega
  | some e =>
    obtain ⟨v, n⟩ := e
    rw [hentry] at hcount
    change n.toNat = 1 + m at hcount
    have hpos : n > 0 := by
      rw [gt_iff_lt, UInt32.lt_iff_toNat_lt, hcount]
      exact Nat.add_pos_left Nat.one_pos _
    have hone : 1 ≤ n := by
      rw [UInt32.le_iff_toNat_le, hcount]
      exact Nat.le_add_right 1 _
    rw [count, kill_main_self hentry, if_pos hpos, Option.map_some, Option.getD_some,
      UInt32.toNat_sub_of_le _ _ hone, hcount, Nat.mod_eq_of_lt (by omega)]
    exact Nat.add_sub_cancel_left ..

/-! ### Nodes that are held -/

/-- The nodes of `M` are in the database, and those of `T` are counted. -/
structure Counts (sha3 : Bytes → H256) (W T : Set Bytes) (db : MemoryDB) (M : Trie.Tally) :
    Prop where
  refs : db.m_enforceRefs = false
  entry : ∀ s, 0 < M s → s ∈ W ∧ ∃ n, db.m_main (sha3 s) = some (s, n)
  count : ∀ s ∈ T, s ∈ W → (db.count (sha3 s)).toNat = M s % 2 ^ 32
  only : ∀ h, (∀ s ∈ W, sha3 s ≠ h) → db.m_main h = none

namespace Counts

variable {sha3 : Bytes → H256} {W T : Set Bytes} {M : Trie.Tally} {s : Bytes}

lemma lookup_eq (hd : Counts sha3 W T db M) (hs : 0 < M s) : db.lookup (sha3 s) = s := by
  obtain ⟨-, n, hn⟩ := hd.entry s hs
  rw [lookup, hn]
  simp [hd.refs]

lemma hasNode_eq (hd : Counts sha3 W T db M) (hs : 0 < M s) : db.hasNode (sha3 s) = true := by
  obtain ⟨-, n, hn⟩ := hd.entry s hs
  rw [hasNode, hn]
  simp [hd.refs]

lemma empty : Counts sha3 W T {} 0 where
  refs := rfl
  entry _ hs := absurd hs (lt_irrefl 0)
  count _ _ _ := rfl
  only _ _ := rfl

/-- A node is put in the database. -/
lemma insert (hinj : Set.InjOn sha3 W) (hd : Counts sha3 W T db M) (hs : s ∈ W) :
    Counts sha3 W T (db.insert (sha3 s) s) (Pi.single s 1 + M) where
  refs := hd.refs
  entry x hx := by
    by_cases hxs : x = s
    · subst hxs
      exact ⟨hs, _, insert_main_self ..⟩
    · rw [Pi.add_apply, Pi.single_eq_of_ne hxs, zero_add] at hx
      obtain ⟨hxW, n, hn⟩ := hd.entry x hx
      exact ⟨hxW, n, by rw [insert_main_of_ne fun e => hxs (hinj hxW hs e), hn]⟩
  count x hxT hxW := by
    have hcount := hd.count x hxT hxW
    by_cases hxs : x = s
    · subst hxs
      rw [toNat_count_insert hcount, Pi.add_apply, Pi.single_eq_same]
    · rw [Pi.add_apply, Pi.single_eq_of_ne hxs, zero_add, ← hcount,
        count_congr (insert_main_of_ne fun e => hxs (hinj hxW hs e))]
  only h hh := by
    rw [insert_main_of_ne (hh s hs).symm]
    exact hd.only h hh

/-- The entries do not depend on the counts. -/
lemma entry_kill (hd : Counts sha3 W T db M) (h : H256) (hs : 0 < M s) :
    s ∈ W ∧ ∃ n, (db.kill h).2.m_main (sha3 s) = some (s, n) := by
  obtain ⟨hsW, n, hn⟩ := hd.entry s hs
  refine ⟨hsW, ?_⟩
  by_cases hh : sha3 s = h
  · subst hh
    exact ⟨_, kill_main_self hn⟩
  · exact ⟨n, by rw [kill_main_of_ne hh, hn]⟩

lemma only_kill (hd : Counts sha3 W T db M) (h : H256) {h' : H256} (hh : ∀ s ∈ W, sha3 s ≠ h') :
    (db.kill h).2.m_main h' = none := by
  by_cases hne : h' = h
  · subst hne
    rw [kill_main_none (hd.only h' hh)]
    exact hd.only h' hh
  · rw [kill_main_of_ne hne]
    exact hd.only h' hh

/-- A node is given back. -/
lemma kill (hinj : Set.InjOn sha3 W) (hd : Counts sha3 W T db (Pi.single s 1 + M))
    (hT : s ∈ T → M s + 1 < 2 ^ 32) : Counts sha3 W T (db.kill (sha3 s)).2 M where
  refs := kill_enforceRefs.trans hd.refs
  entry x hx := hd.entry_kill _ (by rw [Pi.add_apply]; omega)
  count x hxT hxW := by
    have hcount := hd.count x hxT hxW
    have hsW := (hd.entry s (by rw [Pi.add_apply, Pi.single_eq_same]; omega)).1
    by_cases hxs : x = s
    · subst hxs
      rw [Pi.add_apply, Pi.single_eq_same] at hcount
      exact toNat_count_kill hcount (hT hxT)
    · rw [Pi.add_apply, Pi.single_eq_of_ne hxs, zero_add] at hcount
      rw [← hcount, count_congr (kill_main_of_ne fun e => hxs (hinj hxW hsW e))]
  only h hh := hd.only_kill _ hh

/-- A kill does no harm where nothing is counted. -/
lemma kill_uncounted (hd : Counts sha3 W ∅ db M) (h : H256) : Counts sha3 W ∅ (db.kill h).2 M where
  refs := kill_enforceRefs.trans hd.refs
  entry _ hx := hd.entry_kill h hx
  count _ hxT := absurd hxT (Set.notMem_empty _)
  only _ hh := hd.only_kill h hh

end Counts

lemma killOk_mono {T : Set Bytes} {M N : Trie.Tally} (hle : M ≤ N) (hN : ∀ s ∈ T, N s < 2 ^ 32) :
    ∀ s ∈ T, M s < 2 ^ 32 := fun s hs => (hle s).trans_lt (hN s hs)

/-- Where 32 bits can count one node more, they can count it. -/
lemma succ_lt_of_killOk {T : Set Bytes} {M : Trie.Tally} {s : Bytes}
    (h : ∀ x ∈ T, (Pi.single s 1 + M : Trie.Tally) x < 2 ^ 32) (hs : s ∈ T) : M s + 1 < 2 ^ 32 := by
  have := h _ hs
  rw [Pi.add_apply, Pi.single_eq_same] at this
  omega

/-- The database in memory as a keeper, which counts the nodes of `T`. -/
def keeper {sha3 : Bytes → H256} {W : Set Bytes} (hinj : Set.InjOn sha3 W) (T V : Set Bytes) :
    Trie.Keeper MemoryDB sha3 W where
  Holds := Counts sha3 W T
  plan := V
  KillOk B := ∀ s ∈ T, B s < 2 ^ 32
  Lax := T = ∅
  killOk_mono := killOk_mono
  lookup hd hs := hd.lookup_eq hs
  hasNode hd hs := hd.hasNode_eq hs
  insert hd hs := hd.insert hinj hs
  kill hd hk := hd.kill hinj (succ_lt_of_killOk hk)
  kill_lax hT _ _ h hd := by
    subst hT
    exact hd.kill_uncounted h

end MemoryDB

namespace Trie

open GenericTrieDB hiding item insert

variable {sha3 : Bytes → H256} {S W T : Set Bytes} {ops : List TrieOp} {fuel : ℕ}

/-- A trie over an empty database in memory, before `init`. -/
abbrev fresh : GenericTrieDB MemoryDB := { m_db := {} }

/-- **A run over a database in memory** leaves a trie that stands for its tree, if the nodes that
are counted do not get too many. -/
theorem memory_run (hinj : Set.InjOn sha3 W) (hS : PrefixFree S)
    (hkeys : ∀ op ∈ ops, op.key ∈ S) (hsmall : ∀ op ∈ ops, op.Small) (hfuel : 2 ^ 31 + 5 ≤ fuel)
    (hk : ∀ pre op post, ops = pre ++ op :: post →
      Allows (MemoryDB.keeper hinj T Set.univ) (treeOf pre) op)
    (hW : writtenSet ((run sha3 fuel ops).on fresh).2 ⊆ W) :
    ∃ t, (run sha3 fuel ops).on fresh = (.ok (), t) ∧
      Stands (MemoryDB.keeper hinj T Set.univ) t (treeOf ops) := by
  have hlen : ∀ op ∈ ops, 2 * op.key.length + 5 ≤ fuel := by
    intro op hop
    have hkey : op.key.length < 2 ^ 30 := (hsmall op hop).length_key
    omega
  have hruns := run_runs (MemoryDB.keeper hinj T Set.univ) hS (t := fresh)
    MemoryDB.Counts.empty hkeys hsmall (by omega) hlen trivial hk
  obtain ⟨⟨⟩, t, hon, hstands⟩ := hruns.returns hW
  exact ⟨t, hon, hstands⟩

/-- Where nothing is counted, every operation is allowed. -/
lemma allows_uncounted (hinj : Set.InjOn sha3 W) (m : Node) (op : TrieOp) :
    Allows (MemoryDB.keeper hinj ∅ Set.univ) m op :=
  allows_of_killOk _ (fun _ s hs => absurd hs (Set.notMem_empty s)) (fun s => Set.mem_univ s) m op

lemma small_of_mem (hlong : ∀ k ∈ S, k.length < 2 ^ 30) (hkeys : ∀ op ∈ ops, op.key ∈ S)
    (hvalues : ∀ k v, insert k v ∈ ops → v ≠ [] ∧ v.length < 2 ^ 62)
    {pre : List TrieOp} (hpre : pre <+: ops) : ∀ op ∈ pre, op.Small := by
  intro op hop
  have hmem := hpre.subset hop
  cases op with
  | insert k v => exact ⟨hlong k (hkeys _ hmem), (hvalues k v hmem).2, (hvalues k v hmem).1⟩
  | remove k => exact hlong k (hkeys _ hmem)

/-- A run over keys and values that are not too long stands for its tree after every operation. -/
lemma run_stands (hS : PrefixFree S) (hlong : ∀ k ∈ S, k.length < 2 ^ 30)
    (hkeys : ∀ op ∈ ops, op.key ∈ S)
    (hvalues : ∀ k v, insert k v ∈ ops → v ≠ [] ∧ v.length < 2 ^ 62) (hfuel : 2 ^ 31 + 5 ≤ fuel)
    (hinj : Set.InjOn sha3 (writtenSet ((run sha3 fuel ops).on fresh).2))
    {pre : List TrieOp} (hpre : pre <+: ops) :
    ∃ t, (run sha3 fuel pre).on fresh = (.ok (), t) ∧
      Stands (MemoryDB.keeper hinj ∅ Set.univ) t (treeOf pre) :=
  memory_run hinj hS (fun op hop => hkeys op (hpre.subset hop))
    (small_of_mem hlong hkeys hvalues hpre) hfuel
    (fun _ _ _ _ => allows_uncounted hinj _ _) (writtenSet_run_subset hpre fresh)

/-- **The trie is a map.** Keys of which none is a proper prefix of another are inserted and
removed; no operation throws, and after each of them every key has the value that was inserted
last and not removed since. Keys are shorter than `2 ^ 30` bytes and values shorter than
`2 ^ 62` bytes. -/
theorem at_after_run (hS : PrefixFree S) (hlong : ∀ k ∈ S, k.length < 2 ^ 30)
    (hkeys : ∀ op ∈ ops, op.key ∈ S)
    (hvalues : ∀ k v, TrieOp.insert k v ∈ ops → v ≠ [] ∧ v.length < 2 ^ 62)
    (hfuel : 2 ^ 31 + 5 ≤ fuel)
    (hinj : Set.InjOn sha3 (writtenSet ((TrieOp.run sha3 fuel ops).on fresh).2)) :
    ∀ pre, pre <+: ops → ∃ t, (TrieOp.run sha3 fuel pre).on fresh = (.ok (), t) ∧
      ∀ k ∈ S, (at_ fuel k).on t = (.ok ((TrieOp.contents pre k).getD []), t) := by
  intro pre hpre
  obtain ⟨t, hon, hstands⟩ := run_stands hS hlong hkeys hvalues hfuel hinj hpre
  refine ⟨t, hon, fun k hk => ?_⟩
  have hkey := hlong k hk
  rw [at_on _ hstands hkey (by omega), lookup_treeOf]

/-- A hash without collisions on short byte strings. -/
def shortHash (s : Bytes) : H256 := BitVec.ofNat 256 (s.foldl (fun a b => 256 * a + b.toNat) 1)

lemma prefixFree_length (n : ℕ) : PrefixFree {k | k.length = n} := by
  intro k hk l hl x hx
  have hlen := congrArg List.length hx
  rw [List.length_append, hk, hl] at hlen
  exact List.length_eq_zero_iff.mp (by omega)

/-- Two insertions and a removal. -/
abbrev threeSteps : List TrieOp := [.insert [0x12] [1], .insert [0x34] [2], .remove [0x12]]

lemma values_three_steps (k v : Bytes) (h : insert k v ∈ threeSteps) :
    v ≠ [] ∧ v.length < 2 ^ 62 := by
  simp only [List.mem_cons, TrieOp.insert.injEq, reduceCtorEq, List.not_mem_nil, or_false] at h
  rcases h with ⟨-, rfl⟩ | ⟨-, rfl⟩ <;> decide

lemma injOn_three_steps : Set.InjOn shortHash
    (writtenSet ((run shortHash (2 ^ 31 + 5) threeSteps).on fresh).2) := by
  have hall : ∀ s ∈ ((run shortHash (2 ^ 31 + 5) threeSteps).on fresh).2.written,
      ∀ s' ∈ ((run shortHash (2 ^ 31 + 5) threeSteps).on fresh).2.written,
      shortHash s = shortHash s' → s = s' := by decide +kernel
  exact fun s hs s' hs' => hall s hs s' hs'

theorem at_after_run_three_steps :
    ∃ t, (TrieOp.run shortHash (2 ^ 31 + 5) threeSteps).on fresh = (.ok (), t) ∧
      ∀ k ∈ {k : Bytes | k.length = 1},
        (at_ (2 ^ 31 + 5) k).on t = (.ok ((TrieOp.contents threeSteps k).getD []), t) :=
  at_after_run (prefixFree_length 1) (by rintro k (hk : k.length = 1); omega) (by decide)
    values_three_steps le_rfl injOn_three_steps _ List.prefix_rfl

/-! ### Keys that are too long -/

/-- A key of `2 ^ 31` bytes has no nibbles, as far as 32 bits can tell. -/
lemma size_long {k : Bytes} (hk : k.length = 2 ^ 31) : (NibbleSlice.mk k 0).size = 0 := by
  rw [NibbleSlice.size, hk, u32]
  norm_num

lemma hexPrefixEncode_long {k : Bytes} (hk : k.length = 2 ^ 31) :
    hexPrefixEncode ⟨k, 0⟩ true = HexPrefix.encode true [] := by
  rw [hexPrefixEncode]
  simp [hk, pushNibbles]
  rfl

lemma equal_long {k : Bytes} (hk : k.length = 2 ^ 31) :
    (NibbleSlice.mk k 0).equal (keyOf (HexPrefix.encode true [])) = true := by
  rw [NibbleSlice.equal, NibbleSlice.shared, size_long hk]
  rfl

/-- A hash without collisions on the empty trie and one other node. -/
def twoHash (s : Bytes) : H256 := if s = RLPNull then 0 else 1

/-- The nodes written for one leaf. -/
def twoNodes : Set Bytes := {RLPNull, enc twoHash (.leaf [] [1])}

lemma injOn_twoNodes : Set.InjOn twoHash twoNodes := by
  have hleaf : twoHash (enc twoHash (.leaf [] [1])) = 1 := rfl
  have hnull : twoHash RLPNull = 0 := rfl
  rintro s (rfl | rfl) s' (rfl | rfl) h
  · rfl
  · simp [hleaf, hnull] at h
  · simp [hleaf, hnull] at h
  · rfl

lemma single_le_one (s : Bytes) : (Pi.single s 1 + 0 : Tally) ≤ 1 := by
  intro x
  rw [add_zero, Pi.single_apply, Pi.one_apply]
  split_ifs <;> simp

/-- Inserting a key of `2 ^ 31` bytes leaves a leaf without a key. -/
lemma insert_long_run {δ : Type} [NodeDB δ] (K : Keeper δ twoHash twoNodes)
    (hplan : K.plan = twoNodes) (hkill : K.KillOk 1) {t : GenericTrieDB δ}
    (h : K.Holds t.m_db 0) {k : Bytes} (hk : k.length = 2 ^ 31) :
    Runs K (run twoHash (fuel + 1) [.insert k [1]]) t
      fun _ t' => Stands K t' (.leaf [] [1]) := by
  have hnodes : Within K.plan (stored twoHash (.leaf [] [1])) := by
    intro s hs
    rw [hplan]
    refine Or.inr ?_
    by_contra hne
    simp [stored, below, Pi.single_eq_of_ne hne] at hs
  have hsmall : Small (.leaf [] [1]) := by
    intro x v hx
    rw [Patricia.Node.lookup_leaf] at hx
    split_ifs at hx with hnil
    obtain rfl := Option.some.inj hx
    subst hnil
    decide
  have hnull : RLPNull ∈ K.plan := by
    rw [hplan]
    exact Or.inl rfl
  refine (init_runs K h (by omega) hnull).bind fun _ t ht => ?_
  exact (insert_runs_of K ht (.leaf [] [1]) hsmall
    (merges_nil K (hexPrefixEncode_long hk) (by decide) (by decide))
    (fun _ => K.killOk_mono (single_le_one _) hkill) hnodes).bind fun _ t' ht' =>
    .of_on (Method.on_pure ()) rfl ht'

/-- Any key of `2 ^ 31` bytes finds the leaf without a key. -/
lemma at_long {δ : Type} [NodeDB δ] {K : Keeper δ twoHash twoNodes} {t : GenericTrieDB δ}
    (h : Stands K t (.leaf [] [1])) {l : Bytes} (hl : l.length = 2 ^ 31) :
    (at_ (fuel + 1) l).on t = (.ok [1], t) := by
  have hsize : (Rlp.encode (pair true [] (.data [1]))).length ≤ RLP.maxLength := by decide
  rw [at_, Method.on_get_bind, Method.on_bind_of_ok (h.node_on _),
    Method.on_bind_of_ok (ofNode_enc_on (h.small.fits h.canon))]
  refine (atAux_pair_on hsize).trans ?_
  rw [if_pos (by rw [equal_long hl]; rfl)]
  exact rlp_on (RLP.toBytes_encode (by decide) _)

lemma exists_two_keys {n : ℕ} (hn : 0 < n) :
    ∃ k l : Bytes, k.length = n ∧ l.length = n ∧ k ≠ l := by
  refine ⟨List.replicate n 0, List.replicate n 1, List.length_replicate, List.length_replicate, ?_⟩
  rw [Ne, List.replicate_inj]
  simp [hn.ne']

/-- **Keys of `2 ^ 31` bytes are not told apart**: after one of them was inserted, any other one
has its value, although no node collides with another. -/
theorem long_keys_share_entry : ∃ (sha3 : Bytes → H256) (k l : Bytes),
    k.length = 2 ^ 31 ∧ l.length = 2 ^ 31 ∧ k ≠ l ∧ ∀ fuel, 2 ^ 31 + 5 ≤ fuel →
      ∃ t, (TrieOp.run sha3 fuel [.insert k [1]]).on fresh = (.ok (), t) ∧
        Set.InjOn sha3 (writtenSet t) ∧ TrieOp.contents [.insert k [1]] l = none ∧
        (at_ fuel l).on t = (.ok [1], t) := by
  obtain ⟨k, l, hk, hl, hne⟩ := exists_two_keys (n := 2 ^ 31) (by norm_num)
  refine ⟨twoHash, k, l, hk, hl, hne, fun fuel hfuel => ?_⟩
  obtain _ | fuel := fuel
  · omega
  obtain ⟨⟨⟩, t, hon, hstands, hwritten⟩ :=
    (@insert_long_run fuel _ _ (MemoryDB.keeper injOn_twoNodes ∅ twoNodes) rfl
      (fun s hs => absurd hs (Set.notMem_empty s)) fresh MemoryDB.Counts.empty k
      hk).returns_planned subset_rfl
  refine ⟨t, hon, injOn_twoNodes.mono fun s hs => ?_, ?_, at_long hstands hl⟩
  · exact (hwritten s hs).resolve_right (List.not_mem_nil)
  · simp [TrieOp.contents, TrieOp.edit, hne.symm]

end Trie

end Tos
