import Tos.Storage.TrieHash
import Tos.Storage.TrieMemory

/-!
# The root of the trie and the root of the map

Two programs compute the root of a map: `GenericTrieDB` keeps it up to date from one operation to
the next, and `hash256` computes it from all entries. They agree after every operation, for keys
that are not too long, since both encode the canonical tree of the map.

## Main results

* `Trie.root_after_run`: the root after a run is that of the map.
* `Trie.root_eq_iff`: two runs have the same root if they leave the same entries, and only then.
* `Trie.long_key_root_differs`: for keys of `2 ^ 31` bytes it need not be.
-/

namespace Tos

open List
open Sdag (H256)

namespace TrieOp

/-- What the operation does to the map of the present entries. -/
def apply (s : BytesMap) : TrieOp → BytesMap
  | insert k v => s.insert k v
  | remove k => s.erase k

/-- The map of the entries that are present after a run. -/
def present (ops : List TrieOp) : BytesMap := ops.foldl apply ∅

lemma getElem?_apply (s : BytesMap) (op : TrieOp) (k : Bytes) :
    (op.apply s)[k]? = op.edit (fun k => s[k]?) k := by
  have heq : ∀ l : Bytes, compare l k = .eq ↔ k = l :=
    fun l => Std.LawfulEqOrd.compare_eq_iff_eq.trans eq_comm
  cases op with
  | insert l v =>
    simp only [apply, edit, Std.TreeMap.getElem?_insert, Function.update_apply, heq]
  | remove l =>
    simp only [apply, edit, Std.TreeMap.getElem?_erase, Function.update_apply, heq]

/-- The entries that are present are those of the map that a run should leave. -/
lemma getElem?_present (ops : List TrieOp) (k : Bytes) : (present ops)[k]? = contents ops k := by
  have hfold : ∀ s : BytesMap, (ops.foldl apply s)[k]? = ops.foldl edit (fun k => s[k]?) k := by
    induction ops with
    | nil => exact fun _ => rfl
    | cons op ops ih =>
      intro s
      rw [foldl_cons, foldl_cons, ih, funext (getElem?_apply s op)]
  rw [present, hfold ∅]
  rfl

end TrieOp

namespace Trie

open GenericTrieDB hiding item insert

open HexPrefix (nibbles)

variable {sha3 : Bytes → H256} {S W : Set Bytes} {ops : List TrieOp} {fuel : ℕ}

lemma over_treeOf (ops : List TrieOp) : Over Set.univ (treeOf ops) := by
  have hfold : ∀ m, Over Set.univ m → Over Set.univ (ops.foldl act m) := by
    induction ops with
    | nil => exact fun _ h => h
    | cons op ops ih => exact fun m h => ih _ (@Over.act m _ h op (Set.mem_univ op.key))
  exact hfold .nil fun x hx => absurd rfl hx

lemma represents_treeOf {s : BytesMap} (h : ∀ k, s[k]? = TrieOp.contents ops k) :
    Represents (treeOf ops) s := by
  intro x v
  constructor
  · intro hx
    obtain ⟨k, -, rfl⟩ := over_treeOf ops x (by rw [hx]; simp)
    exact ⟨k, rfl, by rw [h, ← lookup_treeOf, hx]⟩
  · rintro ⟨k, rfl, hk⟩
    rw [lookup_treeOf, ← h, hk]

/-- **The incremental root is the batch root.** After every operation of a run `root` returns, and
it gives the hash that `hash256` computes for the map of the entries that are present. So it does
not depend on the order of the operations or on entries that were removed. Keys are shorter than `2
^ 30` bytes and values shorter than `2 ^ 62` bytes. -/
theorem root_after_run (hS : PrefixFree S) (hlong : ∀ k ∈ S, k.length < 2 ^ 30)
    (hkeys : ∀ op ∈ ops, op.key ∈ S)
    (hvalues : ∀ k v, TrieOp.insert k v ∈ ops → v ≠ [] ∧ v.length < 2 ^ 62)
    (hfuel : 2 ^ 31 + 5 ≤ fuel)
    (hinj : Set.InjOn sha3 (writtenSet ((TrieOp.run sha3 fuel ops).on fresh).2)) :
    ∀ pre, pre <+: ops → ∃ t r, (TrieOp.run sha3 fuel pre).on fresh = (.ok (), t) ∧
      root.on t = (.ok r, t) ∧ hash256 sha3 fuel (TrieOp.present pre) = .ok r ∧
      ∀ s : BytesMap, (∀ k : Bytes, s[k]? = (TrieOp.present pre)[k]?) →
        hash256 sha3 fuel s = .ok r := by
  intro pre hpre
  obtain ⟨t, hon, hstands⟩ := run_stands hS hlong hkeys hvalues hfuel hinj hpre
  have hroot : ∀ s : BytesMap, (∀ k : Bytes, s[k]? = (TrieOp.present pre)[k]?) →
      hash256 sha3 fuel s = .ok t.m_root := by
    intro s hs
    have hrep : Represents (treeOf pre) s :=
      represents_treeOf fun k => (hs k).trans (TrieOp.getElem?_present pre k)
    rw [hash256, rlp256_spec hstands.canon hstands.small hrep (by omega), hstands.root]
    rfl
  exact ⟨t, t.m_root, hon, root_on _ hstands, hroot _ fun _ => rfl, hroot⟩

theorem root_after_run_three_steps :
    ∃ t r, (TrieOp.run shortHash (2 ^ 31 + 5) threeSteps).on fresh = (.ok (), t) ∧
      root.on t = (.ok r, t) ∧
      hash256 shortHash (2 ^ 31 + 5) (TrieOp.present threeSteps) = .ok r ∧
      ∀ s : BytesMap, (∀ k : Bytes, s[k]? = (TrieOp.present threeSteps)[k]?) →
        hash256 shortHash (2 ^ 31 + 5) s = .ok r :=
  root_after_run (prefixFree_length 1) (by rintro k (hk : k.length = 1); omega) (by decide)
    values_three_steps le_rfl injOn_three_steps _ prefix_rfl

/-! ### The root binds the entries -/

/-- A database that has all nodes of a set. -/
lemma exists_counts (hinj : Set.InjOn sha3 W) : ∃ db : MemoryDB, ∀ M : Tally,
    (∀ s, 0 < M s → s ∈ W) → MemoryDB.Counts sha3 W ∅ db M := by
  classical
  refine ⟨{ m_main := fun h =>
    if h ∈ Set.image sha3 W then some (Function.invFunOn sha3 W h, 1) else none },
    fun M hM => ⟨rfl, fun s hs => ⟨hM s hs, 1, ?_⟩, fun s hs => absurd hs (Set.notMem_empty s),
      fun h hno => if_neg fun ⟨s, hs, he⟩ => hno s hs he⟩⟩
  refine (if_pos ⟨s, hM s hs, rfl⟩).trans ?_
  rw [hinj.leftInvOn_invFunOn (hM s hs)]

/-- What is read from a trie does not depend on the tree that it stands for. -/
lemma Stands.lookup_of {K : Keeper MemoryDB sha3 W} {t : GenericTrieDB MemoryDB} {m m' : Node}
    (h : Stands K t m) (h' : Stands K t m') {k v : Bytes} (hv : m.lookup (nibbles k) = some v) :
    m'.lookup (nibbles k) = some v := by
  obtain ⟨hlen, -, hne⟩ := h.small _ v hv
  rw [HexPrefix.length_nibbles] at hlen
  have hkey : k.length < 2 ^ 30 := by omega
  have hread := (at_on K h hkey le_rfl).symm.trans (at_on K h' hkey le_rfl)
  cases hv' : m'.lookup (nibbles k) with
  | none => exact absurd (by simpa [hv, hv'] using hread) hne
  | some w => simp_all

/-- **The root binds the entries.** Two runs end with the same root exactly if they leave the same
entries, where `sha3` has no collision among the nodes that they write.

**Proof sketch.** A database with all of these nodes holds both trees under a common root. -/
theorem root_eq_iff {ops' : List TrieOp} (hS : PrefixFree S)
    (hkeys : ∀ op ∈ ops ++ ops', op.key ∈ S) (hsmall : ∀ op ∈ ops ++ ops', op.Small)
    (hfuel : 2 ^ 31 + 5 ≤ fuel)
    (hinj : Set.InjOn sha3 (writtenSet ((TrieOp.run sha3 fuel ops).on fresh).2 ∪
      writtenSet ((TrieOp.run sha3 fuel ops').on fresh).2)) :
    ∃ t t', (TrieOp.run sha3 fuel ops).on fresh = (.ok (), t) ∧
      (TrieOp.run sha3 fuel ops').on fresh = (.ok (), t') ∧
      (t.m_root = t'.m_root ↔ ∀ k, TrieOp.contents ops k = TrieOp.contents ops' k) := by
  have hruns {p : List TrieOp} (hp : p ⊆ ops ++ ops') :=
    @memory_run sha3 S _ ∅ p fuel hinj hS (fun op hop => hkeys op (hp hop))
      (fun op hop => hsmall op (hp hop)) hfuel fun _ _ _ _ => allows_uncounted hinj _ _
  obtain ⟨t, hon, h⟩ := hruns (subset_append_left _ _) Set.subset_union_left
  obtain ⟨t', hon', h'⟩ := hruns (subset_append_right _ _) Set.subset_union_right
  refine ⟨t, t', hon, hon', fun hroot k => Option.ext fun v => ?_, fun hsame => ?_⟩
  · obtain ⟨db, hdb⟩ := exists_counts hinj
    have hboth {m : Node} {u : GenericTrieDB MemoryDB} (hu : u.m_root = t'.m_root)
        (h : Stands (MemoryDB.keeper hinj ∅ Set.univ) u m) :
        Stands (MemoryDB.keeper hinj ∅ Set.univ) { m_db := db, m_root := t'.m_root } m :=
      ⟨h.canon, h.small, hu ▸ h.root, hdb _ fun s hs => (h.holds.entry s hs).1⟩
    rw [← lookup_treeOf, ← lookup_treeOf]
    exact ⟨(hboth hroot h).lookup_of (hboth rfl h'), (hboth rfl h').lookup_of (hboth hroot h)⟩
  · have hspec := @rlp256_spec sha3 _ h.canon h.small _
      (represents_treeOf (TrieOp.getElem?_present ops)) fuel (by omega)
    rw [rlp256_spec h'.canon h'.small (represents_treeOf fun k =>
      (TrieOp.getElem?_present ops k).trans (hsame k)) (by omega)] at hspec
    rw [h.root, h'.root, Except.ok.inj hspec]

theorem root_eq_iff_three_steps :
    ∃ t t', (TrieOp.run shortHash (2 ^ 31 + 5) threeSteps).on fresh = (.ok (), t) ∧
      (TrieOp.run shortHash (2 ^ 31 + 5) [.insert [0x34] [2]]).on fresh = (.ok (), t') ∧
      (t.m_root = t'.m_root ↔
        ∀ k, TrieOp.contents threeSteps k = TrieOp.contents [.insert [0x34] [2]] k) := by
  have hall : ∀ l ∈ [((TrieOp.run shortHash (2 ^ 31 + 5) threeSteps).on fresh).2.written ++
      ((TrieOp.run shortHash (2 ^ 31 + 5) [.insert [0x34] [2]]).on fresh).2.written],
      ∀ s ∈ l, ∀ s' ∈ l, shortHash s = shortHash s' → s = s' := by decide +kernel
  exact root_eq_iff (prefixFree_length 1) (by decide) (by simp [TrieOp.Small]) le_rfl
    fun s hs s' hs' => hall _ (mem_singleton.mpr rfl) s (mem_append.mpr hs) s'
      (mem_append.mpr hs')

/-! ### Keys that are too long -/

/-- Removing one key of `2 ^ 31` bytes removes any other one. -/
lemma remove_long_run {k l : Bytes} (hk : k.length = 2 ^ 31) (hl : l.length = 2 ^ 31) :
    Runs (MemoryDB.keeper injOn_twoNodes ∅ twoNodes)
      (TrieOp.run twoHash (fuel + 1) [.insert k [1], .remove l]) fresh
      fun _ t => Stands (MemoryDB.keeper injOn_twoNodes ∅ twoNodes) t .nil := by
  set K := MemoryDB.keeper injOn_twoNodes ∅ twoNodes
  have hkill : ∀ B, K.KillOk B := fun _ s hs => absurd hs (Set.notMem_empty s)
  have hrun : (TrieOp.run twoHash (fuel + 1) [.insert k [1], .remove l] : TrieM MemoryDB Unit) =
      TrieOp.run twoHash (fuel + 1) [.insert k [1]] >>= fun _ =>
        GenericTrieDB.remove twoHash (fuel + 1) l := by
    simp only [TrieOp.run, TrieOp.calls, TrieOp.call, bind_assoc, bind_pure_unit]
  rw [hrun]
  have hempty : K.Holds fresh.m_db 0 := MemoryDB.Counts.empty
  refine (insert_long_run K rfl (hkill 1) hempty hk).bind fun _ t ht => ?_
  have hholds := ht.holds
  rw [stored_eq, below, add_zero] at hholds
  refine remove_runs_of K ht .nil (by intro x v hx; simp at hx) ?_ (fun _ => hkill _) (Or.inl rfl)
  rw [below, zero_add]
  refine deleteAt_leaf_runs K (ht.small.fits ht.canon) ?_ hholds (hkill _)
  rw [NibbleSlice.equal, NibbleSlice.shared, size_long hl]
  rfl

/-- The coding of a vector of `2 ^ 32` nibbles has none of them. -/
lemma hexPrefixEncodeVector_long {w : Bytes} (hw : w.length = 2 ^ 32) :
    hexPrefixEncodeVector w true (i32 0) = HexPrefix.encode true [] := by
  have hstop : u32 ((w.length : ℤ) + 1 + -1) = 0 := by
    rw [hw, u32]
    norm_num
  simp only [hexPrefixEncodeVector, hstop]
  rfl

lemma hash256_long {k : Bytes} (hk : k.length = 2 ^ 31) {s : BytesMap}
    (hs : ∀ l v, s[l]? = some v ↔ l = k ∧ v = [1]) :
    hash256 twoHash (fuel + 1) s = .ok (twoHash (enc twoHash (.leaf [] [1]))) := by
  have hlist : (hexMap s).toList = [(asNibbles k, [1])] := by
    refine Ascending.eq_singleton Std.TreeMap.ordered_keys_toList fun e => ?_
    rw [mem_hexMap_toList]
    constructor
    · rintro ⟨l, v, hl, rfl⟩
      obtain ⟨rfl, rfl⟩ := (hs l v).mp hl
      rfl
    · rintro rfl
      exact ⟨k, [1], (hs k [1]).mpr ⟨rfl, rfl⟩, rfl⟩
  have hempty : ¬ s.isEmpty = true := by
    intro hempty
    have hnone := Std.TreeMap.getElem?_of_isEmpty (a := k) hempty
    rw [(hs k [1]).mpr ⟨rfl, rfl⟩] at hnone
    simp at hnone
  have hlen : (asNibbles k).length = 2 ^ 32 := by
    rw [asNibbles_eq, length_hexes, HexPrefix.length_nibbles, hk]
    norm_num
  rw [hash256, rlp256, if_neg hempty, hlist, hash256rlp]
  dsimp only
  rw [Nat.cast_zero, hexPrefixEncodeVector_long hlen]
  rfl

/-- **With keys of `2 ^ 31` bytes the roots differ**: after one of them was inserted and another one
was removed the trie is empty, and the map has an entry. -/
theorem long_key_root_differs : ∃ (sha3 : Bytes → H256) (k l : Bytes),
    k.length = 2 ^ 31 ∧ l.length = 2 ^ 31 ∧ k ≠ l ∧ ∀ fuel, 2 ^ 31 + 5 ≤ fuel →
      ∃ t h, (TrieOp.run sha3 fuel [.insert k [1], .remove l]).on fresh = (.ok (), t) ∧
        Set.InjOn sha3 (writtenSet t) ∧
        hash256 sha3 fuel (TrieOp.present [.insert k [1], .remove l]) = .ok h ∧
        t.m_root ≠ h := by
  obtain ⟨k, l, hk, hl, hne⟩ := exists_two_keys (n := 2 ^ 31) (by norm_num)
  refine ⟨twoHash, k, l, hk, hl, hne, fun fuel hfuel => ?_⟩
  obtain _ | fuel := fuel
  · omega
  obtain ⟨⟨⟩, t, hon, hstands, hwritten⟩ :=
    (@remove_long_run fuel k l hk hl).returns_planned subset_rfl
  refine ⟨t, _, hon, injOn_twoNodes.mono fun s hs => ?_, hash256_long hk fun x v => ?_, ?_⟩
  · exact (hwritten s hs).resolve_right (not_mem_nil)
  · rw [TrieOp.getElem?_present]
    simp only [TrieOp.contents, TrieOp.edit, foldl_cons, foldl_nil,
      Function.update_apply]
    by_cases hx : x = k
    · subst hx
      simp [hne, eq_comm]
    · simp [hx]
  · rw [hstands.root]
    decide

end Trie

end Tos
