import Mathlib.Algebra.BigOperators.Pi
import Mathlib.Data.List.FinRange
import Mathlib.Data.List.Infix
import Tos.Storage.TrieMemory

/-!
# Reference counts

A node of the trie that is kept in the database may occur at several positions; the count of its
entry in a `MemoryDB` is the number of those positions. The positions are found by unfolding the
trie from its root. The counts have 32 bits, so this needs a bound on the number of positions of
a node.

## Main results

* `Trie.positions_on`: unfolding a trie that stands for a tree.
* `Trie.count_after_run`: after a run every count is the number of positions.
-/

namespace Tos

open Sdag (H256)
open List
open Method

namespace GenericTrieDB

variable {δ : Type} [NodeDB δ]

/-- The hashes from a child on: that of the child, if it is not in its parent, and those below. -/
def unfoldChild (walk : Bytes → TrieM δ (List H256)) (x : Bytes) : TrieM δ (List H256) :=
  if RLP.isEmpty x then return []
  else if RLP.isList x then walk x
  else do
    let h ← toHash x
    return h :: (← walk (← ofNode (← node h)))

/-- The hashes of the stored nodes below a node, once for every position. -/
def unfold : ℕ → Bytes → TrieM δ (List H256)
  | 0, _ => throw .diverges
  | fuel + 1, x =>
    if RLP.isEmpty x then return []
    else do
      if (← rlp (RLP.itemCount x)) = 2 then
        if ← isLeaf x then return []
        else unfoldChild (unfold fuel) (← item x 1)
      else
        (List.range 16).foldlM
          (fun hs i => do return hs ++ (← unfoldChild (unfold fuel) (← item x i))) []

/-- The hashes of the stored nodes of the unfolded trie. -/
def positions (fuel : ℕ) : TrieM δ (List H256) := do
  let root := (← get).m_root
  return root :: (← unfold fuel (← ofNode (← node root)))

end GenericTrieDB

namespace Trie

open Rlp (Item encode)

open GenericTrieDB hiding item insert

open Patricia.Node (Canon)

variable {δ : Type} [NodeDB δ] {sha3 : Bytes → H256} {t : GenericTrieDB δ} {fuel : ℕ}

/-! ### The stored nodes of a tree -/

/-- A node, if it is kept in the database. -/
def nodeSelf (sha3 : Bytes → H256) (n : Node) : List Bytes :=
  if (enc sha3 n).length < 32 then [] else [enc sha3 n]

/-- The nodes below a node that are kept in the database, once for every position. -/
def nodesBelow (sha3 : Bytes → H256) : Node → List Bytes
  | .nil => []
  | .leaf _ _ => []
  | .ext _ n => nodeSelf sha3 n ++ nodesBelow sha3 n
  | .branch c _ => (List.finRange 16).flatMap fun a => nodeSelf sha3 (c a) ++ nodesBelow sha3 (c a)

lemma count_nodeSelf (n : Node) (s : Bytes) : (nodeSelf sha3 n).count s = self sha3 n s := by
  rw [nodeSelf, self, kept]
  split_ifs
  · rfl
  · by_cases hs : s = enc sha3 n
    · subst hs
      rw [count_singleton_self, Pi.single_eq_same]
    · rw [Pi.single_eq_of_ne hs, count_eq_zero, mem_singleton]
      exact hs

lemma count_nodesBelow (n : Node) (s : Bytes) : (nodesBelow sha3 n).count s = below sha3 n s := by
  induction n with
  | nil => rfl
  | leaf k v => rfl
  | ext k n ih => rw [nodesBelow, below, count_append, count_nodeSelf, ih, Pi.add_apply]
  | branch c u ih =>
    rw [nodesBelow, below, count_flatMap, Finset.sum_apply, Fin.sum_univ_def]
    congr 1
    refine map_congr_left fun a _ => ?_
    rw [Function.comp_apply, count_append, count_nodeSelf, ih, Pi.add_apply]

/-! ### Unfolding -/

omit [NodeDB δ] in
/-- A loop that collects what every round gives. -/
lemma foldlM_append_on {α β : Type} {g : α → TrieM δ (List β)} {f : α → List β} (l : List α)
    (h : ∀ a ∈ l, (g a).on t = (.ok (f a), t)) (acc : List β) :
    (l.foldlM (fun hs a => do return hs ++ (← g a)) acc).on t = (.ok (acc ++ l.flatMap f), t) := by
  induction l generalizing acc with
  | nil => simp
  | cons a l ih =>
    have hround : (do return acc ++ (← g a) : TrieM δ (List β)).on t = (.ok (acc ++ f a), t) := by
      rw [on_bind_of_ok (h a mem_cons_self)]
      rfl
    rw [foldlM_cons, on_bind_of_ok hround,
      ih (fun b hb => h b (mem_cons_of_mem a hb)), flatMap_cons, append_assoc]

/-- Unfolding from a child on. -/
lemma unfoldChild_on {n : Node} (hn : Fits n) (hfound : Found sha3 t.m_db n)
    {walk : Bytes → TrieM δ (List H256)}
    (hwalk : n ≠ .nil → (walk (enc sha3 n)).on t = (.ok ((nodesBelow sha3 n).map sha3), t)) :
    (unfoldChild walk (encode (ref sha3 (item sha3 n)))).on t =
      (.ok ((nodeSelf sha3 n ++ nodesBelow sha3 n).map sha3), t) := by
  rw [unfoldChild]
  by_cases hnil : n = .nil
  · rw [if_pos (isEmpty_ref.mpr hnil), hnil, nodeSelf, enc_nil]
    rfl
  rw [if_neg fun h => hnil (isEmpty_ref.mp h), nodeSelf]
  by_cases hlt : (enc sha3 n).length < 32
  · rw [encode_ref_of_lt hlt, if_pos (isList_enc hnil hn), if_pos hlt]
    exact hwalk hnil
  · have hnode : (node (sha3 (enc sha3 n))).on t = (.ok (enc sha3 n), t) := by
      rw [node, on_get_bind, hfound.self hlt]
      rfl
    rw [encode_ref_of_ge hlt, isList_hash, if_neg (by simp), if_neg hlt,
      on_bind_of_ok (toHash_on _), on_bind_of_ok hnode,
      on_bind_of_ok (ofNode_enc_on hn), on_bind_of_ok (hwalk hnil)]
    rfl

/-- **Unfolding** the encoding of a tree gives the hashes of its stored nodes. -/
theorem unfold_on {m : Node} (hc : Canon m) (hs : Small m) (hfound : Found sha3 t.m_db m)
    (hpos : 0 < fuel) (hfuel : ∀ x, m.lookup x ≠ none → x.length < fuel) :
    (unfold fuel (enc sha3 m)).on t = (.ok ((nodesBelow sha3 m).map sha3), t) := by
  induction hc generalizing fuel with
  | nil =>
    obtain _ | fuel := fuel
    · omega
    rw [unfold, if_pos (by rw [enc_nil]; rfl)]
    rfl
  | leaf k v =>
    obtain _ | fuel := fuel
    · omega
    have hsize : (encode (pair true k (.data v))).length ≤ RLP.maxLength :=
      @length_enc_le sha3 _ (hs.fits (.leaf k v))
    have hempty : RLP.isEmpty (enc sha3 (.leaf k v)) = false := isEmpty_pair hsize
    rw [unfold, if_neg (by rw [hempty]; simp)]
    refine (on_bind_of_ok (rlp_on (itemCount_pair hsize))).trans ?_
    rw [if_pos rfl]
    exact (on_bind_of_ok (isLeaf_on hsize)).trans rfl
  | @ext k c u hk hn ih =>
    obtain _ | fuel := fuel
    · omega
    have hfits := hs.fits (.ext hk hn)
    have hpos' := length_pos_iff.mpr hk
    have hsize := hfits.length_ext_le sha3
    have hempty : RLP.isEmpty (enc sha3 (.ext k (.branch c u))) = false := isEmpty_pair hsize
    have hdepth : ∀ x, (Patricia.Node.branch c u).lookup x ≠ none → x.length < fuel := by
      intro x hx
      have := hfuel (k ++ x) (by
        rwa [Patricia.Node.lookup_ext_append])
      rw [length_append] at this
      omega
    obtain ⟨x, hx⟩ := hn.exists_lookup (by simp)
    have hchild := unfoldChild_on hfits.2 hfound.ext fun _ =>
      ih hs.ext hfound.ext (Nat.zero_lt_of_lt (hdepth x hx)) hdepth
    rw [unfold, if_neg (by rw [hempty]; simp)]
    refine (on_bind_of_ok (rlp_on (itemCount_pair hsize))).trans ?_
    rw [if_pos rfl]
    refine (on_bind_of_ok (isLeaf_on hsize)).trans ?_
    rw [if_neg (by simp)]
    exact (on_bind_of_ok (item_one_on hsize)).trans hchild
  | @branch c u hc hu ih =>
    obtain _ | fuel := fuel
    · omega
    have hfits := hs.fits (.branch hc hu)
    have hsize := hfits.length_branch_le sha3
    have hempty : RLP.isEmpty (enc sha3 (.branch c u)) = false := isEmpty_places hsize
    have hround : ∀ a ∈ List.finRange 16, (GenericTrieDB.item (enc sha3 (.branch c u)) a >>=
        unfoldChild (unfold fuel) : TrieM δ (List H256)).on t =
        (.ok ((nodeSelf sha3 (c a) ++ nodesBelow sha3 (c a)).map sha3), t) := by
      intro a _
      have hdepth : ∀ x, (c a).lookup x ≠ none → x.length < fuel := by
        intro x hx
        have := hfuel (a :: x) hx
        rw [length_cons] at this
        omega
      refine (on_bind_of_ok (item_place_on hsize a)).trans
        (unfoldChild_on (hfits.1 a) (hfound.child a) fun hne => ?_)
      obtain ⟨x, hx⟩ := (hc a).exists_lookup hne
      exact ih a (hs.child a) (hfound.child a) (Nat.zero_lt_of_lt (hdepth x hx)) hdepth
    rw [unfold, if_neg (by rw [hempty]; simp)]
    refine (on_bind_of_ok (rlp_on (itemCount_places hsize))).trans ?_
    rw [if_neg (by norm_num), ← map_coe_finRange_eq_range, foldlM_map]
    have hloop := foldlM_append_on (List.finRange 16) hround []
    simp only [bind_assoc] at hloop
    rw [nodesBelow, map_flatMap]
    exact hloop

/-! ### Counts -/

/-- The stored nodes of a trie, once for every position. -/
def nodes (sha3 : Bytes → H256) (m : Node) : List Bytes := enc sha3 m :: nodesBelow sha3 m

lemma count_nodes (m : Node) (s : Bytes) : (nodes sha3 m).count s = stored sha3 m s := by
  rw [nodes, count_cons, count_nodesBelow, stored, Pi.add_apply, Pi.single_apply, Nat.add_comm]
  simp only [beq_iff_eq, @eq_comm _ s]

lemma mem_nodes {m : Node} {s : Bytes} : s ∈ nodes sha3 m ↔ 0 < stored sha3 m s := by
  rw [← count_nodes, count_pos_iff]

/-- **Unfolding a trie** that stands for a tree gives the hashes of the stored nodes. -/
theorem positions_on {W : Set Bytes} (K : Keeper δ sha3 W) {m : Node} (h : Stands K t m)
    (hfuel : 2 ^ 31 ≤ fuel) : (positions fuel).on t = (.ok ((nodes sha3 m).map sha3), t) := by
  have hholds := h.holds
  rw [stored_eq] at hholds
  have hunfold : (unfold fuel (enc sha3 m)).on t = (.ok ((nodesBelow sha3 m).map sha3), t) := by
    refine unfold_on h.canon h.small (K.found hholds) (by omega) fun x hx => ?_
    obtain ⟨v, hv⟩ := Option.ne_none_iff_exists'.mp hx
    have := (h.small x v hv).1
    omega
  rw [positions, on_get_bind, on_bind_of_ok (h.node_on K),
    on_bind_of_ok (ofNode_enc_on (h.small.fits h.canon)), on_bind_of_ok hunfold,
    h.root]
  rfl

lemma count_map_of_injOn {W : Set Bytes} (hinj : Set.InjOn sha3 W) {l : List Bytes}
    (hl : ∀ x ∈ l, x ∈ W) {s : Bytes} (hs : s ∈ W) : (l.map sha3).count (sha3 s) = l.count s := by
  induction l with
  | nil => rfl
  | cons x l ih =>
    obtain ⟨hx, hl⟩ := forall_mem_cons.mp hl
    rw [map_cons, count_cons, count_cons, ih hl]
    simp only [beq_iff_eq, hinj.eq_iff hx hs]

variable {W S : Set Bytes} {ops : List TrieOp}

/-- In a database that counts all nodes, the count of a hash is the number of its positions. -/
lemma count_eq_positions (hinj : Set.InjOn sha3 W) {V : Set Bytes} {t : GenericTrieDB MemoryDB}
    {m : Node} (h : Stands (MemoryDB.keeper hinj Set.univ V) t m)
    (hfew : ∀ s, stored sha3 m s < 2 ^ 32) (k : H256) :
    (t.m_db.count k).toNat = ((nodes sha3 m).map sha3).count k := by
  have hW : ∀ s ∈ nodes sha3 m, s ∈ W := fun s hs => (h.holds.entry s (mem_nodes.mp hs)).1
  by_cases hk : ∃ s ∈ W, sha3 s = k
  · obtain ⟨s, hs, rfl⟩ := hk
    rw [h.holds.count s trivial hs, Nat.mod_eq_of_lt (hfew s), count_map_of_injOn hinj hW hs,
      count_nodes]
  · have hnone : ∀ s ∈ W, sha3 s ≠ k := fun s hs e => hk ⟨s, hs, e⟩
    have hentry : t.m_db.m_main k = none := h.holds.only k hnone
    rw [MemoryDB.count, hentry, count_eq_zero.mpr]
    · rfl
    · intro hmem
      obtain ⟨s, hs, e⟩ := mem_map.mp hmem
      exact hnone s (hW s hs) e

/-- **Reference counts.** After every operation of a run the count of each hash is the number of
positions at which the node with that hash is stored in the unfolded trie, as long as no node has
`2 ^ 31` positions. Keys are shorter than `2 ^ 30` bytes and values shorter than `2 ^ 62` bytes.

**Proof sketch.** Looking up does not depend on the counts, so a trie stands for its tree whatever
they are, and the positions are those of the tree. With this bound on them the database can be
taken to count all nodes. -/
theorem count_after_run (hS : PrefixFree S) (hlong : ∀ k ∈ S, k.length < 2 ^ 30)
    (hkeys : ∀ op ∈ ops, op.key ∈ S)
    (hvalues : ∀ k v, TrieOp.insert k v ∈ ops → v ≠ [] ∧ v.length < 2 ^ 62)
    (hfuel : 2 ^ 31 + 5 ≤ fuel)
    (hinj : Set.InjOn sha3 (writtenSet ((TrieOp.run sha3 fuel ops).on fresh).2))
    (hfew : ∀ pre t hs, pre <+: ops → (TrieOp.run sha3 fuel pre).on fresh = (.ok (), t) →
      (positions fuel).on t = (.ok hs, t) → ∀ h, hs.count h < 2 ^ 31) :
    ∀ pre, pre <+: ops → ∃ t hs, (TrieOp.run sha3 fuel pre).on fresh = (.ok (), t) ∧
      (positions fuel).on t = (.ok hs, t) ∧ ∀ h, (t.m_db.count h).toNat = hs.count h := by
  have hbound : ∀ pre, pre <+: ops → ∀ s, stored sha3 (treeOf pre) s < 2 ^ 31 := by
    intro pre hpre s
    obtain ⟨t, hon, hstands⟩ := run_stands hS hlong hkeys hvalues hfuel hinj hpre
    have hlt := hfew pre t _ hpre hon (positions_on _ hstands (by omega)) (sha3 s)
    rw [← count_nodes]
    exact (count_le_count_map ..).trans_lt hlt
  intro pre hpre
  have hallows : ∀ p op q, pre = p ++ op :: q →
      Allows (MemoryDB.keeper hinj Set.univ Set.univ) (treeOf p) op := by
    rintro p op q rfl
    refine allows_of_few _ (fun B hB s _ => hB s) (fun s => Set.mem_univ s)
      (hbound p ((prefix_append _ _).trans hpre)) ?_
    have hnext : act (treeOf p) op = treeOf (p ++ [op]) := by simp [treeOf]
    rw [hnext]
    refine hbound _ (List.IsPrefix.trans ?_ hpre)
    exact ⟨q, by simp⟩
  obtain ⟨t, hon, hstands⟩ := memory_run hinj hS (fun op hop => hkeys op (hpre.subset hop))
    (small_of_mem hlong hkeys hvalues hpre) hfuel hallows (writtenSet_run_subset hpre fresh)
  refine ⟨t, _, hon, positions_on _ hstands (by omega), fun h => ?_⟩
  exact count_eq_positions hinj hstands (fun s => (hbound pre hpre s).trans (by norm_num)) h

lemma few_three_steps : ∀ pre t hs, pre <+: threeSteps →
      (TrieOp.run shortHash (2 ^ 31 + 5) pre).on fresh = (.ok (), t) →
      (positions (2 ^ 31 + 5)).on t = (.ok hs, t) → ∀ h, hs.count h < 2 ^ 31 := by
  intro pre t hs hpre hrun hhs h
  have hall : ∀ pre ∈ threeSteps.inits,
      ((((positions (2 ^ 31 + 5)).on ((TrieOp.run shortHash (2 ^ 31 + 5) pre).on fresh).2).1).map
        List.length).toOption.getD 0 < 2 ^ 31 := by decide +kernel
  have hlen := hall pre ((mem_inits _ _).mpr hpre)
  rw [hrun, hhs] at hlen
  exact count_le_length.trans_lt hlen

theorem count_after_run_three_steps :
    ∃ t hs, (TrieOp.run shortHash (2 ^ 31 + 5) threeSteps).on fresh = (.ok (), t) ∧
      (positions (2 ^ 31 + 5)).on t = (.ok hs, t) ∧
      ∀ h, (t.m_db.count h).toNat = hs.count h :=
  count_after_run (prefixFree_length 1) (by rintro k (hk : k.length = 1); omega) (by decide)
    values_three_steps le_rfl injOn_three_steps few_three_steps _ prefix_rfl

end Trie

end Tos
