import Tos.Sdag.PoolStructure

/-!
# A pool that is started again

A new `BlockMemPool` over the storage of an old one starts with empty maps. `isOrphan` asks that a
link is in `m_blocks` and in the storage, so that the blocks of the old pool are orphans for the new
one, until they are added or looked up again. A block is classified in the same way as without the
restart only if it does not need them.

## Main results

* `transparent_of_inOrder`: blocks that come behind all their links
  since the restart.
* `transparent_iff`: the arrivals of blocks, each once, for which the
  restart makes no difference.
-/

namespace Tos.Sdag.Wire.BlockMemPool

open Arrival (InOrder Link Settles notMem_of_nodup settles_append_iff settles_append_left
  settles_concat)
open List
open Wire.Block (hash)

/-- A new pool over the same storage. -/
def restart (pool : BlockMemPool) : BlockMemPool := { m_blockStorage := pool.m_blockStorage }

variable (sha3 : Bytes → H256)

/-- The pool after the blocks `l` have arrived. -/
def after (pool : BlockMemPool) (l : List Block) : BlockMemPool := ((addAll sha3 l).on pool).2

/-- Every ancestor of the block has been accepted by the pool. -/
def AncestorsIn (l : List Block) (pool : BlockMemPool) (b : Block) : Prop :=
  ∀ y, Relation.TransGen (Link (hash sha3) linkHashes l) (b.hash sha3) y →
    y ∈ keys pool.m_blocks

/-- The blocks `pre` and `post` are added to one pool, or a new pool over the same storage takes its
place between them. A block of `post` whose ancestors were all accepted before is then classified in
the same way, and the keys in the storage are the same in the end. -/
structure Transparent (pre post : List Block) : Prop where
  classes : ∀ q b r, post = q ++ b :: r →
    AncestorsIn sha3 (pre ++ post) (after sha3 {} pre) b →
    (after sha3 {} (pre ++ q)).rejects b = (after sha3 (after sha3 {} pre).restart q).rejects b
  storage : keys (after sha3 {} (pre ++ post)).m_blockStorage =
    keys (after sha3 (after sha3 {} pre).restart post).m_blockStorage

variable {sha3}

/-! ### Runs -/

/-- Arrivals of blocks with a hash always return. -/
lemma addAll_on {l : List Block} (hb : ∀ b ∈ l, Hashable sha3 b) (pool : BlockMemPool) :
    (addAll sha3 l).on pool = (.ok (), after sha3 pool l) := by
  induction l using List.reverseRecOn with
  | nil => rfl
  | append_singleton l b ih =>
    have ih' := ih fun c hc => hb c (mem_append_left _ hc)
    obtain ⟨pool', hon, -⟩ := add_on (hb b (by simp)) (after sha3 pool l)
    have hconcat := addAll_concat_on ih' b
    rw [after, hconcat, hon]

lemma after_concat {l : List Block} (hb : ∀ b ∈ l, Hashable sha3 b) (pool : BlockMemPool)
    (b : Block) : after sha3 pool (l ++ [b]) = ((add sha3 (some b)).on (after sha3 pool l)).2 := by
  rw [after, addAll_concat_on (addAll_on hb pool) b]

/-- The keys after arrivals of blocks that are all accepted. -/
structure Took (sha3 : Bytes → H256) (pool pool' : BlockMemPool) (l : List Block) : Prop where
  blocks : keys pool'.m_blocks = keys pool.m_blocks ∪ {h | h ∈ l.map (hash sha3)}
  storage : keys pool'.m_blockStorage =
    keys pool.m_blockStorage ∪ (fun h => toSlice h) '' {h | h ∈ l.map (hash sha3)}
  orphans : keys pool'.m_orphanBlocks = keys pool.m_orphanBlocks

/-- **Blocks that come behind all their links** are accepted, if none of them has been left as an
orphan before. -/
lemma took_of_inOrder {pool : BlockMemPool} {l : List Block} (hb : ∀ b ∈ l, Hashable sha3 b)
    (horder : InOrder (hash sha3) linkHashes l)
    (horphans : ∀ b ∈ l, b.hash sha3 ∉ keys pool.m_orphanBlocks) :
    Took sha3 pool (after sha3 pool l) l ∧
      ∀ q b r, l = q ++ b :: r → (after sha3 pool q).rejects b = false := by
  induction l using List.reverseRecOn with
  | nil => exact ⟨⟨by simp [after, addAll], by simp [after, addAll], rfl⟩, by simp⟩
  | append_singleton l b ih =>
    have hbl : ∀ c ∈ l, Hashable sha3 c := fun c hc => hb c (mem_append_left _ hc)
    have horder' : InOrder (hash sha3) linkHashes l := by
      rintro pre c post rfl
      exact horder pre c (post ++ [b]) (by simp)
    obtain ⟨htook, hsplit⟩ := ih hbl horder' fun c hc => horphans c (mem_append_left _ hc)
    -- every link of the block is there
    have haccept : (after sha3 pool l).rejects b = false := by
      refine List.any_eq_false.mpr fun k hk => ?_
      have hmem := horder l b [] rfl k.blockHash (mem_map_of_mem hk)
      obtain ⟨c, hc, hck⟩ := List.mem_map.mp hmem
      have h1 : k.blockHash ∈ keys (after sha3 pool l).m_blocks := by
        rw [htook.blocks]
        exact Or.inr hmem
      have h2 : toSlice k.blockHash ∈ keys (after sha3 pool l).m_blockStorage := by
        rw [htook.storage]
        exact Or.inr ⟨_, hmem, rfl⟩
      have h3 : k.blockHash ∉ keys (after sha3 pool l).m_orphanBlocks := by
        rw [htook.orphans, ← hck]
        exact horphans c (mem_append_left _ hc)
      rw [mem_keys] at h1 h2 h3
      simp [isOrphan, h1, h2, h3, Option.isNone_iff_eq_none, ← Option.isSome_iff_ne_none]
    obtain ⟨b', -, hon⟩ := add_on_accepted (hb b (by simp)) haccept
    have hafter := after_concat hbl pool b
    rw [hon] at hafter
    have hmap : {h | h ∈ (l ++ [b]).map (hash sha3)} =
        insert (b.hash sha3) {h | h ∈ l.map (hash sha3)} := by
      ext x
      simp [or_comm]
    have hblocks : keys ((after sha3 pool l).setBlock (b.hash sha3) b').m_blocks =
        insert (b.hash sha3) (keys (after sha3 pool l).m_blocks) := keys_update _ _ _
    have hstorage : keys (((after sha3 pool l).setBlock (b.hash sha3) b').store
        (toSlice (b.hash sha3)) b.bytes).m_blockStorage =
        insert (toSlice (b.hash sha3)) (keys (after sha3 pool l).m_blockStorage) :=
      keys_update _ _ _
    refine ⟨⟨?_, ?_, ?_⟩, ?_⟩
    · rw [hafter, hmap, Set.union_insert, ← htook.blocks]
      exact hblocks
    · rw [hafter, hstorage, hmap, Set.image_insert_eq, Set.union_insert, ← htook.storage]
    · rw [hafter, ← htook.orphans]
      rfl
    · intro q c r hq
      rcases eq_nil_or_concat r with rfl | ⟨r, d, rfl⟩
      · obtain ⟨rfl, hc⟩ := append_inj' hq rfl
        obtain rfl : b = c := head_eq_of_cons_eq hc
        exact haccept
      · rw [concat_eq_append, ← cons_append, ← append_assoc] at hq
        exact hsplit q c r (append_inj' hq rfl).1

/-! ### What a restart changes -/

/-- **A restart is not seen by blocks that come behind all their links since then**, if none of them
had been left as an orphan. -/
lemma transparent_of_inOrder {pre post : List Block} (hb : ∀ b ∈ pre ++ post, Hashable sha3 b)
    (horder : InOrder (hash sha3) linkHashes post)
    (horphans : ∀ b ∈ post, b.hash sha3 ∉ keys (after sha3 {} pre).m_orphanBlocks) :
    Transparent sha3 pre post := by
  have hpre : ∀ b ∈ pre, Hashable sha3 b := fun b h => hb b (mem_append_left _ h)
  have hpost : ∀ b ∈ post, Hashable sha3 b := fun b h => hb b (mem_append_right _ h)
  have happ : ∀ q : List Block, after sha3 {} (pre ++ q) = after sha3 (after sha3 {} pre) q := by
    intro q
    have hforM : addAll sha3 (pre ++ q) = addAll sha3 pre >>= fun _ => addAll sha3 q :=
      forM_append
    rw [after, hforM, Method.on_bind_of_ok (addAll_on hpre {})]
    rfl
  have hnone : ∀ b ∈ post, b.hash sha3 ∉ keys (after sha3 {} pre).restart.m_orphanBlocks := by
    intro b _ h
    simp [restart, keys] at h
  obtain ⟨htook, hsplit⟩ := took_of_inOrder hpost horder horphans
  obtain ⟨htook', hsplit'⟩ := took_of_inOrder hpost horder hnone
  refine ⟨fun q b r hq _ => ?_, ?_⟩
  · rw [happ, hsplit q b r hq, hsplit' q b r hq]
  · rw [happ, htook.storage, htook'.storage]
    rfl

/-- The keys after arrivals over a storage, each block once. -/
lemma holdsOver_after (storage : Bytes → Option Bytes) {l : List Block}
    (hb : ∀ b ∈ l, Hashable sha3 b) (hnd : (l.map (hash sha3)).Nodup) :
    HoldsOver sha3 (keys storage) l (after sha3 { m_blockStorage := storage } l) := by
  obtain ⟨pool, hon, h⟩ := holdsOver_addAll storage l hb hnd
  rwa [after, hon]

section Once

variable {pre post : List Block} (hb : ∀ b ∈ pre ++ post, Hashable sha3 b)
  (hnd : ((pre ++ post).map (hash sha3)).Nodup)
include hb hnd

/-- The keys of the storage with and without the restart, by what settles. -/
lemma storage_after :
    keys (after sha3 {} (pre ++ post)).m_blockStorage = (fun h => toSlice h) ''
        {h | Settles (hash sha3) linkHashes (pre ++ post) h} ∧
      keys (after sha3 (after sha3 {} pre).restart post).m_blockStorage = (fun h => toSlice h) ''
        {h | Settles (hash sha3) linkHashes pre h ∨
          Settles (hash sha3) linkHashes post h} := by
  have hempty : keys (fun _ => none : Bytes → Option Bytes) = ∅ := by
    ext x
    simp [keys]
  rw [map_append] at hnd
  have hall := holdsOver_after (fun _ => none) hb (by rwa [map_append])
  have hpre := holdsOver_after (fun _ => none)
    (fun b h => hb b (mem_append_left _ h)) hnd.of_append_left
  have hpost := holdsOver_after (after sha3 {} pre).m_blockStorage
    (fun b h => hb b (mem_append_right _ h)) (List.nodup_append.mp hnd).2.1
  rw [hempty] at hall hpre
  refine ⟨Holds.storage_eq hall, ?_⟩
  rw [show after sha3 (after sha3 {} pre).restart post = _ from rfl, restart, hpost.storage]
  rw [show keys (after sha3 {} pre).m_blockStorage = _ from Holds.storage_eq hpre,
    ← Set.image_union]
  rfl

omit hb in
/-- A block whose links have settled before it arrives settles. -/
lemma settles_of_links {q r : List Block} {b : Block} (hq : post = q ++ b :: r)
    (hlinks : ∀ y ∈ linkHashes b, Settles (hash sha3) linkHashes pre y) :
    Settles (hash sha3) linkHashes (pre ++ post) (b.hash sha3) := by
  have hsplit : pre ++ post = pre ++ q ++ [b] ++ r := by simp [hq]
  rw [hsplit] at hnd ⊢
  have hnd₁ : ((pre ++ q ++ [b]).map (hash sha3)).Nodup := by
    rw [map_append] at hnd
    exact hnd.of_append_left
  have hnd₂ : ((pre ++ q).map (hash sha3)).Nodup := by
    rw [map_append] at hnd₁
    exact hnd₁.of_append_left
  rw [settles_append_left hnd (by simp), settles_concat hnd₁]
  exact Or.inr ⟨rfl, fun y hy => (settles_append_left hnd₂ (hlinks y hy).1).mpr (hlinks y hy)⟩

/-- The restart makes no difference exactly when the later blocks settle without the earlier
ones. -/
lemma transparent_iff_settles : Transparent sha3 pre post ↔
    ∀ b ∈ post, Settles (hash sha3) linkHashes (pre ++ post) (b.hash sha3) →
      ∀ y ∈ linkHashes b, ¬ Settles (hash sha3) linkHashes pre y := by
  obtain ⟨hall, hrestart⟩ := storage_after hb hnd
  rw [← settles_append_iff hnd]
  constructor
  · intro ht x hx hset
    -- a later block that is stored without the restart is stored with it
    have hmem : toSlice x ∈ keys (after sha3 (after sha3 {} pre).restart post).m_blockStorage := by
      rw [← ht.storage, hall]
      exact ⟨x, hset, rfl⟩
    rw [hrestart] at hmem
    obtain ⟨x', hx', e⟩ := hmem
    obtain rfl := toSlice_injective e
    exact hx'.resolve_left fun h => notMem_of_nodup hnd hx h.1
  · intro hsettles
    refine ⟨fun q b r hq hanc => ?_, ?_⟩
    · have hnd' : ((pre ++ post).map (hash sha3)).Nodup := hnd
      have hmem : b ∈ post := by simp [hq]
      have hpreNd : (pre.map (hash sha3)).Nodup := by
        rw [map_append] at hnd
        exact hnd.of_append_left
      -- the links of the block have settled before the restart
      have hlinks : ∀ y ∈ linkHashes b, Settles (hash sha3) linkHashes pre y := by
        intro y hy
        have hkey := hanc y (.single ⟨b, mem_append_right _ hmem, rfl, hy⟩)
        have hpre := holdsOver_after (fun _ => none)
          (fun c h => hb c (mem_append_left _ h)) hpreNd
        rwa [show keys (after sha3 {} pre).m_blocks = _ from hpre.blocks] at hkey
      -- so it settles without the restart, and then it has none
      have hset := settles_of_links hnd' hq hlinks
      have hpost := hsettles _ (mem_map_of_mem hmem) hset
      have hnone : b.m_links = [] := by
        by_contra hne
        obtain ⟨l, hl⟩ := exists_mem_of_ne_nil _ hne
        have hy : l.blockHash ∈ linkHashes b := mem_map_of_mem hl
        exact notMem_of_nodup hnd' (hpost.dep hmem hy).1 (hlinks _ hy).1
      simp [rejects, hnone]
    · rw [hall, hrestart]
      congr 1
      ext x
      constructor
      · intro hx
        have hmem := hx.1
        rw [map_append, mem_append] at hmem
        rcases hmem with hmem | hmem
        · exact Or.inl ((settles_append_left hnd hmem).mp hx)
        · exact Or.inr (hsettles x hmem hx)
      · rintro (hx | hx)
        · exact (settles_append_left hnd hx.1).mpr hx
        · exact hx.append_right hnd

end Once

/-- **When a restart makes no difference.** For blocks that arrive in any order, some perhaps more
than once: it makes none if each block after the restart comes behind a new arrival of every block
it links to, and none of them had been left as an orphan. And for blocks that arrive once each it
makes none exactly when no block that settles after the point of the restart links to a block that
had settled before it. -/
theorem transparent_iff (sha3 : Bytes → H256) (pre post : List Block)
    (hb : ∀ b ∈ pre ++ post, Hashable sha3 b) :
    (InOrder (Block.hash sha3) linkHashes post →
      (∀ b ∈ post, b.hash sha3 ∉ keys (after sha3 {} pre).m_orphanBlocks) →
      Transparent sha3 pre post) ∧
    (((pre ++ post).map (Block.hash sha3)).Nodup →
      (Transparent sha3 pre post ↔
        ∀ b ∈ post, Settles (Block.hash sha3) linkHashes (pre ++ post) (b.hash sha3) →
          ∀ y ∈ linkHashes b, ¬ Settles (Block.hash sha3) linkHashes pre y)) :=
  ⟨fun horder horphans => transparent_of_inOrder hb horder horphans,
    fun hnd => transparent_iff_settles hb hnd⟩

/-! ### A child behind the restart -/

/-- A restart between a parent and its child makes a difference, and one between a child and its
parent makes none. -/
theorem transparent_iff_childBlock :
    ¬ Transparent lengthHash [plainBlock] [childBlock] ∧
      Transparent lengthHash [childBlock] [plainBlock] := by
  constructor
  · rw [(transparent_iff lengthHash [plainBlock] [childBlock]
      (by simpa using ⟨hashable_plainBlock, hashable_childBlock⟩)).2 (by simp [hash_ne.symm])]
    have hplain : Settles (Block.hash lengthHash) linkHashes [plainBlock]
        (plainBlock.hash lengthHash) :=
      (settles_concat (l := []) (by simp)).mpr (Or.inr ⟨rfl, by simp [linkHashes, plainBlock]⟩)
    have hlinks : linkHashes childBlock = [plainBlock.hash lengthHash] := rfl
    have hchild : Settles (Block.hash lengthHash) linkHashes [plainBlock, childBlock]
        (childBlock.hash lengthHash) :=
      (settles_concat (l := [plainBlock]) (by simp [hash_ne.symm])).mpr
        (Or.inr ⟨rfl, by simpa [hlinks] using hplain⟩)
    intro h
    exact h childBlock (by simp) hchild _ (by simp [hlinks]) hplain
  · rw [(transparent_iff lengthHash [childBlock] [plainBlock]
      (by simpa using ⟨hashable_childBlock, hashable_plainBlock⟩)).2 (by simp [hash_ne])]
    simp [linkHashes, plainBlock]

/-- The child of a parent that was accepted before the restart is accepted without it, and is an
orphan with it. -/
theorem childBlock_restarted :
    AncestorsIn lengthHash [plainBlock, childBlock] (after lengthHash {} [plainBlock]) childBlock ∧
      (after lengthHash {} [plainBlock]).rejects childBlock = false ∧
      (after lengthHash {} [plainBlock]).restart.rejects childBlock = true ∧
      toSlice (childBlock.hash lengthHash) ∈
        keys (after lengthHash {} [plainBlock, childBlock]).m_blockStorage ∧
      toSlice (childBlock.hash lengthHash) ∉
        keys (after lengthHash (after lengthHash {} [plainBlock]).restart
          [childBlock]).m_blockStorage := by
  have hlink : ∀ x y, Link (Block.hash lengthHash) linkHashes [plainBlock, childBlock] x y →
      x = childBlock.hash lengthHash ∧ y = plainBlock.hash lengthHash := by
    rintro x y ⟨b, hb, rfl, hy⟩
    rcases List.mem_pair.mp hb with rfl | rfl
    · cases hy
    · exact ⟨rfl, List.mem_singleton.mp hy⟩
  refine ⟨fun y hy => ?_, by decide +kernel, by decide +kernel, ?_, ?_⟩
  · obtain rfl : y = plainBlock.hash lengthHash := by
      induction hy with
      | single h => exact (hlink _ _ h).2
      | tail _ h _ => exact (hlink _ _ h).2
    change (Option.isSome _) = true
    decide +kernel
  · change (Option.isSome _) = true
    decide +kernel
  · change ¬ (Option.isSome _) = true
    decide +kernel

end Tos.Sdag.Wire.BlockMemPool
