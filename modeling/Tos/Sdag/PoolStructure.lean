import Tos.Sdag.BlockStorage

/-!
# The structure of the pool

The maps of `BlockMemPool` are meant to be apart: `m_orphanBlocks` is the set of orphans and
`m_blocks` the set of the others. `BlockMemPool::add` decides anew for each block and writes to one
of the maps without a look at the other. So a block ends up in both when it is added again and the
decision has changed in the meantime: an orphan whose links have been accepted, or a block that
`BlockMemPool::get` has loaded from the storage and whose links it has not. As long as no block is
added like this, the maps stay apart, and every block in `m_blocks` is in the storage and has its
links there or in `m_blocks`.

## Main results

* `BlockMemPool.structured_of_reached`: all sequences of calls.

## Implementation notes

`get` makes a loaded block with the constructor `Block(bytesConstRef)`, whose body calls a method
that the class does not have (`encode` with an argument). It is a parameter here. All that is asked
of it is that a block made from the encoding of another one has no links that the other one has
not; `Block::decode`, which the constructor `Block(bytes)` uses, is like this
(`reads_decode`).
-/

namespace Tos.Sdag.Wire

/-- `BlockMemPool::get`, with the constructor that makes a block from stored bytes. -/
def BlockMemPool.get (load : Bytes → Except BlockError Block) (hash : H256) :
    PoolM (Option Block) := do
  let pool ← MonadState.get
  match pool.m_blocks hash, pool.m_orphanBlocks hash with
  | some b, _ => return some b
  | none, some b => return some b
  | none, none =>
    let enc := (pool.m_blockStorage (toSlice hash)).getD []
    if enc = [] then return none
    else
      match load enc with
      | .ok ret =>
        modify (setBlock hash ret)
        return some ret
      | .error e => throw e

namespace BlockMemPool

/-- A block made from the encoding of another one has no links that the other one has not. -/
def Reads (sha3 : Bytes → H256) (load : Bytes → Except BlockError Block) : Prop :=
  ∀ b c, Hashable sha3 b → b.m_payload.length < 2 ^ 63 → load b.bytes = .ok c →
    ∀ y ∈ linkHashes c, y ∈ linkHashes b

/-- Every block that can be made from the storage has its links there. -/
def Closed (load : Bytes → Except BlockError Block) (storage : Bytes → Option Bytes) : Prop :=
  ∀ h enc c, storage (toSlice h) = some enc → load enc = .ok c → ∀ y ∈ linkHashes c,
    toSlice y ∈ keys storage

/-- The two maps have no key in common; every block in `m_blocks` has its links there or in the
storage, and is in the storage. -/
structure Structured (pool : BlockMemPool) : Prop where
  apart : ∀ h, h ∈ keys pool.m_blocks → h ∉ keys pool.m_orphanBlocks
  links : ∀ h b, pool.m_blocks h = some b → ∀ y ∈ linkHashes b,
    y ∈ keys pool.m_blocks ∨ toSlice y ∈ keys pool.m_blockStorage
  stored : ∀ h ∈ keys pool.m_blocks, toSlice h ∈ keys pool.m_blockStorage

/-- The block has an orphan among its links. -/
def rejects (pool : BlockMemPool) (b : Block) : Bool :=
  b.m_links.any fun l => pool.isOrphan l.blockHash

/-- Adding the block does not contradict the pool: a block with an orphan among its links is not in
`m_blocks`, and a block without one is not in `m_orphanBlocks`. -/
def Agrees (sha3 : Bytes → H256) (pool : BlockMemPool) (b : Block) : Prop :=
  if pool.rejects b then b.hash sha3 ∉ keys pool.m_blocks
  else b.hash sha3 ∉ keys pool.m_orphanBlocks

/-- The pools that are reached from empty maps over a storage that is closed under links. -/
inductive Reached (sha3 : Bytes → H256) (load : Bytes → Except BlockError Block) :
    BlockMemPool → Prop where
  | start {storage : Bytes → Option Bytes} (h : Closed load storage) :
      Reached sha3 load { m_blockStorage := storage }
  | addNull {pool pool' : BlockMemPool} {r : Except BlockError Unit}
      (h : Reached sha3 load pool) (hon : (add sha3 none).on pool = (r, pool')) :
      Reached sha3 load pool'
  | add {pool pool' : BlockMemPool} {b : Block} {r : Except BlockError Unit}
      (h : Reached sha3 load pool) (hb : Hashable sha3 b) (hsize : b.m_payload.length < 2 ^ 63)
      (hagrees : pool.Agrees sha3 b) (hon : (add sha3 (some b)).on pool = (r, pool')) :
      Reached sha3 load pool'
  | get {pool pool' : BlockMemPool} {hash : H256} {r : Except BlockError (Option Block)}
      (h : Reached sha3 load pool) (hon : (get load hash).on pool = (r, pool')) :
      Reached sha3 load pool'

section Step

variable {sha3 : Bytes → H256} {load : Bytes → Except BlockError Block} {pool pool' : BlockMemPool}
  {b : Block}

lemma mem_keys {α β : Type} {m : α → Option β} {x : α} : x ∈ keys m ↔ (m x).isSome := Iff.rfl

lemma mem_keys_of_some {α β : Type} {m : α → Option β} {x : α} {y : β} (h : m x = some y) :
    x ∈ keys m := by
  rw [mem_keys, h]
  rfl

/-- The links of a block that is accepted. -/
lemma mem_of_not_rejects (h : pool.rejects b = false) {y : H256} (hy : y ∈ linkHashes b) :
    y ∈ keys pool.m_blocks ∧ toSlice y ∈ keys pool.m_blockStorage := by
  obtain ⟨l, hl, rfl⟩ := List.mem_map.mp hy
  have hl' := List.any_eq_false.mp h l hl
  simp only [isOrphan, Bool.or_eq_true, Bool.not_eq_true', not_or, Option.isNone_iff_eq_none,
    Bool.not_eq_false] at hl'
  exact ⟨Option.isSome_iff_ne_none.mpr hl'.1.2, hl'.2⟩

/-! ### Looking up -/

/-- A lookup changes nothing, or loads a block that is in neither map. -/
lemma get_cases {hash : H256} {r : Except BlockError (Option Block)}
    (h : (get load hash).on pool = (r, pool')) :
    pool' = pool ∨ ∃ enc c, hash ∉ keys pool.m_orphanBlocks ∧
      pool.m_blockStorage (toSlice hash) = some enc ∧ load enc = .ok c ∧
      pool' = pool.setBlock hash c := by
  rw [BlockMemPool.get, Method.on_get_bind] at h
  rcases hb : pool.m_blocks hash with _ | b
  · rcases ho : pool.m_orphanBlocks hash with _ | b
    · rw [hb, ho] at h
      dsimp only at h
      by_cases henc : (pool.m_blockStorage (toSlice hash)).getD [] = []
      · rw [if_pos henc] at h
        exact Or.inl (congrArg Prod.snd h).symm
      · rw [if_neg henc] at h
        obtain ⟨enc, he⟩ : ∃ enc, pool.m_blockStorage (toSlice hash) = some enc := by
          cases he : pool.m_blockStorage (toSlice hash) with
          | none => exact absurd (by rw [he]; rfl) henc
          | some enc => exact ⟨enc, rfl⟩
        rw [he, Option.getD_some] at h
        cases hc : load enc with
        | error e =>
          rw [hc] at h
          exact Or.inl (congrArg Prod.snd h).symm
        | ok c =>
          rw [hc] at h
          refine Or.inr ⟨enc, c, ?_, he, hc, (congrArg Prod.snd h).symm⟩
          rw [mem_keys, ho]
          exact Bool.false_ne_true
    · rw [hb, ho] at h
      exact Or.inl (congrArg Prod.snd h).symm
  · rw [hb] at h
    exact Or.inl (congrArg Prod.snd h).symm

/-- A lookup keeps the structure. -/
lemma Structured.get (hs : pool.Structured) (hclosed : Closed load pool.m_blockStorage)
    {hash : H256} {r : Except BlockError (Option Block)}
    (h : (BlockMemPool.get load hash).on pool = (r, pool')) :
    pool'.Structured ∧ Closed load pool'.m_blockStorage := by
  rcases get_cases h with rfl | ⟨enc, c, ho, he, hc, rfl⟩
  · exact ⟨hs, hclosed⟩
  · have hkeys : keys (pool.setBlock hash c).m_blocks = insert hash (keys pool.m_blocks) :=
      keys_update _ _ _
    refine ⟨⟨?_, ?_, ?_⟩, hclosed⟩
    · intro x hx
      rw [hkeys] at hx
      rcases hx with rfl | hx
      · exact ho
      · exact hs.apart x hx
    · intro x b hb y hy
      rw [hkeys]
      by_cases hx : x = hash
      · subst hx
        obtain rfl : c = b := by simpa [setBlock] using hb
        exact Or.inr (hclosed x enc c he hc y hy)
      · rw [show (pool.setBlock hash c).m_blocks x = pool.m_blocks x from
          Function.update_of_ne hx _ _] at hb
        exact (hs.links x b hb y hy).imp_left (Set.mem_insert_of_mem _)
    · intro x hx
      rw [hkeys] at hx
      rcases hx with rfl | hx
      · exact mem_keys_of_some he
      · exact hs.stored x hx

/-! ### Adding -/

/-- A block that goes to the orphans keeps the structure exactly when it is not in `m_blocks`. -/
lemma Structured.insertOrphan_iff (hs : pool.Structured) (h : H256) (b : Block) :
    (pool.insertOrphan h b).Structured ↔ h ∉ keys pool.m_blocks := by
  have hkeys : keys (pool.insertOrphan h b).m_orphanBlocks = insert h (keys pool.m_orphanBlocks) :=
    keys_update _ _ _
  constructor
  · intro hs' hmem
    refine hs'.apart h hmem ?_
    rw [hkeys]
    exact Set.mem_insert _ _
  · intro hnot
    refine ⟨fun x hx hx' => ?_, hs.links, hs.stored⟩
    rw [hkeys] at hx'
    rcases hx' with rfl | hx'
    · exact hnot hx
    · exact hs.apart x hx hx'

/-- A block that is accepted keeps the structure exactly when it is not an orphan. -/
lemma Structured.accept_iff (hs : pool.Structured) {h : H256} {c : Block} (code : Bytes)
    (hlinks : ∀ y ∈ linkHashes c, y ∈ keys pool.m_blocks) :
    ((pool.setBlock h c).store (toSlice h) code).Structured ↔ h ∉ keys pool.m_orphanBlocks := by
  set pool' := (pool.setBlock h c).store (toSlice h) code
  have hblocks : keys pool'.m_blocks = insert h (keys pool.m_blocks) := keys_update _ _ _
  have hstorage : keys pool'.m_blockStorage = insert (toSlice h) (keys pool.m_blockStorage) :=
    keys_update _ _ _
  constructor
  · intro hs' hmem
    refine hs'.apart h ?_ hmem
    rw [hblocks]
    exact Set.mem_insert _ _
  · intro hnot
    refine ⟨fun x hx => ?_, fun x b hb y hy => ?_, fun x hx => ?_⟩
    · rw [hblocks] at hx
      rcases hx with rfl | hx
      · exact hnot
      · exact hs.apart x hx
    · rw [hblocks, hstorage]
      by_cases hx : x = h
      · subst hx
        obtain rfl : c = b := by simpa [pool', setBlock, store] using hb
        exact Or.inl (Set.mem_insert_of_mem _ (hlinks y hy))
      · rw [show pool'.m_blocks x = pool.m_blocks x from Function.update_of_ne hx _ _] at hb
        exact (hs.links x b hb y hy).imp (Set.mem_insert_of_mem _) (Set.mem_insert_of_mem _)
    · rw [hblocks] at hx
      rw [hstorage]
      rcases hx with rfl | hx
      · exact Set.mem_insert _ _
      · exact Set.mem_insert_of_mem _ (hs.stored x hx)

/-- **Adding a block** keeps the structure exactly when it does not contradict the pool. -/
theorem Structured.add_iff (hs : pool.Structured) (hb : Hashable sha3 b) :
    ∃ pool', (BlockMemPool.add sha3 (some b)).on pool = (.ok (), pool') ∧
      (pool'.Structured ↔ pool.Agrees sha3 b) := by
  unfold Agrees
  split_ifs with horphan
  · obtain ⟨b', -, hon⟩ := add_on_orphan hb horphan
    exact ⟨_, hon, hs.insertOrphan_iff _ _⟩
  · have haccept : pool.rejects b = false := Bool.eq_false_of_not_eq_true horphan
    obtain ⟨b', hcontent, hon⟩ := add_on_accepted hb haccept
    refine ⟨_, hon, hs.accept_iff _ fun y hy => ?_⟩
    have hlinks : b'.m_links = b.m_links := congrArg Content.links hcontent
    rw [linkHashes, hlinks] at hy
    exact (mem_of_not_rejects haccept hy).1

/-- Adding a block keeps the storage closed. -/
lemma Closed.add (hclosed : Closed load pool.m_blockStorage) (hload : Reads sha3 load)
    (hb : Hashable sha3 b) (hsize : b.m_payload.length < 2 ^ 63)
    {r : Except BlockError Unit} (hon : (BlockMemPool.add sha3 (some b)).on pool = (r, pool')) :
    Closed load pool'.m_blockStorage := by
  by_cases horphan : pool.rejects b = true
  · obtain ⟨b', -, hon'⟩ := add_on_orphan hb horphan
    obtain rfl := (Prod.mk.inj (hon'.symm.trans hon)).2
    exact hclosed
  · have haccept : pool.rejects b = false := Bool.eq_false_of_not_eq_true horphan
    obtain ⟨b', -, hon'⟩ := add_on_accepted hb haccept
    obtain rfl := (Prod.mk.inj (hon'.symm.trans hon)).2
    intro x enc c henc hc y hy
    have hkeys : keys ((pool.setBlock (b.hash sha3) b').store (toSlice (b.hash sha3))
        b.bytes).m_blockStorage = insert (toSlice (b.hash sha3)) (keys pool.m_blockStorage) :=
      keys_update _ _ _
    rw [hkeys]
    refine Set.mem_insert_of_mem _ ?_
    by_cases hx : x = b.hash sha3
    · -- the new entry, read back
      subst hx
      obtain rfl : b.bytes = enc := by simpa [store] using henc
      exact (mem_of_not_rejects haccept (hload b c hb hsize hc y hy)).2
    · have hne : toSlice x ≠ toSlice (b.hash sha3) := fun e => hx (toSlice_injective e)
      have hold : ((pool.setBlock (b.hash sha3) b').store (toSlice (b.hash sha3))
        b.bytes).m_blockStorage (toSlice x) = pool.m_blockStorage (toSlice x) :=
        Function.update_of_ne hne _ _
      rw [hold] at henc
      exact hclosed x enc c henc hc y hy

/-! ### All calls -/

lemma Reached.structured (hload : Reads sha3 load) (h : Reached sha3 load pool) :
    pool.Structured ∧ Closed load pool.m_blockStorage := by
  induction h with
  | start h =>
    refine ⟨⟨fun x hx => ?_, fun x b hb => ?_, fun x hx => ?_⟩, h⟩
    · exact absurd hx (by simp [keys])
    · exact absurd hb (by simp)
    · exact absurd hx (by simp [keys])
  | addNull _ hon ih =>
    obtain rfl : _ = _ := congrArg Prod.snd hon
    exact ih
  | add _ hb hsize hagrees hon ih =>
    obtain ⟨pool', hon', hiff⟩ := ih.1.add_iff hb
    refine ⟨?_, ih.2.add hload hb hsize hon⟩
    obtain rfl := (Prod.mk.inj (hon'.symm.trans hon)).2
    exact hiff.mpr hagrees
  | get _ hon ih => exact ih.1.get ih.2 hon

end Step

/-- **The structure of the pool.** In every pool that calls of `add` and `get` lead to, from empty
maps over a storage that is closed under links, with no call of `add` that contradicts the pool: the
maps are apart, and every block in `m_blocks` is in the storage and has its links there or in
`m_blocks`. And the next call of `add` leads to such a pool exactly when it does not contradict the
pool. -/
theorem structured_of_reached (sha3 : Bytes → H256) (load : Bytes → Except BlockError Block)
    (hload : Reads sha3 load) (pool : BlockMemPool) (h : Reached sha3 load pool) :
    pool.Structured ∧ ∀ b, Hashable sha3 b →
      ∃ pool', (add sha3 (some b)).on pool = (.ok (), pool') ∧
        (pool'.Structured ↔ pool.Agrees sha3 b) :=
  ⟨(h.structured hload).1, fun _ hb => (h.structured hload).1.add_iff hb⟩

end BlockMemPool

/-! ### The constructor that reads -/

/-- A block made with `Block::decode`, as the constructor `Block(bytes)` does. -/
def Block.ofBytes (byts : Bytes) : Except BlockError Block :=
  match (Block.decode byts).on {} with
  | (.ok (), b) => .ok b
  | (.error e, _) => .error e

/-- It makes blocks with the links of the block that was written. -/
lemma reads_decode (sha3 : Bytes → H256) : BlockMemPool.Reads sha3 Block.ofBytes := by
  intro b c hb hsize hc y hy
  obtain ⟨x, hx⟩ := Option.isSome_iff_exists.mp hb.signed
  have hbytes : b.bytes = Rlp.encode (b.item x) := by
    simp only [Block.bytes, hx, Option.map_some, Option.getD_some]
  have hread := Block.decode_encode {} b x
    (Block.length_item_le_maxLength x hb.encodable.outputs hb.encodable.links hsize)
  rw [Block.ofBytes, hbytes, hread] at hc
  obtain rfl := Except.ok.inj hc
  have hlinks : (Block.afterDecode {} b x).m_links = b.m_links := by
    simp [Block.afterDecode, Block.afterContent, Block.content]
  rwa [BlockMemPool.linkHashes, hlinks] at hy

namespace BlockMemPool

/-! ### An orphan that is added again -/

/-- The pool after the child, its parent, and the child again. -/
def childTwice : BlockMemPool :=
  ((addAll lengthHash [childBlock, plainBlock, childBlock]).on {}).2

/-- The pool after two blocks, one after the other. -/
def addBoth (x y : Block) : BlockMemPool :=
  ((add lengthHash (some y)).on ((add lengthHash (some x)).on {}).2).2

/-- Two blocks that contradict nothing. -/
lemma reached_addBoth {x y : Block} (hx : Hashable lengthHash x) (hy : Hashable lengthHash y)
    (hxs : x.m_payload = []) (hys : y.m_payload = []) (h₁ : Agrees lengthHash {} x)
    (h₂ : Agrees lengthHash ((add lengthHash (some x)).on {}).2 y) :
    Reached lengthHash Block.ofBytes (addBoth x y) :=
  .add (.add (.start fun h enc c he => by cases he) hx (by simp [hxs]) h₁ rfl) hy (by simp [hys])
    h₂ rfl

/-- A parent and its child: adding the child again keeps the structure if the child has come behind
its parent, and breaks it if it came before. -/
theorem structured_of_reached_childBlock :
    (∃ pool', (add lengthHash (some childBlock)).on (addBoth plainBlock childBlock) =
        (.ok (), pool') ∧ pool'.Structured) ∧
      ∃ pool', (add lengthHash (some childBlock)).on (addBoth childBlock plainBlock) =
        (.ok (), pool') ∧ ¬ pool'.Structured := by
  have hparent : Agrees lengthHash {} plainBlock := by
    change ¬ (Option.isSome _) = true
    decide +kernel
  have hchild : Agrees lengthHash ((add lengthHash (some plainBlock)).on {}).2 childBlock := by
    rw [Agrees, if_neg (by decide +kernel)]
    change ¬ (Option.isSome _) = true
    decide +kernel
  have hearly : Agrees lengthHash {} childBlock := by
    rw [Agrees, if_pos (by decide +kernel)]
    change ¬ (Option.isSome _) = true
    decide +kernel
  have hlate : Agrees lengthHash ((add lengthHash (some childBlock)).on {}).2 plainBlock := by
    change ¬ (Option.isSome _) = true
    decide +kernel
  constructor
  · obtain ⟨pool', hon, hiff⟩ := (structured_of_reached lengthHash Block.ofBytes
      (reads_decode lengthHash) _ (reached_addBoth hashable_plainBlock hashable_childBlock rfl rfl
        hparent hchild)).2 childBlock hashable_childBlock
    refine ⟨pool', hon, hiff.mpr ?_⟩
    rw [Agrees, if_neg (by decide +kernel)]
    change ¬ (Option.isSome _) = true
    decide +kernel
  · obtain ⟨pool', hon, hiff⟩ := (structured_of_reached lengthHash Block.ofBytes
      (reads_decode lengthHash) _ (reached_addBoth hashable_childBlock hashable_plainBlock rfl rfl
        hearly hlate)).2 childBlock hashable_childBlock
    refine ⟨pool', hon, fun hs => ?_⟩
    have hagrees := hiff.mp hs
    rw [Agrees, if_neg (by decide +kernel)] at hagrees
    refine hagrees ?_
    change (Option.isSome _) = true
    decide +kernel

/-- An orphan that is added again behind its parent is in both maps. -/
theorem childTwice_not_apart :
    Hashable lengthHash childBlock ∧ Hashable lengthHash plainBlock ∧
      childBlock.hash lengthHash ∈ keys childTwice.m_blocks ∧
      childBlock.hash lengthHash ∈ keys childTwice.m_orphanBlocks := by
  refine ⟨hashable_childBlock, hashable_plainBlock, ?_, ?_⟩
  · change (Option.isSome _) = true
    decide +kernel
  · change (Option.isSome _) = true
    decide +kernel

end BlockMemPool

end Tos.Sdag.Wire
