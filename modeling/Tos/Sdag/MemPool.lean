import Tos.Foundation.Arrival
import Tos.Sdag.Identity

/-!
# The pool of blocks

The class `BlockMemPool` of `sdag/MemPool.cpp` with the storage it writes to. A block goes to
`m_blocks` and to the storage if none of the blocks it links to is an orphan at that moment;
otherwise it goes to `m_orphanBlocks`. A block does not leave `m_orphanBlocks` when the blocks it
waited for arrive, and a block that links to an orphan is an orphan too. So the pool depends on
the order of arrival, and takes everything exactly when each block arrives behind the blocks it
links to.

## Main results

* `BlockMemPool.add_on`: what one block changes.
* `BlockMemPool.addAll_keys`: the keys of the maps and of the storage after any
  order of arrival.

## Implementation notes

Pointers to blocks are not modelled: the pool holds the blocks. The caches of a block change
while it is in the pool, so its entry is written again when the storage has encoded it. The
locks are not modelled either: all calls come one after the other.
-/

namespace Tos.Sdag.Wire

open List
open Method
open Arrival (InOrder Settles inOrder_iff settles_concat)
open Wire.Block (content getHash item rebuilt)

/-- `dev::toSlice`: the key of a hash in the storage. -/
def toSlice (h : H256) (sub : UInt8 := 0) : Bytes := hashBytes h ++ [sub]

/-- The class `BlockMemPool`, with the contents of the storage behind `m_blockStorage`. -/
structure BlockMemPool where
  m_blocks : H256 → Option Block := fun _ => none
  m_orphanBlocks : H256 → Option Block := fun _ => none
  m_blockStorage : Bytes → Option Bytes := fun _ => none

abbrev PoolM := MethodM BlockMemPool

/-- A method of a block, called from the pool. -/
def onBlock {α : Type} (m : BlockM α) (b : Block) : PoolM (α × Block) :=
  match m.on b with
  | (.ok a, b') => pure (a, b')
  | (.error e, _) => throw e

namespace BlockMemPool

/-- `BlockMemPool::isOrphan`. -/
def isOrphan (pool : BlockMemPool) (hash : H256) : Bool :=
  (pool.m_orphanBlocks hash).isSome || (pool.m_blocks hash).isNone ||
    !(pool.m_blockStorage (toSlice hash)).isSome

/-- `m_orphanBlocks.insert`, which keeps an entry that is there. -/
def insertOrphan (hash : H256) (b : Block) (pool : BlockMemPool) : BlockMemPool :=
  let entry := (pool.m_orphanBlocks hash).getD b
  { pool with m_orphanBlocks := Function.update pool.m_orphanBlocks hash (some entry) }

/-- `m_blocks[hash] = b`. -/
def setBlock (hash : H256) (b : Block) (pool : BlockMemPool) : BlockMemPool :=
  { pool with m_blocks := Function.update pool.m_blocks hash (some b) }

/-- A batch with one entry, written to the storage. -/
def store (key code : Bytes) (pool : BlockMemPool) : BlockMemPool :=
  { pool with m_blockStorage := Function.update pool.m_blockStorage key (some code) }

variable (sha3 : Bytes → H256)

/-- `BlockStorage::write`. -/
def write (b : Block) : PoolM Block := do
  let (code, b) ← onBlock Block.encode b
  let (hash, b) ← onBlock (getHash sha3) b
  modify (store (toSlice hash) code)
  return b

/-- `BlockMemPool::add`. -/
def add : Option Block → PoolM Unit
  | none => pure ()
  | some b => do
    let pool ← get
    if b.m_links.any fun l => pool.isOrphan l.blockHash then
      let (hash, b) ← onBlock (getHash sha3) b
      modify (insertOrphan hash b)
    else
      let (hash, b) ← onBlock (getHash sha3) b
      modify (setBlock hash b)
      let b ← write sha3 b
      modify (setBlock hash b)

/-- Blocks that arrive one after the other. -/
def addAll (l : List Block) : PoolM Unit := forM l fun b => add sha3 (some b)

end BlockMemPool

/-! ### Blocks with a hash -/

/-- The encoding of a signed block. -/
def Block.bytes (b : Block) : Bytes := (b.m_vrs.map fun x => Rlp.encode (b.item x)).getD []

/-- The hash of a signed block. -/
def Block.hash (sha3 : Bytes → H256) (b : Block) : H256 := sha3 b.bytes

/-- A signed block that can be encoded, whose caches are empty or belong to its fields. -/
structure Hashable (sha3 : Bytes → H256) (b : Block) : Prop where
  encodable : b.content.Encodable
  signed : b.m_vrs.isSome
  data : b.m_rlpData = [] ∨ b.m_rlpData = b.bytes
  hash : b.m_hash = 0 ∨ b.m_hash = b.hash sha3

lemma Block.bytes_congr {b b' : Block} (hc : b'.content = b.content) (hv : b'.m_vrs = b.m_vrs)
    (hn : b'.m_nonce = b.m_nonce) : b'.bytes = b.bytes := by
  simp only [Block.bytes, item, hc, hv, hn]

/-- The block after its encoding. -/
def Block.encoded (b : Block) : Block := { b.rebuilt with m_rlpData := b.bytes }

/-- The block after its hash has been taken from its bytes. -/
def Block.hashed (sha3 : Bytes → H256) (b : Block) : Block := { b with m_hash := sha3 b.m_rlpData }

lemma Block.content_encoded (b : Block) : b.encoded.content = b.content := by
  simp only [content, Block.encoded, rebuilt]

lemma Block.content_hashed (sha3 : Bytes → H256) (b : Block) :
    (b.hashed sha3).content = b.content := by
  simp only [content, Block.hashed]

lemma Block.m_vrs_encoded (b : Block) : b.encoded.m_vrs = b.m_vrs := by
  simp only [Block.encoded, rebuilt]

lemma Block.bytes_encoded (b : Block) : b.encoded.bytes = b.bytes :=
  Block.bytes_congr b.content_encoded b.m_vrs_encoded (by simp only [Block.encoded, rebuilt])

lemma Block.bytes_hashed (sha3 : Bytes → H256) (b : Block) : (b.hashed sha3).bytes = b.bytes :=
  Block.bytes_congr (b.content_hashed sha3) rfl rfl

lemma Block.encode_on_bytes {b : Block} (h : b.content.Encodable) (hv : b.m_vrs.isSome) :
    Block.encode.on b = (.ok b.bytes, b.encoded) := by
  obtain ⟨x, hx⟩ := Option.isSome_iff_exists.mp hv
  have hbytes : b.bytes = Rlp.encode (b.item x) := by
    simp only [Block.bytes, hx, Option.map_some, Option.getD_some]
  rw [Block.encoded, hbytes]
  exact Block.encode_on h hx

/-- A change of the caches that leaves them in step with the fields. -/
def Refreshed (sha3 : Bytes → H256) (b b' : Block) : Prop :=
  Hashable sha3 b' ∧ b'.content = b.content ∧ b'.bytes = b.bytes

namespace Hashable

variable {sha3 : Bytes → H256} {b : Block}

lemma refreshed_encoded (h : Hashable sha3 b) : Refreshed sha3 b b.encoded := by
  have hdata : b.encoded.m_rlpData = b.bytes := rfl
  have hhash : b.encoded.m_hash = b.m_hash := by simp only [Block.encoded, rebuilt]
  refine ⟨⟨?_, ?_, Or.inr (hdata.trans b.bytes_encoded.symm), ?_⟩, b.content_encoded,
    b.bytes_encoded⟩
  · rw [b.content_encoded]
    exact h.encodable
  · rw [b.m_vrs_encoded]
    exact h.signed
  · rw [Block.hash, b.bytes_encoded, hhash]
    exact h.hash

lemma refreshed_hashed (h : Hashable sha3 b) (hdata : b.m_rlpData = b.bytes) :
    Refreshed sha3 b (b.hashed sha3) := by
  have hhash : (b.hashed sha3).m_hash = sha3 b.m_rlpData := rfl
  refine ⟨⟨?_, h.signed, ?_, Or.inr ?_⟩, b.content_hashed sha3, b.bytes_hashed sha3⟩
  · rw [b.content_hashed]
    exact h.encodable
  · rw [b.bytes_hashed]
    exact h.data
  · rw [Block.hash, b.bytes_hashed, hhash, hdata]

/-- **The hash** of such a block is the one of its encoding, whatever it has in its caches. -/
lemma getHash_on (h : Hashable sha3 b) :
    ∃ b', (getHash sha3).on b = (.ok (b.hash sha3), b') ∧ Refreshed sha3 b b' := by
  by_cases hhash : b.m_hash = 0
  · -- the bytes are there or are written now
    by_cases hd : b.m_rlpData = []
    · have href := h.refreshed_encoded
      have hdata : b.encoded.m_rlpData = b.bytes := rfl
      have hhashed := href.1.refreshed_hashed (hdata.trans href.2.2.symm)
      refine ⟨b.encoded.hashed sha3, ?_, hhashed.1, hhashed.2.1.trans href.2.1,
        hhashed.2.2.trans href.2.2⟩
      rw [getHash, on_get_bind, if_pos hhash, on_get_bind, if_pos hd,
        on_bind_of_ok (Block.encode_on_bytes h.encodable h.signed),
        on_modify_bind, on_get_bind, on_pure]
      rfl
    · have hdata := h.data.resolve_left hd
      refine ⟨b.hashed sha3, ?_, h.refreshed_hashed hdata⟩
      rw [getHash, on_get_bind, if_pos hhash, on_get_bind, if_neg hd,
        on_modify_bind, on_get_bind, on_pure, Block.hash, ← hdata]
      rfl
  · refine ⟨b, ?_, h, rfl, rfl⟩
    rw [getHash, on_get_bind, if_neg hhash, ← h.hash.resolve_left hhash]
    rfl

end Hashable

/-! ### One block -/

/-- The keys of a map. -/
def keys {α β : Type} (m : α → Option β) : Set α := {x | (m x).isSome}

lemma keys_update {α β : Type} [DecidableEq α] (m : α → Option β) (x : α) (y : β) :
    keys (Function.update m x (some y)) = insert x (keys m) := by
  ext z
  rcases eq_or_ne z x with rfl | hz
  · simp [keys]
  · simp [keys, hz]

lemma onBlock_on {α : Type} {m : BlockM α} {b b' : Block} {a : α} (h : m.on b = (.ok a, b'))
    (pool : BlockMemPool) : (onBlock m b).on pool = (.ok (a, b'), pool) := by
  rw [onBlock, h]
  rfl

namespace BlockMemPool

variable {sha3 : Bytes → H256} {b : Block}

lemma write_on (h : Hashable sha3 b) (pool : BlockMemPool) :
    ∃ b', b'.content = b.content ∧
      (write sha3 b).on pool = (.ok b', pool.store (toSlice (b.hash sha3)) b.bytes) := by
  have href := h.refreshed_encoded
  obtain ⟨b', hb', href'⟩ := href.1.getHash_on
  refine ⟨b', href'.2.1.trans href.2.1, ?_⟩
  have hhash : b.encoded.hash sha3 = b.hash sha3 := congrArg sha3 href.2.2
  rw [write, on_bind_of_ok (onBlock_on (Block.encode_on_bytes h.encodable h.signed) pool),
    on_bind_of_ok (onBlock_on hb' pool), on_modify_bind, hhash]
  rfl

variable {pool : BlockMemPool}

/-- A block with an orphan among its links goes to the orphans. -/
lemma add_on_orphan (h : Hashable sha3 b)
    (horphan : (b.m_links.any fun l => pool.isOrphan l.blockHash) = true) :
    ∃ b', b'.content = b.content ∧
      (add sha3 (some b)).on pool = (.ok (), pool.insertOrphan (b.hash sha3) b') := by
  obtain ⟨b', hb', href⟩ := h.getHash_on
  refine ⟨b', href.2.1, ?_⟩
  rw [add, on_get_bind, if_pos horphan, on_bind_of_ok (onBlock_on hb' pool),
    on_modify]

/-- A block without orphans among its links goes to the blocks and to the storage. -/
lemma add_on_accepted (h : Hashable sha3 b)
    (horphan : (b.m_links.any fun l => pool.isOrphan l.blockHash) = false) :
    ∃ b', b'.content = b.content ∧ (add sha3 (some b)).on pool =
      (.ok (), (pool.setBlock (b.hash sha3) b').store (toSlice (b.hash sha3)) b.bytes) := by
  obtain ⟨b₁, hb₁, href⟩ := h.getHash_on
  obtain ⟨b₂, hcontent, hb₂⟩ := write_on href.1 (pool.setBlock (b.hash sha3) b₁)
  have hhash : b₁.hash sha3 = b.hash sha3 := congrArg sha3 href.2.2
  rw [hhash, href.2.2] at hb₂
  refine ⟨b₂, hcontent.trans href.2.1, ?_⟩
  rw [add, on_get_bind, if_neg (by rw [horphan]; exact Bool.false_ne_true),
    on_bind_of_ok (onBlock_on hb₁ pool), on_modify_bind, on_bind_of_ok hb₂,
    on_modify]
  simp only [setBlock, store, Function.update_idem]

/-- **One block.** It goes to the orphans if a block it links to is an orphan, and to the blocks
and the storage otherwise. -/
theorem add_on (h : Hashable sha3 b) (pool : BlockMemPool) :
    ∃ pool', (add sha3 (some b)).on pool = (.ok (), pool') ∧
      if b.m_links.any fun l => pool.isOrphan l.blockHash then
        keys pool'.m_orphanBlocks = insert (b.hash sha3) (keys pool.m_orphanBlocks) ∧
          pool'.m_blocks = pool.m_blocks ∧ pool'.m_blockStorage = pool.m_blockStorage
      else
        pool'.m_orphanBlocks = pool.m_orphanBlocks ∧
          keys pool'.m_blocks = insert (b.hash sha3) (keys pool.m_blocks) ∧
          keys pool'.m_blockStorage =
            insert (toSlice (b.hash sha3)) (keys pool.m_blockStorage) := by
  split_ifs with horphan
  · obtain ⟨b', -, hon⟩ := add_on_orphan h horphan
    exact ⟨_, hon, keys_update _ _ _, rfl, rfl⟩
  · obtain ⟨b', -, hon⟩ := add_on_accepted h (Bool.eq_false_of_not_eq_true horphan)
    exact ⟨_, hon, rfl, keys_update _ _ _, keys_update _ _ _⟩

/-! ### All blocks -/

/-- The hashes a block links to. -/
def linkHashes (b : Block) : List H256 := b.m_links.map BlockLinkStruct.blockHash

variable {l : List Block}

lemma addAll_concat_on {pool pool' : BlockMemPool}
    (h : (addAll sha3 l).on pool = (.ok (), pool')) (b : Block) :
    (addAll sha3 (l ++ [b])).on pool = (add sha3 (some b)).on pool' := by
  have hlast : addAll sha3 [b] = add sha3 (some b) := by simp [addAll]
  have happ : addAll sha3 (l ++ [b]) = addAll sha3 l >>= fun _ => addAll sha3 [b] :=
    forM_append
  rw [happ, on_bind_of_ok h, hlast]

/-- The keys of the pool when the blocks `l` have arrived, over a storage that had the keys `S`. -/
structure HoldsOver (sha3 : Bytes → H256) (S : Set Bytes) (l : List Block)
    (pool : BlockMemPool) : Prop where
  blocks : keys pool.m_blocks = {h | Settles (Block.hash sha3) linkHashes l h}
  storage : keys pool.m_blockStorage =
    S ∪ (fun h => toSlice h) '' {h | Settles (Block.hash sha3) linkHashes l h}
  orphans : keys pool.m_orphanBlocks = {h | h ∈ l.map (Block.hash sha3) ∧
    ¬ Settles (Block.hash sha3) linkHashes l h}

/-- The same over a new storage. -/
def Holds (sha3 : Bytes → H256) : List Block → BlockMemPool → Prop := HoldsOver sha3 ∅

/-- A new storage has the keys that have settled. -/
lemma Holds.storage_eq (h : Holds sha3 l pool) : keys pool.m_blockStorage =
    (fun h => toSlice h) '' {h | Settles (Block.hash sha3) linkHashes l h} :=
  (HoldsOver.storage h).trans (Set.empty_union _)

/-- The keys of the storage tell the hashes apart. -/
lemma toSlice_injective : Function.Injective fun h => toSlice h := fun _ _ h =>
  hashBytes_injective (append_cancel_right h)

/-- A block is an orphan for the pool exactly when it has not settled. -/
lemma HoldsOver.isOrphan_iff {S : Set Bytes} (h : HoldsOver sha3 S l pool) (x : H256) :
    pool.isOrphan x = false ↔ Settles (Block.hash sha3) linkHashes l x := by
  have hb : (pool.m_blocks x).isSome ↔ Settles (Block.hash sha3) linkHashes l x :=
    Set.ext_iff.mp h.blocks x
  have hs : Settles (Block.hash sha3) linkHashes l x →
      (pool.m_blockStorage (toSlice x)).isSome :=
    fun hx => (Set.ext_iff.mp h.storage (toSlice x)).mpr (Or.inr ⟨x, hx, rfl⟩)
  have ho : (pool.m_orphanBlocks x).isSome ↔ x ∈ l.map (Block.hash sha3) ∧
      ¬ Settles (Block.hash sha3) linkHashes l x := Set.ext_iff.mp h.orphans x
  rw [isOrphan, ← Bool.not_eq_true, Bool.or_eq_true, Bool.or_eq_true, Bool.not_eq_true',
    ← Option.not_isSome, Bool.not_eq_true', ho, ← Bool.not_eq_true, ← Bool.not_eq_true, hb]
  tauto

lemma holdsOver_new (storage : Bytes → Option Bytes) :
    HoldsOver sha3 (keys storage) [] { m_blockStorage := storage } := by
  constructor <;> ext x <;> simp [keys, Settles]

/-- One more block keeps the keys as they should be. -/
lemma HoldsOver.add {S : Set Bytes} (h : HoldsOver sha3 S l pool) (hb : Hashable sha3 b)
    (hnd : ((l ++ [b]).map (Block.hash sha3)).Nodup) :
    ∃ pool', (add sha3 (some b)).on pool = (.ok (), pool') ∧
      HoldsOver sha3 S (l ++ [b]) pool' := by
  have hset : ∀ x, Settles (Block.hash sha3) linkHashes (l ++ [b]) x ↔
      Settles (Block.hash sha3) linkHashes l x ∨ (x = b.hash sha3 ∧
        ∀ y ∈ linkHashes b, Settles (Block.hash sha3) linkHashes l y) :=
    fun x => settles_concat hnd
  have hnew : b.hash sha3 ∉ l.map (Block.hash sha3) := by
    rw [map_append, nodup_append] at hnd
    exact fun hmem => hnd.2.2 _ hmem _ (mem_singleton_self _) rfl
  obtain ⟨pool', hon, hpool'⟩ := add_on hb pool
  refine ⟨pool', hon, ?_⟩
  -- the block settles exactly when none of its links is an orphan
  have hlinks : (b.m_links.any fun l => pool.isOrphan l.blockHash) = false ↔
      ∀ y ∈ linkHashes b, Settles (Block.hash sha3) linkHashes l y := by
    simp only [any_eq_false, Bool.not_eq_true, h.isOrphan_iff, linkHashes,
      forall_mem_map]
  split_ifs at hpool' with horphan
  · have hnot : ¬ ∀ y ∈ linkHashes b, Settles (Block.hash sha3) linkHashes l y := by
      rw [← hlinks, horphan]
      exact Bool.true_eq_false_eq_False
    have hsame : ∀ x, Settles (Block.hash sha3) linkHashes (l ++ [b]) x ↔
        Settles (Block.hash sha3) linkHashes l x :=
      fun x => (hset x).trans (or_iff_left fun hx => hnot hx.2)
    obtain ⟨horphans, hblocks, hstorage⟩ := hpool'
    refine ⟨?_, ?_, ?_⟩
    · simp only [hblocks, h.blocks, hsame]
    · simp only [hstorage, h.storage, hsame]
    · ext x
      have hx : x = b.hash sha3 → ¬ Settles (Block.hash sha3) linkHashes l x := by
        rintro rfl hx
        exact hnew hx.1
      simp only [horphans, h.orphans, hsame, map_append, map_singleton,
        Set.mem_insert_iff, Set.mem_ofPred_eq, mem_append, mem_singleton]
      tauto
  · have hall := hlinks.mp (Bool.not_eq_true _ ▸ horphan)
    have hmore : {x | Settles (Block.hash sha3) linkHashes (l ++ [b]) x} =
        insert (b.hash sha3) {x | Settles (Block.hash sha3) linkHashes l x} := by
      ext x
      rw [Set.mem_ofPred_eq, hset, Set.mem_insert_iff, Set.mem_ofPred_eq, or_comm,
        and_iff_left hall]
    obtain ⟨horphans, hblocks, hstorage⟩ := hpool'
    refine ⟨?_, ?_, ?_⟩
    · rw [hblocks, h.blocks, hmore]
    · rw [hstorage, h.storage, hmore, Set.image_insert_eq, Set.union_insert]
    · ext x
      have hx : x ∈ l.map (Block.hash sha3) → x ≠ b.hash sha3 := by
        rintro hx rfl
        exact hnew hx
      simp only [horphans, h.orphans, hset, map_append, map_singleton,
        Set.mem_ofPred_eq, mem_append, mem_singleton]
      tauto

/-- The keys after any run of arrivals, over any storage. -/
lemma holdsOver_addAll (storage : Bytes → Option Bytes) (l : List Block)
    (hb : ∀ b ∈ l, Hashable sha3 b) (hnd : (l.map (Block.hash sha3)).Nodup) :
    ∃ pool, (addAll sha3 l).on { m_blockStorage := storage } = (.ok (), pool) ∧
      HoldsOver sha3 (keys storage) l pool := by
  induction l using List.reverseRecOn with
  | nil => exact ⟨_, rfl, holdsOver_new storage⟩
  | append_singleton l b ih =>
    have hl : (l.map (Block.hash sha3)).Nodup := by
      rw [map_append] at hnd
      exact hnd.of_append_left
    obtain ⟨pool, hon, hpool⟩ := ih (fun c hc => hb c (mem_append_left _ hc)) hl
    obtain ⟨pool', hon', hpool'⟩ := hpool.add (hb b (by simp)) hnd
    exact ⟨pool', (addAll_concat_on hon b).trans hon', hpool'⟩

/-- The keys after any run of arrivals, over a new storage. -/
lemma holds_addAll (l : List Block) (hb : ∀ b ∈ l, Hashable sha3 b)
    (hnd : (l.map (Block.hash sha3)).Nodup) :
    ∃ pool, (addAll sha3 l).on {} = (.ok (), pool) ∧ Holds sha3 l pool := by
  obtain ⟨pool, hon, h⟩ := holdsOver_addAll (fun _ => none) l hb hnd
  have hempty : keys (fun _ => none : Bytes → Option Bytes) = ∅ := by
    ext x
    simp [keys]
  rw [hempty] at h
  exact ⟨pool, hon, h⟩

/-- All blocks of `l` are in the pool and in the storage, and none is left as an orphan. -/
structure Accepts (sha3 : Bytes → H256) (l : List Block) (pool : BlockMemPool) : Prop where
  blocks : keys pool.m_blocks = {h | h ∈ l.map (Block.hash sha3)}
  storage : keys pool.m_blockStorage =
    (fun h => toSlice h) '' {h | h ∈ l.map (Block.hash sha3)}
  orphans : keys pool.m_orphanBlocks = ∅

lemma Holds.accepts_iff (h : Holds sha3 l pool) (hnd : (l.map (Block.hash sha3)).Nodup) :
    Accepts sha3 l pool ↔ InOrder (Block.hash sha3) linkHashes l := by
  rw [inOrder_iff _ _ hnd]
  constructor
  · intro ha x hx
    have hx' : x ∈ keys pool.m_blocks := ha.blocks ▸ hx
    rwa [HoldsOver.blocks h] at hx'
  · intro hall
    have hset : {x | Settles (Block.hash sha3) linkHashes l x} =
        {x | x ∈ l.map (Block.hash sha3)} :=
      Set.ext fun x => ⟨fun hx => hx.1, hall x⟩
    refine ⟨(HoldsOver.blocks h).trans hset, h.storage_eq.trans (congrArg _ hset), ?_⟩
    rw [HoldsOver.orphans h, Set.eq_empty_iff_forall_notMem]
    exact fun x hx => hx.2 (hall x hx.1)

/-- **Arrival orders.** Whatever the order, the blocks that settle are the keys of the pool and
of the storage, and the others those of the orphans. All blocks are accepted exactly when each
arrives behind the blocks it links to, so that any two such orders end with the same keys.

**Proof sketch.** The keys are right after every arrival, by induction on the list from its
end; a block is an orphan for the pool exactly when it has not settled. -/
theorem addAll_keys {l l' : List Block} (hperm : l.Perm l') (hb : ∀ b ∈ l, Hashable sha3 b)
    (hnd : (l.map (Block.hash sha3)).Nodup) :
    ∃ pool pool', (addAll sha3 l).on {} = (.ok (), pool) ∧
      (addAll sha3 l').on {} = (.ok (), pool') ∧
      Holds sha3 l pool ∧ Holds sha3 l' pool' ∧
      (Accepts sha3 l pool ↔ InOrder (Block.hash sha3) linkHashes l) ∧
      (InOrder (Block.hash sha3) linkHashes l →
        InOrder (Block.hash sha3) linkHashes l' →
        keys pool.m_blocks = keys pool'.m_blocks ∧
          keys pool.m_blockStorage = keys pool'.m_blockStorage ∧
          keys pool.m_orphanBlocks = keys pool'.m_orphanBlocks) := by
  have hnd' : (l'.map (Block.hash sha3)).Nodup := (hperm.map _).nodup_iff.mp hnd
  obtain ⟨pool, hon, h⟩ := holds_addAll l hb hnd
  obtain ⟨pool', hon', h'⟩ := holds_addAll l' (fun b hmem => hb b (hperm.mem_iff.mpr hmem)) hnd'
  refine ⟨pool, pool', hon, hon', h, h', h.accepts_iff hnd, fun hl hl' => ?_⟩
  have ha := (h.accepts_iff hnd).mpr hl
  have ha' := (h'.accepts_iff hnd').mpr hl'
  have hsame : {x | x ∈ l.map (Block.hash sha3)} = {x | x ∈ l'.map (Block.hash sha3)} :=
    Set.ext fun x => (hperm.map _).mem_iff
  exact ⟨by rw [ha.blocks, ha'.blocks, hsame], by rw [ha.storage, ha'.storage, hsame],
    by rw [ha.orphans, ha'.orphans]⟩

/-! ### A block before its parent -/

/-- A hash that tells the blocks below apart. -/
def lengthHash (x : Bytes) : H256 := BitVec.ofNat 256 x.length

/-- A block that links to `plainBlock`. -/
def childBlock : Block :=
  { m_vrs := some ⟨0, 0, 0⟩
    m_links := [{ blockHash := plainBlock.hash lengthHash, gasUsed := 0 }] }

lemma hashable_plainBlock : Hashable lengthHash plainBlock :=
  ⟨⟨by decide, by decide, by decide +kernel⟩, rfl, Or.inl rfl, Or.inl rfl⟩

lemma hashable_childBlock : Hashable lengthHash childBlock :=
  ⟨⟨by decide, by decide, by decide +kernel⟩, rfl, Or.inl rfl, Or.inl rfl⟩

lemma hash_ne : childBlock.hash lengthHash ≠ plainBlock.hash lengthHash := by decide +kernel

/-- The theorem for the parent and its child, in both orders. -/
theorem addAll_keys_childBlock :
    ∃ pool pool', (addAll lengthHash [plainBlock, childBlock]).on {} = (.ok (), pool) ∧
      (addAll lengthHash [childBlock, plainBlock]).on {} = (.ok (), pool') ∧
      Holds lengthHash [plainBlock, childBlock] pool ∧
      Holds lengthHash [childBlock, plainBlock] pool' := by
  have hb : ∀ b ∈ [plainBlock, childBlock], Hashable lengthHash b := by
    simpa using ⟨hashable_plainBlock, hashable_childBlock⟩
  obtain ⟨pool, pool', hon, hon', h, h', -⟩ :=
    addAll_keys (List.Perm.swap childBlock plainBlock []) hb (by simp [hash_ne.symm])
  exact ⟨pool, pool', hon, hon', h, h'⟩

/-- The pool after the two blocks, in the given order. -/
def afterBoth (first second : Block) : BlockMemPool := ((addAll lengthHash [first, second]).on {}).2

/-- The child before its parent stays an orphan, though the parent is accepted afterwards; in
the other order both are accepted. -/
theorem childBlock_first :
    Hashable lengthHash plainBlock ∧ Hashable lengthHash childBlock ∧
      linkHashes childBlock = [plainBlock.hash lengthHash] ∧ linkHashes plainBlock = [] ∧
      childBlock.hash lengthHash ∈ keys (afterBoth childBlock plainBlock).m_orphanBlocks ∧
      childBlock.hash lengthHash ∉ keys (afterBoth childBlock plainBlock).m_blocks ∧
      childBlock.hash lengthHash ∉ keys (afterBoth plainBlock childBlock).m_orphanBlocks ∧
      childBlock.hash lengthHash ∈ keys (afterBoth plainBlock childBlock).m_blocks := by
  refine ⟨hashable_plainBlock, hashable_childBlock, rfl, rfl, ?_, ?_, ?_, ?_⟩
  · change (Option.isSome _) = true
    decide +kernel
  · change ¬ (Option.isSome _) = true
    decide +kernel
  · change ¬ (Option.isSome _) = true
    decide +kernel
  · change (Option.isSome _) = true
    decide +kernel

end BlockMemPool

end Tos.Sdag.Wire
