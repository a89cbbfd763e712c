import Tos.Sdag.Pool

/-!
# The labels of the main chain

`MainChain::addMinerBlock` of `sdag/MainChain.cpp` gives a new block its cumulative difficulty
and, when that exceeds the one of the tip, makes the block the tip. If the block does not
continue the tip, three loops relabel the blocks of the two branches: the first looks for the
block where the branches part, the second labels the new branch, the third is meant to take the
labels off the old one. The third loop assigns the next block to the variable of the second one
and tests its own, which does not change.

The object of the block belongs to the pool, and three statements make a second owner of it:
`BlockRef forkBegin(&block)`, `BlockRef p1(&block)` and `pre_main_chain.reset(&block)` start a
count of references that knows nothing of the pool. When the last reference of such a count
goes, the object is deleted, and the pool is left with a pointer to it. So the loops delete the
block before they label it, and a tip that was made by a call is deleted by the next call that
makes a tip. A call keeps all objects alive and the labels right exactly when the block does not
outweigh the tip, or the tip is still the genesis block and the block continues it.

## Main results

* `MainChain.Owned.switchBranch_eq_ok`: the branch with the loops never returns.
* `MainChain.Owned.Finds.returns_iff`: all that a call can do.
* `MainChain.Owned.labelled_of_reached`: the labels in all states reached, and when a call keeps
  them.
-/

namespace Tos.Sdag

open Pool (deref_of_some insert_of_ne insert_self)

/-- `calculateWork`: the largest `u128` divided by the upper 96 bits of the hash. -/
def calculateWork (hash : H256) : Except ChainError (BitVec 128) :=
  let res : BitVec 128 := (hash >>> 128).setWidth 128
  let max : BitVec 128 := BitVec.allOnes 128
  let res := res >>> 32
  if res = 0 then .error .divisionByZero else .ok (max / res)

/-- The work of a block is defined unless the upper 96 bits of its hash are zero. -/
lemma calculateWork_ok_iff (h : H256) : (∃ w, calculateWork h = .ok w) ↔ h >>> 160 ≠ 0 := by
  have hzero : ((h >>> 128).setWidth 128 : BitVec 128) >>> 32 = 0 ↔ h >>> 160 = 0 := by
    have hlt := h.isLt
    rw [← BitVec.toNat_inj, ← BitVec.toNat_inj]
    simp only [BitVec.toNat_ushiftRight, BitVec.toNat_setWidth, Nat.shiftRight_eq_div_pow,
      BitVec.ofNat_eq_ofNat, BitVec.toNat_ofNat]
    omega
  unfold calculateWork
  by_cases h0 : h >>> 160 = 0
  · simp [hzero.mpr h0, h0]
  · have h1 : ¬ ((h >>> 128).setWidth 128 : BitVec 128) >>> 32 = 0 := fun e => h0 (hzero.mp e)
    simp only [h1, if_false, h0, ne_eq, not_false_eq_true, iff_true]
    exact ⟨_, rfl⟩

/-- `class MainChain`: the pool and the tip `pre_main_chain`. -/
structure MainChain where
  m_pool : Pool
  pre_main_chain : H256

namespace MainChain

/-- The chain that consists of its genesis block. -/
def start (genesis : H256) (b : Block) : MainChain :=
  ⟨fun h => if h = genesis then some b else none, genesis⟩

/-- The hash of the genesis block of a small chain. -/
def genesisHash : H256 := 1 <<< 200

/-- A fresh block. -/
def freshBlock (links : List H256) (t : BlockType) : Block := ⟨links, t, .ref, 0, 0⟩

/-- The count of references a `BlockRef` belongs to: the one of the pool's own reference, or one
made from a raw pointer to the block. -/
inductive Owner where
  | pool
  | raw
  deriving DecidableEq, Repr

/-- `BlockRef`: the block it points to, and its count. -/
structure BlockRef where
  block : H256
  owner : Owner

/-- The main chain with the lifetimes of the objects: the count that `pre_main_chain` belongs to,
and the blocks whose objects have been deleted while the pool points to them. -/
structure Owned extends MainChain where
  owner : Owner
  freed : List H256

namespace Owned

/-- Read the object of a block. -/
def deref (s : Owned) (r : H256) : Except ChainError Block :=
  if r ∈ s.freed then .error (.freed r) else s.m_pool.deref r

/-- `MainChain::getMaxDifficultyBlock`: it reads the links of the block. -/
def getMaxDifficultyBlock (s : Owned) (r : H256) : Except ChainError H256 :=
  if r ∈ s.freed then .error (.freed r) else s.m_pool.getMaxDifficultyBlock r

/-- `r->m_type = t`. -/
def setType (s : Owned) (r : H256) (t : BlockType) : Except ChainError Owned :=
  if r ∈ s.freed then .error (.freed r) else .ok { s with m_pool := s.m_pool.setType r t }

/-- A `BlockRef` is assigned to or leaves its scope. The last reference of its count deletes the
object; in a count that was made from a raw pointer every reference here is the last one, and the
pool's count never ends. -/
def release (s : Owned) (r : BlockRef) : Owned :=
  match r.owner with
  | .pool => s
  | .raw => { s with freed := r.block :: s.freed }

/-- `pre_main_chain.reset(&block)`. -/
def reset (s : Owned) (block : H256) : Owned :=
  { s.release ⟨s.pre_main_chain, s.owner⟩ with pre_main_chain := block, owner := .raw }

/-- The loop that looks for the first `BT_MAIN` block on the path. -/
def findForkBegin : ℕ → Owned → BlockRef → Except ChainError (Owned × BlockRef)
  | 0, _, _ => .error .outOfFuel
  | fuel + 1, s, forkBegin => do
    if (← s.deref forkBegin.block).m_type ≠ .main then
      let next ← s.getMaxDifficultyBlock forkBegin.block
      findForkBegin fuel (s.release forkBegin) ⟨next, .pool⟩
    else return (s, forkBegin)

/-- The loop that labels the new branch. -/
def labelNewBranch (forkBegin : H256) :
    ℕ → Owned → BlockRef → Except ChainError (Owned × BlockRef)
  | 0, _, _ => .error .outOfFuel
  | fuel + 1, s, p1 =>
    if p1.block ≠ forkBegin then do
      let s ← s.setType p1.block .main
      let next ← s.getMaxDifficultyBlock p1.block
      labelNewBranch forkBegin fuel (s.release p1) ⟨next, .pool⟩
    else .ok (s, p1)

/-- The loop over the old branch. The next block is assigned to `p1`; `p2` stays. -/
def labelOldBranch (forkBegin p2 : H256) :
    ℕ → Owned → BlockRef → Except ChainError (Owned × BlockRef)
  | 0, _, _ => .error .outOfFuel
  | fuel + 1, s, p1 =>
    if p2 ≠ forkBegin then do
      let s ← s.setType p2 .miner
      let next ← s.getMaxDifficultyBlock p2
      labelOldBranch forkBegin p2 fuel (s.release p1) ⟨next, .pool⟩
    else .ok (s, p1)

/-- The branch of `addMinerBlock` for a block that does not continue the tip. `p2` is a copy of
`pre_main_chain`, in the same count, and so never the last reference. -/
def switchBranch (fuel : ℕ) (s : Owned) (block : H256) : Except ChainError Owned := do
  let p2 := s.pre_main_chain
  let (s, forkBegin) ← findForkBegin fuel s ⟨block, .raw⟩
  let (s, p1) ← labelNewBranch forkBegin.block fuel s ⟨block, .raw⟩
  let (s, p1) ← labelOldBranch forkBegin.block p2 fuel s p1
  return (s.release p1).release forkBegin

/-- `MainChain::addMinerBlock`. The reference to the parent is one of the pool's count. -/
def addMinerBlock (fuel : ℕ) (s : Owned) (block : H256) : Except ChainError Owned := do
  let pMaxDifficultyBlock ← s.getMaxDifficultyBlock block
  let work ← calculateWork block
  let sumDifficulty := work + (← s.deref pMaxDifficultyBlock).m_sumDifficulty
  let s := { s with m_pool := s.m_pool.setSumDifficulty block sumDifficulty }
  if sumDifficulty > (← s.deref s.pre_main_chain).m_sumDifficulty then
    let s ← if pMaxDifficultyBlock ≠ s.pre_main_chain then s.switchBranch fuel block else .ok s
    let s ← s.setType block .main
    return s.reset block
  else return s

/-- The call returns with the state `s'`. -/
def Returns (s : Owned) (block : H256) (s' : Owned) : Prop :=
  ∃ fuel, addMinerBlock fuel s block = .ok s'

/-- The labels of the main chain: all objects of the pool are alive, the blocks of type `BT_MAIN`
are those on the path from the tip, which ends at the genesis block, and all others have type
`BT_MINER`. -/
structure Labelled (s : Owned) (genesis : H256) : Prop where
  alive : ∀ h, (s.m_pool h).isSome → h ∉ s.freed
  path : s.m_pool.OnPath s.pre_main_chain genesis
  main : ∀ h, s.m_pool.HasType .main h ↔ s.m_pool.OnPath s.pre_main_chain h
  miner : ∀ h b, s.m_pool h = some b → b.m_type = .main ∨ b.m_type = .miner

/-- The work of the block, with the cumulative difficulty of its parent, is more than the
cumulative difficulty of the tip. -/
def Outweighs (s : Owned) (h : H256) : Prop :=
  ∃ p parent tip work, s.m_pool.Parent h p ∧ s.m_pool p = some parent ∧
    s.m_pool s.pre_main_chain = some tip ∧ calculateWork h = .ok work ∧
    work + parent.m_sumDifficulty > tip.m_sumDifficulty

/-- The upper 96 bits of the hash are not all zero, and if the block outweighs the tip, then the
tip is still the genesis block and the first link of the block. -/
def Continues (s : Owned) (genesis h : H256) : Prop :=
  h >>> 160 ≠ 0 ∧
    (s.Outweighs h → s.pre_main_chain = genesis ∧ s.m_pool.Parent h genesis)

/-! ### The loops -/

section Loops

variable {s s' : Owned} {r r' : BlockRef} {fuel : ℕ}

/-- A release forgets no object that has been deleted. -/
lemma freed_release (s : Owned) (r : BlockRef) : s.freed ⊆ (s.release r).freed := by
  cases h : r.owner with
  | pool => simp [release, h]
  | raw => simp [release, h]

/-- One round of the first loop. -/
lemma findForkBegin_succ (h : findForkBegin (fuel + 1) s r = .ok (s', r')) :
    r.block ∉ s.freed ∧ (s' = s ∧ r' = r ∨
      ∃ next, findForkBegin fuel (s.release r) ⟨next, .pool⟩ = .ok (s', r')) := by
  rw [findForkBegin, deref] at h
  split_ifs at h with hr
  · cases h
  refine ⟨hr, ?_⟩
  cases hb : s.m_pool.deref r.block with
  | error e => simp [hb, bind, Except.bind] at h
  | ok b =>
    simp only [hb, bind, Except.bind] at h
    split_ifs at h
    · cases hn : s.getMaxDifficultyBlock r.block with
      | error e => simp [hn] at h
      | ok next =>
        simp only [hn] at h
        exact Or.inr ⟨next, h⟩
    · simp only [pure, Except.pure, Except.ok.injEq, Prod.mk.injEq] at h
      exact Or.inl ⟨h.1.symm, h.2.symm⟩

/-- The first loop ends at a block that is alive, and forgets nothing that has been deleted. -/
lemma findForkBegin_freed (h : findForkBegin fuel s r = .ok (s', r')) :
    s.freed ⊆ s'.freed ∧ r'.block ∉ s'.freed := by
  induction fuel generalizing s r with
  | zero => simp [findForkBegin] at h
  | succ fuel ih =>
    obtain ⟨hr, ⟨rfl, rfl⟩ | ⟨next, h⟩⟩ := findForkBegin_succ h
    · exact ⟨List.Subset.refl _, hr⟩
    · obtain ⟨hsub, hr'⟩ := ih h
      exact ⟨fun x hx => hsub (freed_release s r hx), hr'⟩

/-- The second loop writes to the block it starts at, unless that is where it ends. -/
lemma labelNewBranch_of_freed {x : H256} (h : labelNewBranch x fuel s r = .ok (s', r'))
    (hr : r.block ∈ s.freed) : r.block = x := by
  cases fuel with
  | zero => simp [labelNewBranch] at h
  | succ fuel =>
    by_contra hne
    rw [labelNewBranch, if_pos hne, setType, if_pos hr] at h
    cases h

/-- The third loop ends only when it has nothing to do. -/
lemma labelOldBranch_eq_ok {x p2 : H256} (h : labelOldBranch x p2 fuel s r = .ok (s', r')) :
    p2 = x := by
  by_contra hne
  induction fuel generalizing s r with
  | zero => simp [labelOldBranch] at h
  | succ fuel ih =>
    rw [labelOldBranch, if_pos hne] at h
    cases hs : s.setType p2 .miner with
    | error e => simp [hs, bind, Except.bind] at h
    | ok t =>
      cases hn : t.getMaxDifficultyBlock p2 with
      | error e => simp [hs, hn, bind, Except.bind] at h
      | ok next =>
        simp only [hs, hn, bind, Except.bind] at h
        exact ih h

/-- **The branch with the loops never returns**, unless the block is the tip.

**Proof sketch.** If the block has not type `BT_MAIN`, the first loop assigns to `forkBegin`, the
only reference to the block in its count, and so deletes the block. It then ends at a block that
is alive, so at another one, and the second loop writes to the deleted block. If the block has
type `BT_MAIN`, the branches part at the block, and the third loop compares the tip with it. -/
lemma switchBranch_eq_ok {block : H256} (h : switchBranch fuel s block = .ok s') :
    s.pre_main_chain = block := by
  simp only [switchBranch, bind, Except.bind] at h
  cases h1 : findForkBegin fuel s ⟨block, .raw⟩ with
  | error e => simp [h1] at h
  | ok a =>
    obtain ⟨s₁, forkBegin⟩ := a
    cases h2 : labelNewBranch forkBegin.block fuel s₁ ⟨block, .raw⟩ with
    | error e => simp [h1, h2] at h
    | ok a =>
      obtain ⟨s₂, p1⟩ := a
      cases h3 : labelOldBranch forkBegin.block s.pre_main_chain fuel s₂ p1 with
      | error e => simp [h1, h2, h3] at h
      | ok a =>
        rw [labelOldBranch_eq_ok h3]
        cases fuel with
        | zero => simp [findForkBegin] at h1
        | succ fuel =>
          obtain ⟨-, ⟨-, rfl⟩ | ⟨next, h1⟩⟩ := findForkBegin_succ h1
          · rfl
          · obtain ⟨hsub, halive⟩ := findForkBegin_freed h1
            have hfreed : block ∈ s₁.freed := hsub (by simp [release])
            have heq : block = forkBegin.block := labelNewBranch_of_freed h2 hfreed
            exact absurd (heq ▸ hfreed) halive

end Loops

/-! ### One call -/

/-- What a call finds: the parent of the block and the tip, all alive, and the block is not the
tip. -/
structure Finds (s : Owned) (h p : H256) (parent tip : Block) : Prop where
  link : s.m_pool.Parent h p
  parent : s.m_pool p = some parent
  tip : s.m_pool s.pre_main_chain = some tip
  ne : h ≠ s.pre_main_chain
  alive : h ∉ s.freed ∧ p ∉ s.freed ∧ s.pre_main_chain ∉ s.freed

/-- The state after `block.m_sumDifficulty = d`. -/
def weigh (s : Owned) (h : H256) (d : BitVec 128) : Owned :=
  { s with m_pool := s.m_pool.setSumDifficulty h d }

/-- The state after the block has become the tip. -/
def promote (s : Owned) (h : H256) : Owned :=
  reset { s with m_pool := s.m_pool.setType h .main } h

section Call

variable {s s' : Owned} {h p : H256} {parent tip : Block} (hf : s.Finds h p parent tip)
include hf

/-- The block outweighs the tip when the sum does. -/
lemma Finds.outweighs_iff {work : BitVec 128} (hw : calculateWork h = .ok work) :
    s.Outweighs h ↔ work + parent.m_sumDifficulty > tip.m_sumDifficulty := by
  constructor
  · rintro ⟨p', parent', tip', work', hp', hparent', htip', hw', hgt⟩
    obtain rfl := hf.link.unique hp'
    obtain rfl : parent = parent' := Option.some.inj (hf.parent.symm.trans hparent')
    obtain rfl : tip = tip' := Option.some.inj (hf.tip.symm.trans htip')
    obtain rfl : work = work' := Except.ok.inj (hw.symm.trans hw')
    exact hgt
  · exact fun hgt => ⟨p, parent, tip, work, hf.link, hf.parent, hf.tip, hw, hgt⟩

/-- The call, from what it finds. -/
lemma Finds.addMinerBlock_eq (fuel : ℕ) :
    addMinerBlock fuel s h = (calculateWork h).bind fun work =>
      let t := s.weigh h (work + parent.m_sumDifficulty)
      if work + parent.m_sumDifficulty > tip.m_sumDifficulty then
        (if p ≠ s.pre_main_chain then t.switchBranch fuel h else .ok t).bind fun t =>
          (t.setType h .main).map fun t => t.reset h
      else .ok t := by
  have hget : s.getMaxDifficultyBlock h = .ok p := by
    rw [getMaxDifficultyBlock, if_neg hf.alive.1, Pool.getMaxDifficultyBlock_eq_ok.mpr hf.link]
  have hparent : s.deref p = .ok parent := by
    rw [deref, if_neg hf.alive.2.1, deref_of_some hf.parent]
  have htip : ∀ d, (s.weigh h d).deref s.pre_main_chain = .ok tip := by
    intro d
    have hpool : s.m_pool.setSumDifficulty h d s.pre_main_chain = some tip := by
      rw [Pool.setSumDifficulty, Pool.modify_of_ne hf.ne.symm, hf.tip]
    rw [deref, weigh, if_neg hf.alive.2.2, deref_of_some hpool]
  simp only [addMinerBlock, hget, hparent, bind, Except.bind]
  cases calculateWork h with
  | error e => rfl
  | ok work =>
    have ht := htip (work + parent.m_sumDifficulty)
    rw [weigh] at ht
    simp only [ht]
    split_ifs with hgt hpt
    · simp only [weigh]
      generalize switchBranch fuel _ h = q
      cases q with
      | error e => rfl
      | ok q =>
        dsimp only
        cases q.setType h .main <;> rfl
    · simp only [weigh]
      generalize setType _ h .main = q
      cases q <;> rfl
    · rfl

/-- **All that a call can do**: a block that does not outweigh the tip gets its sum, and one that
outweighs its parent, the tip, becomes the tip.

**Proof sketch.** By `switchBranch_eq_ok` the branch with the loops does not return, since the
block is not the tip; the other branches are read off. -/
theorem Finds.returns_iff :
    s.Returns h s' ↔ ∃ work, calculateWork h = .ok work ∧
      (¬ s.Outweighs h ∧ s' = s.weigh h (work + parent.m_sumDifficulty) ∨
        s.Outweighs h ∧ p = s.pre_main_chain ∧
          s' = (s.weigh h (work + parent.m_sumDifficulty)).promote h) := by
  have heq := hf.addMinerBlock_eq
  cases hw : calculateWork h with
  | error e => simp [Returns, heq, hw, Except.bind]
  | ok work =>
    simp only [hw, Except.bind] at heq
    have hset : ∀ t : Owned, t = s.weigh h (work + parent.m_sumDifficulty) →
        (t.setType h .main).map (fun t => t.reset h) = .ok (t.promote h) := by
      rintro t rfl
      rw [setType, if_neg (show h ∉ (s.weigh h _).freed from hf.alive.1)]
      rfl
    simp only [Returns, Except.ok.injEq, exists_eq_left', hf.outweighs_iff hw]
    by_cases hgt : work + parent.m_sumDifficulty > tip.m_sumDifficulty
    · by_cases hpt : p = s.pre_main_chain
      · simp only [heq, if_pos hgt, hpt, ne_eq, not_true_eq_false, if_false, hset _ rfl]
        simp [hgt, eq_comm]
      · simp only [hgt, hpt, not_true_eq_false, false_and, and_false, or_false, iff_false]
        rintro ⟨fuel, hret⟩
        rw [heq, if_pos hgt, if_pos hpt] at hret
        cases hq : switchBranch fuel (s.weigh h (work + parent.m_sumDifficulty)) h with
        | error e => simp [hq] at hret
        | ok q => exact hf.ne (switchBranch_eq_ok hq).symm
    · simp only [heq, if_neg hgt]
      simp [hgt, eq_comm]

end Call

/-! ### All runs -/

/-- The chain that consists of its genesis block, with a tip that the pool has given. -/
def ofGenesis (genesis : H256) (b : Block) : Owned := ⟨start genesis b, .pool, []⟩

/-- The states that are reached from a genesis block. A block enters once, with type `BT_MINER` and
behind its parent, and is given to `addMinerBlock` while it has that type; each call meets the
condition. -/
inductive Reached (genesis : H256) (b : Block) : Owned → Prop where
  | start : Reached genesis b (ofGenesis genesis b)
  | enter {s : Owned} {h p : H256} {c : Block} (hs : Reached genesis b s)
      (hnew : s.m_pool h = none) (htype : c.m_type = .miner) (hp : c.m_links.head? = some p)
      (hpool : (s.m_pool p).isSome) : Reached genesis b { s with m_pool := s.m_pool.insert h c }
  | call {s s' : Owned} {h : H256} (hs : Reached genesis b s) (hh : s.m_pool.HasType .miner h)
      (hc : s.Continues genesis h) (hret : s.Returns h s') : Reached genesis b s'

/-- Every block but the genesis block, which has no links, has its parent in the pool. -/
structure Rooted (pool : Pool) (genesis : H256) : Prop where
  root : ∃ b, pool genesis = some b ∧ b.m_links = []
  parent : ∀ h, (pool h).isSome → h ≠ genesis → ∃ p, pool.Parent h p ∧ (pool p).isSome

/-- Only the blocks and their links count. -/
lemma Rooted.congr {p q : Pool} {genesis : H256} (ht : Rooted p genesis) (h : q.SameGraph p) :
    Rooted q genesis := by
  constructor
  · obtain ⟨b, hb, hl⟩ := ht.root
    obtain ⟨c, hc, e⟩ := Option.map_eq_some_iff.mp ((h genesis).trans (by rw [hb]; rfl))
    exact ⟨c, hc, e.trans hl⟩
  · intro x hx hne
    rw [h.isSome] at hx
    obtain ⟨y, hy, hs⟩ := ht.parent x hx hne
    exact ⟨y, by rwa [h.parent], by rwa [h.isSome]⟩

/-- A new hash is not the one of a block of the pool. -/
lemma ne_of_new {pool : Pool} {h x : H256} {b : Block} (hnew : pool h = none)
    (hx : pool x = some b) : h ≠ x := by
  rintro rfl
  rw [hnew] at hx
  cases hx

/-- A block that enters behind its parent is a leaf. -/
lemma Rooted.insert {pool : Pool} {genesis h p : H256} {c : Block} (ht : Rooted pool genesis)
    (hnew : pool h = none) (hp : c.m_links.head? = some p) (hpool : (pool p).isSome) :
    Rooted (pool.insert h c) genesis := by
  obtain ⟨g, hg, hgl⟩ := ht.root
  have hold : ∀ {x}, (pool x).isSome → ((pool.insert h c) x).isSome := by
    intro x hx
    obtain ⟨b, hb⟩ := Option.isSome_iff_exists.mp hx
    rwa [insert_of_ne (ne_of_new hnew hb).symm]
  refine ⟨⟨g, by rwa [insert_of_ne (ne_of_new hnew hg).symm], hgl⟩, fun x hx hxg => ?_⟩
  by_cases hxh : x = h
  · exact ⟨p, ⟨c, by rw [hxh, insert_self], hp⟩, hold hpool⟩
  · rw [insert_of_ne hxh] at hx
    obtain ⟨y, ⟨b, hb, hy⟩, hys⟩ := ht.parent x hx hxg
    exact ⟨y, ⟨b, by rwa [insert_of_ne hxh], hy⟩, hold hys⟩

/-- The invariant of the chain: nothing has been deleted; the tip is the genesis block, given by
the pool, or a child of it that a call has made the tip; and these two are the blocks of type
`BT_MAIN`. -/
structure Inv (s : Owned) (genesis : H256) : Prop where
  freed : s.freed = []
  rooted : Rooted s.m_pool genesis
  tip : s.owner = .pool ∧ s.pre_main_chain = genesis ∨
    s.owner = .raw ∧ s.m_pool.Parent s.pre_main_chain genesis
  types : ∀ h b, s.m_pool h = some b →
    b.m_type = if h = genesis ∨ h = s.pre_main_chain then .main else .miner

section Inv

variable {s s' : Owned} {genesis h : H256} (hinv : s.Inv genesis)
include hinv

/-- The genesis block has no first link. -/
lemma Inv.not_parent_genesis {y : H256} : ¬ s.m_pool.Parent genesis y := by
  rintro ⟨b, hb, hy⟩
  obtain ⟨c, hc, hl⟩ := hinv.rooted.root
  obtain rfl : b = c := Option.some.inj (hb.symm.trans hc)
  rw [hl] at hy
  cases hy

/-- The path from the tip has one block or two. -/
lemma Inv.onPath_iff {x : H256} :
    s.m_pool.OnPath s.pre_main_chain x ↔ x = genesis ∨ x = s.pre_main_chain := by
  have hroot : ∀ {y}, s.m_pool.OnPath genesis y ↔ y = genesis := by
    intro y
    constructor
    · intro hy
      rcases Relation.ReflTransGen.cases_head hy with rfl | ⟨z, hz, -⟩
      · rfl
      · exact absurd hz hinv.not_parent_genesis
    · rintro rfl
      exact .refl
  rcases hinv.tip with ⟨-, ht⟩ | ⟨-, hp⟩
  · rw [ht, hroot, or_self]
  · constructor
    · intro hx
      by_cases hne : s.pre_main_chain = x
      · exact Or.inr hne.symm
      · exact Or.inl (hroot.mp (hx.of_parent hp hne))
    · rintro (rfl | rfl)
      · exact .single hp
      · exact .refl

/-- The tip is in the pool. -/
lemma Inv.tip_mem : ∃ tip, s.m_pool s.pre_main_chain = some tip := by
  rcases hinv.tip with ⟨-, ht⟩ | ⟨-, b, hb, -⟩
  · obtain ⟨b, hb, -⟩ := hinv.rooted.root
    exact ⟨b, ht ▸ hb⟩
  · exact ⟨b, hb⟩

/-- The invariant says that the labels are right. -/
lemma Inv.labelled : s.Labelled genesis where
  alive h _ := by simp [hinv.freed]
  path := hinv.onPath_iff.mpr (Or.inl rfl)
  main h := by
    rw [hinv.onPath_iff]
    constructor
    · rintro ⟨b, hb, hm⟩
      by_contra hne
      rw [hinv.types h b hb, if_neg hne] at hm
      cases hm
    · intro hx
      obtain ⟨b, hb⟩ : ∃ b, s.m_pool h = some b := by
        rcases hx with rfl | rfl
        · exact hinv.rooted.root.imp fun _ hb => hb.1
        · exact hinv.tip_mem
      exact ⟨b, hb, by rw [hinv.types h b hb, if_pos hx]⟩
  miner h b hb := by
    rw [hinv.types h b hb]
    split_ifs
    · exact Or.inl rfl
    · exact Or.inr rfl

/-- What a call with a block of type `BT_MINER` finds. -/
lemma Inv.finds (hh : s.m_pool.HasType .miner h) : ∃ p parent tip, s.Finds h p parent tip := by
  obtain ⟨b, hb, hm⟩ := hh
  have hne : ¬ (h = genesis ∨ h = s.pre_main_chain) := by
    intro he
    rw [hinv.types h b hb, if_pos he] at hm
    cases hm
  obtain ⟨p, hp, hsome⟩ := hinv.rooted.parent h (by simp [hb]) fun e => hne (Or.inl e)
  obtain ⟨parent, hparent⟩ := Option.isSome_iff_exists.mp hsome
  obtain ⟨tip, htip⟩ := hinv.tip_mem
  exact ⟨p, parent, tip, hp, hparent, htip, fun e => hne (Or.inr e), by simp [hinv.freed]⟩

/-- A call that gives a block its sum keeps the invariant. -/
lemma Inv.weigh (h : H256) (d : BitVec 128) : (s.weigh h d).Inv genesis := by
  have hgraph := s.m_pool.sameGraph_setSumDifficulty h d
  refine ⟨hinv.freed, hinv.rooted.congr hgraph, ?_, fun x c hc => ?_⟩
  · rw [Owned.weigh, hgraph.parent]
    exact hinv.tip
  · have ht := s.m_pool.map_type_setSumDifficulty h x d
    rw [show s.m_pool.setSumDifficulty h d x = some c from hc, Option.map_some, eq_comm,
      Option.map_eq_some_iff] at ht
    obtain ⟨b, hb, e⟩ := ht
    rw [← e]
    exact hinv.types x b hb

/-- A child of the genesis block that becomes the tip keeps the invariant, when the tip was the
genesis block: the tip that the pool has given is not deleted when it is replaced. -/
lemma Inv.promote (hg : s.pre_main_chain = genesis) (hp : s.m_pool.Parent h genesis) :
    (s.promote h).Inv genesis := by
  have hgraph := s.m_pool.sameGraph_setType h .main
  have howner : s.owner = .pool := by
    rcases hinv.tip with ⟨ho, -⟩ | ⟨-, hpar⟩
    · exact ho
    · exact absurd (hg ▸ hpar) hinv.not_parent_genesis
  have heq : s.promote h = ⟨⟨s.m_pool.setType h .main, h⟩, .raw, s.freed⟩ := by
    simp [Owned.promote, reset, release, howner]
  rw [heq]
  refine ⟨hinv.freed, hinv.rooted.congr hgraph, Or.inr ⟨rfl, by rwa [hgraph.parent]⟩,
    fun x c hc => ?_⟩
  have ht := s.m_pool.map_type_setType h x .main
  rw [show s.m_pool.setType h .main x = some c from hc, Option.map_some] at ht
  by_cases hx : x = h
  · rw [if_pos hx, eq_comm, Option.map_eq_some_iff] at ht
    obtain ⟨-, -, e⟩ := ht
    rw [if_pos (Or.inr hx), e]
  · rw [if_neg hx, eq_comm, Option.map_eq_some_iff] at ht
    obtain ⟨b, hb, e⟩ := ht
    rw [← e, hinv.types x b hb, hg]
    simp [hx]

/-- A call that meets the condition keeps the invariant. -/
lemma Inv.call (hh : s.m_pool.HasType .miner h) (hc : s.Continues genesis h)
    (hret : s.Returns h s') : s'.Inv genesis := by
  obtain ⟨p, parent, tip, hf⟩ := hinv.finds hh
  obtain ⟨work, -, ⟨-, rfl⟩ | ⟨hout, -, rfl⟩⟩ := hf.returns_iff.mp hret
  · exact hinv.weigh h _
  · obtain ⟨hg, hp⟩ := hc.2 hout
    refine (hinv.weigh h _).promote hg ?_
    rwa [Owned.weigh, (s.m_pool.sameGraph_setSumDifficulty h _).parent]

/-- A call that meets the condition returns. -/
lemma Inv.returns (hh : s.m_pool.HasType .miner h) (hc : s.Continues genesis h) :
    ∃ s', s.Returns h s' := by
  obtain ⟨p, parent, tip, hf⟩ := hinv.finds hh
  obtain ⟨work, hw⟩ := (calculateWork_ok_iff h).mpr hc.1
  by_cases hout : s.Outweighs h
  · obtain ⟨hg, hp⟩ := hc.2 hout
    exact ⟨_, hf.returns_iff.mpr ⟨work, hw, Or.inr ⟨hout, hg ▸ hf.link.unique hp, rfl⟩⟩⟩
  · exact ⟨_, hf.returns_iff.mpr ⟨work, hw, Or.inl ⟨hout, rfl⟩⟩⟩

/-- A call that returns with all objects alive meets the condition.

**Proof sketch.** If the block has become the tip, then it continues the tip, and the old tip has
been released. It is in the pool and alive, so the pool has given it, and it is the genesis
block. -/
lemma Inv.continues (hh : s.m_pool.HasType .miner h) (hret : s.Returns h s')
    (halive : ∀ x, (s'.m_pool x).isSome → x ∉ s'.freed) : s.Continues genesis h := by
  obtain ⟨p, parent, tip, hf⟩ := hinv.finds hh
  obtain ⟨work, hw, hcase⟩ := hf.returns_iff.mp hret
  refine ⟨(calculateWork_ok_iff h).mp ⟨work, hw⟩, fun hout => ?_⟩
  obtain ⟨hno, -⟩ | ⟨-, rfl, rfl⟩ := hcase
  · exact absurd hout hno
  rcases hinv.tip with ⟨-, ht⟩ | ⟨ho, -⟩
  · exact ⟨ht, ht ▸ hf.link⟩
  · refine absurd ?_ (halive s.pre_main_chain ?_)
    · simp [Owned.promote, reset, release, Owned.weigh, ho]
    · have hgraph := (Pool.sameGraph_setType _ h .main).trans (s.m_pool.sameGraph_setSumDifficulty h
        (work + parent.m_sumDifficulty))
      have hsome := hgraph.isSome s.pre_main_chain
      rw [hf.tip] at hsome
      simpa [Owned.promote, reset, release, Owned.weigh, ho] using hsome

/-- A block that enters behind its parent keeps the invariant. -/
lemma Inv.enter {p : H256} {c : Block} (hnew : s.m_pool h = none) (htype : c.m_type = .miner)
    (hp : c.m_links.head? = some p) (hpool : (s.m_pool p).isSome) :
    Inv { s with m_pool := s.m_pool.insert h c } genesis := by
  obtain ⟨g, hg, -⟩ := hinv.rooted.root
  have hgh : h ≠ genesis := ne_of_new hnew hg
  obtain ⟨tip, htip⟩ := hinv.tip_mem
  have hth : h ≠ s.pre_main_chain := ne_of_new hnew htip
  refine ⟨hinv.freed, hinv.rooted.insert hnew hp hpool, ?_, fun x b hb => ?_⟩
  · rcases hinv.tip with ht | ⟨ho, b, hb, hy⟩
    · exact Or.inl ht
    · exact Or.inr ⟨ho, b, (insert_of_ne hth.symm).trans hb, hy⟩
  · by_cases hxh : x = h
    · simp only [hxh, insert_self, Option.some.injEq] at hb
      simp [← hb, htype, hxh, hgh, hth]
    · simp only [insert_of_ne hxh] at hb
      exact hinv.types x b hb

end Inv

/-- The invariant holds at the beginning. -/
lemma inv_ofGenesis {genesis : H256} {b : Block} (hlinks : b.m_links = [])
    (hmain : b.m_type = .main) : (ofGenesis genesis b).Inv genesis := by
  have hpool : ∀ x c, (start genesis b).m_pool x = some c ↔ x = genesis ∧ b = c := by
    intro x c
    simp only [start]
    split_ifs with hx <;> simp [hx]
  refine ⟨rfl, ⟨⟨b, (hpool _ _).mpr ⟨rfl, rfl⟩, hlinks⟩, fun x hx hne => ?_⟩, Or.inl ⟨rfl, rfl⟩,
    fun x c hc => ?_⟩
  · obtain ⟨c, hc⟩ := Option.isSome_iff_exists.mp hx
    exact absurd ((hpool x c).mp hc).1 hne
  · obtain ⟨rfl, rfl⟩ := (hpool x c).mp hc
    rw [if_pos (Or.inl rfl), hmain]

/-- The invariant holds in every state that is reached. -/
lemma Reached.inv {genesis : H256} {b : Block} (hlinks : b.m_links = []) (hmain : b.m_type = .main)
    {s : Owned} (hs : Reached genesis b s) : s.Inv genesis := by
  induction hs with
  | start => exact inv_ofGenesis hlinks hmain
  | enter _ hnew htype hp hpool ih => exact ih.enter hnew htype hp hpool
  | call _ hh hc hret ih => exact ih.call hh hc hret

/-- **The labels of the main chain.** In every state that is reached from a genesis block, all
objects of the pool are alive, the blocks of type `BT_MAIN` are those on the path from the tip down
to the genesis block and all others have type `BT_MINER`; and a call with a block of type `BT_MINER`
returns with such a state again exactly when it meets the condition. -/
theorem labelled_of_reached (genesis : H256) (b : Block) (hlinks : b.m_links = [])
    (hmain : b.m_type = .main) (s : Owned) (hs : Reached genesis b s) :
    s.Labelled genesis ∧ ∀ h, s.m_pool.HasType .miner h →
      ((∃ s', s.Returns h s' ∧ s'.Labelled genesis) ↔ s.Continues genesis h) := by
  have hinv := hs.inv hlinks hmain
  refine ⟨hinv.labelled, fun h hh => ⟨?_, fun hc => ?_⟩⟩
  · rintro ⟨s', hret, hl⟩
    exact hinv.continues hh hret hl.alive
  · obtain ⟨s', hret⟩ := hinv.returns hh hc
    exact ⟨s', hret, (hinv.call hh hc hret).labelled⟩

/-! ### Small chains -/

/-- The hash of the first block of a small chain. -/
def firstHash : H256 := 1 <<< 255

/-- The hash of another block, with more work. -/
def heavyHash : H256 := 1 <<< 250

/-- The small chain after its first block has entered. -/
def entered : Owned :=
  { ofGenesis genesisHash (freshBlock [] .main) with
    m_pool := (start genesisHash (freshBlock [] .main)).m_pool.insert firstHash
      (freshBlock [genesisHash] .miner) }

/-- The small chain after its first block has become the tip. -/
def begun : Owned :=
  ⟨⟨(entered.m_pool.setSumDifficulty firstHash 0x1ffffffff).setType firstHash .main, firstHash⟩,
    .raw, []⟩

/-- The small chain after another block has entered behind the block `p`. -/
def grown (p : H256) : Owned :=
  { begun with m_pool := begun.m_pool.insert heavyHash (freshBlock [p] .miner) }

lemma reached_entered : Reached genesisHash (freshBlock [] .main) entered :=
  .enter .start rfl rfl rfl rfl

lemma continues_entered : entered.Continues genesisHash firstHash :=
  ⟨by decide, fun _ => ⟨rfl, freshBlock [genesisHash] .miner, rfl, rfl⟩⟩

lemma reached_begun : Reached genesisHash (freshBlock [] .main) begun :=
  .call reached_entered ⟨freshBlock [genesisHash] .miner, rfl, rfl⟩ continues_entered ⟨0, rfl⟩

lemma reached_grown (p : H256) (hp : (begun.m_pool p).isSome) :
    Reached genesisHash (freshBlock [] .main) (grown p) :=
  .enter reached_begun rfl rfl rfl hp

/-- The block that continues the genesis block becomes the tip, with the right labels; a heavier
block behind it does not. -/
theorem labelled_of_reached_entered :
    (∃ s', entered.Returns firstHash s' ∧ s'.Labelled genesisHash) ∧
      ¬ ∃ s', (grown firstHash).Returns heavyHash s' ∧ s'.Labelled genesisHash := by
  constructor
  · exact ((labelled_of_reached genesisHash (freshBlock [] .main) rfl rfl entered
      reached_entered).2 firstHash ⟨freshBlock [genesisHash] .miner, rfl, rfl⟩).mpr
        continues_entered
  · rw [(labelled_of_reached genesisHash (freshBlock [] .main) rfl rfl (grown firstHash)
      (reached_grown firstHash rfl)).2 heavyHash ⟨freshBlock [firstHash] .miner, rfl, rfl⟩]
    intro hc
    have hg := (hc.2 ⟨firstHash, _, _, _, ⟨_, rfl, rfl⟩, rfl, rfl, rfl, by decide⟩).1
    exact absurd hg (by decide)

/-- A heavier block on another branch: the call deletes the block and then writes to it. A heavier
block behind the tip: the call deletes the old tip, to which the pool still points. -/
theorem addMinerBlock_deletes :
    (Reached genesisHash (freshBlock [] .main) (grown genesisHash) ∧
      (grown genesisHash).m_pool.HasType .miner heavyHash ∧
      ∀ fuel, addMinerBlock (fuel + 2) (grown genesisHash) heavyHash =
        .error (.freed heavyHash)) ∧
    Reached genesisHash (freshBlock [] .main) (grown firstHash) ∧
      (grown firstHash).m_pool.HasType .miner heavyHash ∧
      ∃ s', (grown firstHash).Returns heavyHash s' ∧ (s'.m_pool firstHash).isSome ∧
        s'.deref firstHash = .error (.freed firstHash) :=
  ⟨⟨reached_grown genesisHash rfl, ⟨_, rfl, rfl⟩, fun _ => rfl⟩, reached_grown firstHash rfl,
    ⟨_, rfl, rfl⟩, _, ⟨0, rfl⟩, rfl, rfl⟩

end Owned

end MainChain

end Tos.Sdag
