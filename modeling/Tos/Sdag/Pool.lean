import Mathlib.Logic.Relation
import Tos.Sdag.FixedHash

/-!
# Blocks in the pool

The part of the class `Block` of `sdag/Block.h` that the main chain works on: the links of a
block and its local variables. `MainChain` refers to blocks by pointers that it gets from the
pool by hash, and the pool gives the same object for the same hash; so a `BlockRef` is the
hash of the block here, and the pool is the heap. Its objects are alive unless
`Tos.Sdag.MainChain` says otherwise: only `addMinerBlock` makes a second owner of an object.

## Main results

* `Pool.modify_apply` and the lemmas after it: changing the local variables of a
  block leaves the links of all blocks as they are.
-/

namespace Tos.Sdag

/-- `enum BlockType`. -/
inductive BlockType where
  | miner
  | main
  | transaction
  deriving DecidableEq, Repr

/-- `enum BlockStatus`. -/
inductive BlockStatus where
  | none
  | ref
  | confirm
  | applied
  deriving DecidableEq, Repr

/-- The links of a block and its local variables. -/
structure Block where
  m_links : List H256
  m_type : BlockType
  m_status : BlockStatus
  m_sumDifficulty : BitVec 128
  m_refMainBlock : H256
  deriving DecidableEq, Repr

/-- The ways a function of the main chain fails to return. -/
inductive ChainError where
  /-- A null `BlockRef` is dereferenced: the pool has no block with this hash. -/
  | nullBlock (hash : H256)
  /-- `m_links[0]` of a block without links. -/
  | noLink (hash : H256)
  /-- Division by zero. -/
  | divisionByZero
  /-- An access to the object of a block behind its `delete`. -/
  | freed (hash : H256)
  /-- The fuel of a loop or a recursion has run out. -/
  | outOfFuel
  deriving DecidableEq, Repr

/-- The blocks of the pool, by hash. -/
abbrev Pool := H256 → Option Block

namespace Pool

/-- Dereference a `BlockRef`. -/
def deref (pool : Pool) (r : H256) : Except ChainError Block :=
  match pool r with
  | some b => .ok b
  | none => .error (.nullBlock r)

/-- Change the block `r` refers to. -/
def modify (pool : Pool) (r : H256) (f : Block → Block) : Pool :=
  fun h => if h = r then (pool h).map f else pool h

/-- `r->m_type = t`. -/
def setType (pool : Pool) (r : H256) (t : BlockType) : Pool :=
  pool.modify r fun b => { b with m_type := t }

/-- `r->m_sumDifficulty = d`. -/
def setSumDifficulty (pool : Pool) (r : H256) (d : BitVec 128) : Pool :=
  pool.modify r fun b => { b with m_sumDifficulty := d }

/-- Put a block into the pool. -/
def insert (pool : Pool) (h : H256) (b : Block) : Pool := fun k => if k = h then some b else pool k

/-- `MainChain::getMaxDifficultyBlock`: the block behind the first link (links are ordered by
difficulty). -/
def getMaxDifficultyBlock (pool : Pool) (r : H256) : Except ChainError H256 := do
  match (← pool.deref r).m_links with
  | [] => .error (.noLink r)
  | l :: _ => .ok l

/-! ### The graph of the pool -/

/-- `y` is the first link of the block `x`. -/
def Parent (pool : Pool) (x y : H256) : Prop := ∃ b, pool x = some b ∧ b.m_links.head? = some y

/-- `y` lies on the `links[0]`-path from `x`. -/
def OnPath (pool : Pool) : H256 → H256 → Prop := Relation.ReflTransGen pool.Parent

/-- `y` is a link of the block `x`. -/
def Link (pool : Pool) (x y : H256) : Prop := ∃ b, pool x = some b ∧ y ∈ b.m_links

/-- `y` can be reached from `x` through links. -/
def Reach (pool : Pool) : H256 → H256 → Prop := Relation.ReflTransGen pool.Link

/-- The block has the given type. -/
def HasType (pool : Pool) (t : BlockType) (h : H256) : Prop := ∃ b, pool h = some b ∧ b.m_type = t

variable {pool : Pool} {r : H256}

lemma deref_of_some {b : Block} (h : pool r = some b) : pool.deref r = .ok b := by
  simp [deref, h]

lemma getMaxDifficultyBlock_eq_ok {r y : H256} :
    pool.getMaxDifficultyBlock r = .ok y ↔ pool.Parent r y := by
  cases h : pool r with
  | none => simp [getMaxDifficultyBlock, deref, h, bind, Except.bind, Parent]
  | some b =>
    cases hl : b.m_links <;>
      simp [getMaxDifficultyBlock, deref, h, bind, Except.bind, Parent, hl]

/-- A block has at most one first link. -/
lemma Parent.unique {x y z : H256} (hy : pool.Parent x y) (hz : pool.Parent x z) : y = z := by
  obtain ⟨b, hb, hy⟩ := hy
  obtain ⟨c, hc, hz⟩ := hz
  obtain rfl : b = c := by simpa [hb] using hc
  simpa [hy] using hz

lemma Parent.link {x y : H256} (h : pool.Parent x y) : pool.Link x y := by
  obtain ⟨b, hb, hy⟩ := h
  exact ⟨b, hb, List.mem_of_mem_head? hy⟩

/-- A path that goes on goes through the first link. -/
lemma OnPath.of_parent {x y z : H256} (h : pool.OnPath x z) (hp : pool.Parent x y)
    (hne : x ≠ z) : pool.OnPath y z := by
  rcases Relation.ReflTransGen.cases_head h with rfl | ⟨w, hw, hwz⟩
  · exact absurd rfl hne
  · rwa [← hw.unique hp]

variable {h : H256}

lemma hasType_iff {t : BlockType} : pool.HasType t h ↔ (pool h).map Block.m_type = some t := by
  simp [HasType, Option.map_eq_some_iff]

/-! ### Changing the local variables of a block -/

lemma modify_apply (pool : Pool) (r h : H256) (f : Block → Block) :
    pool.modify r f h = if h = r then (pool h).map f else pool h := rfl

@[simp] lemma modify_of_ne {f : Block → Block} (hne : h ≠ r) :
    pool.modify r f h = pool h := if_neg hne

@[simp] lemma modify_self (pool : Pool) (r : H256) (f : Block → Block) :
    pool.modify r f r = (pool r).map f := if_pos rfl

@[simp] lemma insert_self (pool : Pool) (h : H256) (b : Block) : pool.insert h b h = some b :=
  if_pos rfl

@[simp] lemma insert_of_ne {h x : H256} {b : Block} (hne : x ≠ h) :
    pool.insert h b x = pool x := if_neg hne

/-- Two pools with the same graph: the same blocks with the same links. -/
def SameGraph (p q : Pool) : Prop := ∀ h, (p h).map Block.m_links = (q h).map Block.m_links

variable {p q : Pool}

lemma SameGraph.trans {p q r : Pool} (h : SameGraph p q) (h' : SameGraph q r) : SameGraph p r :=
  fun x => (h x).trans (h' x)

/-- A change of local variables keeps the graph. -/
lemma sameGraph_modify (p : Pool) (r : H256) {f : Block → Block}
    (hf : ∀ b, (f b).m_links = b.m_links) : SameGraph (p.modify r f) p := by
  intro h
  by_cases hr : h = r
  · cases hp : p h <;> simp [hr ▸ hp, hr, hf]
  · rw [modify_of_ne hr]

lemma sameGraph_setType (p : Pool) (r : H256) (t : BlockType) : SameGraph (p.setType r t) p :=
  sameGraph_modify p r fun _ => rfl

lemma sameGraph_setSumDifficulty (p : Pool) (r : H256) (d : BitVec 128) :
    SameGraph (p.setSumDifficulty r d) p :=
  sameGraph_modify p r fun _ => rfl

/-- The types after `r->m_type = t`. -/
lemma map_type_setType (p : Pool) (r h : H256) (t : BlockType) :
    (p.setType r t h).map Block.m_type =
      if h = r then (p h).map fun _ => t else (p h).map Block.m_type := by
  rw [setType, modify_apply]
  split_ifs
  · rw [Option.map_map]
    rfl
  · rfl

/-- The types after `r->m_sumDifficulty = d`. -/
lemma map_type_setSumDifficulty (p : Pool) (r h : H256) (d : BitVec 128) :
    (p.setSumDifficulty r d h).map Block.m_type = (p h).map Block.m_type := by
  rw [setSumDifficulty, modify_apply]
  split_ifs
  · rw [Option.map_map]
    rfl
  · rfl

lemma SameGraph.link (h : SameGraph p q) : p.Link = q.Link := by
  funext x y
  have hx := h x
  simp only [Link, eq_iff_iff]
  cases hp : p x <;> cases hq : q x <;> simp_all

lemma SameGraph.parent (h : SameGraph p q) : p.Parent = q.Parent := by
  funext x y
  have hx := h x
  simp only [Parent, eq_iff_iff]
  cases hp : p x <;> cases hq : q x <;> simp_all

lemma SameGraph.onPath (h : SameGraph p q) : p.OnPath = q.OnPath := by
  rw [OnPath, h.parent, OnPath]

lemma SameGraph.reach (h : SameGraph p q) : p.Reach = q.Reach := by
  rw [Reach, h.link, Reach]

lemma SameGraph.isSome (h : SameGraph p q) (x : H256) : (p x).isSome = (q x).isSome := by
  have hx := congrArg Option.isSome (h x)
  simpa using hx

end Pool

end Tos.Sdag
