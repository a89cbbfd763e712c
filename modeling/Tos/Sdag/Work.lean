import Tos.Sdag.MainChain

/-!
# Cumulative work

`MainChain::addMinerBlock` adds the work of a block to the cumulative difficulty of its parent, in
unsigned integers of 128 bits, and keeps the block with the largest cumulative difficulty as the
tip. Three things can go wrong: the upper 96 bits of the hash are zero, so that `calculateWork`
divides by zero; the sum does not fit and wraps around; or the block outweighs a tip that is not
the genesis block or not its parent, and the call deletes an object that the pool points to
(`Tos.Sdag.MainChain`). As long as none of them happens, the sums are those of the integers.

## Main results

* `MainChain.Owned.Weighed.of_returns`: a call for which nothing goes wrong keeps the sums right.
* `MainChain.Owned.weighed_of_processed`: all runs, and the calls for which nothing goes wrong are
  exactly those that keep the sums right.
-/

namespace Tos.Sdag

/-- The work of a hash: the largest integer of 128 bits divided by the upper 96 bits. -/
def workOf (h : H256) : ℕ := (2 ^ 128 - 1) / (h.toNat / 2 ^ 160)

/-- The work that is calculated, when it is, is the one of the hash. -/
lemma calculateWork_toNat {h : H256} {w : BitVec 128} (hw : calculateWork h = .ok w) :
    w.toNat = workOf h := by
  unfold calculateWork at hw
  dsimp only at hw
  split_ifs at hw
  rw [← Except.ok.inj hw, BitVec.toNat_udiv, BitVec.toNat_allOnes, workOf]
  congr 1
  have hlt := h.isLt
  simp only [BitVec.toNat_ushiftRight, BitVec.toNat_setWidth, Nat.shiftRight_eq_div_pow]
  omega

/-- The work is a positive integer unless the upper 96 bits of the hash are zero. -/
lemma workOf_pos_iff {h : H256} : 0 < workOf h ↔ h >>> 160 ≠ 0 := by
  have hlt := h.isLt
  have hzero : h >>> 160 = 0 ↔ h.toNat / 2 ^ 160 = 0 := by
    rw [← BitVec.toNat_inj, BitVec.toNat_ushiftRight, Nat.shiftRight_eq_div_pow]
    rfl
  rw [ne_eq, hzero, workOf, Nat.div_pos_iff]
  omega

namespace Pool

/-- The cumulative difficulty of a block of the pool. -/
def sumDifficulty (pool : Pool) (x : H256) : Option ℕ :=
  (pool x).map fun b => b.m_sumDifficulty.toNat

lemma sumDifficulty_of_some {pool : Pool} {x : H256} {b : Block} (h : pool x = some b) :
    pool.sumDifficulty x = some b.m_sumDifficulty.toNat := by
  rw [sumDifficulty, h, Option.map_some]

lemma exists_of_sumDifficulty {pool : Pool} {x : H256} {n : ℕ} (h : pool.sumDifficulty x = some n) :
    ∃ b, pool x = some b ∧ b.m_sumDifficulty.toNat = n := Option.map_eq_some_iff.mp h

lemma sumDifficulty_setSumDifficulty_of_ne (pool : Pool) {x y : H256} (d : BitVec 128)
    (h : y ≠ x) : (pool.setSumDifficulty x d).sumDifficulty y = pool.sumDifficulty y := by
  rw [sumDifficulty, setSumDifficulty, modify_of_ne h, sumDifficulty]

lemma sumDifficulty_setSumDifficulty_self {pool : Pool} {x : H256} (d : BitVec 128)
    (h : (pool x).isSome) : (pool.setSumDifficulty x d).sumDifficulty x = some d.toNat := by
  obtain ⟨b, hb⟩ := Option.isSome_iff_exists.mp h
  simp [sumDifficulty, setSumDifficulty, hb]

/-- Setting what is there changes nothing. -/
lemma setSumDifficulty_eq_self {pool : Pool} {x : H256} {b : Block} (h : pool x = some b) :
    pool.setSumDifficulty x b.m_sumDifficulty = pool := by
  funext y
  rw [setSumDifficulty, modify_apply]
  split_ifs with hy
  · rw [hy, h]
    rfl
  · rfl

/-- A change of the type changes no cumulative difficulty. -/
lemma sumDifficulty_setType (pool : Pool) (r : H256) (t : BlockType) (x : H256) :
    (pool.setType r t).sumDifficulty x = pool.sumDifficulty x := by
  rw [sumDifficulty, setType, modify_apply, sumDifficulty]
  split_ifs
  · rw [Option.map_map]
    rfl
  · rfl

end Pool

/-- The work of the path from a block down to the genesis block, with the value `v` of the genesis
block. -/
inductive PathWork (pool : Pool) (genesis : H256) (v : ℕ) : H256 → ℕ → Prop where
  | genesis : PathWork pool genesis v genesis v
  | above {x p : H256} {n : ℕ} (hne : x ≠ genesis) (hp : pool.Parent x p)
      (h : PathWork pool genesis v p n) : PathWork pool genesis v x (workOf x + n)

section PathWork

variable {pool q : Pool} {genesis x p : H256} {v m n : ℕ}

lemma PathWork.unique (hm : PathWork pool genesis v x m) (hn : PathWork pool genesis v x n) :
    m = n := by
  induction hm generalizing n with
  | genesis =>
    cases hn with
    | genesis => rfl
    | above hne => exact absurd rfl hne
  | above hne hp _ ih =>
    cases hn with
    | genesis => exact absurd rfl hne
    | above _ hp' h' =>
      obtain rfl := hp.unique hp'
      rw [ih h']

/-- The work of a path depends on the parents of its blocks. -/
lemma PathWork.congr {P : Set H256} (hP : ∀ y ∈ P, ∀ z, pool.Parent y z → q.Parent y z ∧ z ∈ P)
    (hx : x ∈ P) (h : PathWork pool genesis v x n) : PathWork q genesis v x n := by
  induction h with
  | genesis => exact .genesis
  | above hne hp _ ih =>
    obtain ⟨hq, hz⟩ := hP _ hx _ hp
    exact .above hne hq (ih hz)

end PathWork

namespace MainChain.Owned

/-- The sums are right for the blocks `P` processed so far: each block is alive and has the work of
its path, which is more than that of its parent, and none has more than the tip. -/
structure Weighed (s : Owned) (genesis : H256) (v : ℕ) (P : Set H256) : Prop where
  alive : ∀ x ∈ P, x ∉ s.freed
  exact : ∀ x ∈ P, ∃ n, s.m_pool.sumDifficulty x = some n ∧ PathWork s.m_pool genesis v x n
  parent : ∀ x ∈ P, x ≠ genesis → ∃ p ∈ P, s.m_pool.Parent x p ∧
    ∃ m n, s.m_pool.sumDifficulty p = some m ∧ s.m_pool.sumDifficulty x = some n ∧ m < n
  tip : s.pre_main_chain ∈ P
  max : ∀ x ∈ P, ∃ m n, s.m_pool.sumDifficulty x = some m ∧
    s.m_pool.sumDifficulty s.pre_main_chain = some n ∧ m ≤ n
  genesis : genesis ∈ P ∧ ∀ y, ¬ s.m_pool.Parent genesis y

/-- The upper 96 bits of the hash are not all zero; the work, with the cumulative difficulty of the
parent, fits in 128 bits; and if the block outweighs the tip, then the tip is still the genesis
block and the first link of the block. -/
structure Accumulates (s : Owned) (genesis x : H256) : Prop where
  work : x >>> 160 ≠ 0
  fits : ∀ p n, s.m_pool.Parent x p → s.m_pool.sumDifficulty p = some n → workOf x + n < 2 ^ 128
  tip : s.Outweighs x → s.pre_main_chain = genesis ∧ s.m_pool.Parent x genesis

/-- The states that are reached from a genesis block by calls for blocks whose parents have been
processed, with the blocks processed. Other blocks can be in the pool, and enter it at any time. -/
inductive Processed (genesis : H256) (b : Block) : Owned → Set H256 → Prop where
  | start {pool : Pool} (h : pool genesis = some b) :
      Processed genesis b ⟨⟨pool, genesis⟩, .pool, []⟩ {genesis}
  | enter {s : Owned} {P : Set H256} {x : H256} (c : Block) (hs : Processed genesis b s P)
      (hx : s.m_pool x = none) : Processed genesis b { s with m_pool := s.m_pool.insert x c } P
  | call {s s' : Owned} {P : Set H256} {x p : H256} (hs : Processed genesis b s P)
      (hp : s.m_pool.Parent x p) (hP : p ∈ P) (hacc : s.Accumulates genesis x)
      (hret : s.Returns x s') : Processed genesis b s' (insert x P)

/-- Nothing has been deleted, and the tip is the one that the pool has given exactly when it is the
genesis block. -/
structure Unspoilt (s : Owned) (genesis : H256) : Prop where
  freed : s.freed = []
  owner : s.owner = .pool ↔ s.pre_main_chain = genesis

/-! ### One call -/

section Call

variable {s s' : Owned} {genesis x p : H256} {v : ℕ} {P : Set H256}

/-- The parents of processed blocks have been processed. -/
lemma Weighed.mem_of_parent (hw : s.Weighed genesis v P) (hx : x ∈ P)
    (hp : s.m_pool.Parent x p) : p ∈ P := by
  have hne : x ≠ genesis := fun e => hw.genesis.2 p (e ▸ hp)
  obtain ⟨p', hp', hpar, -⟩ := hw.parent x hx hne
  rwa [hp.unique hpar]

/-- A processed block is in the pool. -/
lemma Weighed.lookup (hw : s.Weighed genesis v P) (hx : x ∈ P) : ∃ b, s.m_pool x = some b := by
  obtain ⟨n, hn, -⟩ := hw.exact x hx
  obtain ⟨b, hb, -⟩ := Pool.exists_of_sumDifficulty hn
  exact ⟨b, hb⟩

/-- What a call finds. -/
lemma Weighed.finds (hw : s.Weighed genesis v P) (hu : s.Unspoilt genesis) (hx : x ∉ P)
    (hp : s.m_pool.Parent x p) (hP : p ∈ P) : ∃ c tip, s.Finds x p c tip := by
  obtain ⟨c, hc⟩ := hw.lookup hP
  obtain ⟨tip, htip⟩ := hw.lookup hw.tip
  exact ⟨c, tip, hp, hc, htip, fun e => hx (e ▸ hw.tip), by simp [hu.freed]⟩

/-- A block with the right sum, that becomes the tip if it has more than the tip. -/
lemma Weighed.extend (hw : s.Weighed genesis v P) (hp : s.m_pool.Parent x p) (hP : p ∈ P)
    (hx : x ∉ P) {n t : ℕ} (halive : s'.freed = []) (hgraph : s'.m_pool.SameGraph s.m_pool)
    (hkeep : ∀ y, y ≠ x → s'.m_pool.sumDifficulty y = s.m_pool.sumDifficulty y)
    (hn : s.m_pool.sumDifficulty p = some n)
    (hsum : s'.m_pool.sumDifficulty x = some (workOf x + n))
    (hpos : 0 < workOf x) (ht : s.m_pool.sumDifficulty s.pre_main_chain = some t)
    (htip : s'.pre_main_chain = x ∧ t < workOf x + n ∨
      s'.pre_main_chain = s.pre_main_chain ∧ workOf x + n ≤ t) :
    s'.Weighed genesis v (insert x P) := by
  have hold : ∀ y ∈ P, s'.m_pool.sumDifficulty y = s.m_pool.sumDifficulty y :=
    fun y hy => hkeep y fun e => hx (e ▸ hy)
  have hpath : ∀ y ∈ P, ∀ k, PathWork s.m_pool genesis v y k →
      PathWork s'.m_pool genesis v y k := by
    intro y hy k hk
    refine hk.congr (fun z hz u hu => ⟨?_, hw.mem_of_parent hz hu⟩) hy
    rwa [hgraph.parent]
  obtain ⟨n', hn', hpn⟩ := hw.exact p hP
  obtain rfl : n' = n := Option.some.inj (hn'.symm.trans hn)
  have hxg : x ≠ genesis := fun e => hx (e ▸ hw.genesis.1)
  have hq : s'.m_pool.Parent x p := by rwa [hgraph.parent]
  refine ⟨fun y _ => by simp [halive], ?_, ?_, ?_, ?_, Or.inr hw.genesis.1, ?_⟩
  · rintro y (rfl | hy)
    · exact ⟨_, hsum, .above hxg hq (hpath p hP _ hpn)⟩
    · obtain ⟨k, hk, hpk⟩ := hw.exact y hy
      exact ⟨k, (hold y hy).trans hk, hpath y hy k hpk⟩
  · rintro y (rfl | hy) hyg
    · exact ⟨p, Or.inr hP, hq, n', _, (hold p hP).trans hn, hsum, by omega⟩
    · obtain ⟨z, hz, hyz, k, l, hk, hl, hlt⟩ := hw.parent y hy hyg
      refine ⟨z, Or.inr hz, ?_, k, l, (hold z hz).trans hk, (hold y hy).trans hl, hlt⟩
      rwa [hgraph.parent]
  · rcases htip with ⟨e, -⟩ | ⟨e, -⟩
    · exact e ▸ Set.mem_insert _ _
    · exact e ▸ Or.inr hw.tip
  · -- the tip has the larger of the two sums
    have hmax : ∃ l, s'.m_pool.sumDifficulty s'.pre_main_chain = some l ∧ t ≤ l ∧
        workOf x + n' ≤ l := by
      rcases htip with ⟨e, hlt⟩ | ⟨e, hle⟩
      · exact ⟨_, e ▸ hsum, hlt.le, le_rfl⟩
      · exact ⟨t, e ▸ (hold _ hw.tip).trans ht, le_rfl, hle⟩
    obtain ⟨l, hl, htl, hxl⟩ := hmax
    rintro y (rfl | hy)
    · exact ⟨_, l, hsum, hl, hxl⟩
    · obtain ⟨k, t', hk, ht', hle⟩ := hw.max y hy
      obtain rfl : t' = t := Option.some.inj (ht'.symm.trans ht)
      exact ⟨k, l, (hold y hy).trans hk, hl, hle.trans htl⟩
  · rw [hgraph.parent]
    exact hw.genesis.2

/-- A block that has been processed has the sum that is calculated again. -/
lemma Weighed.sum_eq (hw : s.Weighed genesis v P) (hx : x ∈ P) (hp : s.m_pool.Parent x p)
    {b c : Block} (hb : s.m_pool x = some b) (hc : s.m_pool p = some c) :
    b.m_sumDifficulty.toNat = workOf x + c.m_sumDifficulty.toNat ∧ 0 < workOf x := by
  have hxg : x ≠ genesis := fun e => hw.genesis.2 p (e ▸ hp)
  have hP := hw.mem_of_parent hx hp
  obtain ⟨n, hn, hpn⟩ := hw.exact x hx
  obtain ⟨m, hm, hpm⟩ := hw.exact p hP
  obtain rfl : b.m_sumDifficulty.toNat = n :=
    Option.some.inj ((Pool.sumDifficulty_of_some hb).symm.trans hn)
  obtain rfl : c.m_sumDifficulty.toNat = m :=
    Option.some.inj ((Pool.sumDifficulty_of_some hc).symm.trans hm)
  have heq := hpn.unique (.above hxg hp hpm)
  obtain ⟨p', -, hpar, k, l, hk, hl, hlt⟩ := hw.parent x hx hxg
  obtain rfl := hp.unique hpar
  obtain rfl : c.m_sumDifficulty.toNat = k :=
    Option.some.inj ((Pool.sumDifficulty_of_some hc).symm.trans hk)
  obtain rfl : b.m_sumDifficulty.toNat = l :=
    Option.some.inj ((Pool.sumDifficulty_of_some hb).symm.trans hl)
  exact ⟨heq, by omega⟩

/-- A block that has been processed does not outweigh the tip. -/
lemma Weighed.not_gt (hw : s.Weighed genesis v P) (hx : x ∈ P) (hp : s.m_pool.Parent x p)
    {b c tip : Block} (hb : s.m_pool x = some b) (hc : s.m_pool p = some c)
    (htip : s.m_pool s.pre_main_chain = some tip) {work : BitVec 128}
    (hwork : calculateWork x = .ok work) :
    work + c.m_sumDifficulty = b.m_sumDifficulty ∧
      ¬ work + c.m_sumDifficulty > tip.m_sumDifficulty := by
  have hsum : work + c.m_sumDifficulty = b.m_sumDifficulty := by
    refine BitVec.eq_of_toNat_eq ?_
    rw [BitVec.toNat_add, calculateWork_toNat hwork, ← (hw.sum_eq hx hp hb hc).1,
      Nat.mod_eq_of_lt b.m_sumDifficulty.isLt]
  obtain ⟨m, n, hm, hn, hmn⟩ := hw.max x hx
  rw [Pool.sumDifficulty_of_some hb, Option.some.injEq] at hm
  rw [Pool.sumDifficulty_of_some htip, Option.some.injEq] at hn
  refine ⟨hsum, ?_⟩
  rw [hsum, gt_iff_lt, BitVec.lt_def, hm, hn]
  omega

/-- A call for a block that has been processed changes nothing. -/
lemma Weighed.addMinerBlock_of_mem (hw : s.Weighed genesis v P) (hx : x ∈ P)
    (hp : s.m_pool.Parent x p) (fuel : ℕ) : addMinerBlock fuel s x = .ok s := by
  have hP := hw.mem_of_parent hx hp
  obtain ⟨b, hb⟩ := hw.lookup hx
  obtain ⟨c, hc⟩ := hw.lookup hP
  obtain ⟨tip, htip⟩ := hw.lookup hw.tip
  obtain ⟨work, hwork⟩ := (calculateWork_ok_iff x).mpr
    (workOf_pos_iff.mp (hw.sum_eq hx hp hb hc).2)
  obtain ⟨hbit, hle⟩ := hw.not_gt hx hp hb hc htip hwork
  rw [hbit] at hle
  have hget : s.getMaxDifficultyBlock x = .ok p := by
    rw [getMaxDifficultyBlock, if_neg (hw.alive x hx), Pool.getMaxDifficultyBlock_eq_ok.mpr hp]
  have hread : ∀ y ∈ P, ∀ d, s.m_pool y = some d → s.deref y = .ok d := by
    intro y hy d hd
    rw [deref, if_neg (hw.alive y hy), Pool.deref_of_some hd]
  simp only [addMinerBlock, hget, hwork, hread p hP c hc, bind, Except.bind, hbit,
    Pool.setSumDifficulty_eq_self hb, hread _ hw.tip tip htip, if_neg hle]
  rfl

/-- **A call for which nothing goes wrong keeps the sums right.**

**Proof sketch.** A block that has been processed keeps its sum. Otherwise the sum is the one of the
integers, because it fits, and `Finds.returns_iff` says what becomes the tip: the block, if it has
more than the genesis block, which is the tip then and is not deleted; or the old tip. -/
theorem Weighed.of_returns (hw : s.Weighed genesis v P) (hu : s.Unspoilt genesis)
    (hp : s.m_pool.Parent x p) (hP : p ∈ P) (hacc : s.Accumulates genesis x)
    (hret : s.Returns x s') : s'.Weighed genesis v (insert x P) ∧ s'.Unspoilt genesis := by
  by_cases hx : x ∈ P
  · obtain ⟨fuel, hret⟩ := hret
    rw [hw.addMinerBlock_of_mem hx hp, Except.ok.injEq] at hret
    rw [Set.insert_eq_of_mem hx, ← hret]
    exact ⟨hw, hu⟩
  obtain ⟨c, tip, hf⟩ := hw.finds hu hx hp hP
  obtain ⟨work, hwork, hcase⟩ := hf.returns_iff.mp hret
  have hn := Pool.sumDifficulty_of_some hf.parent
  have ht := Pool.sumDifficulty_of_some hf.tip
  have hsum : (work + c.m_sumDifficulty).toNat = workOf x + c.m_sumDifficulty.toNat := by
    rw [BitVec.toNat_add, calculateWork_toNat hwork, Nat.mod_eq_of_lt (hacc.fits p _ hp hn)]
  have hpos : 0 < workOf x := workOf_pos_iff.mpr hacc.work
  have hsome : (s.m_pool x).isSome := by
    obtain ⟨b, hb, -⟩ := hp
    simp [hb]
  have hgraph := s.m_pool.sameGraph_setSumDifficulty x (work + c.m_sumDifficulty)
  have hkeep : ∀ y, y ≠ x → (s.m_pool.setSumDifficulty x (work + c.m_sumDifficulty)).sumDifficulty y
      = s.m_pool.sumDifficulty y :=
    fun y hy => Pool.sumDifficulty_setSumDifficulty_of_ne _ _ hy
  have hself : (s.m_pool.setSumDifficulty x (work + c.m_sumDifficulty)).sumDifficulty x =
      some (workOf x + c.m_sumDifficulty.toNat) := by
    rw [Pool.sumDifficulty_setSumDifficulty_self _ hsome, hsum]
  rw [hf.outweighs_iff hwork, gt_iff_lt, BitVec.lt_def, hsum] at hcase
  obtain ⟨hle, rfl⟩ | ⟨hgt, -, rfl⟩ := hcase
  · exact ⟨hw.extend hp hP hx hu.freed hgraph hkeep hn hself hpos ht
      (Or.inr ⟨rfl, Nat.not_lt.mp hle⟩), hu.freed, hu.owner⟩
  · have hout : s.Outweighs x := by
      rw [hf.outweighs_iff hwork, gt_iff_lt, BitVec.lt_def, hsum]
      exact hgt
    have howner := hu.owner.mpr (hacc.tip hout).1
    have hxg : x ≠ genesis := fun e => hx (e ▸ hw.genesis.1)
    have heq : (s.weigh x (work + c.m_sumDifficulty)).promote x =
        ⟨⟨(s.m_pool.setSumDifficulty x (work + c.m_sumDifficulty)).setType x .main, x⟩, .raw,
          s.freed⟩ := by
      simp [promote, reset, release, weigh, howner]
    rw [heq]
    refine ⟨hw.extend hp hP hx hu.freed ((Pool.sameGraph_setType _ x .main).trans hgraph)
      (fun y hy => ?_) hn ?_ hpos ht (Or.inl ⟨rfl, hgt⟩), hu.freed, by simp [hxg]⟩
    · exact (Pool.sumDifficulty_setType _ x .main y).trans (hkeep y hy)
    · exact (Pool.sumDifficulty_setType _ x .main x).trans hself

/-- **When nothing goes wrong, the call returns.** -/
theorem Weighed.exists_returns (hw : s.Weighed genesis v P) (hu : s.Unspoilt genesis)
    (hp : s.m_pool.Parent x p) (hP : p ∈ P) (hacc : s.Accumulates genesis x) :
    ∃ s', s.Returns x s' := by
  by_cases hx : x ∈ P
  · exact ⟨s, 0, hw.addMinerBlock_of_mem hx hp 0⟩
  obtain ⟨c, tip, hf⟩ := hw.finds hu hx hp hP
  obtain ⟨work, hwork⟩ := (calculateWork_ok_iff x).mpr hacc.work
  by_cases hout : s.Outweighs x
  · obtain ⟨hg, hpar⟩ := hacc.tip hout
    exact ⟨_, hf.returns_iff.mpr ⟨work, hwork, Or.inr ⟨hout, hg ▸ hp.unique hpar, rfl⟩⟩⟩
  · exact ⟨_, hf.returns_iff.mpr ⟨work, hwork, Or.inl ⟨hout, rfl⟩⟩⟩

/-- The links of the blocks after a call that returns. -/
lemma Finds.sameGraph {c tip : Block} (hf : s.Finds x p c tip) (hret : s.Returns x s') :
    s'.m_pool.SameGraph s.m_pool := by
  obtain ⟨work, -, ⟨-, rfl⟩ | ⟨-, -, rfl⟩⟩ := hf.returns_iff.mp hret
  · exact s.m_pool.sameGraph_setSumDifficulty x _
  · have hgraph := (Pool.sameGraph_setType _ x .main).trans
      (s.m_pool.sameGraph_setSumDifficulty x (work + c.m_sumDifficulty))
    cases ho : s.owner <;> simpa [promote, reset, release, weigh, ho] using hgraph

/-- If a call returns and the sums are right afterwards, then nothing has gone wrong. -/
theorem Weighed.accumulates (hw : s.Weighed genesis v P) (hu : s.Unspoilt genesis)
    (hp : s.m_pool.Parent x p) (hP : p ∈ P) (hret : s.Returns x s')
    (hw' : s'.Weighed genesis v (insert x P)) : s.Accumulates genesis x := by
  by_cases hx : x ∈ P
  · obtain ⟨b, hb⟩ := hw.lookup hx
    obtain ⟨c, hc⟩ := hw.lookup hP
    obtain ⟨hsum, hpos⟩ := hw.sum_eq hx hp hb hc
    refine ⟨workOf_pos_iff.mp hpos, fun p' n hp' hn => ?_, ?_⟩
    · obtain rfl := hp.unique hp'
      rw [Pool.sumDifficulty_of_some hc, Option.some.injEq] at hn
      rw [← hn, ← hsum]
      exact b.m_sumDifficulty.isLt
    · rintro ⟨p', c', tip, work, hp', hc', htip, hwork, hgt⟩
      obtain rfl := hp.unique hp'
      exact absurd hgt (hw.not_gt hx hp hb hc' htip hwork).2
  obtain ⟨c, tip, hf⟩ := hw.finds hu hx hp hP
  obtain ⟨work, hwork, hcase⟩ := hf.returns_iff.mp hret
  refine ⟨(calculateWork_ok_iff x).mp ⟨work, hwork⟩, fun p' n hp' hn => ?_, fun hout => ?_⟩
  · -- the sum of the block is at least its work and what its parent had before the call
    obtain rfl := hp.unique hp'
    have hpx : p ≠ x := fun e => hx (e ▸ hP)
    have hp'' : s'.m_pool.Parent x p := by rwa [(hf.sameGraph hret).parent]
    obtain ⟨b, hb⟩ := hw'.lookup (Set.mem_insert x P)
    obtain ⟨c', hc'⟩ := hw'.lookup (Or.inr hP)
    have hkeep : s'.m_pool.sumDifficulty p = s.m_pool.sumDifficulty p := by
      obtain ⟨-, rfl⟩ | ⟨-, -, rfl⟩ := hcase
      · exact Pool.sumDifficulty_setSumDifficulty_of_ne _ _ hpx
      · have h := (Pool.sumDifficulty_setType _ x .main p).trans
          (s.m_pool.sumDifficulty_setSumDifficulty_of_ne (work + c.m_sumDifficulty) hpx)
        cases ho : s.owner <;> simpa [promote, reset, release, weigh, ho] using h
    rw [hn, Pool.sumDifficulty_of_some hc', Option.some.injEq] at hkeep
    have hsum := (hw'.sum_eq (Set.mem_insert x P) hp'' hb hc').1
    rw [hkeep] at hsum
    rw [← hsum]
    exact b.m_sumDifficulty.isLt
  · obtain ⟨hno, -⟩ | ⟨-, rfl, rfl⟩ := hcase
    · exact absurd hout hno
    have hg : s.pre_main_chain = genesis := by
      by_contra hne
      have ho : s.owner = .raw := by
        cases h : s.owner with
        | pool => exact absurd (hu.owner.mp h) hne
        | raw => rfl
      refine hw'.alive _ (Or.inr hw.tip) ?_
      simp [promote, reset, release, weigh, ho]
    exact ⟨hg, hg ▸ hp⟩

end Call

/-! ### All runs -/

/-- A chain whose genesis block only has been processed. -/
lemma weighed_start {pool : Pool} {genesis : H256} {b : Block} (h : pool genesis = some b)
    (hlinks : b.m_links = []) :
    Weighed ⟨⟨pool, genesis⟩, .pool, []⟩ genesis b.m_sumDifficulty.toNat {genesis} := by
  have hsum := Pool.sumDifficulty_of_some h
  refine ⟨fun _ _ => List.not_mem_nil, ?_, ?_, rfl, ?_, rfl, ?_⟩
  · rintro x rfl
    exact ⟨_, hsum, .genesis⟩
  · rintro x rfl hx
    exact absurd rfl hx
  · rintro x rfl
    exact ⟨_, _, hsum, hsum, le_rfl⟩
  · rintro y ⟨c, hc, hy⟩
    obtain rfl : b = c := Option.some.inj (h.symm.trans hc)
    rw [hlinks] at hy
    cases hy

/-- A block that enters the pool changes nothing for the others. -/
lemma Weighed.enter {s : Owned} {genesis x : H256} {v : ℕ} {P : Set H256}
    (hw : s.Weighed genesis v P) (hx : s.m_pool x = none) (c : Block) :
    Weighed { s with m_pool := s.m_pool.insert x c } genesis v P := by
  have hne : ∀ y ∈ P, y ≠ x := by
    intro y hy
    obtain ⟨b, hb⟩ := hw.lookup hy
    exact (ne_of_new hx hb).symm
  have hsum : ∀ y ∈ P, (s.m_pool.insert x c).sumDifficulty y = s.m_pool.sumDifficulty y := by
    intro y hy
    rw [Pool.sumDifficulty, Pool.insert_of_ne (hne y hy), Pool.sumDifficulty]
  have hparent : ∀ y ∈ P, ∀ z, (s.m_pool.insert x c).Parent y z ↔ s.m_pool.Parent y z := by
    intro y hy z
    rw [Pool.Parent, Pool.insert_of_ne (hne y hy), Pool.Parent]
  refine ⟨hw.alive, fun y hy => ?_, fun y hy hyg => ?_, hw.tip, fun y hy => ?_, hw.genesis.1,
    fun z hz => ?_⟩
  · obtain ⟨n, hn, hpn⟩ := hw.exact y hy
    exact ⟨n, (hsum y hy).trans hn, hpn.congr
      (fun u hu z hz => ⟨(hparent u hu z).mpr hz, hw.mem_of_parent hu hz⟩) hy⟩
  · obtain ⟨p, hp, hpar, m, n, hm, hn, hlt⟩ := hw.parent y hy hyg
    exact ⟨p, hp, (hparent y hy p).mpr hpar, m, n, (hsum p hp).trans hm, (hsum y hy).trans hn, hlt⟩
  · obtain ⟨m, n, hm, hn, hle⟩ := hw.max y hy
    exact ⟨m, n, (hsum y hy).trans hm, (hsum _ hw.tip).trans hn, hle⟩
  · exact hw.genesis.2 z ((hparent _ hw.genesis.1 z).mp hz)

/-- The sums are right, and nothing has been deleted, in every state of a run. -/
lemma Processed.weighed {genesis : H256} {b : Block} (hlinks : b.m_links = []) {s : Owned}
    {P : Set H256} (h : Processed genesis b s P) :
    s.Weighed genesis b.m_sumDifficulty.toNat P ∧ s.Unspoilt genesis := by
  induction h with
  | start h => exact ⟨weighed_start h hlinks, rfl, iff_of_true rfl rfl⟩
  | enter c _ hx ih => exact ⟨ih.1.enter hx c, ih.2.freed, ih.2.owner⟩
  | call _ hp hP hacc hret ih => exact ih.1.of_returns ih.2 hp hP hacc hret

/-- **Cumulative work.** In every state that is reached from a genesis block by calls for which
nothing goes wrong, each block processed is alive and has the exact work of its path, which is more
than that of its parent, and the tip has the maximum. And a call for a block whose parent has been
processed returns and leads to such a state again exactly when nothing goes wrong with it. -/
theorem weighed_of_processed (genesis : H256) (b : Block) (hlinks : b.m_links = [])
    (s : Owned) (P : Set H256) (h : Processed genesis b s P) :
    s.Weighed genesis b.m_sumDifficulty.toNat P ∧
      ∀ x p, s.m_pool.Parent x p → p ∈ P →
        ((∃ s', s.Returns x s' ∧ s'.Weighed genesis b.m_sumDifficulty.toNat (insert x P)) ↔
          s.Accumulates genesis x) := by
  obtain ⟨hw, hu⟩ := h.weighed hlinks
  refine ⟨hw, fun x p hp hP => ⟨?_, fun hacc => ?_⟩⟩
  · rintro ⟨s', hret, hw'⟩
    exact hw.accumulates hu hp hP hret hw'
  · obtain ⟨s', hret⟩ := hw.exists_returns hu hp hP hacc
    exact ⟨s', hret, (hw.of_returns hu hp hP hacc hret).1⟩

/-! ### Hashes with few bits -/

/-- A hash whose upper 96 bits are zero. -/
def tinyHash : H256 := 1

/-- Two hashes with the largest work there is. -/
def richHash (n : BitVec 256) : H256 := (1 <<< 160) + n

/-- The small chain with a block of a given hash behind its genesis block and a second one behind
that, before the first call. -/
def twoBehind (x y : H256) : Owned :=
  { ofGenesis genesisHash (freshBlock [] .main) with
    m_pool := ((start genesisHash (freshBlock [] .main)).m_pool.insert x
      (freshBlock [genesisHash] .miner)).insert y (freshBlock [x] .miner) }

/-- The chain after the first of them has become the tip. -/
def firstOfTwo (x y : H256) (d : BitVec 128) : Owned :=
  ⟨⟨((twoBehind x y).m_pool.setSumDifficulty x d).setType x .main, x⟩, .raw, []⟩

/-- Nothing goes wrong with the first block of a chain, if its work is defined. -/
lemma accumulates_behind_genesis {s : Owned} {x : H256} (hwork : x >>> 160 ≠ 0)
    (htip : s.pre_main_chain = genesisHash) (hp : s.m_pool.Parent x genesisHash)
    (hsum : s.m_pool.sumDifficulty genesisHash = some 0) : s.Accumulates genesisHash x := by
  refine ⟨hwork, fun p n hp' hn => ?_, fun _ => ⟨htip, hp⟩⟩
  obtain rfl := hp.unique hp'
  obtain rfl : 0 = n := Option.some.inj (hsum.symm.trans hn)
  have hle : workOf x ≤ 2 ^ 128 - 1 := Nat.div_le_self _ _
  omega

/-- The first block of the small chain is processed: it is the tip, with its work as the sum. -/
lemma processed_begun :
    Processed genesisHash (freshBlock [] .main) begun {firstHash, genesisHash} := by
  have hparent : entered.m_pool.Parent firstHash genesisHash :=
    ⟨freshBlock [genesisHash] .miner, rfl, rfl⟩
  exact .call (.start rfl) hparent rfl
    (accumulates_behind_genesis (by decide) rfl hparent rfl) ⟨0, rfl⟩

/-- The theorem at the small chain and its first block, and then at a heavier block behind that. -/
theorem weighed_of_processed_entered :
    (entered.Accumulates genesisHash firstHash ∧ ∃ s', entered.Returns firstHash s' ∧
      s'.Weighed genesisHash (0 : BitVec 128).toNat {firstHash, genesisHash}) ∧
    ¬ ∃ s', (grown firstHash).Returns heavyHash s' ∧
      s'.Weighed genesisHash (0 : BitVec 128).toNat {heavyHash, firstHash, genesisHash} := by
  have hparent : entered.m_pool.Parent firstHash genesisHash :=
    ⟨freshBlock [genesisHash] .miner, rfl, rfl⟩
  have hacc := accumulates_behind_genesis (s := entered) (x := firstHash) (by decide) rfl
    hparent rfl
  refine ⟨⟨hacc, ((weighed_of_processed genesisHash (freshBlock [] .main) rfl entered {genesisHash}
    (.start rfl)).2 firstHash genesisHash hparent rfl).mpr hacc⟩, fun h => ?_⟩
  have hbad := ((weighed_of_processed genesisHash (freshBlock [] .main) rfl (grown firstHash)
    {firstHash, genesisHash} (.enter _ processed_begun rfl)).2 heavyHash firstHash
      ⟨_, rfl, rfl⟩ (Or.inl rfl)).mp h
  have hg := (hbad.tip ⟨firstHash, _, _, _, ⟨_, rfl, rfl⟩, rfl, rfl, rfl, by decide⟩).1
  exact absurd hg (by decide)

/-- For a hash whose upper 96 bits are zero the call throws. The second of two blocks with the
largest work has a smaller sum than the first. And a heavier block behind the tip deletes the old
tip, whose sum is then read from freed memory. -/
theorem addMinerBlock_tiny_rich :
    (Processed genesisHash (freshBlock [] .main) (twoBehind tinyHash firstHash) {genesisHash} ∧
      (twoBehind tinyHash firstHash).m_pool.Parent tinyHash genesisHash ∧
      ∀ fuel, addMinerBlock fuel (twoBehind tinyHash firstHash) tinyHash =
        .error .divisionByZero) ∧
    (∃ s, Processed genesisHash (freshBlock [] .main) s {richHash 0, genesisHash} ∧
      s.m_pool.Parent (richHash 1) (richHash 0) ∧
      ∃ s', s.Returns (richHash 1) s' ∧
        s'.m_pool.sumDifficulty (richHash 0) = some (2 ^ 128 - 1) ∧
        s'.m_pool.sumDifficulty (richHash 1) = some (2 ^ 128 - 2)) ∧
    Processed genesisHash (freshBlock [] .main) (grown firstHash) {firstHash, genesisHash} ∧
      (grown firstHash).m_pool.Parent heavyHash firstHash ∧
      ∃ s', (grown firstHash).Returns heavyHash s' ∧
        s'.deref firstHash = .error (.freed firstHash) := by
  refine ⟨⟨.start rfl, ⟨_, rfl, rfl⟩, fun _ => rfl⟩, ?_, .enter _ processed_begun rfl,
    ⟨_, rfl, rfl⟩, _, ⟨0, rfl⟩, rfl⟩
  have hparent : (twoBehind (richHash 0) (richHash 1)).m_pool.Parent (richHash 0) genesisHash :=
    ⟨freshBlock [genesisHash] .miner, rfl, rfl⟩
  exact ⟨firstOfTwo (richHash 0) (richHash 1) (BitVec.allOnes 128),
    .call (.start rfl) hparent rfl
      (accumulates_behind_genesis (by decide) rfl hparent rfl) ⟨0, rfl⟩,
    ⟨_, rfl, rfl⟩, _, ⟨0, rfl⟩, by decide +kernel, by decide +kernel⟩

end MainChain.Owned

end Tos.Sdag
