import Tos.Sdag.Confirm

/-!
# Confirmation when the main chain changes

A step makes some `links[0]`-path down to the genesis block the main chain, which takes the
blocks that leave it off, and confirms the blocks below one of its blocks again.

The walk turns back at a block as soon as the main block recorded for it is on the main chain.
That is right as long as nothing below such a block has been confirmed by a block that is off
the chain now. A block that left the chain and comes back breaks this: a block recorded as
confirmed by it hides blocks below that were confirmed from another branch in the meantime. So
the result is for the runs in which no block comes back to the main chain while a block is
recorded as confirmed by it.

## Main results

* `Consistent.switchTo`: a change of the main chain keeps the invariant.
* `settled_of_switches`: after every step, what is below the checked block is
  confirmed by blocks of the current main chain.
-/

namespace Tos.Sdag

/-- The block is one of `M n, …, M 0`. -/
def onChain (M : ℕ → H256) (n : ℕ) (h : H256) : Bool := (List.range (n + 1)).any fun i => M i == h

/-- The types after `M n, …, M 0` has become the main chain. -/
def Pool.switchTo (pool : Pool) (M : ℕ → H256) (n : ℕ) : Pool := fun h =>
  (pool h).map fun b => { b with
    m_type := if onChain M n h then .main
      else if b.m_type = .main then .miner
      else b.m_type }

/-- A step: the new main chain `M n, …, M 0`, and the block of it that is checked. -/
structure Switch where
  M : ℕ → H256
  n : ℕ
  k : ℕ

/-- The effect of a step. -/
def Switch.run (st : Switch) (fuel : ℕ) (s : Pool) : Except ChainError Pool :=
  recursionCheck fuel (s.switchTo st.M st.n) (st.M st.k) (st.M (st.k + 1))

/-- The step ends, with the pool `s'`. -/
def Switch.Returns (st : Switch) (s s' : Pool) : Prop :=
  ∃ N, ∀ fuel ≥ N, st.run fuel s = .ok s'

/-- The step follows a `links[0]`-path down to the genesis block, and checks a block of it
that is not the tip. -/
structure Switch.Valid (st : Switch) (genesis : H256) (s : Pool) : Prop where
  parent : ∀ i < st.n, s.Parent (st.M (i + 1)) (st.M i)
  last : st.M 0 = genesis
  genesis : ∃ b, s genesis = some b ∧ b.m_links = []
  lt : st.k < st.n

/-- No block comes back to the main chain while a block is recorded as confirmed by it. -/
def Switch.NoReturn (st : Switch) (s : Pool) : Prop :=
  ∀ x b, s x = some b → b.m_status = .confirm →
    s.HasType .main b.m_refMainBlock ∨ onChain st.M st.n b.m_refMainBlock = false

/-- The pools reached from `s₀` by steps in which no confirming block comes back. -/
inductive SwitchRun (genesis : H256) (s₀ : Pool) : Pool → Prop where
  | start : SwitchRun genesis s₀ s₀
  | step {s s' : Pool} {st : Switch} (hs : SwitchRun genesis s₀ s) (hst : st.Valid genesis s)
      (hno : st.NoReturn s) (h : st.Returns s s') : SwitchRun genesis s₀ s'

/-! ### The new main chain -/

lemma onChain_iff {M : ℕ → H256} {n : ℕ} {h : H256} : onChain M n h = true ↔ ∃ i ≤ n, h = M i := by
  simp only [onChain, List.any_eq_true, List.mem_range, beq_iff_eq, Nat.lt_succ_iff]
  exact exists_congr fun i => and_congr_right fun _ => eq_comm

variable {s : Pool} {M : ℕ → H256} {n : ℕ}

lemma sameGraph_switchTo : (s.switchTo M n).SameGraph s := by
  intro h
  simp only [Pool.switchTo, Option.map_map]
  rfl

variable {x : H256}

lemma switchTo_eq_some {b : Block} (h : s.switchTo M n x = some b) :
    ∃ c, s x = some c ∧ c.m_status = b.m_status ∧ c.m_refMainBlock = b.m_refMainBlock := by
  obtain ⟨c, hc, rfl⟩ := Option.map_eq_some_iff.mp h
  exact ⟨c, hc, rfl, rfl⟩

lemma switchTo_of_some {c : Block} (h : s x = some c) :
    ∃ b, s.switchTo M n x = some b ∧ b.m_links = c.m_links ∧ b.m_status = c.m_status ∧
      b.m_refMainBlock = c.m_refMainBlock :=
  ⟨_, congrArg (Option.map _) h, rfl, rfl, rfl⟩

/-- The blocks of the new main chain. -/
lemma switchTo_main_iff :
    (s.switchTo M n).HasType .main x ↔ (s x).isSome ∧ onChain M n x = true := by
  rw [Pool.hasType_iff]
  cases hx : s x with
  | none => simp [Pool.switchTo, hx]
  | some b =>
    cases hc : onChain M n x <;> simp [Pool.switchTo, hx, hc]
    split_ifs with hm <;> simp [hm]

/-- A block that is or was on a main chain is on the new one or has type `BT_MINER`. -/
lemma switchTo_main_or_miner (h : s.HasType .main x ∨ s.HasType .miner x) :
    (s.switchTo M n).HasType .main x ∨ (s.switchTo M n).HasType .miner x := by
  obtain ⟨b, hb, ht⟩ : ∃ b, s x = some b ∧ (b.m_type = .main ∨ b.m_type = .miner) := by
    rcases h with ⟨b, hb, ht⟩ | ⟨b, hb, ht⟩
    · exact ⟨b, hb, Or.inl ht⟩
    · exact ⟨b, hb, Or.inr ht⟩
  rw [Pool.hasType_iff, Pool.hasType_iff]
  cases hc : onChain M n x <;> rcases ht with ht | ht <;> simp [Pool.switchTo, hb, hc, ht]

variable {st : Switch} {genesis : H256}

/-- A valid step makes its path the main chain. -/
lemma Switch.Valid.isMainChain (h : st.Valid genesis s) :
    IsMainChain (s.switchTo st.M st.n) st.M st.n := by
  have hgraph : (s.switchTo st.M st.n).SameGraph s := sameGraph_switchTo
  obtain ⟨b, hb, hl⟩ := h.genesis
  refine ⟨fun i hi => by rw [hgraph.parent]; exact h.parent i hi, fun x => ?_, ?_⟩
  · rw [switchTo_main_iff, onChain_iff, and_iff_right_iff_imp]
    rintro ⟨i, hi, rfl⟩
    cases i with
    | zero => simp [h.last, hb]
    | succ i =>
      obtain ⟨c, hc, -⟩ := h.parent i (by omega)
      simp [hc]
  · obtain ⟨c, hc, hcl, -⟩ := switchTo_of_some (M := st.M) (n := st.n) hb
    rw [h.last]
    exact ⟨c, hc, hcl.trans hl⟩

/-- The path from a block of a main chain stays on the chain. -/
lemma IsMainChain.of_onPath (hM : IsMainChain s M n) {i : ℕ} (hi : i ≤ n)
    (h : s.OnPath (M i) x) : ∃ j ≤ i, x = M j := by
  induction h with
  | refl => exact ⟨i, le_rfl, rfl⟩
  | tail _ hp ih =>
    obtain ⟨j, hj, rfl⟩ := ih
    cases j with
    | zero =>
      obtain ⟨b, hb, hl⟩ := hM.genesis
      obtain ⟨c, hc, hp⟩ := hp
      rw [hb, Option.some.injEq] at hc
      simp [← hc, hl] at hp
    | succ j => exact ⟨j, by omega, hp.unique (hM.parent j (by omega))⟩

lemma IsMainChain.onPath (hM : IsMainChain s M n) {i j : ℕ} (hij : i ≤ j) (hj : j ≤ n) :
    s.OnPath (M j) (M i) := by
  induction j, hij using Nat.le_induction with
  | base => exact .refl
  | succ j _ ih => exact .head (hM.parent j (by omega)) (ih (by omega))

/-- Below a settled block, the main blocks recorded are not higher.

**Proof sketch.** Suppose `y` is a link of `x` and the main block `M j` recorded for `y` is
higher than the main block `M i` recorded for `x`. Then the first link of `M j` leads to `M i`,
hence to `x` and `y`, so that `y` must be this first link. But `y` is then a block of the chain
that is not below `M i` and yet is reached from it. -/
lemma IsMainChain.le_of_link (hdag : Dag s) (hM : IsMainChain s M n) {i j : ℕ} (hj : j ≤ n)
    {x y : H256} (hx : ConfirmedFrom s (M i) x) (hy : ConfirmedFrom s (M j) y)
    (hxy : s.Link x y) : j ≤ i := by
  by_contra hlt
  obtain ⟨j, rfl⟩ := Nat.exists_eq_succ_of_ne_zero (show j ≠ 0 by omega)
  have hdown : s.Reach (M j) (M i) := hM.reach (by omega) (by omega)
  rcases hy.first _ (hM.parent j (by omega)) with he | hno
  · exact hdag.acyclic.not_reflTransGen hxy (he ▸ hdown.trans hx.reach)
  · exact hno ((hdown.trans hx.reach).tail hxy)

/-- The invariant between steps: the pool is consistent, and unless nothing has been confirmed
yet, its main chain is a path. -/
structure SwitchInv (s : Pool) : Prop where
  dag : Dag s
  consistent : Consistent s s
  chain : (∀ x, ¬ Settled s s x) ∨ ∃ M n, IsMainChain s M n

/-- **A change of the main chain keeps the invariant**, when no confirming block comes back.

**Proof sketch.** A block that is settled now was settled before, as its confirming block has
not come back; so its links were settled before too. Their confirming blocks are on the
path from the one of the block itself (`IsMainChain.le_of_link`), which is on the new main
chain; hence so are they. -/
theorem Consistent.switchTo (hs : SwitchInv s) (hst : st.Valid genesis s) (hno : st.NoReturn s) :
    Consistent (s.switchTo st.M st.n) (s.switchTo st.M st.n) := by
  have hgraph : (s.switchTo st.M st.n).SameGraph s := sameGraph_switchTo
  have hM' := hst.isMainChain
  refine ⟨SameBlocks.refl _, fun x b hb => ?_, fun x y hxy hx => ?_, fun x b hb hconf => ?_⟩
  · obtain ⟨c, hc, hstat, href⟩ := switchTo_eq_some hb
    rw [← hstat, ← href]
    exact (hs.consistent.status x c hc).imp_right fun h => ⟨h.1, switchTo_main_or_miner h.2⟩
  · rw [hgraph.link] at hxy
    obtain ⟨b', hb', hconf, hmain⟩ := hx
    obtain ⟨b, hb, hstat, href⟩ := switchTo_eq_some hb'
    rw [← hstat] at hconf
    rw [← href] at hmain
    have hold : s.HasType .main b.m_refMainBlock :=
      (hno x b hb hconf).resolve_right (by simp [(switchTo_main_iff.mp hmain).2])
    have hset : Settled s s x := ⟨b, hb, hconf, hold⟩
    obtain ⟨c, hc, hconfc, hmainc⟩ := hs.consistent.closed x y hxy hset
    obtain ⟨M, n, hM⟩ := hs.chain.resolve_left fun h => h x hset
    obtain ⟨i, hi, hei⟩ := (hM.main _).mp hold
    obtain ⟨j, hj, hej⟩ := (hM.main _).mp hmainc
    have hji : j ≤ i := hM.le_of_link hs.dag hj (hei ▸ hs.consistent.confirmed x b hb hconf)
      (hej ▸ hs.consistent.confirmed y c hc hconfc) hxy
    obtain ⟨i', hi', hei'⟩ := (hM'.main _).mp hmain
    have hpath := hM.onPath hji hi
    rw [← hei, hei', ← hgraph.onPath] at hpath
    obtain ⟨j', hj', hej'⟩ := hM'.of_onPath hi' hpath
    obtain ⟨c', hc', -, hstat', href'⟩ := switchTo_of_some (M := st.M) (n := st.n) hc
    refine ⟨c', hc', hstat'.trans hconfc, (hM'.main _).mpr ⟨j', by omega, ?_⟩⟩
    rw [href', hej, hej']
  · obtain ⟨c, hc, hstat, href⟩ := switchTo_eq_some hb
    have h := hs.consistent.confirmed x c hc (hstat.trans hconf)
    rw [← href]
    exact ⟨by rw [hgraph.reach]; exact h.reach, h.ne, fun p hp => by
      rw [hgraph.parent] at hp
      rw [hgraph.reach]
      exact h.first p hp⟩

/-! ### Whole runs -/

lemma SameBlocks.sameGraph {p q : Pool} (h : SameBlocks p q) : p.SameGraph q := by
  intro x
  have hx := congrArg (Option.map Prod.fst) (h x)
  rw [Option.map_map, Option.map_map] at hx
  exact hx

lemma Dag.congr {p q : Pool} (h : Dag p) (hg : q.SameGraph p) : Dag q := by
  refine ⟨fun x y hxy => ?_, ?_⟩
  · rw [hg.link] at hxy
    rw [hg.isSome]
    exact h.resolves x y hxy
  · rw [hg.link]
    exact h.acyclic

/-- After the walk, its result can be taken as the new base. -/
lemma Consistent.rebase {base : Pool} (h : Consistent base s) : Consistent s s := by
  have htype : ∀ t x, base.HasType t x ↔ s.HasType t x := fun t x => h.same.hasType_iff.symm
  have hgraph := h.same.sameGraph
  refine ⟨SameBlocks.refl _, fun x b hb => ?_, fun x y hxy hx => ?_, fun x b hb hconf => ?_⟩
  · simpa only [htype] using h.status x b hb
  · have hclosed := h.closed x y
    simp only [Settled, htype, ← hgraph.link] at hclosed
    exact hclosed hxy hx
  · obtain ⟨hreach, hne, hfirst⟩ := h.confirmed x b hb hconf
    rw [← hgraph.reach] at hreach
    refine ⟨hreach, hne, fun p hp => ?_⟩
    rw [hgraph.parent] at hp
    rw [hgraph.reach]
    exact hfirst p hp

lemma IsMainChain.congr {base : Pool} (hM : IsMainChain base M n) (h : SameBlocks s base) :
    IsMainChain s M n := by
  refine ⟨fun i hi => ?_, fun x => ?_, ?_⟩
  · rw [h.sameGraph.parent]
    exact hM.parent i hi
  · rw [h.hasType_iff]
    exact hM.main x
  · obtain ⟨b, hb, hl⟩ := hM.genesis
    obtain ⟨c, hc, hcl, -⟩ := SameBlocks.eq_some (fun x => (h x).symm) hb
    exact ⟨c, hc, hcl.trans hl⟩

/-- One step: it ends, keeps the invariant, and settles what is below the checked block. -/
lemma SwitchInv.step (hs : SwitchInv s) (hst : st.Valid genesis s) (hno : st.NoReturn s) :
    ∃ s', st.Returns s s' ∧ SwitchInv s' ∧ ∀ x, s.Reach (st.M st.k) x → Settled s' s' x := by
  have hgraph : (s.switchTo st.M st.n).SameGraph s := sameGraph_switchTo
  have hdag := hs.dag.congr hgraph
  have hM := hst.isMainChain
  have hcons := Consistent.switchTo hs hst hno
  set base := s.switchTo st.M st.n with hbase
  obtain ⟨d, hd⟩ := hdag.acyclic.exists_rank
  obtain ⟨s', hs', hv⟩ := recursionCheck_spec hdag hd hM.parent_main (d (st.M st.k) + 1) base
    (st.M st.k) (st.M (st.k + 1)) (by omega) hcons
    (hdag.resolves _ _ (hM.parent st.k hst.lt).link) (hM.mayConfirm hdag hst.lt base)
  have hsame := hv.consistent.same
  refine ⟨s', ⟨d (st.M st.k) + 1, fun fuel hf => ?_⟩, ⟨hdag.congr hsame.sameGraph,
    hv.consistent.rebase, Or.inr ⟨st.M, st.n, hM.congr hsame⟩⟩, fun x hx => ?_⟩
  · rw [Switch.run, ← hbase]
    exact recursionCheck_mono hf hs'
  · rw [← hgraph.reach] at hx
    obtain ⟨b, hb, hconf, hmain⟩ := (hv.settled x).mpr (Or.inr hx)
    exact ⟨b, hb, hconf, hsame.hasType_iff.mpr hmain⟩

lemma Switch.Returns.unique {s' s'' : Pool} (h : st.Returns s s')
    (h' : st.Returns s s'') : s' = s'' := by
  obtain ⟨N, hN⟩ := h
  obtain ⟨N', hN'⟩ := h'
  have := (hN (max N N') (le_max_left _ _)).symm.trans (hN' (max N N') (le_max_right _ _))
  simpa using this

lemma SwitchRun.inv {s₀ : Pool} (hdag : Dag s₀)
    (href : ∀ x b, s₀ x = some b → b.m_status = .ref) (hs : SwitchRun genesis s₀ s) :
    SwitchInv s := by
  induction hs with
  | start =>
    refine ⟨hdag, consistent_of_ref href, Or.inl ?_⟩
    rintro x ⟨b, hb, hconf, -⟩
    simp [href x b hb] at hconf
  | step _ hst hno h ih =>
    obtain ⟨s', hret, hinv, -⟩ := ih.step hst hno
    rwa [h.unique hret]

/-- **Confirmation across chain switches.** In a run in which no block comes back to the main
chain while a block is recorded as confirmed by it, every step ends, and after it every block
reached from the checked block is confirmed by a block that is on the main chain. -/
theorem settled_of_switches (genesis : H256) (s₀ : Pool) (hdag : Dag s₀)
    (href : ∀ x b, s₀ x = some b → b.m_status = .ref) (s : Pool) (hs : SwitchRun genesis s₀ s)
    (st : Switch) (hst : st.Valid genesis s) (hno : st.NoReturn s) :
    ∃ s', st.Returns s s' ∧ SwitchRun genesis s₀ s' ∧
      ∀ x, s.Reach (st.M st.k) x → ∃ b, s' x = some b ∧ b.m_status = .confirm ∧
        s'.HasType .main b.m_refMainBlock := by
  obtain ⟨s', hret, -, hset⟩ := (hs.inv hdag href).step hst hno
  exact ⟨s', hret, .step hs hst hno hret, hset⟩

/-! ### Two branches -/

/-- A genesis block `0` with two branches `2, 1` and `4, 3` behind it. -/
def twoBranches : Pool := fun h =>
  if h = 0 then some ⟨[], .miner, .ref, 0, 0⟩
  else if h = 1 then some ⟨[0], .miner, .ref, 0, 0⟩
  else if h = 2 then some ⟨[1], .miner, .ref, 0, 0⟩
  else if h = 3 then some ⟨[0], .miner, .ref, 0, 0⟩
  else if h = 4 then some ⟨[3], .miner, .ref, 0, 0⟩
  else none

/-- The path from `a` over `b` to the genesis block, with the check of `b`. -/
def switchToBranch (a b : H256) : Switch :=
  ⟨fun i => if i = 0 then 0 else if i = 1 then b else a, 2, 1⟩

lemma twoBranches_cases {b : Block} (h : twoBranches x = some b) :
    (x = 0 ∧ b.m_links = []) ∨ (x = 1 ∧ b.m_links = [0]) ∨ (x = 2 ∧ b.m_links = [1]) ∨
      (x = 3 ∧ b.m_links = [0]) ∨ (x = 4 ∧ b.m_links = [3]) := by
  unfold twoBranches at h
  split_ifs at h with h0 h1 h2 h3 h4 <;> obtain rfl := Option.some.inj h <;> simp_all

lemma ref_twoBranches (x : H256) (b : Block) (h : twoBranches x = some b) : b.m_status = .ref := by
  unfold twoBranches at h
  split_ifs at h <;> obtain rfl := Option.some.inj h <;> rfl

lemma dag_twoBranches : Dag twoBranches := by
  have hlink : ∀ x y, twoBranches.Link x y → y.toNat < x.toNat ∧ (twoBranches y).isSome := by
    rintro x y ⟨b, hb, hy⟩
    rcases twoBranches_cases hb with ⟨rfl, hl⟩ | ⟨rfl, hl⟩ | ⟨rfl, hl⟩ | ⟨rfl, hl⟩ | ⟨rfl, hl⟩ <;>
      simp only [hl, List.mem_cons, List.not_mem_nil, or_false] at hy <;> rw [hy] <;> decide
  exact ⟨fun x y h => (hlink x y h).2, Acyclic.of_rank fun x y h => (hlink x y h).1⟩

lemma valid_switchToBranch {a b : H256} (ha : s.Parent a b) (hb : s.Parent b 0)
    (h0 : ∃ c, s 0 = some c ∧ c.m_links = []) : (switchToBranch a b).Valid 0 s := by
  refine ⟨fun i hi => ?_, rfl, h0, Nat.one_lt_two⟩
  have hi : i < 2 := hi
  interval_cases i
  · exact hb
  · exact ha

/-- The pool after a step with a little fuel. -/
def Switch.result (st : Switch) (s : Pool) : Pool :=
  match st.run 3 s with
  | .ok s' => s'
  | .error _ => fun _ => none

/-- The pool after a switch to the first branch. -/
def onFirst : Pool := (switchToBranch 2 1).result twoBranches

/-- The pool after a switch to the other branch. -/
def onSecond : Pool := (switchToBranch 4 3).result onFirst

/-- The pool after switching back. -/
def backOnFirst : Pool := (switchToBranch 2 1).result onSecond

lemma onFirst_returns : (switchToBranch 2 1).Returns twoBranches onFirst :=
  ⟨3, fun _ hf => recursionCheck_mono hf rfl⟩

lemma onFirst_reached : SwitchRun 0 twoBranches onFirst :=
  .step .start (valid_switchToBranch ⟨_, rfl, rfl⟩ ⟨_, rfl, rfl⟩ ⟨_, rfl, rfl⟩)
    (fun x b hb hconf => by simp [ref_twoBranches x b hb] at hconf) onFirst_returns

/-- Only the blocks `0` and `1` are confirmed after the first switch. -/
lemma confirmed_onFirst {b : Block} (hb : onFirst x = some b) (hconf : b.m_status = .confirm) :
    x = 0 ∨ x = 1 := by
  by_contra hne
  obtain ⟨h0, h1⟩ := not_or.mp hne
  have hrun : onFirst = ((twoBranches.switchTo (switchToBranch 2 1).M 2).confirm 0 1).confirm 1 2 :=
    rfl
  rw [hrun, Pool.confirm, Pool.modify_of_ne h1, Pool.confirm, Pool.modify_of_ne h0] at hb
  obtain ⟨c, hc, hstat, -⟩ := switchTo_eq_some hb
  rw [ref_twoBranches x c hc, hconf] at hstat
  cases hstat

/-- After the switch to the other branch the genesis block is confirmed by a block of it. -/
theorem settled_of_switches_twoBranches :
    SwitchRun 0 twoBranches onFirst ∧ ∃ s', (switchToBranch 4 3).Returns onFirst s' ∧
      ∃ b, s' 0 = some b ∧ b.m_status = .confirm ∧ s'.HasType .main b.m_refMainBlock := by
  obtain ⟨s', hret, -, h⟩ := settled_of_switches 0 twoBranches dag_twoBranches ref_twoBranches
    onFirst onFirst_reached (switchToBranch 4 3)
    (valid_switchToBranch ⟨_, rfl, rfl⟩ ⟨_, rfl, rfl⟩ ⟨_, rfl, rfl⟩) fun x b hb hconf => by
      -- the confirming blocks are on the main chain before the switch
      rcases confirmed_onFirst hb hconf with rfl | rfl
      · obtain rfl := Option.some.inj hb
        exact .inl ⟨_, rfl, rfl⟩
      · obtain rfl := Option.some.inj hb
        exact .inl ⟨_, rfl, rfl⟩
  exact ⟨onFirst_reached, s', hret, h 0 (.single ⟨_, rfl, by decide⟩)⟩

/-- After switching back, the genesis block is below the checked block `1`, and the block
recorded for it is the block `3` of the other branch, which is off the main chain. -/
theorem backOnFirst_stale :
    ((switchToBranch 2 1).Valid 0 twoBranches ∧
      (switchToBranch 2 1).Returns twoBranches onFirst) ∧
    ((switchToBranch 4 3).Valid 0 onFirst ∧ (switchToBranch 4 3).Returns onFirst onSecond) ∧
    ((switchToBranch 2 1).Valid 0 onSecond ∧
      (switchToBranch 2 1).Returns onSecond backOnFirst) ∧
    onSecond.Reach ((switchToBranch 2 1).M (switchToBranch 2 1).k) 0 ∧
    ∃ b, backOnFirst 0 = some b ∧ b.m_refMainBlock = 3 ∧ backOnFirst.HasType .miner 3 :=
  ⟨⟨valid_switchToBranch ⟨_, rfl, rfl⟩ ⟨_, rfl, rfl⟩ ⟨_, rfl, rfl⟩, onFirst_returns⟩,
    ⟨valid_switchToBranch ⟨_, rfl, rfl⟩ ⟨_, rfl, rfl⟩ ⟨_, rfl, rfl⟩, 3, fun _ hf =>
      recursionCheck_mono hf rfl⟩,
    ⟨valid_switchToBranch ⟨_, rfl, rfl⟩ ⟨_, rfl, rfl⟩ ⟨_, rfl, rfl⟩, 3, fun _ hf =>
      recursionCheck_mono hf rfl⟩,
    .single ⟨_, rfl, by decide⟩, _, rfl, rfl, ⟨_, rfl, rfl⟩⟩

end Tos.Sdag
