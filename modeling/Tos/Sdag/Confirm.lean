import Mathlib.Tactic.IntervalCases
import Tos.Foundation.Acyclic
import Tos.Sdag.Pool

/-!
# Confirming blocks

`MainChain::recursionCheck` of `sdag/MainChain.cpp` walks through the links of a block and
marks the blocks it meets as confirmed by the main block they were reached from. It turns back
at a block that is confirmed already, unless the main block that confirmed it has been taken
off the main chain in the meantime. The walk changes the status it turns back on, and which
main block confirms a block depends on the order of the links.

What carries the proofs is a property of a confirmed block and the main block recorded for it
that depends on the graph only (`ConfirmedFrom`): the block is the first link of the main block, or
is reached from it but not from its first link. It holds because the first link is visited
first.

## Main results

* `recursionCheck_spec`: the walk settles exactly the blocks that are reached, and
  changes no other block and no block that was settled before.
* `checks_growing_chain`: confirmation on a main chain that grows.
-/

namespace Tos.Sdag

/-- The condition of `recursionCheck`: the block has not been confirmed, or the main block that
confirmed it has become a miner block. -/
def needsConfirm (pool : Pool) (b : Block) : Bool :=
  b.m_status == .ref ||
    ((b.m_status == .confirm || b.m_status == .applied) &&
      match pool b.m_refMainBlock with
      | some c => c.m_type == .miner
      | none => false)

/-- `block->m_status = BS_CONFIRM; block->m_refMainBlock = confirmBlock.getHash()`. -/
def Pool.confirm (pool : Pool) (block confirmBlock : H256) : Pool :=
  pool.modify block fun b => { b with m_status := .confirm, m_refMainBlock := confirmBlock }

/-- `MainChain::recursionCheck`. -/
def recursionCheck : ℕ → Pool → H256 → H256 → Except ChainError Pool
  | 0, _, _, _ => .error .outOfFuel
  | fuel + 1, pool, block, confirmBlock => do
    let b ← pool.deref block
    if needsConfirm pool b then
      let confirming := if b.m_type = .main then block else confirmBlock
      let pool ← b.m_links.foldlM (fun pool link => recursionCheck fuel pool link confirming) pool
      return pool.confirm block confirmBlock
    else return pool

/-- More fuel does not change a result. -/
lemma recursionCheck_mono {fuel fuel' : ℕ} (hle : fuel ≤ fuel') {s s' : Pool} {block c : H256}
    (h : recursionCheck fuel s block c = .ok s') : recursionCheck fuel' s block c = .ok s' := by
  have hsucc : ∀ fuel {s s' : Pool} {block c : H256}, recursionCheck fuel s block c = .ok s' →
      recursionCheck (fuel + 1) s block c = .ok s' := by
    intro fuel
    induction fuel with
    | zero => intro s s' block c h; simp [recursionCheck] at h
    | succ fuel ih =>
      intro s s' block c h
      rw [recursionCheck] at h ⊢
      cases hb : s.deref block with
      | error e => simp [hb, bind, Except.bind] at h
      | ok b =>
        simp only [hb, bind, Except.bind] at h ⊢
        by_cases hneeds : needsConfirm s b = true
        · rw [if_pos hneeds] at h ⊢
          have hfold : ∀ c (ls : List H256) (s s' : Pool),
              ls.foldlM (fun s l => recursionCheck fuel s l c) s = .ok s' →
              ls.foldlM (fun s l => recursionCheck (fuel + 1) s l c) s = .ok s' := by
            intro c ls
            induction ls with
            | nil => exact fun _ _ h => h
            | cons l ls ihls =>
              intro s s' h
              simp only [List.foldlM_cons, bind, Except.bind] at h ⊢
              cases hl : recursionCheck fuel s l c with
              | error e => simp [hl] at h
              | ok s1 =>
                simp only [hl, ih hl] at h ⊢
                exact ihls s1 s' h
          cases hl : b.m_links.foldlM (fun s l => recursionCheck fuel s l
              (if b.m_type = .main then block else c)) s with
          | error e => simp [hl] at h
          | ok s1 =>
            simp only [hl, hfold _ _ _ _ hl] at h ⊢
            exact h
        · rw [if_neg hneeds] at h ⊢
          exact h
  induction fuel', hle using Nat.le_induction with
  | base => exact h
  | succ n _ ih => exact hsucc n ih

/-! ### What the walk leaves as it is -/

/-- What the walk does not change of a block. -/
def Block.fixed (b : Block) : List H256 × BlockType × BitVec 128 :=
  (b.m_links, b.m_type, b.m_sumDifficulty)

/-- Two pools that differ in the status of blocks and in the main blocks recorded for them. -/
def SameBlocks (p q : Pool) : Prop := ∀ h, (p h).map Block.fixed = (q h).map Block.fixed

lemma SameBlocks.refl (p : Pool) : SameBlocks p p := fun _ => rfl

lemma SameBlocks.trans {p q r : Pool} (h : SameBlocks p q) (h' : SameBlocks q r) :
    SameBlocks p r := fun x => (h x).trans (h' x)

variable {x : H256} {b : Block}

lemma SameBlocks.eq_some {p q : Pool} (h : SameBlocks p q)
    (hb : p x = some b) : ∃ c, q x = some c ∧ c.m_links = b.m_links ∧ c.m_type = b.m_type := by
  have hx := h x
  rw [hb] at hx
  cases hq : q x with
  | none => simp [hq] at hx
  | some c =>
    simp only [hq, Option.map_some, Option.some.injEq, Block.fixed, Prod.mk.injEq] at hx
    exact ⟨c, rfl, hx.1.symm, hx.2.1.symm⟩

lemma sameBlocks_confirm (p : Pool) (x c : H256) : SameBlocks (p.confirm x c) p := by
  intro h
  rw [Pool.confirm, Pool.modify_apply]
  split_ifs
  · rw [Option.map_map]
    rfl
  · rfl

/-! ### The invariant -/

/-- The block is confirmed by a block that is on the main chain. The types are those of
`base`, which the walk does not change. -/
def Settled (base s : Pool) (x : H256) : Prop :=
  ∃ b, s x = some b ∧ b.m_status = .confirm ∧ base.HasType .main b.m_refMainBlock

/-- The block `x` can have been confirmed by `c`: it is reached from `c`, and it is the first
link of `c` or is not reached from there. -/
structure ConfirmedFrom (base : Pool) (c x : H256) : Prop where
  reach : base.Reach c x
  ne : c ≠ x
  first : ∀ p, base.Parent c p → x = p ∨ ¬ base.Reach p x

/-- The graph of the pool: every link leads to a block of the pool, and there are no cycles. -/
structure Dag (base : Pool) : Prop where
  resolves : ∀ x y, base.Link x y → (base y).isSome
  acyclic : Acyclic base.Link

/-- The invariant of the walk. -/
structure Consistent (base s : Pool) : Prop where
  same : SameBlocks s base
  status : ∀ x b, s x = some b → b.m_status = .ref ∨ (b.m_status = .confirm ∧
    (base.HasType .main b.m_refMainBlock ∨ base.HasType .miner b.m_refMainBlock))
  closed : ∀ x y, base.Link x y → Settled base s x → Settled base s y
  confirmed : ∀ x b, s x = some b → b.m_status = .confirm →
    ConfirmedFrom base b.m_refMainBlock x

variable {base s : Pool}

lemma SameBlocks.hasType_iff (h : SameBlocks s base) {t : BlockType} :
    s.HasType t x ↔ base.HasType t x := by
  have hx := congrArg (Option.map fun f => f.2.1) (h x)
  simp only [Option.map_map] at hx
  rw [Pool.hasType_iff, Pool.hasType_iff]
  exact iff_of_eq (congrArg (· = some t) hx)

/-- Nothing settled hides anything that is not. -/
lemma Consistent.settled_of_reach (hs : Consistent base s) {x y : H256} (hx : Settled base s x)
    (h : base.Reach x y) : Settled base s y := by
  induction h with
  | refl => exact hx
  | tail _ hyz ih => exact hs.closed _ _ hyz ih

/-- The walk turns back exactly at the settled blocks. -/
lemma Consistent.needsConfirm_iff (hs : Consistent base s)
    (hb : s x = some b) : needsConfirm s b = true ↔ ¬ Settled base s x := by
  have hset : Settled base s x ↔
      b.m_status = .confirm ∧ base.HasType .main b.m_refMainBlock := by
    constructor
    · rintro ⟨c, hc, h1, h2⟩
      rw [hb, Option.some.injEq] at hc
      exact hc ▸ ⟨h1, h2⟩
    · exact fun h => ⟨b, hb, h⟩
  rw [hset]
  rcases hs.status x b hb with href | ⟨hconf, htype⟩
  · simp [needsConfirm, href]
  · rcases htype with hmain | hminer
    · obtain ⟨c, hc, ht⟩ := hs.same.hasType_iff.mpr hmain
      simp [needsConfirm, hconf, hc, ht, hmain]
    · have hnot : ¬ base.HasType .main b.m_refMainBlock := by
        rw [Pool.hasType_iff] at hminer ⊢
        simp [hminer]
      obtain ⟨c, hc, ht⟩ := hs.same.hasType_iff.mpr hminer
      simp [needsConfirm, hconf, hc, ht, hnot]

/-! ### The walk -/

/-- The effect of visiting the blocks of `R`: they are settled, and nothing else has changed. -/
structure Visited (base s s' : Pool) (R : H256 → Prop) : Prop where
  consistent : Consistent base s'
  settled : ∀ x, Settled base s' x ↔ Settled base s x ∨ R x
  frame : ∀ x, Settled base s x ∨ ¬ R x → s' x = s x

lemma Visited.trans {s' s'' : Pool} {R R' : H256 → Prop} (h : Visited base s s' R)
    (h' : Visited base s' s'' R') : Visited base s s'' fun x => R x ∨ R' x := by
  refine ⟨h'.consistent, fun x => ?_, fun x hx => ?_⟩
  · rw [h'.settled, h.settled, or_assoc]
  · rw [h'.frame x, h.frame x]
    · tauto
    · rw [h.settled]
      tauto

lemma Visited.congr {s' : Pool} {R R' : H256 → Prop} (h : Visited base s s' R)
    (hR : ∀ x, R x ↔ R' x) : Visited base s s' R' := by
  obtain rfl : R = R' := funext fun x => propext (hR x)
  exact h

/-- What `recursionCheck` relies on when it is called with a block and a confirming block: the
confirming block is on the main chain, the block is below it, and unless the block is the
first link of the confirming block, all that is reached from that link is settled. -/
structure MayConfirm (base s : Pool) (block c : H256) : Prop where
  main : base.HasType .main c
  reach : base.Reach c block
  ne : c ≠ block
  first : ∀ p, base.Parent c p → block = p ∨ ∀ x, base.Reach p x → Settled base s x

section Walk

variable {d : H256 → ℕ} (hdag : Dag base) (hd : ∀ x y, base.Link x y → d y < d x)

/-- Recording the confirming block, after all links have been visited. -/
lemma Visited.confirm {s' : Pool} {block c : H256} (hsome : (base block).isSome)
    (hmay : MayConfirm base s block c) (hnot : ¬ Settled base s block)
    (h : Visited base s s' fun x => ∃ l, base.Link block l ∧ base.Reach l x) :
    Visited base s (s'.confirm block c) (base.Reach block) := by
  have hother : ∀ x, x ≠ block → s'.confirm block c x = s' x := fun x hx => Pool.modify_of_ne hx
  have hself : ∃ b, s'.confirm block c block = some b ∧ b.m_status = .confirm ∧
      b.m_refMainBlock = c := by
    obtain ⟨b, hb⟩ := Option.isSome_iff_exists.mp hsome
    obtain ⟨b', hb', -⟩ := SameBlocks.eq_some (fun x => (h.consistent.same x).symm) hb
    exact ⟨_, by rw [Pool.confirm, Pool.modify_self, hb']; rfl, rfl, rfl⟩
  obtain ⟨b, hb, hstatus, href⟩ := hself
  have hset : ∀ x, Settled base (s'.confirm block c) x ↔ x = block ∨ Settled base s' x := by
    intro x
    by_cases hx : x = block
    · simp only [hx, true_or, iff_true]
      exact ⟨b, hb, hstatus, href ▸ hmay.main⟩
    · simp only [Settled, hother x hx, hx, false_or]
  have hreach : ∀ x, base.Reach block x ↔ x = block ∨ ∃ l, base.Link block l ∧ base.Reach l x := by
    intro x
    constructor
    · intro hx
      rcases Relation.ReflTransGen.cases_head hx with rfl | ⟨l, hl, hlx⟩
      · exact .inl rfl
      · exact .inr ⟨l, hl, hlx⟩
    · rintro (rfl | ⟨l, hl, hlx⟩)
      · exact .refl
      · exact .head hl hlx
  refine ⟨⟨(sameBlocks_confirm s' block c).trans h.consistent.same, fun x b' hb' => ?_,
    fun x y hxy hx => ?_, fun x b' hb' hconf => ?_⟩, fun x => ?_, fun x hx => ?_⟩
  · by_cases hx : x = block
    · rw [hx, hb, Option.some.injEq] at hb'
      subst hb'
      exact .inr ⟨hstatus, .inl (href ▸ hmay.main)⟩
    · rw [hother x hx] at hb'
      exact h.consistent.status x b' hb'
  · rw [hset] at hx ⊢
    rcases hx with rfl | hx
    · exact .inr ((h.settled y).mpr (.inr ⟨y, hxy, .refl⟩))
    · exact .inr (h.consistent.closed x y hxy hx)
  · by_cases hx : x = block
    · rw [hx, hb, Option.some.injEq] at hb'
      subst hb'
      rw [hx, href]
      refine ⟨hmay.reach, hmay.ne, fun p hp => ?_⟩
      exact (hmay.first p hp).imp_right fun hp hreach => hnot (hp _ hreach)
    · rw [hother x hx] at hb'
      exact h.consistent.confirmed x b' hb' hconf
  · rw [hset, h.settled, hreach]
    tauto
  · rw [hreach] at hx
    have hxb : x ≠ block := by
      rintro rfl
      tauto
    rw [hother x hxb, h.frame x (hx.imp_right fun hno hl => hno (.inr hl))]

/-- The loop over the links of a block, when each visit does what it should. -/
lemma foldlM_recursionCheck {fuel : ℕ} {c : H256}
    (ih : ∀ s block, d block < fuel → Consistent base s → (base block).isSome →
      MayConfirm base s block c →
      ∃ s', recursionCheck fuel s block c = .ok s' ∧ Visited base s s' (base.Reach block))
    (hmain : base.HasType .main c) (ls : List H256) (s : Pool) (hs : Consistent base s)
    (hls : ∀ l ∈ ls, d l < fuel ∧ (base l).isSome ∧ base.Reach c l ∧ c ≠ l)
    (hfirst : ∀ p, base.Parent c p → ls.head? = some p ∨ ∀ x, base.Reach p x → Settled base s x) :
    ∃ s', ls.foldlM (fun s l => recursionCheck fuel s l c) s = .ok s' ∧
      Visited base s s' fun x => ∃ l ∈ ls, base.Reach l x := by
  induction ls generalizing s with
  | nil => exact ⟨s, rfl, hs, by simp, fun _ _ => rfl⟩
  | cons l ls ihls =>
    obtain ⟨hdl, hsome, hreach, hne⟩ := hls l (by simp)
    obtain ⟨s1, hs1, hv1⟩ := ih s l hdl hs hsome ⟨hmain, hreach, hne, fun p hp =>
      (hfirst p hp).imp_left fun h => by simpa using h⟩
    obtain ⟨s2, hs2, hv2⟩ := ihls s1 hv1.consistent (fun l' hl' => hls l' (by simp [hl']))
      fun p hp => .inr fun x hx => (hv1.settled x).mpr <|
        (hfirst p hp).symm.imp (fun h => h x hx) fun h => by
          obtain rfl : l = p := by simpa using h
          exact hx
    refine ⟨s2, by simp [hs1, hs2, bind, Except.bind], (hv1.trans hv2).congr fun x => ?_⟩
    simp

variable (hchain : ∀ m p, base.HasType .main m → base.Parent m p → base.HasType .main p)

include hdag hd hchain

/-- **What the walk does.** Called with a block below a block of the main chain, it settles
the blocks that are reached from the block and changes nothing else.

**Proof sketch.** Induction on the fuel, which bounds the rank of the block. At a settled block
there is nothing to do, as nothing below it is unsettled. At another one, the links are visited
one after the other: under the block itself if it is on the main chain, where the first link
comes first; else under the confirming block, whose first link has been dealt with, since the
first link of a main block is a main block. -/
theorem recursionCheck_spec :
    ∀ fuel s block c, d block < fuel → Consistent base s → (base block).isSome →
      MayConfirm base s block c →
      ∃ s', recursionCheck fuel s block c = .ok s' ∧ Visited base s s' (base.Reach block) := by
  intro fuel
  induction fuel with
  | zero => exact fun s block c h => absurd h (Nat.not_lt_zero _)
  | succ fuel ih =>
    intro s block c hfuel hs hsome hmay
    obtain ⟨b0, hb0⟩ := Option.isSome_iff_exists.mp hsome
    obtain ⟨b, hb, hlinks, htype⟩ := SameBlocks.eq_some (fun x => (hs.same x).symm) hb0
    have hlink : ∀ l, base.Link block l ↔ l ∈ b.m_links := by
      intro l
      simp [Pool.Link, hb0, hlinks]
    rw [recursionCheck, Pool.deref_of_some hb]
    simp only [bind, Except.bind, pure, Except.pure]
    by_cases hset : Settled base s block
    · have hneeds : ¬ needsConfirm s b = true := by simpa [hs.needsConfirm_iff hb] using hset
      refine ⟨s, by rw [if_neg hneeds], hs, fun x => ?_, fun x _ => rfl⟩
      exact ⟨.inl, fun h => h.elim id fun hx => hs.settled_of_reach hset hx⟩
    · rw [if_pos ((hs.needsConfirm_iff hb).mpr hset)]
      have hbelow : ∀ l ∈ b.m_links, d l < fuel ∧ (base l).isSome := by
        intro l hl
        have hlk := (hlink l).mpr hl
        have := hd _ _ hlk
        exact ⟨by omega, hdag.resolves _ _ hlk⟩
      -- the links are visited under a main block above them, with its first link in front
      obtain ⟨s1, hs1, hv1⟩ : ∃ s1, b.m_links.foldlM (fun s l => recursionCheck fuel s l
          (if b.m_type = .main then block else c)) s = .ok s1 ∧
          Visited base s s1 fun x => ∃ l ∈ b.m_links, base.Reach l x := by
        by_cases hmain : b.m_type = .main
        · simp only [if_pos hmain]
          refine foldlM_recursionCheck (fun s l => ih s l block)
            ⟨b0, hb0, htype ▸ hmain⟩ b.m_links s hs (fun l hl => ?_) fun p hp => ?_
          · have hlk := (hlink l).mpr hl
            refine ⟨(hbelow l hl).1, (hbelow l hl).2, .single hlk, ?_⟩
            rintro rfl
            exact hdag.acyclic block (Relation.TransGen.single hlk)
          · obtain ⟨b', hb', hp⟩ := hp
            rw [hb0, Option.some.injEq] at hb'
            exact .inl (by rw [hlinks, hb', hp])
        · simp only [if_neg hmain]
          refine foldlM_recursionCheck (fun s l => ih s l c) hmay.main b.m_links s hs
            (fun l hl => ?_) fun p hp => ?_
          · have hlk := (hlink l).mpr hl
            refine ⟨(hbelow l hl).1, (hbelow l hl).2, hmay.reach.tail hlk, ?_⟩
            rintro rfl
            exact hdag.acyclic.not_reflTransGen hlk hmay.reach
          · refine .inr ((hmay.first p hp).resolve_left ?_)
            rintro rfl
            obtain ⟨b', hb', ht⟩ := hchain c block hmay.main hp
            rw [hb0, Option.some.injEq] at hb'
            exact hmain (by rw [htype, hb', ht])
      refine ⟨s1.confirm block c, by rw [hs1], Visited.confirm hsome hmay hset
        (hv1.congr fun x => ?_)⟩
      simp only [hlink]

end Walk

/-! ### A main chain that grows -/

/-- The blocks `M n, …, M 0` are the main chain of the pool. -/
structure IsMainChain (base : Pool) (M : ℕ → H256) (n : ℕ) : Prop where
  parent : ∀ i < n, base.Parent (M (i + 1)) (M i)
  main : ∀ x, base.HasType .main x ↔ ∃ i ≤ n, x = M i
  genesis : ∃ b, base (M 0) = some b ∧ b.m_links = []

/-- The calls `recursionCheck(M k, M (k + 1))`, one after the other. -/
def checks (fuel : ℕ) (M : ℕ → H256) (ks : List ℕ) (s : Pool) : Except ChainError Pool :=
  ks.foldlM (fun s k => recursionCheck fuel s (M k) (M (k + 1))) s

section GrowingChain

variable {M : ℕ → H256} {n : ℕ} (hdag : Dag base) (hM : IsMainChain base M n)
include hM

variable {i j : ℕ}

/-- A higher block of the chain leads to a lower one. -/
lemma IsMainChain.transGen (hij : i < j) (hj : j ≤ n) :
    Relation.TransGen base.Link (M j) (M i) := by
  induction j, hij using Nat.le_induction with
  | base => exact Relation.TransGen.single (hM.parent i (by omega)).link
  | succ j _ ih => exact Relation.TransGen.head (hM.parent j (by omega)).link (ih (by omega))

lemma IsMainChain.reach (hij : i ≤ j) (hj : j ≤ n) : base.Reach (M j) (M i) := by
  rcases Nat.eq_or_lt_of_le hij with rfl | hlt
  · exact .refl
  · exact (hM.transGen hlt hj).to_reflTransGen

include hdag in
lemma IsMainChain.le_of_reach (hj : j ≤ n) (h : base.Reach (M i) (M j)) : j ≤ i := by
  by_contra hlt
  exact hdag.acyclic _ ((hM.transGen (Nat.lt_of_not_le hlt) hj).trans_left h)

/-- The first link of a main block is a main block. -/
lemma IsMainChain.parent_main (m p : H256) (hm : base.HasType .main m) (hp : base.Parent m p) :
    base.HasType .main p := by
  obtain ⟨i, hi, rfl⟩ := (hM.main m).mp hm
  cases i with
  | zero =>
    obtain ⟨b, hb, hl⟩ := hM.genesis
    obtain ⟨c, hc, hp⟩ := hp
    rw [hb, Option.some.injEq] at hc
    simp [← hc, hl] at hp
  | succ i => exact (hM.main p).mpr ⟨i, by omega, hp.unique (hM.parent i (by omega))⟩

include hdag in
lemma IsMainChain.mayConfirm {k : ℕ} (hk : k < n) (s : Pool) :
    MayConfirm base s (M k) (M (k + 1)) := by
  have hp := hM.parent k hk
  refine ⟨(hM.main _).mpr ⟨k + 1, hk, rfl⟩, .single hp.link, fun e => ?_,
    fun p hp' => .inl (hp.unique hp')⟩
  exact hdag.acyclic (M k) (Relation.TransGen.single (e ▸ hp.link))

include hdag in
/-- A sequence of calls settles what is reached from one of the blocks. -/
lemma checks_spec {d : H256 → ℕ} (hd : ∀ x y, base.Link x y → d y < d x) {fuel : ℕ}
    {ks : List ℕ} (hks : ∀ k ∈ ks, k < n) (hfuel : ∀ k ∈ ks, d (M k) < fuel)
    (hs : Consistent base s) :
    ∃ s', checks fuel M ks s = .ok s' ∧
      Visited base s s' fun x => ∃ k ∈ ks, base.Reach (M k) x := by
  induction ks generalizing s with
  | nil => exact ⟨s, rfl, hs, by simp, fun _ _ => rfl⟩
  | cons k ks ih =>
    have hsome : (base (M k)).isSome := hdag.resolves _ _ (hM.parent k (hks k (by simp))).link
    obtain ⟨s1, hs1, hv1⟩ := recursionCheck_spec hdag hd hM.parent_main fuel s (M k) (M (k + 1))
      (hfuel k (by simp)) hs hsome (hM.mayConfirm hdag (hks k (by simp)) s)
    obtain ⟨s2, hs2, hv2⟩ := ih (fun k' hk' => hks k' (by simp [hk']))
      (fun k' hk' => hfuel k' (by simp [hk'])) hv1.consistent
    refine ⟨s2, ?_, (hv1.trans hv2).congr fun x => by simp⟩
    rw [checks] at hs2
    simp [checks, hs1, hs2, bind, Except.bind]

include hdag in
/-- The main block recorded for a block of the chain is the next one. -/
lemma IsMainChain.eq_next (hi : i ≤ n) (hj : j ≤ n)
    (h : ConfirmedFrom base (M i) (M j)) : i = j + 1 := by
  have hji := hM.le_of_reach hdag hj h.reach
  have hne : j ≠ i := fun e => h.ne (by rw [e])
  obtain ⟨i, rfl⟩ := Nat.exists_eq_succ_of_ne_zero (show i ≠ 0 by omega)
  rcases h.first _ (hM.parent i (by omega)) with he | hno
  · have := hM.le_of_reach hdag (i := j) (j := i) (by omega) (he ▸ .refl)
    omega
  · exact absurd (hM.reach (by omega) (by omega)) hno

/-- The main block recorded for another block is the lowest one it is reached from. -/
lemma IsMainChain.isLeast (hi : i ≤ n) (hx : ¬ base.HasType .main x)
    (h : ConfirmedFrom base (M i) x) : IsLeast {j | j ≤ n ∧ base.Reach (M j) x} i := by
  refine ⟨⟨hi, h.reach⟩, fun j ⟨hj, hreach⟩ => ?_⟩
  by_contra hlt
  obtain ⟨i, rfl⟩ := Nat.exists_eq_succ_of_ne_zero (show i ≠ 0 by omega)
  rcases h.first _ (hM.parent i (by omega)) with he | hno
  · exact hx ((hM.main x).mpr ⟨i, by omega, he⟩)
  · exact hno ((hM.reach (by omega) (by omega)).trans hreach)

end GrowingChain

/-- A pool in which no block has been confirmed is consistent. -/
lemma consistent_of_ref (href : ∀ x b, base x = some b → b.m_status = .ref) :
    Consistent base base := by
  have hno : ∀ x, ¬ Settled base base x := by
    rintro x ⟨b, hb, hconf, -⟩
    simp [href x b hb] at hconf
  refine ⟨SameBlocks.refl _, fun x b hb => .inl (href x b hb), fun x y _ hx => absurd hx (hno x),
    fun x b hb hconf => ?_⟩
  simp [href x b hb] at hconf

/-- **Confirmation on a growing chain.** After calls `recursionCheck(M k, M (k + 1))` with `k`
not decreasing, with enough fuel: every block reached from the last `M k` is confirmed, a block
`M j` of the main chain by `M (j + 1)`, and any other block by the lowest main block it is
reached from; all other blocks are as they were. -/
theorem checks_growing_chain (base : Pool) (M : ℕ → H256) (n : ℕ) (hdag : Dag base)
    (hM : IsMainChain base M n) (href : ∀ x b, base x = some b → b.m_status = .ref)
    (ks : List ℕ) (k : ℕ) (hks : (ks ++ [k]).Pairwise (· ≤ ·)) (hk : k < n) :
    ∃ N, ∀ fuel ≥ N, ∃ s, checks fuel M (ks ++ [k]) base = .ok s ∧
      (∀ x, base.Reach (M k) x → ∃ b, s x = some b ∧ b.m_status = .confirm) ∧
      (∀ j ≤ k, ∃ b, s (M j) = some b ∧ b.m_refMainBlock = M (j + 1)) ∧
      (∀ x, base.Reach (M k) x → ¬ base.HasType .main x → ∃ b j, s x = some b ∧
        IsLeast {j | j ≤ n ∧ base.Reach (M j) x} j ∧ b.m_refMainBlock = M j) ∧
      ∀ x, ¬ base.Reach (M k) x → s x = base x := by
  obtain ⟨d, hd⟩ := hdag.acyclic.exists_rank
  have hle : ∀ k' ∈ ks ++ [k], k' ≤ k := by
    intro k' hk'
    rcases List.mem_append.mp hk' with h | h
    · exact (List.pairwise_append.mp hks).2.2 k' h k (by simp)
    · simp_all
  refine ⟨d (M k) + 1, fun fuel hfuel => ?_⟩
  have hfuel' : ∀ k' ∈ ks ++ [k], d (M k') < fuel := by
    intro k' hk'
    have := Acyclic.rank_le hd (hM.reach (hle k' hk') hk.le)
    omega
  obtain ⟨s, hs, hv⟩ := checks_spec hdag hM hd (fun k' hk' => lt_of_le_of_lt (hle k' hk') hk)
    hfuel' (consistent_of_ref href)
  have hR : ∀ x, (∃ k' ∈ ks ++ [k], base.Reach (M k') x) ↔ base.Reach (M k) x := by
    intro x
    constructor
    · rintro ⟨k', hk', hx⟩
      exact (hM.reach (hle k' hk') hk.le).trans hx
    · exact fun hx => ⟨k, by simp, hx⟩
  -- a settled block, with the main block recorded for it
  have hsettled : ∀ x, base.Reach (M k) x → ∃ b i, s x = some b ∧ b.m_status = .confirm ∧
      i ≤ n ∧ b.m_refMainBlock = M i ∧ ConfirmedFrom base (M i) x := by
    intro x hx
    obtain ⟨b, hb, hconf, hmain⟩ := (hv.settled x).mpr (Or.inr ((hR x).mpr hx))
    obtain ⟨i, hi, he⟩ := (hM.main _).mp hmain
    exact ⟨b, i, hb, hconf, hi, he, he ▸ hv.consistent.confirmed x b hb hconf⟩
  refine ⟨s, hs, fun x hx => ?_, fun j hj => ?_, fun x hx hnot => ?_,
    fun x hx => hv.frame x (Or.inr (by rwa [hR]))⟩
  · obtain ⟨b, i, hb, hconf, -⟩ := hsettled x hx
    exact ⟨b, hb, hconf⟩
  · obtain ⟨b, i, hb, -, hi, he, hfrom⟩ := hsettled (M j) (hM.reach hj hk.le)
    exact ⟨b, hb, by rw [he, hM.eq_next hdag hi (by omega) hfrom]⟩
  · obtain ⟨b, i, hb, -, hi, he, hfrom⟩ := hsettled x hx
    exact ⟨b, i, hb, hM.isLeast hi hnot hfrom, he⟩

/-! ### A small chain -/

/-- A main chain `3, 2, 0` in which the block `2` also links to a block `1`. -/
def smallChain : Pool := fun h =>
  if h = 0 then some ⟨[], .main, .ref, 0, 0⟩
  else if h = 1 then some ⟨[0], .miner, .ref, 0, 0⟩
  else if h = 2 then some ⟨[0, 1], .main, .ref, 0, 0⟩
  else if h = 3 then some ⟨[2], .main, .ref, 0, 0⟩
  else none

lemma smallChain_cases (h : smallChain x = some b) :
    (x = 0 ∧ b = ⟨[], .main, .ref, 0, 0⟩) ∨ (x = 1 ∧ b = ⟨[0], .miner, .ref, 0, 0⟩) ∨
    (x = 2 ∧ b = ⟨[0, 1], .main, .ref, 0, 0⟩) ∨ (x = 3 ∧ b = ⟨[2], .main, .ref, 0, 0⟩) := by
  unfold smallChain at h
  split_ifs at h with h0 h1 h2 h3 <;> simp_all

/-- The blocks of the main chain of `smallChain`. -/
def smallMain : ℕ → H256
  | 0 => 0
  | 1 => 2
  | _ => 3

lemma dag_smallChain : Dag smallChain := by
  have hlink : ∀ x y, smallChain.Link x y → y.toNat < x.toNat ∧ (smallChain y).isSome := by
    rintro x y ⟨b, hb, hy⟩
    rcases smallChain_cases hb with ⟨rfl, rfl⟩ | ⟨rfl, rfl⟩ | ⟨rfl, rfl⟩ | ⟨rfl, rfl⟩ <;>
      simp only [List.mem_cons, List.not_mem_nil, or_false] at hy
    · rw [hy]
      decide
    · rcases hy with rfl | rfl <;> decide
    · rw [hy]
      decide
  exact ⟨fun x y h => (hlink x y h).2, Acyclic.of_rank fun x y h => (hlink x y h).1⟩

lemma isMainChain_smallChain : IsMainChain smallChain smallMain 2 := by
  refine ⟨fun i hi => ?_, fun x => ⟨?_, ?_⟩, ⟨_, rfl, rfl⟩⟩
  · interval_cases i <;> exact ⟨_, rfl, rfl⟩
  · rintro ⟨b, hb, ht⟩
    rcases smallChain_cases hb with ⟨rfl, rfl⟩ | ⟨rfl, rfl⟩ | ⟨rfl, rfl⟩ | ⟨rfl, rfl⟩
    · exact ⟨0, by omega, rfl⟩
    · cases ht
    · exact ⟨1, by omega, rfl⟩
    · exact ⟨2, by omega, rfl⟩
  · rintro ⟨i, hi, rfl⟩
    interval_cases i <;> exact ⟨_, rfl, rfl⟩

/-- Two checks on the small chain confirm its side block by the block that links to it. -/
theorem checks_growing_chain_smallChain :
    ∃ N, ∀ fuel ≥ N, ∃ s b, checks fuel smallMain [0, 1] smallChain = .ok s ∧
      s 1 = some b ∧ b.m_refMainBlock = 2 := by
  obtain ⟨N, hN⟩ := checks_growing_chain smallChain smallMain 2 dag_smallChain
    isMainChain_smallChain (fun x b hb => by
      rcases smallChain_cases hb with ⟨-, rfl⟩ | ⟨-, rfl⟩ | ⟨-, rfl⟩ | ⟨-, rfl⟩ <;> rfl)
    [0] 1 (by decide) (by decide)
  refine ⟨N, fun fuel hf => ?_⟩
  obtain ⟨s, hs, -, -, hother, -⟩ := hN fuel hf
  have hreach : smallChain.Reach (smallMain 1) 1 :=
    .single ⟨_, rfl, by decide⟩
  obtain ⟨b, j, hb, hj, href⟩ := hother 1 hreach (by
    rintro ⟨b, hb, ht⟩
    rcases smallChain_cases hb with ⟨h, -⟩ | ⟨-, rfl⟩ | ⟨h, -⟩ | ⟨h, -⟩
    · exact absurd h (by decide)
    · cases ht
    · exact absurd h (by decide)
    · exact absurd h (by decide))
  have hle : j ≤ 1 := hj.2 ⟨by omega, hreach⟩
  have h0 : j ≠ 0 := by
    rintro rfl
    rcases Relation.ReflTransGen.cases_head hj.1.2 with h | ⟨y, ⟨c, hc, hy⟩, -⟩
    · exact absurd h (by decide)
    · obtain rfl := Option.some.inj hc
      cases hy
  obtain rfl : j = 1 := by omega
  exact ⟨s, b, hs, hb, href⟩

end Tos.Sdag
