import Tos.Sdag.Confirm
import Tos.Sdag.MainChain

/-!
# The depth of confirmation

`MainChain::check` goes back from the tip along first links, a fixed number of times, and confirms
from the block it arrives at (`Tos.Sdag.recursionCheck`). It does not look how long the main chain
is. On a chain that is too short the walk comes to the genesis block, which has no links, and reads
`m_links[0]` of it.

## Main results

* `MainChain.walkBack_eq`: where the loop arrives.
* `MainChain.checksDepth_iff`: the call does so exactly on chains that are long enough.
-/

namespace Tos.Sdag

/-- `CONFIRM_NEED_VERIFY_BLOCK_NUM`. -/
def confirmNeedVerifyBlockNum : ℕ := 32

namespace MainChain

/-- The loop of `check`: the values of `pCurrentBlock` and `pBeforBlock` after `k` more rounds. -/
def walkBack (pool : Pool) : ℕ → H256 × H256 → Except ChainError (H256 × H256)
  | 0, blocks => .ok blocks
  | k + 1, (pCurrentBlock, _) => do
    walkBack pool k (← pool.getMaxDifficultyBlock pCurrentBlock, pCurrentBlock)

/-- `MainChain::check`, with fuel for the recursion behind it. -/
def check (fuel : ℕ) (s : MainChain) : Except ChainError Pool := do
  let (pCurrentBlock, pBeforBlock) ←
    walkBack s.m_pool confirmNeedVerifyBlockNum (s.pre_main_chain, s.pre_main_chain)
  recursionCheck fuel s.m_pool pCurrentBlock pBeforBlock

/-- The blocks `M n, …, M 0` are linked from the tip down to a genesis block without links. -/
structure Descends (s : MainChain) (M : ℕ → H256) (n : ℕ) : Prop where
  tip : s.pre_main_chain = M n
  parent : ∀ i < n, s.m_pool.Parent (M (i + 1)) (M i)
  genesis : ∃ b, s.m_pool (M 0) = some b ∧ b.m_links = []

/-- What `check` should do on a chain `M n, …, M 0`: it reads no link that is not there; on a chain
that is long enough it confirms from the block 32 links below the tip; on a shorter one it returns
and changes no status. -/
structure ChecksDepth (s : MainChain) (M : ℕ → H256) (n : ℕ) : Prop where
  links : ∀ fuel x, s.check fuel ≠ .error (.noLink x)
  deep : 32 ≤ n → ∀ fuel, s.check fuel = recursionCheck fuel s.m_pool (M (n - 32)) (M (n - 31))
  shallow : n < 32 → ∃ N, ∀ fuel ≥ N, ∃ pool, s.check fuel = .ok pool ∧
    ∀ x, (pool x).map Block.m_status = (s.m_pool x).map Block.m_status

section Walk

variable {s : MainChain} {M : ℕ → H256} {n : ℕ} (hM : s.Descends M n)
include hM

/-- **Where the loop arrives**: `k` links below its start, or at the genesis block, whose first
link it reads. -/
lemma walkBack_eq {k i : ℕ} (hi : i ≤ n) (h : H256) :
    walkBack s.m_pool k (M i, h) =
      if k ≤ i then .ok (M (i - k), if k = 0 then h else M (i - k + 1))
      else .error (.noLink (M 0)) := by
  induction k generalizing i h with
  | zero => simp [walkBack]
  | succ k ih =>
    rw [walkBack]
    cases i with
    | zero =>
      obtain ⟨b, hb, hl⟩ := hM.genesis
      simp [Pool.getMaxDifficultyBlock, Pool.deref_of_some hb, hl, bind, Except.bind]
    | succ i =>
      have hget := Pool.getMaxDifficultyBlock_eq_ok.mpr (hM.parent i (by omega))
      simp only [hget, bind, Except.bind]
      rw [ih (by omega)]
      simp only [Nat.add_le_add_iff_right, Nat.add_sub_add_right, Nat.add_eq_zero_iff,
        one_ne_zero, and_false, if_false]
      split_ifs with hk h0
      · rw [h0, Nat.sub_zero]
      · rfl
      · rfl

/-- The call on a chain of any length. -/
lemma check_eq (fuel : ℕ) : s.check fuel =
    if 32 ≤ n then recursionCheck fuel s.m_pool (M (n - 32)) (M (n - 31))
    else .error (.noLink (M 0)) := by
  rw [check, hM.tip, walkBack_eq hM le_rfl, confirmNeedVerifyBlockNum]
  split_ifs with hn h0
  · cases h0
  · rw [show n - 31 = n - 32 + 1 by omega]
    rfl
  · rfl

end Walk

/-- The recursion only goes to blocks that are linked to. -/
lemma recursionCheck_ne_noLink (fuel : ℕ) (pool : Pool) (block c x : H256) :
    recursionCheck fuel pool block c ≠ .error (.noLink x) := by
  induction fuel generalizing pool block c with
  | zero => simp [recursionCheck]
  | succ fuel ih =>
    have hfold : ∀ (c : H256) (ls : List H256) (pool : Pool),
        ls.foldlM (fun pool l => recursionCheck fuel pool l c) pool ≠ .error (.noLink x) := by
      intro c ls
      induction ls with
      | nil => intro pool h; cases h
      | cons l ls ihls =>
        intro pool h
        simp only [List.foldlM_cons, bind, Except.bind] at h
        cases hl : recursionCheck fuel pool l c with
        | error e => exact ih pool l c (by rw [hl, ← h, hl])
        | ok pool' => exact ihls pool' (by rw [← h, hl])
    intro h
    rw [recursionCheck] at h
    cases hb : pool block with
    | none => simp [Pool.deref, hb, bind, Except.bind] at h
    | some b =>
      simp only [Pool.deref_of_some hb, bind, Except.bind] at h
      by_cases hneeds : needsConfirm pool b = true
      · rw [if_pos hneeds] at h
        generalize (if b.m_type = .main then block else c) = confirming at h
        cases hl : b.m_links.foldlM (fun pool l => recursionCheck fuel pool l confirming) pool with
        | error e =>
          rw [hl] at h
          exact hfold _ _ _ (hl.trans h)
        | ok pool' =>
          rw [hl] at h
          cases h
      · rw [if_neg hneeds] at h
        cases h

/-- On a graph whose links lead to blocks, without cycles, the recursion returns. -/
lemma recursionCheck_returns {base : Pool} (hdag : Dag base) {d : H256 → ℕ}
    (hd : ∀ x y, base.Link x y → d y < d x) {fuel : ℕ} {pool : Pool} {block : H256} (c : H256)
    (hsame : SameBlocks pool base) (hblock : (base block).isSome) (hfuel : d block < fuel) :
    ∃ pool', recursionCheck fuel pool block c = .ok pool' ∧ SameBlocks pool' base := by
  induction fuel generalizing pool block c with
  | zero => omega
  | succ fuel ih =>
    obtain ⟨b₀, hb₀⟩ := Option.isSome_iff_exists.mp hblock
    have hsymm : SameBlocks base pool := fun x => (hsame x).symm
    obtain ⟨b, hb, hlinks, -⟩ := hsymm.eq_some hb₀
    have hfold : ∀ (c : H256) (ls : List H256), (∀ l ∈ ls, base.Link block l) → ∀ pool : Pool,
        SameBlocks pool base →
        ∃ pool', ls.foldlM (fun pool l => recursionCheck fuel pool l c) pool = .ok pool' ∧
          SameBlocks pool' base := by
      intro c ls
      induction ls with
      | nil => exact fun _ pool hpool => ⟨pool, rfl, hpool⟩
      | cons l ls ihls =>
        intro hls pool hpool
        have hl := hls l (by simp)
        obtain ⟨pool₁, h₁, hpool₁⟩ := ih c hpool (hdag.resolves _ _ hl)
          (by have := hd _ _ hl; omega)
        obtain ⟨pool₂, h₂, hpool₂⟩ := ihls (fun m hm => hls m (by simp [hm])) pool₁ hpool₁
        exact ⟨pool₂, by simp only [List.foldlM_cons, bind, Except.bind, h₁, h₂], hpool₂⟩
    rw [recursionCheck]
    simp only [Pool.deref_of_some hb, bind, Except.bind]
    by_cases hneeds : needsConfirm pool b = true
    · rw [if_pos hneeds]
      obtain ⟨pool₁, h₁, hpool₁⟩ := hfold (if b.m_type = .main then block else c) b.m_links
        (fun l hl => ⟨b₀, hb₀, hlinks ▸ hl⟩) pool hsame
      exact ⟨pool₁.confirm block c, by rw [h₁]; rfl, (sameBlocks_confirm _ _ _).trans hpool₁⟩
    · rw [if_neg hneeds]
      exact ⟨pool, rfl, hsame⟩

/-- **The depth of confirmation.** On a main chain of any length, in any pool, `check` does what it
should exactly when at least 32 blocks are above the genesis block. And if every link of the pool
leads to a block, without cycles, it returns then. -/
theorem checksDepth_iff (s : MainChain) (M : ℕ → H256) (n : ℕ) (hM : s.Descends M n) :
    (s.ChecksDepth M n ↔ 32 ≤ n) ∧
      (32 ≤ n → Dag s.m_pool → ∃ N, ∀ fuel ≥ N, ∃ pool, s.check fuel = .ok pool) := by
  refine ⟨⟨fun h => ?_, fun hn => ?_⟩, fun hn hdag => ?_⟩
  · by_contra hn
    exact h.links 0 (M 0) (by rw [check_eq hM, if_neg hn])
  · refine ⟨fun fuel x => ?_, fun _ fuel => by rw [check_eq hM, if_pos hn], fun hlt => by omega⟩
    rw [check_eq hM, if_pos hn]
    exact recursionCheck_ne_noLink _ _ _ _ _
  · obtain ⟨d, hd⟩ := hdag.acyclic.exists_rank
    have hblock : (s.m_pool (M (n - 32))).isSome := by
      have hlink := (hM.parent (n - 32) (by omega)).link
      exact hdag.resolves _ _ hlink
    refine ⟨d (M (n - 32)) + 1, fun fuel hfuel => ?_⟩
    obtain ⟨pool, hpool, -⟩ := recursionCheck_returns hdag hd (M (n - 31))
      (SameBlocks.refl s.m_pool) hblock (show d (M (n - 32)) < fuel by omega)
    exact ⟨pool, by rw [check_eq hM, if_pos hn, hpool]⟩

/-! ### A long chain and a short one -/

/-- The main chain `32, …, 0`. -/
def longChain : MainChain where
  m_pool h := if h = 0 then some (freshBlock [] .main)
    else if h ≤ 32 then some (freshBlock [h - 1] .main) else none
  pre_main_chain := 32

/-- The call on the long chain confirms from its genesis block. -/
theorem checksDepth_iff_longChain : longChain.ChecksDepth (fun i => BitVec.ofNat 256 i) 32 := by
  refine (checksDepth_iff longChain (fun i => BitVec.ofNat 256 i) 32
    ⟨rfl, fun i hi => ?_, freshBlock [] .main, rfl, rfl⟩).1.mpr le_rfl
  interval_cases i <;> exact ⟨_, rfl, rfl⟩

/-- On the chain that consists of its genesis block, the call reads a link that is not there. -/
theorem check_start_noLink :
    (start genesisHash (freshBlock [] .main)).Descends (fun _ => genesisHash) 0 ∧
      ∀ fuel, (start genesisHash (freshBlock [] .main)).check fuel =
        .error (.noLink genesisHash) :=
  ⟨⟨rfl, fun _ hi => absurd hi (Nat.not_lt_zero _), freshBlock [] .main, rfl, rfl⟩, fun _ => rfl⟩

end MainChain

end Tos.Sdag
