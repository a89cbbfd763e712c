import Tos.Storage.TrieCount

/-!
# Reference counts that wrap around

All the words of eight nibbles with one value are put in a trie. Below the full trie the same leaf
stands at `2 ^ 32` positions, which is more than a count of 32 bits can say.

No hash function is at hand for which the run could be computed, so one is made to measure: every
tree that occurs in the run is given a code of its own, the trees are encoded with the codes of
their children in place of hashes, and the hash of an encoding is the code of its tree.

## Main results

* `Family.exists_hash`: a hash without collisions on the nodes of a family.
* `count_wraps`: a count that is not the number of positions.
-/

namespace Tos.Trie

open List
open Sdag (H256)
open BigEndian (fixed length_fixed value value_cons value_fixed)

open Sdag.Wire (hashBytes hashBytes_injective length_hashBytes)

open Rlp (Item encode)

open Patricia.Node hiding insert delete lookup leaf

open HexPrefix (high length_nibbles low nibbles)

open GenericTrieDB hiding item insert

/-! ### A hash for a family of trees -/

/-- Trees that fit, with their children. -/
structure Family (F : Set Node) : Prop where
  ext_mem : ∀ {k n}, .ext k n ∈ F → n ∈ F
  child_mem : ∀ {c v}, .branch c v ∈ F → ∀ i, c i ∈ F
  fits : ∀ {n}, n ∈ F → Fits n

/-- The item for a child: the child, or a code. -/
def refBy (h : H256) (x : Item) : Item :=
  if (encode x).length < 32 then x else .data (hashBytes h)

/-- The item of a tree with codes for hashes. -/
def codeItem (code : Node → H256) : Node → Item
  | .nil => .data []
  | .leaf k v => pair true k (.data v)
  | .ext k n => pair false k (refBy (code n) (codeItem code n))
  | .branch c v => .list (places (fun i => refBy (code (c i)) (codeItem code (c i))) v)

lemma length_encode_refBy_le (h : H256) (x : Item) : (encode (refBy h x)).length ≤ 41 :=
  @length_encode_ref_le (fun _ => h) x

lemma length_encode_codeItem_lt {code : Node → H256} {n : Node} (h : Fits n) :
    (encode (codeItem code n)).length < 2 ^ 64 := by
  refine lt_of_le_of_lt ?_ (show RLP.maxLength < 2 ^ 64 by norm_num [RLP.maxLength])
  cases n with
  | nil => exact (length_encode_data_le (d := []) (by norm_num)).trans (by norm_num [RLP.maxLength])
  | leaf k v =>
    have hv := length_encode_data_le (d := v) (lt_trans h.2.1 (by norm_num))
    exact length_encode_pair_le h.1 (by have := h.2.1; omega)
  | ext k n =>
    exact length_encode_pair_le h.1 ((length_encode_refBy_le _ _).trans (by norm_num))
  | branch c v =>
    exact length_encode_places_le (fun i => length_encode_refBy_le _ _) fun w hw => (h.2 w hw).1

lemma pair_inj {f g : Bool} {k l : List (Fin 16)} {x y : Item} (h : pair f k x = pair g l y) :
    f = g ∧ k = l ∧ x = y := by
  simp only [pair, Item.list.injEq, List.cons.injEq, Item.data.injEq, and_true] at h
  obtain ⟨rfl, rfl⟩ := HexPrefix.encode_inj h.1
  exact ⟨rfl, rfl, h.2⟩

lemma places_inj {f g : Fin 16 → Item} {v w : Option Bytes} (h : places f v = places g w) :
    f = g ∧ v.getD [] = w.getD [] := by
  obtain ⟨hf, hv⟩ := append_inj h (by simp)
  exact ⟨ofFn_injective hf, by simpa using hv⟩

lemma pair_ne_places {f : Bool} {k : List (Fin 16)} {x : Item} {g : Fin 16 → Item}
    {v : Option Bytes} : pair f k x ≠ .list (places g v) := by
  intro h
  have hlen := congrArg List.length (Item.list.inj h)
  rw [length_places] at hlen
  simp at hlen

/-- An item that stands for a tree is not that of a hash. -/
lemma codeItem_ne_hash {code : Node → H256} (n : Node) (h : H256) :
    codeItem code n ≠ .data (hashBytes h) := by
  cases n with
  | nil =>
    intro hd
    have hlen := congrArg List.length (Item.data.inj hd)
    rw [length_hashBytes] at hlen
    simp at hlen
  | leaf k v => simp [codeItem, pair]
  | ext k n => simp [codeItem, pair]
  | branch c v => simp [codeItem]

namespace Family

variable {F : Set Node} {code : Node → H256}

lemma refBy_inj (hcode : Set.InjOn code F) {n m : Node} (hn : n ∈ F) (hm : m ∈ F)
    (ih : codeItem code n = codeItem code m → n = m)
    (h : refBy (code n) (codeItem code n) = refBy (code m) (codeItem code m)) : n = m := by
  rw [refBy, refBy] at h
  split_ifs at h
  · exact ih h
  · exact absurd h (codeItem_ne_hash n _)
  · exact absurd h.symm (codeItem_ne_hash m _)
  · exact hcode hn hm (hashBytes_injective (Item.data.inj h))

lemma getD_inj {v w : Option Bytes} (hv : ∀ x ∈ v, x ≠ []) (hw : ∀ x ∈ w, x ≠ [])
    (h : v.getD [] = w.getD []) : v = w := by
  cases v with
  | none =>
    cases w with
    | none => rfl
    | some y => exact absurd h.symm (hw y rfl)
  | some x =>
    cases w with
    | none => exact absurd h (hv x rfl)
    | some y => exact congrArg some h

/-- Different trees of a family have different items. -/
lemma codeItem_inj (hF : Family F) (hcode : Set.InjOn code F) {n m : Node} (hn : n ∈ F)
    (hm : m ∈ F) (h : codeItem code n = codeItem code m) : n = m := by
  induction n generalizing m with
  | nil => cases m <;> first | rfl | simp [codeItem, pair] at h
  | leaf k v =>
    cases m with
    | nil => simp [codeItem, pair] at h
    | leaf l w =>
      obtain ⟨-, rfl, hv⟩ := pair_inj h
      rw [Item.data.inj hv]
    | ext l m => exact absurd (pair_inj h).1 (by simp)
    | branch c w => exact absurd h pair_ne_places
  | ext k n ih =>
    cases m with
    | nil => simp [codeItem, pair] at h
    | leaf l w => exact absurd (pair_inj h).1 (by simp)
    | ext l m =>
      obtain ⟨-, rfl, hx⟩ := pair_inj h
      rw [refBy_inj hcode (hF.ext_mem hn) (hF.ext_mem hm) (ih (hF.ext_mem hn) (hF.ext_mem hm)) hx]
    | branch c w => exact absurd h pair_ne_places
  | branch c v ih =>
    cases m with
    | nil => simp [codeItem] at h
    | leaf l w => exact absurd h.symm pair_ne_places
    | ext l m => exact absurd h.symm pair_ne_places
    | branch d w =>
      obtain ⟨hf, hv⟩ := places_inj (Item.list.inj h)
      have hcd : c = d := funext fun i =>
        refBy_inj hcode (hF.child_mem hn i) (hF.child_mem hm i)
          (ih i (hF.child_mem hn i) (hF.child_mem hm i)) (congrFun hf i)
      rw [hcd, getD_inj (fun x hx => ((hF.fits hn).2 x hx).2)
        (fun x hx => ((hF.fits hm).2 x hx).2) hv]

open Classical in
/-- The code of the tree with an encoding. -/
noncomputable def hash (F : Set Node) (code : Node → H256) (s : Bytes) : H256 :=
  if h : ∃ n ∈ F, encode (codeItem code n) = s then code h.choose else 0

lemma hash_encode (hF : Family F) (hcode : Set.InjOn code F) {n : Node} (hn : n ∈ F) :
    hash F code (encode (codeItem code n)) = code n := by
  have hex : ∃ m ∈ F, encode (codeItem code m) = encode (codeItem code n) := ⟨n, hn, rfl⟩
  obtain ⟨hm, he⟩ := hex.choose_spec
  have hitem := Rlp.encode_injective_of_lt (length_encode_codeItem_lt (hF.fits hm))
    (length_encode_codeItem_lt (hF.fits hn)) he
  rw [hash, dif_pos hex, hF.codeItem_inj hcode hm hn hitem]

/-- With that hash the items are those with codes. -/
lemma item_hash (hF : Family F) (hcode : Set.InjOn code F) {n : Node} (hn : n ∈ F) :
    item (hash F code) n = codeItem code n := by
  induction n with
  | nil => rfl
  | leaf k v => rfl
  | ext k n ih =>
    have hmem := hF.ext_mem hn
    rw [item, codeItem, ih hmem, ref, refBy, hF.hash_encode hcode hmem]
  | branch c v ih =>
    have href : refs (hash F code) c = fun i => refBy (code (c i)) (codeItem code (c i)) := by
      funext i
      have hmem := hF.child_mem hn i
      rw [refs, ih i hmem, ref, refBy, hF.hash_encode hcode hmem]
    rw [item, codeItem]
    exact congrArg (fun f => Item.list (places f v)) href

/-- **A hash for a family.** If the trees of a family can be told apart by codes, there is a hash
without collisions on their encodings. -/
theorem exists_hash (hF : Family F) (hcode : Set.InjOn code F) :
    ∃ sha3, Set.InjOn sha3 (enc sha3 '' F) := by
  refine ⟨hash F code, ?_⟩
  rintro _ ⟨n, hn, rfl⟩ _ ⟨m, hm, rfl⟩ h
  rw [enc, enc, hF.item_hash hcode hn, hF.item_hash hcode hm, hF.hash_encode hcode hn,
    hF.hash_encode hcode hm] at h
  rw [hcode hn hm h]

variable {sha3 : Bytes → H256}

lemma within_self {n : Node} (hn : n ∈ F) : Within (enc sha3 '' F) (self sha3 n) := by
  intro s hs
  rw [self, kept] at hs
  split_ifs at hs
  · exact absurd hs (lt_irrefl 0)
  · by_cases hsn : s = enc sha3 n
    · exact ⟨n, hn, hsn.symm⟩
    · rw [Pi.single_eq_of_ne hsn] at hs
      exact absurd hs (lt_irrefl 0)

/-- The stored nodes below a tree of a family are encodings of trees of the family. -/
lemma within_below (hF : Family F) {n : Node} (hn : n ∈ F) :
    Within (enc sha3 '' F) (below sha3 n) := by
  induction n with
  | nil => exact fun s hs => absurd hs (lt_irrefl 0)
  | leaf k v => exact fun s hs => absurd hs (lt_irrefl 0)
  | ext k n ih =>
    have hmem := hF.ext_mem hn
    intro s hs
    rw [below, Pi.add_apply] at hs
    rcases Nat.add_pos_iff_pos_or_pos.mp hs with hs | hs
    · exact within_self hmem s hs
    · exact ih hmem s hs
  | branch c v ih =>
    intro s hs
    rw [below, Finset.sum_apply] at hs
    obtain ⟨i, -, hi⟩ := Finset.exists_ne_zero_of_sum_ne_zero hs.ne'
    have hmem := hF.child_mem hn i
    rw [Pi.add_apply] at hi
    rcases Nat.add_pos_iff_pos_or_pos.mp (Nat.pos_of_ne_zero hi) with hs | hs
    · exact within_self hmem s hs
    · exact ih i hmem s hs

lemma within_stored (hF : Family F) {n : Node} (hn : n ∈ F) :
    Within (enc sha3 '' F) (stored sha3 n) := by
  intro s hs
  by_cases hsn : s = enc sha3 n
  · exact ⟨n, hn, hsn.symm⟩
  · rw [stored, Pi.add_apply, Pi.single_eq_of_ne hsn, zero_add] at hs
    exact hF.within_below hn s hs

/-- What is written on the way is in the family with the lower parts of its pairs. -/
lemma within_extra (hF : Family F) (hleaf : ∀ {k v} i, .leaf k v ∈ F → .leaf (k.drop i) v ∈ F)
    (hext : ∀ {k n} i, .ext k n ∈ F → i < k.length → .ext (k.drop i) n ∈ F)
    {n : Node} (hn : n ∈ F) (l : List (Fin 16)) : Within (enc sha3 '' F) (extra sha3 n l) := by
  have hzero : Within (enc sha3 '' F) 0 := fun s hs => absurd hs (lt_irrefl 0)
  induction n generalizing l with
  | nil => exact hzero
  | leaf k v =>
    rw [extra]
    split_ifs
    · exact hzero
    · exact within_self (hleaf _ hn)
  | ext k n ih =>
    rw [extra]
    cases hd : l.dropPrefix? k with
    | some r => exact ih (hF.ext_mem hn) r
    | none =>
      dsimp only
      split_ifs
      · exact hzero
      · exact within_self (hext _ hn (Patricia.shared_lt_of_dropPrefix_eq_none hd))
  | branch c v ih =>
    cases l with
    | nil => exact hzero
    | cons a l => exact ih a (hF.child_mem hn a) l

end Family

/-! ### The trees of the first words -/

/-- The number of a word among those of its length. -/
def rank : List (Fin 16) → ℕ
  | [] => 0
  | a :: x => a * 16 ^ x.length + rank x

lemma rank_lt (x : List (Fin 16)) : rank x < 16 ^ x.length := by
  induction x with
  | nil => simp [rank]
  | cons a x ih =>
    have ha : (a : ℕ) * 16 ^ x.length ≤ 15 * 16 ^ x.length :=
      Nat.mul_le_mul_right _ (Nat.le_of_lt_succ a.isLt)
    rw [rank, length_cons, pow_succ]
    omega

lemma rank_inj {x y : List (Fin 16)} (hlen : x.length = y.length) (h : rank x = rank y) :
    x = y := by
  induction x generalizing y with
  | nil => exact (length_eq_zero_iff.mp hlen.symm).symm
  | cons a x ih =>
    cases y with
    | nil => simp at hlen
    | cons b y =>
      have hxy : x.length = y.length := by simpa using hlen
      have hpos : 0 < 16 ^ y.length := by positivity
      have hhead : ∀ (a : Fin 16) {r : ℕ}, r < 16 ^ y.length →
          ((a : ℕ) * 16 ^ y.length + r) / 16 ^ y.length = a := by
        intro a r hr
        rw [Nat.add_comm, Nat.add_mul_div_right _ _ hpos, Nat.div_eq_of_lt hr, Nat.zero_add]
      have hx : rank x < 16 ^ y.length := hxy ▸ rank_lt x
      rw [rank, rank, hxy] at h
      have hab : (a : ℕ) = b := by rw [← hhead a hx, h, hhead b (rank_lt y)]
      rw [hab] at h
      rw [Fin.ext hab, ih hxy (Nat.add_left_cancel h)]

/-- The rank of a byte string is its value. -/
lemma rank_nibbles (d : Bytes) : rank (nibbles d) = value d := by
  induction d with
  | nil => rfl
  | cons b d ih =>
    have hb : (high b : ℕ) * 16 + low b = b.toNat := by
      have := b.toNat_lt
      simp only [high, low, Fin.ofNat]
      omega
    rw [nibbles, rank, rank, ih, length_cons, length_nibbles,
      value_cons, ← hb, pow_succ, pow_mul]
    ring

variable (v : Bytes)

/-- The tree of the first `c` words of length `j`. -/
noncomputable def firsts : ℕ → ℕ → Node
  | 0, c => if c = 0 then .nil else .leaf [] v
  | j + 1, c => collapse (fun i : Fin 16 => firsts j (min (c - i * 16 ^ j) (16 ^ j))) none

lemma canon_firsts (j c : ℕ) : Canon (firsts v j c) := by
  induction j generalizing c with
  | zero =>
    rw [firsts]
    split_ifs
    · exact .nil
    · exact .leaf _ _
  | succ j ih => exact .collapse (fun i => ih _) none

lemma lookup_firsts (j c : ℕ) (x : List (Fin 16)) :
    (firsts v j c).lookup x = if x.length = j ∧ rank x < c then some v else none := by
  induction j generalizing c x with
  | zero =>
    rw [firsts]
    by_cases hc : c = 0
    · simp [hc]
    · cases x with
      | nil => simp [hc, Nat.pos_of_ne_zero hc, rank, lookup_leaf]
      | cons a x => simp [hc, lookup_leaf]
  | succ j ih =>
    rw [firsts, lookup_collapse]
    cases x with
    | nil => simp
    | cons a x =>
      rw [lookup_branch_cons, ih, length_cons, rank]
      refine if_congr ?_ rfl rfl
      rw [Nat.add_right_cancel_iff]
      refine and_congr_right fun hx => ?_
      have hlt := rank_lt x
      rw [hx] at hlt ⊢
      rw [lt_min_iff]
      omega

lemma small_firsts (hv : v.length < 2 ^ 62) (hne : v ≠ []) {j : ℕ} (hj : j ≤ 8) (c : ℕ) :
    Small (firsts v j c) := by
  intro x w hx
  rw [lookup_firsts] at hx
  split_ifs at hx with h
  obtain rfl := Option.some.inj hx
  exact ⟨by omega, hv, hne⟩

lemma firsts_zero (j : ℕ) : firsts v j 0 = .nil :=
  (canon_firsts v j 0).eq_of_lookup .nil fun x => by simp [lookup_firsts]

/-- One more letter: a branch, or one letter in front of a tree. -/
lemma firsts_cases (j c : ℕ) :
    (∃ d, firsts v (j + 1) c = .branch d none ∧ ∀ i, ∃ c' ≤ 16 ^ j, d i = firsts v j c') ∨
      ∃ b, ∃ c' ≤ 16 ^ j, firsts v (j + 1) c = prepend [b] (firsts v j c') := by
  rw [firsts]
  rcases collapse_cases
    (fun i : Fin 16 => firsts v j (min (c - i * 16 ^ j) (16 ^ j))) none with hu | ⟨-, b, hb⟩ | hnil
  · exact Or.inl ⟨_, collapse_of_nontrivial hu,
      fun i => ⟨_, min_le_right _ _, rfl⟩⟩
  · exact Or.inr ⟨b, _, min_le_right _ _, collapse_child hb⟩
  · refine Or.inr ⟨0, 0, Nat.zero_le _, ?_⟩
    rw [collapse_empty hnil, firsts_zero]
    rfl

section Prepend

variable {v} {b : Fin 16} {k : List (Fin 16)} {n m : Node} {w : Bytes}

lemma prepend_ne_branch {c : Fin 16 → Node} {u : Option Bytes} : prepend [b] n ≠ .branch c u := by
  cases n <;> simp [prepend]

lemma of_prepend_leaf (h : prepend [b] n = .leaf k w) : ∃ l, k = b :: l ∧ n = .leaf l w := by
  cases n <;> simp_all [prepend]

lemma of_prepend_ext (h : prepend [b] n = .ext k m) :
    (∃ l, k = b :: l ∧ n = .ext l m) ∨ k = [b] ∧ n = m := by
  cases n <;> simp_all [prepend]

end Prepend

/-- The trees of the first words, up to the length of a key. -/
def firstTrees : Set Node := {n | ∃ j ≤ 8, ∃ c ≤ 16 ^ j, n = firsts v j c}

variable {v}

lemma firsts_mem {j c : ℕ} (hj : j ≤ 8) (hc : c ≤ 16 ^ j) : firsts v j c ∈ firstTrees v :=
  ⟨j, hj, c, hc, rfl⟩

lemma ext_mem_firstTrees {k : List (Fin 16)} {n : Node} {j c : ℕ} (hj : j ≤ 8)
    (h : firsts v j c = .ext k n) : n ∈ firstTrees v := by
  induction j generalizing c k with
  | zero =>
    rw [firsts] at h
    split_ifs at h
  | succ j ih =>
    rcases firsts_cases v j c with ⟨d, hd, -⟩ | ⟨b, c', hc', hb⟩
    · rw [hd] at h
      simp at h
    · rw [hb] at h
      rcases of_prepend_ext h with ⟨l, -, hl⟩ | ⟨-, rfl⟩
      · exact ih (by omega) hl
      · exact firsts_mem (by omega) hc'

lemma leaf_drop_mem_firstTrees {k : List (Fin 16)} {w : Bytes} {j c : ℕ} (hj : j ≤ 8)
    (hc : c ≤ 16 ^ j) (h : firsts v j c = .leaf k w) (i : ℕ) :
    .leaf (k.drop i) w ∈ firstTrees v := by
  induction j generalizing c k i with
  | zero =>
    have hk : k = [] := by
      rw [firsts] at h
      split_ifs at h
      exact (Patricia.Node.leaf.inj h).1.symm
    rw [hk, drop_nil, ← hk, ← h]
    exact firsts_mem hj hc
  | succ j ih =>
    rcases firsts_cases v j c with ⟨d, hd, -⟩ | ⟨b, c', hc', hb⟩
    · rw [hd] at h
      simp at h
    · cases i with
      | zero =>
        rw [drop_zero, ← h]
        exact firsts_mem hj hc
      | succ i =>
        rw [hb] at h
        obtain ⟨l, rfl, hl⟩ := of_prepend_leaf h
        exact ih (by omega) hc' hl i

lemma ext_drop_mem_firstTrees {k : List (Fin 16)} {n : Node} {j c : ℕ} (hj : j ≤ 8)
    (hc : c ≤ 16 ^ j) (h : firsts v j c = .ext k n) (i : ℕ) (hi : i < k.length) :
    .ext (k.drop i) n ∈ firstTrees v := by
  induction j generalizing c k i with
  | zero =>
    rw [firsts] at h
    split_ifs at h
  | succ j ih =>
    rcases firsts_cases v j c with ⟨d, hd, -⟩ | ⟨b, c', hc', hb⟩
    · rw [hd] at h
      simp at h
    · cases i with
      | zero =>
        rw [drop_zero, ← h]
        exact firsts_mem hj hc
      | succ i =>
        rw [hb] at h
        rcases of_prepend_ext h with ⟨l, rfl, hl⟩ | ⟨rfl, -⟩
        · exact ih (by omega) hc' hl i (by simpa using hi)
        · simp at hi

lemma family_firstTrees (hv : v.length < 2 ^ 62) (hne : v ≠ []) : Family (firstTrees v) where
  ext_mem := by
    rintro k n ⟨j, hj, c, -, h⟩
    exact ext_mem_firstTrees hj h.symm
  child_mem := by
    rintro d w ⟨j, hj, c, -, h⟩ i
    cases j with
    | zero =>
      rw [firsts] at h
      split_ifs at h
    | succ j =>
      rcases firsts_cases v j c with ⟨d', hd', hchild⟩ | ⟨b, c', hc', hb⟩
      · rw [hd'] at h
        obtain ⟨c', hc', hi⟩ := hchild i
        rw [(Patricia.Node.branch.inj h).1, hi]
        exact firsts_mem (by omega) hc'
      · exact absurd (h.trans hb).symm prepend_ne_branch
  fits := by
    rintro n ⟨j, hj, c, -, rfl⟩
    exact (small_firsts v hv hne hj c).fits (canon_firsts v j c)

/-- There is a hash without collisions on the nodes of these trees. -/
lemma exists_hash_firstTrees (hv : v.length < 2 ^ 62) (hne : v ≠ []) :
    ∃ sha3, Set.InjOn sha3 (enc sha3 '' firstTrees v) := by
  -- a tree is coded by the length of its words and their number
  have hsurj : ∀ n ∈ firstTrees v, ∃ h : H256,
      firsts v (h.toNat / 2 ^ 40) (h.toNat % 2 ^ 40) = n := by
    rintro n ⟨j, hj, c, hc, rfl⟩
    have hc' : c < 2 ^ 40 := calc
      c ≤ 16 ^ j := hc
      _ ≤ 16 ^ 8 := Nat.pow_le_pow_right (by norm_num) hj
      _ < 2 ^ 40 := by norm_num
    refine ⟨BitVec.ofNat 256 (j * 2 ^ 40 + c), ?_⟩
    rw [BitVec.toNat_ofNat, Nat.mod_eq_of_lt (by omega)]
    congr 1 <;> omega
  choose! code hcode using hsurj
  have hinj : Set.InjOn code (firstTrees v) := fun n hn m hm h => by
    rw [← hcode n hn, h, hcode m hm]
  exact (family_firstTrees hv hne).exists_hash hinj

/-! ### The run -/

/-- All keys of four bytes up to one, in ascending order, with one value. -/
def fill (v : Bytes) (c : ℕ) : List TrieOp :=
  (List.range c).map fun i => .insert (fixed 4 i) v

lemma fill_succ (v : Bytes) (c : ℕ) : fill v (c + 1) = fill v c ++ [.insert (fixed 4 c) v] := by
  simp [fill, range_succ]

/-- One more word. -/
lemma firsts_insert {c : ℕ} (hc : c < 16 ^ 8) :
    (firsts v 8 c).insert (nibbles (fixed 4 c)) v = firsts v 8 (c + 1) := by
  have hlen : (fixed 4 c).length = 4 := length_fixed (by omega)
  have hword : ∀ x, x = nibbles (fixed 4 c) ↔ x.length = 8 ∧ rank x = c := by
    intro x
    constructor
    · rintro rfl
      rw [length_nibbles, hlen, rank_nibbles, value_fixed]
      exact ⟨rfl, rfl⟩
    · rintro ⟨hx, hr⟩
      refine rank_inj (by rw [length_nibbles, hlen, hx]) ?_
      rw [hr, rank_nibbles, value_fixed]
  refine ((canon_firsts v 8 c).insert _ _).eq_of_lookup (canon_firsts v 8 (c + 1)) fun x => ?_
  rw [lookup_insert, lookup_firsts, lookup_firsts]
  by_cases hx : x.length = 8
  · simp only [hword, hx, true_and]
    split_ifs <;> first | rfl | omega
  · simp [hword, hx]

variable {sha3 : Bytes → H256} {fuel : ℕ}

/-- The run over the first keys stands for their tree. -/
lemma fill_runs (hinj : Set.InjOn sha3 (enc sha3 '' firstTrees v)) (hv : v.length < 2 ^ 62)
    (hne : v ≠ []) (hfuel : 13 ≤ fuel) {c : ℕ} (hc : c ≤ 16 ^ 8) :
    Runs (MemoryDB.keeper hinj ∅ (enc sha3 '' firstTrees v)) (TrieOp.run sha3 fuel (fill v c))
      fresh fun _ t =>
        Stands (MemoryDB.keeper hinj ∅ (enc sha3 '' firstTrees v)) t (firsts v 8 c) := by
  have hF := family_firstTrees hv hne
  induction c with
  | zero =>
    have hnull : RLPNull ∈ enc sha3 '' firstTrees v :=
      ⟨.nil, ⟨8, le_rfl, 0, Nat.zero_le _, (firsts_zero v 8).symm⟩, enc_nil⟩
    refine (init_runs _ MemoryDB.Counts.empty (by omega) hnull).bind fun _ t ht => ?_
    rw [firsts_zero]
    exact .of_on (Method.on_pure ()) rfl ht
  | succ c ih =>
    have hlen : (fixed 4 c).length = 4 := length_fixed (by omega)
    have hmem : firsts v 8 c ∈ firstTrees v := firsts_mem le_rfl (by omega)
    have hnext := @firsts_insert v c (by omega)
    have hkill : ∀ B, (MemoryDB.keeper hinj ∅ (enc sha3 '' firstTrees v)).KillOk B :=
      fun _ s hs => absurd hs (Set.notMem_empty s)
    rw [fill_succ, run_append]
    refine (ih (by omega)).bind fun _ t ht => ?_
    have hkey : (fixed 4 c).length < 2 ^ 30 := by omega
    have hcall := insert_runs _ ht hkey hv hne (Or.inl rfl) (by omega : _ ≤ fuel) (hkill _)
      (fun _ => hkill _)
      (hF.within_extra
        (fun i ⟨j, hj, c, hc, h⟩ => leaf_drop_mem_firstTrees hj hc h.symm i)
        (fun i ⟨j, hj, c, hc, h⟩ hi => ext_drop_mem_firstTrees hj hc h.symm i hi) hmem _)
      (by rw [hnext]; exact hF.within_stored (firsts_mem le_rfl hc))
    rw [hnext] at hcall
    exact hcall.bind fun _ t' ht' => .of_on (Method.on_pure ()) rfl ht'

/-! ### The full tree -/

lemma length_le_enc_leaf (v : Bytes) : v.length ≤ (enc sha3 (.leaf [] v)).length := by
  refine (Rlp.length_le_length_frame .data v).trans ?_
  rw [← Rlp.encode_data]
  exact Rlp.length_encode_le_of_mem_list (by simp)

/-- A full tree has sixteen full trees below it. -/
lemma firsts_full (j : ℕ) :
    firsts v (j + 1) (16 ^ (j + 1)) = .branch (fun _ => firsts v j (16 ^ j)) none := by
  have hchild : ∀ i : Fin 16, min (16 ^ (j + 1) - (i : ℕ) * 16 ^ j) (16 ^ j) = 16 ^ j := by
    intro i
    have hi : (i : ℕ) * 16 ^ j ≤ 15 * 16 ^ j :=
      Nat.mul_le_mul_right _ (Nat.le_of_lt_succ i.isLt)
    rw [pow_succ]
    omega
  have hne : firsts v j (16 ^ j) ≠ .nil := by
    intro h
    have hlookup := lookup_firsts v j (16 ^ j) (List.replicate j 0)
    have hlt := rank_lt (List.replicate j 0)
    rw [length_replicate] at hlt
    rw [h, if_pos ⟨length_replicate, hlt⟩] at hlookup
    simp at hlookup
  rw [firsts]
  simp only [hchild]
  exact collapse_of_nontrivial ⟨some 0, hne, some 1, hne, by simp⟩

lemma below_full (j : ℕ) (s : Bytes) : below sha3 (firsts v (j + 1) (16 ^ (j + 1))) s =
    16 * (self sha3 (firsts v j (16 ^ j)) s + below sha3 (firsts v j (16 ^ j)) s) := by
  rw [firsts_full, below, Finset.sum_const, Finset.card_univ, Fintype.card_fin, Pi.smul_apply,
    Pi.add_apply, smul_eq_mul]

/-- In a full tree the leaf stands at as many positions as there are words. -/
lemma le_count_full (hleaf : 32 ≤ (enc sha3 (.leaf [] v)).length) (j : ℕ) :
    16 ^ j ≤ self sha3 (firsts v j (16 ^ j)) (enc sha3 (.leaf [] v)) +
      below sha3 (firsts v j (16 ^ j)) (enc sha3 (.leaf [] v)) := by
  induction j with
  | zero =>
    rw [firsts, if_neg (by norm_num), self, kept, if_neg hleaf.not_gt, Pi.single_eq_same]
    exact Nat.le_add_right ..
  | succ j ih =>
    rw [below_full, pow_succ]
    omega

lemma le_stored_full (hleaf : 32 ≤ (enc sha3 (.leaf [] v)).length) (j : ℕ) :
    16 ^ (j + 1) ≤ stored sha3 (firsts v (j + 1) (16 ^ (j + 1))) (enc sha3 (.leaf [] v)) := by
  have hle := le_count_full hleaf j
  rw [stored, Pi.add_apply, below_full, pow_succ]
  omega

/-- **A count that wraps around.** All the keys of four bytes are inserted, with one value of 32
bytes. There is a node with more positions than its count of 32 bits can say. -/
theorem count_wraps : ∃ (sha3 : Bytes → H256) (ops : List TrieOp),
    (∀ op ∈ ops, ∃ k v, op = .insert k v ∧ k.length = 4 ∧ v.length = 32) ∧
    ∀ fuel, 2 ^ 31 + 5 ≤ fuel →
      Set.InjOn sha3 (writtenSet ((TrieOp.run sha3 fuel ops).on fresh).2) ∧
      ∃ t hs h, (TrieOp.run sha3 fuel ops).on fresh = (.ok (), t) ∧
        (positions fuel).on t = (.ok hs, t) ∧ (t.m_db.count h).toNat < hs.count h := by
  obtain ⟨v, hv⟩ : ∃ v : Bytes, v.length = 32 := ⟨List.replicate 32 0, length_replicate⟩
  have hne : v ≠ [] := by
    rintro rfl
    simp at hv
  obtain ⟨sha3, hinj⟩ := @exists_hash_firstTrees v (by omega) hne
  -- the number of keys is kept away from evaluation
  obtain ⟨c, hc⟩ : ∃ c, c = 16 ^ 8 := ⟨_, rfl⟩
  refine ⟨sha3, fill v c, fun op hop => ?_, fun fuel hfuel => ?_⟩
  · obtain ⟨i, hi, rfl⟩ := mem_map.mp hop
    rw [mem_range] at hi
    exact ⟨_, v, rfl, length_fixed (by omega), hv⟩
  obtain ⟨⟨⟩, t, hon, hstands, hwritten⟩ :=
    (fill_runs hinj (by omega) hne (by omega : 13 ≤ fuel) hc.le).returns_planned subset_rfl
  have hsub : writtenSet t ⊆ enc sha3 '' firstTrees v := fun s hs =>
    (hwritten s hs).resolve_right not_mem_nil
  have hleaf : 32 ≤ (enc sha3 (.leaf [] v)).length := hv ▸ length_le_enc_leaf v
  refine ⟨by rw [hon]; exact hinj.mono hsub, t, _, sha3 (enc sha3 (.leaf [] v)), hon,
    positions_on _ hstands (by omega), ?_⟩
  have hle := @le_stored_full v sha3 hleaf 7
  calc (t.m_db.count (sha3 (enc sha3 (.leaf [] v)))).toNat
    _ < 16 ^ 8 := UInt32.toNat_lt _
    _ ≤ stored sha3 (firsts v 8 c) (enc sha3 (.leaf [] v)) := by rw [hc]; exact hle
    _ = (nodes sha3 (firsts v 8 c)).count (enc sha3 (.leaf [] v)) := (count_nodes _ _).symm
    _ ≤ _ := count_le_count_map ..

end Tos.Trie
