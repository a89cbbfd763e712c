import Tos.Storage.TrieSpec

/-!
# Insertion into the trie

`mergeAt` on the encoding of a canonical tree returns the encoding of the tree with one more
word, and leaves in the database the nodes below it: those of the old tree that it replaced are
given back and the new ones are held.

## Main results

* `mergeAt_spec`: it inserts.
-/

namespace Tos.Trie

open Sdag (H256)
open RLP (isNull maxLength)
open List
open Function (update update_of_ne update_self)
open Method

open Rlp (Item encode encodeList)

open GenericTrieDB hiding item insert

open Patricia (Apart shared shared_append)

open Patricia.Node hiding insert delete lookup leaf

open RLPStream (upTo)

/-! ### Small trees -/

/-- Words and values are small enough, and no value is empty. -/
def Small (m : Node) : Prop :=
  ∀ x v, m.lookup x = some v → x.length < 2 ^ 31 - 1 ∧ v.length < 2 ^ 62 ∧ v ≠ []

/-- The child of a small branch is small. -/
lemma Small.child {c : Fin 16 → Node} {v : Option Bytes} (h : Small (.branch c v)) (a : Fin 16) :
    Small (c a) := by
  intro x w hx
  obtain ⟨hlen, hw⟩ := h (a :: x) w hx
  exact ⟨by rw [length_cons] at hlen; omega, hw⟩

/-- What an extension points at is small with it. -/
lemma Small.ext {k : List (Fin 16)} {n : Node} (h : Small (.ext k n)) : Small n := by
  intro x w hx
  obtain ⟨hlen, hw⟩ := h (k ++ x) w (by rwa [lookup_ext_append])
  exact ⟨by rw [length_append] at hlen; omega, hw⟩

variable {m : Node}

/-- A short path and a small value keep a tree small. -/
lemma Small.insert (h : Small m) {l : List (Fin 16)} {v : Bytes}
    (hl : l.length < 2 ^ 31 - 1) (hv : v.length < 2 ^ 62) (hne : v ≠ []) :
    Small (m.insert l v) := by
  intro x w hx
  rw [lookup_insert] at hx
  split_ifs at hx with hxl
  · obtain rfl := Option.some.inj hx
    exact ⟨hxl ▸ hl, hv, hne⟩
  · exact h x w hx

/-- A canonical tree fits if its words and values do. -/
lemma Small.fits (h : Small m) (hm : Canon m) : Fits m := by
  induction hm with
  | nil => exact trivial
  | leaf k v => exact h k v (by simp [lookup_leaf])
  | @ext k c v hk hn ih =>
    obtain ⟨x, hx⟩ := hn.exists_lookup (by simp)
    obtain ⟨w, hw⟩ := Option.ne_none_iff_exists'.mp hx
    obtain ⟨hlen, -⟩ := h (k ++ x) w (by rwa [lookup_ext_append])
    exact ⟨by rw [length_append] at hlen; omega, ih h.ext⟩
  | branch hc hu ih => exact ⟨fun a => ih a (h.child a), fun w hw => (h [] w hw).2⟩

variable {δ : Type} [NodeDB δ] {sha3 : Bytes → H256} {W : Set Bytes} (K : Keeper δ sha3 W)
  {t : GenericTrieDB δ} {M F : Tally} {v : Bytes} {key : NibbleSlice}

/-! ### The loop over the places of a branch -/

/-- The indices before, at and after `a`. -/
lemma range_split {a n : ℕ} (h : a < n) :
    List.range n = List.range' 0 a ++ a :: List.range' (a + 1) (n - a - 1) := by
  have hn : n = a + (1 + (n - a - 1)) := by omega
  conv_lhs => rw [range_eq_range', hn, ← range'_append_1, Nat.zero_add,
    ← range'_append_1]
  rfl

/-- A loop that writes the items of a list, with one round that does something else. -/
lemma foldlM_runs {f : RLPStream → ℕ → TrieM δ RLPStream} {xs : List Item} {a n : ℕ} (ha : a < n)
    {P : GenericTrieDB δ → Prop} [∀ r i, Grows written (f r i)]
    (hother : ∀ t j, j < n → j ≠ a → (f (upTo xs j) j).on t = (.ok (upTo xs (j + 1)), t))
    (hround : Runs K (f (upTo xs a) a) t fun s t' => s = upTo xs (a + 1) ∧ P t') :
    Runs K ((List.range n).foldlM f (upTo xs 0)) t fun s t' => s = upTo xs n ∧ P t' := by
  have hbefore : ((List.range' 0 a).foldlM f (upTo xs 0)).on t = (.ok (upTo xs (0 + a)), t) :=
    foldlM_on fun j _ hj => hother t j (by omega) (by omega)
  rw [Nat.zero_add] at hbefore
  rw [range_split ha, foldlM_append]
  refine Runs.step hbefore ?_
  rw [foldlM_cons]
  refine hround.bind ?_
  rintro _ t' ⟨rfl, hP⟩
  have hafter : ((List.range' (a + 1) (n - a - 1)).foldlM f (upTo xs (a + 1))).on t' =
      (.ok (upTo xs (a + 1 + (n - a - 1))), t') :=
    foldlM_on fun j _ hj => hother t' j (by omega) (by omega)
  rw [show a + 1 + (n - a - 1) = n by omega] at hafter
  exact .of_on hafter rfl ⟨rfl, hP⟩

/-! ### Placing a value -/

/-- Giving back the node `s` takes the database from `M` to `F`. -/
def Gives (s : Bytes) (M F : Tally) : Prop :=
  ∀ t : GenericTrieDB δ, K.Holds t.m_db M →
    ∃ d, (killNode sha3 s).on t = (.ok (), { t with m_db := d }) ∧ K.Holds d F

variable {s : Bytes}

/-- A node counted once can be given up. -/
lemma gives_kept (hk : K.KillOk (kept s + F)) : Gives K s (kept s + F) F :=
  fun _ h => killNodeAt_on K h hk

/-- A node that was never held. -/
lemma gives_lax (h : K.Lax) : Gives K s F F := by
  intro t hF
  by_cases hs : s.length ≥ 32
  · exact ⟨_, by rw [killNode, killNodeAt, if_pos hs]; rfl, K.kill_lax h (sha3 s) hF⟩
  · exact ⟨t.m_db, by rw [killNode, killNodeAt, if_neg hs]; rfl, hF⟩

/-- The empty tree is empty data. -/
lemma enc_nil : enc sha3 .nil = [0x80] := rfl

/-- A value where there was nothing. -/
lemma place_nil_on {l : List (Fin 16)} (hcode : hexPrefixEncode key true = HexPrefix.encode true l)
    (hlen : l.length < 2 ^ 31 - 1) (hv : v.length < 2 ^ 62) :
    (place sha3 (enc sha3 .nil) key v).on t =
      (.ok (enc sha3 (.leaf l v)), t) := by
  have hdata := length_encode_data_le (d := v) (by omega)
  have hsize : (encode (pair true l (.data v))).length ≤ maxLength :=
    length_encode_pair_le hlen (by omega)
  have hkill : (killNode sha3 (enc sha3 .nil)).on t = (.ok (), t) := rfl
  rw [place, on_bind_of_ok hkill, if_pos (by rw [enc_nil]; rfl), hcode,
    on_bind_of_ok (newList_pair_on true l (.data v)), on_bind_of_ok (append_on rfl hsize),
    on_bind_of_ok (append_on rfl hsize)]
  exact out_on rfl

variable {w : Bytes}

/-- Another value for a leaf. -/
lemma place_leaf_runs {k : List (Fin 16)} (hfits : Fits (.leaf k w))
    (hv : v.length < 2 ^ 62) (hg : Gives K (enc sha3 (.leaf k w)) M F) (h : K.Holds t.m_db M) :
    Runs K (place sha3 (enc sha3 (.leaf k w)) key v) t
      fun b t' => b = enc sha3 (.leaf k v) ∧ K.Holds t'.m_db F := by
  have hdata := length_encode_data_le (d := v) (by omega)
  have horig := hfits.length_leaf_le
  have hsize : (encode (pair true k (.data v))).length ≤ maxLength :=
    length_encode_pair_le hfits.1 (by omega)
  obtain ⟨d, hkill, hd⟩ := hg t h
  refine .change hkill rfl ?_
  rw [if_neg (by rw [enc, item, isEmpty_pair horig]; simp)]
  refine .step (rlp_on (itemCount_pair horig)) (.step (assertNode_on horig (Or.inl rfl)) ?_)
  rw [if_pos rfl]
  refine .step (newList_pair_on true k (.data v))
    (.step (appendItem_on rfl horig rfl hsize (by norm_num)) (.step (append_on rfl hsize) ?_))
  exact .of_on (out_on rfl) rfl ⟨rfl, hd⟩

/-- A value in a branch. -/
lemma place_branch_runs {c : Fin 16 → Node} {w : Option Bytes} (hfits : Fits (.branch c w))
    (hv : v.length < 2 ^ 62) (hg : Gives K (enc sha3 (.branch c w)) M F) (h : K.Holds t.m_db M) :
    Runs K (place sha3 (enc sha3 (.branch c w)) key v) t
      fun b t' => b = enc sha3 (.branch c (some v)) ∧ K.Holds t'.m_db F := by
  set f := fun i => ref sha3 (item sha3 (c i)) with hf
  have horig : (encode (.list (places f w))).length ≤ maxLength := hfits.length_branch_le sha3
  have hsize : (encode (.list (places f (some v)))).length ≤ maxLength :=
    length_encode_places_le (fun i => length_encode_ref_le _) (by simpa using hv)
  obtain ⟨d, hkill, hd⟩ := hg t h
  have hloop : ((List.range 16).foldlM (appendItem (encode (.list (places f w))))
      (upTo (places f (some v)) 0)).on { t with m_db := d } =
      (.ok (upTo (places f (some v)) (0 + 16)), { t with m_db := d }) := by
    rw [range_eq_range']
    refine foldlM_on fun j _ hj => ?_
    obtain ⟨ys, hys⟩ := drop_places f w ⟨j, by omega⟩
    obtain ⟨zs, hzs⟩ := drop_places f (some v) ⟨j, by omega⟩
    exact appendItem_on hys horig hzs hsize (by omega)
  refine .change hkill rfl ?_
  rw [if_neg (by rw [enc, item, isEmpty_places horig]; simp)]
  refine .step (rlp_on (itemCount_places horig)) (.step (assertNode_on horig (Or.inr rfl)) ?_)
  rw [if_neg (by norm_num)]
  refine .step (newList_places_on f (some v))
    (.step hloop (.step (append_on (drop_places_value _ _) hsize) ?_))
  exact .of_on (out_on (length_places _ _)) rfl ⟨rfl, hd⟩

/-! ### Cleaving a pair -/

/-- A pair is cut in two behind `p`; the lower part is held in its place. -/
lemma cleve_runs {leaf : Bool} {p k : List (Fin 16)} {x : Item} (hp : p ≠ [])
    (hlen : (p ++ k).length < 2 ^ 31 - 1) (hx : (encode x).length ≤ 2 ^ 63)
    (hg : Gives K (encode (pair leaf (p ++ k) x)) M F)
    (hplan : Within K.plan (kept (encode (pair leaf k x)))) (h : K.Holds t.m_db M) :
    Runs K (cleve sha3 (encode (pair leaf (p ++ k) x)) p.length) t
      fun b t' => b = encode (pair false p (ref sha3 (pair leaf k x))) ∧
        K.Holds t'.m_db (kept (encode (pair leaf k x)) + F) := by
  have horig : (encode (pair leaf (p ++ k) x)).length ≤ maxLength :=
    length_encode_pair_le hlen hx
  have hp' : p.length < 2 ^ 31 - 1 := by rw [length_append] at hlen; omega
  have hk' : k.length < 2 ^ 31 - 1 := by rw [length_append] at hlen; omega
  have hbottom : (encode (pair leaf k x)).length ≤ maxLength := length_encode_pair_le hk' hx
  have htop : (encode (pair false p (ref sha3 (pair leaf k x)))).length ≤ maxLength :=
    length_encode_pair_ref_le hp' _
  obtain ⟨hvalid, hword⟩ := keyOf_encode leaf hlen
  obtain ⟨d, hkill, hd⟩ := hg t h
  have hsize : (keyOf (HexPrefix.encode leaf (p ++ k))).size = (p ++ k).length := by
    rw [hvalid.size_eq, hword]
  have hlower : hexPrefixEncode (keyOf (HexPrefix.encode leaf (p ++ k))) leaf p.length =
      HexPrefix.encode leaf k := by
    rw [hvalid.hexPrefixEncode_drop (by rw [hword]; simp), hword, drop_left]
  have hupper : hexPrefixEncode (keyOf (HexPrefix.encode leaf (p ++ k))) false 0 p.length =
      HexPrefix.encode false p := by
    rw [hvalid.hexPrefixEncode_take (by rw [hword]; simp), hword, take_left]
  have hassert : (p.length != 0 && decide (p.length ≤ (p ++ k).length)) = true := by
    simp [hp]
  unfold cleve
  refine .change hkill rfl (.step (rlp_on (itemCount_pair horig)) (.step (assert_on ?_)
    (.step (keyOfNode_on horig) (.step (assert_on ?_) (.step (isLeaf_on horig)
    (.step (item_one_on horig) ?_))))))
  · rw [isList_pair horig]
    rfl
  · rw [hsize]
    exact hassert
  rw [hlower, hupper]
  refine .step (pairOf_on hbottom) (.step (newList_pair_on false p _)
    (.step (append_on rfl htop) ?_))
  refine (streamNode_runs K rfl htop hplan hd).bind ?_
  rintro _ t' ⟨rfl, ht'⟩
  exact .of_on (out_on rfl) rfl ⟨rfl, ht'⟩

/-! ### A pair as a branch -/

/-- Empty data stands for itself. -/
lemma ref_nil : ref sha3 (.data []) = .data [] := ref_of_lt (by rw [Rlp.encode_data]; decide)

/-- The empty tree is not stored. -/
@[simp] lemma self_nil : self sha3 .nil = 0 := kept_of_lt (by rw [enc_nil]; decide)

/-- The items of a branch with one place in use. -/
lemma enc_single (a : Fin 16) (n : Node) :
    enc sha3 (.branch (update (fun _ => .nil) a n) none) =
      encode (.list (places (update (fun _ => .data []) a (ref sha3 (item sha3 n)))
        none)) := by
  rw [enc, item]
  congr 3
  funext i
  by_cases hi : i = a
  · subst hi
    simp
  · simp [hi, item, ref_nil]

/-- Below a branch with one child. -/
lemma below_single (a : Fin 16) (n : Node) :
    below sha3 (.branch (update (fun _ => .nil) a n) none) = self sha3 n + below sha3 n := by
  rw [below, Fintype.sum_eq_single a]
  · simp
  · intro i hi
    simp [hi, below]

/-- A branch with one child can be read back. -/
lemma length_encode_single_le (a : Fin 16) {y : Item} (hy : (encode y).length ≤ 41) :
    (encode (.list (places (update (fun _ => .data []) a y) none))).length ≤
      maxLength := by
  refine length_encode_places_le (fun i => ?_) (by simp)
  by_cases hi : i = a
  · subst hi
    rwa [update_self]
  · rw [update_of_ne hi]
    exact (length_encode_data_le (d := []) (by norm_num)).trans (by norm_num)

/-- A leaf without a key becomes a branch with a value. -/
lemma branch_nil_runs (hfits : Fits (.leaf [] w))
    (hg : Gives K (enc sha3 (.leaf [] w)) M F) (h : K.Holds t.m_db M) :
    Runs K (branch sha3 (enc sha3 (.leaf [] w))) t
      fun b t' => b = enc sha3 (burst (.leaf [] w)) ∧ K.Holds t'.m_db F := by
  have horig := hfits.length_leaf_le
  set f : Fin 16 → Item := fun _ => ref sha3 (item sha3 .nil) with hf
  have hsize : (encode (.list (places f (some w)))).length ≤ maxLength :=
    length_encode_places_le (fun i => length_encode_ref_le _) (by simpa using hfits.2.1)
  obtain ⟨hvalid, hword⟩ :=
    keyOf_encode true (show ([] : List (Fin 16)).length < 2 ^ 31 - 1 by norm_num)
  obtain ⟨d, hkill, hd⟩ := hg t h
  have hloop : ((List.range 16).foldlM (fun r _ => rlp (r.append []))
      (upTo (places f (some w)) 0)).on { t with m_db := d } =
      (.ok (upTo (places f (some w)) (0 + 16)), { t with m_db := d }) := by
    rw [range_eq_range']
    refine foldlM_on fun j _ hj => ?_
    obtain ⟨zs, hzs⟩ := drop_places f (some w) ⟨j, by omega⟩
    rw [hf, item, ref_nil] at hzs
    exact append_on hzs hsize
  refine .step (rlp_on (itemCount_pair horig)) (.step (assert_on ?_) (.change hkill rfl
    (.step (keyOfNode_on horig) (.step (newList_places_on f (some w))
    (.step (isLeaf_on horig) ?_)))))
  · rw [enc, item, isList_pair horig]
    rfl
  rw [if_pos (by rw [hvalid.size_eq, hword]; rfl)]
  refine .step (assert_on rfl) (.step hloop
    (.step (appendItem_on_of (item_one_on horig) (drop_places_value f (some w)) hsize) ?_))
  exact .of_on (out_on (length_places _ _)) rfl ⟨rfl, hd⟩

/-- Any other pair becomes a branch with one place in use. -/
lemma branch_cons_runs {leaf : Bool} {a : Fin 16} {k : List (Fin 16)} {x y : Item} {N : Tally}
    (hlen : (a :: k).length < 2 ^ 31 - 1) (hx : (encode x).length ≤ 2 ^ 63)
    (hy : (encode y).length ≤ 41) (hg : Gives K (encode (pair leaf (a :: k) x)) M F)
    (h : K.Holds t.m_db M)
    (hround : ∀ (t : GenericTrieDB δ) (xs ys : List Item), xs.drop a = y :: ys →
      (encode (.list xs)).length ≤ maxLength → K.Holds t.m_db F →
      Runs K (if leaf || decide ((keyOf (HexPrefix.encode leaf (a :: k))).size > 1) then do
          streamNode sha3 (upTo xs a)
            (← pairOf (hexPrefixEncode ((keyOf (HexPrefix.encode leaf (a :: k))).mid 1) leaf)
              (← GenericTrieDB.item (encode (pair leaf (a :: k) x)) 1))
        else appendItem (encode (pair leaf (a :: k) x)) (upTo xs a) 1) t
        fun s t' => s = upTo xs (a + 1) ∧ K.Holds t'.m_db (N + F)) :
    Runs K (branch sha3 (encode (pair leaf (a :: k) x))) t
      fun b t' => b = encode (.list (places (update (fun _ => .data []) a y) none)) ∧
        K.Holds t'.m_db (N + F) := by
  have horig : (encode (pair leaf (a :: k) x)).length ≤ maxLength :=
    length_encode_pair_le hlen hx
  set f : Fin 16 → Item := update (fun _ => .data []) a y with hf
  have hsize : (encode (.list (places f none))).length ≤ maxLength :=
    length_encode_single_le a hy
  obtain ⟨hvalid, hword⟩ := keyOf_encode leaf hlen
  obtain ⟨d, hkill, hd⟩ := hg t h
  refine .step (rlp_on (itemCount_pair horig)) (.step (assert_on ?_) (.change hkill rfl
    (.step (keyOfNode_on horig) (.step (newList_places_on f none) (.step (isLeaf_on horig) ?_)))))
  · rw [isList_pair horig]
    rfl
  rw [if_neg (by rw [hvalid.size_eq, hword]; simp), hvalid.get_zero hword]
  refine (foldlM_runs K a.isLt (P := fun t' => K.Holds t'.m_db (N + F)) ?_ ?_).bind ?_
  · intro t' j hj hja
    obtain ⟨zs, hzs⟩ := drop_places f none ⟨j, hj⟩
    rw [hf, update_of_ne (Fin.ne_of_val_ne hja)] at hzs
    rw [if_neg hja]
    exact append_on hzs hsize
  · obtain ⟨zs, hzs⟩ := drop_places f none a
    rw [if_pos rfl]
    exact hround _ _ zs (by rw [hzs, hf, update_self]) hsize hd
  · rintro _ t' ⟨rfl, ht'⟩
    refine .step (append_on (drop_places_value _ _) hsize) ?_
    exact .of_on (out_on (length_places _ _)) rfl ⟨rfl, ht'⟩

/-- The rest of the pair is a pair again, which goes to the place. -/
lemma branch_pair_runs {leaf : Bool} {a : Fin 16} {k : List (Fin 16)} {x : Item}
    (hlen : (a :: k).length < 2 ^ 31 - 1) (hx : (encode x).length ≤ 2 ^ 63)
    (hrest : leaf = true ∨ k ≠ []) (hg : Gives K (encode (pair leaf (a :: k) x)) M F)
    (hplan : Within K.plan (kept (encode (pair leaf k x)))) (h : K.Holds t.m_db M) :
    Runs K (branch sha3 (encode (pair leaf (a :: k) x))) t
      fun b t' => b = encode (.list (places (update (fun _ => .data []) a
          (ref sha3 (pair leaf k x))) none)) ∧
        K.Holds t'.m_db (kept (encode (pair leaf k x)) + F) := by
  have horig : (encode (pair leaf (a :: k) x)).length ≤ maxLength :=
    length_encode_pair_le hlen hx
  obtain ⟨hvalid, hword⟩ := keyOf_encode leaf hlen
  have hone : 1 ≤ (keyOf (HexPrefix.encode leaf (a :: k))).word.length := by rw [hword]; simp
  rw [length_cons] at hlen
  have hpair : (encode (pair leaf k x)).length ≤ maxLength :=
    length_encode_pair_le (by omega) hx
  refine branch_cons_runs K hlen hx (length_encode_ref_le _) hg h fun t xs ys hdrop hxs hF => ?_
  have hcond : (leaf || decide ((keyOf (HexPrefix.encode leaf (a :: k))).size > 1)) = true := by
    rw [hvalid.size_eq, hword, Bool.or_eq_true, decide_eq_true_eq]
    refine hrest.imp id fun hk => ?_
    have := List.length_pos_iff.mpr hk
    rw [length_cons]
    omega
  have hkey : hexPrefixEncode ((keyOf (HexPrefix.encode leaf (a :: k))).mid 1) leaf =
      HexPrefix.encode leaf k := by
    rw [(hvalid.mid hone).hexPrefixEncode_eq, hvalid.word_mid hone, hword]
    rfl
  rw [if_pos hcond, hkey]
  exact .step (item_one_on horig) (.step (pairOf_on hpair) (streamNode_runs K hdrop hxs hplan hF))

/-- An extension of one nibble: its child goes to the place. -/
lemma branch_child_runs {a : Fin 16} {x : Item} (hx : (encode x).length ≤ 41)
    (hg : Gives K (encode (pair false [a] x)) M F) (h : K.Holds t.m_db M) :
    Runs K (branch sha3 (encode (pair false [a] x))) t
      fun b t' => b = encode (.list (places (update (fun _ => .data []) a x) none)) ∧
        K.Holds t'.m_db F := by
  have hlen : [a].length < 2 ^ 31 - 1 := by simp
  have horig : (encode (pair false [a] x)).length ≤ maxLength :=
    length_encode_pair_le hlen (hx.trans (by norm_num))
  obtain ⟨hvalid, hword⟩ := keyOf_encode false hlen
  have hruns := branch_cons_runs K (N := 0) hlen (hx.trans (by norm_num)) hx hg h
    fun t xs ys hdrop hxs hF => by
      rw [if_neg (by rw [hvalid.size_eq, hword]; simp), zero_add]
      exact .of_on (appendItem_on_of (item_one_on horig) hdrop hxs) rfl ⟨rfl, hF⟩
  rwa [zero_add] at hruns

/-- A leaf or an extension becomes a branch with one place in use. -/
lemma branch_runs {k : List (Fin 16)} (hm : EndsIn k m) (hc : Canon m) (hfits : Fits m)
    (hg : Gives K (enc sha3 m) M (below sha3 m + F))
    (hplan : Within K.plan (below sha3 (burst m))) (h : K.Holds t.m_db M) :
    Runs K (branch sha3 (enc sha3 m)) t
      fun b t' => b = enc sha3 (burst m) ∧ K.Holds t'.m_db (below sha3 (burst m) + F) := by
  cases hm with
  | leaf w =>
    rw [below, zero_add] at hg
    have hw := length_encode_data_le (d := w) (hfits.2.1.trans (by norm_num))
    cases k with
    | nil =>
      have hbelow : below sha3 (burst (.leaf [] w)) = 0 := by simp [burst, below]
      rw [hbelow, zero_add]
      exact branch_nil_runs K hfits hg h
    | cons a k =>
      rw [burst, below_single, below, add_zero] at hplan
      have hruns := branch_pair_runs K hfits.1 (by have := hfits.2.1; omega) (Or.inl rfl) hg
        hplan h
      rw [burst, below_single, below, add_zero, enc_single]
      exact hruns
  | ext hk n =>
    obtain ⟨-, -, c, u, rfl⟩ := hc.of_ext
    obtain ⟨a, k, rfl⟩ := exists_cons_of_ne_nil hk
    rw [below] at hg
    rw [burst, below_single, enc_single]
    cases k with
    | nil => exact branch_child_runs K (length_encode_ref_le _) hg h
    | cons b k =>
      rw [burst, below_single, prepend] at hplan
      have hruns := branch_pair_runs K hfits.1 ((length_encode_ref_le _).trans (by norm_num))
        (Or.inr (by simp)) hg (hplan.mono fun s => Nat.le_add_right _ _) h
      rw [prepend, below]
      rw [← add_assoc] at hruns
      exact hruns

/-! ### Children -/

/-- `mergeAt` turns the tree `n` into the tree `n'`: the nodes of `n` are given back, those below
`n'` are held, and the frame `F` is not touched. The nodes below `n'` are in the plan. -/
def Merges (v : Bytes) (fuel : ℕ) (key : NibbleSlice) (n : Node) (F : Tally) (n' : Node) : Prop :=
  ∀ (inLine : Bool) (t : GenericTrieDB δ), (inLine = true → self sha3 n = 0) →
    K.Holds t.m_db (self sha3 n + below sha3 n + F) → Within K.plan (below sha3 n') →
    Runs K (mergeAt sha3 v fuel (enc sha3 n) (sha3 (enc sha3 n)) key inLine) t
      fun b t' => b = enc sha3 n' ∧ K.Holds t'.m_db (below sha3 n' + F)

variable {fuel : ℕ} {n n' : Node}

/-- The child of a node is replaced. -/
lemma mergeAtAux_runs (hn : Fits n) (hm : Merges K v fuel key n F n') {xs ys : List Item} {i : ℕ}
    (hdrop : xs.drop i = ref sha3 (item sha3 n') :: ys)
    (hxs : (encode (.list xs)).length ≤ maxLength)
    (h : K.Holds t.m_db (self sha3 n + below sha3 n + F))
    (hplan : Within K.plan (self sha3 n' + below sha3 n')) :
    Runs K (mergeAtAux sha3 (fun r => mergeAt sha3 v fuel r (sha3 r) key) (upTo xs i)
        (encode (ref sha3 (item sha3 n)))) t
      fun s t' => s = upTo xs (i + 1) ∧ K.Holds t'.m_db (self sha3 n' + below sha3 n' + F) := by
  have hstream : ∀ b t', b = enc sha3 n' ∧ K.Holds t'.m_db (below sha3 n' + F) →
      Runs K (streamNode sha3 (upTo xs i) b) t'
        fun s t' => s = upTo xs (i + 1) ∧
          K.Holds t'.m_db (self sha3 n' + below sha3 n' + F) := by
    rintro _ t' ⟨rfl, ht'⟩
    rw [add_assoc]
    exact streamNode_runs K hdrop hxs (hplan.mono fun s => Nat.le_add_right _ _) ht'
  have hbelow : Within K.plan (below sha3 n') := hplan.mono fun s => Nat.le_add_left _ _
  by_cases hlt : (enc sha3 n).length < 32
  · rw [encode_ref_of_lt hlt, mergeAtAux, if_neg]
    · exact (hm true t (fun _ => kept_of_lt hlt) h hbelow).bind hstream
    · by_cases hnil : n = .nil
      · subst hnil
        rw [enc_nil]
        decide
      · rw [isList_enc hnil hn]
        simp
  · have hne : n ≠ .nil := by
      rintro rfl
      exact hlt (by rw [enc_nil]; decide)
    have hempty : RLP.isEmpty (encode (ref sha3 (item sha3 n))) = false := by
      rw [← Bool.not_eq_true, isEmpty_ref]
      exact hne
    have hnull : isNull (enc sha3 n) = false := by
      rw [isNull, beq_eq_false_iff_ne]
      omega
    rw [encode_ref_of_ge hlt] at hempty ⊢
    rw [mergeAtAux, if_pos (by rw [hempty, isList_hash]; rfl)]
    refine .step (toHash_on _) (.step (node_on K (add_assoc _ _ F ▸ h) hlt)
      (.step (ofNode_enc_on hn) (.step (assert_on (by rw [hnull]; rfl)) ?_)))
    exact (hm false t (by simp) h hbelow).bind hstream

/-! ### One step of `mergeAt` -/

section Steps

variable {leaf inLine : Bool} {k l p r : List (Fin 16)} {x : Item} {h : H256}

/-- What `mergeAt` does on a pair. -/
lemma mergeAt_pair_on (hsize : (encode (pair leaf k x)).length ≤ maxLength) :
    (mergeAt sha3 v (fuel + 1) (encode (pair leaf k x)) h key inLine).on t =
      (if (keyOf (HexPrefix.encode leaf k)).equal key && leaf then
          place sha3 (encode (pair leaf k x)) key v
        else if key.contains (keyOf (HexPrefix.encode leaf k)) && !leaf then do
          killUnlessInLine inLine (encode (pair leaf k x)) h
          let s ← newList 2
          let s ← appendItem (encode (pair leaf k x)) s 0
          let s ← mergeAtAux sha3 (fun r => mergeAt sha3 v fuel r (sha3 r)
            (key.mid (keyOf (HexPrefix.encode leaf k)).size)) s
            (← GenericTrieDB.item (encode (pair leaf k x)) 1)
          rlp s.out
        else if key.shared (keyOf (HexPrefix.encode leaf k)) ≠ 0 then do
          let cleved ← cleve sha3 (encode (pair leaf k x))
            (key.shared (keyOf (HexPrefix.encode leaf k)))
          let r ← ofNode cleved
          mergeAt sha3 v fuel r (sha3 r) key true
        else do
          let branched ← branch sha3 (encode (pair leaf k x))
          let r ← ofNode branched
          mergeAt sha3 v fuel r (sha3 r) key true).on t := by
  rw [mergeAt, if_neg (by rw [isEmpty_pair hsize]; simp),
    on_bind_of_ok (rlp_on (itemCount_pair hsize))]
  refine (on_bind_of_ok (assertNode_on hsize (Or.inl rfl))).trans ?_
  rw [if_pos (by norm_num), on_bind_of_ok (keyOfNode_on hsize),
    on_bind_of_ok (isLeaf_on hsize)]

/-- The key ends in a leaf. -/
lemma mergeAt_leaf_on (hfits : Fits (.leaf k w)) (hkey : key.Valid) (hw : key.word = k) :
    (mergeAt sha3 v (fuel + 1) (enc sha3 (.leaf k w)) h key inLine).on t =
      (place sha3 (enc sha3 (.leaf k w)) key v).on t := by
  obtain ⟨hvalid, hword⟩ := keyOf_encode true hfits.1
  refine (mergeAt_pair_on (@length_enc_le sha3 _ hfits)).trans ?_
  rw [if_pos]
  · rfl
  · rw [Bool.and_true, hvalid.equal_iff hkey, hword, hw]

/-- The key goes on behind an extension. -/
lemma mergeAt_ext_runs (hfits : Fits (.ext k n)) (hkey : key.Valid) (hw : key.word = k ++ r)
    (hkill : ∃ d, (killUnlessInLine inLine (enc sha3 (.ext k n)) h).on t =
      (.ok (), { t with m_db := d }) ∧ K.Holds d (below sha3 (.ext k n) + F))
    (hm : Merges K v fuel (key.mid k.length) n F n')
    (hplan : Within K.plan (below sha3 (.ext k n'))) :
    Runs K (mergeAt sha3 v (fuel + 1) (enc sha3 (.ext k n)) h key inLine) t
      fun b t' => b = enc sha3 (.ext k n') ∧ K.Holds t'.m_db (below sha3 (.ext k n') + F) := by
  have hsize := hfits.length_ext_le sha3
  have hsize' : (encode (pair false k (ref sha3 (item sha3 n')))).length ≤ maxLength :=
    length_encode_pair_ref_le hfits.1 _
  obtain ⟨hvalid, hword⟩ := keyOf_encode false hfits.1
  obtain ⟨d, hkill, hd⟩ := hkill
  refine .of_eq (mergeAt_pair_on hsize) ?_
  rw [if_neg (by simp), if_pos, hvalid.size_eq, hword]
  · refine .change hkill rfl (.step (newList_pair_on false k _)
      (.step (appendItem_on rfl hsize rfl hsize' (by norm_num)) (.step (item_one_on hsize) ?_)))
    refine (mergeAtAux_runs K hfits.2 hm rfl hsize' hd hplan).bind ?_
    rintro _ t' ⟨rfl, ht'⟩
    exact .of_on (out_on rfl) rfl ⟨rfl, ht'⟩
  · rw [Bool.not_false, Bool.and_true, hkey.contains_iff hvalid, hword]
    exact ⟨r, hw⟩

/-- The key leaves the pair behind `p`. -/
lemma mergeAt_apart_on (hlen : (p ++ k).length < 2 ^ 31 - 1) (hx : (encode x).length ≤ 2 ^ 63)
    (hkey : key.Valid) (hw : key.word = p ++ l) (hl : Apart k l) (hne : l ≠ k)
    (hk : leaf = true ∨ k ≠ []) :
    (mergeAt sha3 v (fuel + 1) (encode (pair leaf (p ++ k) x)) h key inLine).on t =
      (if p.length ≠ 0 then do
          let cleved ← cleve sha3 (encode (pair leaf (p ++ k) x)) p.length
          let r ← ofNode cleved
          mergeAt sha3 v fuel r (sha3 r) key true
        else do
          let branched ← branch sha3 (encode (pair leaf (p ++ k) x))
          let r ← ofNode branched
          mergeAt sha3 v fuel r (sha3 r) key true).on t := by
  obtain ⟨hvalid, hword⟩ := keyOf_encode leaf hlen
  have hshared : key.shared (keyOf (HexPrefix.encode leaf (p ++ k))) = p.length := by
    rw [hkey.shared_eq hvalid, hw, hword, shared_append,
      Patricia.shared_eq_zero_iff.mpr hl.symm, Nat.add_zero]
  rw [mergeAt_pair_on (length_encode_pair_le hlen hx), if_neg, if_neg, hshared]
  · rw [Bool.and_eq_true, hkey.contains_iff hvalid, hword, hw]
    rintro ⟨⟨r, hr⟩, hleaf⟩
    rw [append_assoc, append_cancel_left_eq] at hr
    rcases hk with rfl | hk
    · exact absurd hleaf (by simp)
    · obtain ⟨a, k', rfl⟩ := exists_cons_of_ne_nil hk
      exact hl a k' _ rfl hr
  · rw [Bool.and_eq_true, hvalid.equal_iff hkey, hword, hw, append_cancel_left_eq]
    rintro ⟨rfl, -⟩
    exact hne rfl

variable {c : Fin 16 → Node} {u : Option Bytes} {a : Fin 16}

/-- What `mergeAt` does on a branch. -/
lemma mergeAt_branch_on (hfits : Fits (.branch c u)) :
    (mergeAt sha3 v (fuel + 1) (enc sha3 (.branch c u)) h key inLine).on t =
      (if key.size = 0 then place sha3 (enc sha3 (.branch c u)) key v
        else do
          killUnlessInLine inLine (enc sha3 (.branch c u)) h
          let r ← newList 17
          let r ← (List.range 17).foldlM (fun r i =>
            if i = (key.get 0).val then do
              mergeAtAux sha3 (fun x => mergeAt sha3 v fuel x (sha3 x) (key.mid 1)) r
                (← GenericTrieDB.item (enc sha3 (.branch c u)) i)
            else appendItem (enc sha3 (.branch c u)) r i) r
          rlp r.out).on t := by
  have hsize := hfits.length_branch_le sha3
  rw [mergeAt, if_neg (by rw [enc, item, isEmpty_places hsize]; simp)]
  refine (on_bind_of_ok (rlp_on (itemCount_places hsize))).trans ?_
  refine (on_bind_of_ok (assertNode_on hsize (Or.inr rfl))).trans ?_
  rw [if_neg (by norm_num)]

/-- The nodes of a branch beside one of its places. -/
def rest (sha3 : Bytes → H256) (c : Fin 16 → Node) (a : Fin 16) : Tally :=
  ∑ i ∈ Finset.univ.erase a, (self sha3 (c i) + below sha3 (c i))

/-- One child of a branch apart from the rest. -/
lemma below_branch (c : Fin 16 → Node) (u : Option Bytes) (a : Fin 16) :
    below sha3 (.branch c u) = self sha3 (c a) + below sha3 (c a) + rest sha3 c a := by
  exact (Finset.add_sum_erase _ (fun i => self sha3 (c i) + below sha3 (c i))
    (Finset.mem_univ a)).symm

/-- The rest does not depend on the child. -/
lemma rest_update (c : Fin 16 → Node) (a : Fin 16) (n : Node) :
    rest sha3 (update c a n) a = rest sha3 c a := by
  refine Finset.sum_congr rfl fun i hi => ?_
  rw [update_of_ne (Finset.ne_of_mem_erase hi)]

/-- What a new child changes below a branch. -/
lemma below_branch_update (c : Fin 16 → Node) (u : Option Bytes) (a : Fin 16) (n : Node) :
    below sha3 (.branch (update c a n) u) =
      self sha3 n + below sha3 n + rest sha3 c a := by
  rw [below_branch _ _ a, rest_update, update_self]

/-- A branch with a new child can be read back. -/
lemma length_encode_update_le (hfits : Fits (.branch c u)) (a : Fin 16) (n' : Node) :
    (encode (.list (places (refs sha3 (update c a n')) u))).length ≤ maxLength :=
  length_encode_places_le (fun _ => length_encode_ref_le _) fun w hw => (hfits.2 w hw).1

/-- The new child is at its place. -/
lemma drop_places_update (c : Fin 16 → Node) (u : Option Bytes) (a : Fin 16) (n' : Node) :
    ∃ ys, (places (refs sha3 (update c a n')) u).drop a = ref sha3 (item sha3 n') :: ys := by
  obtain ⟨ys, hys⟩ := drop_places (refs sha3 (update c a n')) u a
  exact ⟨ys, by rw [hys, refs, update_self]⟩

omit [NodeDB δ] in
/-- A place that stays as it is. -/
lemma appendItem_place_on (hfits : Fits (.branch c u)) {j : ℕ} (hj : j < 17) (hja : j ≠ a) :
    (appendItem (enc sha3 (.branch c u)) (upTo (places (refs sha3 (update c a n')) u) j) j).on t =
      (.ok (upTo (places (refs sha3 (update c a n')) u) (j + 1)), t) := by
  have hsize := hfits.length_branch_le sha3
  have hsize' := @length_encode_update_le sha3 _ _ hfits a n'
  by_cases hj16 : j = 16
  · subst hj16
    exact appendItem_on (drop_places_value _ u) hsize (drop_places_value _ u) hsize' (by norm_num)
  · obtain ⟨ys, hys⟩ := drop_places (refs sha3 c) u ⟨j, by omega⟩
    obtain ⟨zs, hzs⟩ := drop_places (refs sha3 (update c a n')) u ⟨j, by omega⟩
    have hsame : refs sha3 (update c a n') ⟨j, by omega⟩ = refs sha3 c ⟨j, by omega⟩ := by
      simp only [refs]
      rw [update_of_ne (Fin.ne_of_val_ne hja)]
    rw [hsame] at hzs
    exact appendItem_on hys hsize hzs hsize' (by omega)

/-- The key goes on behind a branch. -/
lemma mergeAt_branch_runs (hfits : Fits (.branch c u)) (hkey : key.Valid) (hw : key.word = a :: r)
    (hkill : ∃ d, (killUnlessInLine inLine (enc sha3 (.branch c u)) h).on t =
      (.ok (), { t with m_db := d }) ∧ K.Holds d (below sha3 (.branch c u) + F))
    (hm : Merges K v fuel (key.mid 1) (c a) (rest sha3 c a + F) n')
    (hplan : Within K.plan (below sha3 (.branch (update c a n') u))) :
    Runs K (mergeAt sha3 v (fuel + 1) (enc sha3 (.branch c u)) h key inLine) t
      fun b t' => b = enc sha3 (.branch (update c a n') u) ∧
        K.Holds t'.m_db (below sha3 (.branch (update c a n') u) + F) := by
  have hsize := hfits.length_branch_le sha3
  have hsize' := @length_encode_update_le sha3 _ _ hfits a n'
  obtain ⟨d, hkill, hd⟩ := hkill
  rw [below_branch c u a, add_assoc] at hd
  rw [below_branch_update] at hplan ⊢
  rw [add_assoc]
  refine .of_eq (mergeAt_branch_on hfits) ?_
  rw [if_neg (by rw [hkey.size_eq, hw]; simp), hkey.get_zero hw]
  refine .change hkill rfl (.step (newList_places_on (refs sha3 (update c a n')) u) ?_)
  refine (foldlM_runs K (a := a) (by omega) (P := fun t' => K.Holds t'.m_db
    (self sha3 n' + below sha3 n' + (rest sha3 c a + F))) ?_ ?_).bind ?_
  · intro t' j hj hja
    rw [if_neg hja]
    exact appendItem_place_on hfits hj hja
  · obtain ⟨zs, hzs⟩ := @drop_places_update sha3 c u a n'
    rw [if_pos rfl]
    exact .step (item_place_on hsize a) (mergeAtAux_runs K (hfits.1 a) hm hzs hsize' hd
      (hplan.mono fun s => Nat.le_add_right _ _))
  · rintro _ t' ⟨rfl, ht'⟩
    exact .of_on (out_on (length_places _ _)) rfl ⟨rfl, ht'⟩

end Steps

/-! ### The whole of `mergeAt` -/

/-- A node that is written on the way and given back: the lower part of a pair that is cut. -/
def extra (sha3 : Bytes → H256) : Node → List (Fin 16) → Tally
  | .nil, _ => 0
  | .leaf k w, l =>
    if l = k ∨ shared k l = 0 then 0
    else self sha3 (.leaf (k.drop (shared k l)) w)
  | .ext k n, l =>
    match l.dropPrefix? k with
    | some r => extra sha3 n r
    | none =>
      if shared k l = 0 then 0 else self sha3 (.ext (k.drop (shared k l)) n)
  | .branch _ _, [] => 0
  | .branch c _, a :: l => extra sha3 (c a) l

/-- A node is counted at most once. -/
lemma kept_le_one (s : Bytes) : kept s ≤ 1 := by
  intro x
  rw [kept, Pi.one_apply]
  split_ifs
  · simp
  · rw [Pi.single_apply]
    split_ifs <;> simp

/-- At most one node is counted more. -/
lemma extra_le_one (m : Node) (l : List (Fin 16)) : extra sha3 m l ≤ 1 := by
  induction m generalizing l with
  | nil => exact zero_le_one
  | leaf k w =>
    rw [extra]
    split_ifs
    · exact zero_le_one
    · exact kept_le_one _
  | ext k n ih =>
    rw [extra]
    split
    · exact ih _
    · split_ifs
      · exact zero_le_one
      · exact kept_le_one _
  | branch c u ih =>
    cases l with
    | nil => exact zero_le_one
    | cons a l => exact ih a l

/-- A leaf or an extension is a pair, and so it is with a longer key. -/
lemma exists_pair {k : List (Fin 16)} (hm : EndsIn k m) (hfits : Fits m) :
    ∃ leaf x, item sha3 m = pair leaf k x ∧
      (∀ p, item sha3 (prepend p m) = pair leaf (p ++ k) x) ∧
      (∀ p, below sha3 (prepend p m) = below sha3 m) ∧ (leaf = true ∨ k ≠ []) ∧
      (encode x).length ≤ 2 ^ 63 := by
  cases hm with
  | leaf w =>
    have hw := length_encode_data_le (d := w) (hfits.2.1.trans (by norm_num))
    exact ⟨true, .data w, rfl, fun _ => rfl, fun _ => rfl, Or.inl rfl,
      by have := hfits.2.1; omega⟩
  | ext hk n =>
    exact ⟨false, ref sha3 (item sha3 n), rfl, fun _ => rfl, fun _ => rfl, Or.inr hk,
      (length_encode_ref_le _).trans (by norm_num)⟩

/-- A cut keeps the lower part for a while. -/
lemma extra_prepend {p k l : List (Fin 16)} (hm : EndsIn k m) (hp : p ≠ [])
    (hl : Apart k l) (hne : l ≠ k) : extra sha3 (prepend p m) (p ++ l) = self sha3 m := by
  have hshared : shared (p ++ k) (p ++ l) = p.length := by
    rw [shared_append, Patricia.shared_eq_zero_iff.mpr hl, Nat.add_zero]
  have hp' : p.length ≠ 0 := by simpa using hp
  cases hm with
  | leaf w =>
    rw [prepend, extra, if_neg, hshared, drop_left]
    rw [hshared, append_cancel_left_eq]
    exact not_or.mpr ⟨hne, hp'⟩
  | ext hk n =>
    have hdrop : (p ++ l).dropPrefix? (p ++ k) = none := by
      rw [Patricia.dropPrefix_append, Option.eq_none_iff_forall_ne_some]
      intro r hr
      obtain ⟨a, k', rfl⟩ := exists_cons_of_ne_nil hk
      exact hl a k' _ rfl (Patricia.dropPrefix_eq_some.mp hr)
    rw [prepend, extra, hdrop]
    simp only
    rw [hshared, if_neg hp', drop_left]

/-- A short part in front of a branch. -/
lemma fits_prepend {k : List (Fin 16)} {c : Fin 16 → Node} {u : Option Bytes}
    (hk : k.length < 2 ^ 31 - 1) (h : Fits (.branch c u)) : Fits (prepend k (.branch c u)) := by
  cases k with
  | nil => exact h
  | cons a k => exact ⟨hk, h⟩

/-- A branch with one child that fits. -/
lemma fits_single (a : Fin 16) (h : Fits n) : Fits (.branch (update (fun _ => .nil) a n) none) := by
  refine ⟨fun i => ?_, by simp⟩
  by_cases hi : i = a
  · subst hi
    rwa [update_self]
  · rw [update_of_ne hi]
    exact trivial

/-- A burst node fits as before. -/
lemma fits_burst {k : List (Fin 16)} (hm : EndsIn k m) (hc : Canon m) (h : Fits m) :
    Fits (burst m) := by
  cases hm with
  | leaf w =>
    obtain ⟨hk, hw⟩ := h
    cases k with
    | nil => exact ⟨fun _ => trivial, fun u hu => Option.some.inj hu ▸ hw⟩
    | cons a k => exact fits_single a ⟨by rw [length_cons] at hk; omega, hw⟩
  | ext hk n =>
    obtain ⟨-, -, c, u, rfl⟩ := hc.of_ext
    obtain ⟨a, k, rfl⟩ := exists_cons_of_ne_nil hk
    obtain ⟨hlen, hn⟩ := h
    exact fits_single a (fits_prepend (by rw [length_cons] at hlen; omega) hn)

/-- Nothing there: a new leaf. -/
lemma merges_nil {l : List (Fin 16)} (hcode : hexPrefixEncode key true = HexPrefix.encode true l)
    (hlen : l.length < 2 ^ 31 - 1) (hv : v.length < 2 ^ 62) :
    Merges K v (fuel + 1) key .nil F (.leaf l v) := by
  intro inLine t _ h _
  rw [mergeAt, if_pos (by rw [enc_nil]; rfl)]
  rw [self_nil, zero_add] at h
  exact .of_on (place_nil_on hcode hlen hv) rfl ⟨rfl, h⟩

/-- A key that shares nothing with a pair: the pair becomes a branch, in which there is room. -/
lemma merges_apart {k l : List (Fin 16)} (hm : EndsIn k m) (hc : Canon m)
    (hfits : Fits m) (hl : Apart k l) (hne : l ≠ k) (hkey : key.Valid) (hw : key.word = l)
    (hlen : l.length < 2 ^ 31 - 1) (hv : v.length < 2 ^ 62) (hfree : K.Lax ∨ l ≠ [])
    (hk : K.KillOk (self sha3 m + (below sha3 m + F))) :
    Merges K v (fuel + 3) key m F (put l v (burst m)) := by
  intro inLine t _ h hplan
  obtain ⟨leaf, x, hitem, -, -, hrest, hx⟩ := @exists_pair _ sha3 _ hm hfits
  have hlen' : ([] ++ k).length < 2 ^ 31 - 1 := by
    cases hm with
    | leaf w => exact hfits.1
    | ext hk n => exact hfits.1
  obtain ⟨c, u, hburst, -, hroom⟩ := hm.exists_burst
  have hfresh : Fits (.branch c u) := hburst ▸ fits_burst hm hc hfits
  have henc : enc sha3 m = encode (pair leaf ([] ++ k) x) := by rw [enc, hitem, nil_append]
  have hplan' : Within K.plan (below sha3 (burst m)) := by
    rw [hburst] at hplan ⊢
    cases l with
    | nil => exact hplan
    | cons a r =>
      rw [put, below_branch_update] at hplan
      rw [below_branch c u a, hroom _ hl hne, self_nil, below, add_zero, zero_add]
      exact hplan.mono fun s => Nat.le_add_left _ _
  rw [add_assoc] at h
  have hruns := branch_runs K hm hc hfits (gives_kept K hk) hplan' h
  rw [henc] at hruns ⊢
  refine .of_eq (mergeAt_apart_on (l := l) hlen' hx hkey hw hl hne hrest) ?_
  rw [if_neg (by simp)]
  refine hruns.bind ?_
  rintro _ t' ⟨rfl, ht'⟩
  rw [hburst] at ht' ⊢
  refine .step (ofNode_enc_on hfresh) ?_
  cases l with
  | nil =>
    -- the branch was never in the database
    refine .of_eq (mergeAt_branch_on hfresh) ?_
    rw [if_pos (by rw [hkey.size_eq, hw]; rfl)]
    exact place_branch_runs K hfresh hv (gives_lax K (hfree.resolve_right (by simp))) ht'
  | cons a r =>
    obtain ⟨hmid, hword⟩ := hkey.mid_cons hw
    have hnil : c a = .nil := hroom _ hl hne
    have hchild : Merges K v (fuel + 1) (key.mid 1) (c a) (rest sha3 c a + F) (.leaf r v) := by
      rw [length_cons] at hlen
      have hcode : hexPrefixEncode (key.mid 1) true = HexPrefix.encode true r := by
        rw [hmid.hexPrefixEncode_eq, hword]
      rw [hnil]
      exact merges_nil K hcode (by omega) hv
    rw [hburst] at hplan
    exact mergeAt_branch_runs K hfresh hkey hw ⟨t'.m_db, rfl, ht'⟩ hchild hplan

/-- A key that leaves a pair behind `p`: the pair is cut first. -/
lemma merges_cleve {p k l : List (Fin 16)} (hp : p ≠ []) (hm : EndsIn k m)
    (hc : Canon m) (hfits : Fits m) (hpk : (p ++ k).length < 2 ^ 31 - 1) (hl : Apart k l)
    (hne : l ≠ k) (hkey : key.Valid) (hw : key.word = p ++ l)
    (hlen : (p ++ l).length < 2 ^ 31 - 1) (hv : v.length < 2 ^ 62) (hfree : K.Lax ∨ l ≠ [])
    (hk : K.KillOk (self sha3 (prepend p m) + (below sha3 m + F)))
    (hk' : K.KillOk (self sha3 m + (below sha3 m + F))) (hself : Within K.plan (self sha3 m)) :
    Merges K v (fuel + 5) key (prepend p m) F (prepend p (put l v (burst m))) := by
  intro inLine t _ h hplan
  obtain ⟨leaf, x, hitem', hitem, hbelow, hrest, hx⟩ := @exists_pair _ sha3 _ hm hfits
  obtain ⟨c, u, hburst, -, -⟩ := hm.exists_burst
  have henc : enc sha3 (prepend p m) = encode (pair leaf (p ++ k) x) := by rw [enc, hitem]
  have henc' : enc sha3 m = encode (pair leaf k x) := by rw [enc, hitem']
  obtain ⟨hmid, hword⟩ := hkey.mid_append hw
  have hfresh : Fits (.ext p m) := ⟨by rw [length_append] at hpk; omega, hfits⟩
  have hput : prepend p (put l v (burst m)) = .ext p (put l v (burst m)) := by
    rw [hburst]
    cases l <;> exact prepend_branch hp _ _
  have hgives : Gives K (encode (pair leaf (p ++ k) x))
      (self sha3 (prepend p m) + (below sha3 m + F)) (below sha3 m + F) := by
    rw [self, henc] at hk ⊢
    exact gives_kept K hk
  rw [hbelow, add_assoc] at h
  rw [self, henc'] at hself
  rw [hput] at hplan
  rw [henc, hput]
  refine .of_eq (mergeAt_apart_on hpk hx hkey hw hl hne hrest) ?_
  rw [if_pos (by simpa using hp)]
  refine (cleve_runs K hp hpk hx hgives hself h).bind ?_
  rintro _ t' ⟨rfl, ht'⟩
  have htop : encode (pair false p (ref sha3 (pair leaf k x))) = enc sha3 (.ext p m) := by
    rw [enc, item, hitem']
  rw [htop]
  refine .step (ofNode_enc_on hfresh) ?_
  refine mergeAt_ext_runs K hfresh hkey hw ⟨t'.m_db, rfl, ?_⟩ (merges_apart K hm hc hfits hl hne
    hmid hword (by rw [length_append] at hlen; omega) hv hfree hk') hplan
  rw [below, self, henc', add_assoc]
  exact ht'

/-- No word of the tree goes on behind `l`. -/
def Last (m : Node) (l : List (Fin 16)) : Prop := ∀ x, m.lookup (l ++ x) ≠ none → x = []

/-- What is last in a branch is last in its child. -/
lemma Last.child {c : Fin 16 → Node} {u : Option Bytes} {a : Fin 16} {l : List (Fin 16)}
    (h : Last (.branch c u) (a :: l)) : Last (c a) l := h

/-- What is last in an extension is last behind it. -/
lemma Last.ext {k l : List (Fin 16)} (h : Last (.ext k n) (k ++ l)) : Last n l := by
  intro x hx
  refine h x ?_
  rwa [append_assoc, lookup_ext_append]

/-- A word behind which others go on is not the last one. -/
lemma Last.ne_nil {p k l : List (Fin 16)} (h : Last (prepend p m) (p ++ l))
    (hm : EndsIn k m) (hc : Canon m) (hl : l ≠ k) : l ≠ [] := by
  rintro rfl
  have hne : m ≠ .nil := by cases hm <;> simp
  obtain ⟨x, hx⟩ := hc.exists_lookup hne
  obtain rfl : x = [] := h x (by
    rwa [append_nil, lookup_prepend_append])
  cases hm with
  | leaf w => exact hx (by rw [lookup_leaf, if_neg hl])
  | ext hk n =>
    obtain ⟨a, k, rfl⟩ := exists_cons_of_ne_nil hk
    exact hx rfl

/-- A node that stands in line is not given up, another one is. -/
lemma killUnlessInLine_on {inLine : Bool} (hin : inLine = true → kept s = 0)
    (h : K.Holds t.m_db (kept s + M)) (hk : K.KillOk (kept s + M)) :
    ∃ d, (killUnlessInLine inLine s (sha3 s)).on t =
      (.ok (), { t with m_db := d }) ∧ K.Holds d M := by
  cases inLine with
  | true =>
    rw [hin rfl, zero_add] at h
    exact ⟨t.m_db, rfl, h⟩
  | false => exact killNodeAt_on K h hk

/-- A key that leaves a pair. -/
lemma merges_prepend {p k l : List (Fin 16)} (hm : EndsIn k m) (hc : Canon m)
    (hfits : Fits m) (hpk : (p ++ k).length < 2 ^ 31 - 1) (hl : Apart k l) (hne : l ≠ k)
    (hkey : key.Valid) (hw : key.word = p ++ l) (hlen : (p ++ l).length < 2 ^ 31 - 1)
    (hv : v.length < 2 ^ 62) (hlast : K.Lax ∨ Last (prepend p m) (p ++ l))
    (hk : K.KillOk (self sha3 (prepend p m) + below sha3 (prepend p m) + F +
      extra sha3 (prepend p m) (p ++ l)))
    (hplan : Within K.plan (extra sha3 (prepend p m) (p ++ l))) :
    Merges K v (fuel + 5) key (prepend p m) F (prepend p (put l v (burst m))) := by
  have hfree : K.Lax ∨ l ≠ [] := hlast.imp id fun h => h.ne_nil hm hc hne
  obtain ⟨leaf, x, -, -, hbelow, -, -⟩ := @exists_pair _ sha3 _ hm hfits
  rw [hbelow] at hk
  by_cases hp : p = []
  · subst hp
    rw [prepend_nil] at hk ⊢
    rw [prepend_nil]
    refine merges_apart K hm hc hfits hl hne hkey hw hlen hv hfree (K.killOk_mono (fun s => ?_) hk)
    simp only [Pi.add_apply]
    omega
  · rw [extra_prepend hm hp hl hne] at hk hplan
    refine merges_cleve K hp hm hc hfits hpk hl hne hkey hw hlen hv hfree
      (K.killOk_mono (fun s => ?_) hk) (K.killOk_mono (fun s => ?_) hk) hplan
    all_goals
      simp only [Pi.add_apply]
      omega

/-- **Insertion.** On the encoding of a canonical tree, `mergeAt` gives the encoding of the tree
with the word `l`; it gives back all nodes of the tree that it replaces, and holds the new ones
below the root.

**Proof sketch.** Induction on the tree. Where the key goes on behind an extension or a branch,
the child is replaced. Where it leaves a pair, the pair is cut and its lower part becomes a
branch, which is new and has room for the rest of the key. -/
theorem mergeAt_spec (hc : Canon m) (hs : Small m) {l : List (Fin 16)}
    (hlen : l.length < 2 ^ 31 - 1) (hv : v.length < 2 ^ 62) (hlast : K.Lax ∨ Last m l)
    (hfuel : l.length + 5 ≤ fuel) (hkey : key.Valid) (hw : key.word = l)
    (hk : K.KillOk (self sha3 m + below sha3 m + F + extra sha3 m l))
    (hplan : Within K.plan (extra sha3 m l)) : Merges K v fuel key m F (m.insert l v) := by
  induction hc generalizing l fuel key F with
  | nil =>
    obtain _ | fuel := fuel
    · omega
    subst hw
    exact merges_nil K (hkey.hexPrefixEncode_eq true) hlen hv
  | leaf k w =>
    by_cases hl : l = k
    · obtain ⟨fuel, rfl⟩ : ∃ f, fuel = f + 1 := ⟨fuel - 1, by omega⟩
      subst hl
      intro inLine t _ h _
      rw [insert_leaf_self]
      refine .of_eq (mergeAt_leaf_on (hs.fits (.leaf _ _)) hkey hw) ?_
      rw [add_assoc] at h
      refine place_leaf_runs K (hs.fits (.leaf _ _)) hv
        (gives_kept K (K.killOk_mono (fun s => ?_) hk)) h
      simp only [self, below, Pi.add_apply, Pi.zero_apply]
      omega
    · obtain ⟨p, k', l', rfl, rfl, -, hapart⟩ := Patricia.exists_shared k l
      obtain ⟨fuel, rfl⟩ : ∃ f, fuel = f + 5 := ⟨fuel - 5, by omega⟩
      have hne : l' ≠ k' := fun h => hl (by rw [h])
      have hfits := hs.fits (.leaf _ _)
      have hfits' : Fits (.leaf k' w) :=
        ⟨by have := hfits.1; rw [length_append] at this; omega, hfits.2⟩
      rw [insert_leaf_apart p hapart hne]
      exact merges_prepend K (.leaf w) (.leaf k' w) hfits' hfits.1 hapart hne hkey hw hlen hv
        hlast hk hplan
  | @ext k c u hk' hn ih =>
    have hfits := hs.fits (.ext hk' hn)
    rcases append_or_apart k l with ⟨r, rfl⟩ | ⟨p, k', l', rfl, rfl, hk'', hapart⟩
    · obtain ⟨fuel, rfl⟩ : ∃ f, fuel = f + 1 := ⟨fuel - 1, by omega⟩
      obtain ⟨hmid, hword⟩ := hkey.mid_append hw
      have hextra : extra sha3 (.ext k (.branch c u)) (k ++ r) = extra sha3 (.branch c u) r := by
        rw [extra, Patricia.dropPrefix_eq_some.mpr rfl]
      rw [hextra] at hk hplan
      rw [length_append] at hlen hfuel
      have hpos := List.length_pos_iff.mpr hk'
      rw [insert_ext_append]
      intro inLine t hin h hbelow
      rw [add_assoc] at h
      refine mergeAt_ext_runs K hfits hkey hw
        (killUnlessInLine_on K hin h (K.killOk_mono (fun s => ?_) hk))
        (ih hs.ext (by omega) (hlast.imp id fun h => h.ext) (by omega) hmid hword
          (K.killOk_mono (fun s => ?_) hk) hplan) hbelow
      · simp only [self, Pi.add_apply]
        omega
      · simp only [below, Pi.add_apply]
        omega
    · obtain ⟨fuel, rfl⟩ : ∃ f, fuel = f + 5 := ⟨fuel - 5, by omega⟩
      have hfits' : Fits (.ext k' (.branch c u)) :=
        ⟨by have := hfits.1; rw [length_append] at this; omega, hfits.2⟩
      rw [insert_ext_apart p hapart hk'']
      exact merges_prepend K (.ext hk'' _) (.ext hk'' hn) hfits' hfits.1 hapart
        (hapart.ne hk'') hkey hw hlen hv hlast hk hplan
  | @branch c u hc hu ih =>
    have hfits := hs.fits (.branch hc hu)
    obtain _ | fuel := fuel
    · omega
    intro inLine t hin h hbelow
    rw [add_assoc] at h
    have hown : K.KillOk (kept (enc sha3 (.branch c u)) + (below sha3 (.branch c u) + F)) :=
      K.killOk_mono (fun s => by simp only [self, Pi.add_apply]; omega) hk
    cases l with
    | nil =>
      refine .of_eq (mergeAt_branch_on hfits) ?_
      rw [if_pos (by rw [hkey.size_eq, hw]; rfl)]
      exact place_branch_runs K hfits hv (gives_kept K hown) h
    | cons a r =>
      obtain ⟨hmid, hword⟩ := hkey.mid_cons hw
      rw [length_cons] at hlen hfuel
      refine mergeAt_branch_runs K hfits hkey hw (killUnlessInLine_on K hin h hown)
        (ih a (hs.child a) (by omega) (hlast.imp id fun h => h.child) (by omega) hmid hword
          (K.killOk_mono (fun s => ?_) hk) hplan) hbelow
      rw [below_branch c u a]
      simp only [extra, Pi.add_apply]
      omega

end Tos.Trie
