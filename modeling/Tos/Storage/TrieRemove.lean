import Mathlib.Tactic.Abel
import Tos.Storage.TrieInsert

/-!
# Deletion from the trie

`deleteAt` on the encoding of a canonical tree returns the encoding of the tree without a word,
and nothing if the word is not there. After a deletion a branch may have only one place in use;
it is then merged with what is in the place, and two pairs one behind the other become one.

## Main results

* `deleteAt_absent`: a word that is not there changes nothing.
* `deleteAt_spec`: a word that is there is deleted.

## Implementation notes

The word is neither in front of a word of the tree nor behind one. Otherwise `deleteAt` takes
the value of a leaf or of a branch for a node.
-/

namespace Tos.Trie

open Sdag (H256)
open RLP (isData isEmpty isList maxLength)
open List (length_append mem_cons mem_cons_of_mem mem_cons_self mem_range)
open Function (update update_eq_self update_of_ne update_self)
open Method

open Rlp (Item encode encodeList)

open GenericTrieDB hiding item insert

open Patricia.Node hiding insert delete lookup leaf

open RLPStream (upTo)

variable {δ : Type} [NodeDB δ] {sha3 : Bytes → H256} {W : Set Bytes} (K : Keeper δ sha3 W)
  {t : GenericTrieDB δ} {M F : Tally} {key : NibbleSlice} {fuel : ℕ} {n n' : Node}

/-! ### Pairs -/

/-- The node is a pair. -/
def isPair : Node → Bool
  | .leaf _ _ => true
  | .ext _ _ => true
  | _ => false

/-- A node has two items or seventeen. -/
lemma itemCount_enc (hne : n ≠ .nil) (hn : Fits n) :
    RLP.itemCount (enc sha3 n) = .ok (if isPair n then 2 else 17) := by
  have hsize := @length_enc_le sha3 _ hn
  cases n with
  | nil => exact absurd rfl hne
  | leaf k v => exact itemCount_pair hsize
  | ext k n => exact itemCount_pair hsize
  | branch c v => exact itemCount_places hsize

/-- Whether a reference is to a pair. -/
lemma isTwoItemNode_on (hne : n ≠ .nil) (hn : Fits n) (h : K.Holds t.m_db (self sha3 n + M)) :
    (isTwoItemNode (encode (ref sha3 (item sha3 n)))).on t =
      (.ok (isPair n), t) := by
  have hcount := @itemCount_enc sha3 _ hne hn
  have hlist : isList (enc sha3 n) = true := isList_enc hne hn
  have htwo : ((if isPair n then 2 else 17) == 2) = isPair n := by cases isPair n <;> rfl
  by_cases hlt : (enc sha3 n).length < 32
  · have hdata : isData (enc sha3 n) = false := by
      obtain ⟨xs, hxs, -⟩ := @exists_item_list sha3 _ hne
      have hsize := @length_enc_le sha3 _ hn
      rw [enc, hxs] at hsize ⊢
      rw [RLP.isData_encode hsize]
      rfl
    rw [encode_ref_of_lt hlt, isTwoItemNode, if_neg (by rw [hdata]; simp), if_pos hlist,
      on_bind_of_ok (rlp_on hcount), htwo]
    rfl
  · have hdata : isData (encode (.data (Sdag.Wire.hashBytes (sha3 (enc sha3 n))))) = true := by
      rw [RLP.isData_encode (length_encode_hash_le _)]
      rfl
    rw [encode_ref_of_ge hlt, isTwoItemNode, if_pos hdata, on_bind_of_ok (toHash_on _),
      on_bind_of_ok (node_on K h hlt), on_bind_of_ok (ofNode_enc_on hn),
      on_bind_of_ok (rlp_on hcount), htwo]
    rfl

/-- A child is taken out of the database. -/
lemma takeOut_on (hne : n ≠ .nil) (hn : Fits n) (h : K.Holds t.m_db (self sha3 n + M))
    (hk : K.KillOk (self sha3 n + M)) :
    ∃ d, (takeOut (encode (ref sha3 (item sha3 n)))).on t =
      (.ok (enc sha3 n), { t with m_db := d }) ∧ K.Holds d M := by
  by_cases hlt : (enc sha3 n).length < 32
  · rw [self, kept_of_lt hlt, zero_add] at h
    rw [encode_ref_of_lt hlt, takeOut, if_pos (isList_enc hne hn)]
    exact ⟨t.m_db, rfl, h⟩
  · have hnode := node_on K h hlt
    rw [self, kept_of_ge hlt] at h hk
    obtain ⟨d, hkill, hd⟩ := forceKillNode_on K h hk
    rw [encode_ref_of_ge hlt, takeOut, isList_hash, if_neg (by simp),
      on_bind_of_ok (toHash_on _), on_bind_of_ok hnode, on_bind_of_ok hkill]
    exact ⟨d, ofNode_enc_on hn, hd⟩

variable {k : List (Fin 16)}

/-- Two pairs one behind the other become one. -/
lemma graft_on {k k' : List (Fin 16)} (hn : EndsIn k' n) (hfits : Fits n)
    (hlen : (k ++ k').length < 2 ^ 31 - 1) (h : K.Holds t.m_db (self sha3 n + M))
    (hk : K.KillOk (self sha3 n + M)) :
    ∃ d, (graft (enc sha3 (.ext k n))).on t =
      (.ok (enc sha3 (prepend k n)), { t with m_db := d }) ∧ K.Holds d M := by
  obtain ⟨leaf, x, hitem, hprepend, -, -, hx⟩ := @exists_pair _ sha3 _ hn hfits
  have hne : n ≠ .nil := by cases hn <;> simp
  rw [length_append] at hlen
  have htop : (encode (pair false k (ref sha3 (item sha3 n)))).length ≤ maxLength :=
    length_encode_pair_ref_le (by omega) _
  have hbottom : (encode (pair leaf k' x)).length ≤ maxLength :=
    length_encode_pair_le (by omega) hx
  have hsize : (encode (pair leaf (k ++ k') x)).length ≤ maxLength :=
    length_encode_pair_le (by rw [length_append]; omega) hx
  obtain ⟨hvalid, hword⟩ := keyOf_encode false (show k.length < 2 ^ 31 - 1 by omega)
  obtain ⟨hvalid', hword'⟩ := keyOf_encode leaf (show k'.length < 2 ^ 31 - 1 by omega)
  obtain ⟨d, hout, hd⟩ := takeOut_on K hne hfits h hk
  have hjoin : hexPrefixEncodeJoin (keyOf (HexPrefix.encode false k))
      (keyOf (HexPrefix.encode leaf k')) leaf = HexPrefix.encode leaf (k ++ k') := by
    rw [hvalid.hexPrefixEncodeJoin_eq hvalid', hword, hword']
  have hlist : (isList (encode (pair false k (ref sha3 (item sha3 n)))) && (2 : ℕ) == 2) =
      true := by
    rw [pair, RLP.isList_list htop]
    rfl
  have hchild : enc sha3 n = encode (pair leaf k' x) := by rw [enc, hitem]
  rw [hchild] at hout
  refine ⟨d, ?_, hd⟩
  rw [enc, item, enc, hprepend, graft, on_bind_of_ok (rlp_on (itemCount_pair htop)),
    on_bind_of_ok (assert_on hlist), on_bind_of_ok (item_one_on htop),
    on_bind_of_ok hout, on_bind_of_ok (rlp_on (itemCount_pair hbottom)),
    on_bind_of_ok (assert_on (c := 2 == 2) rfl), on_bind_of_ok (keyOfNode_on htop),
    on_bind_of_ok (keyOfNode_on hbottom), on_bind_of_ok (isLeaf_on hbottom),
    on_bind_of_ok (item_one_on hbottom), hjoin, pairOf_on hsize]

/-! ### What is left of a node with one child -/

/-- A pair has a part of the path. -/
lemma exists_endsIn (hc : Canon n) (h : isPair n = true) : ∃ k, EndsIn k n := by
  cases hc with
  | nil => exact absurd h (by simp [isPair])
  | leaf k v => exact ⟨k, .leaf v⟩
  | @ext k c v hk hn => exact ⟨k, .ext hk _⟩
  | branch hc hu => exact absurd h (by simp [isPair])

/-- The joined parts are short enough. -/
lemma length_of_fits_prepend {k k' : List (Fin 16)} (hn : EndsIn k' n) (h : Fits (prepend k n)) :
    (k ++ k').length < 2 ^ 31 - 1 := by
  cases hn with
  | leaf v => exact h.1
  | ext hk m => exact h.1

/-- What fits with a part in front fits without. -/
lemma fits_of_prepend (h : Fits (prepend k n)) : Fits n := by
  cases n with
  | nil => exact trivial
  | leaf k' v => exact ⟨by have := h.1; rw [length_append] at this; omega, h.2⟩
  | ext k' m => exact ⟨by have := h.1; rw [length_append] at this; omega, h.2⟩
  | branch c v =>
    cases k with
    | nil => exact h
    | cons a k => exact h.2

/-- What is no pair is a branch. -/
lemma exists_branch (hne : n ≠ .nil) (h : isPair n = false) : ∃ c v, n = .branch c v := by
  cases n with
  | nil => exact absurd rfl hne
  | leaf k v => exact absurd h (by simp [isPair])
  | ext k m => exact absurd h (by simp [isPair])
  | branch c v => exact ⟨c, v, rfl⟩

/-- The end of a deletion: an extension to a pair is grafted. -/
lemma graft_runs (hc : Canon n) (hpair : isPair n = true)
    (hfits : Fits (prepend k n)) (h : K.Holds t.m_db (self sha3 n + below sha3 n + F))
    (hk : K.KillOk (self sha3 n + below sha3 n + F)) :
    Runs K (graft (enc sha3 (.ext k n))) t fun b t' =>
      b = enc sha3 (prepend k n) ∧ K.Holds t'.m_db (below sha3 (prepend k n) + F) := by
  obtain ⟨k', hn⟩ := exists_endsIn hc hpair
  obtain ⟨leaf, x, -, -, hbelow, -, -⟩ := @exists_pair _ sha3 _ hn (fits_of_prepend hfits)
  rw [add_assoc] at h hk
  obtain ⟨d, hon, hd⟩ :=
    graft_on K hn (fits_of_prepend hfits) (length_of_fits_prepend hn hfits) h hk
  rw [hbelow]
  exact .of_on hon rfl ⟨rfl, hd⟩

/-- The end of a deletion: an extension to a branch stays. -/
lemma prepend_of_branch (hne : n ≠ .nil) (hpair : isPair n = false)
    (hk : k ≠ []) : prepend k n = .ext k n := by
  obtain ⟨c, v, rfl⟩ := exists_branch hne hpair
  exact prepend_branch hk c v

variable {b : Fin 16}

omit [NodeDB δ] in
/-- The place in use becomes a pair. -/
lemma merge_on {c : Fin 16 → Node} {v : Option Bytes} (hne : c b ≠ .nil)
    (hfits : Fits (.branch c v)) :
    (merge (enc sha3 (.branch c v)) b).on t =
      (.ok (enc sha3 (.ext [b] (c b))), t) := by
  have hsize := hfits.length_branch_le sha3
  have hpair : (encode (pair false [b] (ref sha3 (item sha3 (c b))))).length ≤ maxLength :=
    length_encode_pair_ref_le (by simp) _
  have hlist : (isList (encode (.list (places (fun i => ref sha3 (item sha3 (c i))) v))) &&
      (17 : ℕ) == 17) = true := by
    rw [RLP.isList_list hsize]
    rfl
  have hkey : ∀ i : Fin 16, hexPrefixEncode ⟨[UInt8.ofNat i], 0⟩ false 1 2 =
      HexPrefix.encode false [i] := by decide
  have hempty : isEmpty (encode (ref sha3 (item sha3 (c b)))) = false := by
    rw [← Bool.not_eq_true, isEmpty_ref]
    exact hne
  rw [enc, item, merge, on_bind_of_ok (rlp_on (itemCount_places hsize)),
    on_bind_of_ok (assert_on hlist), on_bind_of_ok (item_place_on hsize b),
    if_pos (by omega), on_bind_of_ok (assert_on (by rw [hempty]; rfl)), hkey,
    pairOf_on hpair]
  rfl

/-- A branch with one place in use becomes what is in the place. -/
lemma mergeUsed_runs {c : Fin 16 → Node} {v : Option Bytes} (hne : c b ≠ .nil)
    (hc : Canon (c b)) (hfits : Fits (.branch c v)) (hfits' : Fits (prepend [b] (c b)))
    (h : K.Holds t.m_db (self sha3 (c b) + below sha3 (c b) + F))
    (hk : K.KillOk (self sha3 (c b) + below sha3 (c b) + F)) :
    Runs K (mergeUsed (enc sha3 (.branch c v)) b) t fun r t' =>
      r = enc sha3 (prepend [b] (c b)) ∧
        K.Holds t'.m_db (below sha3 (prepend [b] (c b)) + F) := by
  have hsize := hfits.length_branch_le sha3
  refine .step (item_place_on hsize b) (.step (isTwoItemNode_on K hne (hfits.1 b)
    (add_assoc _ _ F ▸ h)) ?_)
  by_cases hpair : isPair (c b) = true
  · rw [if_pos hpair]
    refine .step (merge_on hne hfits) (.step (ofNode_enc_on ⟨by simp, hfits.1 b⟩) ?_)
    exact graft_runs K hc hpair hfits' h hk
  · rw [Bool.not_eq_true] at hpair
    rw [if_neg (by rw [hpair]; simp), prepend_of_branch hne hpair (by simp)]
    exact .of_on (merge_on hne hfits) rfl ⟨rfl, h⟩

/-! ### Places in use -/

/-- The loop of `uniqueInUse`, on the places that are empty. -/
def inUse (empty : ℕ → Bool) : List ℕ → ℕ → ℕ
  | [], u => u
  | i :: l, u => if empty i then inUse empty l u else if u = 255 then inUse empty l i else 255

variable {empty : ℕ → Bool} {l : List ℕ}

/-- Empty places are passed over. -/
lemma inUse_empty (h : ∀ i ∈ l, empty i = true) (u : ℕ) : inUse empty l u = u := by
  induction l with
  | nil => rfl
  | cons i l ih =>
    rw [inUse, if_pos (h i mem_cons_self), ih fun j hj => h j (mem_cons_of_mem i hj)]

/-- One more place in use behind the first gives 255. -/
lemma inUse_of_used {u : ℕ} (hu : u ≠ 255)
    (h : ∃ i ∈ l, empty i = false) : inUse empty l u = 255 := by
  induction l with
  | nil => simp at h
  | cons i l ih =>
    by_cases hi : empty i = true
    · obtain ⟨j, hj, hje⟩ := h
      rw [inUse, if_pos hi]
      refine ih ⟨j, ?_, hje⟩
      rcases mem_cons.mp hj with rfl | hj
      · rw [hi] at hje
        exact absurd hje (by simp)
      · exact hj
    · rw [inUse, if_neg hi, if_neg hu]

/-- Two places in use. -/
lemma inUse_two (hl : ∀ i ∈ l, i ≠ 255) {i j : ℕ} (hi : i ∈ l)
    (hj : j ∈ l) (hij : i ≠ j) (hie : empty i = false) (hje : empty j = false) :
    inUse empty l 255 = 255 := by
  induction l with
  | nil => simp at hi
  | cons a l ih =>
    by_cases ha : empty a = true
    · rw [inUse, if_pos ha]
      refine ih (fun i hi => hl i (mem_cons_of_mem a hi)) ?_ ?_
      · rcases mem_cons.mp hi with rfl | hi
        · exact absurd ha (by simp [hie])
        · exact hi
      · rcases mem_cons.mp hj with rfl | hj
        · exact absurd ha (by simp [hje])
        · exact hj
    · rw [inUse, if_neg ha, if_pos rfl]
      refine inUse_of_used (hl a mem_cons_self) ?_
      rcases mem_cons.mp hi with rfl | hi
      · exact ⟨j, (mem_cons.mp hj).resolve_left (Ne.symm hij), hje⟩
      · exact ⟨i, hi, hie⟩

/-- One place in use. -/
lemma inUse_one (hl : l.Nodup) {b : ℕ} (hb : b ∈ l)
    (h : ∀ i ∈ l, empty i = false ↔ i = b) : inUse empty l 255 = b := by
  induction l with
  | nil => simp at hb
  | cons a l ih =>
    obtain ⟨ha, hl⟩ := List.nodup_cons.mp hl
    by_cases hab : a = b
    · subst hab
      rw [inUse, if_neg (by rw [(h a mem_cons_self).mpr rfl]; simp), if_pos rfl]
      refine inUse_empty (fun i hi => ?_) a
      rw [← Bool.not_eq_false, h i (mem_cons_of_mem a hi)]
      rintro rfl
      exact ha hi
    · rw [inUse, if_pos]
      · exact ih hl ((mem_cons.mp hb).resolve_left (Ne.symm hab))
          fun i hi => h i (mem_cons_of_mem a hi)
      · rw [← Bool.not_eq_false, h a mem_cons_self]
        exact hab

variable {x : Bytes}

omit [NodeDB δ] in
/-- The loop is the fold over the places. -/
lemma uniqueInUseLoop_on (h : ∀ i ∈ l, i ≠ 255 ∧ ∃ y, (GenericTrieDB.item x i).on t = (.ok y, t) ∧
      isEmpty y = empty i) (u : ℕ) :
    (uniqueInUseLoop x 255 l u).on t = (.ok (inUse empty l u), t) := by
  induction l generalizing u with
  | nil => rfl
  | cons i l ih =>
    obtain ⟨hi, y, hitem, hy⟩ := h i mem_cons_self
    have ih' := fun u => ih (fun j hj => h j (mem_cons_of_mem i hj)) u
    rw [uniqueInUseLoop, if_neg hi, on_bind_of_ok hitem, hy, inUse]
    split_ifs
    · exact ih' u
    · exact ih' i
    · rfl

/-- The places of a branch that are empty. -/
def emptyAt (sha3 : Bytes → H256) (c : Fin 16 → Node) (i : ℕ) : Bool :=
  if h : i < 16 then isEmpty (encode (ref sha3 (item sha3 (c ⟨i, h⟩)))) else true

/-- A place in use holds a child. -/
lemma emptyAt_eq_false {c : Fin 16 → Node} {i : ℕ} :
    emptyAt sha3 c i = false ↔ ∃ b : Fin 16, c b ≠ .nil ∧ i = b := by
  rw [emptyAt]
  split_ifs with h
  · rw [← Bool.not_eq_true, isEmpty_ref]
    exact ⟨fun hb => ⟨⟨i, h⟩, hb, rfl⟩, by rintro ⟨b, hb, rfl⟩; exact hb⟩
  · refine ⟨fun e => absurd e (by simp), ?_⟩
    rintro ⟨b, -, rfl⟩
    exact absurd b.isLt h

omit [NodeDB δ] in
/-- The only place in use, or 255. -/
lemma uniqueInUse_on {c : Fin 16 → Node} (hfits : Fits (.branch c none)) :
    (uniqueInUse (enc sha3 (.branch c none)) 255).on t =
      (.ok (inUse (emptyAt sha3 c) (List.range 17) 255), t) := by
  have hsize := hfits.length_branch_le sha3
  refine uniqueInUseLoop_on (fun i hi => ?_) 255
  have hi17 := mem_range.mp hi
  refine ⟨by omega, ?_⟩
  by_cases hi16 : i < 16
  · exact ⟨_, item_place_on hsize ⟨i, hi16⟩, by rw [emptyAt, dif_pos hi16]⟩
  · obtain rfl : i = 16 := by omega
    refine ⟨_, item_value_on hsize, ?_⟩
    rw [emptyAt, dif_neg hi16, RLP.isEmpty_encode]
    · rfl
    · exact (length_encode_data_le (by simp)).trans (by norm_num [maxLength])

/-- Two places of the branch are in use. -/
lemma inUse_emptyAt_two {c : Fin 16 → Node} (h : (used c none).Nontrivial) :
    inUse (emptyAt sha3 c) (List.range 17) 255 = 255 := by
  obtain ⟨i, hi, j, hj, hij⟩ := h
  cases i with
  | none => exact absurd rfl hi
  | some a =>
    cases j with
    | none => exact absurd rfl hj
    | some b =>
      refine inUse_two (i := a) (j := b) (fun i hi => ?_) ?_ ?_ ?_ ?_ ?_
      · have := mem_range.mp hi
        omega
      · exact mem_range.mpr (by omega)
      · exact mem_range.mpr (by omega)
      · exact fun e => hij (by rw [Fin.ext e])
      · exact emptyAt_eq_false.mpr ⟨a, hi, rfl⟩
      · exact emptyAt_eq_false.mpr ⟨b, hj, rfl⟩

/-- One place of the branch is in use. -/
lemma inUse_emptyAt_one {c : Fin 16 → Node} (h : ∀ a, c a ≠ .nil ↔ a = b) :
    inUse (emptyAt sha3 c) (List.range 17) 255 = b := by
  refine inUse_one List.nodup_range (mem_range.mpr (by omega)) fun i _ => ?_
  rw [emptyAt_eq_false]
  constructor
  · rintro ⟨a, ha, rfl⟩
    rw [(h a).mp ha]
  · rintro rfl
    exact ⟨b, (h b).mpr rfl, rfl⟩

/-! ### Children -/

/-- Nothing is deleted behind a child. -/
lemma deleteAtAux_absent {s : RLPStream} (hn : Fits n) (h : K.Holds t.m_db (self sha3 n + M))
    (hd : n ≠ .nil → (deleteAt sha3 fuel (enc sha3 n) key).on t = (.ok [], t)) :
    (deleteAtAux sha3 (fun x => deleteAt sha3 fuel x key) s
      (encode (ref sha3 (item sha3 n)))).on t = (.ok none, t) := by
  have hchild : (deleteAtAux.deleteChild (fun x => deleteAt sha3 fuel x key)
      (encode (ref sha3 (item sha3 n)))).on t = (.ok [], t) := by
    by_cases hne : n = .nil
    · rw [deleteAtAux.deleteChild, if_pos (isEmpty_ref.mpr hne)]
      rfl
    · rw [deleteAtAux.deleteChild, if_neg fun e => hne (isEmpty_ref.mp e),
        on_bind_of_ok (deref_on hne hn (K.find h))]
      exact hd hne
  rw [deleteAtAux, on_bind_of_ok hchild]
  rfl

/-- Something is deleted behind a child. -/
lemma deleteAtAux_runs (hne : n ≠ .nil) (hn : Fits n) {xs ys : List Item} {i : ℕ}
    (hdrop : xs.drop i = ref sha3 (item sha3 n') :: ys)
    (hxs : (encode (.list xs)).length ≤ maxLength) (h : K.Holds t.m_db (self sha3 n + M))
    (hplan : Within K.plan (self sha3 n')) (hd : Runs K (deleteAt sha3 fuel (enc sha3 n) key) t
      fun b t' => b = enc sha3 n' ∧ K.Holds t'.m_db F) :
    Runs K (deleteAtAux sha3 (fun x => deleteAt sha3 fuel x key) (upTo xs i)
        (encode (ref sha3 (item sha3 n)))) t
      fun s t' => s = some (upTo xs (i + 1)) ∧ K.Holds t'.m_db (self sha3 n' + F) := by
  have hchild : Runs K (deleteAtAux.deleteChild (fun x => deleteAt sha3 fuel x key)
      (encode (ref sha3 (item sha3 n)))) t
      fun b t' => b = enc sha3 n' ∧ K.Holds t'.m_db F := by
    rw [deleteAtAux.deleteChild, if_neg fun e => hne (isEmpty_ref.mp e)]
    exact .step (deref_on hne hn (K.find h)) hd
  refine hchild.bind ?_
  rintro _ t' ⟨rfl, ht'⟩
  have hpos : (enc sha3 n').length ≠ 0 := (Rlp.length_encode_pos _).ne'
  rw [if_neg hpos]
  refine (streamNode_runs K hdrop hxs hplan ht').bind ?_
  rintro _ t'' ⟨rfl, ht''⟩
  exact .of_on rfl rfl ⟨rfl, ht''⟩

/-! ### The loop over the places of a branch -/

/-- The places that are only copied. -/
lemma deleteLoop_copy {delete : Bytes → TrieM δ Bytes} {a i m : ℕ} {xs : List Item}
    (h : ∀ j, i ≤ j → j < i + m → j ≠ a ∧
      (appendItem x (upTo xs j) j).on t = (.ok (upTo xs (j + 1)), t)) :
    (deleteLoop sha3 delete x a (List.range' i m ++ l) (upTo xs i)).on t =
      (deleteLoop sha3 delete x a l (upTo xs (i + m))).on t := by
  induction m generalizing i with
  | zero => rfl
  | succ m ih =>
    obtain ⟨hne, hon⟩ := h i le_rfl (by omega)
    rw [List.range'_succ, List.cons_append, deleteLoop, if_neg hne, on_bind_of_ok hon,
      ih fun j hj hjm => h j (by omega) (by omega), Nat.add_right_comm, Nat.add_assoc]

variable {c : Fin 16 → Node} {u : Option Bytes} {a : Fin 16}

/-- Nothing is deleted behind a branch. -/
lemma deleteLoop_absent (hfits : Fits (.branch c u)) (h : K.Holds t.m_db (self sha3 (c a) + M))
    (hd : c a ≠ .nil →
      (deleteAt sha3 fuel (enc sha3 (c a)) key).on t = (.ok [], t)) :
    (deleteLoop sha3 (fun x => deleteAt sha3 fuel x key) (enc sha3 (.branch c u)) a
      (List.range 17) (upTo (places (refs sha3 c) u) 0)).on t =
      (.ok none, t) := by
  have hsize := hfits.length_branch_le sha3
  have hcopy : ∀ j : ℕ, j < 17 → j ≠ a →
      (appendItem (enc sha3 (.branch c u)) (upTo (places (refs sha3 c) u) j) j).on t =
        (.ok (upTo (places (refs sha3 c) u) (j + 1)), t) := by
    intro j hj hja
    have hplace := @appendItem_place_on δ sha3 t (c a) c u a hfits j hj hja
    rwa [update_eq_self] at hplace
  have hsplit := range_split (show (a : ℕ) < 17 by omega)
  rw [hsplit, deleteLoop_copy fun j _ hj => ⟨by omega, hcopy j (by omega) (by omega)⟩, deleteLoop,
    if_pos rfl]
  refine (on_bind_of_ok (item_place_on hsize a)).trans ?_
  rw [on_bind_of_ok (deleteAtAux_absent K (hfits.1 a) h hd)]
  rfl

/-- Something is deleted behind a branch. -/
lemma deleteLoop_runs (hfits : Fits (.branch c u)) (hne : c a ≠ .nil)
    (h : K.Holds t.m_db (self sha3 (c a) + M)) (hplan : Within K.plan (self sha3 n'))
    (hd : Runs K (deleteAt sha3 fuel (enc sha3 (c a)) key) t
      fun b t' => b = enc sha3 n' ∧ K.Holds t'.m_db F) :
    Runs K (deleteLoop sha3 (fun x => deleteAt sha3 fuel x key) (enc sha3 (.branch c u)) a
        (List.range 17) (upTo (places (refs sha3 (update c a n')) u) 0)) t
      fun s t' => s = some (upTo (places (refs sha3 (update c a n')) u) 17) ∧
        K.Holds t'.m_db (self sha3 n' + F) := by
  have hsize := hfits.length_branch_le sha3
  have hsize' := @length_encode_update_le sha3 _ _ hfits a n'
  obtain ⟨zs, hzs⟩ := @drop_places_update sha3 c u a n'
  have hsplit := range_split (show (a : ℕ) < 17 by omega)
  rw [hsplit]
  refine .of_eq (deleteLoop_copy fun j _ hj => ⟨by omega, appendItem_place_on hfits (by omega)
    (by omega)⟩) ?_
  rw [Nat.zero_add, deleteLoop, if_pos rfl]
  refine .step (item_place_on hsize a) ?_
  refine Method.Runs.bind (g := fun s => ?_)
    (deleteAtAux_runs K hne (hfits.1 a) hzs hsize' h hplan hd) ?_
  · cases s <;> infer_instance
  · rintro _ t' ⟨rfl, ht'⟩
    have hafter : (deleteLoop sha3 (fun x => deleteAt sha3 fuel x key) (enc sha3 (.branch c u)) a
        (List.range' (a + 1) (17 - a - 1) ++ [])
        (upTo (places (refs sha3 (update c a n')) u) (a + 1))).on t' =
        (.ok (some (upTo (places (refs sha3 (update c a n')) u)
          (a + 1 + (17 - a - 1)))), t') :=
      (deleteLoop_copy fun j _ hj => ⟨by omega, appendItem_place_on hfits (by omega)
        (by omega)⟩).trans rfl
    rw [List.append_nil, show (a : ℕ) + 1 + (17 - a - 1) = 17 by omega] at hafter
    exact .of_on hafter rfl ⟨rfl, ht'⟩

/-! ### One step of `deleteAt` -/

/-- What `deleteAt` does on a pair. -/
lemma deleteAt_pair_on {leaf : Bool} {x : Item}
    (hsize : (encode (pair leaf k x)).length ≤ maxLength) :
    (deleteAt sha3 (fuel + 1) (encode (pair leaf k x)) key).on t =
      (if (keyOf (HexPrefix.encode leaf k)).equal key && leaf then do
          killNode sha3 (encode (pair leaf k x))
          return RLPNull
        else if key.contains (keyOf (HexPrefix.encode leaf k)) then do
          let s ← newList 2
          let s ← appendItem (encode (pair leaf k x)) s 0
          deletedInPair sha3 (encode (pair leaf k x)) (← deleteAtAux sha3
            (fun x => deleteAt sha3 fuel x (key.mid (keyOf (HexPrefix.encode leaf k)).size)) s
            (← GenericTrieDB.item (encode (pair leaf k x)) 1))
        else return []).on t := by
  rw [deleteAt, if_neg (by rw [isEmpty_pair hsize]; simp),
    on_bind_of_ok (rlp_on (itemCount_pair hsize))]
  refine (on_bind_of_ok (assertNode_on hsize (Or.inl rfl))).trans ?_
  rw [if_pos rfl, on_bind_of_ok (keyOfNode_on hsize),
    on_bind_of_ok (isLeaf_on hsize)]

/-- What `deleteAt` does on a branch in which the key goes on. -/
lemma deleteAt_branch_on (hfits : Fits (.branch c u)) (hkey : key.size ≠ 0) :
    (deleteAt sha3 (fuel + 1) (enc sha3 (.branch c u)) key).on t =
      (do
        let r ← newList 17
        deletedInBranch sha3 (enc sha3 (.branch c u))
          (← deleteLoop sha3 (fun x => deleteAt sha3 fuel x (key.mid 1))
            (enc sha3 (.branch c u)) (key.get 0) (List.range 17) r)).on t := by
  have hsize := hfits.length_branch_le sha3
  have hends : (endsHere (enc sha3 (.branch c u)) key).on t = (.ok false, t) := by
    rw [endsHere, if_neg hkey]
    rfl
  rw [deleteAt, if_neg (by rw [enc, item, isEmpty_places hsize]; simp)]
  refine (on_bind_of_ok (rlp_on (itemCount_places hsize))).trans ?_
  refine (on_bind_of_ok (assertNode_on hsize (Or.inr rfl))).trans ?_
  rw [if_neg (by norm_num), on_bind_of_ok hends, if_neg (by simp)]

/-! ### Words that are not there -/

/-- The nodes of an extension are its own and those of its child. -/
lemma tally_ext (k : List (Fin 16)) (n : Node) (F : Tally) :
    self sha3 (.ext k n) + below sha3 (.ext k n) + F =
      self sha3 n + below sha3 n + (self sha3 (.ext k n) + F) := by
  rw [below]
  abel

/-- The nodes of a branch are its own, those of one child and the rest. -/
lemma tally_branch (c : Fin 16 → Node) (u : Option Bytes) (a : Fin 16) (F : Tally) :
    self sha3 (.branch c u) + below sha3 (.branch c u) + F =
      self sha3 (c a) + below sha3 (c a) + (self sha3 (.branch c u) + rest sha3 c a + F) := by
  rw [below_branch c u a]
  abel

/-- No word of the tree is in front of `l`. -/
def First (m : Node) (l : List (Fin 16)) : Prop :=
  ∀ x y, l = x ++ y → m.lookup x ≠ none → y = []

variable {r : List (Fin 16)}

/-- What is first in a branch is first in its child. -/
lemma First.child (h : First (.branch c u) (a :: r)) : First (c a) r :=
  fun x y hxy hx => h (a :: x) y (by rw [hxy]; rfl) hx

/-- What is first in an extension is first behind it. -/
lemma First.ext (h : First (.ext k n) (k ++ r)) : First n r := by
  intro x y hxy hx
  refine h (k ++ x) y (by rw [hxy, List.append_assoc]) ?_
  rwa [lookup_ext_append]

/-- Where the word goes on behind a branch, the branch has no value. -/
lemma First.value (h : First (.branch c u) (a :: r)) : u = none := by
  by_contra hu
  exact absurd (h [] (a :: r) rfl hu) (by simp)

/-- A word does not end in a branch if nothing goes on behind it. -/
lemma Last.ne_nil_of_branch {l : List (Fin 16)} (h : Last (.branch c u) l)
    (hc : Canon (.branch c u)) : l ≠ [] := by
  rintro rfl
  obtain ⟨i, hi, hne⟩ := hc.nontrivial.exists_ne none
  obtain ⟨b, rfl⟩ := Option.ne_none_iff_exists'.mp hne
  obtain ⟨x, hx, hlookup⟩ := hc.exists_head hi
  obtain rfl : x = [] := h x hlookup
  simp at hx

/-- **A word that is not there** changes nothing. -/
theorem deleteAt_absent {m : Node} (hc : Canon m) (hs : Small m) {l : List (Fin 16)}
    (hfirst : First m l) (hlast : Last m l) (hnone : m.lookup l = none)
    (hfuel : l.length + 1 ≤ fuel) (hkey : key.Valid) (hw : key.word = l)
    (h : K.Holds t.m_db (self sha3 m + below sha3 m + F)) :
    (deleteAt sha3 fuel (enc sha3 m) key).on t = (.ok [], t) := by
  induction hc generalizing l fuel key F with
  | nil =>
    obtain _ | fuel := fuel
    · omega
    rw [deleteAt, if_pos (by rw [enc_nil]; rfl)]
    rfl
  | leaf k w =>
    obtain _ | fuel := fuel
    · omega
    have hfits := hs.fits (.leaf k w)
    obtain ⟨hvalid, hword⟩ := keyOf_encode true hfits.1
    have hne : l ≠ k := by
      rintro rfl
      simp [lookup_leaf] at hnone
    refine (deleteAt_pair_on (@length_enc_le sha3 _ hfits)).trans ?_
    rw [if_neg, if_neg]
    · rfl
    · rw [hkey.contains_iff hvalid, hword, hw]
      rintro ⟨r, rfl⟩
      exact hne (by rw [hfirst k r rfl (by simp [lookup_leaf]), List.append_nil])
    · rw [Bool.and_true, hvalid.equal_iff hkey, hword, hw]
      exact Ne.symm hne
  | @ext k c u hk hn ih =>
    obtain _ | fuel := fuel
    · omega
    have hfits := hs.fits (.ext hk hn)
    have hsize := hfits.length_ext_le sha3
    obtain ⟨hvalid, hword⟩ := keyOf_encode false hfits.1
    refine (deleteAt_pair_on hsize).trans ?_
    rw [if_neg (by simp)]
    by_cases hin : ∃ r, l = k ++ r
    · obtain ⟨r, rfl⟩ := hin
      obtain ⟨hmid, hrest⟩ := hkey.mid_append hw
      have hpos := List.length_pos_iff.mpr hk
      rw [length_append] at hfuel
      rw [lookup_ext_append] at hnone
      rw [tally_ext] at h
      have hchild : (deleteAt sha3 fuel (enc sha3 (.branch c u)) (key.mid k.length)).on t =
        (.ok [], t) :=
        ih hs.ext hfirst.ext hlast.ext hnone (by omega) hmid hrest h
      rw [if_pos, hvalid.size_eq, hword, on_bind_of_ok (newList_pair_on false k _)]
      · refine (on_bind_of_ok (appendItem_on rfl hsize rfl hsize (by norm_num))).trans ?_
        rw [on_bind_of_ok (item_one_on hsize), on_bind_of_ok
          (deleteAtAux_absent K hfits.2 (add_assoc _ _ (self sha3 _ + F) ▸ h) fun _ => hchild)]
        rfl
      · rw [hkey.contains_iff hvalid, hword, hw]
        exact ⟨r, rfl⟩
    · rw [if_neg]
      · rfl
      · rwa [hkey.contains_iff hvalid, hword, hw]
  | @branch c u hc hu ih =>
    obtain _ | fuel := fuel
    · omega
    have hfits := hs.fits (.branch hc hu)
    obtain ⟨a, r, rfl⟩ := List.exists_cons_of_ne_nil (hlast.ne_nil_of_branch (.branch hc hu))
    obtain ⟨hmid, hrest⟩ := hkey.mid_cons hw
    rw [List.length_cons] at hfuel
    rw [tally_branch c u a] at h
    have hchild : (deleteAt sha3 fuel (enc sha3 (c a)) (key.mid 1)).on t =
        (.ok [], t) :=
      ih a (hs.child a) hfirst.child hlast.child hnone (by omega) hmid hrest h
    rw [deleteAt_branch_on hfits (by rw [hkey.size_eq, hw]; simp),
      on_bind_of_ok (newList_places_on (refs sha3 c) u), hkey.get_zero hw,
      on_bind_of_ok (deleteLoop_absent K hfits
        (add_assoc _ _ (self sha3 _ + _ + F) ▸ h) fun _ => hchild)]
    rfl

/-! ### Words that are there -/

/-- Deletion keeps a tree small. -/
lemma Small.delete {m m' : Node} (h : Small m) {l : List (Fin 16)} (hd : m.delete l = some m') :
    Small m' := by
  intro x w hx
  rw [lookup_delete hd] at hx
  split_ifs at hx
  exact h x w hx

/-- A branch has another word. -/
lemma delete_branch_ne_nil {l : List (Fin 16)} (hc : Canon (.branch c u))
    (hd : (Patricia.Node.branch c u).delete l = some n') : n' ≠ .nil := by
  rintro rfl
  obtain ⟨i, hi, hne⟩ := hc.nontrivial.exists_ne l.head?
  obtain ⟨x, rfl, hx⟩ := hc.exists_head hi
  have hlookup := lookup_delete hd x
  rw [if_neg (fun e => hne (by rw [e])), lookup_nil] at hlookup
  exact hx hlookup.symm

/-- A part in front hides no node. -/
lemma below_le_prepend (k : List (Fin 16)) (n : Node) :
    below sha3 n ≤ below sha3 (prepend k n) := by
  cases n with
  | nil => exact le_rfl
  | leaf k' v => exact le_rfl
  | ext k' m => exact le_rfl
  | branch c v =>
    cases k with
    | nil => exact le_rfl
    | cons a k => exact fun s => Nat.le_add_left _ _

/-- The end of a deletion in an extension. -/
lemma deletedInPair_runs (hk : k ≠ []) (hn : Canon n') (hne : n' ≠ .nil)
    (hfits : Fits (prepend k n')) (hg : Gives K (enc sha3 (.ext k n)) M
      (self sha3 n' + below sha3 n' + F)) (h : K.Holds t.m_db M)
    (hkill : K.KillOk (self sha3 n' + below sha3 n' + F)) (hlen : k.length < 2 ^ 31 - 1) :
    Runs K (deletedInPair sha3 (enc sha3 (.ext k n))
        (some (upTo [.data (HexPrefix.encode false k), ref sha3 (item sha3 n')] 2))) t
      fun b t' => b = enc sha3 (prepend k n') ∧
        K.Holds t'.m_db (below sha3 (prepend k n') + F) := by
  have hfits' := fits_of_prepend hfits
  have hext : Fits (.ext k n') := ⟨hlen, hfits'⟩
  have hsize : (encode (pair false k (ref sha3 (item sha3 n')))).length ≤ maxLength :=
    @length_enc_le sha3 _ hext
  obtain ⟨d, hon, hd⟩ := hg t h
  refine .change hon rfl (.step (out_on rfl) (.step (ofNode_on hsize) (.step (item_one_on hsize)
    (.step (isTwoItemNode_on K hne hfits' (add_assoc _ _ F ▸ hd)) ?_))))
  by_cases hpair : isPair n' = true
  · rw [if_pos hpair]
    exact graft_runs K hn hpair hfits hd hkill
  · rw [Bool.not_eq_true] at hpair
    rw [if_neg (by rw [hpair]; simp), prepend_of_branch hne hpair hk]
    exact .of_on (on_pure _) rfl ⟨rfl, hd⟩

/-- The end of a deletion in a branch without a value. -/
lemma deletedInBranch_runs {c' : Fin 16 → Node} (hc : ∀ a, Canon (c' a))
    (hfits : Fits (.branch c' none)) (hfits' : Fits (collapse c' none)) (hsome : ∃ b, c' b ≠ .nil)
    (hg : Gives K x M (below sha3 (.branch c' none) + F)) (h : K.Holds t.m_db M)
    (hkill : K.KillOk (below sha3 (.branch c' none) + F)) :
    Runs K (deletedInBranch sha3 x (some (upTo (places (refs sha3 c') none) 17))) t
      fun b t' => b = enc sha3 (collapse c' none) ∧
        K.Holds t'.m_db (below sha3 (collapse c' none) + F) := by
  obtain ⟨d, hon, hd⟩ := hg t h
  have hout : (rlp (upTo (places (refs sha3 c') none) 17).out).on
      { t with m_db := d } = (.ok (enc sha3 (.branch c' none)), { t with m_db := d }) :=
    out_on (length_places _ _)
  refine .change hon rfl
    (.step hout (.step (ofNode_enc_on hfits) (.step (uniqueInUse_on hfits) ?_)))
  rcases collapse_cases c' none with hu | ⟨-, b, hb⟩ | hnil
  · rw [if_pos (inUse_emptyAt_two hu), collapse_of_nontrivial hu]
    exact .of_on (on_pure _) rfl ⟨rfl, hd⟩
  · have hrest : rest sha3 c' b = 0 := by
      refine Finset.sum_eq_zero fun i hi => ?_
      have hnil : c' i = .nil := by
        by_contra hi'
        exact Finset.ne_of_mem_erase hi ((hb i).mp hi')
      rw [hnil, self_nil, below, add_zero]
    rw [below_branch c' none b, hrest, add_zero] at hd hkill
    rw [collapse_child hb] at hfits' ⊢
    rw [inUse_emptyAt_one hb, if_neg (by omega)]
    exact mergeUsed_runs K ((hb b).mpr rfl) (hc b) hfits hfits' hd hkill
  · obtain ⟨b, hb⟩ := hsome
    exact absurd (hnil b) hb

/-- A leaf is deleted. -/
lemma deleteAt_leaf_runs {w : Bytes} (hfits : Fits (.leaf k w))
    (hequal : (keyOf (HexPrefix.encode true k)).equal key = true)
    (h : K.Holds t.m_db (self sha3 (.leaf k w) + F)) (hk : K.KillOk (self sha3 (.leaf k w) + F)) :
    Runs K (deleteAt sha3 (fuel + 1) (enc sha3 (.leaf k w)) key) t
      fun b t' => b = enc sha3 .nil ∧ K.Holds t'.m_db F := by
  obtain ⟨d, hon, hd⟩ := gives_kept K hk t h
  refine .of_eq (deleteAt_pair_on (@length_enc_le sha3 _ hfits)) ?_
  rw [if_pos (by rw [hequal]; rfl)]
  exact .change hon rfl (.of_on (on_pure _) rfl ⟨rfl, hd⟩)

/-- **Deletion.** On the encoding of a canonical tree, `deleteAt` gives the encoding of the tree
without the word `l`; it gives back all nodes of the tree that it replaces, and holds the new
ones below the root.

**Proof sketch.** Induction on the tree. The child in which the word ends is replaced first and
the node itself is given back then; at that moment the new child is held together with the old
nodes. What is left of an extension or a branch is brought into shape at the end. -/
theorem deleteAt_spec {m m' : Node} (hc : Canon m) (hs : Small m) {l : List (Fin 16)}
    (hfirst : First m l) (hlast : Last m l) (hdel : m.delete l = some m')
    (hfuel : l.length + 1 ≤ fuel) (hkey : key.Valid) (hw : key.word = l)
    (h : K.Holds t.m_db (self sha3 m + below sha3 m + F))
    (hk : K.KillOk (self sha3 m + below sha3 m + F + below sha3 m' + 1)) (hplan : ∀ s, s ∈ K.plan) :
    Runs K (deleteAt sha3 fuel (enc sha3 m) key) t
      fun b t' => b = enc sha3 m' ∧ K.Holds t'.m_db (below sha3 m' + F) := by
  induction hc generalizing l fuel key F m' t with
  | nil => simp [Patricia.Node.delete] at hdel
  | leaf k w =>
    obtain _ | fuel := fuel
    · omega
    simp only [Patricia.Node.delete, Option.ite_none_right_eq_some, Option.some.injEq] at hdel
    obtain ⟨rfl, rfl⟩ := hdel
    have hfits := hs.fits (.leaf l w)
    obtain ⟨hvalid, hword⟩ := keyOf_encode true hfits.1
    rw [below, add_zero] at h
    rw [below, zero_add]
    refine deleteAt_leaf_runs K hfits (by rw [hvalid.equal_iff hkey, hword, hw]) h
      (K.killOk_mono (fun s => ?_) hk)
    simp only [Pi.add_apply]
    omega
  | @ext k c u hk' hn ih =>
    obtain _ | fuel := fuel
    · omega
    have hfits := hs.fits (.ext hk' hn)
    have hfits' := (hs.delete hdel).fits ((Canon.ext hk' hn).delete hdel)
    simp only [Patricia.Node.delete, Option.bind_eq_some_iff, Option.map_eq_some_iff] at hdel
    obtain ⟨r, hr, n', hn', rfl⟩ := hdel
    obtain rfl := Patricia.dropPrefix_eq_some.mp hr
    have hne := delete_branch_ne_nil hn hn'
    obtain ⟨hmid, hrest⟩ := hkey.mid_append hw
    have hpos := List.length_pos_iff.mpr hk'
    rw [length_append] at hfuel
    have hsize := hfits.length_ext_le sha3
    have hsize' : (encode (pair false k (ref sha3 (item sha3 n')))).length ≤ maxLength :=
      length_encode_pair_ref_le hfits.1 _
    obtain ⟨hvalid, hword⟩ := keyOf_encode false hfits.1
    have hbelow : ∀ s, below sha3 n' s ≤ below sha3 (prepend k n') s := below_le_prepend k n'
    rw [tally_ext] at h hk
    have hchild : Runs K (deleteAt sha3 fuel (enc sha3 (.branch c u)) (key.mid k.length)) t
        fun b t' => b = enc sha3 n' ∧
          K.Holds t'.m_db (below sha3 n' + (self sha3 (.ext k (.branch c u)) + F)) := by
      refine ih hs.ext hfirst.ext hlast.ext hn' (by omega) hmid hrest h
        (K.killOk_mono (fun s => ?_) hk)
      have := hbelow s
      simp only [Pi.add_apply, Pi.one_apply]
      omega
    refine .of_eq (deleteAt_pair_on hsize) ?_
    rw [if_neg (by simp), if_pos, hvalid.size_eq, hword]
    · refine .step (newList_pair_on false k _) (.step
        (appendItem_on rfl hsize rfl hsize' (by norm_num)) (.step (item_one_on hsize) ?_))
      refine (deleteAtAux_runs K (by simp) hfits.2 rfl hsize'
        (add_assoc _ _ (self sha3 _ + F) ▸ h) (fun s _ => hplan s) hchild).bind ?_
      rintro _ t' ⟨rfl, ht'⟩
      have hown : self sha3 n' + (below sha3 n' + (self sha3 (.ext k (.branch c u)) + F)) =
          self sha3 (.ext k (.branch c u)) + (self sha3 n' + below sha3 n' + F) := by abel
      rw [hown] at ht'
      refine deletedInPair_runs K hk' (hn.delete hn') hne hfits'
        (gives_kept K (K.killOk_mono (fun s => ?_) hk)) ht' (K.killOk_mono (fun s => ?_) hk) hfits.1
      all_goals
        have h₁ := hbelow s
        have h₂ : kept (enc sha3 n') s ≤ 1 := kept_le_one (enc sha3 n') s
        simp only [self, Pi.add_apply, Pi.one_apply]
        omega
    · rw [hkey.contains_iff hvalid, hword, hw]
      exact ⟨r, rfl⟩
  | @branch c u hc hu ih =>
    obtain _ | fuel := fuel
    · omega
    have hfits := hs.fits (.branch hc hu)
    have hfits' := (hs.delete hdel).fits ((Canon.branch hc hu).delete hdel)
    obtain ⟨a, r, rfl⟩ := List.exists_cons_of_ne_nil (hlast.ne_nil_of_branch (.branch hc hu))
    obtain rfl := hfirst.value
    simp only [Patricia.Node.delete, Option.map_eq_some_iff] at hdel
    obtain ⟨n', hn', rfl⟩ := hdel
    obtain ⟨hmid, hrest⟩ := hkey.mid_cons hw
    rw [List.length_cons] at hfuel
    have hne : c a ≠ .nil := by
      intro e
      simp [e, Patricia.Node.delete] at hn'
    have hother : ∃ b, update c a n' b ≠ .nil := by
      obtain ⟨i, hi, hia⟩ := hu.exists_ne (some a)
      cases i with
      | none => exact absurd rfl hi
      | some b => exact ⟨b, by rwa [update_of_ne fun e => hia (by rw [e])]⟩
    have hcanon := Canon.update hc ((hc a).delete hn') a
    have hbelow : ∀ s, below sha3 n' s ≤ below sha3 (collapse (update c a n') none) s := by
      intro s
      rcases collapse_cases (update c a n') none with
        hu' | ⟨-, b, hb⟩ | hnil
      · rw [collapse_of_nontrivial hu', below_branch_update]
        simp only [Pi.add_apply]
        omega
      · rw [collapse_child hb]
        by_cases hba : a = b
        · subst hba
          rw [update_self]
          exact below_le_prepend _ _ s
        · have hnil : n' = .nil := by
            by_contra hnil
            exact hba ((hb a).mp (by rwa [update_self]))
          rw [hnil, below]
          exact Nat.zero_le _
      · obtain ⟨b, hb⟩ := hother
        exact absurd (hnil b) hb
    rw [tally_branch c none a] at h hk
    have hchild : Runs K (deleteAt sha3 fuel (enc sha3 (c a)) (key.mid 1)) t
        fun b t' => b = enc sha3 n' ∧
          K.Holds t'.m_db (below sha3 n' + (self sha3 (.branch c none) + rest sha3 c a + F)) := by
      refine ih a (hs.child a) hfirst.child hlast.child hn' (by omega) hmid hrest
        h (K.killOk_mono (fun s => ?_) hk)
      have := hbelow s
      simp only [Pi.add_apply, Pi.one_apply]
      omega
    refine .of_eq (deleteAt_branch_on hfits (by rw [hkey.size_eq, hw]; simp)) ?_
    rw [hkey.get_zero hw]
    refine .step (newList_places_on (refs sha3 (update c a n')) none) ((deleteLoop_runs K hfits hne
      (add_assoc _ _ (self sha3 _ + _ + F) ▸ h) (fun s _ => hplan s) hchild).bind ?_)
    rintro _ t' ⟨rfl, ht'⟩
    have hown : self sha3 n' + (below sha3 n' + (self sha3 (.branch c none) + rest sha3 c a + F)) =
        self sha3 (.branch c none) +
          (below sha3 (.branch (update c a n') none) + F) := by
      rw [below_branch_update]
      abel
    rw [hown] at ht'
    refine deletedInBranch_runs K hcanon ?_ hfits' hother
      (gives_kept K (K.killOk_mono (fun s => ?_) hk)) ht' (K.killOk_mono (fun s => ?_) hk)
    · refine ⟨fun i => ?_, by simp⟩
      by_cases hi : i = a
      · subst hi
        rw [update_self]
        exact ((hs.child i).delete hn').fits ((hc i).delete hn')
      · rw [update_of_ne hi]
        exact hfits.1 i
    all_goals
      have h₁ := hbelow s
      have h₂ : kept (enc sha3 n') s ≤ 1 := kept_le_one (enc sha3 n') s
      rw [below_branch_update]
      simp only [self, Pi.add_apply, Pi.one_apply]
      omega

end Tos.Trie
