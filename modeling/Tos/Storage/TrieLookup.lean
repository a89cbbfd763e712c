import Tos.Storage.TrieInsert

/-!
# Looking up in the trie

`atAux` on the encoding of a canonical tree returns the value of a word, if the nodes of the tree
are in the database.

## Main results

* `atAux_spec`: looking up.
-/

namespace Tos.Trie

open Sdag (H256)
open Method

open Rlp (Item encode)

open GenericTrieDB hiding item insert

open Patricia.Node (Canon)

variable {δ : Type} [NodeDB δ] {sha3 : Bytes → H256} {t : GenericTrieDB δ} {key : NibbleSlice}
  {fuel : ℕ} {n : Node}

/-- The nodes of a tree that are not in their parents are in the database. -/
def Found (sha3 : Bytes → H256) (d : δ) (m : Node) : Prop :=
  ∀ s, 0 < self sha3 m s + below sha3 m s → NodeDB.lookup d (sha3 s) = s

lemma Found.self {d : δ} (h : Found sha3 d n) (hlt : ¬ (enc sha3 n).length < 32) :
    NodeDB.lookup d (sha3 (enc sha3 n)) = enc sha3 n := by
  refine h _ (Nat.add_pos_left ?_ _)
  rw [Trie.self, kept_of_ge hlt, Pi.single_eq_same]
  exact Nat.one_pos

lemma Found.ext {d : δ} {k : List (Fin 16)} (h : Found sha3 d (.ext k n)) : Found sha3 d n :=
  fun s hs => h s (Nat.add_pos_right _ hs)

lemma Found.child {d : δ} {c : Fin 16 → Node} {u : Option Bytes} (h : Found sha3 d (.branch c u))
    (a : Fin 16) : Found sha3 d (c a) := by
  refine fun s hs => h s (Nat.add_pos_right _ ?_)
  rw [below_branch c u a, Pi.add_apply]
  exact Nat.add_pos_left hs _

lemma Keeper.found {W : Set Bytes} (K : Keeper δ sha3 W) {d : δ} {F : Tally}
    (h : K.Holds d (Trie.self sha3 n + below sha3 n + F)) : Found sha3 d n :=
  fun _ hs => K.lookup h (Nat.add_pos_left hs _)

/-- What `atAux` does on a pair. -/
lemma atAux_pair_on {leaf : Bool} {k : List (Fin 16)} {x : Item}
    (hsize : (encode (pair leaf k x)).length ≤ RLP.maxLength) :
    (atAux (fuel + 1) (encode (pair leaf k x)) key).on t =
      (if key.equal (keyOf (HexPrefix.encode leaf k)) && leaf then
          rlp (RLP.toBytes (encode x) RLP.LaissezFaire)
        else if key.contains (keyOf (HexPrefix.encode leaf k)) && !leaf then do
          atAux fuel (← deref (encode x)) (key.mid (keyOf (HexPrefix.encode leaf k)).size)
        else return []).on t := by
  have hnull : RLP.isNull (encode (pair leaf k x)) = false := by
    rw [RLP.isNull, beq_eq_false_iff_ne]
    exact (Rlp.length_encode_pos _).ne'
  rw [atAux, if_neg (by rw [isEmpty_pair hsize, hnull]; simp),
    on_bind_of_ok (rlp_on (itemCount_pair hsize))]
  refine (on_bind_of_ok (assertNode_on hsize (Or.inl rfl))).trans ?_
  rw [if_pos (by norm_num), on_bind_of_ok (keyOfNode_on hsize),
    on_bind_of_ok (isLeaf_on hsize)]
  split_ifs
  · exact on_bind_of_ok (item_one_on hsize)
  · exact on_bind_of_ok (item_one_on hsize)
  · rfl

/-- What `atAux` does on a branch. -/
lemma atAux_branch_on {c : Fin 16 → Node} {u : Option Bytes} (hfits : Fits (.branch c u)) :
    (atAux (fuel + 1) (enc sha3 (.branch c u)) key).on t =
      (if key.size = 0 then return u.getD []
        else if RLP.isEmpty (encode (ref sha3 (item sha3 (c (key.get 0))))) then return []
        else do
          atAux fuel (← deref (encode (ref sha3 (item sha3 (c (key.get 0))))))
            (key.mid 1)).on t := by
  have hsize := hfits.length_branch_le sha3
  have hnull : RLP.isNull (enc sha3 (.branch c u)) = false := by
    rw [RLP.isNull, beq_eq_false_iff_ne]
    exact (Rlp.length_encode_pos _).ne'
  have hempty : RLP.isEmpty (enc sha3 (.branch c u)) = false := isEmpty_places hsize
  have hvalue : RLP.toBytes (encode (.data (u.getD []))) RLP.LaissezFaire = .ok (u.getD []) := by
    refine RLP.toBytes_encode ((Rlp.length_encode_le_of_mem_list ?_).trans hsize) _
    simp [places]
  rw [atAux, if_neg (by rw [hempty, hnull]; simp)]
  refine (on_bind_of_ok (rlp_on (itemCount_places hsize))).trans ?_
  refine (on_bind_of_ok (assertNode_on hsize (Or.inr rfl))).trans ?_
  rw [if_neg (by norm_num)]
  split_ifs
  · refine (on_bind_of_ok (item_value_on hsize)).trans ?_
    rw [hvalue]
    rfl
  all_goals
    refine (on_bind_of_ok (item_place_on hsize (key.get 0))).trans ?_
  · rw [if_pos ‹_›]
  · rw [if_neg ‹_›]

/-- **Looking up** a word in the encoding of a canonical tree gives its value, or the empty byte
string if there is none. -/
theorem atAux_spec {m : Node} (hc : Canon m) (hs : Small m) {l : List (Fin 16)}
    (hfuel : l.length + 1 ≤ fuel) (hkey : key.Valid) (hw : key.word = l) (h : Found sha3 t.m_db m) :
    (atAux fuel (enc sha3 m) key).on t = (.ok ((m.lookup l).getD []), t) := by
  induction hc generalizing l fuel key with
  | nil =>
    obtain _ | fuel := fuel
    · omega
    rw [atAux, if_pos (by rw [enc_nil]; rfl)]
    rfl
  | leaf k w =>
    obtain _ | fuel := fuel
    · omega
    have hfits := hs.fits (.leaf k w)
    have hsize := hfits.length_leaf_le
    obtain ⟨hvalid, hword⟩ := keyOf_encode true hfits.1
    refine (atAux_pair_on hsize).trans ?_
    have hequal := hkey.equal_iff hvalid
    rw [hword, hw] at hequal
    rw [Bool.and_true, Patricia.Node.lookup_leaf]
    by_cases hl : l = k
    · rw [if_pos (hequal.mpr hl), if_pos hl]
      refine rlp_on (RLP.toBytes_encode ((Rlp.length_encode_le_of_mem_list ?_).trans hsize) _)
      simp
    · rw [if_neg fun e => hl (hequal.mp e), if_neg (by simp), if_neg hl]
      rfl
  | @ext k c u hk hn ih =>
    obtain _ | fuel := fuel
    · omega
    have hfits := hs.fits (.ext hk hn)
    obtain ⟨hvalid, hword⟩ := keyOf_encode false hfits.1
    refine (atAux_pair_on (@length_enc_le sha3 _ hfits)).trans ?_
    have hcontains := hkey.contains_iff hvalid
    rw [hword, hw] at hcontains
    rw [if_neg (by simp), Bool.not_false, Bool.and_true, hvalid.size_eq, hword,
      Patricia.Node.lookup_ext]
    by_cases hin : ∃ r, l = k ++ r
    · rw [if_pos (hcontains.mpr hin)]
      obtain ⟨r, rfl⟩ := hin
      obtain ⟨hmid, hword'⟩ := hkey.mid_append hw
      have hpos := List.length_pos_iff.mpr hk
      rw [List.length_append] at hfuel
      rw [on_bind_of_ok (deref_on (by simp) hfits.2 h.ext.self),
        Patricia.dropPrefix_eq_some.mpr rfl]
      exact ih hs.ext (by omega) hmid hword' h.ext
    · have hdrop : l.dropPrefix? k = none := by
        rw [Option.eq_none_iff_forall_ne_some]
        exact fun r hr => hin ⟨r, Patricia.dropPrefix_eq_some.mp hr⟩
      rw [if_neg fun e => hin (hcontains.mp e), hdrop]
      rfl
  | @branch c u hc hu ih =>
    obtain _ | fuel := fuel
    · omega
    have hfits := hs.fits (.branch hc hu)
    rw [atAux_branch_on hfits, hkey.size_eq, hw]
    cases l with
    | nil => rfl
    | cons a r =>
      obtain ⟨hmid, hword⟩ := hkey.mid_cons hw
      rw [List.length_cons] at hfuel
      rw [if_neg (by simp), hkey.get_zero hw, Patricia.Node.lookup_branch_cons]
      split_ifs with hempty
      · rw [isEmpty_ref.mp hempty]
        rfl
      · have hne : c a ≠ .nil := fun e => hempty (isEmpty_ref.mpr e)
        rw [on_bind_of_ok (deref_on hne (hfits.1 a) (h.child a).self)]
        exact ih a (hs.child a) (by omega) hmid hword (h.child a)

end Tos.Trie
