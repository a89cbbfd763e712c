import Mathlib.Algebra.BigOperators.Fin
import Tos.Rlp.Writer
import Tos.Storage.TrieDB

/-!
# The nodes of the trie as trees

The trees of `Patricia` with nibbles for letters, as the lists `GenericTrieDB` writes: a leaf and
an extension are pairs with the hex-prefix coding of their key, a branch has seventeen items, and
a child of 32 bytes and more is replaced by its hash. What the methods that read a node see in
such a list is said here once.

## Main results

* `length_enc_le`: the encoding of such a tree can be read.
* `deref_on`: a child is found behind its item.
-/

namespace Tos.Trie

open List
open Sdag (H256)
open Method

open Sdag.Wire (hashBytes ofHashBytes ofHashBytes_hashBytes length_hashBytes)

open Rlp (Item encode encodeList)

open RLP (maxLength)

/-- The trees. -/
abbrev Node := Patricia.Node (Fin 16) Bytes

/-- How often byte strings occur. -/
abbrev Tally := Bytes → ℕ

variable (sha3 : Bytes → H256)

/-- The item for a child: the child, or its hash. -/
def ref (x : Item) : Item :=
  if (encode x).length < 32 then x else .data (hashBytes (sha3 (encode x)))

/-- A pair with a coded key. -/
def pair (leaf : Bool) (k : List (Fin 16)) (x : Item) : Item :=
  .list [.data (HexPrefix.encode leaf k), x]

/-- The seventeen items of a branch. -/
def places (f : Fin 16 → Item) (v : Option Bytes) : List Item :=
  List.ofFn f ++ [.data (v.getD [])]

/-- The item of a tree. -/
def item : Node → Item
  | .nil => .data []
  | .leaf k v => pair true k (.data v)
  | .ext k n => pair false k (ref sha3 (item n))
  | .branch c v => .list (places (fun i => ref sha3 (item (c i))) v)

/-- The items of the children of a branch. -/
abbrev refs (c : Fin 16 → Node) : Fin 16 → Item := fun i => ref sha3 (item sha3 (c i))

/-- The encoding of a tree. -/
def enc (n : Node) : Bytes := encode (item sha3 n)

/-- A byte string that is kept in the database if it is long enough. -/
def kept (s : Bytes) : Tally := if s.length < 32 then 0 else Pi.single s 1

/-- A node that is kept in the database. -/
def self (n : Node) : Tally := kept (enc sha3 n)

/-- The nodes below a node that are kept in the database. -/
def below : Node → Tally
  | .nil => 0
  | .leaf _ _ => 0
  | .ext _ n => self sha3 n + below n
  | .branch c _ => ∑ i, (self sha3 (c i) + below (c i))

/-- Keys and values are small enough, and no value is empty. -/
def Fits : Node → Prop
  | .nil => True
  | .leaf k v => k.length < 2 ^ 31 - 1 ∧ v.length < 2 ^ 62 ∧ v ≠ []
  | .ext k n => k.length < 2 ^ 31 - 1 ∧ Fits n
  | .branch c v => (∀ i, Fits (c i)) ∧ ∀ w ∈ v, w.length < 2 ^ 62 ∧ w ≠ []

variable {sha3}

/-! ### Sizes -/

variable {d : Bytes}

/-- A header has at most nine bytes. -/
lemma length_encode_data_le (h : d.length < 2 ^ 64) : (encode (.data d)).length ≤ d.length + 9 := by
  rw [Rlp.encode_data]
  exact Rlp.length_frame_le h

/-- The item of a child is short, however large the child is. -/
lemma length_encode_ref_le (x : Item) : (encode (ref sha3 x)).length ≤ 41 := by
  rw [ref]
  split_ifs with h
  · omega
  · have hle := length_encode_data_le (d := hashBytes (sha3 (encode x)))
      (by rw [length_hashBytes]; norm_num)
    rwa [length_hashBytes] at hle

/-- A coded key is half as long as the key. -/
lemma length_hexPrefix_le {leaf : Bool} {k : List (Fin 16)} (h : k.length < 2 ^ 31 - 1) :
    (HexPrefix.encode leaf k).length ≤ 2 ^ 30 := by
  rw [HexPrefix.length_encode]
  omega

/-- A pair can be read. -/
lemma length_encode_pair_le {leaf : Bool} {k : List (Fin 16)} (hk : k.length < 2 ^ 31 - 1)
    {x : Item} (hx : (encode x).length ≤ 2 ^ 63) : (encode (pair leaf k x)).length ≤ maxLength := by
  have hkey : (HexPrefix.encode leaf k).length ≤ 2 ^ 30 := length_hexPrefix_le hk
  have hdata := length_encode_data_le (d := HexPrefix.encode leaf k) (by omega)
  have hlist : (encodeList [.data (HexPrefix.encode leaf k), x]).length ≤ 2 ^ 30 + 9 + 2 ^ 63 := by
    rw [Rlp.encodeList_cons, Rlp.encodeList_cons, Rlp.encodeList_nil, append_nil,
      length_append]
    omega
  have hpair := Rlp.length_encode_list_le (hlist.trans_lt (by norm_num))
  have hmax : maxLength = 2 ^ 64 - 257 := rfl
  rw [pair]
  omega

/-- A pair with the item of a child can be read. -/
lemma length_encode_pair_ref_le {leaf : Bool} {k : List (Fin 16)} (hk : k.length < 2 ^ 31 - 1)
    (x : Item) : (encode (pair leaf k (ref sha3 x))).length ≤ maxLength :=
  length_encode_pair_le hk ((length_encode_ref_le x).trans (by norm_num))

/-- The items of a branch: sixteen short ones and the value. -/
lemma length_encodeList_places_le {f : Fin 16 → Item} (hf : ∀ i, (encode (f i)).length ≤ 41)
    {v : Option Bytes} (hv : ∀ w ∈ v, w.length < 2 ^ 62) :
    (encodeList (places f v)).length ≤ 2 ^ 63 := by
  have hvalue : (encode (.data (v.getD []))).length ≤ 2 ^ 62 + 9 := by
    have hlen : (v.getD []).length < 2 ^ 62 := by
      cases v with
      | none => simp
      | some w => exact hv w rfl
    have := length_encode_data_le (d := v.getD []) (by omega)
    omega
  have hitem : ∀ x ∈ List.ofFn f, (encode x).length ≤ 41 := by
    intro x hx
    obtain ⟨i, rfl⟩ := mem_ofFn.mp hx
    exact hf i
  have hall := Rlp.length_encodeList_le_mul hitem
  rw [length_ofFn] at hall
  rw [places, Rlp.encodeList_append, Rlp.encodeList_cons, Rlp.encodeList_nil, append_nil,
    length_append]
  omega

/-- A branch can be read. -/
lemma length_encode_places_le {f : Fin 16 → Item} (hf : ∀ i, (encode (f i)).length ≤ 41)
    {v : Option Bytes} (hv : ∀ w ∈ v, w.length < 2 ^ 62) :
    (encode (.list (places f v))).length ≤ maxLength := by
  have hle := length_encodeList_places_le hf hv
  have hlist := Rlp.length_encode_list_le (hle.trans_lt (by norm_num))
  have hmax : maxLength = 2 ^ 64 - 257 := rfl
  omega

variable {n : Node}

/-- The encoding of a tree that fits can be read. -/
lemma length_enc_le (h : Fits n) : (enc sha3 n).length ≤ maxLength := by
  cases n with
  | nil =>
    have hnil := length_encode_data_le (d := []) (by norm_num)
    exact hnil.trans (by norm_num [maxLength])
  | leaf k v =>
    have hv := length_encode_data_le (d := v) (lt_trans h.2.1 (by norm_num))
    exact length_encode_pair_le h.1 (by have := h.2.1; omega)
  | ext k n => exact length_encode_pair_ref_le h.1 _
  | branch c v =>
    exact length_encode_places_le (fun i => length_encode_ref_le _) fun w hw => (h.2 w hw).1

/-- The pair of a leaf that fits can be read back. -/
lemma Fits.length_leaf_le {k : List (Fin 16)} {v : Bytes} (h : Fits (.leaf k v)) :
    (encode (pair true k (.data v))).length ≤ maxLength :=
  @length_enc_le (fun _ => 0) _ h

variable (sha3) in
/-- The pair of an extension that fits can be read back. -/
lemma Fits.length_ext_le {k : List (Fin 16)} (h : Fits (.ext k n)) :
    (encode (pair false k (ref sha3 (item sha3 n)))).length ≤ maxLength := length_enc_le h

variable (sha3) in
/-- The seventeen places of a branch that fits can be read back. -/
lemma Fits.length_branch_le {c : Fin 16 → Node} {v : Option Bytes} (h : Fits (.branch c v)) :
    (encode (.list (places (refs sha3 c) v))).length ≤ maxLength := @length_enc_le sha3 _ h

/-! ### Running the methods that read -/

open GenericTrieDB (rlp assert assertNode isLeaf keyOfNode deref toHash ofNode)

variable {δ : Type} {t : GenericTrieDB δ}

/-- A call of the reader that succeeds. -/
lemma rlp_on {α : Type} {x : Except RlpError α} {a : α} (h : x = .ok a) :
    (rlp x : TrieM δ α).on t = (.ok a, t) := by rw [h]; rfl

/-- An assertion that holds. -/
lemma assert_on {c : Bool} (h : c = true) : (assert c).on t = (.ok (), t) := by
  rw [h]; rfl

/-- An item of a list. -/
lemma item_on {xs ys : List Item} {x : Item} {i : ℕ} (hx : xs.drop i = x :: ys)
    (h : (encode (.list xs)).length ≤ maxLength) (hi : i < 2 ^ 64 - 1) :
    (GenericTrieDB.item (encode (.list xs)) i).on t = (.ok (encode x), t) :=
  rlp_on (RLP.item_list hx h hi)

/-- The constructor accepts an encoding. -/
lemma ofNode_on {x : Item} (h : (encode x).length ≤ maxLength) :
    (ofNode (encode x)).on t = (.ok (encode x), t) :=
  rlp_on (RLP.ofBytes_encode h)

section Pair

variable {leaf : Bool} {k : List (Fin 16)} {x : Item}
  (h : (encode (pair leaf k x)).length ≤ maxLength)
include h

/-- The first item of a pair is the coded key. -/
lemma item_zero_on : (GenericTrieDB.item (encode (pair leaf k x)) 0).on t =
    (.ok (encode (.data (HexPrefix.encode leaf k))), t) :=
  item_on rfl h (by norm_num)

/-- The second item of a pair. -/
lemma item_one_on : (GenericTrieDB.item (encode (pair leaf k x)) 1).on t = (.ok (encode x), t) :=
  item_on rfl h (by norm_num)

/-- A pair has two items. -/
lemma itemCount_pair : RLP.itemCount (encode (pair leaf k x)) = .ok 2 := RLP.itemCount_list h

/-- The coded key behind its header. -/
lemma payload_key : RLP.payload (encode (.data (HexPrefix.encode leaf k))) =
    .ok (HexPrefix.encode leaf k) :=
  RLP.payload_encode
    ((Rlp.length_encode_le_of_mem_list (x := .data (HexPrefix.encode leaf k)) (by simp)).trans h)

/-- The key of a pair. -/
lemma keyOfNode_on : (keyOfNode (encode (pair leaf k x))).on t =
    (.ok (keyOf (HexPrefix.encode leaf k)), t) := by
  rw [keyOfNode, on_bind_of_ok (item_zero_on h), on_bind_of_ok
    (rlp_on (payload_key h))]
  rfl

/-- A pair is a list. -/
lemma isList_pair : RLP.isList (encode (pair leaf k x)) = true := RLP.isList_list h

/-- Whether a pair is a leaf is in its coded key. -/
lemma isLeaf_on : (isLeaf (encode (pair leaf k x))).on t = (.ok leaf, t) := by
  rw [isLeaf, on_bind_of_ok (rlp_on (itemCount_pair h)),
    on_bind_of_ok (assert_on (by rw [isList_pair h]; rfl)), on_bind_of_ok (item_zero_on h),
    on_bind_of_ok (rlp_on (payload_key h)), leafFlag_encode]
  rfl

/-- A pair is not empty. -/
lemma isEmpty_pair : RLP.isEmpty (encode (pair leaf k x)) = false := by
  rw [RLP.isEmpty_encode h, decide_eq_false_iff_not]
  change encodeList _ ≠ []
  simp

end Pair

section Places

variable (f : Fin 16 → Item) (v : Option Bytes)

/-- A branch has seventeen items. -/
@[simp] lemma length_places : (places f v).length = 17 := by simp [places]

/-- The first sixteen items of a branch are for the children. -/
lemma drop_places (i : Fin 16) : ∃ ys, (places f v).drop i = f i :: ys := by
  have hi : (i : ℕ) < (places f v).length := by rw [length_places]; omega
  refine ⟨(places f v).drop (i + 1), ?_⟩
  have hget : (places f v)[(i : ℕ)] = f i := by
    simp only [places]
    rw [getElem_append_left (by simp), List.getElem_ofFn]
  rw [drop_eq_getElem_cons hi, hget]

/-- The last item of a branch is the value. -/
lemma drop_places_value : (places f v).drop 16 = [.data (v.getD [])] := by
  rw [places, drop_append_of_le_length (by simp), drop_of_length_le (by simp),
    nil_append]

variable {f v} (h : (encode (.list (places f v))).length ≤ maxLength)
include h

/-- A branch has seventeen items for the reader. -/
lemma itemCount_places : RLP.itemCount (encode (.list (places f v))) = .ok 17 := by
  rw [RLP.itemCount_list h, length_places]

/-- The item of a child. -/
lemma item_place_on (i : Fin 16) :
    (GenericTrieDB.item (encode (.list (places f v))) i).on t =
      (.ok (encode (f i)), t) := by
  obtain ⟨ys, hys⟩ := drop_places f v i
  exact item_on hys h (by omega)

/-- The item of the value. -/
lemma item_value_on :
    (GenericTrieDB.item (encode (.list (places f v))) 16).on t =
      (.ok (encode (.data (v.getD []))), t) :=
  item_on (drop_places_value f v) h (by norm_num)

/-- A branch is not empty. -/
lemma isEmpty_places : RLP.isEmpty (encode (.list (places f v))) = false := by
  rw [RLP.isEmpty_encode h, decide_eq_false_iff_not]
  change encodeList _ ≠ []
  rw [places, Rlp.encodeList_append]
  simp

end Places

/-- A list of two or seventeen items is taken for a node. -/
lemma assertNode_on {xs : List Item} (h : (encode (.list xs)).length ≤ maxLength) {n : ℕ}
    (hn : n = 2 ∨ n = 17) : (assertNode (encode (.list xs)) n).on t = (.ok (), t) := by
  refine assert_on ?_
  rw [RLP.isList_list h]
  rcases hn with rfl | rfl <;> rfl

/-! ### Children -/

/-- A tree that is not empty is a list. -/
lemma exists_item_list (h : n ≠ .nil) : ∃ xs, item sha3 n = .list xs ∧ xs ≠ [] := by
  cases n with
  | nil => exact absurd rfl h
  | leaf k v => exact ⟨_, rfl, by simp⟩
  | ext k n => exact ⟨_, rfl, by simp⟩
  | branch c v => exact ⟨_, rfl, by simp [places]⟩

/-- A short child stands in its parent. -/
lemma ref_of_lt {x : Item} (h : (encode x).length < 32) : ref sha3 x = x := if_pos h

/-- A long child is replaced by its hash. -/
lemma ref_of_ge {x : Item} (h : ¬ (encode x).length < 32) :
    ref sha3 x = .data (hashBytes (sha3 (encode x))) := if_neg h

/-- The item of a short child is its encoding. -/
lemma encode_ref_of_lt (h : (enc sha3 n).length < 32) :
    encode (ref sha3 (item sha3 n)) = enc sha3 n := by rw [ref_of_lt h, enc]

/-- The item of a long child is its hash. -/
lemma encode_ref_of_ge (h : ¬ (enc sha3 n).length < 32) :
    encode (ref sha3 (item sha3 n)) = encode (.data (hashBytes (sha3 (enc sha3 n)))) := by
  rw [ref_of_ge h, enc]

/-- The constructor accepts a tree. -/
lemma ofNode_enc_on (hn : Fits n) : (ofNode (enc sha3 n)).on t = (.ok (enc sha3 n), t) :=
  ofNode_on (length_enc_le hn)

/-- The item of a child can be read. -/
lemma length_encode_ref_le_max (x : Item) : (encode (ref sha3 x)).length ≤ maxLength :=
  (length_encode_ref_le x).trans (by norm_num [maxLength])

/-- The item of a child is empty when the child is.

**Proof sketch.** A tree that is not empty is a list with items, so its item is that list or 32
bytes of a hash. -/
lemma isEmpty_ref : RLP.isEmpty (encode (ref sha3 (item sha3 n))) = true ↔ n = .nil := by
  rw [RLP.isEmpty_encode (length_encode_ref_le_max _), decide_eq_true_iff]
  constructor
  · intro h
    by_contra hne
    obtain ⟨xs, hxs, hnil⟩ := @exists_item_list sha3 _ hne
    by_cases hlt : (encode (item sha3 n)).length < 32
    · rw [ref_of_lt hlt, hxs] at h
      obtain ⟨x, ys, rfl⟩ := exists_cons_of_ne_nil hnil
      change encodeList (x :: ys) = [] at h
      simp at h
    · rw [ref_of_ge hlt] at h
      have hlen := congrArg List.length h
      change (hashBytes _).length = 0 at hlen
      rw [length_hashBytes] at hlen
      omega
  · rintro rfl
    have hlt : (encode (item sha3 .nil)).length < 32 := by
      simp only [item, Rlp.encode_data]
      decide
    rw [ref_of_lt hlt]
    rfl

/-- A hash is read back. -/
lemma toHash_on (h : H256) : (toHash (encode (.data (hashBytes h)))).on t = (.ok h, t) := by
  have hhash : RLP.toHash 32 (encode (.data (hashBytes h))) RLP.Strict = .ok (hashBytes h) := by
    have hlen := length_hashBytes h
    have hp : (hashBytes h).length < maxLength := by
      rw [hlen]
      norm_num [maxLength]
    have hframe : RLP.toHash 32 (Rlp.frame .data (hashBytes h) ++ []) RLP.Strict =
        .ok (hashBytes h) := (RLP.toHash_frame_eq_ok hp []).mpr ⟨hlen.le, by simp [hlen]⟩
    rwa [append_nil, ← Rlp.encode_data] at hframe
  rw [toHash, on_bind_of_ok (rlp_on hhash), ofHashBytes_hashBytes]
  rfl

/-- The item of a hash can be read. -/
lemma length_encode_hash_le (h : H256) : (encode (.data (hashBytes h))).length ≤ maxLength := by
  have hle := length_encode_data_le (d := hashBytes h) (by rw [length_hashBytes]; norm_num)
  rw [length_hashBytes] at hle
  exact hle.trans (by norm_num [maxLength])

/-- A hash is not a list. -/
lemma isList_hash (h : H256) : RLP.isList (encode (.data (hashBytes h))) = false := by
  rw [RLP.isList_encode (length_encode_hash_le h)]
  rfl

/-- A tree is a list. -/
lemma isList_enc (h : n ≠ .nil) (hn : Fits n) : RLP.isList (enc sha3 n) = true := by
  obtain ⟨xs, hxs, -⟩ := @exists_item_list sha3 _ h
  have hlen := @length_enc_le sha3 _ hn
  rw [enc, hxs] at hlen ⊢
  exact RLP.isList_list hlen

/-- **A child** is found behind its item, if it is in the database when it should be.

**Proof sketch.** A short child is a list and is the item itself. The item of a long one is data:
its hash is read back, the database has the child there, and the child can be read. -/
lemma deref_on [NodeDB δ] (hne : n ≠ .nil) (hn : Fits n)
    (hdb : ¬ (enc sha3 n).length < 32 → NodeDB.lookup t.m_db (sha3 (enc sha3 n)) = enc sha3 n) :
    (deref (encode (ref sha3 (item sha3 n)))).on t = (.ok (enc sha3 n), t) := by
  by_cases hlt : (enc sha3 n).length < 32
  · rw [encode_ref_of_lt hlt, deref, if_pos (isList_enc hne hn)]
    rfl
  · have hnode : (GenericTrieDB.node (sha3 (enc sha3 n))).on t =
        (.ok (enc sha3 n), t) := by
      rw [GenericTrieDB.node, on_get_bind, hdb hlt]
      rfl
    rw [encode_ref_of_ge hlt, deref, isList_hash, if_neg (by simp),
      on_bind_of_ok (toHash_on _), on_bind_of_ok hnode, ofNode_enc_on hn]

/-! ### Running the methods that write -/

section Write

open GenericTrieDB (newList appendItem pairOf)

open RLPStream (upTo)

variable {xs ys : List Item} {x : Item} {i : ℕ}

/-- A list for a pair is opened. -/
lemma newList_pair_on (leaf : Bool) (k : List (Fin 16)) (x : Item) :
    (newList 2).on t = (.ok (upTo [.data (HexPrefix.encode leaf k), x] 0), t) :=
  rlp_on (RLPStream.appendList_upTo (cons_ne_nil _ [x]))

/-- A list for a branch is opened. -/
lemma newList_places_on (f : Fin 16 → Item) (v : Option Bytes) :
    (newList 17).on t = (.ok (upTo (places f v) 0), t) := by
  rw [← length_places f v]
  exact rlp_on (RLPStream.appendList_upTo (by simp [places]))

/-- The items of a list that can be read fit in a stream. -/
lemma length_encodeList_lt (h : (encode (.list xs)).length ≤ maxLength) :
    (encodeList xs).length < 2 ^ 64 := by
  have hmax : maxLength = 2 ^ 64 - 257 := rfl
  have hle := Rlp.length_encodeList_le xs
  omega

/-- The next item is written as data. -/
lemma append_on (hx : xs.drop i = .data d :: ys) (h : (encode (.list xs)).length ≤ maxLength) :
    (rlp ((upTo xs i).append d)).on t = (.ok (upTo xs (i + 1)), t) := by
  have hd : d.length < 2 ^ 64 := by
    have hmax : maxLength = 2 ^ 64 - 257 := rfl
    have hmem : Item.data d ∈ xs := mem_of_mem_drop (by rw [hx]; exact mem_cons_self)
    have hle := (Rlp.length_encode_le_of_mem_list hmem).trans h
    have hframe := Rlp.length_le_length_frame .data d
    rw [Rlp.encode_data] at hle
    omega
  exact rlp_on ((RLPStream.appends_append hd).upTo hx (length_encodeList_lt h))

/-- The next item is copied. -/
lemma appendRaw_on (hx : xs.drop i = x :: ys) (h : (encode (.list xs)).length ≤ maxLength) :
    (rlp ((upTo xs i).appendRaw (encode x) 1)).on t =
      (.ok (upTo xs (i + 1)), t) :=
  rlp_on ((RLPStream.appends_appendRaw x).upTo hx (length_encodeList_lt h))

/-- The next item is read elsewhere and copied. -/
lemma appendItem_on_of {j : ℕ} (hitem : (GenericTrieDB.item d j).on t = (.ok (encode x), t))
    (hx : xs.drop i = x :: ys) (h : (encode (.list xs)).length ≤ maxLength) :
    (appendItem d (upTo xs i) j).on t = (.ok (upTo xs (i + 1)), t) := by
  rw [appendItem, on_bind_of_ok hitem]
  exact appendRaw_on hx h

/-- An item of one list is written to another one. -/
lemma appendItem_on {zs ws : List Item} (hz : zs.drop i = x :: ws)
    (hzs : (encode (.list zs)).length ≤ maxLength) (hx : xs.drop i = x :: ys)
    (h : (encode (.list xs)).length ≤ maxLength) (hi : i < 2 ^ 64 - 1) :
    (appendItem (encode (.list zs)) (upTo xs i) i).on t =
      (.ok (upTo xs (i + 1)), t) :=
  appendItem_on_of (item_on hz hzs hi) hx h

/-- The output after the last item. -/
lemma out_on {n : ℕ} (hn : xs.length = n) :
    (rlp (upTo xs n).out).on t = (.ok (encode (.list xs)), t) := by
  rw [← hn]
  exact rlp_on (RLPStream.out_upTo xs)

/-- A pair is written. -/
lemma pairOf_on {leaf : Bool} {k : List (Fin 16)}
    (h : (encode (pair leaf k x)).length ≤ maxLength) :
    (pairOf (HexPrefix.encode leaf k) (encode x)).on t =
      (.ok (encode (pair leaf k x)), t) := by
  rw [pairOf, on_bind_of_ok (newList_pair_on leaf k x), on_bind_of_ok (append_on rfl h),
    on_bind_of_ok (appendRaw_on rfl h)]
  exact out_on rfl

/-- A loop that writes the items of a list. -/
lemma foldlM_on {f : RLPStream → ℕ → TrieM δ RLPStream} {n : ℕ}
    (h : ∀ j, i ≤ j → j < i + n → (f (upTo xs j) j).on t = (.ok (upTo xs (j + 1)), t)) :
    ((List.range' i n).foldlM f (upTo xs i)).on t = (.ok (upTo xs (i + n)), t) := by
  induction n generalizing i with
  | zero => rfl
  | succ n ih =>
    rw [List.range'_succ, foldlM_cons,
      on_bind_of_ok (h i le_rfl (by omega)),
      ih fun j hj hjn => h j (by omega) (by omega), Nat.add_right_comm, Nat.add_assoc]

end Write

end Tos.Trie
