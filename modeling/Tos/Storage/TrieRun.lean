import Tos.Storage.TrieLookup
import Tos.Storage.TrieRemove

/-!
# Runs of the trie

Sequences of insertions and removals on a trie that was started with `init`. A trie stands for a
canonical tree: its root is the hash of the tree's encoding and its database holds the nodes of
the tree. Every operation takes a trie that stands for a tree to one that stands for the tree
after the operation, if no key is in front of another one.

## Main results

* `Trie.insert_runs`, `Trie.remove_runs`: one operation.
* `Trie.run_runs`: a run.
* `Trie.lookup_treeOf`: the tree after a run has the words and values of the map.
-/

namespace Tos

open List
open Sdag (H256)
open Method

/-- An operation of a trie. -/
inductive TrieOp where
  | insert (key value : Bytes)
  | remove (key : Bytes)
  deriving DecidableEq

namespace TrieOp

def key : TrieOp → Bytes
  | insert k _ => k
  | remove k => k

/-- The call of the operation. -/
def call {δ : Type} [NodeDB δ] (sha3 : Bytes → H256) (fuel : ℕ) : TrieOp → TrieM δ Unit
  | insert k v => GenericTrieDB.insert sha3 fuel k v
  | remove k => GenericTrieDB.remove sha3 fuel k

/-- Calls one after the other. -/
def calls {δ : Type} [NodeDB δ] (sha3 : Bytes → H256) (fuel : ℕ) : List TrieOp → TrieM δ Unit
  | [] => pure ()
  | op :: ops => do
    op.call sha3 fuel
    calls sha3 fuel ops

/-- Calls on a trie that was started with `init`. -/
def run {δ : Type} [NodeDB δ] (sha3 : Bytes → H256) (fuel : ℕ) (ops : List TrieOp) :
    TrieM δ Unit := do
  GenericTrieDB.init sha3 fuel
  calls sha3 fuel ops

/-- What the operation should do to a map. -/
def edit (f : Bytes → Option Bytes) : TrieOp → Bytes → Option Bytes
  | insert k v => Function.update f k (some v)
  | remove k => Function.update f k none

/-- The map that a run should leave. -/
def contents (ops : List TrieOp) : Bytes → Option Bytes := ops.foldl edit fun _ => none

/-- Key and value are small enough, and the value is not empty. -/
def Small : TrieOp → Prop
  | insert k v => k.length < 2 ^ 30 ∧ v.length < 2 ^ 62 ∧ v ≠ []
  | remove k => k.length < 2 ^ 30

lemma Small.length_key {op : TrieOp} (h : op.Small) : op.key.length < 2 ^ 30 := by
  cases op with
  | insert k v => exact h.1
  | remove k => exact h

end TrieOp

namespace Trie

open Rlp (Item encode)

open GenericTrieDB hiding item insert

open HexPrefix (length_nibbles nibbles)

open Patricia.Node (Canon delete_eq_none_iff lookup_delete lookup_insert)

variable {δ : Type} [NodeDB δ] {sha3 : Bytes → H256} {W : Set Bytes} (K : Keeper δ sha3 W)
  {t : GenericTrieDB δ} {m : Node} {M : Tally} {key v : Bytes} {fuel : ℕ}

/-! ### The root -/

/-- The nodes of a trie that are kept in the database: the root always is. -/
def stored (sha3 : Bytes → H256) (m : Node) : Tally := Pi.single (enc sha3 m) 1 + below sha3 m

/-- A trie stands for a tree. -/
structure Stands (t : GenericTrieDB δ) (m : Node) : Prop where
  canon : Canon m
  small : Small m
  root : t.m_root = sha3 (enc sha3 m)
  holds : K.Holds t.m_db (stored sha3 m)

/-- What keeps the root in the database if it is too short for a node. -/
def rootFrame (sha3 : Bytes → H256) (m : Node) : Tally :=
  if (enc sha3 m).length < 32 then Pi.single (enc sha3 m) 1 else 0

lemma stored_eq (m : Node) : stored sha3 m = self sha3 m + below sha3 m + rootFrame sha3 m := by
  rw [stored, rootFrame, self, kept]
  split_ifs
  · rw [zero_add, add_comm]
  · rw [add_zero]

lemma killSmallRoot_on (h : K.Holds t.m_db (rootFrame sha3 m + M))
    (hk : (enc sha3 m).length < 32 → K.KillOk (Pi.single (enc sha3 m) 1 + M)) :
    ∃ d, (killSmallRoot (enc sha3 m) (sha3 (enc sha3 m))).on t =
      (.ok (), { t with m_db := d }) ∧ K.Holds d M := by
  by_cases hlt : (enc sha3 m).length < 32
  · rw [rootFrame, if_pos hlt] at h
    rw [killSmallRoot, if_pos hlt]
    exact forceKillNode_on K h (hk hlt)
  · rw [rootFrame, if_neg hlt, zero_add] at h
    rw [killSmallRoot, if_neg hlt]
    exact ⟨t.m_db, rfl, h⟩

/-- A new root. -/
lemma replaceRoot_runs (hc : Canon m) (hs : Small m) (hplan : enc sha3 m ∈ K.plan)
    (h : K.Holds t.m_db (below sha3 m)) :
    Runs K (replaceRoot sha3 (enc sha3 m)) t fun _ t' => Stands K t' m := by
  obtain ⟨t', hon, hlog, ht'⟩ := forceInsertNode_on K (s := enc sha3 m) h
  have hroot : (replaceRoot sha3 (enc sha3 m)).on t =
      (.ok (), { t' with m_root := sha3 (enc sha3 m) }) := on_bind_of_ok hon
  exact .of_log hroot hlog hplan fun hw => ⟨hc, hs, rfl, ht' hw⟩

lemma stored_root_pos (m : Node) : 0 < stored sha3 m (enc sha3 m) := by
  rw [stored, Pi.add_apply, Pi.single_eq_same]
  exact Nat.add_pos_left Nat.one_pos _

lemma Stands.node_on (h : Stands K t m) : (node t.m_root).on t = (.ok (enc sha3 m), t) := by
  rw [node, on_get_bind, h.root, K.lookup h.holds (stored_root_pos m)]
  rfl

lemma valid_slice (hkey : key.length < 2 ^ 30) : (NibbleSlice.mk key 0).Valid :=
  ⟨by change 2 * key.length ≤ 2 ^ 31; omega, Nat.zero_le _⟩

lemma word_slice (key : Bytes) : (NibbleSlice.mk key 0).word = nibbles key := rfl

/-! ### One operation -/

/-- The frame of `insert` around `mergeAt`: the old root is given back, and the new one put in its
place. -/
lemma insert_runs_of {m' : Node} (h : Stands K t m) (hc : Canon m') (hs : Small m')
    (hmerge : Merges K v fuel ⟨key, 0⟩ m (rootFrame sha3 m) m') (hroot : (enc sha3 m).length < 32 →
      K.KillOk (Pi.single (enc sha3 m) 1 + below sha3 m'))
    (hplan : Within K.plan (stored sha3 m')) :
    Runs K (GenericTrieDB.insert sha3 fuel key v) t
      fun _ t' => Stands K t' m' := by
  have hholds := h.holds
  rw [stored_eq] at hholds
  have hassert : ((enc sha3 m).length != 0) = true := by
    rw [bne_iff_ne]
    exact (Rlp.length_encode_pos _).ne'
  refine .step (on_get) (.step (h.node_on K) (.step (assert_on hassert)
    (.step (ofNode_enc_on (h.small.fits h.canon)) ?_)))
  rw [h.root]
  refine (hmerge false t (by simp) hholds (hplan.mono fun s => Nat.le_add_left _ _)).bind ?_
  rintro _ t' ⟨rfl, ht'⟩
  rw [add_comm] at ht'
  obtain ⟨d, hon, hd⟩ := killSmallRoot_on K ht' hroot
  exact .change hon rfl (replaceRoot_runs K hc hs (hplan _ (stored_root_pos _)) hd)

/-- **An insertion** takes a trie that stands for a tree to one that stands for the tree with the
key and its value. -/
theorem insert_runs (h : Stands K t m) (hkey : key.length < 2 ^ 30) (hv : v.length < 2 ^ 62)
    (hne : v ≠ []) (hlast : K.Lax ∨ Last m (nibbles key)) (hfuel : 2 * key.length + 5 ≤ fuel)
    (hk : K.KillOk (stored sha3 m + extra sha3 m (nibbles key))) (hroot : (enc sha3 m).length < 32 →
      K.KillOk (Pi.single (enc sha3 m) 1 + below sha3 (m.insert (nibbles key) v)))
    (hextra : Within K.plan (extra sha3 m (nibbles key)))
    (hplan : Within K.plan (stored sha3 (m.insert (nibbles key) v))) :
    Runs K (GenericTrieDB.insert sha3 fuel key v) t
      fun _ t' => Stands K t' (m.insert (nibbles key) v) := by
  have hlen : (nibbles key).length < 2 ^ 31 - 1 := by
    rw [length_nibbles]
    omega
  have hfuel' : (nibbles key).length + 5 ≤ fuel := by rwa [length_nibbles]
  rw [stored_eq] at hk
  exact insert_runs_of K h (h.canon.insert _ _) (h.small.insert hlen hv hne)
    (mergeAt_spec K h.canon h.small hlen hv hlast hfuel' (valid_slice hkey) (word_slice key) hk
      hextra) hroot hplan

/-- **A removal** of a key that is not there changes nothing. -/
theorem remove_absent (h : Stands K t m) (hkey : key.length < 2 ^ 30)
    (hfirst : First m (nibbles key)) (hlast : Last m (nibbles key))
    (hnone : m.lookup (nibbles key) = none) (hfuel : 2 * key.length + 1 ≤ fuel) :
    (GenericTrieDB.remove sha3 fuel key).on t = (.ok (), t) := by
  have hfuel' : (nibbles key).length + 1 ≤ fuel := by rwa [length_nibbles]
  have hholds := h.holds
  rw [stored_eq] at hholds
  have hdelete := deleteAt_absent K h.canon h.small hfirst hlast hnone hfuel' (valid_slice hkey)
    (word_slice key) hholds
  rw [GenericTrieDB.remove, on_get_bind, on_bind_of_ok (h.node_on K),
    on_bind_of_ok (ofNode_enc_on (h.small.fits h.canon)), on_bind_of_ok hdelete]
  rfl

/-- The frame of `remove` around `deleteAt`. -/
lemma remove_runs_of {m' : Node} (h : Stands K t m) (hc : Canon m') (hs : Small m')
    (hdelete : Runs K (deleteAt sha3 fuel (enc sha3 m) ⟨key, 0⟩) t
      fun b t' => b = enc sha3 m' ∧ K.Holds t'.m_db (below sha3 m' + rootFrame sha3 m))
    (hroot : (enc sha3 m).length < 32 →
      K.KillOk (Pi.single (enc sha3 m) 1 + below sha3 m')) (hplan : enc sha3 m' ∈ K.plan) :
    Runs K (GenericTrieDB.remove sha3 fuel key) t
      fun _ t' => Stands K t' m' := by
  refine .step (on_get) (.step (h.node_on K)
    (.step (ofNode_enc_on (h.small.fits h.canon)) ?_))
  refine hdelete.bind ?_
  rintro _ t' ⟨rfl, ht'⟩
  have hpos : (enc sha3 m').length ≠ 0 := (Rlp.length_encode_pos _).ne'
  rw [add_comm] at ht'
  rw [if_pos hpos, h.root]
  obtain ⟨d, hon, hd⟩ := killSmallRoot_on K ht' hroot
  exact .change hon rfl (replaceRoot_runs K hc hs hplan hd)

/-- **A removal** takes a trie that stands for a tree to one that stands for the tree without the
key. -/
theorem remove_runs {m' : Node} (h : Stands K t m) (hkey : key.length < 2 ^ 30)
    (hfirst : First m (nibbles key)) (hlast : Last m (nibbles key))
    (hdel : m.delete (nibbles key) = some m') (hfuel : 2 * key.length + 1 ≤ fuel)
    (hk : K.KillOk (stored sha3 m + below sha3 m' + 1)) (hplan : ∀ s, s ∈ K.plan) :
    Runs K (GenericTrieDB.remove sha3 fuel key) t
      fun _ t' => Stands K t' m' := by
  have hfuel' : (nibbles key).length + 1 ≤ fuel := by rwa [length_nibbles]
  have hholds := h.holds
  rw [stored_eq] at hholds hk
  refine remove_runs_of K h (h.canon.delete hdel) (h.small.delete hdel)
    (deleteAt_spec K h.canon h.small hfirst hlast hdel hfuel' (valid_slice hkey)
      (word_slice key) hholds hk hplan) (fun hlt => K.killOk_mono (fun s => ?_) hk) (hplan _)
  rw [rootFrame, if_pos hlt]
  simp only [Pi.add_apply, Pi.one_apply]
  omega

/-- `root` gives the hash of the tree. -/
lemma root_on (h : Stands K t m) : (GenericTrieDB.root).on t = (.ok t.m_root, t) := by
  have hpos : (enc sha3 m).length ≠ 0 := (Rlp.length_encode_pos _).ne'
  rw [GenericTrieDB.root, on_get_bind, on_bind_of_ok (h.node_on K), if_neg hpos]
  rfl

/-- A root that is in the database can be set. -/
lemma setRoot_on {r : H256} (h : Stands K { t with m_root := r } m) :
    (setRoot sha3 (fuel + 1) r).on t = (.ok (), { t with m_root := r }) := by
  have hhas : NodeDB.hasNode t.m_db r = true := by
    have hroot : r = sha3 (enc sha3 m) := h.root
    rw [hroot]
    exact K.hasNode h.holds (stored_root_pos m)
  have hpos : (enc sha3 m).length ≠ 0 := (Rlp.length_encode_pos _).ne'
  rw [setRoot, on_modify_bind, on_get_bind, if_neg (by simp [hhas]),
    setRoot.requireRoot, on_get_bind, on_bind_of_ok (h.node_on K), if_neg hpos]
  rfl

/-- `init` on a database that holds nothing. -/
lemma init_runs (h : K.Holds t.m_db 0) (hfuel : 1 ≤ fuel) (hplan : RLPNull ∈ K.plan) :
    Runs K (GenericTrieDB.init sha3 fuel) t fun _ t' => Stands K t' .nil := by
  obtain _ | fuel := fuel
  · omega
  obtain ⟨t', hon, hlog, ht'⟩ := forceInsertNode_on K (s := RLPNull) h
  have hinsert : Runs K (forceInsertNode sha3 RLPNull) t fun r t' =>
      r = sha3 RLPNull ∧ K.Holds t'.m_db (stored sha3 .nil) :=
    .of_log hon hlog hplan fun hw => ⟨rfl, ht' hw⟩
  refine hinsert.bind ?_
  rintro _ t₁ ⟨rfl, h₁⟩
  have hstands : Stands K { t₁ with m_root := sha3 RLPNull } .nil :=
    ⟨.nil, by intro x v hx; simp at hx, rfl, h₁⟩
  refine .change (setRoot_on K hstands) rfl (.step on_get (.step (hstands.node_on K) ?_))
  exact .of_on (assert_on rfl) rfl hstands

/-! ### Keys of which none is in front of another -/

/-- None of the keys is a proper prefix of another one. -/
def PrefixFree (S : Set Bytes) : Prop := ∀ k ∈ S, ∀ l ∈ S, ∀ x, l = k ++ x → x = []

/-- The words of a tree are those of some of the keys. -/
def Over (S : Set Bytes) (m : Node) : Prop := ∀ x, m.lookup x ≠ none → ∃ k ∈ S, x = nibbles k

/-- Where the nibbles of a key go on to those of another one, the key does. -/
lemma exists_append_of_nibbles {k l : Bytes} {x : List (Fin 16)} (h : nibbles k ++ x = nibbles l) :
    ∃ y, l = k ++ y ∧ x = nibbles y := by
  induction k generalizing l with
  | nil => exact ⟨l, rfl, h⟩
  | cons b k ih =>
    cases l with
    | nil => simp [nibbles] at h
    | cons c l =>
      simp only [nibbles, cons_append, List.cons.injEq] at h
      obtain ⟨hhigh, hlow, h⟩ := h
      obtain ⟨y, rfl, hy⟩ := ih h
      have hbc : nibbles [b] = nibbles [c] := by simp [nibbles, hhigh, hlow]
      obtain rfl : b = c := by simpa using HexPrefix.nibbles_injective hbc
      exact ⟨y, rfl, hy⟩

variable {S : Set Bytes}

lemma Over.last (h : Over S m) (hS : PrefixFree S) (hkey : key ∈ S) : Last m (nibbles key) := by
  intro x hx
  obtain ⟨l, hl, hxl⟩ := h _ hx
  obtain ⟨y, rfl, rfl⟩ := exists_append_of_nibbles hxl
  rw [hS key hkey _ hl y rfl]
  rfl

lemma Over.first (h : Over S m) (hS : PrefixFree S) (hkey : key ∈ S) : First m (nibbles key) := by
  intro x y hxy hx
  obtain ⟨l, hl, rfl⟩ := h _ hx
  obtain ⟨z, rfl, rfl⟩ := exists_append_of_nibbles hxy.symm
  rw [hS l hl _ hkey z rfl]
  rfl

lemma Over.insert (h : Over S m) (hkey : key ∈ S) (v : Bytes) :
    Over S (m.insert (nibbles key) v) := by
  intro x hx
  rw [lookup_insert] at hx
  split_ifs at hx with hxk
  · exact ⟨key, hkey, hxk⟩
  · exact h x hx

lemma Over.delete {m' : Node} (h : Over S m) {l : List (Fin 16)} (hd : m.delete l = some m') :
    Over S m' := by
  intro x hx
  rw [lookup_delete hd] at hx
  split_ifs at hx
  · exact absurd rfl hx
  · exact h x hx

/-! ### Runs -/

/-- What an operation does to a tree. -/
noncomputable def act (m : Node) : TrieOp → Node
  | .insert k v => m.insert (nibbles k) v
  | .remove k => (m.delete (nibbles k)).getD m

/-- The tree after a run. -/
noncomputable def treeOf (ops : List TrieOp) : Node := ops.foldl act .nil

lemma lookup_act (m : Node) (op : TrieOp) (k : Bytes) :
    (act m op).lookup (nibbles k) = op.edit (fun k => m.lookup (nibbles k)) k := by
  have hk : ∀ l : Bytes, nibbles k = nibbles l ↔ k = l :=
    fun l => HexPrefix.nibbles_injective.eq_iff
  cases op with
  | insert l v => simp only [act, TrieOp.edit, lookup_insert, Function.update_apply, hk]
  | remove l =>
    rw [act, TrieOp.edit, Function.update_apply]
    cases hd : m.delete (nibbles l) with
    | none =>
      have hnone := (delete_eq_none_iff m (nibbles l)).mp hd
      split_ifs with hkl
      · rw [hkl]
        exact hnone
      · rfl
    | some m' =>
      rw [Option.getD_some, lookup_delete hd]
      simp only [hk]

lemma lookup_foldl_act (ops : List TrieOp) (m : Node) (k : Bytes) :
    (ops.foldl act m).lookup (nibbles k) =
      ops.foldl TrieOp.edit (fun k => m.lookup (nibbles k)) k := by
  induction ops generalizing m with
  | nil => rfl
  | cons op ops ih =>
    rw [foldl_cons, foldl_cons, ih, funext (lookup_act m op)]

/-- **The tree after a run** has the keys and values of the map. -/
theorem lookup_treeOf (ops : List TrieOp) (k : Bytes) :
    (treeOf ops).lookup (nibbles k) = TrieOp.contents ops k :=
  lookup_foldl_act ops .nil k

lemma Over.act (h : Over S m) {op : TrieOp} (hkey : op.key ∈ S) : Over S (act m op) := by
  cases op with
  | insert k v => exact h.insert hkey v
  | remove k =>
    rw [Trie.act]
    cases hd : m.delete (nibbles k) with
    | none => exact h
    | some m' => exact h.delete hd

/-- With the nodes before and after an operation held, nodes can be given back, and what the
operation writes is in the plan. A removal needs everything to be in the plan. -/
def Allows (m : Node) : TrieOp → Prop
  | .insert k v => K.KillOk (stored sha3 m + extra sha3 m (nibbles k)) ∧
    ((enc sha3 m).length < 32 →
      K.KillOk (Pi.single (enc sha3 m) 1 + below sha3 (m.insert (nibbles k) v))) ∧
    Within K.plan (extra sha3 m (nibbles k)) ∧
    Within K.plan (stored sha3 (m.insert (nibbles k) v))
  | .remove k => (∀ m', m.delete (nibbles k) = some m' →
    K.KillOk (stored sha3 m + below sha3 m' + 1)) ∧ ∀ s, s ∈ K.plan

lemma allows_of_killOk (hkill : ∀ B, K.KillOk B) (hplan : ∀ s, s ∈ K.plan) (m : Node)
    (op : TrieOp) : Allows K m op := by
  cases op with
  | insert k v => exact ⟨hkill _, fun _ => hkill _, fun s _ => hplan s, fun s _ => hplan s⟩
  | remove k => exact ⟨fun _ _ => hkill _, hplan⟩

/-- With few positions of every node before and after an operation, nodes can be given back where
that needs a bound of `2 ^ 32`. -/
lemma allows_of_few (hkill : ∀ B : Tally, (∀ s, B s < 2 ^ 32) → K.KillOk B)
    (hplan : ∀ s, s ∈ K.plan) {op : TrieOp} (hm : ∀ s, stored sha3 m s < 2 ^ 31)
    (hm' : ∀ s, stored sha3 (act m op) s < 2 ^ 31) : Allows K m op := by
  have hbelow : ∀ m s, below sha3 m s ≤ stored sha3 m s := fun m s => Nat.le_add_left _ _
  cases op with
  | insert k v =>
    refine ⟨hkill _ fun s => ?_, fun _ => hkill _ fun s => ?_, fun s _ => hplan s,
      fun s _ => hplan s⟩
    · have h₁ := hm s
      have h₂ : extra sha3 m (nibbles k) s ≤ 1 := extra_le_one m _ s
      rw [Pi.add_apply]
      omega
    · have h₁ := (hbelow _ s).trans_lt (hm' s)
      have h₂ : (Pi.single (enc sha3 m) 1 : Tally) s ≤ stored sha3 m s := Nat.le_add_right _ _
      have h₃ := hm s
      rw [act] at h₁
      rw [Pi.add_apply]
      omega
  | remove k =>
    refine ⟨fun m' hd => hkill _ fun s => ?_, hplan⟩
    have h₁ := hm s
    have h₂ := (hbelow _ s).trans_lt (hm' s)
    rw [act, hd, Option.getD_some] at h₂
    simp only [Pi.add_apply, Pi.one_apply]
    omega

/-- **One operation**, on keys of which none is in front of another. -/
theorem call_runs (hS : PrefixFree S) (h : Stands K t m) (hm : Over S m) {op : TrieOp}
    (hkey : op.key ∈ S) (hsmall : op.Small) (hfuel : 2 * op.key.length + 5 ≤ fuel)
    (hk : Allows K m op) : Runs K (op.call sha3 fuel) t fun _ t' => Stands K t' (act m op) := by
  cases op with
  | insert k v =>
    exact insert_runs K h hsmall.1 hsmall.2.1 hsmall.2.2 (Or.inr (hm.last hS hkey)) hfuel hk.1
      hk.2.1 hk.2.2.1 hk.2.2.2
  | remove k =>
    have hfuel' : 2 * k.length + 1 ≤ fuel := le_trans (by simp [TrieOp.key]) hfuel
    rw [act]
    cases hd : m.delete (nibbles k) with
    | none =>
      have hnone := (delete_eq_none_iff m _).mp hd
      exact .of_on (remove_absent K h hsmall (hm.first hS hkey) (hm.last hS hkey) hnone hfuel')
        rfl h
    | some m' =>
      exact remove_runs K h hsmall (hm.first hS hkey) (hm.last hS hkey) hd hfuel' (hk.1 m' hd) hk.2

instance (op : TrieOp) : Grows written (op.call sha3 fuel : TrieM δ Unit) := by
  cases op <;> unfold TrieOp.call <;> infer_instance

instance (ops : List TrieOp) : Grows written (TrieOp.calls sha3 fuel ops : TrieM δ Unit) := by
  induction ops with
  | nil => exact inferInstanceAs (Grows written (pure _))
  | cons op ops ih =>
    unfold TrieOp.calls
    infer_instance

lemma calls_append (pre post : List TrieOp) :
    (TrieOp.calls sha3 fuel (pre ++ post) : TrieM δ Unit) =
      TrieOp.calls sha3 fuel pre >>= fun _ => TrieOp.calls sha3 fuel post := by
  induction pre with
  | nil => simp only [nil_append, TrieOp.calls, pure_bind]
  | cons op pre ih => simp only [cons_append, TrieOp.calls, ih, bind_assoc]

lemma run_append (pre post : List TrieOp) :
    (TrieOp.run sha3 fuel (pre ++ post) : TrieM δ Unit) =
      TrieOp.run sha3 fuel pre >>= fun _ => TrieOp.calls sha3 fuel post := by
  simp only [TrieOp.run, calls_append, bind_assoc]

/-- What a run has written, a longer one has written as well. -/
lemma writtenSet_run_subset {pre ops : List TrieOp} (h : pre <+: ops) (t : GenericTrieDB δ) :
    writtenSet ((TrieOp.run sha3 fuel pre).on t).2 ⊆
      writtenSet ((TrieOp.run sha3 fuel ops).on t).2 := by
  obtain ⟨post, rfl⟩ := h
  rw [run_append, on_bind]
  rcases (TrieOp.run sha3 fuel pre).on t with ⟨r, t'⟩
  cases r with
  | error e => exact subset_rfl
  | ok a => exact (Grows.suffix t' : written t' <:+ written _).subset

/-- Operations one after the other. -/
lemma calls_runs (hS : PrefixFree S) {ops : List TrieOp} (h : Stands K t m) (hm : Over S m)
    (hkeys : ∀ op ∈ ops, op.key ∈ S) (hsmall : ∀ op ∈ ops, op.Small)
    (hfuel : ∀ op ∈ ops, 2 * op.key.length + 5 ≤ fuel)
    (hk : ∀ pre op post, ops = pre ++ op :: post → Allows K (pre.foldl act m) op) :
    Runs K (TrieOp.calls sha3 fuel ops : TrieM δ Unit) t
      fun _ t' => Stands K t' (ops.foldl act m) := by
  induction ops generalizing m t with
  | nil => exact .of_on (on_pure ()) rfl h
  | cons op ops ih =>
    have hmem := @mem_cons_self _ op ops
    refine (call_runs K hS h hm (hkeys op hmem) (hsmall op hmem) (hfuel op hmem)
      (hk [] op ops rfl)).bind fun _ t' ht' => ?_
    exact ih ht' (hm.act (hkeys op hmem)) (fun o ho => hkeys o (mem_cons_of_mem op ho))
      (fun o ho => hsmall o (mem_cons_of_mem op ho))
      (fun o ho => hfuel o (mem_cons_of_mem op ho))
      fun pre o post e => hk (op :: pre) o post (by rw [e]; rfl)

/-- **A run** leaves a trie that stands for its tree. -/
theorem run_runs (hS : PrefixFree S) {ops : List TrieOp} (h : K.Holds t.m_db 0)
    (hkeys : ∀ op ∈ ops, op.key ∈ S) (hsmall : ∀ op ∈ ops, op.Small) (hpos : 1 ≤ fuel)
    (hfuel : ∀ op ∈ ops, 2 * op.key.length + 5 ≤ fuel) (hplan : RLPNull ∈ K.plan)
    (hk : ∀ pre op post, ops = pre ++ op :: post → Allows K (treeOf pre) op) :
    Runs K (TrieOp.run sha3 fuel ops : TrieM δ Unit) t fun _ t' => Stands K t' (treeOf ops) := by
  refine (init_runs K h hpos hplan).bind fun _ t' ht' => ?_
  exact calls_runs K hS ht' (fun x hx => absurd rfl hx) hkeys hsmall hfuel hk

/-- **Looking up** in a trie that stands for a tree. -/
theorem at_on (h : Stands K t m) (hkey : key.length < 2 ^ 30) (hfuel : 2 * key.length + 1 ≤ fuel) :
    (at_ fuel key).on t = (.ok ((m.lookup (nibbles key)).getD []), t) := by
  have hfuel' : (nibbles key).length + 1 ≤ fuel := by rwa [length_nibbles]
  have hholds := h.holds
  rw [stored_eq] at hholds
  rw [at_, on_get_bind, on_bind_of_ok (h.node_on K),
    on_bind_of_ok (ofNode_enc_on (h.small.fits h.canon))]
  exact atAux_spec h.canon h.small hfuel' (valid_slice hkey) (word_slice key) (K.found hholds)

end Trie

end Tos
