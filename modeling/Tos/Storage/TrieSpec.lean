import Tos.Storage.TrieNode

/-!
# Rules for the methods of the trie

A database is seen here through the nodes that are held in it: whoever holds a node can look it
up and may give it back, and putting a node in the database gives one to hold. With a frame of
nodes that a method does not touch, this says both that the references of a trie can be followed
and that its nodes are counted. The rules carry a set `W` on which the hash is free of
collisions; they hold as long as everything written is in it. What a method is going to write is
in the plan of the keeper, so that where the plan is inside `W` nothing needs to be assumed.

## Main results

* `streamNode_runs`: a child is written.
-/

namespace Tos.Trie

open Sdag (H256)

open Sdag.Wire (hashBytes)

open Rlp (Item encode encodeList)

open GenericTrieDB hiding item

open Method (Grows)

variable {δ : Type}

/-- The byte strings that were put in the database. -/
def writtenSet (t : GenericTrieDB δ) : Set Bytes := {s | s ∈ t.written}

/-! ### What was written stays written -/

section Grows

-- Only `forceInsertNode` adds to the log. For the other methods the instances of their parts are
-- put together, and the search has to go through the whole text of a method.
set_option synthInstance.maxSize 1024

instance {α : Type} (x : Except RlpError α) : Grows written (rlp x : TrieM δ α) :=
  inferInstanceAs (Grows written (Method.call _ x))

instance (c : Bool) : Grows written (assert c : TrieM δ Unit) := by
  unfold assert
  infer_instance

instance (x : Bytes) (i : ℕ) : Grows written (assertNode x i : TrieM δ Unit) := by
  unfold assertNode
  infer_instance

instance (x : Bytes) (i : ℕ) : Grows written (GenericTrieDB.item x i : TrieM δ Bytes) := by
  unfold GenericTrieDB.item
  infer_instance

instance (x : Bytes) : Grows written (ofNode x : TrieM δ Bytes) := by
  unfold ofNode
  infer_instance

instance (x : Bytes) : Grows written (toHash x : TrieM δ H256) := by
  unfold toHash
  infer_instance

instance (n : ℕ) : Grows written (newList n : TrieM δ RLPStream) := by
  unfold newList
  infer_instance

instance (x : Bytes) (s : RLPStream) (i : ℕ) :
    Grows written (appendItem x s i : TrieM δ RLPStream) := by
  unfold appendItem
  infer_instance

instance (k x : Bytes) : Grows written (pairOf k x : TrieM δ Bytes) := by
  unfold pairOf
  infer_instance

instance (x : Bytes) : Grows written (keyOfNode x : TrieM δ NibbleSlice) := by
  unfold keyOfNode
  infer_instance

instance (x : Bytes) : Grows written (isLeaf x : TrieM δ Bool) := by
  unfold isLeaf
  infer_instance

instance {α β : Type} {f : β → α → TrieM δ β} [h : ∀ b a, Grows written (f b a)] (l : List α)
    (b : β) : Grows written (l.foldlM f b) := by
  induction l generalizing b with
  | nil => exact inferInstanceAs (Grows written (pure b))
  | cons a l ih =>
    rw [List.foldlM_cons]
    infer_instance

instance (x : Bytes) (e : ℕ) (l : List ℕ) (u : ℕ) :
    Grows written (uniqueInUseLoop x e l u : TrieM δ ℕ) := by
  induction l generalizing u with
  | nil => exact inferInstanceAs (Grows written (pure u))
  | cons i l ih =>
    unfold uniqueInUseLoop
    infer_instance

instance (x : Bytes) (e : ℕ) : Grows written (uniqueInUse x e : TrieM δ ℕ) := by
  unfold uniqueInUse
  infer_instance

variable [NodeDB δ] (sha3 : Bytes → H256)

instance (h : H256) : Grows written (node h : TrieM δ Bytes) := by
  unfold node
  infer_instance

instance (v : Bytes) : Grows written (forceInsertNode sha3 v : TrieM δ H256) :=
  ⟨fun t => List.suffix_cons v t.written⟩

instance (h : H256) : Grows written (forceKillNode h : TrieM δ Unit) := ⟨fun _ => List.suffix_rfl⟩

instance (d : Bytes) (h : H256) : Grows written (killNodeAt d h : TrieM δ Unit) := by
  unfold killNodeAt
  infer_instance

instance (inLine : Bool) (d : Bytes) (h : H256) :
    Grows written (killUnlessInLine inLine d h : TrieM δ Unit) := by
  unfold killUnlessInLine
  infer_instance

instance (d : Bytes) : Grows written (killNode sha3 d : TrieM δ Unit) := by
  unfold killNode
  infer_instance

instance (s : RLPStream) (b : Bytes) : Grows written (streamNode sha3 s b : TrieM δ RLPStream) := by
  unfold streamNode
  infer_instance

instance (x : Bytes) : Grows written (deref x : TrieM δ Bytes) := by
  unfold deref
  infer_instance

instance (x : Bytes) : Grows written (isTwoItemNode x : TrieM δ Bool) := by
  unfold isTwoItemNode
  infer_instance

instance (orig : Bytes) (k : NibbleSlice) (v : Bytes) :
    Grows written (place sha3 orig k v : TrieM δ Bytes) := by
  unfold place
  infer_instance

instance (orig : Bytes) (n : ℕ) : Grows written (cleve sha3 orig n : TrieM δ Bytes) := by
  unfold cleve
  infer_instance

instance (orig : Bytes) : Grows written (branch sha3 orig : TrieM δ Bytes) := by
  unfold branch
  infer_instance

instance {merge : Bytes → Bool → TrieM δ Bytes} [∀ x b, Grows written (merge x b)]
    (out : RLPStream) (orig : Bytes) : Grows written (mergeAtAux sha3 merge out orig) := by
  unfold mergeAtAux
  infer_instance

instance (v : Bytes) (fuel : ℕ) (orig : Bytes) (h : H256) (key : NibbleSlice) (inLine : Bool) :
    Grows written (mergeAt sha3 v fuel orig h key inLine : TrieM δ Bytes) := by
  induction fuel generalizing orig h key inLine with
  | zero => exact inferInstanceAs (Grows written (throw _))
  | succ fuel ih =>
    unfold mergeAt
    infer_instance

instance (b : Bytes) : Grows written (replaceRoot sha3 b : TrieM δ Unit) :=
  ⟨fun t => List.suffix_cons b t.written⟩

instance (rv : Bytes) (root : H256) : Grows written (killSmallRoot rv root : TrieM δ Unit) := by
  unfold killSmallRoot
  infer_instance

instance (fuel : ℕ) (key value : Bytes) :
    Grows written (GenericTrieDB.insert sha3 fuel key value : TrieM δ Unit) := by
  unfold GenericTrieDB.insert
  infer_instance

instance (x : Bytes) : Grows written (takeOut x : TrieM δ Bytes) := by
  unfold takeOut
  infer_instance

instance (orig : Bytes) : Grows written (graft orig : TrieM δ Bytes) := by
  unfold graft
  infer_instance

omit [NodeDB δ] in
instance (orig : Bytes) (i : ℕ) : Grows written (merge orig i : TrieM δ Bytes) := by
  unfold merge
  infer_instance

instance (orig : Bytes) (i : ℕ) : Grows written (mergeUsed orig i : TrieM δ Bytes) := by
  unfold mergeUsed
  infer_instance

instance {delete : Bytes → TrieM δ Bytes} [∀ x, Grows written (delete x)] (orig : Bytes) :
    Grows written (deleteAtAux.deleteChild delete orig) := by
  unfold deleteAtAux.deleteChild
  infer_instance

instance {delete : Bytes → TrieM δ Bytes} [∀ x, Grows written (delete x)] (out : RLPStream)
    (orig : Bytes) : Grows written (deleteAtAux sha3 delete out orig) := by
  unfold deleteAtAux
  infer_instance

omit [NodeDB δ] in
instance (orig : Bytes) (key : NibbleSlice) : Grows written (endsHere orig key : TrieM δ Bool) := by
  unfold endsHere
  infer_instance

instance {delete : Bytes → TrieM δ Bytes} [∀ x, Grows written (delete x)] (orig : Bytes) (n : ℕ)
    (l : List ℕ) (r : RLPStream) : Grows written (deleteLoop sha3 delete orig n l r) := by
  induction l generalizing r with
  | nil => exact inferInstanceAs (Grows written (pure _))
  | cons i l ih =>
    have hmatch (r' : Option RLPStream) : Grows written (match r' with
        | none => pure none
        | some r => deleteLoop sha3 delete orig n l r) := by
      cases r' with
      | none => exact inferInstanceAs (Grows written (pure _))
      | some r' => exact ih r'
    unfold deleteLoop
    infer_instance

instance (orig : Bytes) (s : Option RLPStream) :
    Grows written (deletedInPair sha3 orig s : TrieM δ Bytes) := by
  cases s <;> unfold deletedInPair <;> infer_instance

instance (orig : Bytes) (s : Option RLPStream) :
    Grows written (deletedInBranch sha3 orig s : TrieM δ Bytes) := by
  cases s <;> unfold deletedInBranch <;> infer_instance

instance (fuel : ℕ) (orig : Bytes) (key : NibbleSlice) :
    Grows written (deleteAt sha3 fuel orig key : TrieM δ Bytes) := by
  induction fuel generalizing orig key with
  | zero => exact inferInstanceAs (Grows written (throw _))
  | succ fuel ih =>
    unfold deleteAt
    infer_instance

instance (fuel : ℕ) (key : Bytes) :
    Grows written (GenericTrieDB.remove sha3 fuel key : TrieM δ Unit) := by
  unfold GenericTrieDB.remove
  infer_instance

instance {setRoot : H256 → TrieM δ Unit} [∀ r, Grows written (setRoot r)] :
    Grows written (initAux sha3 setRoot) := by
  unfold initAux
  infer_instance

instance : Grows written (setRoot.requireRoot : TrieM δ Unit) := by
  unfold setRoot.requireRoot
  infer_instance

instance (fuel : ℕ) (root : H256) : Grows written (setRoot sha3 fuel root : TrieM δ Unit) := by
  induction fuel generalizing root with
  | zero => exact inferInstanceAs (Grows written (throw _))
  | succ fuel ih =>
    have hroot : Grows written (modify fun t => { t with m_root := root } : TrieM δ Unit) :=
      ⟨fun _ => List.suffix_rfl⟩
    unfold setRoot
    infer_instance

end Grows

/-! ### Databases -/

/-- A database seen through the nodes that are held in it: `Holds d M` says that the node `s` is
held `M s` times. -/
structure Keeper (δ : Type) [NodeDB δ] (sha3 : Bytes → H256) (W : Set Bytes) where
  Holds : δ → Tally → Prop
  /-- What is to be written. -/
  plan : Set Bytes
  /-- With so many nodes held, any of them can be given back. -/
  KillOk : Tally → Prop
  /-- It does no harm to give back what is not held. -/
  Lax : Prop
  killOk_mono : ∀ {M N : Tally}, M ≤ N → KillOk N → KillOk M
  lookup : ∀ {d : δ} {M : Tally} {s : Bytes}, Holds d M → 0 < M s →
    NodeDB.lookup d (sha3 s) = s
  hasNode : ∀ {d : δ} {M : Tally} {s : Bytes}, Holds d M → 0 < M s →
    NodeDB.hasNode d (sha3 s) = true
  insert : ∀ {d : δ} {M : Tally} {s : Bytes}, Holds d M → s ∈ W →
    Holds (NodeDB.insert d (sha3 s) s) (Pi.single s 1 + M)
  kill : ∀ {d : δ} {M : Tally} {s : Bytes}, Holds d (Pi.single s 1 + M) →
    KillOk (Pi.single s 1 + M) → Holds (NodeDB.kill d (sha3 s)) M
  kill_lax : Lax → ∀ {d : δ} {M : Tally} (h : H256), Holds d M → Holds (NodeDB.kill d h) M

/-- A method of the trie returns with a property if all that it writes is in `W`, and until then
it writes what is in the plan. -/
abbrev Runs {α : Type} [NodeDB δ] {sha3 : Bytes → H256} {W : Set Bytes} (K : Keeper δ sha3 W)
    (m : TrieM δ α) (t : GenericTrieDB δ) (Q : α → GenericTrieDB δ → Prop) : Prop :=
  Method.Runs written W K.plan m t Q

/-- All nodes of a tally are in a set. -/
def Within (V : Set Bytes) (M : Tally) : Prop := ∀ s, 0 < M s → s ∈ V

/-- Less is within what more is within. -/
lemma Within.mono {V : Set Bytes} {M N : Tally} (h : Within V N) (hle : M ≤ N) : Within V M :=
  fun s hs => h s (hs.trans_le (hle s))

/-- A short node is not kept. -/
lemma kept_of_lt {s : Bytes} (h : s.length < 32) : kept s = 0 := if_pos h

/-- A long node is kept once. -/
lemma kept_of_ge {s : Bytes} (h : ¬ s.length < 32) : kept s = Pi.single s 1 := if_neg h

section Keeper

open RLPStream (upTo)

variable [NodeDB δ] {sha3 : Bytes → H256} {W : Set Bytes} (K : Keeper δ sha3 W)
  {t : GenericTrieDB δ} {M F : Tally}

/-- A node that is held is found. -/
lemma Keeper.find {s : Bytes} {d : δ} (h : K.Holds d (kept s + M)) (hs : ¬ s.length < 32) :
    NodeDB.lookup d (sha3 s) = s := by
  refine K.lookup h ?_
  rw [kept_of_ge hs, Pi.add_apply, Pi.single_eq_same]
  omega

/-- A node that is held is found. -/
lemma node_on {s : Bytes} (h : K.Holds t.m_db (kept s + M)) (hs : ¬ s.length < 32) :
    (node (sha3 s) : TrieM δ Bytes).on t = (.ok s, t) := by
  rw [node, Method.on_get_bind, K.find h hs]
  rfl

/-- A node that may be killed is held once less. -/
lemma forceKillNode_on {s : Bytes} (h : K.Holds t.m_db (Pi.single s 1 + M))
    (hk : K.KillOk (Pi.single s 1 + M)) :
    ∃ d, (forceKillNode (sha3 s) : TrieM δ Unit).on t = (.ok (), { t with m_db := d }) ∧
      K.Holds d M :=
  ⟨_, rfl, K.kill h hk⟩

/-- A node that is held is given back. -/
lemma killNodeAt_on {s : Bytes} (h : K.Holds t.m_db (kept s + M)) (hk : K.KillOk (kept s + M)) :
    ∃ d, (killNodeAt s (sha3 s) : TrieM δ Unit).on t = (.ok (), { t with m_db := d }) ∧
      K.Holds d M := by
  by_cases hs : s.length < 32
  · rw [kept_of_lt hs, zero_add] at h
    exact ⟨t.m_db, by rw [killNodeAt, if_neg (by omega)]; rfl, h⟩
  · rw [kept_of_ge hs] at h hk
    rw [killNodeAt, if_pos (by omega)]
    exact forceKillNode_on K h hk

/-- A node that is inserted is held once more. -/
lemma forceInsertNode_on {s : Bytes} (h : K.Holds t.m_db M) :
    ∃ t', (forceInsertNode sha3 s : TrieM δ H256).on t = (.ok (sha3 s), t') ∧
      t'.written = s :: t.written ∧ (s ∈ W → K.Holds t'.m_db (Pi.single s 1 + M)) :=
  ⟨_, rfl, rfl, fun hw => K.insert h hw⟩

/-- A child is written, and is held if it is not in its parent. -/
lemma streamNode_runs {xs ys : List Item} {x : Item} {i : ℕ} (hx : xs.drop i = ref sha3 x :: ys)
    (hsize : (encode (.list xs)).length ≤ RLP.maxLength) (hplan : Within K.plan (kept (encode x)))
    (h : K.Holds t.m_db M) :
    Runs K (streamNode sha3 (upTo xs i) (encode x) : TrieM δ RLPStream) t
      fun s t' => s = upTo xs (i + 1) ∧ K.Holds t'.m_db (kept (encode x) + M) := by
  by_cases hs : (encode x).length < 32
  · rw [ref_of_lt hs] at hx
    rw [streamNode, if_pos hs, kept_of_lt hs, zero_add]
    exact .of_on (appendRaw_on hx hsize) rfl ⟨rfl, h⟩
  · rw [ref_of_ge hs] at hx
    rw [kept_of_ge hs] at hplan
    obtain ⟨t', hon, hlog, ht'⟩ := forceInsertNode_on K (s := encode x) h
    rw [streamNode, if_neg hs, kept_of_ge hs]
    refine .of_log (s := encode x) ((Method.on_bind_of_ok hon).trans (append_on hx hsize)) hlog
      (hplan _ (by simp)) fun hw => ⟨rfl, ht' hw⟩

end Keeper

end Tos.Trie
