import Mathlib.Data.List.Basic
import Mathlib.Data.Set.Subsingleton
import Mathlib.Logic.Function.Basic
import Mathlib.Tactic.Common

/-!
# Patricia trees

A finite map from words over an alphabet `α` to values, kept in a tree: a leaf holds the rest of
its word, an extension a piece that all words below it share, and a branch goes on by the next
letter. A map has exactly one tree in which no extension and no branch is superfluous, so a tree
that is edited in place and a tree that is built from scratch are the same when they stand for
the same map.

## Main results

* `Patricia.Node.lookup_insert`, `lookup_delete`, `delete_eq_none_iff`: the operations are those
  of a map.
* `Patricia.Node.Canon.insert`, `Canon.delete`: they keep the tree canonical.
* `Patricia.Node.Canon.eq_of_lookup`: a map has one canonical tree.
-/

namespace Patricia

open List
open Function (update update_of_ne update_self)

/-- Trees with words over `α` and values in `V`. -/
inductive Node (α V : Type*) where
  | nil
  | leaf (k : List α) (v : V)
  | ext (k : List α) (n : Node α V)
  | branch (c : α → Node α V) (v : Option V)

/-! ### Common prefixes -/

section Shared

variable {α : Type*} [DecidableEq α] {k l : List α}

/-- The number of letters two words share at the beginning. -/
def shared : List α → List α → ℕ
  | a :: k, b :: l => if a = b then shared k l + 1 else 0
  | _, _ => 0

/-- Two words that share nothing at the beginning. -/
def Apart (k l : List α) : Prop := ∀ a k' l', k = a :: k' → l ≠ a :: l'

omit [DecidableEq α] in
/-- Words that are apart are not equal. -/
lemma Apart.ne (h : Apart k l) (hk : k ≠ []) : l ≠ k := by
  obtain ⟨a, k', rfl⟩ := exists_cons_of_ne_nil hk
  exact h a k' k' rfl

omit [DecidableEq α] in
/-- Being apart is symmetric. -/
lemma Apart.symm (h : Apart k l) : Apart l k := by
  rintro a l' k' rfl rfl
  exact h a k' l' rfl rfl

/-- A common beginning is shared. -/
lemma shared_append (p k l : List α) : shared (p ++ k) (p ++ l) = p.length + shared k l := by
  induction p with
  | nil => simp
  | cons a p ih =>
    rw [cons_append, cons_append, shared, if_pos rfl, ih, length_cons]
    omega

/-- Nothing is shared by words that are apart. -/
lemma shared_eq_zero_iff : shared k l = 0 ↔ Apart k l := by
  cases k with
  | nil => simp [shared, Apart]
  | cons a k =>
    cases l with
    | nil => simp [shared, Apart]
    | cons b l =>
      rw [shared, ite_eq_right_iff, Apart]
      constructor
      · rintro h a' k' l' ⟨rfl, rfl⟩ hl
        injection hl with hb
        exact absurd (h hb.symm) (Nat.succ_ne_zero _)
      · rintro h rfl
        exact absurd rfl (h a k l rfl)

/-- No more is shared than there is. -/
lemma shared_le_length (k l : List α) : shared k l ≤ k.length ∧ shared k l ≤ l.length := by
  induction k generalizing l with
  | nil => simp [shared]
  | cons a k ih =>
    cases l with
    | nil => simp [shared]
    | cons b l =>
      have := ih l
      rw [shared, length_cons, length_cons]
      split_ifs <;> omega

/-- What is shared, and two rests that share nothing. -/
lemma exists_shared (k l : List α) :
    ∃ p k' l', k = p ++ k' ∧ l = p ++ l' ∧ shared k l = p.length ∧ Apart k' l' := by
  induction k generalizing l with
  | nil => exact ⟨[], [], l, rfl, rfl, by simp [shared], by simp [Apart]⟩
  | cons a k ih =>
    cases l with
    | nil => exact ⟨[], a :: k, [], rfl, rfl, by simp [shared], by simp [Apart]⟩
    | cons b l =>
      by_cases h : a = b
      · subst h
        obtain ⟨p, k', l', rfl, rfl, hs, hd⟩ := ih l
        exact ⟨a :: p, k', l', rfl, rfl, by simp [shared, hs], hd⟩
      · exact ⟨[], a :: k, b :: l, rfl, rfl, by simp [shared, h],
          shared_eq_zero_iff.mp (by simp [shared, h])⟩

/-- `dropPrefix?` gives what is left after a beginning. -/
lemma dropPrefix_eq_some {k p r : List α} : k.dropPrefix? p = some r ↔ k = p ++ r := by
  simp [List.dropPrefix?_eq_some_iff]

/-- A word that does not go on from another one leaves it before its end. -/
lemma shared_lt_of_dropPrefix_eq_none (h : l.dropPrefix? k = none) : shared k l < k.length := by
  obtain ⟨p, k', l', rfl, rfl, hs, -⟩ := exists_shared k l
  have hne : k' ≠ [] := by
    rintro rfl
    rw [append_nil, dropPrefix_eq_some.mpr rfl] at h
    exact absurd h (by simp)
  have := length_pos_iff.mpr hne
  rw [hs, length_append]
  omega

/-- A common beginning drops out. -/
lemma dropPrefix_append (p k q : List α) : (p ++ k).dropPrefix? (p ++ q) = k.dropPrefix? q := by
  induction p with
  | nil => rfl
  | cons a p ih => simpa [List.dropPrefix?] using ih

/-- A beginning in two steps. -/
lemma dropPrefix_append_right (k p q : List α) :
    k.dropPrefix? (p ++ q) = (k.dropPrefix? p).bind fun r => r.dropPrefix? q := by
  cases h : k.dropPrefix? p with
  | some r =>
    rw [dropPrefix_eq_some.mp h, dropPrefix_append, Option.bind_some]
  | none =>
    rw [Option.bind_none, Option.eq_none_iff_forall_ne_some]
    intro r hr
    rw [dropPrefix_eq_some, append_assoc, ← dropPrefix_eq_some, h] at hr
    exact absurd hr (by simp)

end Shared

namespace Node

/-! ### Looking up and putting a word in front -/

section Lookup

variable {α V : Type*} [DecidableEq α] {k l : List α}

/-- The value of a word. -/
def lookup : Node α V → List α → Option V
  | nil, _ => none
  | leaf k v, key => if key = k then some v else none
  | ext k n, key => (key.dropPrefix? k).bind fun r => n.lookup r
  | branch _ v, [] => v
  | branch c _, a :: key => (c a).lookup key

/-- The tree of all words with `p` in front. -/
def prepend (p : List α) : Node α V → Node α V
  | nil => nil
  | leaf k v => leaf (p ++ k) v
  | ext k n => ext (p ++ k) n
  | branch c v =>
    match p with
    | [] => branch c v
    | a :: p => ext (a :: p) (branch c v)

/-- The empty tree has no entry. -/
@[simp] lemma lookup_nil (key : List α) : (nil : Node α V).lookup key = none := rfl

/-- A leaf has its own entry. -/
lemma lookup_leaf (k : List α) (v : V) (key : List α) :
    (leaf k v).lookup key = if key = k then some v else none := rfl

/-- An extension has the entries of its child behind its word. -/
lemma lookup_ext (k : List α) (n : Node α V) (key : List α) :
    (ext k n).lookup key = (key.dropPrefix? k).bind n.lookup := rfl

/-- An extension is looked up behind its part. -/
lemma lookup_ext_append (k : List α) (n : Node α V) (key : List α) :
    (ext k n).lookup (k ++ key) = n.lookup key := by
  rw [lookup_ext, dropPrefix_eq_some.mpr rfl, Option.bind_some]

/-- A branch has its value at the empty word. -/
@[simp] lemma lookup_branch_nil (c : α → Node α V) (v : Option V) :
    (branch c v).lookup [] = v := rfl

/-- A branch has the entries of its children behind their letters. -/
@[simp] lemma lookup_branch_cons (c : α → Node α V) (v : Option V) (a : α) (key : List α) :
    (branch c v).lookup (a :: key) = (c a).lookup key := rfl

omit [DecidableEq α] in
/-- Nothing in front. -/
@[simp] lemma prepend_nil (n : Node α V) : prepend [] n = n := by
  cases n <;> rfl

omit [DecidableEq α] in
/-- A word in front of a branch makes an extension. -/
lemma prepend_branch {p : List α} (hp : p ≠ []) (c : α → Node α V) (v : Option V) :
    prepend p (branch c v) = ext p (branch c v) := by
  cases p with
  | nil => exact absurd rfl hp
  | cons a p => rfl

/-- A word in front of a tree is in front of its words. -/
lemma lookup_prepend (p : List α) (n : Node α V) (key : List α) :
    (prepend p n).lookup key = (key.dropPrefix? p).bind n.lookup := by
  cases n with
  | nil => cases key.dropPrefix? p <;> rfl
  | leaf k v =>
    rw [prepend, lookup_leaf]
    cases h : key.dropPrefix? p with
    | some r => simp [dropPrefix_eq_some.mp h, lookup_leaf]
    | none =>
      have hne : key ≠ p ++ k := fun e => by simp [dropPrefix_eq_some.mpr e] at h
      simp [hne]
  | ext k n =>
    rw [prepend, lookup_ext, dropPrefix_append_right, Option.bind_assoc]
    rfl
  | branch c v =>
    cases p with
    | nil => simp
    | cons a p => rfl

/-- The words of the tree behind the word in front. -/
lemma lookup_prepend_append (p : List α) (n : Node α V) (key : List α) :
    (prepend p n).lookup (p ++ key) = n.lookup key := by
  rw [lookup_prepend, dropPrefix_eq_some.mpr rfl, Option.bind_some]

end Lookup

/-! ### Canonical trees -/

section Canon

variable {α V : Type*} {k l : List α} {c : α → Node α V} {v w : Option V} {n : Node α V}

/-- The places of a branch that are in use: letters, and the place for a value. -/
def used (c : α → Node α V) (v : Option V) : Set (Option α)
  | some a => c a ≠ nil
  | none => v ≠ none

/-- An extension leads to a branch, and a branch has at least two places in use. -/
inductive Canon : Node α V → Prop where
  | nil : Canon nil
  | leaf (k : List α) (v : V) : Canon (leaf k v)
  | ext {k : List α} {c : α → Node α V} {v : Option V} (hk : k ≠ [])
      (hn : Canon (branch c v)) : Canon (ext k (branch c v))
  | branch {c : α → Node α V} {v : Option V} (hc : ∀ a, Canon (c a))
      (hu : (used c v).Nontrivial) : Canon (branch c v)

/-- The places of the children that are there. -/
lemma some_mem_used {a : α} : some a ∈ used c v ↔ c a ≠ nil :=
  Iff.rfl

/-- The place of the value. -/
lemma none_mem_used : none ∈ used c v ↔ v ≠ none := Iff.rfl

/-- The children of a canonical branch are canonical. -/
lemma Canon.of_branch (h : Canon (.branch c v)) (a : α) : Canon (c a) := by
  cases h with
  | branch hc => exact hc a

/-- A canonical branch uses two places. -/
lemma Canon.nontrivial (h : Canon (.branch c v)) : (used c v).Nontrivial := by
  cases h with
  | branch _ hu => exact hu

/-- A canonical extension has a branch behind a word. -/
lemma Canon.of_ext (h : Canon (.ext k n)) : k ≠ [] ∧ Canon n ∧ ∃ c v, n = .branch c v := by
  cases h with
  | ext hk hn => exact ⟨hk, hn, _, _, rfl⟩

/-- A word in front keeps a tree canonical.

**Proof sketch.** One case for each kind of tree. Two words in a row become one, so that no
extension stands behind another. -/
lemma Canon.prepend (h : Canon n) (p : List α) : Canon (prepend p n) := by
  cases h with
  | nil => exact .nil
  | leaf k v => exact .leaf _ _
  | ext hk hn => exact .ext (by simp [hk]) hn
  | branch hc hu =>
    cases p with
    | nil => exact .branch hc hu
    | cons a p => exact .ext (by simp) (.branch hc hu)

end Canon

/-! ### Insertion -/

section Insert

variable {α V : Type*} [DecidableEq α] {k l : List α} {c : α → Node α V}
  {v w : Option V} {n : Node α V}

/-- A leaf or an extension as a branch with one place in use. -/
def burst : Node α V → Node α V
  | leaf [] v => branch (fun _ => nil) (some v)
  | leaf (a :: k) v => branch (update (fun _ => nil) a (leaf k v)) none
  | ext (a :: k) n => branch (update (fun _ => nil) a (prepend k n)) none
  | n => n

/-- A value in a place of a branch that is not in use. -/
def put (key : List α) (v : V) : Node α V → Node α V
  | branch c w =>
    match key with
    | [] => branch c (some v)
    | a :: key => branch (update c a (leaf key v)) w
  | n => n

/-- The tree with one more word, or with another value for a word. -/
def insert : Node α V → List α → V → Node α V
  | nil, key, v => leaf key v
  | leaf k w, key, v =>
    if key = k then leaf k v
    else prepend (k.take (shared k key))
      (put (key.drop (shared k key)) v (burst (leaf (k.drop (shared k key)) w)))
  | ext k n, key, v =>
    match key.dropPrefix? k with
    | some r => ext k (n.insert r v)
    | none => prepend (k.take (shared k key))
      (put (key.drop (shared k key)) v (burst (ext (k.drop (shared k key)) n)))
  | branch c _, [], v => branch c (some v)
  | branch c w, a :: key, v => branch (update c a ((c a).insert key v)) w

/-- The value of a leaf is replaced. -/
lemma insert_leaf_self (k : List α) (w v : V) : (leaf k w).insert k v = leaf k v := by
  simp [insert]

/-- A leaf is burst where the words part. -/
lemma insert_leaf_apart (p : List α) (h : Apart k l) (hne : l ≠ k) (w v : V) :
    (leaf (p ++ k) w).insert (p ++ l) v = prepend p (put l v (burst (leaf k w))) := by
  have hs : shared (p ++ k) (p ++ l) = p.length := by
    rw [shared_append, shared_eq_zero_iff.mpr h, Nat.add_zero]
  simp [insert, hne, hs]

/-- Insertion goes on behind an extension. -/
lemma insert_ext_append (k : List α) (n : Node α V) (r : List α) (v : V) :
    (ext k n).insert (k ++ r) v = ext k (n.insert r v) := by
  simp [insert, dropPrefix_eq_some.mpr]

/-- An extension is burst where the words part. -/
lemma insert_ext_apart (p : List α) (h : Apart k l) (hk : k ≠ []) (n : Node α V)
    (v : V) : (ext (p ++ k) n).insert (p ++ l) v = prepend p (put l v (burst (ext k n))) := by
  have hs : shared (p ++ k) (p ++ l) = p.length := by
    rw [shared_append, shared_eq_zero_iff.mpr h, Nat.add_zero]
  have hdrop : (p ++ l).dropPrefix? (p ++ k) = none := by
    rw [dropPrefix_append, Option.eq_none_iff_forall_ne_some]
    intro r hr
    obtain ⟨a, k', rfl⟩ := exists_cons_of_ne_nil hk
    exact h a k' _ rfl (dropPrefix_eq_some.mp hr)
  simp [insert, hdrop, hs]

/-- A word is in front of another one, or they part. -/
lemma append_or_apart (k l : List α) :
    (∃ r, l = k ++ r) ∨ ∃ p k' l', k = p ++ k' ∧ l = p ++ l' ∧ k' ≠ [] ∧ Apart k' l' := by
  obtain ⟨p, k', l', rfl, rfl, -, h⟩ := exists_shared k l
  by_cases hk : k' = []
  · exact Or.inl ⟨l', by simp [hk]⟩
  · exact Or.inr ⟨p, k', l', rfl, rfl, hk, h⟩

/-- The place of a branch to which a word leads is not in use. -/
def Free (c : α → Node α V) (w : Option V) : List α → Prop
  | [] => w = none
  | a :: _ => c a = nil

/-- What a branch says when a value is put in a place that is not in use. -/
lemma lookup_put (h : Free c w l) (v : V) (x : List α) :
    (put l v (branch c w)).lookup x = if x = l then some v else (branch c w).lookup x := by
  cases l with
  | nil => cases x <;> simp [put]
  | cons b l =>
    cases x with
    | nil => simp [put]
    | cons a x =>
      by_cases hab : a = b
      · subst hab
        have hnil : c a = nil := h
        simp [put, lookup_leaf, hnil]
      · simp [put, hab]

/-- A node at the end of the word `k`: a leaf, or an extension. -/
inductive EndsIn (k : List α) : Node α V → Prop where
  | leaf (w : V) : EndsIn k (leaf k w)
  | ext (hk : k ≠ []) (m : Node α V) : EndsIn k (ext k m)

/-- Such a node as a branch: the same words, and a place for every word that parts from its
own. -/
lemma EndsIn.exists_burst (hn : EndsIn k n) :
    ∃ c w, burst n = .branch c w ∧ (∀ x, (branch c w).lookup x = n.lookup x) ∧
      ∀ l, Apart k l → l ≠ k → Free c w l := by
  cases hn with
  | leaf w =>
    cases k with
    | nil =>
      refine ⟨_, _, rfl, fun x => ?_, fun l _ hne => ?_⟩
      · cases x <;> simp [lookup_leaf]
      · cases l with
        | nil => exact absurd rfl hne
        | cons a l => rfl
    | cons b k =>
      refine ⟨_, _, rfl, fun x => ?_, fun l hl _ => ?_⟩
      · cases x with
        | nil => simp [lookup_leaf]
        | cons a x => by_cases hab : a = b <;> simp [hab, lookup_leaf]
      · cases l with
        | nil => rfl
        | cons a l =>
          have hab : a ≠ b := fun hab => hl b k l rfl (hab ▸ rfl)
          simp [Free, hab]
  | ext hk m =>
    obtain ⟨b, k, rfl⟩ := exists_cons_of_ne_nil hk
    refine ⟨_, _, rfl, fun x => ?_, fun l hl _ => ?_⟩
    · cases x with
      | nil => simp [lookup_ext, List.dropPrefix?]
      | cons a x =>
        by_cases hab : a = b
        · subst hab
          simp [lookup_prepend, lookup_ext, List.dropPrefix?]
        · simp [hab, lookup_ext, List.dropPrefix?]
    · cases l with
      | nil => rfl
      | cons a l =>
        have hab : a ≠ b := fun hab => hl b k l rfl (hab ▸ rfl)
        simp [Free, hab]

/-- A change of one value below a common front. -/
lemma lookup_prepend_of_change (p l : List α) {m : Node α V} (m' : Node α V) {v : V}
    (h : ∀ y, m.lookup y = if y = l then some v else m'.lookup y) (x : List α) :
    (prepend p m).lookup x = if x = p ++ l then some v else (prepend p m').lookup x := by
  rw [lookup_prepend, lookup_prepend]
  cases hx : x.dropPrefix? p with
  | some r => simp [dropPrefix_eq_some.mp hx, h]
  | none =>
    have hne : x ≠ p ++ l := fun e => by simp [dropPrefix_eq_some.mpr e] at hx
    simp [hne]

/-- **Insertion**: the value of the word changes, and no other. -/
theorem lookup_insert (n : Node α V) (key : List α) (v : V) (x : List α) :
    (n.insert key v).lookup x = if x = key then some v else n.lookup x := by
  induction n generalizing key x with
  | nil => simp [insert, lookup_leaf]
  | leaf k w =>
    by_cases hk : key = k
    · subst hk
      rw [insert_leaf_self, lookup_leaf, lookup_leaf]
      split_ifs <;> rfl
    · obtain ⟨p, k', l, rfl, rfl, -, hl⟩ := exists_shared k key
      have hne : l ≠ k' := fun e => hk (by rw [e])
      rw [insert_leaf_apart p hl hne]
      obtain ⟨c, u, hb, hlook, hfree⟩ := (EndsIn.leaf w : EndsIn k' _).exists_burst
      rw [hb]
      refine lookup_prepend_of_change p l (leaf k' w) (fun y => ?_) x
      rw [lookup_put (hfree l hl hne), hlook]
  | ext k n ih =>
    rcases append_or_apart k key with ⟨r, rfl⟩ | ⟨p, k', l, rfl, rfl, hk, hl⟩
    · rw [insert_ext_append]
      rw [lookup_ext, lookup_ext]
      cases hx : x.dropPrefix? k with
      | some y => simp [dropPrefix_eq_some.mp hx, ih]
      | none =>
        have hne : x ≠ k ++ r := fun e => by simp [dropPrefix_eq_some.mpr e] at hx
        simp [hne]
    · rw [insert_ext_apart p hl hk]
      obtain ⟨c, u, hb, hlook, hfree⟩ := (EndsIn.ext hk n).exists_burst
      rw [hb]
      refine lookup_prepend_of_change p l (ext k' n) (fun y => ?_) x
      rw [lookup_put (hfree l hl (hl.ne hk)), hlook]
  | branch c w ih =>
    cases key with
    | nil => cases x <;> simp [insert]
    | cons a key =>
      cases x with
      | nil => simp [insert]
      | cons b x =>
        by_cases hab : b = a
        · subst hab
          simp [insert, ih]
        · simp [insert, hab]

omit [DecidableEq α] in
/-- A word in front does not empty a tree. -/
lemma prepend_ne_nil (h : n ≠ nil) (p : List α) : prepend p n ≠ nil := by
  cases n with
  | nil => exact absurd rfl h
  | leaf k v => simp [prepend]
  | ext k n => simp [prepend]
  | branch c v => cases p <;> simp [prepend]

/-- A tree with a new entry is not empty. -/
lemma insert_ne_nil (n : Node α V) (key : List α) (v : V) : n.insert key v ≠ nil := by
  intro h
  have hkey := lookup_insert n key v key
  simp [h] at hkey

/-- One child is replaced by another canonical tree. -/
lemma Canon.update (hc : ∀ a, Canon (c a)) (hn : Canon n)
    (b : α) : ∀ a, Canon (update c b n a) := by
  intro a
  by_cases hab : a = b
  · simpa [hab] using hn
  · simpa [hab] using hc a

/-- A new entry in a free place of a branch.

**Proof sketch.** The place was not used and another one was, so two are used now. The new child is
a leaf. -/
lemma Canon.put (hc : ∀ a, Canon (c a))
    (hu : (used c w).Nonempty) (h : Free c w l) (v : V) : Canon (put l v (.branch c w)) := by
  obtain ⟨i, hi⟩ := hu
  cases l with
  | nil =>
    refine .branch hc ⟨i, ?_, none, none_mem_used.mpr (by simp), ?_⟩
    · cases i with
      | none => exact absurd h hi
      | some a => exact hi
    · rintro rfl
      exact hi h
  | cons b l =>
    have hne : i ≠ some b := by
      rintro rfl
      exact hi h
    refine .branch (Canon.update hc (.leaf l v) b) ⟨i, ?_, some b, ?_, hne⟩
    · cases i with
      | none => exact hi
      | some a =>
        have hab : a ≠ b := fun e => hne (by rw [e])
        rw [some_mem_used, update_of_ne hab]
        exact hi
    · rw [some_mem_used, update_self]
      simp

/-- One child in an empty branch. -/
lemma canon_single (hn : Canon n) (hne : n ≠ nil) (a : α) :
    (∀ b, Canon (update (fun _ => nil) a n b)) ∧
      (used (update (fun _ => nil) a n) none).Nonempty := by
  refine ⟨Canon.update (fun _ => Canon.nil) hn a, some a, ?_⟩
  rw [some_mem_used, update_self]
  exact hne

/-- A tree that is burst for a new entry is canonical. -/
lemma EndsIn.canon_put (hn : EndsIn k n) (hc : Canon n)
    (hl : Apart k l) (hne : l ≠ k) (v : V) : Canon (put l v (burst n)) := by
  obtain ⟨c, w, hb, -, hfree⟩ := hn.exists_burst
  rw [hb]
  suffices h : (∀ a, Canon (c a)) ∧ (used c w).Nonempty from
    Canon.put h.1 h.2 (hfree l hl hne) v
  cases hn with
  | leaf u =>
    cases k with
    | nil =>
      obtain ⟨rfl, rfl⟩ := Node.branch.inj hb
      exact ⟨fun _ => .nil, none, by simp [none_mem_used]⟩
    | cons a k =>
      obtain ⟨rfl, rfl⟩ := Node.branch.inj hb
      exact canon_single (.leaf k u) (by simp) a
  | ext hk m =>
    obtain ⟨a, k, rfl⟩ := exists_cons_of_ne_nil hk
    obtain ⟨rfl, rfl⟩ := Node.branch.inj hb
    obtain ⟨-, hm, d, u, rfl⟩ := hc.of_ext
    exact canon_single (hm.prepend k) (prepend_ne_nil (by simp) k) a

/-- Insertion keeps a tree canonical. -/
theorem Canon.insert (h : Canon n) (key : List α) (v : V) : Canon (n.insert key v) := by
  induction h generalizing key with
  | nil => exact .leaf key v
  | leaf k w =>
    by_cases hk : key = k
    · rw [hk, insert_leaf_self]
      exact .leaf k v
    · obtain ⟨p, k', l, rfl, rfl, -, hl⟩ := exists_shared k key
      have hne : l ≠ k' := fun e => hk (by rw [e])
      rw [insert_leaf_apart p hl hne]
      exact ((EndsIn.leaf w).canon_put (.leaf k' w) hl hne v).prepend p
  | @ext k c w hk hn ih =>
    rcases append_or_apart k key with ⟨r, rfl⟩ | ⟨p, k', l, rfl, rfl, hk', hl⟩
    · rw [insert_ext_append]
      cases r with
      | nil => exact .ext hk (ih [])
      | cons a r => exact .ext hk (ih (a :: r))
    · rw [insert_ext_apart p hl hk']
      exact ((EndsIn.ext hk' _).canon_put (.ext hk' hn) hl (hl.ne hk') v).prepend p
  | @branch c w hc hu ih =>
    cases key with
    | nil =>
      refine .branch hc (hu.mono fun i hi => ?_)
      cases i with
      | none => simp [none_mem_used]
      | some a => exact hi
    | cons a key =>
      refine .branch (Canon.update hc (ih a key) a) (hu.mono fun i hi => ?_)
      cases i with
      | none => exact hi
      | some b =>
        by_cases hab : b = a
        · rw [hab, some_mem_used, update_self]
          exact insert_ne_nil (c a) key v
        · rw [some_mem_used, update_of_ne hab]
          exact hi

end Insert

/-! ### Deletion -/

section Delete

variable {α V : Type*} {k l : List α} {c : α → Node α V} {v w : Option V} {n : Node α V}

open Classical in
/-- A branch, or what is left of it when fewer than two of its places are in use. -/
noncomputable def collapse (c : α → Node α V) (v : Option V) : Node α V :=
  if h : v = none ∧ ∃ a, ∀ b, c b ≠ nil ↔ b = a then prepend [h.2.choose] (c h.2.choose)
  else if ∀ b, c b = nil then v.elim nil (leaf [])
  else branch c v

/-- A branch with one child and no value is that child. -/
lemma collapse_child {a : α} (h : ∀ b, c b ≠ nil ↔ b = a) :
    collapse c none = prepend [a] (c a) := by
  have hex : ∃ a, ∀ b, c b ≠ nil ↔ b = a := ⟨a, h⟩
  have hch : hex.choose = a := (h _).mp ((hex.choose_spec _).mpr rfl)
  rw [collapse, dif_pos ⟨rfl, hex⟩, hch]

/-- A branch without children is its value. -/
lemma collapse_empty (h : ∀ b, c b = nil) (v : Option V) : collapse c v = v.elim nil (leaf []) := by
  rw [collapse, dif_neg, if_pos h]
  rintro ⟨-, a, ha⟩
  exact (ha a).mpr rfl (h a)

/-- A branch that uses two places stays. -/
lemma collapse_of_nontrivial (h : (used c v).Nontrivial) : collapse c v = branch c v := by
  obtain ⟨i, hi, j, hj, hij⟩ := h
  rw [collapse, dif_neg, if_neg]
  · intro hnil
    cases i with
    | some a => exact hi (hnil a)
    | none =>
      cases j with
      | some b => exact hj (hnil b)
      | none => exact hij rfl
  · rintro ⟨rfl, a, ha⟩
    have honly : ∀ k ∈ used c none, k = some a := by
      intro k hk
      cases k with
      | none => exact absurd rfl hk
      | some b => rw [(ha b).mp hk]
    exact hij ((honly i hi).trans (honly j hj).symm)

/-- Two places in use, or one child, or no child at all. -/
lemma collapse_cases (c : α → Node α V) (v : Option V) :
    (used c v).Nontrivial ∨ (v = none ∧ ∃ a, ∀ b, c b ≠ nil ↔ b = a) ∨ ∀ b, c b = nil := by
  by_cases hnil : ∀ b, c b = nil
  · exact Or.inr (Or.inr hnil)
  by_cases hu : (used c v).Nontrivial
  · exact Or.inl hu
  rw [Set.not_nontrivial_iff] at hu
  push Not at hnil
  obtain ⟨a, ha⟩ := hnil
  have ha' : some a ∈ used c v := ha
  refine Or.inr (Or.inl ⟨?_, a, fun b => ⟨fun hb => ?_, fun e => e ▸ ha⟩⟩)
  · by_contra hv
    exact Option.some_ne_none a (hu ha' hv)
  · exact Option.some.inj (hu hb ha')

/-- A collapsed branch is canonical.

**Proof sketch.** With two places in use it stays. With a child alone it is the child behind its
letter, by `Canon.prepend`, and without children it is a leaf or empty. -/
lemma Canon.collapse (hc : ∀ a, Canon (c a)) (v : Option V) : Canon (collapse c v) := by
  rcases collapse_cases c v with hu | ⟨rfl, a, ha⟩ | hnil
  · rw [collapse_of_nontrivial hu]
    exact .branch hc hu
  · rw [collapse_child ha]
    exact (hc a).prepend [a]
  · rw [collapse_empty hnil]
    cases v with
    | none => exact .nil
    | some w => exact .leaf [] w

variable [DecidableEq α]

/-- A collapsed branch has the entries of the branch. -/
lemma lookup_collapse (c : α → Node α V) (v : Option V) (x : List α) :
    (collapse c v).lookup x = (branch c v).lookup x := by
  rcases collapse_cases c v with hu | ⟨rfl, a, ha⟩ | hnil
  · rw [collapse_of_nontrivial hu]
  · rw [collapse_child ha, lookup_prepend]
    cases x with
    | nil => simp [List.dropPrefix?]
    | cons b x =>
      by_cases hab : b = a
      · simp [hab, List.dropPrefix?]
      · have hb : c b = nil := by
          by_contra hb
          exact hab ((ha b).mp hb)
        simp [hab, hb, List.dropPrefix?]
  · rw [collapse_empty hnil]
    cases v with
    | none => cases x <;> simp [hnil]
    | some w => cases x <;> simp [hnil, lookup_leaf]

/-- The tree without a word, or nothing if the word is not there. -/
noncomputable def delete : Node α V → List α → Option (Node α V)
  | nil, _ => none
  | leaf k _, key => if key = k then some nil else none
  | ext k n, key => (key.dropPrefix? k).bind fun r => (n.delete r).map (prepend k)
  | branch c v, [] => v.map fun _ => collapse c none
  | branch c v, a :: key => ((c a).delete key).map fun n => collapse (update c a n) v

/-- Removal fails when there is no entry. -/
theorem delete_eq_none_iff (n : Node α V) (key : List α) :
    n.delete key = none ↔ n.lookup key = none := by
  induction n generalizing key with
  | nil => simp [delete]
  | leaf k v => simp [delete, lookup_leaf]
  | ext k n ih =>
    rw [delete, lookup_ext]
    cases key.dropPrefix? k with
    | none => simp
    | some r => simpa using ih r
  | branch c v ih =>
    cases key with
    | nil => simp [delete]
    | cons a key => simpa [delete] using ih a key

/-- **Deletion**: the word loses its value, and no other does. -/
theorem lookup_delete {n n' : Node α V} {key : List α} (h : n.delete key = some n')
    (x : List α) : n'.lookup x = if x = key then none else n.lookup x := by
  induction n generalizing n' key x with
  | nil => simp [delete] at h
  | leaf k v =>
    simp only [delete, Option.ite_none_right_eq_some, Option.some.injEq] at h
    obtain ⟨rfl, rfl⟩ := h
    simp [lookup_leaf]
  | ext k n ih =>
    simp only [delete, Option.bind_eq_some_iff, Option.map_eq_some_iff] at h
    obtain ⟨r, hr, m, hm, rfl⟩ := h
    rw [dropPrefix_eq_some] at hr
    subst hr
    rw [lookup_prepend, lookup_ext]
    cases hx : x.dropPrefix? k with
    | some y => simp [dropPrefix_eq_some.mp hx, ih hm]
    | none => simp
  | branch c v ih =>
    cases key with
    | nil =>
      simp only [delete, Option.map_eq_some_iff] at h
      obtain ⟨w, rfl, rfl⟩ := h
      rw [lookup_collapse]
      cases x <;> simp
    | cons a key =>
      simp only [delete, Option.map_eq_some_iff] at h
      obtain ⟨m, hm, rfl⟩ := h
      rw [lookup_collapse]
      cases x with
      | nil => simp
      | cons b x =>
        by_cases hab : b = a
        · subst hab
          simp [ih b hm]
        · simp [hab]

/-- Deletion keeps a tree canonical. -/
theorem Canon.delete {n n' : Node α V} (hn : Canon n) {key : List α}
    (h : n.delete key = some n') : Canon n' := by
  induction hn generalizing n' key with
  | nil => simp [Node.delete] at h
  | leaf k v =>
    simp only [Node.delete, Option.ite_none_right_eq_some, Option.some.injEq] at h
    exact h.2 ▸ .nil
  | ext hk hn ih =>
    simp only [Node.delete, Option.bind_eq_some_iff, Option.map_eq_some_iff] at h
    obtain ⟨r, -, m, hm, rfl⟩ := h
    exact (ih hm).prepend _
  | branch hc hu ih =>
    cases key with
    | nil =>
      simp only [Node.delete, Option.map_eq_some_iff] at h
      obtain ⟨w, -, rfl⟩ := h
      exact Canon.collapse hc none
    | cons a key =>
      simp only [Node.delete, Option.map_eq_some_iff] at h
      obtain ⟨m, hm, rfl⟩ := h
      exact Canon.collapse (Canon.update hc (ih a hm) a) _

end Delete

/-! ### One tree for a map -/

section Unique

variable {α V : Type*} [DecidableEq α] {k l : List α} {c : α → Node α V}
  {v w : Option V} {n : Node α V}

/-- A canonical tree that is not empty has an entry. -/
lemma Canon.exists_lookup (h : Canon n) (hne : n ≠ .nil) : ∃ x, n.lookup x ≠ none := by
  induction h with
  | nil => exact absurd rfl hne
  | leaf k v => exact ⟨k, by simp [lookup_leaf]⟩
  | @ext k c v hk hn ih =>
    obtain ⟨x, hx⟩ := ih (by simp)
    exact ⟨k ++ x, by simpa [lookup_ext, dropPrefix_eq_some.mpr] using hx⟩
  | @branch c v hc hu ih =>
    obtain ⟨i, hi⟩ := hu.nonempty
    cases i with
    | none => exact ⟨[], hi⟩
    | some a =>
      obtain ⟨x, hx⟩ := ih a hi
      exact ⟨a :: x, hx⟩

/-- A word behind every place of a branch that is in use. -/
lemma Canon.exists_head (h : Canon (.branch c v))
    {i : Option α} (hi : i ∈ used c v) : ∃ x, x.head? = i ∧ (Node.branch c v).lookup x ≠ none := by
  cases i with
  | none => exact ⟨[], rfl, hi⟩
  | some a =>
    obtain ⟨x, hx⟩ := (h.of_branch a).exists_lookup hi
    exact ⟨a :: x, rfl, hx⟩

/-- The words of a branch do not all begin like a given one. -/
lemma Canon.exists_apart (h : Canon (.branch c v))
    (y : List α) : ∃ x, (Node.branch c v).lookup x ≠ none ∧ x ≠ y ∧ Apart y x := by
  obtain ⟨i, hi, hne⟩ := h.nontrivial.exists_ne y.head?
  obtain ⟨x, rfl, hx⟩ := h.exists_head hi
  refine ⟨x, hx, fun e => hne (by rw [e]), ?_⟩
  rintro a y' x' rfl rfl
  exact hne rfl

omit [DecidableEq α] in
/-- A canonical tree is empty, a leaf, or a branch behind a word. -/
lemma Canon.cases_prepend (h : Canon n) :
    n = .nil ∨ (∃ k v, n = .leaf k v) ∨
      ∃ p c v, n = Node.prepend p (.branch c v) ∧ Canon (.branch c v) := by
  cases h with
  | nil => exact Or.inl rfl
  | leaf k v => exact Or.inr (Or.inl ⟨k, v, rfl⟩)
  | @ext k c v hk hn => exact Or.inr (Or.inr ⟨k, c, v, (prepend_branch hk c v).symm, hn⟩)
  | @branch c v hc hu =>
    exact Or.inr (Or.inr ⟨[], c, v, (prepend_nil _).symm, .branch hc hu⟩)

/-- What all words of a tree share is not longer than what is in front of its branch. -/
lemma Canon.front_le {p q : List α} {c d : α → Node α V} (hc : Canon (.branch c v))
    (h : ∀ x, (Node.prepend p (.branch c v)).lookup x =
      (Node.prepend (p ++ q) (.branch d w)).lookup x) : q = [] := by
  cases q with
  | nil => rfl
  | cons a q =>
    obtain ⟨i, hi, hne⟩ := hc.nontrivial.exists_ne (some a)
    obtain ⟨x, rfl, hx⟩ := hc.exists_head hi
    have hx' := h (p ++ x)
    rw [lookup_prepend_append, lookup_prepend, dropPrefix_append] at hx'
    cases hdrop : x.dropPrefix? (a :: q) with
    | none => exact absurd (hx'.trans (by rw [hdrop]; rfl)) hx
    | some r => exact absurd (by rw [dropPrefix_eq_some.mp hdrop]; rfl) hne

/-- The word in front of a branch is what all words of the tree share.

**Proof sketch.** A word with an entry begins with both fronts, so one of them begins with the
other. By `Canon.front_le` nothing is left between them. -/
lemma Canon.front_eq {p q : List α} {c d : α → Node α V}
    (hc : Canon (.branch c v)) (hd : Canon (.branch d w))
    (h : ∀ x, (Node.prepend p (.branch c v)).lookup x =
      (Node.prepend q (.branch d w)).lookup x) : p = q := by
  obtain ⟨x, hx⟩ := hc.exists_lookup (by simp)
  have hx' := h (p ++ x)
  rw [lookup_prepend_append, lookup_prepend] at hx'
  obtain ⟨r, hr⟩ : ∃ r, p ++ x = q ++ r := by
    cases hdrop : (p ++ x).dropPrefix? q with
    | none => exact absurd (hx'.trans (by rw [hdrop]; rfl)) hx
    | some r => exact ⟨r, dropPrefix_eq_some.mp hdrop⟩
  -- both fronts are in front of the same word
  rcases append_eq_append_iff.mp hr with ⟨z, rfl, -⟩ | ⟨z, rfl, -⟩
  · rw [hc.front_le h, append_nil]
  · rw [hd.front_le fun x => (h x).symm, append_nil]

/-- A branch has two entries and a leaf has one. -/
lemma Canon.leaf_ne {p : List α} (hc : Canon (.branch c v)) (k : List α) (w : V) :
    ¬ ∀ x, (Node.leaf k w).lookup x = (Node.prepend p (.branch c v)).lookup x := by
  intro h
  have hk : ∀ x, (Node.branch c v).lookup x ≠ none → p ++ x = k := by
    intro x hx
    rw [← lookup_prepend_append p, ← h, lookup_leaf] at hx
    by_contra hne
    exact hx (if_neg hne)
  obtain ⟨i, hi, j, hj, hij⟩ := hc.nontrivial
  obtain ⟨x, rfl, hx⟩ := hc.exists_head hi
  obtain ⟨y, rfl, hy⟩ := hc.exists_head hj
  exact hij (by rw [append_cancel_left ((hk x hx).trans (hk y hy).symm)])

/-- **One tree for a map**: canonical trees with the same words and values are the same.

**Proof sketch.** A tree without words is empty, one with a single word is a leaf, and the words
of any other share exactly what is in front of its first branch. -/
theorem Canon.eq_of_lookup {n m : Node α V} (hn : Canon n) (hm : Canon m)
    (h : ∀ x, n.lookup x = m.lookup x) : n = m := by
  induction hn generalizing m with
  | nil =>
    by_contra hne
    obtain ⟨x, hx⟩ := hm.exists_lookup (Ne.symm hne)
    exact hx (h x).symm
  | leaf k v =>
    have hk := h k
    rcases hm.cases_prepend with rfl | ⟨k', v', rfl⟩ | ⟨p, c, w, rfl, hc⟩
    · simp [lookup_leaf] at hk
    · rw [lookup_leaf, lookup_leaf, if_pos rfl] at hk
      split_ifs at hk with e
      rw [e, Option.some.inj hk]
    · exact absurd h (hc.leaf_ne k v)
  | @ext k c v hk hn ih =>
    rw [← prepend_branch hk] at h ⊢
    rcases hm.cases_prepend with rfl | ⟨k', v', rfl⟩ | ⟨p, d, w, rfl, hd⟩
    · obtain ⟨x, hx⟩ := (hn.prepend k).exists_lookup (prepend_ne_nil (by simp) k)
      exact absurd (h x) hx
    · exact absurd (fun x => (h x).symm) (hn.leaf_ne k' v')
    · obtain rfl := hn.front_eq hd h
      rw [ih hd fun x => by simpa [lookup_prepend_append] using h (k ++ x)]
  | @branch c v hc hu ih =>
    have hn : Canon (.branch c v) := .branch hc hu
    rcases hm.cases_prepend with rfl | ⟨k', v', rfl⟩ | ⟨p, d, w, rfl, hd⟩
    · obtain ⟨x, hx⟩ := hn.exists_lookup (by simp)
      exact absurd (h x) hx
    · exact absurd (fun x => (h x).symm.trans (by rw [prepend_nil])) (hn.leaf_ne k' v')
    · obtain rfl : [] = p := hn.front_eq hd (by simpa using h)
      rw [prepend_nil] at h ⊢
      have hchild : c = d := funext fun a => ih a (hd.of_branch a) fun x => h (a :: x)
      have hvalue : v = w := h []
      rw [hchild, hvalue]

end Unique

end Node

end Patricia
