import Mathlib.Data.List.Induction
import Mathlib.Data.List.Nodup
import Mathlib.Logic.Relation

/-!
# Arrival orders

Items with keys arrive one after the other, and each names the keys of the items it depends on.
An item settles if it arrives behind the items it depends on, and these do too, all the way
down. This file says what settles when one more item arrives, so that a process that looks only
at the items that have settled so far can be compared with it.

## Main results

* `Arrival.settles_concat`: the items that settle with one more arrival.
* `Arrival.inOrder_iff`: everything settles exactly when the items arrive in order.
* `Arrival.settles_append_iff`: when the later items settle without the earlier ones.
-/

namespace Arrival

open List
open Relation.ReflTransGen (cases_head head mono)

variable {α β : Type*} (key : β → α) (deps : β → List α)

/-- `y` comes before `x`. -/
def Precedes (ks : List α) (y x : α) : Prop := ∃ pre post, ks = pre ++ x :: post ∧ y ∈ pre

/-- An item with key `x` depends on `y`. -/
def Link (l : List β) (x y : α) : Prop := ∃ b ∈ l, key b = x ∧ y ∈ deps b

/-- The item `x` has arrived, and whatever it depends on, directly or not, has arrived in
order. -/
def Settles (l : List β) (x : α) : Prop :=
  x ∈ l.map key ∧ ∀ y z, Relation.ReflTransGen (Link key deps l) x y → Link key deps l y z →
    Precedes (l.map key) z y

/-- Every item arrives behind the items it depends on. -/
def InOrder (l : List β) : Prop :=
  ∀ pre b post, l = pre ++ b :: post → ∀ y ∈ deps b, y ∈ pre.map key

/-! ### Positions -/

variable {x y : α}

section Precedes

variable {ks : List α}

/-- An element of a list without repetitions stands at one place. -/
lemma split_unique {pre post pre' post' : List α} (hnd : ks.Nodup)
    (h : ks = pre ++ x :: post) (h' : ks = pre' ++ x :: post') : pre = pre' := by
  have hnot : x ∉ pre ∧ x ∉ post := by
    rw [h, nodup_append] at hnd
    obtain ⟨-, hpost, hdisj⟩ := hnd
    exact ⟨fun hx => hdisj x hx x mem_cons_self rfl, (List.nodup_cons.mp hpost).1⟩
  exact ((append_cons_inj_of_notMem hnot.1 hnot.2).mp (h ▸ h')).1

lemma Precedes.mem (h : Precedes ks y x) : y ∈ ks := by
  obtain ⟨pre, post, rfl, hy⟩ := h
  exact mem_append_left _ hy

lemma Precedes.append (h : Precedes ks y x) (k : α) : Precedes (ks ++ [k]) y x := by
  obtain ⟨pre, post, rfl, hy⟩ := h
  exact ⟨pre, post ++ [k], by simp, hy⟩

/-- The order of the elements that are there does not change with a later one. -/
lemma Precedes.of_append {k y x : α} (hnd : (ks ++ [k]).Nodup) (hx : x ∈ ks)
    (h : Precedes (ks ++ [k]) y x) : Precedes ks y x := by
  obtain ⟨pre, post, e, hy⟩ := h
  obtain ⟨pre', post', rfl⟩ := append_of_mem hx
  obtain rfl := split_unique hnd e (show _ = pre' ++ x :: (post' ++ [k]) by simp)
  exact ⟨pre, post', rfl, hy⟩

/-- Before the last element come all others. -/
lemma precedes_last {k y : α} (hnd : (ks ++ [k]).Nodup) : Precedes (ks ++ [k]) y k ↔ y ∈ ks := by
  constructor
  · rintro ⟨pre, post, e, hy⟩
    rwa [split_unique hnd e rfl] at hy
  · exact fun hy => ⟨ks, [], rfl, hy⟩

end Precedes

/-! ### One more arrival -/

section Concat

variable {key deps} {l : List β} {b : β}

lemma Link.mem (h : Link key deps l x y) : x ∈ l.map key := by
  obtain ⟨c, hc, rfl, -⟩ := h
  exact mem_map_of_mem hc

lemma Link.concat (h : Link key deps l x y) : Link key deps (l ++ [b]) x y := by
  obtain ⟨c, hc, e⟩ := h
  exact ⟨c, mem_append_left _ hc, e⟩

/-- The links of the new item, and of the others. -/
lemma link_concat_iff :
    Link key deps (l ++ [b]) x y ↔ Link key deps l x y ∨ (x = key b ∧ y ∈ deps b) := by
  constructor
  · rintro ⟨c, hc, rfl, hy⟩
    rcases mem_append.mp hc with hc | hc
    · exact Or.inl ⟨c, hc, rfl, hy⟩
    · rw [List.mem_singleton.mp hc] at hy ⊢
      exact Or.inr ⟨rfl, hy⟩
  · rintro (h | ⟨rfl, hy⟩)
    · exact h.concat
    · exact ⟨b, by simp, rfl, hy⟩

/-- What settles stays settled: nothing it depends on has arrived late. -/
lemma Settles.concat (hnd : ((l ++ [b]).map key).Nodup) (h : Settles key deps l x) :
    Settles key deps (l ++ [b]) x := by
  rw [map_append, map_singleton] at hnd
  have hlink : ∀ {y z}, y ∈ l.map key → Link key deps (l ++ [b]) y z → Link key deps l y z := by
    intro y z hy hyz
    rcases link_concat_iff.mp hyz with hyz | ⟨rfl, -⟩
    · exact hyz
    · exact absurd rfl ((nodup_append.mp hnd).2.2 _ hy _ (mem_singleton_self _))
  have hreach : ∀ y, Relation.ReflTransGen (Link key deps (l ++ [b])) x y →
      y ∈ l.map key ∧ Relation.ReflTransGen (Link key deps l) x y := by
    intro y hy
    induction hy with
    | refl => exact ⟨h.1, .refl⟩
    | tail _ hyz ih =>
      have hyz' := hlink ih.1 hyz
      exact ⟨(h.2 _ _ ih.2 hyz').mem, ih.2.tail hyz'⟩
  refine ⟨by simpa using Or.inl h.1, fun y z hy hyz => ?_⟩
  obtain ⟨hmem, hy⟩ := hreach y hy
  rw [map_append, map_singleton]
  exact (h.2 y z hy (hlink hmem hyz)).append (key b)

/-- What settles when one more item arrives: what had settled, and the new item if all it
depends on has settled. -/
theorem settles_concat (hnd : ((l ++ [b]).map key).Nodup) :
    Settles key deps (l ++ [b]) x ↔
      Settles key deps l x ∨ (x = key b ∧ ∀ y ∈ deps b, Settles key deps l y) := by
  have hnd' : (l.map key ++ [key b]).Nodup := by simpa using hnd
  -- what an item of `l` depends on among the items of `l`
  have hback : ∀ {y}, y ∈ l.map key →
      (∀ u v, Relation.ReflTransGen (Link key deps (l ++ [b])) y u →
        Link key deps (l ++ [b]) u v → Precedes ((l ++ [b]).map key) v u) →
      Settles key deps l y := by
    intro y hy h
    refine ⟨hy, fun u v hu huv => ?_⟩
    have hp := h u v (mono (fun _ _ => Link.concat) _ _ hu) huv.concat
    rw [map_append, map_singleton] at hp
    exact hp.of_append hnd' huv.mem
  constructor
  · rintro ⟨hx, h⟩
    by_cases hl : x ∈ l.map key
    · exact Or.inl (hback hl h)
    · obtain rfl : x = key b := by simpa [hl] using hx
      refine Or.inr ⟨rfl, fun y hy => ?_⟩
      have hlink : Link key deps (l ++ [b]) (key b) y := link_concat_iff.mpr (Or.inr ⟨rfl, hy⟩)
      have hmem : y ∈ l.map key := by
        have hp := h _ y .refl hlink
        rw [map_append, map_singleton] at hp
        exact (precedes_last hnd').mp hp
      exact hback hmem fun u v hu => h u v (head hlink hu)
  · rintro (h | ⟨rfl, h⟩)
    · exact h.concat hnd
    · refine ⟨by simp, fun y z hy hyz => ?_⟩
      rcases cases_head hy with rfl | ⟨u, hu, huy⟩
      · have hz : z ∈ l.map key := by
          rcases link_concat_iff.mp hyz with hyz | ⟨-, hz⟩
          · exact absurd rfl
              ((nodup_append.mp hnd').2.2 _ hyz.mem _ (mem_singleton_self _))
          · exact (h z hz).1
        rw [map_append, map_singleton]
        exact (precedes_last hnd').mpr hz
      · rcases link_concat_iff.mp hu with hu | ⟨-, hu⟩
        · exact absurd rfl
            ((nodup_append.mp hnd').2.2 _ hu.mem _ (mem_singleton_self _))
        · exact ((h u hu).concat hnd).2 y z huy hyz

end Concat

/-- Everything settles exactly when every item arrives behind the items it depends on. -/
theorem inOrder_iff {l : List β} (hnd : (l.map key).Nodup) :
    InOrder key deps l ↔ ∀ x ∈ l.map key, Settles key deps l x := by
  constructor
  · intro h x hx
    refine ⟨hx, ?_⟩
    rintro y z - ⟨b, hb, rfl, hz⟩
    obtain ⟨pre, post, rfl⟩ := append_of_mem hb
    exact ⟨pre.map key, post.map key, by simp, h pre b post rfl z hz⟩
  · rintro h pre b post rfl y hy
    have hset := h (key b) (by simp)
    obtain ⟨pre', post', e, hy'⟩ := hset.2 _ y .refl ⟨b, by simp, rfl, hy⟩
    rwa [← split_unique hnd (show _ = pre.map key ++ key b :: post.map key by simp) e] at hy'

/-! ### Later arrivals without the earlier ones -/

section Append

variable {key deps} {pre post : List β}

lemma Settles.dep {l : List β} {b : β} (h : Settles key deps l (key b)) (hb : b ∈ l)
    (hy : y ∈ deps b) : Settles key deps l y := by
  have hlink : Link key deps l (key b) y := ⟨b, hb, rfl, hy⟩
  exact ⟨(h.2 _ y .refl hlink).mem, fun u v hu => h.2 u v (head hlink hu)⟩

lemma notMem_of_nodup (hnd : ((pre ++ post).map key).Nodup) (hx : x ∈ post.map key) :
    x ∉ pre.map key := by
  rw [map_append] at hnd
  exact fun h => (nodup_append.mp hnd).2.2 x h x hx rfl

lemma nodup_of_concat {b : β} (hnd : ((pre ++ (post ++ [b])).map key).Nodup) :
    ((pre ++ post).map key).Nodup := by
  rw [← append_assoc, map_append] at hnd
  exact hnd.of_append_left

/-- Whether an earlier item settles does not depend on the later ones. -/
lemma settles_append_left (hnd : ((pre ++ post).map key).Nodup) (hx : x ∈ pre.map key) :
    Settles key deps (pre ++ post) x ↔ Settles key deps pre x := by
  induction post using List.reverseRecOn with
  | nil => rw [append_nil]
  | append_singleton post b ih =>
    have hne : x ≠ key b := by
      rintro rfl
      exact notMem_of_nodup hnd (by simp) hx
    rw [← append_assoc, settles_concat (by rwa [append_assoc]),
      ih (nodup_of_concat hnd)]
    simp [hne]

/-- What settles among the later items alone settles among all. -/
lemma Settles.append_right (hnd : ((pre ++ post).map key).Nodup)
    (h : Settles key deps post x) : Settles key deps (pre ++ post) x := by
  induction post using List.reverseRecOn generalizing x with
  | nil => cases h.1
  | append_singleton post b ih =>
    have hpost : ((post ++ [b]).map key).Nodup := by
      rw [map_append] at hnd
      exact (nodup_append.mp hnd).2.1
    have ih' := fun {y} => @ih y (nodup_of_concat hnd)
    rw [← append_assoc, settles_concat (by rwa [append_assoc])]
    rcases (settles_concat hpost).mp h with hx | ⟨rfl, hdeps⟩
    · exact Or.inl (ih' hx)
    · exact Or.inr ⟨rfl, fun y hy => ih' (hdeps y hy)⟩

/-- **Later arrivals without the earlier ones.** The later items that settle among all items settle
among the later ones alone exactly when none of them depends on an earlier item that has
settled. -/
theorem settles_append_iff (hnd : ((pre ++ post).map key).Nodup) :
    (∀ x ∈ post.map key, Settles key deps (pre ++ post) x → Settles key deps post x) ↔
      ∀ b ∈ post, Settles key deps (pre ++ post) (key b) → ∀ y ∈ deps b,
        ¬ Settles key deps pre y := by
  constructor
  · intro h b hb hset y hy hpre
    have hpost := (h (key b) (mem_map_of_mem hb) hset).dep hb hy
    exact notMem_of_nodup hnd hpost.1 hpre.1
  · induction post using List.reverseRecOn with
    | nil => intro _ x hx; cases hx
    | append_singleton post b ih =>
      intro hcond x hx hset
      have hnd' := nodup_of_concat hnd
      have hpost : ((post ++ [b]).map key).Nodup := by
        rw [map_append] at hnd
        exact (nodup_append.mp hnd).2.1
      have hconcat : ∀ z, Settles key deps (pre ++ (post ++ [b])) z ↔
          Settles key deps (pre ++ post) z ∨
            (z = key b ∧ ∀ y ∈ deps b, Settles key deps (pre ++ post) y) := by
        intro z
        rw [← append_assoc, settles_concat (by rwa [append_assoc])]
      -- the condition for the items before the last one
      have ih' := ih hnd' fun c hc hc' => hcond c (mem_append_left _ hc)
        ((hconcat _).mpr (Or.inl hc'))
      rw [settles_concat hpost]
      rcases (hconcat x).mp hset with h | ⟨rfl, h⟩
      · left
        refine ih' x ?_ h
        have hmem := h.1
        rw [map_append, mem_append] at hmem
        exact hmem.resolve_left (notMem_of_nodup hnd hx)
      · refine Or.inr ⟨rfl, fun y hy => ?_⟩
        have hnot := hcond b (by simp) hset y hy
        have hmem := (h y hy).1
        rw [map_append, mem_append] at hmem
        refine ih' y (hmem.resolve_left fun hpre => hnot ?_) (h y hy)
        exact (settles_append_left hnd' hpre).mp (h y hy)

end Append

end Arrival
