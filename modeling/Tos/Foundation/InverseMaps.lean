import Mathlib.Data.List.AList

/-!
# Two maps that are inverse to each other

A program that has to find `β`s by `α`s and `α`s by `β`s keeps two maps, and changes them together.
This file has the condition under which a pair may be inserted into both maps, or erased from both,
so that they stay inverse to each other.

## Main results

* `InverseMaps.insert`, `InverseMaps.erase`: the two maps stay inverse to each other.
-/

namespace Tos

variable {α β : Type} [DecidableEq α] [DecidableEq β]

/-- The two maps are inverse to each other. -/
def InverseMaps (f : AList fun _ : α => β) (g : AList fun _ : β => α) : Prop :=
  ∀ a b, f.lookup a = some b ↔ g.lookup b = some a

namespace InverseMaps

variable {f : AList fun _ : α => β} {g : AList fun _ : β => α} {a : α} {b : β}

/-- Where the maps have `a` or `b`, they have them for each other. -/
def Matches (f : AList fun _ : α => β) (g : AList fun _ : β => α) (a : α) (b : β) : Prop :=
  (∀ b', f.lookup a = some b' → b' = b) ∧ ∀ a', g.lookup b = some a' → a' = a

lemma empty : InverseMaps (∅ : AList fun _ : α => β) (∅ : AList fun _ : β => α) := by
  intro a b
  simp

lemma matches_of_lookup (h : InverseMaps f g) (hab : f.lookup a = some b) : Matches f g a b := by
  refine ⟨fun b' hb' => ?_, fun a' ha' => ?_⟩
  · exact Option.some.inj (hb'.symm.trans hab)
  · exact Option.some.inj (ha'.symm.trans ((h a b).mp hab))

/-- Keys that the maps do not have match. -/
lemma matches_of_none (ha : f.lookup a = none) (hb : g.lookup b = none) : Matches f g a b := by
  refine ⟨fun b' hb' => ?_, fun a' ha' => ?_⟩
  · rw [ha] at hb'
    cases hb'
  · rw [hb] at ha'
    cases ha'

/-- Maps that are changed only at `a` and at `b`, and match there before and after. -/
lemma change {f' : AList fun _ : α => β} {g' : AList fun _ : β => α} (h : InverseMaps f g)
    (hm : Matches f g a b) (hf : ∀ x ≠ a, f'.lookup x = f.lookup x)
    (hg : ∀ y ≠ b, g'.lookup y = g.lookup y) (hm' : Matches f' g' a b)
    (hab : f'.lookup a = some b ↔ g'.lookup b = some a) : InverseMaps f' g' := by
  intro x y
  by_cases hx : x = a
  · subst hx
    by_cases hy : y = b
    · subst hy
      exact hab
    · rw [hg y hy, ← h x y]
      exact ⟨fun e => absurd (hm'.1 y e) hy, fun e => absurd (hm.1 y e) hy⟩
  · rw [hf x hx, h x y]
    by_cases hy : y = b
    · subst hy
      exact ⟨fun e => absurd (hm.2 x e) hx, fun e => absurd (hm'.2 x e) hx⟩
    · rw [hg y hy]

/-- A pair that matches is inserted. -/
theorem insert (h : InverseMaps f g) (hm : Matches f g a b) :
    InverseMaps (f.insert a b) (g.insert b a) :=
  h.change hm (fun _ => AList.lookup_insert_ne) (fun _ => AList.lookup_insert_ne)
    ⟨by simp [eq_comm], by simp [eq_comm]⟩ (by simp)

/-- A pair that matches is erased. -/
theorem erase (h : InverseMaps f g) (hm : Matches f g a b) :
    InverseMaps (f.erase a) (g.erase b) :=
  h.change hm (fun _ => AList.lookup_erase_ne) (fun _ => AList.lookup_erase_ne)
    ⟨by simp, by simp⟩ (by simp)

end InverseMaps

end Tos
