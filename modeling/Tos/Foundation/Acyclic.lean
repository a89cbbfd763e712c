import Mathlib.Logic.Relation
import Mathlib.Data.Set.Card

/-!
# Acyclic relations

A relation without cycles on a finite type can be ranked by natural numbers, so that functions
which follow the relation can be given a bound for their recursion depth.

## Main results

* `Acyclic.exists_rank`: a rank that drops along every edge.
-/

/-- A relation without cycles. -/
def Acyclic {α : Type*} (r : α → α → Prop) : Prop := ∀ x, ¬ Relation.TransGen r x x

namespace Acyclic

variable {α : Type*} {r : α → α → Prop}

/-- Ranking by the number of elements that can be reached. -/
theorem exists_rank [Finite α] (h : Acyclic r) : ∃ d : α → ℕ, ∀ x y, r x y → d y < d x := by
  refine ⟨fun x => {z | Relation.TransGen r x z}.ncard, fun x y hxy => ?_⟩
  refine Set.ncard_lt_ncard ⟨fun z hz => ?_, fun hsub => ?_⟩ (Set.toFinite _)
  · exact Relation.TransGen.head hxy hz
  · exact h y (hsub (Relation.TransGen.single hxy))

/-- A rank that drops along edges drops along paths. -/
lemma rank_le {d : α → ℕ} (hd : ∀ x y, r x y → d y < d x) {x y : α}
    (h : Relation.ReflTransGen r x y) : d y ≤ d x := by
  induction h with
  | refl => exact le_rfl
  | tail _ hyz ih => exact (hd _ _ hyz).le.trans ih

/-- A relation with a rank that drops along edges has no cycles. -/
lemma of_rank {d : α → ℕ} (hd : ∀ x y, r x y → d y < d x) : Acyclic r := by
  intro x hx
  obtain ⟨y, hxy, hyx⟩ := Relation.TransGen.head'_iff.mp hx
  have := hd x y hxy
  have := rank_le hd hyx
  omega

theorem not_reflTransGen (h : Acyclic r) {x y : α} (hxy : r x y) :
    ¬ Relation.ReflTransGen r y x := fun hyx => h x (Relation.TransGen.head' hxy hyx)

end Acyclic
