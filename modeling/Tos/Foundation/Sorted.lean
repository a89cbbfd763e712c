import Mathlib.Data.List.Sort

/-!
# The middle of a sorted list

A property that is inherited in the direction of the order, and that more than half of a list has,
is a property of the element in the middle of the sorted list. With the properties of being above a
lower bound and below an upper one this says that the median cannot leave an interval that holds
more than half of the values.

## Main results

* `Tos.Sorted.middle_of_upward`, `middle_of_downward`: the middle element has the
  property.
-/

namespace Tos.Sorted

open List

variable {α : Type*} {r : α → α → Prop} {l : List α} {k : ℕ} {P : α → Prop} [DecidablePred P]

/-- If the elements of a part of a list do not have a property, at most the rest has it. -/
lemma countP_le_of_append {l₁ l₂ : List α} (h : ∀ a ∈ l₁, ¬ P a) :
    (l₁ ++ l₂).countP (fun a => decide (P a)) ≤ l₂.length := by
  rw [countP_append, countP_eq_zero.mpr (by simpa using h), Nat.zero_add]
  exact countP_le_length

/-- A property that goes up, of more than half of the elements, is one of the middle element. -/
theorem middle_of_upward (hl : l.Pairwise r) (hk : l.length = 2 * k + 1)
    (hup : ∀ a b, r a b → P a → P b) (hcount : l.length < 2 * l.countP (fun a => decide (P a)))
    (h : k < l.length) : P l[k] := by
  by_contra hP
  -- then no element up to the middle has it
  have hlow : ∀ a ∈ l.take (k + 1), ¬ P a := by
    intro a ha hPa
    obtain ⟨i, hi, rfl⟩ := mem_iff_getElem.mp ha
    rw [length_take] at hi
    rw [getElem_take] at hPa
    obtain hik | rfl := Nat.lt_or_eq_of_le (show i ≤ k by omega)
    · exact hP (hup _ _ (pairwise_iff_getElem.mp hl i k _ h hik) hPa)
    · exact hP hPa
  have hle := @countP_le_of_append _ P _ _ (l.drop (k + 1)) hlow
  rw [take_append_drop, length_drop] at hle
  omega

/-- A property that goes down, of more than half of the elements, is one of the middle element. -/
theorem middle_of_downward (hl : l.Pairwise r) (hk : l.length = 2 * k + 1)
    (hdown : ∀ a b, r a b → P b → P a) (hcount : l.length < 2 * l.countP (fun a => decide (P a)))
    (h : k < l.length) : P l[k] := by
  by_contra hP
  -- then no element from the middle on has it
  have hhigh : ∀ a ∈ l.drop k, ¬ P a := by
    intro a ha hPa
    obtain ⟨i, hi, rfl⟩ := mem_iff_getElem.mp ha
    rw [length_drop] at hi
    rw [getElem_drop] at hPa
    obtain rfl | hi0 := Nat.eq_zero_or_pos i
    · exact hP hPa
    · exact hP (hdown _ _ (pairwise_iff_getElem.mp hl k (k + i) h _ (by omega)) hPa)
  have hle := @countP_le_of_append _ P _ _ (l.take k) hhigh
  rw [perm_append_comm.countP_eq, take_append_drop,
    length_take] at hle
  omega

end Tos.Sorted
