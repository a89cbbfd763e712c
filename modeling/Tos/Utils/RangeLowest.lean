import Tos.Utils.RangeMask

/-!
# The smallest elements of a range mask

`lowest` copies ranges until a number of elements is reached and cuts the last of them short. Where
a range has to end for that is computed as an `unsigned` sum of its start and of the number of
elements that are still wanted; if that sum is `2 ^ 32` or more it comes out below the start, and
the range that is stored ends before it begins.

## Main results

* `lowestLoop_spec`: the loop where no sum overflows.
* `lowestLoop_overflows`: the loop where one does.
* `lowest_smallest_iff`: when `lowest` returns the smallest elements.
-/

namespace Tos.RangeMask

open List
open Intervals OrderedMap

/-- The loop of `lowest`. -/
def lowestLoop : List Range → Unsigned → Intervals Unsigned → Intervals Unsigned
  | [], _, ret => ret
  | r :: l, items, ret =>
    if items = 0 then ret
    else
      let finish := min (r.1 + items) r.2
      lowestLoop l (items - (finish - r.1)) (ret.set r.1 finish)

/-- `lowest`. -/
def lowest (m : RangeMask) (items : Unsigned) : RangeMask :=
  ⟨m.m_all, lowestLoop m.m_ranges.entries items .empty⟩

variable {m : RangeMask} {l : List Range} {r : Range} {ret : Intervals Unsigned}
  {items x : Unsigned}

/-! ### Elements below a point -/

/-- The number of elements below a point. -/
def below (l : List Range) (x : Unsigned) : ℕ :=
  (Finset.univ.filter fun y => Covers l y ∧ y < x).card

/-- Each range has its part of the elements below a point. -/
lemma below_eq_sum (h : Canonical l) (x : Unsigned) :
    below l x = (l.map fun r => (min r.2 x).val - r.1.val).sum := by
  have hcut : (Finset.univ.filter fun y => Covers l y ∧ y < x) =
      Finset.univ.filter (Covers (l.map fun r => (r.1, min r.2 x))) := by
    refine Finset.filter_congr fun y _ => ?_
    simp only [Covers, mem_map, exists_exists_and_eq_and, lt_min_iff]
    constructor
    · rintro ⟨⟨e, he, hle, hlt⟩, hx⟩
      exact ⟨e, he, hle, hlt, hx⟩
    · rintro ⟨e, he, hle, hlt, hx⟩
      exact ⟨⟨e, he, hle, hlt⟩, hx⟩
  rw [below, hcut, card_covers, map_map]
  · refine congrArg List.sum (map_congr_left fun r _ => ?_)
    exact Fin.card_Ico _ _
  · refine pairwise_map.mpr (h.apart.imp fun {r r'} hlt => ?_)
    exact (min_le_left _ _).trans hlt.le

lemma below_cons (h : Canonical (r :: l)) (x : Unsigned) :
    below (r :: l) x = ((min r.2 x).val - r.1.val) + below l x := by
  rw [below_eq_sum h, below_eq_sum (canonical_cons.mp h).2.2, map_cons, sum_cons]

lemma below_eq_zero (h : ∀ r ∈ l, x ≤ r.1) : below l x = 0 := by
  rw [below, Finset.card_eq_zero, Finset.filter_eq_empty_iff]
  rintro y - ⟨⟨e, he, hle, -⟩, hlt⟩
  exact absurd hlt ((h e he).trans hle).not_gt

lemma below_cons_of_le (h : Canonical (r :: l)) (hx : x ≤ r.2) :
    below (r :: l) x = x.val - r.1.val := by
  have hap := (canonical_cons.mp h).2.1
  rw [below_cons h, min_eq_right hx, below_eq_zero fun r' hr' => hx.trans (hap r' hr').le, add_zero]

lemma below_cons_of_ge (h : Canonical (r :: l)) (hx : r.2 ≤ x) :
    below (r :: l) x = (r.2.val - r.1.val) + below l x := by
  rw [below_cons h, min_eq_left hx]

/-! ### The loop -/

/-- No range has to end beyond the largest `unsigned`. -/
def Fits (l : List Range) (items : Unsigned) : Prop :=
  ∀ r ∈ l, below l r.1 < items.val → r.1.val + (items.val - below l r.1) < 2 ^ 32

/-- The first range fits if anything is wanted. -/
lemma Fits.head (h : Fits (r :: l) items) (hc : Canonical (r :: l)) (hitems : items ≠ 0) :
    r.1.val + items.val < 2 ^ 32 := by
  have hzero : below (r :: l) r.1 = 0 := by
    rw [below_cons_of_le hc (canonical_cons.mp hc).1.le, Nat.sub_self]
  have hpos : 0 < items.val := Nat.pos_of_ne_zero fun h => hitems (Fin.ext h)
  have hfit := h r mem_cons_self (by omega)
  omega

/-- The other ranges fit with what is left when the first one is copied. -/
lemma Fits.tail (h : Fits (r :: l) items) (hc : Canonical (r :: l)) {rest : Unsigned}
    (hrest : rest.val + (r.2.val - r.1.val) = items.val) : Fits l rest := by
  intro r' hr' hlt
  have hge := ((canonical_cons.mp hc).2.1 r' hr').le
  have hfit := h r' (mem_cons_of_mem r hr')
  rw [below_cons_of_ge hc hge] at hfit
  have hval := hfit (by omega)
  omega

/-- The end of a range that fits. -/
lemma val_finish (hfit : r.1.val + items.val < 2 ^ 32) :
    (min (r.1 + items) r.2).val = min (r.1.val + items.val) r.2.val := by
  have hadd : (r.1 + items).val = r.1.val + items.val := by
    rw [Fin.val_add]
    exact Nat.mod_eq_of_lt hfit
  rw [Fin.coe_min, hadd]

/-- What is left to be taken after a range that fits. -/
lemma val_rest (hfit : r.1.val + items.val < 2 ^ 32) (hr : r.1 < r.2) :
    (items - (min (r.1 + items) r.2 - r.1)).val = items.val - (r.2.val - r.1.val) := by
  have hr : r.1.val < r.2.val := hr
  have hfin := @val_finish r items hfit
  have hle : r.1 ≤ min (r.1 + items) r.2 := by
    rw [Fin.le_def, hfin]
    omega
  have hsub : (min (r.1 + items) r.2 - r.1).val = min (r.1.val + items.val) r.2.val - r.1.val := by
    rw [Fin.sub_val_of_le hle, hfin]
  have hle' : min (r.1 + items) r.2 - r.1 ≤ items := by
    rw [Fin.le_def, hsub]
    omega
  rw [Fin.sub_val_of_le hle', hsub]
  omega

lemma lowestLoop_cons (hne : items ≠ 0) :
    lowestLoop (r :: l) items ret = lowestLoop l (items - (min (r.1 + items) r.2 - r.1))
      (ret.set r.1 (min (r.1 + items) r.2)) := by
  rw [lowestLoop, if_neg hne]

/-- **The loop where no sum overflows.** It adds the elements that have fewer than `items` below
them.

**Proof sketch.** By induction over the ranges. If the first range has as many elements as are
wanted or more, it is cut and the loop ends; otherwise it is copied, and its elements count as
taken. -/
theorem lowestLoop_spec (hl : Canonical l) (hfits : Fits l items) (hret : Canonical ret.entries)
    (hlt : ∀ e ∈ ret.entries, ∀ r ∈ l, e.2 < r.1) :
    Canonical (lowestLoop l items ret).entries ∧
      ∀ x, Covers (lowestLoop l items ret).entries x ↔
        Covers ret.entries x ∨ (Covers l x ∧ below l x < items.val) := by
  induction l generalizing items ret with
  | nil => exact ⟨hret, fun x => by simp [lowestLoop]⟩
  | cons r l ih =>
    obtain ⟨hr, hap, hl'⟩ := canonical_cons.mp hl
    by_cases hzero : items = 0
    · rw [lowestLoop, if_pos hzero]
      exact ⟨hret, fun x => by simp [hzero]⟩
    · have hfit := hfits.head hl hzero
      have hpos : 0 < items.val := Nat.pos_of_ne_zero fun h => hzero (Fin.ext h)
      have hrval : r.1.val < r.2.val := hr
      have hfin := @val_finish r items hfit
      have hrest := @val_rest r items hfit hr
      rw [lowestLoop_cons hzero]
      generalize items - (min (r.1 + items) r.2 - r.1) = rest at hrest ⊢
      generalize min (r.1 + items) r.2 = finish at hfin ⊢
      have hbehind : ∀ e ∈ ret.entries, e.2 < r.1 := fun e he => hlt e he r mem_cons_self
      have hcov (x : Unsigned) := @covers_set_of_forall_lt _ _ ret r.1 finish x hret hbehind
      have hset : Canonical (ret.set r.1 finish).entries := by
        refine hret.set_of_forall_lt ?_ hbehind
        rw [Fin.lt_def, hfin]
        omega
      -- an element of the later ranges has all of the first range below it
      have hlater (x : Unsigned) (hx : Covers l x) :
          below (r :: l) x = (r.2.val - r.1.val) + below l x := by
        obtain ⟨e, he, hle, -⟩ := hx
        exact below_cons_of_ge hl ((hap e he).le.trans hle)
      by_cases hcut : items.val < r.2.val - r.1.val
      · -- the range is cut: nothing is left to be taken
        have hnone : rest = 0 := Fin.ext (by rw [hrest, Fin.val_zero]; omega)
        have hstop : lowestLoop l rest (ret.set r.1 finish) = ret.set r.1 finish := by
          rw [hnone]
          cases l with
          | nil => rfl
          | cons => exact if_pos rfl
        rw [hstop]
        refine ⟨hset, fun x => ?_⟩
        rw [hcov, covers_cons]
        refine or_congr_right ?_
        constructor
        · rintro ⟨hrx, hx⟩
          rw [Fin.lt_def, hfin] at hx
          rw [Fin.le_def] at hrx
          have hxr : x < r.2 := by
            rw [Fin.lt_def]
            omega
          refine ⟨.inl ⟨hrx, hxr⟩, ?_⟩
          rw [below_cons_of_le hl hxr.le]
          omega
        · rintro ⟨⟨hrx, hxr⟩ | hx, hlt⟩
          · rw [below_cons_of_le hl hxr.le] at hlt
            refine ⟨hrx, ?_⟩
            rw [Fin.le_def] at hrx
            rw [Fin.lt_def] at hxr ⊢
            rw [hfin]
            omega
          · rw [hlater x hx] at hlt
            omega
      · -- the whole range is copied
        have hwhole : finish = r.2 := Fin.ext (by rw [hfin]; omega)
        subst hwhole
        have hfits' : Fits l rest := hfits.tail hl (by omega)
        have ih := ih hl' hfits' hset ?_
        · refine ⟨ih.1, fun x => ?_⟩
          rw [ih.2, hcov, covers_cons, or_assoc]
          refine or_congr_right ?_
          constructor
          · rintro (⟨hrx, hxr⟩ | ⟨hx, hlt⟩)
            · refine ⟨.inl ⟨hrx, hxr⟩, ?_⟩
              rw [below_cons_of_le hl hxr.le]
              rw [Fin.lt_def] at hxr
              omega
            · refine ⟨.inr hx, ?_⟩
              rw [hlater x hx]
              omega
          · rintro ⟨hrx | hx, hlt⟩
            · exact .inl hrx
            · rw [hlater x hx] at hlt
              exact .inr ⟨hx, by omega⟩
        · intro e he r' hr'
          rcases mem_set_less.mp he with ⟨he, -⟩ | rfl
          · exact hlt e he r' (mem_cons_of_mem r hr')
          · exact hap r' hr'

/-- What was stored stays, as long as other ranges are copied. -/
lemma mem_lowestLoop {e : Range} (he : e ∈ ret.entries) (hne : ∀ r ∈ l, e.1 ≠ r.1) :
    e ∈ (lowestLoop l items ret).entries := by
  induction l generalizing items ret with
  | nil => exact he
  | cons r l ih =>
    obtain ⟨hr, hl⟩ := forall_mem_cons.mp hne
    rw [lowestLoop]
    split_ifs with hzero
    · exact he
    · exact ih (mem_set_less.mpr (.inl ⟨he, hr⟩)) hl

/-- **The loop where a sum overflows.** A range is stored that ends before it begins. -/
theorem lowestLoop_overflows (hl : Canonical l) (hfits : ¬ Fits l items) :
    ∃ e ∈ (lowestLoop l items ret).entries, e.2 < e.1 := by
  induction l generalizing items ret with
  | nil => exact absurd (by simp [Fits]) hfits
  | cons r l ih =>
    obtain ⟨hr, hap, hl'⟩ := canonical_cons.mp hl
    have hrval : r.1.val < r.2.val := hr
    have hne : items ≠ 0 := by
      rintro rfl
      exact hfits fun r' _ hlt => absurd hlt (Nat.not_lt_zero _)
    rw [lowestLoop_cons hne]
    by_cases hfit : r.1.val + items.val < 2 ^ 32
    · -- a later range overflows
      refine ih hl' fun hfits' => hfits ?_
      have hrest := @val_rest r items hfit hr
      intro r' hr' hlt
      obtain rfl | hr' := mem_cons.mp hr'
      · omega
      · rw [below_cons_of_ge hl (hap r' hr').le] at hlt ⊢
        have hval := hfits' r' hr' (by omega)
        omega
    · -- this one does: the sum is below its start
      refine ⟨(r.1, min (r.1 + items) r.2), mem_lowestLoop (mem_set_less.mpr (.inr rfl)) ?_, ?_⟩
      · intro r' hr'
        exact (hr.trans (hap r' hr')).ne
      · have hi := items.isLt
        have hr1 := r.1.isLt
        refine (min_le_left _ _).trans_lt ?_
        show (r.1 + items).val < r.1.val
        rw [Fin.val_add]
        omega

/-- **When `lowest` returns the smallest elements.** The mask has no empty range and holds exactly
the elements with fewer than `items` elements below them, if and only if no range that is needed
starts so high that its start and the number of elements still wanted make `2 ^ 32` or more. -/
theorem lowest_smallest_iff (h : Canonical m.m_ranges.entries) (items : Unsigned) :
    ((∀ r ∈ (m.lowest items).m_ranges.entries, r.1 < r.2) ∧
      ∀ x, (m.lowest items).contains x = true ↔ m.contains x = true ∧
        (Finset.univ.filter fun y => m.contains y = true ∧ y < x).card < items.val) ↔
      ∀ r ∈ m.m_ranges.entries,
        (Finset.univ.filter fun y => m.contains y = true ∧ y < r.1).card < items.val →
          r.1.val + (items.val -
            (Finset.univ.filter fun y => m.contains y = true ∧ y < r.1).card) < 2 ^ 32 := by
  have hbelow (x : Unsigned) :
      (Finset.univ.filter fun y => m.contains y = true ∧ y < x).card = below m.m_ranges.entries x :=
    congrArg Finset.card (Finset.filter_congr fun y _ => by rw [contains_iff h])
  simp only [hbelow]
  constructor
  · rintro ⟨hne, -⟩
    by_contra hfits
    obtain ⟨e, he, hlt⟩ := @lowestLoop_overflows _ .empty items h hfits
    exact absurd (hne e he) hlt.asymm
  · intro hfits
    have hspec := @lowestLoop_spec _ .empty items h hfits canonical_nil (by simp [OrderedMap.empty])
    refine ⟨hspec.1.nonempty, fun x => ?_⟩
    have hempty : ¬ Covers (OrderedMap.empty : Intervals Unsigned).entries x := not_covers_nil x
    rw [contains_iff hspec.1, contains_iff h]
    exact (hspec.2 x).trans ⟨fun hx => hx.resolve_left hempty, .inr⟩

theorem lowest_smallest_iff_twoRanges :
    Canonical twoRanges.m_ranges.entries ∧
    (((∀ r ∈ (twoRanges.lowest 3).m_ranges.entries, r.1 < r.2) ∧
      ∀ x, (twoRanges.lowest 3).contains x = true ↔ twoRanges.contains x = true ∧
        (Finset.univ.filter fun y => twoRanges.contains y = true ∧ y < x).card < 3) ↔
      ∀ r ∈ twoRanges.m_ranges.entries,
        (Finset.univ.filter fun y => twoRanges.contains y = true ∧ y < r.1).card < 3 →
          r.1.val + (3 -
            (Finset.univ.filter fun y => twoRanges.contains y = true ∧ y < r.1).card) < 2 ^ 32) :=
  ⟨twoRanges_reached.wellFormed.canonical,
    lowest_smallest_iff twoRanges_reached.wellFormed.canonical 3⟩

/-- All elements of `[1, 3)` and `[5, 9)` are asked for by the largest `unsigned`: the range `[1,
0)` is stored. -/
theorem lowest_twoRanges_overflows :
    Canonical twoRanges.m_ranges.entries ∧
      ((1, 0) : Range) ∈ (twoRanges.lowest 4294967295).m_ranges.entries :=
  ⟨twoRanges_reached.wellFormed.canonical, by decide +kernel⟩

end Tos.RangeMask
