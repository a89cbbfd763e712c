import Tos.Foundation.Intervals

/-!
# The range mask

`RangeMask` is a set of elements of a ground range, kept as a map from the start of each of its
ranges to its end. `unionWith` walks through the range that is added, and at each point either
creates a range, extends the one before it, merges with the next one, or jumps to the end of a range
that holds the point already. The elements are `unsigned`, so that a sum is taken modulo `2 ^ 32`.

## Main results

* `RangeMask.unionStep_spec`: one pass of the loop.
* `RangeMask.unionWith_spec`, `unionWithMask_spec`: the unions return, and are unions.
* `RangeMask.elements_spec`: the elements are visited in ascending order.
* `RangeMask.reached_laws`: all of it, for every mask that is reached.
-/

namespace Tos

open List

/-- `unsigned`. -/
abbrev Unsigned := Fin 4294967296

instance neZero_unsigned : NeZero 4294967296 := ⟨by decide⟩

instance isStrictWeakOrder_unsigned :
    IsStrictWeakOrder Unsigned (fun a b => less a b = true) := isStrictWeakOrder_less

/-- `RangeMask::Range`: from the first element up to the second, which is not in it. -/
abbrev Range := Unsigned × Unsigned

/-- `RangeMask`. -/
structure RangeMask where
  m_all : Range
  m_ranges : Intervals Unsigned

namespace RangeMask

open Intervals OrderedMap

/-- `RangeMask(_c)`: an empty mask with a ground range. -/
def ofGround (all : Range) : RangeMask := ⟨all, .empty⟩

/-- `contains`. -/
def contains (m : RangeMask) (i : Unsigned) : Bool :=
  match m.m_ranges.beforeUpperBound i with
  | none => false
  | some it => decide (i < it.2)

/-! ### Union -/

/-- `i` is before the first range or between two ranges: the rest of the range becomes a new one, or
the next range is extended down to `i`. -/
def unionBetween (ranges : Intervals Unsigned) (m : Range) (i : Unsigned) :
    Intervals Unsigned × Option Unsigned :=
  match ranges.upperBound i with
  | none => (ranges.set i m.2, none)
  | some rangeAfter =>
    if m.2 < rangeAfter.1 then (ranges.set i m.2, none)
    else if rangeAfter.1 = i then (ranges, some rangeAfter.2)
    else ((ranges.set i rangeAfter.2).erase rangeAfter.1, some rangeAfter.2)

/-- The range before `i` ends with `i`: it is extended, as far as the next one if that is reached.
-/
def unionOnto (ranges : Intervals Unsigned) (m : Range) (i : Unsigned) (it : Range) :
    Intervals Unsigned × Option Unsigned :=
  match ranges.upperBound i with
  | none => (ranges.set it.1 m.2, none)
  | some rangeAfter =>
    if m.2 < rangeAfter.1 then (ranges.set it.1 m.2, none)
    else ((ranges.set it.1 rangeAfter.2).erase rangeAfter.1, some rangeAfter.2)

/-- The body of the loop of `unionWith`: the ranges after it, and the next `i` unless it is left. -/
def unionStep (ranges : Intervals Unsigned) (m : Range) (i : Unsigned) :
    Intervals Unsigned × Option Unsigned :=
  match ranges.beforeUpperBound i with
  | none => unionBetween ranges m i
  | some it =>
    if it.2 < i then unionBetween ranges m i
    else if it.2 = i then unionOnto ranges m i it
    else (ranges, some it.2)

/-- The loop of `unionWith`. -/
def unionLoop (all m : Range) : ℕ → Unsigned → Intervals Unsigned → Option (Intervals Unsigned)
  | 0, i, ranges => if i < m.2 then none else some ranges
  | fuel + 1, i, ranges =>
    if i < m.2 then
      -- assert(i >= m_all.first); assert(i < m_all.second)
      if all.1 ≤ i ∧ i < all.2 then
        match unionStep ranges m i with
        | (ranges, none) => some ranges
        | (ranges, some i) => unionLoop all m fuel i ranges
      else none
    else some ranges

/-- `unionWith(Range)`. -/
def unionWith (m : RangeMask) (fuel : ℕ) (r : Range) : Option RangeMask :=
  (unionLoop m.m_all r fuel r.1 m.m_ranges).map fun ranges => { m with m_ranges := ranges }

/-- `unionWith(unsigned)`. -/
def unionWithElement (m : RangeMask) (fuel : ℕ) (i : Unsigned) : Option RangeMask :=
  m.unionWith fuel (i, i + 1)

/-- `unionWith(RangeMask)`: the ground range is extended, and each range of the other mask is added.
-/
def unionWithMask (m : RangeMask) (fuel : ℕ) (other : RangeMask) : Option RangeMask :=
  other.m_ranges.entries.foldlM (fun m r => m.unionWith fuel r)
    { m with m_all := (min other.m_all.1 m.m_all.1, max other.m_all.2 m.m_all.2) }

/-! ### Iteration and size -/

/-- The value of `begin()`. -/
def begin (m : RangeMask) : Unsigned :=
  match m.m_ranges.entries with
  | [] => m.m_all.2
  | r :: _ => r.1

/-- `next`: the smallest element above `t`, or the end of the ground range. -/
def next (m : RangeMask) (t : Unsigned) : Unsigned :=
  let t := t + 1
  let above := match m.m_ranges.upperBound t with
    | none => m.m_all.2
    | some uit => uit.1
  match m.m_ranges.beforeUpperBound t with
  | none => above
  | some it => if it.1 ≤ t ∧ t < it.2 then t else above

/-- The values of an iterator from `t` on, up to `end()`. -/
def iterate (m : RangeMask) : ℕ → Unsigned → Option (List Unsigned)
  | 0, t => if t = m.m_all.2 then some [] else none
  | fuel + 1, t =>
    if t = m.m_all.2 then some [] else (m.iterate fuel (m.next t)).map (t :: ·)

/-- The values from `begin()` to `end()`. -/
def elements (m : RangeMask) (fuel : ℕ) : Option (List Unsigned) := m.iterate fuel m.begin

/-- `size`, a `size_t`. -/
def size (m : RangeMask) : ℕ :=
  m.m_ranges.entries.foldl (fun c r => (c + (r.2 - r.1).val) % 2 ^ 64) 0

/-! ### Masks in canonical form -/

/-- The ranges are in canonical form and lie in the ground range. -/
structure WellFormed (m : RangeMask) : Prop where
  canonical : Canonical m.m_ranges.entries
  within : ∀ x, Covers m.m_ranges.entries x → m.m_all.1 ≤ x ∧ x < m.m_all.2

variable {m m' other : RangeMask} {r : Range} {fuel : ℕ} {i x t : Unsigned}

lemma contains_iff (h : Canonical m.m_ranges.entries) :
    m.contains x = true ↔ Covers m.m_ranges.entries x := by
  rw [covers_iff_beforeUpperBound h, contains]
  cases m.m_ranges.beforeUpperBound x <;> simp

/-- A range does not end beyond the ground range. -/
lemma WellFormed.end_le (h : m.WellFormed) (hr : r ∈ m.m_ranges.entries) : r.2 ≤ m.m_all.2 := by
  have hstart := (h.within r.1 (h.canonical.covers_start hr)).2
  by_contra hlt
  -- otherwise the end of the ground range would be an element
  exact absurd (h.within m.m_all.2 ⟨r, hr, hstart.le, not_le.mp hlt⟩).2 (lt_irrefl _)

lemma wellFormed_ofGround (all : Range) : (ofGround all).WellFormed :=
  ⟨canonical_nil, fun x h => absurd h (not_covers_nil x)⟩

/-! ### One pass of the loop -/

section Step

variable {ranges ranges' : Intervals Unsigned} {it rangeAfter : Range} {k : Unsigned}

/-- What a pass at `i` gives: the points from `i` up to the next one, or up to the end, are added.
-/
structure Added (r : Range) (i : Unsigned) (ranges ranges' : Intervals Unsigned)
    (next : Option Unsigned) : Prop where
  canonical : Canonical ranges'.entries
  lt_next : ∀ j ∈ next, i < j
  covers : ∀ x, Covers ranges'.entries x ↔
    Covers ranges.entries x ∨ (i ≤ x ∧ x < r.2 ∧ ∀ j ∈ next, x < j)

/-- A range that holds `i` may start at `k`: what is stored at `k` ends with `i`, and what starts
below is apart. -/
structure Base (ranges : Intervals Unsigned) (k i : Unsigned) : Prop where
  le : k ≤ i
  covered : ∀ x, k ≤ x → x < i → Covers ranges.entries x
  ends : ∀ e ∈ ranges.entries, e.1 = k → e.2 = i
  below : ∀ e ∈ ranges.entries, e.1 ≤ i → e.1 ≠ k → e.2 < k

/-- Between two ranges a range starts at the point itself. -/
lemma base_self (hc : Canonical ranges.entries)
    (hlt : ∀ e ∈ ranges.entries, e.1 ≤ i → e.2 < i) : Base ranges i i where
  le := le_rfl
  covered _ hle hx := absurd hx hle.not_gt
  ends e he h := absurd (hlt e he h.le) (h ▸ hc.nonempty e he).asymm
  below e he hle _ := hlt e he hle

/-- The range that ends with the point is extended. -/
lemma base_of_end (hc : Canonical ranges.entries) (hit : it ∈ ranges.entries) (hend : it.2 = i) :
    Base ranges it.1 i where
  le := hend ▸ (hc.nonempty it hit).le
  covered x hle hx := ⟨it, hit, hle, hend ▸ hx⟩
  ends e he h := eq_of_key_eq he hit h ▸ hend
  below e he hle hne := by
    obtain hlt | hlt := lt_or_gt_of_ne hne
    · exact hc.lt_of_lt he hit hlt
    · exact absurd (hc.lt_of_lt hit he hlt) (hend ▸ hle).not_gt

/-- The range is extended as far as the one that is added, where no other is near. -/
lemma Base.added_set (hb : Base ranges k i) (hc : Canonical ranges.entries) (hi : i < r.2)
    (habove : ∀ e ∈ ranges.entries, i < e.1 → r.2 < e.1) :
    Added r i ranges (ranges.set k r.2) none := by
  have hmem (e : Range) := @mem_set_less _ _ _ ranges e k r.2
  have hdrop : ∀ e ∈ ranges.entries, ¬ e.1 ≠ k → k ≤ e.1 ∧ e.2 ≤ r.2 := by
    intro e he hek
    have hend := hb.ends e he (not_not.mp hek)
    exact ⟨(not_not.mp hek).ge, hend.le.trans hi.le⟩
  refine ⟨hc.absorb (hb.le.trans_lt hi) hmem ?_, by simp, ?_⟩
  · intro e he hek
    obtain hle | hlt := le_or_gt e.1 i
    · exact .inl (hb.below e he hle hek)
    · exact .inr (habove e he hlt)
  · intro x
    rw [covers_absorb hmem hdrop]
    constructor
    · rintro (h | ⟨hk, hx⟩)
      · exact .inl h
      · obtain hxi | hxi := lt_or_ge x i
        · exact .inl (hb.covered x hk hxi)
        · exact .inr ⟨hxi, hx, by simp⟩
    · rintro (h | ⟨hxi, hx, -⟩)
      · exact .inl h
      · exact .inr ⟨hb.le.trans hxi, hx⟩

/-- The range is merged with the next one, where the added range reaches that. -/
lemma Base.added_merge (hb : Base ranges k i) (hc : Canonical ranges.entries)
    (hafter : ranges.upperBound i = some rangeAfter) (hr : rangeAfter.1 ≤ r.2) :
    Added r i ranges ((ranges.set k rangeAfter.2).erase rangeAfter.1) (some rangeAfter.2) := by
  obtain ⟨ha, hia, hmin⟩ := upperBound_eq_some hafter
  have hne := hc.nonempty _ ha
  have hka : k < rangeAfter.1 := hb.le.trans_lt hia
  have hmem (e : Range) :
      e ∈ ((ranges.set k rangeAfter.2).erase rangeAfter.1).entries ↔
        (e ∈ ranges.entries ∧ (e.1 ≠ k ∧ e.1 ≠ rangeAfter.1)) ∨ e = (k, rangeAfter.2) := by
    rw [mem_erase_less, mem_set_less]
    constructor
    · rintro ⟨⟨he, hek⟩ | rfl, hea⟩
      · exact .inl ⟨he, hek, hea⟩
      · exact .inr rfl
    · rintro (⟨he, hek, hea⟩ | rfl)
      · exact ⟨.inl ⟨he, hek⟩, hea⟩
      · exact ⟨.inr rfl, hka.ne⟩
  have hdrop : ∀ e ∈ ranges.entries, ¬ (e.1 ≠ k ∧ e.1 ≠ rangeAfter.1) →
      k ≤ e.1 ∧ e.2 ≤ rangeAfter.2 := by
    intro e he hP
    by_cases hek : e.1 = k
    · exact ⟨hek.ge, (hb.ends e he hek).le.trans (hia.trans hne).le⟩
    · have hea : e.1 = rangeAfter.1 := by
        by_contra hea
        exact hP ⟨hek, hea⟩
      obtain rfl := eq_of_key_eq he ha hea
      exact ⟨hka.le, le_rfl⟩
  refine ⟨hc.absorb (hka.trans hne) hmem ?_, ?_, ?_⟩
  · rintro e he ⟨hek, hea⟩
    obtain hle | hlt := le_or_gt e.1 i
    · exact .inl (hb.below e he hle hek)
    · exact .inr (hc.lt_of_lt ha he (lt_of_le_of_ne (hmin e he hlt) (Ne.symm hea)))
  · rintro j hj
    obtain rfl := Option.mem_some_iff.mp hj
    exact hia.trans hne
  · intro x
    rw [covers_absorb hmem hdrop]
    constructor
    · rintro (h | ⟨hk, hx⟩)
      · exact .inl h
      · -- below `i` and from the next range on there were elements already
        obtain hxi | hxi := lt_or_ge x i
        · exact .inl (hb.covered x hk hxi)
        · obtain hxa | hxa := lt_or_ge x rangeAfter.1
          · exact .inr ⟨hxi, hxa.trans_le hr, by simpa using hx⟩
          · exact .inl ⟨rangeAfter, ha, hxa, hx⟩
    · rintro (h | ⟨hxi, -, hx⟩)
      · exact .inl h
      · exact .inr ⟨hb.le.trans hxi, hx _ rfl⟩

/-- Ranges above `i` are far enough where the next one is. -/
lemma forall_lt_of_upperBound (h : ∀ a ∈ ranges.upperBound i, r.2 < a.1) :
    ∀ e ∈ ranges.entries, i < e.1 → r.2 < e.1 := by
  intro e he hlt
  cases hafter : ranges.upperBound i with
  | none => exact absurd hlt (le_of_upperBound_eq_none hafter he).not_gt
  | some a => exact (h a hafter).trans_le ((upperBound_eq_some hafter).2.2 e he hlt)

lemma added_unionBetween (hc : Canonical ranges.entries) (hi : i < r.2) (hb : Base ranges i i) :
    Added r i ranges (unionBetween ranges r i).1 (unionBetween ranges r i).2 := by
  rw [unionBetween]
  cases hafter : ranges.upperBound i with
  | none => exact hb.added_set hc hi (forall_lt_of_upperBound (by simp [hafter]))
  | some a =>
    have hia := (upperBound_eq_some hafter).2.1
    show Added r i ranges
      (if r.2 < a.1 then _ else if a.1 = i then _ else _ : Intervals Unsigned × Option Unsigned).1
      (if r.2 < a.1 then _ else if a.1 = i then _ else _ : Intervals Unsigned × Option Unsigned).2
    by_cases hlt : r.2 < a.1
    · rw [if_pos hlt]
      exact hb.added_set hc hi (forall_lt_of_upperBound (by simpa [hafter] using hlt))
    · -- the next range does not start at `i` itself
      rw [if_neg hlt, if_neg hia.ne']
      exact hb.added_merge hc hafter (not_lt.mp hlt)

lemma added_unionOnto (hc : Canonical ranges.entries) (hi : i < r.2) (hb : Base ranges it.1 i) :
    Added r i ranges (unionOnto ranges r i it).1 (unionOnto ranges r i it).2 := by
  rw [unionOnto]
  cases hafter : ranges.upperBound i with
  | none => exact hb.added_set hc hi (forall_lt_of_upperBound (by simp [hafter]))
  | some a =>
    show Added r i ranges
      (if r.2 < a.1 then _ else _ : Intervals Unsigned × Option Unsigned).1
      (if r.2 < a.1 then _ else _ : Intervals Unsigned × Option Unsigned).2
    by_cases hlt : r.2 < a.1
    · rw [if_pos hlt]
      exact hb.added_set hc hi (forall_lt_of_upperBound (by simpa [hafter] using hlt))
    · rw [if_neg hlt]
      exact hb.added_merge hc hafter (not_lt.mp hlt)

/-- A point that lies in a range: the loop goes on behind that range. -/
lemma added_skip (hc : Canonical ranges.entries) (hit : it ∈ ranges.entries) (hle : it.1 ≤ i)
    (hlt : i < it.2) : Added r i ranges ranges (some it.2) := by
  refine ⟨hc, by simpa using hlt, fun x => ⟨.inl, ?_⟩⟩
  rintro (h | ⟨hxi, -, hx⟩)
  · exact h
  · exact ⟨it, hit, hle.trans hxi, hx _ rfl⟩

/-- One pass of the loop. -/
theorem unionStep_spec (hc : Canonical ranges.entries) (hi : i < r.2) :
    Added r i ranges (unionStep ranges r i).1 (unionStep ranges r i).2 := by
  rw [unionStep]
  cases hbefore : ranges.beforeUpperBound i with
  | none =>
    refine added_unionBetween hc hi (base_self hc fun e he hle => ?_)
    exact absurd hle (lt_of_beforeUpperBound_eq_none hbefore he).not_ge
  | some it =>
    obtain ⟨hit, hle, hmax⟩ := beforeUpperBound_eq_some hbefore
    show Added r i ranges
      (if it.2 < i then _ else if it.2 = i then _ else _ : Intervals Unsigned × Option Unsigned).1
      (if it.2 < i then _ else if it.2 = i then _ else _ : Intervals Unsigned × Option Unsigned).2
    by_cases hlt : it.2 < i
    · rw [if_pos hlt]
      refine added_unionBetween hc hi (base_self hc fun e he hei => ?_)
      obtain h | h := (hmax e he hei).lt_or_eq
      · exact (hc.lt_of_lt he hit h).trans_le hle
      · exact eq_of_key_eq he hit h ▸ hlt
    · rw [if_neg hlt]
      by_cases heq : it.2 = i
      · rw [if_pos heq]
        exact added_unionOnto hc hi (base_of_end hc hit heq)
      · rw [if_neg heq]
        exact added_skip hc hit hle (lt_of_le_of_ne (not_lt.mp hlt) (Ne.symm heq))

end Step

/-! ### The loop -/

section Loop

variable {all : Range} {ranges ranges' : Intervals Unsigned}

lemma unionLoop_of_le (h : r.2 ≤ i) : unionLoop all r fuel i ranges = some ranges := by
  cases fuel <;> rw [unionLoop, if_neg h.not_gt]

/-- One pass of the loop inside the ground range. -/
lemma unionLoop_succ (hi : i < r.2) (hall : all.1 ≤ i ∧ i < all.2) :
    unionLoop all r (fuel + 1) i ranges =
      match unionStep ranges r i with
      | (ranges, none) => some ranges
      | (ranges, some i) => unionLoop all r fuel i ranges := by
  rw [unionLoop, if_pos hi, if_pos hall]

/-- A result does not depend on the fuel that is left. -/
lemma unionLoop_mono {fuel' : ℕ} (h : unionLoop all r fuel i ranges = some ranges')
    (hle : fuel ≤ fuel') : unionLoop all r fuel' i ranges = some ranges' := by
  induction fuel generalizing fuel' i ranges with
  | zero =>
    rw [unionLoop] at h
    by_cases hi : i < r.2
    · rw [if_pos hi] at h
      cases h
    · rw [if_neg hi] at h
      exact (unionLoop_of_le (not_lt.mp hi)).trans h
  | succ fuel ih =>
    obtain ⟨fuel', rfl⟩ : ∃ n, fuel' = n + 1 := ⟨fuel' - 1, by omega⟩
    rw [unionLoop] at h ⊢
    by_cases hi : i < r.2
    · rw [if_pos hi] at h ⊢
      by_cases hall : all.1 ≤ i ∧ i < all.2
      · rw [if_pos hall] at h ⊢
        rcases hstep : unionStep ranges r i with ⟨ranges₁, _ | j⟩
        · rwa [hstep] at h
        · rw [hstep] at h
          exact ih h (by omega)
      · rw [if_neg hall] at h
        cases h
    · rw [if_neg hi] at h ⊢
      exact h

/-- **The loop returns, and adds the points from `i` to the end.**

**Proof sketch.** By induction on the distance to the end, which each pass makes smaller. What a
pass adds lies below the next point, and what the rest adds does not. -/
theorem unionLoop_spec (hc : Canonical ranges.entries)
    (hall : ∀ x, i ≤ x → x < r.2 → all.1 ≤ x ∧ x < all.2) :
    ∃ ranges', (∀ fuel, r.2.val - i.val ≤ fuel → unionLoop all r fuel i ranges = some ranges') ∧
      Canonical ranges'.entries ∧
      ∀ x, Covers ranges'.entries x ↔ Covers ranges.entries x ∨ (i ≤ x ∧ x < r.2) := by
  induction hn : r.2.val - i.val using Nat.strong_induction_on generalizing i ranges with
  | _ n ih =>
    subst hn
    obtain hi | hi := lt_or_ge i r.2
    · have hival : i.val < r.2.val := hi
      have hadd := unionStep_spec hc hi
      rcases hstep : unionStep ranges r i with ⟨ranges₁, _ | j⟩
      · rw [hstep] at hadd
        refine ⟨ranges₁, ?_, hadd.canonical, fun x => by simpa using hadd.covers x⟩
        intro fuel hfuel
        obtain _ | fuel := fuel
        · omega
        rw [unionLoop_succ hi (hall i le_rfl hi), hstep]
      · rw [hstep] at hadd
        have hij : i < j := hadd.lt_next j rfl
        have hijval : i.val < j.val := hij
        obtain ⟨ranges', hloop, hc', hcov⟩ := ih (r.2.val - j.val) (by omega) hadd.canonical
          (fun x hx => hall x (hij.le.trans hx)) rfl
        refine ⟨ranges', ?_, hc', ?_⟩
        · intro fuel hfuel
          obtain _ | fuel := fuel
          · omega
          rw [unionLoop_succ hi (hall i le_rfl hi), hstep]
          exact hloop fuel (by omega)
        · intro x
          rw [hcov, hadd.covers]
          constructor
          · rintro ((h | ⟨hx, hxr, -⟩) | ⟨hx, hxr⟩)
            · exact .inl h
            · exact .inr ⟨hx, hxr⟩
            · exact .inr ⟨hij.le.trans hx, hxr⟩
          · rintro (h | ⟨hx, hxr⟩)
            · exact .inl (.inl h)
            · obtain hxj | hxj := lt_or_ge x j
              · exact .inl (.inr ⟨hx, hxr, by simpa using hxj⟩)
              · exact .inr ⟨hxj, hxr⟩
    · refine ⟨ranges, fun fuel _ => unionLoop_of_le hi, hc, fun x => ?_⟩
      refine ⟨.inl, fun h => h.resolve_right ?_⟩
      rintro ⟨hx, hxr⟩
      exact absurd (hx.trans_lt hxr) hi.not_gt

end Loop

/-! ### Unions -/

/-- A range lies in the ground range. -/
def Inside (m : RangeMask) (r : Range) : Prop :=
  ∀ x, r.1 ≤ x → x < r.2 → m.m_all.1 ≤ x ∧ x < m.m_all.2

lemma inside_of_le (h : m.m_all.1 ≤ r.1) (h' : r.2 ≤ m.m_all.2) : m.Inside r :=
  fun _ hx hlt => ⟨h.trans hx, hlt.trans_le h'⟩

/-- Two fuels that give a result give the same one. -/
lemma unionWith_unique {fuel' : ℕ} {m₁ m₂ : RangeMask} (h₁ : m.unionWith fuel r = some m₁)
    (h₂ : m.unionWith fuel' r = some m₂) : m₁ = m₂ := by
  obtain ⟨ranges₁, hl₁, rfl⟩ := Option.map_eq_some_iff.mp h₁
  obtain ⟨ranges₂, hl₂, rfl⟩ := Option.map_eq_some_iff.mp h₂
  have h := (unionLoop_mono hl₁ (le_max_left fuel fuel')).symm.trans
    (unionLoop_mono hl₂ (le_max_right fuel fuel'))
  rw [Option.some.inj h]

/-- `m'` is the union of `m` with a set of elements of its ground range. -/
structure IsUnion (m : RangeMask) (s : Unsigned → Prop) (m' : RangeMask) : Prop where
  wellFormed : m'.WellFormed
  all : m'.m_all = m.m_all
  covers : ∀ x, Covers m'.m_ranges.entries x ↔ Covers m.m_ranges.entries x ∨ s x

lemma IsUnion.contains (h : m.WellFormed) {s : Unsigned → Prop} (hu : m.IsUnion s m')
    (x : Unsigned) : m'.contains x = true ↔ m.contains x = true ∨ s x := by
  rw [contains_iff hu.wellFormed.canonical, contains_iff h.canonical, hu.covers]

/-- The union with a range of the ground range returns. -/
theorem unionWith_spec (h : m.WellFormed) (hr : m.Inside r) :
    ∃ m', (∀ fuel, r.2.val - r.1.val ≤ fuel → m.unionWith fuel r = some m') ∧
      m.IsUnion (fun x => r.1 ≤ x ∧ x < r.2) m' := by
  obtain ⟨ranges', hloop, hc, hcov⟩ := unionLoop_spec h.canonical hr
  refine ⟨{ m with m_ranges := ranges' }, ?_, ⟨hc, ?_⟩, rfl, hcov⟩
  · intro fuel hfuel
    rw [unionWith, hloop fuel hfuel]
    rfl
  · intro x hx
    obtain hx | hx := (hcov x).mp hx
    · exact h.within x hx
    · exact hr x hx.1 hx.2

/-- Whatever the fuel, a result is the union. -/
lemma isUnion_of_unionWith (h : m.WellFormed) (hr : m.Inside r)
    (heq : m.unionWith fuel r = some m') : m.IsUnion (fun x => r.1 ≤ x ∧ x < r.2) m' := by
  obtain ⟨m₁, hfuel, hu⟩ := unionWith_spec h hr
  obtain rfl := unionWith_unique heq (hfuel _ le_rfl)
  exact hu

/-- Where the union with an element has a result, the element was in the ground range, or it is the
largest `unsigned`, for which nothing is added. -/
lemma inside_of_unionWithElement (heq : m.unionWithElement fuel i = some m') :
    m.Inside (i, i + 1) := by
  intro x hx hlt
  obtain ⟨ranges, hl, -⟩ := Option.map_eq_some_iff.mp heq
  have hi : i < i + 1 := hx.trans_lt hlt
  obtain rfl : i = x := by
    simp only [Fin.lt_def, Fin.le_def, Fin.ext_iff, Fin.val_add] at *
    omega
  cases fuel with
  | zero =>
    rw [unionLoop, if_pos hi] at hl
    cases hl
  | succ fuel =>
    by_contra hall
    rw [unionLoop, if_pos hi, if_neg hall] at hl
    cases hl

/-- An element of the ground range is not the largest `unsigned`. -/
lemma val_succ_of_lt {u : Unsigned} (h : i < u) : (i + 1).val = i.val + 1 := by
  have hu := u.isLt
  rw [Fin.lt_def] at h
  rw [Fin.val_add, Fin.val_one]
  omega

lemma inside_element (h : m.m_all.1 ≤ i ∧ i < m.m_all.2) : m.Inside (i, i + 1) := by
  intro x hx hlt
  have hsucc := val_succ_of_lt h.2
  obtain rfl : i = x := by
    simp only [Fin.lt_def, Fin.le_def, Fin.ext_iff] at *
    omega
  exact h

/-- The ground range is extended over that of another mask. -/
def extended (m other : RangeMask) : RangeMask :=
  { m with m_all := (min other.m_all.1 m.m_all.1, max other.m_all.2 m.m_all.2) }

lemma WellFormed.extended (h : m.WellFormed) : (m.extended other).WellFormed := by
  refine ⟨h.canonical, fun x hx => ?_⟩
  obtain ⟨hle, hlt⟩ := h.within x hx
  exact ⟨(min_le_right _ _).trans hle, hlt.trans_le (le_max_right _ _)⟩

/-- The ranges of another mask lie in the extended ground range. -/
lemma WellFormed.inside_extended (h : other.WellFormed) (hr : r ∈ other.m_ranges.entries) :
    (m.extended other).Inside r := by
  intro x hx hlt
  obtain ⟨hle, hlt⟩ := h.within x ⟨r, hr, hx, hlt⟩
  exact ⟨(min_le_left _ _).trans hle, hlt.trans_le (le_max_left _ _)⟩

/-- Ranges of the ground range that are added one after the other. -/
lemma unionWith_foldlM_spec {l : List Range} (h : m.WellFormed) (hl : ∀ r ∈ l, m.Inside r) :
    ∃ m', (∀ fuel, (∀ r ∈ l, r.2.val - r.1.val ≤ fuel) →
        l.foldlM (fun m r => m.unionWith fuel r) m = some m') ∧ m.IsUnion (Covers l) m' := by
  induction l generalizing m with
  | nil => exact ⟨m, fun _ _ => rfl, h, rfl, fun x => by simp⟩
  | cons r l ih =>
    obtain ⟨hr, hl⟩ := forall_mem_cons.mp hl
    obtain ⟨m₁, hfuel₁, hu₁⟩ := unionWith_spec h hr
    have hl₁ : ∀ r ∈ l, m₁.Inside r := by
      intro r hr
      rw [Inside, hu₁.all]
      exact hl r hr
    obtain ⟨m', hfuel, hu⟩ := ih hu₁.wellFormed hl₁
    refine ⟨m', ?_, hu.wellFormed, hu.all.trans hu₁.all, ?_⟩
    · intro fuel hall
      obtain ⟨hrfuel, hlfuel⟩ := forall_mem_cons.mp hall
      rw [foldlM_cons, hfuel₁ fuel hrfuel]
      exact hfuel fuel hlfuel
    · intro x
      rw [hu.covers, hu₁.covers, covers_cons, or_assoc]

/-- Whatever the fuel, a result is the union. -/
lemma isUnion_of_foldlM {l : List Range} (h : m.WellFormed) (hl : ∀ r ∈ l, m.Inside r)
    (heq : l.foldlM (fun m r => m.unionWith fuel r) m = some m') : m.IsUnion (Covers l) m' := by
  induction l generalizing m with
  | nil =>
    obtain rfl := Option.some.inj heq
    exact ⟨h, rfl, fun x => by simp⟩
  | cons r l ih =>
    obtain ⟨hr, hl⟩ := forall_mem_cons.mp hl
    obtain ⟨m₁, heq₁, heq⟩ := Option.bind_eq_some_iff.mp (foldlM_cons.symm.trans heq)
    have hu₁ := isUnion_of_unionWith h hr heq₁
    have hu := ih hu₁.wellFormed (fun r hr => by
      rw [Inside, hu₁.all]
      exact hl r hr) heq
    refine ⟨hu.wellFormed, hu.all.trans hu₁.all, fun x => ?_⟩
    rw [hu.covers, hu₁.covers, covers_cons, or_assoc]

/-- The union with another mask returns. -/
theorem unionWithMask_spec (h : m.WellFormed) (ho : other.WellFormed) :
    ∃ m', (∀ fuel, (∀ r ∈ other.m_ranges.entries, r.2.val - r.1.val ≤ fuel) →
        m.unionWithMask fuel other = some m') ∧
      (m.extended other).IsUnion (Covers other.m_ranges.entries) m' :=
  unionWith_foldlM_spec h.extended fun _ => ho.inside_extended

/-! ### Iteration -/

/-- `u` is the first element above `t`, or the end of the ground range if there is none. -/
structure IsNext (m : RangeMask) (t u : Unsigned) : Prop where
  lt : t < u
  covers : u = m.m_all.2 ∨ Covers m.m_ranges.entries u
  gap : ∀ x, t < x → x < u → ¬ Covers m.m_ranges.entries x
  le_end : u ≤ m.m_all.2

/-- `next` finds the element that follows. -/
theorem next_spec (h : m.WellFormed) (ht : t < m.m_all.2) : m.IsNext t (m.next t) := by
  have hsucc := val_succ_of_lt ht
  have hlt : t < t + 1 := by
    rw [Fin.lt_def]
    omega
  have hle (x : Unsigned) (hx : t < x) : t + 1 ≤ x := by
    rw [Fin.le_def, hsucc]
    exact hx
  by_cases hcov : Covers m.m_ranges.entries (t + 1)
  · -- the element that follows is the next number
    obtain ⟨it, hit, hx⟩ := (covers_iff_beforeUpperBound h.canonical).mp hcov
    have hnext : m.next t = t + 1 := by
      have hle := (beforeUpperBound_eq_some hit).2.1
      simp only [next, hit]
      exact if_pos ⟨hle, hx⟩
    rw [hnext]
    exact ⟨hlt, .inr hcov, fun x hx hxt => absurd hxt (hle x hx).not_gt, (h.within _ hcov).2.le⟩
  · -- otherwise it is the start of the next range
    have hnext : m.next t =
        match m.m_ranges.upperBound (t + 1) with
        | none => m.m_all.2
        | some uit => uit.1 := by
      cases hit : m.m_ranges.beforeUpperBound (t + 1) with
      | none => simp only [next, hit]
      | some it =>
        simp only [next, hit]
        refine if_neg fun hin => hcov ?_
        exact ⟨it, (beforeUpperBound_eq_some hit).1, hin⟩
    have hnot (x : Unsigned) (hx : t < x) (hall : ∀ e ∈ m.m_ranges.entries, t + 1 < e.1 → x < e.1) :
        ¬ Covers m.m_ranges.entries x := by
      rintro ⟨e, he, hex, hxe⟩
      by_cases hte : t + 1 < e.1
      · exact absurd hex (hall e he hte).not_ge
      · exact hcov ⟨e, he, not_lt.mp hte, (hle x hx).trans_lt hxe⟩
    rw [hnext]
    cases huit : m.m_ranges.upperBound (t + 1) with
    | none =>
      refine ⟨ht, .inl rfl, fun x hx _ => hnot x hx ?_, le_rfl⟩
      intro e he hte
      exact absurd hte (le_of_upperBound_eq_none huit he).not_gt
    | some uit =>
      obtain ⟨hu, htu, hmin⟩ := upperBound_eq_some huit
      have hcov := h.canonical.covers_start hu
      refine ⟨hlt.trans htu, .inr hcov, fun x hx hxu => hnot x hx ?_, (h.within _ hcov).2.le⟩
      intro e he hte
      exact hxu.trans_le (hmin e he hte)

/-- An iterator visits the elements from its own on, in ascending order. -/
lemma iterate_spec (h : m.WellFormed) (ht : t = m.m_all.2 ∨ Covers m.m_ranges.entries t) :
    ∃ l, (∀ fuel, m.m_all.2.val - t.val ≤ fuel → m.iterate fuel t = some l) ∧
      l.Pairwise (· < ·) ∧ ∀ x, x ∈ l ↔ Covers m.m_ranges.entries x ∧ t ≤ x := by
  induction hn : m.m_all.2.val - t.val using Nat.strong_induction_on generalizing t with
  | _ n ih =>
    subst hn
    rcases ht with rfl | hcov
    · refine ⟨[], fun fuel _ => by cases fuel <;> exact if_pos rfl, .nil, fun x => ?_⟩
      simp only [not_mem_nil, false_iff, not_and]
      exact fun hx => (h.within x hx).2.not_ge
    · have hlt := (h.within t hcov).2
      have hltval : t.val < m.m_all.2.val := hlt
      have hnext := next_spec h hlt
      have hnextval : t.val < (m.next t).val := hnext.lt
      obtain ⟨l, hl, hsorted, hmem⟩ := ih _ (by omega) hnext.covers rfl
      refine ⟨t :: l, ?_, pairwise_cons.mpr ⟨?_, hsorted⟩, ?_⟩
      · intro fuel hfuel
        obtain _ | fuel := fuel
        · omega
        rw [iterate, if_neg hlt.ne, hl fuel (by omega)]
        rfl
      · intro x hx
        exact hnext.lt.trans_le ((hmem x).mp hx).2
      · intro x
        rw [mem_cons, hmem]
        constructor
        · rintro (rfl | ⟨hx, hle⟩)
          · exact ⟨hcov, le_rfl⟩
          · exact ⟨hx, hnext.lt.le.trans hle⟩
        · rintro ⟨hx, hle⟩
          obtain hlt | rfl := hle.lt_or_eq
          · refine .inr ⟨hx, le_of_not_gt fun hxn => hnext.gap x hlt hxn hx⟩
          · exact .inl rfl

/-- The elements are visited in ascending order. -/
theorem elements_spec (h : m.WellFormed) :
    ∃ l, (∀ fuel, 2 ^ 32 ≤ fuel → m.elements fuel = some l) ∧
      l.Pairwise (· < ·) ∧ ∀ x, x ∈ l ↔ Covers m.m_ranges.entries x := by
  have hbegin : (m.begin = m.m_all.2 ∨ Covers m.m_ranges.entries m.begin) ∧
      ∀ x, Covers m.m_ranges.entries x → m.begin ≤ x := by
    have hsorted := m.m_ranges.sorted
    have hstart := @Canonical.covers_start _ _ _ h.canonical
    rw [begin]
    cases hentries : m.m_ranges.entries with
    | nil => exact ⟨.inl rfl, fun x hx => absurd hx (not_covers_nil x)⟩
    | cons r l =>
      rw [hentries] at hsorted hstart
      refine ⟨.inr (hstart mem_cons_self), ?_⟩
      rintro x ⟨e, he, hle, -⟩
      obtain rfl | he := mem_cons.mp he
      · exact hle
      · have hre := less_eq_true.mp ((pairwise_cons.mp hsorted).1 e he)
        exact hre.le.trans hle
  obtain ⟨l, hl, hpw, hmem⟩ := iterate_spec h hbegin.1
  refine ⟨l, fun fuel hfuel => hl fuel (by omega), hpw, fun x => ?_⟩
  rw [hmem]
  exact ⟨And.left, fun hx => ⟨hx, hbegin.2 x hx⟩⟩

/-! ### Size -/

lemma card_range {r : Range} (h : r.1 ≤ r.2) : (Finset.Ico r.1 r.2).card = (r.2 - r.1).val := by
  rw [Fin.card_Ico, Fin.sub_val_of_le h]

/-- The number of elements of canonical ranges, without overflow. -/
lemma card_covers_canonical {l : List Range} (h : Canonical l) :
    (Finset.univ.filter (Covers l)).card = (l.map fun r => (r.2 - r.1).val).sum := by
  rw [card_covers (h.apart.imp le_of_lt)]
  refine congrArg List.sum (map_congr_left fun r hr => ?_)
  exact card_range (h.nonempty r hr).le

/-- The sum of `size`, as long as it stays small. -/
lemma foldl_size (l : List Range) (c : ℕ) (hc : c + (l.map fun r => (r.2 - r.1).val).sum ≤ 2 ^ 32) :
    l.foldl (fun c r => (c + (r.2 - r.1).val) % 2 ^ 64) c =
      c + (l.map fun r => (r.2 - r.1).val).sum := by
  induction l generalizing c with
  | nil => rfl
  | cons r l ih =>
    rw [map_cons, sum_cons] at hc ⊢
    have hmod : (c + (r.2 - r.1).val) % 2 ^ 64 = c + (r.2 - r.1).val :=
      Nat.mod_eq_of_lt (by omega)
    rw [foldl_cons, hmod, ih _ (by omega)]
    omega

/-- `size` counts the elements: its sum does not overflow. -/
theorem size_eq_card (h : Canonical m.m_ranges.entries) :
    m.size = (Finset.univ.filter (Covers m.m_ranges.entries)).card := by
  have hbound : (m.m_ranges.entries.map fun r => (r.2 - r.1).val).sum ≤ 2 ^ 32 := by
    rw [← card_covers_canonical h]
    refine (Finset.card_le_univ _).trans_eq ?_
    simp
  rw [card_covers_canonical h, size, foldl_size _ 0 ((zero_add _).trans_le hbound), zero_add]

/-! ### Every mask that is reached -/

/-- The masks reached from empty ones by unions with ranges of the ground range, with elements and
with other such masks. -/
inductive Reached : RangeMask → Prop
  | ofGround (all : Range) : Reached (ofGround all)
  | range {m m' : RangeMask} {r : Range} {fuel : ℕ} :
    Reached m → m.Inside r → m.unionWith fuel r = some m' → Reached m'
  | element {m m' : RangeMask} {i : Unsigned} {fuel : ℕ} :
    Reached m → m.unionWithElement fuel i = some m' → Reached m'
  | mask {m m' other : RangeMask} {fuel : ℕ} :
    Reached m → Reached other → m.unionWithMask fuel other = some m' → Reached m'

/-- Every mask that is reached is in canonical form. -/
theorem Reached.wellFormed (h : Reached m) : m.WellFormed := by
  induction h with
  | ofGround all => exact wellFormed_ofGround all
  | range _ hr heq ih => exact (isUnion_of_unionWith ih hr heq).wellFormed
  | element _ heq ih =>
    exact (isUnion_of_unionWith ih (inside_of_unionWithElement heq) heq).wellFormed
  | mask _ _ heq ih iho =>
    exact (isUnion_of_foldlM ih.extended (fun _ => iho.inside_extended) heq).wellFormed

/-- **Range set union.** In every mask that is reached the ranges are not empty, ascending, disjoint
and not adjacent. A union with a range of the ground range, with an element of it, or with another
such mask returns, and holds what was there and what is added. From `begin()` to `end()` the
elements are visited in ascending order, and `size()` is their number. -/
theorem reached_laws (h : Reached m) :
    ((∀ r ∈ m.m_ranges.entries, r.1 < r.2) ∧
      m.m_ranges.entries.Pairwise fun r r' => r.2 < r'.1) ∧
    (∀ r, m.Inside r → ∃ m', (∀ fuel, 2 ^ 32 ≤ fuel → m.unionWith fuel r = some m') ∧
      ∀ x, m'.contains x = true ↔ m.contains x = true ∨ (r.1 ≤ x ∧ x < r.2)) ∧
    (∀ i, m.m_all.1 ≤ i ∧ i < m.m_all.2 →
      ∃ m', (∀ fuel, 2 ^ 32 ≤ fuel → m.unionWithElement fuel i = some m') ∧
        ∀ x, m'.contains x = true ↔ m.contains x = true ∨ x = i) ∧
    (∀ other, Reached other →
      ∃ m', (∀ fuel, 2 ^ 32 ≤ fuel → m.unionWithMask fuel other = some m') ∧
        ∀ x, m'.contains x = true ↔ m.contains x = true ∨ other.contains x = true) ∧
    ∃ l, (∀ fuel, 2 ^ 32 ≤ fuel → m.elements fuel = some l) ∧ l.Pairwise (· < ·) ∧
      (∀ x, x ∈ l ↔ m.contains x = true) ∧ m.size = l.length := by
  have hm := h.wellFormed
  refine ⟨⟨hm.canonical.nonempty, hm.canonical.apart⟩, ?_, ?_, ?_, ?_⟩
  · intro r hr
    obtain ⟨m', hfuel, hu⟩ := unionWith_spec hm hr
    exact ⟨m', fun fuel hle => hfuel fuel (by omega), hu.contains hm⟩
  · intro i hi
    obtain ⟨m', hfuel, hu⟩ := unionWith_spec hm (inside_element hi)
    refine ⟨m', fun fuel hle => hfuel fuel (by omega), fun x => ?_⟩
    rw [hu.contains hm]
    have hsucc := val_succ_of_lt hi.2
    simp only [Fin.lt_def, Fin.le_def, Fin.ext_iff, hsucc]
    exact or_congr_right (by omega)
  · intro other ho
    obtain ⟨m', hfuel, hu⟩ := unionWithMask_spec hm ho.wellFormed
    refine ⟨m', fun fuel hle => hfuel fuel (fun r _ => by omega), fun x => ?_⟩
    rw [contains_iff hu.wellFormed.canonical, contains_iff hm.canonical,
      contains_iff ho.wellFormed.canonical, hu.covers]
    rfl
  · obtain ⟨l, hfuel, hsorted, hmem⟩ := elements_spec hm
    refine ⟨l, hfuel, hsorted, fun x => ?_, ?_⟩
    · rw [hmem, contains_iff hm.canonical]
    · rw [size_eq_card hm.canonical, ← toFinset_card_of_nodup (hsorted.imp ne_of_lt)]
      refine congrArg Finset.card (Finset.ext fun x => ?_)
      rw [Finset.mem_filter, mem_toFinset, hmem]
      exact ⟨And.right, fun hx => ⟨Finset.mem_univ x, hx⟩⟩

/-- Two ranges of a ground range, of which the second is made of two that touch. -/
def twoRanges : RangeMask := ⟨(0, 10), ⟨[(1, 3), (5, 9)], by decide⟩⟩

lemma twoRanges_reached : Reached twoRanges := by
  have h₀ := Reached.ofGround (0, 10)
  have h₁ : Reached ⟨(0, 10), ⟨[(5, 7)], by decide⟩⟩ :=
    @Reached.range _ _ (5, 7) 2 h₀ (inside_of_le (by decide) (by decide)) rfl
  have h₂ : Reached ⟨(0, 10), ⟨[(1, 3), (5, 7)], by decide⟩⟩ :=
    @Reached.range _ _ (1, 3) 2 h₁ (inside_of_le (by decide) (by decide)) rfl
  exact @Reached.range _ _ (7, 9) 2 h₂ (inside_of_le (by decide) (by decide)) rfl

theorem reached_laws_twoRanges : Reached twoRanges ∧
    ∃ l, (∀ fuel, 2 ^ 32 ≤ fuel → twoRanges.elements fuel = some l) ∧ l.Pairwise (· < ·) ∧
      (∀ x, x ∈ l ↔ twoRanges.contains x = true) ∧ twoRanges.size = l.length :=
  ⟨twoRanges_reached, (reached_laws twoRanges_reached).2.2.2.2⟩

end RangeMask

end Tos
