import Tos.Utils.RangeMask

/-!
# The difference of range masks

`operator-=` takes the complement of the mask, adds the other mask, and takes the complement again.
A complement is relative to the ground range, and the union in between extends the ground range over
that of the other mask. So the second complement is taken in a larger range than the first one: what
lies outside the ground range of the minuend and is not in the subtrahend becomes an element of the
difference.

## Main results

* `covers_inverted`: the complement.
* `difference_spec`: what the difference holds.
* `difference_contains_iff`: when that is the difference of the sets.
-/

namespace Tos.RangeMask

open Intervals OrderedMap

/-- The loop of `inverted`: the gaps from `last` on, up to the end of the ground range. -/
def invertLoop (finish : Unsigned) :
    List Range → Unsigned → Intervals Unsigned → Intervals Unsigned
  | [], last, ret => if last ≠ finish then ret.set last finish else ret
  | r :: l, last, ret => invertLoop finish l r.2 (if r.1 ≠ last then ret.set last r.1 else ret)

/-- `inverted`. -/
def inverted (m : RangeMask) : RangeMask :=
  ⟨m.m_all, invertLoop m.m_all.2 m.m_ranges.entries m.m_all.1 .empty⟩

/-- `operator-`. -/
def difference (m : RangeMask) (fuel : ℕ) (other : RangeMask) : Option RangeMask :=
  (m.inverted.unionWithMask fuel other).map inverted

variable {m other : RangeMask} {ret : Intervals Unsigned} {last next finish : Unsigned}

section Gap

/-- A gap that is stored behind all others, unless it is empty. -/
def addGap (ret : Intervals Unsigned) (last next : Unsigned) : Intervals Unsigned :=
  if next ≠ last then ret.set last next else ret

lemma canonical_addGap (hret : Canonical ret.entries) (hlt : ∀ e ∈ ret.entries, e.2 < last)
    (hle : last ≤ next) : Canonical (addGap ret last next).entries := by
  rw [addGap]
  split_ifs with hne
  · exact hret.set_of_forall_lt (lt_of_le_of_ne hle (Ne.symm hne)) hlt
  · exact hret

lemma covers_addGap (hret : Canonical ret.entries) (hlt : ∀ e ∈ ret.entries, e.2 < last)
    (x : Unsigned) :
    Covers (addGap ret last next).entries x ↔ Covers ret.entries x ∨ (last ≤ x ∧ x < next) := by
  rw [addGap]
  split_ifs with hne
  · exact covers_set_of_forall_lt hret hlt
  · obtain rfl := not_not.mp hne
    refine ⟨.inl, fun h => h.resolve_right ?_⟩
    rintro ⟨hle, hx⟩
    exact absurd hx hle.not_gt

/-- The gaps end before the range that follows. -/
lemma lt_of_mem_addGap (hlt : ∀ e ∈ ret.entries, e.2 < last) (hle : last ≤ next)
    (hn : next < finish) : ∀ e ∈ (addGap ret last next).entries, e.2 < finish := by
  intro e he
  have hold : e ∈ ret.entries → e.2 < finish := fun he => (hlt e he).trans (hle.trans_lt hn)
  rw [addGap] at he
  split_ifs at he with hne
  · rcases mem_set_less.mp he with ⟨he, -⟩ | rfl
    · exact hold he
    · exact hn
  · exact hold he

end Gap

/-- The loop adds the points from `last` on that lie in none of the ranges.

**Proof sketch.** By induction over the ranges. The gap before a range is added behind the earlier
gaps, which end below it because a range that is not empty lies in between. -/
lemma invertLoop_spec {l : List Range} (hl : Canonical l) (hfrom : ∀ r ∈ l, last ≤ r.1)
    (hto : ∀ r ∈ l, r.2 ≤ finish) (hle : last ≤ finish) (hret : Canonical ret.entries)
    (hlt : ∀ e ∈ ret.entries, e.2 < last) :
    Canonical (invertLoop finish l last ret).entries ∧
      ∀ x, Covers (invertLoop finish l last ret).entries x ↔
        Covers ret.entries x ∨ (last ≤ x ∧ x < finish ∧ ¬ Covers l x) := by
  induction l generalizing last ret with
  | nil =>
    -- the last gap; the code compares the two ends the other way round
    have heq : invertLoop finish [] last ret = addGap ret last finish := by
      simp only [invertLoop, addGap, ne_comm]
    rw [heq]
    refine ⟨canonical_addGap hret hlt hle, fun x => ?_⟩
    simp [covers_addGap hret hlt]
  | cons r l ih =>
    obtain ⟨hr, hap, hl⟩ := canonical_cons.mp hl
    obtain ⟨hfr, -⟩ := List.forall_mem_cons.mp hfrom
    obtain ⟨htr, hto⟩ := List.forall_mem_cons.mp hto
    have ih := ih hl (fun r' hr' => (hap r' hr').le) hto htr (canonical_addGap hret hlt hfr)
      (lt_of_mem_addGap hlt hfr hr)
    refine ⟨ih.1, fun x => ?_⟩
    rw [show invertLoop finish (r :: l) last ret =
      invertLoop finish l r.2 (addGap ret last r.1) from rfl, ih.2, covers_addGap hret hlt]
    -- a point before the range is in no later one
    have hbefore : x < r.2 → ¬ Covers l x := by
      rintro hx ⟨e, he, hex, -⟩
      exact absurd hex (hx.trans (hap e he)).not_ge
    rw [covers_cons]
    constructor
    · rintro ((h | ⟨hlx, hxr⟩) | ⟨hrx, hxf, hnot⟩)
      · exact .inl h
      · have hx := hxr.trans hr
        refine .inr ⟨hlx, hx.trans_le htr, ?_⟩
        rintro (h | h)
        · exact absurd hxr h.1.not_gt
        · exact hbefore hx h
      · refine .inr ⟨hfr.trans (hr.le.trans hrx), hxf, ?_⟩
        rintro (h | h)
        · exact absurd h.2 hrx.not_gt
        · exact hnot h
    · rintro (h | ⟨hlx, hxf, hnot⟩)
      · exact .inl (.inl h)
      · obtain ⟨hnr, hnl⟩ := not_or.mp hnot
        obtain hxr | hxr := lt_or_ge x r.1
        · exact .inl (.inr ⟨hlx, hxr⟩)
        · exact .inr ⟨not_lt.mp fun hx => hnr ⟨hxr, hx⟩, hxf, hnl⟩

/-- The loop over all ranges of a mask. -/
lemma inverted_spec (h : m.WellFormed) (hall : m.m_all.1 ≤ m.m_all.2) :
    Canonical m.inverted.m_ranges.entries ∧ ∀ x, Covers m.inverted.m_ranges.entries x ↔
      (m.m_all.1 ≤ x ∧ x < m.m_all.2) ∧ ¬ Covers m.m_ranges.entries x := by
  have hloop := @invertLoop_spec .empty m.m_all.1 m.m_all.2 m.m_ranges.entries h.canonical
    (fun r hr => (h.within r.1 (h.canonical.covers_start hr)).1) (fun r hr => h.end_le hr) hall
    canonical_nil (by simp [OrderedMap.empty])
  refine ⟨hloop.1, fun x => ?_⟩
  have hempty : ¬ Covers (OrderedMap.empty : Intervals Unsigned).entries x := not_covers_nil x
  rw [inverted, hloop.2, and_assoc]
  exact ⟨fun hx => hx.resolve_left hempty, .inr⟩

lemma WellFormed.inverted (h : m.WellFormed) (hall : m.m_all.1 ≤ m.m_all.2) :
    m.inverted.WellFormed :=
  ⟨(inverted_spec h hall).1, fun x hx => (((inverted_spec h hall).2 x).mp hx).1⟩

/-- The elements of the complement. -/
theorem covers_inverted (h : m.WellFormed) (hall : m.m_all.1 ≤ m.m_all.2) (x : Unsigned) :
    Covers m.inverted.m_ranges.entries x ↔
      (m.m_all.1 ≤ x ∧ x < m.m_all.2) ∧ ¬ Covers m.m_ranges.entries x :=
  (inverted_spec h hall).2 x

/-- A point lies in the ground range that covers both ground ranges. -/
def InHull (m other : RangeMask) (x : Unsigned) : Prop :=
  min other.m_all.1 m.m_all.1 ≤ x ∧ x < max other.m_all.2 m.m_all.2

/-- What the difference holds: the elements of the minuend and what lies outside its ground range,
as far as the ground range of the other mask extends it, without the elements of the other mask. -/
theorem difference_spec (h : m.WellFormed) (ho : other.WellFormed) (hall : m.m_all.1 ≤ m.m_all.2) :
    ∃ d, (∀ fuel, 2 ^ 32 ≤ fuel → m.difference fuel other = some d) ∧
      ∀ x, d.contains x = true ↔
        (m.contains x = true ∨ (m.InHull other x ∧ ¬ (m.m_all.1 ≤ x ∧ x < m.m_all.2))) ∧
          ¬ other.contains x = true := by
  have hinv := h.inverted hall
  obtain ⟨u, hfuel, hu⟩ := unionWithMask_spec hinv ho
  have huall : u.m_all = (min other.m_all.1 m.m_all.1, max other.m_all.2 m.m_all.2) := hu.all
  have hord : u.m_all.1 ≤ u.m_all.2 := by
    rw [huall]
    exact (min_le_right _ _).trans (hall.trans (le_max_right _ _))
  have hd := inverted_spec hu.wellFormed hord
  refine ⟨u.inverted, ?_, fun x => ?_⟩
  · intro fuel hle
    rw [difference, hfuel fuel fun r _ => by omega]
    rfl
  · have hcov : Covers u.m_ranges.entries x ↔
        ((m.m_all.1 ≤ x ∧ x < m.m_all.2) ∧ ¬ Covers m.m_ranges.entries x) ∨
          Covers other.m_ranges.entries x := by
      rw [hu.covers, ← covers_inverted h hall]
      rfl
    rw [contains_iff hd.1, contains_iff h.canonical, contains_iff ho.canonical, hd.2, hcov, huall]
    have hin := h.within x
    have hhull : m.m_all.1 ≤ x ∧ x < m.m_all.2 → m.InHull other x := fun hx =>
      ⟨(min_le_right _ _).trans hx.1, hx.2.trans_le (le_max_right _ _)⟩
    constructor
    · rintro ⟨hx, hnot⟩
      obtain ⟨hgap, hno⟩ := not_or.mp hnot
      refine ⟨?_, hno⟩
      by_cases hground : m.m_all.1 ≤ x ∧ x < m.m_all.2
      · exact .inl (by_contra fun hcov => hgap ⟨hground, hcov⟩)
      · exact .inr ⟨hx, hground⟩
    · rintro ⟨hcov | ⟨hx, hout⟩, hno⟩
      · exact ⟨hhull (hin hcov), not_or.mpr ⟨fun hgap => hgap.2 hcov, hno⟩⟩
      · exact ⟨hx, not_or.mpr ⟨fun hgap => hout hgap.1, hno⟩⟩

/-- **When the difference is that of the sets.** If the ground range of `A` does not begin behind
its end, then `A - B` holds the elements of `A` that are not in `B` exactly if every point outside
the ground range of `A` that the ground range of `B` adds to it, or that lies between the two, is an
element of `B`. -/
theorem difference_contains_iff (h : m.WellFormed) (ho : other.WellFormed)
    (hall : m.m_all.1 ≤ m.m_all.2) :
    ∃ d, (∀ fuel, 2 ^ 32 ≤ fuel → m.difference fuel other = some d) ∧
      ((∀ x, d.contains x = true ↔ m.contains x = true ∧ ¬ other.contains x = true) ↔
        ∀ x, m.InHull other x → ¬ (m.m_all.1 ≤ x ∧ x < m.m_all.2) → other.contains x = true) := by
  obtain ⟨d, hfuel, hd⟩ := difference_spec h ho hall
  refine ⟨d, hfuel, ?_⟩
  constructor
  · intro hlaw x hx hout
    by_contra hno
    -- such a point is in the difference, but not in the minuend
    have hmem := ((hlaw x).mp ((hd x).mpr ⟨.inr ⟨hx, hout⟩, hno⟩)).1
    exact hout (h.within x ((contains_iff h.canonical).mp hmem))
  · intro hcond x
    rw [hd]
    constructor
    · rintro ⟨hx | ⟨hx, hout⟩, hno⟩
      · exact ⟨hx, hno⟩
      · exact absurd (hcond x hx hout) hno
    · rintro ⟨hx, hno⟩
      exact ⟨.inl hx, hno⟩

/-- A mask whose ground range is as large as that of `twoRanges`. -/
def oneRange : RangeMask := ⟨(0, 10), ⟨[(2, 6)], by decide⟩⟩

/-- A mask with a larger ground range. -/
def farGround : RangeMask := ofGround (0, 20)

lemma oneRange_reached : Reached oneRange :=
  @Reached.range _ _ (2, 6) 1 (.ofGround (0, 10)) (inside_of_le (by decide) (by decide)) rfl

/-- A mask that holds its whole ground range. -/
def allRange : RangeMask := ⟨(0, 7), ⟨[(0, 7)], by decide⟩⟩

lemma allRange_reached : Reached allRange :=
  @Reached.range _ _ (0, 7) 1 (.ofGround (0, 7)) (inside_of_le (by decide) (by decide)) rfl

/-- The ground ranges are equal, and so the law holds. -/
theorem difference_contains_iff_oneRange :
    ∃ d, (∀ fuel, 2 ^ 32 ≤ fuel → twoRanges.difference fuel oneRange = some d) ∧
      ∀ x, d.contains x = true ↔ twoRanges.contains x = true ∧ ¬ oneRange.contains x = true := by
  obtain ⟨d, hfuel, hiff⟩ := difference_contains_iff twoRanges_reached.wellFormed
    oneRange_reached.wellFormed (by decide)
  refine ⟨d, hfuel, hiff.mpr fun x hx hout => absurd hx ?_⟩
  rwa [InHull, show oneRange.m_all = twoRanges.m_all from rfl, min_self, max_self]

/-- From a mask of `[0, 10)` the empty mask of `[0, 20)` is subtracted: `15` becomes an element.
From a mask whose ground range begins behind its end all of `[0, 7)` is subtracted: no point of the
hull is outside of the subtrahend, and yet `5` becomes an element. -/
theorem difference_farGround :
    (Reached twoRanges ∧ Reached farGround ∧
      (twoRanges.difference 10 farGround).map (fun d => d.contains 15) = some true ∧
      twoRanges.contains 15 = false) ∧
    Reached (ofGround (10, 5)) ∧ Reached allRange ∧
      ((ofGround (10, 5)).difference 10 allRange).map (fun d => d.contains 5) = some true ∧
      (ofGround (10, 5)).contains 5 = false ∧ allRange.contains 5 = true :=
  ⟨⟨twoRanges_reached, .ofGround _, by decide +kernel, by decide +kernel⟩, .ofGround _,
    allRange_reached, by decide +kernel, by decide +kernel, by decide +kernel⟩

end Tos.RangeMask
