import Tos.Foundation.OrderedMap

/-!
# Sets as ordered intervals

A subset of a linear order kept as a list of half-open intervals, each a pair of its start and of
its end, which is not in it. The list is canonical if the intervals are not empty, stand in
ascending order and do not even touch, so that a set has one canonical list.

The intervals are kept in an ordered map from starts to ends; the two ways to search it for a point
are the first entry above the point and the one before that.

## Main results

* `Intervals.covers_iff_beforeUpperBound`: in a canonical map one search decides membership.
* `Intervals.Canonical.absorb`, `covers_absorb`: an interval replaces those inside it.
* `Intervals.card_covers`: the number of points in the set.
-/

namespace Tos

open List

section Less

variable {κ ν : Type} [LinearOrder κ]

/-- `std::less`. -/
def less (a b : κ) : Bool := decide (a < b)

instance isStrictWeakOrder_less : IsStrictWeakOrder κ (fun a b => less a b = true) :=
  isStrictWeakOrder_of_key id fun _ _ => decide_eq_true_iff

/-- `less` decides the order. -/
@[simp] lemma less_eq_true {a b : κ} : less a b = true ↔ a < b := decide_eq_true_iff

namespace OrderedMap

/-- Equivalent keys are equal here. -/
@[simp] lemma same_less {a b : κ} : Same less a b ↔ a = b := by
  simp only [Same, less, decide_eq_false_iff_not, not_lt]
  exact ⟨fun h => le_antisymm h.2 h.1, fun h => h ▸ ⟨le_rfl, le_rfl⟩⟩

variable {m : OrderedMap κ ν less} {e e' : κ × ν} {k : κ} {v : ν}

/-- The entries after an assignment. -/
lemma mem_set_less : e ∈ (m.set k v).entries ↔ (e ∈ m.entries ∧ e.1 ≠ k) ∨ e = (k, v) := by
  rw [mem_set, same_less]
  cases hf : m.find k with
  | none => rfl
  | some d =>
    obtain rfl : d.1 = k := same_less.mp (same_of_find hf)
    rfl

/-- What is left without a key. -/
lemma mem_erase_less : e ∈ (m.erase k).entries ↔ e ∈ m.entries ∧ e.1 ≠ k := by
  rw [mem_erase, same_less]

/-- A key has one entry. -/
lemma eq_of_key_eq (he : e ∈ m.entries) (he' : e' ∈ m.entries) (h : e.1 = e'.1) : e = e' :=
  eq_of_same he he' (same_less.mpr h)

/-- `m.upper_bound(k)`: the first entry above a key. -/
def upperBound (m : OrderedMap κ ν less) (k : κ) : Option (κ × ν) :=
  m.entries.find? fun e => decide (k < e.1)

/-- The entry before `m.upper_bound(k)`: the last one that is not above the key. -/
def beforeUpperBound (m : OrderedMap κ ν less) (k : κ) : Option (κ × ν) :=
  (m.entries.filter fun e => decide (e.1 ≤ k)).getLast?

/-- Without an upper bound, all keys are at most `k`. -/
lemma le_of_upperBound_eq_none (h : m.upperBound k = none) (he : e ∈ m.entries) : e.1 ≤ k := by
  simpa using List.find?_eq_none.mp h e he

/-- The upper bound is the least key above `k`. -/
lemma upperBound_eq_some (h : m.upperBound k = some e) :
    e ∈ m.entries ∧ k < e.1 ∧ ∀ e' ∈ m.entries, k < e'.1 → e.1 ≤ e'.1 := by
  obtain ⟨hk, pre, post, heq, hpre⟩ := List.find?_eq_some_iff_append.mp h
  have hsorted := m.sorted
  rw [heq] at hsorted
  have hpost := (pairwise_cons.mp (pairwise_append.mp hsorted).2.1).1
  refine ⟨by simp [heq], of_decide_eq_true hk, ?_⟩
  intro e' he' hlt
  rw [heq, mem_append, mem_cons] at he'
  rcases he' with he' | rfl | he'
  · exact absurd hlt (by simpa using hpre e' he')
  · exact le_rfl
  · exact (less_eq_true.mp (hpost e' he')).le

/-- With nothing before the upper bound, all keys are above `k`. -/
lemma lt_of_beforeUpperBound_eq_none (h : m.beforeUpperBound k = none) (he : e ∈ m.entries) :
    k < e.1 := by
  rw [beforeUpperBound, List.getLast?_eq_none_iff, filter_eq_nil_iff] at h
  simpa using h e he

/-- Before the upper bound stands the greatest key up to `k`. -/
lemma beforeUpperBound_eq_some (h : m.beforeUpperBound k = some e) :
    e ∈ m.entries ∧ e.1 ≤ k ∧ ∀ e' ∈ m.entries, e'.1 ≤ k → e'.1 ≤ e.1 := by
  obtain ⟨pre, heq⟩ := List.getLast?_eq_some_iff.mp h
  have hmem (d : κ × ν) : d ∈ m.entries ∧ d.1 ≤ k ↔ d ∈ pre ∨ d = e := by
    have hd : d ∈ m.entries.filter (fun e => decide (e.1 ≤ k)) ↔ d ∈ pre ++ [e] := by rw [heq]
    simpa using hd
  have hsorted := m.sorted.filter fun e => decide (e.1 ≤ k)
  rw [heq] at hsorted
  have hpre := (pairwise_append.mp hsorted).2.2
  have he := (hmem e).mpr (.inr rfl)
  refine ⟨he.1, he.2, ?_⟩
  intro e' he' hle
  rcases (hmem e').mp ⟨he', hle⟩ with hin | rfl
  · exact (less_eq_true.mp (hpre e' hin e (by simp))).le
  · exact le_rfl

end OrderedMap

end Less

/-- Intervals, by their starts. -/
abbrev Intervals (α : Type) [LinearOrder α] := OrderedMap α α less

namespace Intervals

variable {α : Type} [LinearOrder α]

/-- A point lies in one of the intervals. -/
def Covers (l : List (α × α)) (x : α) : Prop := ∃ e ∈ l, e.1 ≤ x ∧ x < e.2

instance (l : List (α × α)) (x : α) : Decidable (Covers l x) :=
  inferInstanceAs (Decidable (∃ e ∈ l, e.1 ≤ x ∧ x < e.2))

/-- No ranges cover nothing. -/
@[simp] lemma not_covers_nil (x : α) : ¬ Covers [] x := by simp [Covers]

/-- The points of the first range, or of the others. -/
lemma covers_cons {e : α × α} {l : List (α × α)} {x : α} :
    Covers (e :: l) x ↔ (e.1 ≤ x ∧ x < e.2) ∨ Covers l x := by
  simp [Covers]

/-- The intervals are not empty, ascending, disjoint and not adjacent. -/
structure Canonical (l : List (α × α)) : Prop where
  nonempty : ∀ e ∈ l, e.1 < e.2
  apart : l.Pairwise fun e e' => e.2 < e'.1

/-- No ranges are canonical. -/
lemma canonical_nil : Canonical ([] : List (α × α)) := ⟨by simp, .nil⟩

/-- The first range ends before all others begin. -/
lemma canonical_cons {e : α × α} {l : List (α × α)} :
    Canonical (e :: l) ↔ e.1 < e.2 ∧ (∀ e' ∈ l, e.2 < e'.1) ∧ Canonical l := by
  constructor
  · intro h
    obtain ⟨hlt, hl⟩ := forall_mem_cons.mp h.nonempty
    obtain ⟨hap, hpw⟩ := pairwise_cons.mp h.apart
    exact ⟨hlt, hap, hl, hpw⟩
  · rintro ⟨hlt, hap, hl⟩
    exact ⟨forall_mem_cons.mpr ⟨hlt, hl.nonempty⟩, pairwise_cons.mpr ⟨hap, hl.apart⟩⟩

/-- A range covers its start. -/
lemma Canonical.covers_start {l : List (α × α)} (h : Canonical l) {e : α × α} (he : e ∈ l) :
    Covers l e.1 := ⟨e, he, le_rfl, h.nonempty e he⟩

section Map

variable {m m' : Intervals α} {e e' : α × α} {a b x : α}

/-- What canonical means for a map, whose entries are in order anyway. -/
lemma canonical_of_lt (hne : ∀ e ∈ m.entries, e.1 < e.2)
    (hap : ∀ e ∈ m.entries, ∀ e' ∈ m.entries, e.1 < e'.1 → e.2 < e'.1) : Canonical m.entries :=
  ⟨hne, m.sorted.imp_of_mem fun {e e'} he he' h => hap e he e' he' (less_eq_true.mp h)⟩

/-- Between two ranges there is a gap. -/
lemma Canonical.lt_of_lt (h : Canonical m.entries) (he : e ∈ m.entries) (he' : e' ∈ m.entries)
    (hlt : e.1 < e'.1) : e.2 < e'.1 := by
  have hrel := List.Pairwise.and m.sorted h.apart
  obtain ⟨i, hi, rfl⟩ := mem_iff_getElem.mp he
  obtain ⟨j, hj, rfl⟩ := mem_iff_getElem.mp he'
  have hget := pairwise_iff_getElem.mp hrel
  obtain hij | rfl | hij := Nat.lt_trichotomy i j
  · exact (hget i j hi hj hij).2
  · exact absurd hlt (lt_irrefl _)
  · exact absurd hlt (less_eq_true.mp (hget j i hj hi hij).1).asymm

/-- One search decides membership. -/
theorem covers_iff_beforeUpperBound (h : Canonical m.entries) :
    Covers m.entries x ↔ ∃ e, m.beforeUpperBound x = some e ∧ x < e.2 := by
  constructor
  · rintro ⟨d, hd, hle, hlt⟩
    cases hb : m.beforeUpperBound x with
    | none => exact absurd hle (OrderedMap.lt_of_beforeUpperBound_eq_none hb hd).not_ge
    | some e =>
      obtain ⟨he, hex, hmax⟩ := OrderedMap.beforeUpperBound_eq_some hb
      obtain hde | hde := (hmax d hd hle).lt_or_eq
      · -- an interval that starts later and not above the point would start inside this one
        exact absurd (h.lt_of_lt hd he hde) (hex.trans hlt.le).not_gt
      · obtain rfl := OrderedMap.eq_of_key_eq hd he hde
        exact ⟨d, rfl, hlt⟩
  · rintro ⟨e, hb, hlt⟩
    obtain ⟨he, hex, -⟩ := OrderedMap.beforeUpperBound_eq_some hb
    exact ⟨e, he, hex, hlt⟩

section Absorb

variable {P : α × α → Prop}

/-- An interval that replaces those inside it, where the others are apart from it. -/
theorem Canonical.absorb (h : Canonical m.entries) (hab : a < b)
    (hm' : ∀ e, e ∈ m'.entries ↔ (e ∈ m.entries ∧ P e) ∨ e = (a, b))
    (hP : ∀ e ∈ m.entries, P e → e.2 < a ∨ b < e.1) : Canonical m'.entries := by
  refine canonical_of_lt ?_ ?_
  · intro e he
    rcases (hm' e).mp he with ⟨he, -⟩ | rfl
    · exact h.nonempty e he
    · exact hab
  · intro e he e' he' hlt
    rcases (hm' e).mp he with ⟨he, hPe⟩ | rfl <;> rcases (hm' e').mp he' with ⟨he', hPe'⟩ | rfl
    · exact h.lt_of_lt he he' hlt
    · exact (hP e he hPe).resolve_right (hlt.trans hab).asymm
    · refine (hP e' he' hPe').resolve_left fun hlt' => ?_
      exact absurd (hlt.trans (h.nonempty e' he')) hlt'.asymm
    · exact absurd hlt (lt_irrefl _)

/-- **A range that absorbs what it replaces adds only its own points.** -/
theorem covers_absorb (hm' : ∀ e, e ∈ m'.entries ↔ (e ∈ m.entries ∧ P e) ∨ e = (a, b))
    (hdrop : ∀ e ∈ m.entries, ¬ P e → a ≤ e.1 ∧ e.2 ≤ b) :
    Covers m'.entries x ↔ Covers m.entries x ∨ (a ≤ x ∧ x < b) := by
  constructor
  · rintro ⟨e, he, hx⟩
    rcases (hm' e).mp he with ⟨he, -⟩ | rfl
    · exact .inl ⟨e, he, hx⟩
    · exact .inr hx
  · rintro (⟨e, he, hle, hlt⟩ | hx)
    · by_cases hPe : P e
      · exact ⟨e, (hm' e).mpr (.inl ⟨he, hPe⟩), hle, hlt⟩
      · obtain ⟨ha, hb⟩ := hdrop e he hPe
        exact ⟨(a, b), (hm' _).mpr (.inr rfl), ha.trans hle, hlt.trans_le hb⟩
    · exact ⟨(a, b), (hm' _).mpr (.inr rfl), hx⟩

end Absorb

/-- A range behind all others, with a gap. -/
lemma Canonical.set_of_forall_lt (h : Canonical m.entries) (hab : a < b)
    (hlt : ∀ e ∈ m.entries, e.2 < a) : Canonical (m.set a b).entries :=
  h.absorb hab (fun _ => OrderedMap.mem_set_less) fun e he _ => .inl (hlt e he)

/-- A range behind all others adds its points. -/
lemma covers_set_of_forall_lt (h : Canonical m.entries) (hlt : ∀ e ∈ m.entries, e.2 < a) :
    Covers (m.set a b).entries x ↔ Covers m.entries x ∨ (a ≤ x ∧ x < b) := by
  refine covers_absorb (fun _ => OrderedMap.mem_set_less) ?_
  intro e he hne
  obtain rfl := not_not.mp hne
  exact absurd (hlt e he) (h.nonempty e he).asymm

end Map

/-- The number of points in disjoint intervals. -/
theorem card_covers [Fintype α] [LocallyFiniteOrder α] {l : List (α × α)}
    (h : l.Pairwise fun e e' => e.2 ≤ e'.1) :
    (Finset.univ.filter (Covers l)).card = (l.map fun e => (Finset.Ico e.1 e.2).card).sum := by
  induction l with
  | nil => simp [Finset.filter_false_of_mem]
  | cons e l ih =>
    obtain ⟨hap, hl⟩ := pairwise_cons.mp h
    have hunion : Finset.univ.filter (Covers (e :: l)) =
        Finset.Ico e.1 e.2 ∪ Finset.univ.filter (Covers l) := by
      ext x
      simp [covers_cons]
    have hdisjoint : Disjoint (Finset.Ico e.1 e.2) (Finset.univ.filter (Covers l)) := by
      rw [Finset.disjoint_left]
      intro x hx hcov
      obtain ⟨e', he', hle, -⟩ := (Finset.mem_filter.mp hcov).2
      exact absurd (Finset.mem_Ico.mp hx).2 ((hap e' he').trans hle).not_gt
    rw [hunion, Finset.card_union_of_disjoint hdisjoint, ih hl, map_cons, sum_cons]

end Intervals

end Tos
