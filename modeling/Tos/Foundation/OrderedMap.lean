import Mathlib

/-!
# Ordered maps

A map as `std::map` keeps it: entries in ascending order of their keys, where the order is any
strict weak order. Two keys that are not ordered count as one key, although they need not be equal;
the key that was inserted first stays when a value is assigned through another one.

## Main results

* `OrderedMap.mem_set`, `mem_erase`, `mem_filter`: the entries after an operation.
* `OrderedMap.find_eq_some_iff`: what is found is the entry with the key.
-/

namespace Tos

open List

/-- An order by a key in a linear order is a strict weak order. -/
lemma isStrictWeakOrder_of_key {α ρ : Type*} [LinearOrder ρ] (key : α → ρ) {lt : α → α → Bool}
    (h : ∀ a b, lt a b = true ↔ key a < key b) :
      IsStrictWeakOrder α (fun a b => lt a b = true) where
  irrefl a hlt := lt_irrefl _ ((h a a).mp hlt)
  trans a b c hab hbc := (h a c).mpr (((h a b).mp hab).trans ((h b c).mp hbc))
  incomp_trans a b c hab hbc := by
    simp only [h, not_lt] at *
    exact ⟨hbc.1.trans hab.1, hab.2.trans hbc.2⟩

/-- A map with its entries in ascending order of the keys. -/
structure OrderedMap (κ ν : Type) (lt : κ → κ → Bool) where
  entries : List (κ × ν)
  sorted : entries.Pairwise fun a b => lt a.1 b.1 = true

namespace OrderedMap

variable {κ ν : Type} {lt : κ → κ → Bool}

/-- The map without entries. -/
def empty : OrderedMap κ ν lt := ⟨[], .nil⟩

instance : Inhabited (OrderedMap κ ν lt) := ⟨empty⟩

/-- A map is its entries. -/
@[ext] lemma ext {m m' : OrderedMap κ ν lt} (h : m.entries = m'.entries) : m = m' := by
  cases m
  cases m'
  cases h
  rfl

/-- The entries, where maps are compared by them. -/
instance [DecidableEq κ] [DecidableEq ν] : DecidableEq (OrderedMap κ ν lt) := fun m m' =>
  decidable_of_iff (m.entries = m'.entries) ⟨ext, congrArg entries⟩

variable (lt) in
/-- Neither of the keys is below the other. -/
def Same (a b : κ) : Prop := lt a b = false ∧ lt b a = false

instance (a b : κ) : Decidable (Same lt a b) := inferInstanceAs (Decidable (_ ∧ _))

/-- The entry with a key. -/
def find (m : OrderedMap κ ν lt) (k : κ) : Option (κ × ν) :=
  m.entries.find? fun e => decide (Same lt e.1 k)

/-- The value with a key. -/
def get? (m : OrderedMap κ ν lt) (k : κ) : Option ν := (m.find k).map Prod.snd

variable (lt) in
/-- A value is assigned through a key. -/
def put (k : κ) (v : ν) : List (κ × ν) → List (κ × ν)
  | [] => [(k, v)]
  | e :: l =>
    if lt e.1 k then e :: put k v l
    else if lt k e.1 then (k, v) :: e :: l
    else (e.1, v) :: l

section Order

variable [horder : IsStrictWeakOrder κ (fun a b => lt a b = true)]

omit horder in
/-- Equivalence of keys is symmetric. -/
lemma Same.symm {a b : κ} (h : Same lt a b) : Same lt b a := ⟨h.2, h.1⟩

/-- A key is equivalent to itself. -/
lemma same_refl (a : κ) : Same lt a a := by
  have h := horder.irrefl a
  simp only [Bool.not_eq_true] at h
  exact ⟨h, h⟩

/-- Equivalence of keys is transitive. -/
lemma Same.trans {a b c : κ} (hab : Same lt a b) (hbc : Same lt b c) : Same lt a c := by
  have h := horder.incomp_trans a b c
  simp only [Bool.not_eq_true] at h
  exact h hab hbc

/-- Of two keys in order, one at most is equivalent to a third. -/
lemma not_same_of_lt {a b k : κ} (hab : lt a b = true) (ha : Same lt a k) : ¬ Same lt b k := by
  intro hb
  have h := (ha.trans hb.symm).1
  simp [hab] at h

variable {k : κ} {v : ν} {l : List (κ × ν)}

omit horder in
/-- The keys after an assignment. -/
lemma forall_put {P : κ → Prop} (hl : ∀ e ∈ l, P e.1) (hk : P k) : ∀ e ∈ put lt k v l, P e.1 := by
  induction l with
  | nil => simpa [put] using hk
  | cons d l ih =>
    have hd := hl d mem_cons_self
    have hl := fun e he => hl e (mem_cons_of_mem d he)
    rw [put]
    split_ifs
    · exact forall_mem_cons.mpr ⟨hd, ih hl⟩
    · exact forall_mem_cons.mpr ⟨hk, forall_mem_cons.mpr ⟨hd, hl⟩⟩
    · exact forall_mem_cons.mpr ⟨hd, hl⟩

omit horder in
/-- A key above all others is put behind them. -/
lemma put_of_forall_lt (hl : ∀ e ∈ l, lt e.1 k = true) : put lt k v l = l ++ [(k, v)] := by
  induction l with
  | nil => rfl
  | cons d l ih =>
    rw [put, if_pos (hl d mem_cons_self), ih fun e he => hl e (mem_cons_of_mem d he)]
    rfl

/-- The entries stay in order. -/
lemma pairwise_put (hl : l.Pairwise fun a b => lt a.1 b.1 = true) :
    (put lt k v l).Pairwise fun a b => lt a.1 b.1 = true := by
  induction l with
  | nil => exact pairwise_singleton _ _
  | cons d l ih =>
    obtain ⟨hd, hl⟩ := pairwise_cons.mp hl
    rw [put]
    split_ifs with hdk hkd
    · exact pairwise_cons.mpr ⟨@forall_put κ ν lt k v l (lt d.1 · = true) hd hdk, ih hl⟩
    · refine pairwise_cons.mpr ⟨?_, pairwise_cons.mpr ⟨hd, hl⟩⟩
      exact forall_mem_cons.mpr ⟨hkd, fun e he => horder.trans _ _ _ hkd (hd e he)⟩
    · exact pairwise_cons.mpr ⟨hd, hl⟩

/-- The entries after an assignment: those with other keys, and one with the value. -/
lemma mem_put {e : κ × ν} (hl : l.Pairwise fun a b => lt a.1 b.1 = true) :
    e ∈ put lt k v l ↔ (e ∈ l ∧ ¬ Same lt e.1 k) ∨
      e = (((l.find? fun e => decide (Same lt e.1 k)).map Prod.fst).getD k, v) := by
  induction l with
  | nil => simp [put]
  | cons d l ih =>
    obtain ⟨hd, hl⟩ := pairwise_cons.mp hl
    have ih := ih hl
    rw [put]
    split_ifs with hdk hkd
    · have hne : ¬ Same lt d.1 k := fun h => by simp [h.1] at hdk
      rw [mem_cons, ih, List.find?_cons_of_neg (by simpa using hne), mem_cons]
      constructor
      · rintro (rfl | h | h)
        · exact .inl ⟨.inl rfl, hne⟩
        · exact .inl ⟨.inr h.1, h.2⟩
        · exact .inr h
      · rintro (⟨rfl | h, hs⟩ | h)
        · exact .inl rfl
        · exact .inr (.inl ⟨h, hs⟩)
        · exact .inr (.inr h)
    · -- every entry is above the key
      have hall : ∀ e ∈ d :: l, ¬ Same lt e.1 k := by
        intro e he hs
        have hke : lt k e.1 = true := by
          obtain rfl | he := mem_cons.mp he
          · exact hkd
          · exact horder.trans _ _ _ hkd (hd e he)
        simp [hs.2] at hke
      have hnone : (d :: l).find? (fun e => decide (Same lt e.1 k)) = none :=
        List.find?_eq_none.mpr fun e he => by simpa using hall e he
      rw [hnone, mem_cons (b := (k, v))]
      constructor
      · rintro (h | h)
        · exact .inr h
        · exact .inl ⟨h, hall e h⟩
      · rintro (h | h)
        · exact .inr h.1
        · exact .inl h
    · have hsame : Same lt d.1 k := ⟨by simpa using hdk, by simpa using hkd⟩
      rw [List.find?_cons_of_pos (by simpa using hsame), mem_cons]
      constructor
      · rintro (h | h)
        · exact .inr h
        · exact .inl ⟨mem_cons_of_mem _ h, not_same_of_lt (hd e h) hsame⟩
      · rintro (⟨h, hs⟩ | h)
        · obtain rfl | h := mem_cons.mp h
          · exact absurd hsame hs
          · exact .inr h
        · exact .inl h

/-- `m[k] = v`. -/
def set (m : OrderedMap κ ν lt) (k : κ) (v : ν) : OrderedMap κ ν lt :=
  ⟨put lt k v m.entries, pairwise_put m.sorted⟩

omit horder in
/-- `m.erase(k)`. -/
def erase (m : OrderedMap κ ν lt) (k : κ) : OrderedMap κ ν lt :=
  ⟨m.entries.filter fun e => !decide (Same lt e.1 k), m.sorted.filter _⟩

omit horder in
/-- The entries that pass a test. -/
def filter (m : OrderedMap κ ν lt) (p : κ × ν → Bool) : OrderedMap κ ν lt :=
  ⟨m.entries.filter p, m.sorted.filter _⟩

variable {m : OrderedMap κ ν lt} {e e' : κ × ν}

omit horder in
/-- What is left without a key. -/
lemma mem_erase : e ∈ (m.erase k).entries ↔ e ∈ m.entries ∧ ¬ Same lt e.1 k := by
  rw [erase, List.mem_filter, Bool.not_eq_true', decide_eq_false_iff_not]

omit horder in
/-- What a filter leaves. -/
lemma mem_filter {p : κ × ν → Bool} :
    e ∈ (m.filter p).entries ↔ e ∈ m.entries ∧ p e = true := List.mem_filter

/-- The entries after an assignment; the key stays if there was one. -/
theorem mem_set : e ∈ (m.set k v).entries ↔
    (e ∈ m.entries ∧ ¬ Same lt e.1 k) ∨ e = (((m.find k).map Prod.fst).getD k, v) :=
  mem_put m.sorted

omit horder in
/-- There is one entry for each key. -/
lemma eq_of_same (he : e ∈ m.entries) (he' : e' ∈ m.entries) (h : Same lt e.1 e'.1) : e = e' := by
  obtain ⟨i, hi, rfl⟩ := mem_iff_getElem.mp he
  obtain ⟨j, hj, rfl⟩ := mem_iff_getElem.mp he'
  have hlt := pairwise_iff_getElem.mp m.sorted
  obtain hij | rfl | hij := Nat.lt_trichotomy i j
  · exact absurd (hlt i j hi hj hij) (by simp [h.1])
  · rfl
  · exact absurd (hlt j i hj hi hij) (by simp [h.2])

omit horder in
/-- A found entry has the key that was asked for. -/
lemma same_of_find (h : m.find k = some e) : Same lt e.1 k :=
  of_decide_eq_true (List.find?_some (p := fun e : κ × ν => decide (Same lt e.1 k)) h)

/-- What is found is the entry with the key. -/
theorem find_eq_some_iff : m.find k = some e ↔ e ∈ m.entries ∧ Same lt e.1 k := by
  constructor
  · intro h
    exact ⟨mem_of_find?_eq_some h, same_of_find h⟩
  · rintro ⟨he, hs⟩
    cases hf : m.find k with
    | none => exact absurd (List.find?_eq_none.mp hf e he) (by simpa using hs)
    | some d =>
      have hd := (same_of_find hf).trans hs.symm
      rw [eq_of_same (mem_of_find?_eq_some hf) he hd]

/-- The entry that was just assigned. -/
lemma find_set_self : (m.set k v).find k = some (((m.find k).map Prod.fst).getD k, v) := by
  refine find_eq_some_iff.mpr ⟨mem_set.mpr (.inr rfl), ?_⟩
  cases hf : m.find k with
  | none => exact same_refl k
  | some d =>
    have hd : Same lt d.1 k := same_of_find hf
    exact hd

/-- Keys that count as one have one value. -/
lemma get?_congr {k' : κ} (h : Same lt k k') : m.get? k = m.get? k' := by
  have hiff (e : κ × ν) : m.find k = some e ↔ m.find k' = some e := by
    rw [find_eq_some_iff, find_eq_some_iff]
    exact ⟨fun he => ⟨he.1, he.2.trans h⟩, fun he => ⟨he.1, he.2.trans h.symm⟩⟩
  rw [get?, get?, Option.ext hiff]

/-- The values after an assignment. -/
lemma get?_set (k' : κ) : (m.set k v).get? k' = if Same lt k k' then some v else m.get? k' := by
  split_ifs with hk
  · have hmem : ((((m.find k).map Prod.fst).getD k, v) : κ × ν) ∈ (m.set k v).entries :=
      mem_set.mpr (.inr rfl)
    have hsame := same_of_find (find_set_self (m := m) (k := k) (v := v))
    rw [get?, find_eq_some_iff.mpr ⟨hmem, hsame.trans hk⟩]
    rfl
  · have hiff (e : κ × ν) : (m.set k v).find k' = some e ↔ m.find k' = some e := by
      rw [find_eq_some_iff, find_eq_some_iff, mem_set]
      constructor
      · rintro ⟨h | rfl, hs⟩
        · exact ⟨h.1, hs⟩
        · have hsame := same_of_find (find_set_self (m := m) (k := k) (v := v))
          exact absurd (hsame.symm.trans hs) hk
      · rintro ⟨he, hs⟩
        exact ⟨.inl ⟨he, fun h => hk (h.symm.trans hs)⟩, hs⟩
    rw [get?, get?, Option.ext hiff]

omit horder in
/-- Nothing is found when no key is equivalent. -/
lemma find_eq_none_iff : m.find k = none ↔ ∀ e ∈ m.entries, ¬ Same lt e.1 k := by
  simp [find, List.find?_eq_none]

end Order

end OrderedMap

end Tos
