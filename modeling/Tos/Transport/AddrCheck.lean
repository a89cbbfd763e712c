import Tos.Transport.AddrMan
import Mathlib.Data.List.Induction
import Mathlib.Data.Fintype.EquivFin

/-!
# What the consistency check of the address manager says

## Main results

* `foldlM_checkEntry_eq_ok`: the first loop of `Check_`.
* `placed_of_check`: a manager that passes the check is placed.
* `Placed.aligned`: every place of `vRandom` has an entry that knows it.
-/

namespace Tos.Net.CAddrMan

open OrderedMap (Same)
open List

lemma ite_error_eq_ok {ε α : Type} {c : Prop} [Decidable c] {x : ε} {y : Except ε α} {a : α} :
    (if c then .error x else y) = .ok a ↔ ¬c ∧ y = .ok a := by
  by_cases hc : c
  · simp [hc]
  · simp [hc]

/-- A loop whose rounds make a test and change a state. -/
lemma foldlM_eq_ok_iff {ε α σ : Type} {f : σ → α → Except ε σ} {P : α → Prop} {g : σ → α → σ}
    (h : ∀ s a s', f s a = .ok s' ↔ P a ∧ s' = g s a) (l : List α) (s s' : σ) :
    l.foldlM f s = .ok s' ↔ (∀ a ∈ l, P a) ∧ s' = l.foldl g s := by
  induction l generalizing s with
  | nil =>
    simp only [foldlM_nil, foldl_nil, pure, Except.pure, Except.ok.injEq, not_mem_nil,
      false_imp_iff, implies_true, true_and]
    exact eq_comm
  | cons a l ih =>
    rw [foldlM_cons, foldl_cons, forall_mem_cons, and_assoc, ← ih]
    cases e : f s a with
    | error x =>
      have hP : ¬ P a := fun hP => by
        rw [(h s a (g s a)).mpr ⟨hP, rfl⟩] at e
        cases e
      exact ⟨nofun, fun h => absurd h.1 hP⟩
    | ok s₁ =>
      obtain ⟨hP, rfl⟩ := (h s a s₁).mp e
      exact ⟨fun h => ⟨hP, h⟩, fun h => h.2⟩

/-- The tests that `Check_` makes for an entry. -/
structure EntryOk (m : CAddrMan) (e : ℤ × CAddrInfo) : Prop where
  tried : e.2.fInTried = true → e.2.nLastSuccess ≠ 0 ∧ e.2.nRefCount = 0
  new : e.2.fInTried = false →
    0 < e.2.nRefCount ∧ e.2.nRefCount ≤ ADDRMAN_NEW_BUCKETS_PER_ADDRESS
  addr : (m.mapAddr.get? e.2.toCNetAddr).getD 0 = e.1
  pos_nonneg : 0 ≤ e.2.nRandomPos
  pos_lt : e.2.nRandomPos < m.vRandom.size
  pos : m.vRandom.getD e.2.nRandomPos.toNat 0 = e.1
  lastTry : 0 ≤ e.2.nLastTry
  lastSuccess : 0 ≤ e.2.nLastSuccess

/-- What `Check_` notes of an entry. -/
def CheckState.add (s : CheckState) (e : ℤ × CAddrInfo) : CheckState :=
  if e.2.fInTried then { s with setTried := s.setTried ++ [e.1] }
  else { s with mapNew := s.mapNew.set e.1 e.2.nRefCount }

/-- One round of the first loop. -/
lemma checkEntry_eq_ok {m : CAddrMan} (s : CheckState) (e : ℤ × CAddrInfo) (s' : CheckState) :
    m.checkEntry s e = .ok s' ↔ m.EntryOk e ∧ s' = s.add e := by
  have hrest : ∀ s₁ : CheckState,
      ((if (m.mapAddr.get? e.2.toCNetAddr).getD 0 ≠ e.1 then .error (-5)
      else if e.2.nRandomPos < 0 ∨ e.2.nRandomPos ≥ m.vRandom.size ∨
          m.vRandom.getD e.2.nRandomPos.toNat 0 ≠ e.1 then .error (-14)
      else if e.2.nLastTry < 0 then .error (-6)
      else if e.2.nLastSuccess < 0 then .error (-8)
      else .ok s₁ : Except ℤ CheckState) = .ok s') ↔
      ((m.mapAddr.get? e.2.toCNetAddr).getD 0 = e.1 ∧ (0 ≤ e.2.nRandomPos ∧
        e.2.nRandomPos < m.vRandom.size ∧ m.vRandom.getD e.2.nRandomPos.toNat 0 = e.1) ∧
        0 ≤ e.2.nLastTry ∧ 0 ≤ e.2.nLastSuccess) ∧ s' = s₁ := by
    intro s₁
    simp only [ite_error_eq_ok, not_or, not_not, not_lt, ge_iff_le, not_le, Except.ok.injEq,
      Int64.not_lt, ne_eq, and_assoc, eq_comm (a := s')]
  unfold checkEntry noteEntry
  simp only [RLP.bind_eq_ok_iff, hrest]
  cases hf : e.2.fInTried with
  | true =>
    simp only [if_true, ite_error_eq_ok, not_not, Except.ok.injEq, CheckState.add, hf]
    constructor
    · rintro ⟨s₁, ⟨hs, hr, rfl⟩, ⟨ha, ⟨hp, hp', hp''⟩, ht, hl⟩, rfl⟩
      exact ⟨⟨fun _ => ⟨hs, hr⟩, by simp [hf], ha, hp, hp', hp'', ht, hl⟩, rfl⟩
    · rintro ⟨h, rfl⟩
      obtain ⟨hs, hr⟩ := h.tried hf
      exact ⟨_, ⟨hs, hr, rfl⟩, ⟨h.addr, ⟨h.pos_nonneg, h.pos_lt, h.pos⟩, h.lastTry,
        h.lastSuccess⟩, rfl⟩
  | false =>
    simp only [Bool.false_eq_true, if_false, ite_error_eq_ok, not_or, not_lt, Except.ok.injEq,
      CheckState.add, hf]
    constructor
    · rintro ⟨s₁, ⟨⟨hr, hr'⟩, hr0, rfl⟩, ⟨ha, ⟨hp, hp', hp''⟩, ht, hl⟩, rfl⟩
      exact ⟨⟨by simp [hf], fun _ => ⟨by omega, hr'⟩, ha, hp, hp', hp'', ht, hl⟩, rfl⟩
    · rintro ⟨h, rfl⟩
      obtain ⟨hr, hr'⟩ := h.new hf
      exact ⟨_, ⟨⟨hr.le, hr'⟩, hr.ne', rfl⟩, ⟨h.addr, ⟨h.pos_nonneg, h.pos_lt, h.pos⟩,
        h.lastTry, h.lastSuccess⟩, rfl⟩

/-- The first loop of `Check_`. -/
lemma foldlM_checkEntry_eq_ok {m : CAddrMan} (l : List (ℤ × CAddrInfo)) (s : CheckState) :
    l.foldlM m.checkEntry {} = .ok s ↔ (∀ e ∈ l, m.EntryOk e) ∧ s = l.foldl CheckState.add {} :=
  foldlM_eq_ok_iff checkEntry_eq_ok l {} s

/-- The entries that are tried, or not. -/
def triedEntries (l : List (ℤ × CAddrInfo)) : List (ℤ × CAddrInfo) := l.filter (·.2.fInTried)

def newEntries (l : List (ℤ × CAddrInfo)) : List (ℤ × CAddrInfo) := l.filter (!·.2.fInTried)

/-- What the first loop of `Check_` collects. -/
lemma foldl_add (l : List (ℤ × CAddrInfo)) (hl : l.Pairwise fun a b => idLt a.1 b.1 = true) :
    (l.foldl CheckState.add {}).setTried = (triedEntries l).map Prod.fst ∧
      (l.foldl CheckState.add {}).mapNew.entries =
        (newEntries l).map fun e => (e.1, e.2.nRefCount) := by
  induction l using List.reverseRecOn with
  | nil => exact ⟨rfl, rfl⟩
  | append_singleton l e ih =>
    obtain ⟨hl, -, hlast⟩ := List.pairwise_append.mp hl
    obtain ⟨ih₁, ih₂⟩ := ih hl
    rw [foldl_append, foldl_cons, foldl_nil, triedEntries, newEntries,
      filter_append, filter_append]
    cases hf : e.2.fInTried with
    | true => simp [CheckState.add, hf, ih₁, ih₂, triedEntries, newEntries]
    | false =>
      have habove : ∀ x ∈ (l.foldl CheckState.add {}).mapNew.entries, idLt x.1 e.1 = true := by
        intro x hx
        rw [ih₂] at hx
        obtain ⟨y, hy, rfl⟩ := mem_map.mp hx
        exact hlast y (mem_of_mem_filter hy) e mem_cons_self
      have hput := @OrderedMap.put_of_forall_lt _ _ idLt e.1 e.2.nRefCount _ habove
      rw [ih₂] at hput
      simp only [CheckState.add, hf, Bool.false_eq_true, if_false, OrderedMap.set, ih₁, ih₂, hput]
      simp [triedEntries, newEntries, hf]

/-- The entries know their places in `vRandom`, which has as many places, and no two entries have
one address. -/
structure Placed (m : CAddrMan) : Prop where
  size : m.vRandom.size = m.mapInfo.entries.length
  pos : ∀ nId info, m.mapInfo.get? nId = some info → 0 ≤ info.nRandomPos ∧
    m.vRandom[info.nRandomPos.toNat]? = some nId
  addr : ∀ nId nId' info info', m.mapInfo.get? nId = some info → m.mapInfo.get? nId' = some info' →
    info.ip = info'.ip → nId = nId'

/-- A value of the map of the entries. -/
lemma get?_eq_some {m : OrderedMap ℤ CAddrInfo idLt} {nId : ℤ} {info : CAddrInfo} :
    m.get? nId = some info ↔ (nId, info) ∈ m.entries := by
  rw [OrderedMap.get?, Option.map_eq_some_iff]
  constructor
  · rintro ⟨e, he, rfl⟩
    obtain ⟨hmem, hsame⟩ := OrderedMap.find_eq_some_iff.mp he
    rw [same_idLt] at hsame
    rwa [← hsame]
  · intro h
    exact ⟨_, OrderedMap.find_eq_some_iff.mpr ⟨h, same_idLt.mpr rfl⟩, rfl⟩

/-! ### The codes -/

/-- A test that fails has a code. -/
def Coded {α : Type} (x : Except ℤ α) : Prop := x ≠ .error 0

section Coded

variable {α β : Type}

lemma coded_ok (a : α) : Coded (.ok a) := nofun

lemma coded_error {c : ℤ} (h : c ≠ 0) : Coded (.error c : Except ℤ α) :=
  fun e => h (by simpa using e)

lemma Coded.bind {x : Except ℤ α} {f : α → Except ℤ β} (hx : Coded x) (hf : ∀ a, Coded (f a)) :
    Coded (x >>= f) := by
  cases x with
  | error c => exact fun e => hx (congrArg Except.error (Except.error.inj e))
  | ok a => exact hf a

lemma Coded.ite {c : Prop} [Decidable c] {x y : Except ℤ α} (hx : Coded x) (hy : Coded y) :
    Coded (if c then x else y) := by
  split_ifs
  · exact hx
  · exact hy

lemma coded_foldlM {f : β → α → Except ℤ β} (h : ∀ b a, Coded (f b a)) (l : List α) (b : β) :
    Coded (l.foldlM f b) := by
  induction l generalizing b with
  | nil => exact coded_ok b
  | cons a l ih => exact (h b a).bind ih

end Coded

lemma coded_checkEntry (m : CAddrMan) (s : CheckState) (e : ℤ × CAddrInfo) :
    Coded (m.checkEntry s e) := by
  refine Coded.bind ?_ fun s => ?_
  · refine .ite (.ite (coded_error (by decide)) (.ite (coded_error (by decide)) (coded_ok _))) ?_
    exact .ite (coded_error (by decide)) (.ite (coded_error (by decide)) (coded_ok _))
  · exact .ite (coded_error (by decide)) (.ite (coded_error (by decide))
      (.ite (coded_error (by decide)) (.ite (coded_error (by decide)) (coded_ok _))))

variable (hash : CheapHash)

lemma coded_checkTried (m : CAddrMan) (l : List ℤ) (p : TriedBucket × Place) :
    Coded (m.checkTried hash l p) :=
  .ite (coded_ok _) (.ite (coded_error (by decide)) (.ite (coded_error (by decide))
    (.ite (coded_error (by decide)) (coded_ok _))))

lemma coded_checkNew (m : CAddrMan) (l : OrderedMap ℤ ℤ idLt) (p : NewBucket × Place) :
    Coded (m.checkNew hash l p) := by
  refine .ite (coded_ok _) ?_
  cases l.get? (m.vvNew p.1 p.2) with
  | none => exact coded_error (by decide)
  | some c => exact .ite (coded_error (by decide)) (.ite (coded_ok _) (coded_ok _))

lemma coded_checkAll (m : CAddrMan) : Coded (m.checkAll hash) := by
  refine .ite (coded_error (by decide)) (Coded.bind ?_ fun s => ?_)
  · exact coded_foldlM (coded_checkEntry m) _ _
  refine .ite (coded_error (by decide)) (.ite (coded_error (by decide)) (Coded.bind ?_ fun t =>
    Coded.bind ?_ fun n => ?_))
  · exact coded_foldlM (coded_checkTried hash m) _ _
  · exact coded_foldlM (coded_checkNew hash m) _ _
  · exact .ite (coded_error (by decide)) (.ite (coded_error (by decide))
      (.ite (coded_error (by decide)) (coded_ok _)))

lemma check_eq_zero {hash : CheapHash} {m : CAddrMan} :
    m.check_ hash = 0 ↔ m.checkAll hash = .ok () := by
  have hcoded := coded_checkAll hash m
  unfold check_
  cases e : m.checkAll hash with
  | ok u => simp
  | error c =>
    rw [e] at hcoded
    have hc : c ≠ 0 := fun h => hcoded (by rw [h])
    simpa using hc

lemma nodup_ids (m : OrderedMap ℤ CAddrInfo idLt) : (m.entries.map Prod.fst).Nodup := by
  refine List.pairwise_map.mpr (m.sorted.imp fun hlt heq => ?_)
  simp [idLt, heq] at hlt

lemma nodup_entries (m : OrderedMap ℤ CAddrInfo idLt) : m.entries.Nodup :=
  (nodup_ids m).of_map _

/-- The tables have places for entries in the first bucket, and then in the others. -/
lemma places_succ (n : ℕ) :
    places (n + 1) = (List.finRange ADDRMAN_BUCKET_SIZE).map (fun i => (0, i)) ++
      (List.finRange n).flatMap fun b =>
        (List.finRange ADDRMAN_BUCKET_SIZE).map fun i => (b.succ, i) := by
  rw [places, List.finRange_succ (n := n), List.flatMap_cons, List.flatMap_map]

section Empty

variable {m : CAddrMan} (hash : CheapHash)

/-- The check passes over places of the tried table without an entry. -/
lemma foldlM_checkTried_of_empty {l : List (TriedBucket × Place)}
    (h : ∀ p ∈ l, m.vvTried p.1 p.2 = -1) (s : List ℤ) :
    l.foldlM (m.checkTried hash) s = .ok s := by
  induction l with
  | nil => rfl
  | cons p l ih =>
    obtain ⟨hp, hl⟩ := List.forall_mem_cons.mp h
    rw [List.foldlM_cons, checkTried, if_pos hp]
    exact ih hl

/-- The check passes over places of the new table without an entry. -/
lemma foldlM_checkNew_of_empty {l : List (NewBucket × Place)}
    (h : ∀ p ∈ l, m.vvNew p.1 p.2 = -1) (s : OrderedMap ℤ ℤ idLt) :
    l.foldlM (m.checkNew hash) s = .ok s := by
  induction l with
  | nil => rfl
  | cons p l ih =>
    obtain ⟨hp, hl⟩ := List.forall_mem_cons.mp h
    rw [List.foldlM_cons, checkNew, if_pos hp]
    exact ih hl

end Empty

/-- A manager that passes the check is placed. -/
theorem placed_of_check {hash : CheapHash} {m : CAddrMan} (h : m.check_ hash = 0) : m.Placed := by
  have hall := check_eq_zero.mp h
  simp only [checkAll, ite_error_eq_ok, RLP.bind_eq_ok_iff, not_not,
    foldlM_checkEntry_eq_ok] at hall
  obtain ⟨hsize, s, ⟨hentries, hs⟩, htried, hnew, -⟩ := hall
  obtain ⟨hset, hmap⟩ := foldl_add m.mapInfo.entries m.mapInfo.sorted
  rw [← hs] at hset hmap
  have hlen : (triedEntries m.mapInfo.entries).length + (newEntries m.mapInfo.entries).length =
      m.mapInfo.entries.length :=
    (length_eq_length_filter_add fun e : ℤ × CAddrInfo => e.2.fInTried).symm
  rw [hset, length_map] at htried
  rw [hmap, length_map] at hnew
  refine ⟨by omega, fun nId info hinfo => ?_, fun nId nId' info info' hi hi' hip => ?_⟩
  · have he := hentries _ (get?_eq_some.mp hinfo)
    have hlt : info.nRandomPos.toNat < m.vRandom.size := by
      have h₁ := he.pos_nonneg
      have h₂ := he.pos_lt
      simp only at h₁ h₂
      omega
    refine ⟨he.pos_nonneg, ?_⟩
    have hpos := he.pos
    simp only [Array.getD_eq_getD_getElem?, Array.getElem?_eq_getElem hlt] at hpos ⊢
    rw [← hpos]
    rfl
  · have he := (hentries _ (get?_eq_some.mp hi)).addr
    have he' := (hentries _ (get?_eq_some.mp hi')).addr
    simp only at he he'
    -- the map of the ids looks at the bytes of the address only
    rw [← he, ← he', OrderedMap.get?_congr (CNetAddr.same_iff.mpr hip)]

/-- The entries and the places of `vRandom` belong to each other. -/
structure Aligned (m : CAddrMan) : Prop where
  entry : ∀ p (h : p < m.vRandom.size),
    ∃ info, m.mapInfo.get? m.vRandom[p] = some info ∧ info.nRandomPos = p
  pos : ∀ nId info, m.mapInfo.get? nId = some info → 0 ≤ info.nRandomPos ∧
    m.vRandom[info.nRandomPos.toNat]? = some nId

/-- There are as many places as entries, so every place has an entry that knows it.

**Proof sketch.** The place of an entry determines its id. So the map from the entries to their
places is injective, and as both are finite and equally many, it is surjective. -/
theorem Placed.aligned {m : CAddrMan} (h : m.Placed) : m.Aligned := by
  refine ⟨fun p hp => ?_, h.pos⟩
  have hget (i : Fin m.mapInfo.entries.length) :
      m.mapInfo.get? (m.mapInfo.entries[i]).1 = some (m.mapInfo.entries[i]).2 :=
    get?_eq_some.mpr (getElem_mem i.isLt)
  have hpos (i : Fin m.mapInfo.entries.length) := h.pos _ _ (hget i)
  have hlt (i : Fin m.mapInfo.entries.length) :
      (m.mapInfo.entries[i]).2.nRandomPos.toNat < m.mapInfo.entries.length :=
    (Array.getElem?_eq_some_iff.mp (hpos i).2).1.trans_eq h.size
  let f (i : Fin m.mapInfo.entries.length) : Fin m.mapInfo.entries.length := ⟨_, hlt i⟩
  have hinj : Function.Injective f := by
    intro i j hij
    have he : (m.mapInfo.entries[i]).2.nRandomPos.toNat =
        (m.mapInfo.entries[j]).2.nRandomPos.toNat := congrArg Fin.val hij
    have hid : (m.mapInfo.entries[i]).1 = (m.mapInfo.entries[j]).1 := by
      have hi := (hpos i).2
      rw [he, (hpos j).2] at hi
      exact (Option.some.inj hi).symm
    have hentry := OrderedMap.eq_of_same (getElem_mem i.isLt) (getElem_mem j.isLt)
      (same_idLt.mpr hid)
    exact Fin.ext ((List.Nodup.getElem_inj_iff (nodup_entries m.mapInfo)).mp hentry)
  obtain ⟨i, hi⟩ := Finite.injective_iff_surjective.mp hinj ⟨p, h.size ▸ hp⟩
  have hip : (m.mapInfo.entries[i]).2.nRandomPos.toNat = p := congrArg Fin.val hi
  have hid := (hpos i).2
  rw [hip, Array.getElem?_eq_getElem hp] at hid
  refine ⟨(m.mapInfo.entries[i]).2, ?_, ?_⟩
  · rw [Option.some.inj hid]
    exact hget i
  · have := (hpos i).1
    omega

namespace Aligned

variable {m : CAddrMan} (h : m.Aligned)
include h

/-- An id has one place in `vRandom`. -/
lemma index_inj {i j : ℕ} (hi : i < m.vRandom.size) (hj : j < m.vRandom.size)
    (heq : m.vRandom[i] = m.vRandom[j]) : i = j := by
  obtain ⟨info, hinfo, hpos⟩ := h.entry i hi
  obtain ⟨info', hinfo', hpos'⟩ := h.entry j hj
  rw [heq, hinfo'] at hinfo
  rw [Option.some.inj hinfo, hpos] at hpos'
  omega

lemma nodup : m.vRandom.toList.Nodup := by
  refine List.pairwise_iff_getElem.mpr fun i j hi hj hij heq => hij.ne ?_
  rw [Array.length_toList] at hi hj
  exact h.index_inj hi hj heq

lemma mem_vRandom_iff {nId : ℤ} : nId ∈ m.vRandom.toList ↔ (m.mapInfo.get? nId).isSome := by
  rw [mem_iff_getElem, Option.isSome_iff_exists]
  constructor
  · rintro ⟨i, hi, rfl⟩
    rw [Array.length_toList] at hi
    obtain ⟨info, hinfo, -⟩ := h.entry i hi
    exact ⟨info, hinfo⟩
  · rintro ⟨info, hinfo⟩
    obtain ⟨hlt, heq⟩ := Array.getElem?_eq_some_iff.mp (h.pos nId info hinfo).2
    exact ⟨_, by simpa using hlt, by simpa using heq⟩

/-- `vRandom` has the ids of the entries. -/
lemma perm_ids : m.vRandom.toList.Perm (m.mapInfo.entries.map Prod.fst) := by
  refine (perm_ext_iff_of_nodup h.nodup (nodup_ids m.mapInfo)).mpr fun nId => ?_
  rw [h.mem_vRandom_iff, Option.isSome_iff_exists, mem_map]
  constructor
  · rintro ⟨info, hinfo⟩
    exact ⟨_, get?_eq_some.mp hinfo, rfl⟩
  · rintro ⟨e, he, rfl⟩
    exact ⟨e.2, get?_eq_some.mpr he⟩

end Aligned

end Tos.Net.CAddrMan
