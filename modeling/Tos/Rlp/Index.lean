import Tos.Rlp.Lazy
import Tos.Foundation.Method
import Mathlib.Data.List.Induction

/-!
# Indexing one object again and again

`RLP::operator[]` is a method of a constant object, but it moves the list-indexing cache of the
object step by step, and a header that cannot be read makes it throw between two of these steps.
So it is a method here, which leaves the cache as the exception has found it. `itemCached`, where
the cache of a call that throws is dropped, describes the calls that return.

## Main results

* `sound_cacheOf`: the cache of an object is new, on the trail, or spoilt.
* `subscript_eq_item_iff`: when an access has the outcome that it has on a new object.

## Implementation notes

The loop throws when the header behind an item cannot be read. By then `m_lastItem` is the whole
rest of the payload, while `m_lastIndex` and `m_lastEnd` are still those of the item before it. A
later access to a smaller index starts anew, and one to a larger index runs into the same header;
but an access to `m_lastIndex` itself takes the rest for the item.
-/

namespace Tos.RLP

open List
open Rlp (Kind frame)

open Method

/-- The methods of an object that change its list-indexing cache. -/
abbrev IndexM := Method RlpError Cache

/-- The first branch of `operator[]`. -/
def subscriptRestart (d : Bytes) (i : ℕ) : IndexM Unit := do
  let c ← get
  onlyIf (i < c.m_lastIndex) do
    let size ← call id (payload d >>= sizeAsEncoded)
    modify fun c => { c with m_lastEnd := size }
    let p ← call id (payload d)
    modify fun c => { c with m_lastItem := cropped p 0 c.m_lastEnd }
    modify fun c => { c with m_lastIndex := 0 }

/-- The loop of `operator[]`, for at most `n` more items. -/
def subscriptLoop (d : Bytes) : ℕ → IndexM Unit
  | 0 => pure ()
  | n + 1 => do
    let c ← get
    if c.m_lastItem.length = 0 then pure ()
    else
      let p ← call id (payload d)
      modify fun c => { c with m_lastItem := p.drop c.m_lastEnd }
      let c ← get
      let size ← call id (sizeAsEncoded c.m_lastItem)
      modify fun c => { c with m_lastItem := cropped c.m_lastItem 0 size }
      modify fun c => { c with m_lastEnd := c.m_lastEnd + c.m_lastItem.length }
      modify fun c => { c with m_lastIndex := c.m_lastIndex + 1 }
      subscriptLoop d n

/-- The loop of `operator[]` up to the item `i`, and the object that is returned for it. -/
def subscriptItem (d : Bytes) (i : ℕ) : IndexM Bytes := do
  let c ← get
  subscriptLoop d (i - c.m_lastIndex)
  let c ← get
  call id (ofBytes c.m_lastItem (ThrowOnFail ||| FailIfTooSmall))

/-- `RLP::operator[]`. -/
def subscript (d : Bytes) (i : ℕ) : IndexM Bytes := do
  subscriptRestart d i
  subscriptItem d i

/-- The outcomes of accesses to one object, one after the other. -/
def outcomes (d : Bytes) : List ℕ → Cache → List (Except RlpError Bytes)
  | [], _ => []
  | i :: is, c => ((subscript d i).on c).1 :: outcomes d is ((subscript d i).on c).2

/-- The cache of an object after accesses to it. -/
def cacheOf (d : Bytes) (is : List ℕ) : Cache :=
  is.foldl (fun c i => ((subscript d i).on c).2) {}

/-! ### The steps -/

/-- The cache at the first item. -/
def firstCache (d : Bytes) : Except RlpError Cache := do
  let lastEnd ← sizeAsEncoded (← payload d)
  return ⟨0, lastEnd, cropped (← payload d) 0 lastEnd⟩

lemma restart_eq_ite (d : Bytes) (c : Cache) (i : ℕ) :
    restart d c i = if i < c.m_lastIndex then firstCache d else .ok c := rfl

/-- The cache with all that is left of the payload in the place of the item. -/
def spoil (p : Bytes) (c : Cache) : Cache := { c with m_lastItem := p.drop c.m_lastEnd }

@[simp] lemma lastIndex_spoil (p : Bytes) (c : Cache) :
    (spoil p c).m_lastIndex = c.m_lastIndex := rfl

/-- The header behind the item of the cache cannot be read. -/
def Broken (p : Bytes) (c : Cache) (e : RlpError) : Prop :=
  c.m_lastItem ≠ [] ∧ sizeAsEncoded (p.drop c.m_lastEnd) = .error e

variable {d p : Bytes} {c c₀ c' : Cache} {e : RlpError} {i n : ℕ}

/-- The constructor for an item measures it. -/
lemma ofBytes_eq_sizeAsEncoded (x : Bytes) :
    ofBytes x (ThrowOnFail ||| FailIfTooSmall) = (sizeAsEncoded x).map fun _ => x := by
  rw [ofBytes_failIfTooSmall, sizeAsEncoded_eq]
  cases actualSize x with
  | error e => rfl
  | ok a =>
    simp only [Except.bind]
    split_ifs <;> rfl

lemma subscriptRestart_on (c : Cache) : (subscriptRestart d i).on c =
    match restart d c i with
    | .ok c' => (.ok (), c')
    | .error e => (.error e, c) := by
  rw [subscriptRestart, on_get_bind, on_onlyIf, restart_eq_ite, firstCache]
  split_ifs with hi
  · cases hp : payload d with
    | error e => rfl
    | ok p =>
      simp only [bind, Except.bind]
      cases sizeAsEncoded p with
      | error e => rfl
      | ok m => rfl
  · rfl

/-- An access at the index of the cache or behind it goes on from there. -/
lemma subscript_of_le (hle : c.m_lastIndex ≤ i) :
    (subscript d i).on c = (subscriptItem d i).on c := by
  have hrestart := subscriptRestart_on (d := d) (i := i) c
  rw [restart_eq_ite, if_neg (Nat.not_lt.mpr hle)] at hrestart
  exact on_bind_of_ok hrestart

/-- An access before the index of the cache starts from the first item. -/
lemma subscript_of_lt (hf : firstCache d = .ok c₀) (hlt : i < c.m_lastIndex) :
    (subscript d i).on c = (subscriptItem d i).on c₀ := by
  have hrestart := subscriptRestart_on (d := d) (i := i) c
  rw [restart_eq_ite, if_pos hlt, hf] at hrestart
  exact on_bind_of_ok hrestart

lemma seek_succ (hd : payload d = .ok p) (n : ℕ) (c : Cache) :
    seek d (n + 1) c = if c.m_lastItem.length = 0 then .ok c
      else (sizeAsEncoded (p.drop c.m_lastEnd)).bind fun m =>
        seek d n ⟨c.m_lastIndex + 1, c.m_lastEnd + (cropped (p.drop c.m_lastEnd) 0 m).length,
          cropped (p.drop c.m_lastEnd) 0 m⟩ := by
  rw [seek, hd]
  rfl

lemma subscriptLoop_succ_on (hd : payload d = .ok p) (n : ℕ) (c : Cache) :
    (subscriptLoop d (n + 1)).on c = if c.m_lastItem.length = 0 then (.ok (), c)
      else match sizeAsEncoded (p.drop c.m_lastEnd) with
        | .error e => (.error e, spoil p c)
        | .ok m => (subscriptLoop d n).on ⟨c.m_lastIndex + 1,
            c.m_lastEnd + (cropped (p.drop c.m_lastEnd) 0 m).length,
            cropped (p.drop c.m_lastEnd) 0 m⟩ := by
  rw [subscriptLoop, on_get_bind, hd]
  split_ifs with hnil
  · rfl
  · cases hs : sizeAsEncoded (p.drop c.m_lastEnd) with
    | error e =>
      simp only [call, pure_bind, on_modify_bind, on_get_bind, hs]
      rfl
    | ok m =>
      simp only [call, pure_bind, on_modify_bind, on_get_bind, hs]

/-- A loop that returns. -/
lemma subscriptLoop_of_ok (hd : payload d = .ok p) (h : seek d n c = .ok c') :
    (subscriptLoop d n).on c = (.ok (), c') := by
  induction n generalizing c with
  | zero =>
    obtain rfl := Except.ok.inj h
    rfl
  | succ n ih =>
    rw [seek_succ hd] at h
    rw [subscriptLoop_succ_on hd]
    split_ifs at h ⊢ with hnil
    · obtain rfl := Except.ok.inj h
      rfl
    · cases hs : sizeAsEncoded (p.drop c.m_lastEnd) with
      | error e => rw [hs] at h; cases h
      | ok m => rw [hs] at h; exact ih h

/-- A loop that throws has come to an item behind which there is a header that cannot be read. -/
lemma subscriptLoop_of_error (hd : payload d = .ok p) (h : seek d n c = .error e) :
    ∃ k c', k < n ∧ seek d k c = .ok c' ∧ c'.m_lastIndex = c.m_lastIndex + k ∧ Broken p c' e ∧
      (subscriptLoop d n).on c = (.error e, spoil p c') := by
  induction n generalizing c with
  | zero => cases h
  | succ n ih =>
    rw [seek_succ hd] at h
    rw [subscriptLoop_succ_on hd]
    split_ifs at h ⊢ with hnil
    cases hs : sizeAsEncoded (p.drop c.m_lastEnd) with
    | error e' =>
      rw [hs] at h
      obtain rfl : e' = e := by simpa [Except.bind] using h
      exact ⟨0, c, by omega, rfl, rfl, ⟨fun hn => hnil (by rw [hn]; rfl), hs⟩, rfl⟩
    | ok m =>
      rw [hs] at h
      obtain ⟨k, c', hk, hseek, hindex, hbroken, hon⟩ := ih h
      refine ⟨k + 1, c', by omega, ?_, by rw [hindex]; exact Nat.add_right_comm _ 1 k, hbroken,
        hon⟩
      rw [seek_succ hd, if_neg hnil, hs]
      exact hseek

/-- The loop that goes on behind a broken item throws at once. -/
lemma seek_of_broken (hd : payload d = .ok p) (h : Broken p c e) (n : ℕ) :
    seek d (n + 1) c = .error e := by
  rw [seek_succ hd, if_neg fun hn => h.1 (length_eq_zero_iff.mp hn), h.2]
  rfl

lemma Broken.sizeAsEncoded_spoil (h : Broken p c e) :
    sizeAsEncoded (spoil p c).m_lastItem = .error e := h.2

/-- The loop throws from a spoilt cache as it does from the one that was spoilt. -/
lemma Broken.spoilt (h : Broken p c e) : Broken p (spoil p c) e := by
  refine ⟨fun hnil => ?_, h.2⟩
  have hs := h.sizeAsEncoded_spoil
  rw [hnil] at hs
  cases hs

/-! ### The items on the way -/

/-- The item of the cache is one that has been cut off, or none. -/
def Cut (c : Cache) : Prop :=
  c.m_lastItem = [] ∨ ∃ f : Kind × Bytes, f.2.length < maxLength ∧ c.m_lastItem = frame f.1 f.2

lemma cut_cropped {x : Bytes} {m j k : ℕ} (hs : sizeAsEncoded x = .ok m) :
    Cut ⟨j, k, cropped x 0 m⟩ := by
  rcases eq_or_ne (cropped x 0 m) [] with hnil | hne
  · exact .inl hnil
  · obtain ⟨f, q, hf, hy, -⟩ := exists_frame_of_cut hs rfl hne
    exact .inr ⟨f, hf, hy⟩

lemma cut_seek (hd : payload d = .ok p) (hc : Cut c) (h : seek d n c = .ok c') : Cut c' := by
  induction n generalizing c with
  | zero =>
    obtain rfl := Except.ok.inj h
    exact hc
  | succ n ih =>
    rw [seek_succ hd] at h
    split_ifs at h with hnil
    · obtain rfl := Except.ok.inj h
      exact hc
    · cases hs : sizeAsEncoded (p.drop c.m_lastEnd) with
      | error e => rw [hs] at h; cases h
      | ok m =>
        rw [hs] at h
        exact ih (cut_cropped hs) h

/-- An item that has been cut off can be measured. -/
lemma Cut.exists_size (h : Cut c) : ∃ n, sizeAsEncoded c.m_lastItem = .ok n := by
  rcases h with hnil | ⟨f, hf, hy⟩
  · exact ⟨0, by rw [hnil]; rfl⟩
  · exact ⟨_, (sizeAsEncoded_eq_ok (by rw [hy]; simp)).mpr
      ⟨f.1, f.2, [], by rw [hy, append_nil], hf, rfl⟩⟩

lemma Cut.ofBytes (h : Cut c) :
    RLP.ofBytes c.m_lastItem (ThrowOnFail ||| FailIfTooSmall) = .ok c.m_lastItem := by
  obtain ⟨n, hn⟩ := h.exists_size
  rw [ofBytes_eq_sizeAsEncoded, hn]
  rfl

/-! ### The trail of a new object -/

/-- The cache is one that the loop of a new object comes through, from the cache at the first
item on. -/
def Trail (d : Bytes) (c₀ c : Cache) : Prop :=
  firstCache d = .ok c₀ ∧ seek d c.m_lastIndex c₀ = .ok c

/-- The cache was spoilt by an access that threw: the header behind its item cannot be read. -/
def Spoilt (d : Bytes) (c : Cache) : Prop :=
  ∃ p c₀ c₁ e, payload d = .ok p ∧ Trail d c₀ c₁ ∧ Broken p c₁ e ∧ c = spoil p c₁

/-- The loop makes as many steps as it moves the index. -/
lemma seek_exact (hd : payload d = .ok p) (h : seek d n c = .ok c') :
    ∃ k ≤ n, c'.m_lastIndex = c.m_lastIndex + k ∧ seek d k c = .ok c' := by
  induction n generalizing c with
  | zero =>
    obtain rfl := Except.ok.inj h
    exact ⟨0, le_rfl, rfl, rfl⟩
  | succ n ih =>
    rw [seek_succ hd] at h
    split_ifs at h with hnil
    · obtain rfl := Except.ok.inj h
      exact ⟨0, Nat.zero_le _, rfl, rfl⟩
    · cases hs : sizeAsEncoded (p.drop c.m_lastEnd) with
      | error e => rw [hs] at h; cases h
      | ok m =>
        rw [hs] at h
        obtain ⟨k, hk, hindex, hseek⟩ := ih h
        refine ⟨k + 1, by omega, by rw [hindex]; exact Nat.add_right_comm _ 1 k, ?_⟩
        rw [seek_succ hd, if_neg hnil, hs]
        exact hseek

lemma firstCache_eq_ok (h : firstCache d = .ok c₀) :
    ∃ p m, payload d = .ok p ∧ sizeAsEncoded p = .ok m ∧ c₀ = ⟨0, m, cropped p 0 m⟩ := by
  simp only [firstCache, bind_eq_ok_iff] at h
  obtain ⟨p, hp, m, hm, p', hp', h⟩ := h
  obtain rfl := Except.ok.inj (hp.symm.trans hp')
  exact ⟨p, m, hp, hm, (Except.ok.inj h).symm⟩

lemma cut_firstCache (h : firstCache d = .ok c₀) : Cut c₀ := by
  obtain ⟨p, m, -, hm, rfl⟩ := firstCache_eq_ok h
  exact cut_cropped hm

lemma lastIndex_firstCache (h : firstCache d = .ok c₀) : c₀.m_lastIndex = 0 := by
  obtain ⟨p, m, -, -, rfl⟩ := firstCache_eq_ok h
  rfl

lemma lastIndex_firstCache_le (h : firstCache d = .ok c₀) : c₀.m_lastIndex ≤ i := by
  rw [lastIndex_firstCache h]
  exact Nat.zero_le _

namespace Trail

lemma first (h : firstCache d = .ok c₀) : Trail d c₀ c₀ :=
  ⟨h, by rw [lastIndex_firstCache h]; rfl⟩

lemma of_seek (hf : firstCache d = .ok c₀) (h : seek d n c₀ = .ok c) : Trail d c₀ c := by
  obtain ⟨p, -, hd, -⟩ := firstCache_eq_ok hf
  obtain ⟨k, -, hindex, hseek⟩ := seek_exact hd h
  refine ⟨hf, ?_⟩
  rwa [hindex, lastIndex_firstCache hf, Nat.zero_add]

/-- The loop that goes on from the trail does what the loop of a new object does. -/
lemma seek_eq (h : Trail d c₀ c) (hle : c.m_lastIndex ≤ i) :
    seek d (i - c.m_lastIndex) c = seek d i c₀ := by
  have hsplit : i = c.m_lastIndex + (i - c.m_lastIndex) := by omega
  rw [hsplit, seek_add, h.2, ← hsplit]
  rfl

lemma cut (h : Trail d c₀ c) : Cut c := by
  obtain ⟨p, -, hd, -⟩ := firstCache_eq_ok h.1
  exact cut_seek hd (cut_firstCache h.1) h.2

/-- An item that the loop of a new object comes to is returned. -/
lemma subscriptItem_of_ok (h : Trail d c₀ c) (hle : c.m_lastIndex ≤ i)
    (hi : seek d i c₀ = .ok c') : (subscriptItem d i).on c = (.ok c'.m_lastItem, c') := by
  obtain ⟨p, -, hd, -⟩ := firstCache_eq_ok h.1
  have hloop := subscriptLoop_of_ok hd ((h.seek_eq hle).trans hi)
  rw [subscriptItem, on_get_bind, on_bind_of_ok hloop, on_get_bind,
    (of_seek h.1 hi).cut.ofBytes]
  rfl

/-- A header that cannot be read on the way spoils the cache. -/
lemma subscriptItem_of_error (h : Trail d c₀ c) (hd : payload d = .ok p)
    (hle : c.m_lastIndex ≤ i) (hi : seek d i c₀ = .error e) :
    ∃ c₁, Trail d c₀ c₁ ∧ Broken p c₁ e ∧ (subscriptItem d i).on c = (.error e, spoil p c₁) := by
  obtain ⟨k, c₁, -, hseek, hindex, hbroken, hloop⟩ :=
    subscriptLoop_of_error hd ((h.seek_eq hle).trans hi)
  refine ⟨c₁, ⟨h.1, ?_⟩, hbroken, ?_⟩
  · rw [hindex, seek_add, h.2]
    exact hseek
  · rw [subscriptItem, on_get_bind, on_bind_of_error hloop]

/-- Where an access from the trail starts. -/
lemma subscript_on (h : Trail d c₀ c) (i : ℕ) :
    ∃ c₁, Trail d c₀ c₁ ∧ c₁.m_lastIndex ≤ i ∧
      (subscript d i).on c = (subscriptItem d i).on c₁ := by
  rcases Nat.lt_or_ge i c.m_lastIndex with hlt | hle
  · exact ⟨c₀, first h.1, lastIndex_firstCache_le h.1, subscript_of_lt h.1 hlt⟩
  · exact ⟨c, h, hle, subscript_of_le hle⟩

end Trail

/-! ### A new object -/

/-- A new object of which the first item cannot be read. -/
lemma subscript_of_firstCache_error (hf : firstCache d = .error e) (hi : i < 2 ^ 64 - 1) :
    (subscript d i).on {} = (.error e, {}) := by
  have hrestart := subscriptRestart_on (d := d) (i := i) {}
  rw [restart_eq_ite, if_pos hi, hf] at hrestart
  exact on_bind_of_error hrestart

/-- The largest index is the one that a new cache has already. -/
lemma subscript_max : (subscript d (2 ^ 64 - 1)).on {} = (.ok [], {}) := rfl

lemma item_max : item d (2 ^ 64 - 1) = .ok [] := rfl

/-- An item of a new object, by the loop. -/
lemma item_eq_seek (hf : firstCache d = .ok c₀) (hi : i < 2 ^ 64 - 1) :
    item d i = (seek d i c₀).map Cache.m_lastItem := by
  have hrestart : restart d {} i = .ok c₀ := by rw [restart_eq_ite, if_pos hi, hf]
  rw [item, itemCached, hrestart]
  simp only [bind, Except.bind, lastIndex_firstCache hf, Nat.sub_zero]
  cases h : seek d i c₀ with
  | error e => rfl
  | ok c =>
    simp only [(Trail.of_seek hf h).cut.ofBytes]
    rfl

lemma item_of_firstCache_error (hf : firstCache d = .error e) (hi : i < 2 ^ 64 - 1) :
    item d i = .error e := by
  have hrestart : restart d {} i = .error e := by rw [restart_eq_ite, if_pos hi, hf]
  rw [item, itemCached, hrestart]
  rfl

/-! ### An object that has thrown -/

/-- From a spoilt cache no item is read at its index or behind it. -/
lemma Broken.subscript_on (h : Broken p c e) (hd : payload d = .ok p) (hle : c.m_lastIndex ≤ i) :
    (subscript d i).on (spoil p c) = (.error e, spoil p c) := by
  rw [subscript_of_le (lastIndex_spoil p c ▸ hle), subscriptItem, on_get_bind, lastIndex_spoil]
  cases hn : i - c.m_lastIndex with
  | zero =>
    rw [subscriptLoop, pure_bind, on_get_bind, ofBytes_eq_sizeAsEncoded, h.sizeAsEncoded_spoil]
    rfl
  | succ n =>
    refine on_bind_of_error ?_
    rw [subscriptLoop_succ_on hd, if_neg fun hnil => h.spoilt.1 (length_eq_zero_iff.mp hnil),
      h.spoilt.2]
    rfl

/-! ### The caches that an object can have -/

/-- The cache is new, on the trail, or spoilt. -/
def Sound (d : Bytes) (c : Cache) : Prop := c = {} ∨ (∃ c₀, Trail d c₀ c) ∨ Spoilt d c

/-- An access to an item from the trail on leaves a sound cache. -/
lemma Trail.sound_subscriptItem (h : Trail d c₀ c) (hle : c.m_lastIndex ≤ i) :
    Sound d ((subscriptItem d i).on c).2 := by
  obtain ⟨p, -, hd, -⟩ := firstCache_eq_ok h.1
  cases hi : seek d i c₀ with
  | ok c' =>
    rw [h.subscriptItem_of_ok hle hi]
    exact .inr (.inl ⟨c₀, of_seek h.1 hi⟩)
  | error e =>
    obtain ⟨c₁, ht, hb, hon⟩ := h.subscriptItem_of_error hd hle hi
    rw [hon]
    exact .inr (.inr ⟨p, c₀, c₁, e, hd, ht, hb, rfl⟩)

lemma Sound.subscript (h : Sound d c) (hi : i < 2 ^ 64) : Sound d ((RLP.subscript d i).on c).2 := by
  rcases h with rfl | ⟨c₀, ht⟩ | ⟨p, c₀, c₁, e, hd, ht, hb, rfl⟩
  · rcases eq_or_ne i (2 ^ 64 - 1) with rfl | hne
    · rw [subscript_max]
      exact .inl rfl
    have hi : i < 2 ^ 64 - 1 := by omega
    cases hf : firstCache d with
    | error e =>
      rw [subscript_of_firstCache_error hf hi]
      exact .inl rfl
    | ok c₀ =>
      rw [subscript_of_lt hf hi]
      exact (Trail.first hf).sound_subscriptItem (lastIndex_firstCache_le hf)
  · obtain ⟨c₁, ht₁, hle, hon⟩ := ht.subscript_on i
    rw [hon]
    exact ht₁.sound_subscriptItem hle
  · rcases Nat.lt_or_ge i c₁.m_lastIndex with hlt | hle
    · rw [subscript_of_lt ht.1 (c := spoil p c₁) hlt]
      exact (Trail.first ht.1).sound_subscriptItem (lastIndex_firstCache_le ht.1)
    · rw [hb.subscript_on hd hle]
      exact .inr (.inr ⟨p, c₀, c₁, e, hd, ht, hb, rfl⟩)

/-- The cache of an object is new, on the trail, or spoilt, whatever has been accessed. -/
theorem sound_cacheOf (d : Bytes) {is : List ℕ} (h : ∀ i ∈ is, i < 2 ^ 64) :
    Sound d (cacheOf d is) := by
  induction is using List.reverseRecOn with
  | nil => exact .inl rfl
  | append_singleton is i ih =>
    rw [cacheOf, foldl_append]
    exact (ih fun j hj => h j (mem_append_left _ hj)).subscript (h i (by simp))

/-! ### Behind the last item -/

/-- A payload has a size that a header can state. -/
lemma length_lt_maxLength (h : payload d = .ok p) : p.length < maxLength := by
  have hzero : ([] : Bytes).length < maxLength := by norm_num [maxLength]
  rw [payload] at h
  obtain ⟨l, hl, h⟩ := bind_eq_ok_iff.mp h
  split_ifs at h with hlong
  · cases h
  obtain rfl := Except.ok.inj h
  rw [cropped]
  split_ifs with hfit
  · rcases eq_or_ne d [] with rfl | hne
    · simpa using hzero
    · obtain ⟨-, -, -, -, -, hmax⟩ := exists_frame_of_length hne hl hfit.2.2
      exact (length_take_le _ _).trans_lt hmax
  · exact hzero

/-- The loop goes as far as `items` counts, and fails where it fails. -/
lemma seek_far (hd : payload d = .ok p) (hne : c.m_lastItem ≠ []) {fuel : ℕ}
    (hn : (p.drop c.m_lastEnd).length < n) (hfuel : (p.drop c.m_lastEnd).length ≤ fuel) :
    (∃ m c', itemsLoop fuel (p.drop c.m_lastEnd) = .ok m ∧ seek d n c = .ok c' ∧
        c'.m_lastItem = []) ∨
      ∃ e, itemsLoop fuel (p.drop c.m_lastEnd) = .error e ∧ seek d n c = .error e := by
  induction n generalizing c fuel with
  | zero => omega
  | succ n ih =>
    rw [seek_succ hd, if_neg fun h => hne (length_eq_zero_iff.mp h)]
    set rest := p.drop c.m_lastEnd with hrest
    rcases eq_or_ne rest [] with hnil | hrne
    · rw [hnil]
      refine .inl ⟨0, ⟨c.m_lastIndex + 1, c.m_lastEnd, []⟩, ?_, ?_, rfl⟩
      · cases fuel <;> rfl
      · cases n <;> rfl
    obtain ⟨fuel, rfl⟩ : ∃ k, fuel = k + 1 :=
      ⟨fuel - 1, by have := length_pos_iff.mpr hrne; omega⟩
    rw [itemsLoop, if_neg hrne]
    cases hs : sizeAsEncoded rest with
    | error e => exact .inr ⟨e, rfl, rfl⟩
    | ok m =>
      have hpos := sizeAsEncoded_pos hrne hs
      have hle := sizeAsEncoded_le hs
      have hcrop : cropped rest 0 m = rest.take m := by simp [cropped, hle]
      have hlen : (rest.take m).length = m := by simpa using hle
      have hdrop : p.drop (c.m_lastEnd + m) = rest.drop m := by rw [hrest, drop_drop]
      have hshort : (p.drop (c.m_lastEnd + m)).length + m = rest.length := by
        rw [hdrop, length_drop]
        omega
      simp only [Except.bind, bind, hcrop, hlen]
      have hitem : rest.take m ≠ [] := length_pos_iff.mp (by omega)
      rcases @ih ⟨c.m_lastIndex + 1, c.m_lastEnd + m, rest.take m⟩ hitem fuel
        (by dsimp only; omega) (by dsimp only; omega) with ⟨k, c', hk, hseek, hnil⟩ | ⟨e, he, hseek⟩
      · refine .inl ⟨k + 1, c', ?_, hseek, hnil⟩
        rw [← hdrop, hk]
        rfl
      · refine .inr ⟨e, ?_, hseek⟩
        rw [← hdrop, he]

/-- The loop of a new object and `items` come to the same end. -/
lemma seek_firstCache (hlist : isList d = true) (hd : payload d = .ok p)
    (hf : firstCache d = .ok c₀) (hn : p.length < n) :
    (∃ m c, itemCount d = .ok m ∧ seek d n c₀ = .ok c ∧ c.m_lastItem = []) ∨
      ∃ e, itemCount d = .error e ∧ seek d n c₀ = .error e := by
  obtain ⟨p', m, hp', hm, rfl⟩ := firstCache_eq_ok hf
  obtain rfl := Except.ok.inj (hd.symm.trans hp')
  have hcount : itemCount d = itemsLoop p.length p := by
    rw [itemCount, if_pos hlist, items, if_pos hlist, hd]
    rfl
  rw [hcount]
  rcases eq_or_ne p [] with rfl | hne
  · refine .inl ⟨0, ⟨0, m, cropped [] 0 m⟩, rfl, ?_, by simp [cropped]⟩
    cases n with
    | zero => rfl
    | succ n => rw [seek_succ hd, if_pos (by simp [cropped])]
  have hpos := sizeAsEncoded_pos hne hm
  have hle := sizeAsEncoded_le hm
  have hcrop : cropped p 0 m = p.take m := by simp [cropped, hle]
  have hitem : p.take m ≠ [] := length_pos_iff.mp (by rw [length_take]; omega)
  have hrest : (p.drop m).length = p.length - m := length_drop
  obtain ⟨fuel, hfuel⟩ : ∃ k, p.length = k + 1 := ⟨p.length - 1, by omega⟩
  rw [hfuel, itemsLoop, if_neg hne, hm, hcrop]
  rcases @seek_far d p ⟨0, m, p.take m⟩ n hd hitem fuel (by dsimp only; omega)
    (by dsimp only; omega) with ⟨k, c', hk, hseek, hnil⟩ | ⟨e, he, hseek⟩
  · refine .inl ⟨k + 1, c', ?_, hseek, hnil⟩
    simp only [bind, Except.bind]
    rw [hk]
    rfl
  · refine .inr ⟨e, ?_, hseek⟩
    simp only [bind, Except.bind]
    rw [he]

/-- An item that is there is one of no more items than the payload has bytes. -/
lemma Trail.lastIndex_lt (h : Trail d c₀ c) (hlist : isList d = true) (hne : c.m_lastItem ≠ []) :
    c.m_lastIndex < 2 ^ 64 - 1 := by
  obtain ⟨p, -, hd, -⟩ := firstCache_eq_ok h.1
  have hlen := length_lt_maxLength hd
  have hmax : maxLength < 2 ^ 64 - 1 := by norm_num [maxLength]
  by_contra hge
  rcases seek_firstCache hlist hd h.1 (n := c.m_lastIndex) (by omega) with
    ⟨m, c', -, hseek, hnil⟩ | ⟨e, -, hseek⟩
  · obtain rfl := Except.ok.inj (h.2.symm.trans hseek)
    exact hne hnil
  · rw [h.2] at hseek
    cases hseek

/-- Behind a header that cannot be read, nothing is counted. -/
lemma Trail.itemCount_of_broken (h : Trail d c₀ c) (hlist : isList d = true)
    (hd : payload d = .ok p) (hb : Broken p c e) : itemCount d = .error e := by
  have hseek : seek d (c.m_lastIndex + (p.length + 1)) c₀ = .error e := by
    rw [seek_add, h.2]
    exact seek_of_broken hd hb _
  rcases seek_firstCache hlist hd h.1 (n := c.m_lastIndex + (p.length + 1)) (by omega) with
    ⟨m, c', -, hok, -⟩ | ⟨e', hcount, herr⟩
  · rw [hseek] at hok
    cases hok
  · obtain rfl : e = e' := by simpa using hseek.symm.trans herr
    exact hcount

/-! ### When indexing has no memory -/

/-- What the cache must be for an access to have the outcome that it has on a new object: the item
at which it stands can be measured, and the largest index is used with a new cache only, unless the
items can be counted. -/
def Faithful (d : Bytes) (c : Cache) (i : ℕ) : Prop :=
  (i = c.m_lastIndex → ∃ n, sizeAsEncoded c.m_lastItem = .ok n) ∧
    (i = 2 ^ 64 - 1 → c = {} ∨ ∃ n, itemCount d = .ok n)

/-- An access to a new object. -/
lemma subscript_new (d : Bytes) (hi : i < 2 ^ 64) : ((subscript d i).on {}).1 = item d i := by
  rcases eq_or_ne i (2 ^ 64 - 1) with rfl | hne
  · rw [subscript_max, item_max]
  have hi : i < 2 ^ 64 - 1 := by omega
  cases hf : firstCache d with
  | error e => rw [subscript_of_firstCache_error hf hi, item_of_firstCache_error hf hi]
  | ok c₀ =>
    rw [subscript_of_lt hf hi, item_eq_seek hf hi]
    have ht := Trail.first hf
    have hle : c₀.m_lastIndex ≤ i := lastIndex_firstCache_le hf
    obtain ⟨p, -, hd, -⟩ := firstCache_eq_ok hf
    cases hs : seek d i c₀ with
    | ok c => rw [ht.subscriptItem_of_ok hle hs]; rfl
    | error e =>
      obtain ⟨c₁, -, -, hon⟩ := ht.subscriptItem_of_error hd hle hs
      rw [hon]
      rfl

/-- An access from the trail finds what the loop of a new object finds. -/
lemma Trail.subscript_fst (h : Trail d c₀ c) (i : ℕ) :
    ((subscript d i).on c).1 = (seek d i c₀).map Cache.m_lastItem := by
  obtain ⟨c₁, ht, hle, hon⟩ := h.subscript_on i
  obtain ⟨p, -, hd, -⟩ := firstCache_eq_ok h.1
  rw [hon]
  cases hs : seek d i c₀ with
  | ok c => rw [ht.subscriptItem_of_ok hle hs]; rfl
  | error e =>
    obtain ⟨c₂, -, -, hon⟩ := ht.subscriptItem_of_error hd hle hs
    rw [hon]
    rfl

/-- An access from the trail has the outcome that it has on a new object, except perhaps at the
largest index. -/
lemma Trail.subscript_iff (h : Trail d c₀ c) (hlist : isList d = true) (hi : i < 2 ^ 64) :
    ((subscript d i).on c).1 = item d i ↔ Faithful d c i := by
  obtain ⟨p, -, hd, -⟩ := firstCache_eq_ok h.1
  have hmeasured : i = c.m_lastIndex → ∃ n, sizeAsEncoded c.m_lastItem = .ok n :=
    fun _ => h.cut.exists_size
  rcases eq_or_ne i (2 ^ 64 - 1) with rfl | hne
  · have hlen := length_lt_maxLength hd
    have hmax : maxLength < 2 ^ 64 - 1 := by norm_num [maxLength]
    rw [Faithful, and_iff_right hmeasured, item_max, forall_prop_of_true rfl]
    by_cases hc : c = {}
    · rw [hc, subscript_max]
      exact iff_of_true rfl (.inl rfl)
    rw [or_iff_right hc, h.subscript_fst]
    rcases seek_firstCache hlist hd h.1 (n := 2 ^ 64 - 1) (by omega) with
      ⟨m, c', hcount, hseek, hnil⟩ | ⟨e, hcount, hseek⟩
    · rw [hseek, hcount]
      exact iff_of_true (congrArg Except.ok hnil) ⟨m, rfl⟩
    · rw [hseek, hcount]
      exact iff_of_false (by rintro ⟨⟩) (by rintro ⟨n, ⟨⟩⟩)
  · rw [h.subscript_fst, item_eq_seek h.1 (by omega)]
    exact iff_of_true rfl ⟨hmeasured, fun h => absurd h hne⟩

/-- An access from a spoilt cache has another outcome than on a new object at the index of the
cache, and at the largest index. -/
lemma Trail.subscript_spoil_iff (h : Trail d c₀ c) (hlist : isList d = true)
    (hd : payload d = .ok p) (hb : Broken p c e) (hi : i < 2 ^ 64) :
    ((subscript d i).on (spoil p c)).1 = item d i ↔ Faithful d (spoil p c) i := by
  have hlt := h.lastIndex_lt hlist hb.1
  have hcount : ¬ ∃ n, itemCount d = .ok n := by
    rintro ⟨n, hn⟩
    rw [h.itemCount_of_broken hlist hd hb] at hn
    cases hn
  have hnew : spoil p c ≠ {} := fun heq => hlt.ne (congrArg Cache.m_lastIndex heq)
  rcases Nat.lt_or_ge i c.m_lastIndex with hlow | hle
  · -- a smaller index starts anew
    have hfirst := subscript_of_lt h.1 (c := spoil p c) hlow
    have hsame : ((subscript d i).on (spoil p c)).1 = item d i := by
      obtain ⟨c₁, hc₁⟩ : ∃ c₁, seek d i c₀ = .ok c₁ := by
        have hseek := h.2
        rw [show c.m_lastIndex = i + (c.m_lastIndex - i) by omega, seek_add] at hseek
        cases hs : seek d i c₀ with
        | ok c₁ => exact ⟨c₁, rfl⟩
        | error e => rw [hs] at hseek; cases hseek
      rw [hfirst, (first h.1).subscriptItem_of_ok
        (lastIndex_firstCache_le h.1) hc₁,
        item_eq_seek h.1 (by omega), hc₁]
      rfl
    exact iff_of_true hsame ⟨fun heq => absurd heq hlow.ne, fun heq => absurd heq (by omega)⟩
  rw [hb.subscript_on hd hle]
  rcases hle.eq_or_lt with rfl | hhigh
  · -- the rest is taken for the item
    refine iff_of_false ?_ fun hf => ?_
    · rw [item_eq_seek h.1 hlt, h.2]
      rintro ⟨⟩
    · obtain ⟨n, hn⟩ := hf.1 rfl
      rw [hb.sizeAsEncoded_spoil] at hn
      cases hn
  -- a larger index runs into the same header
  have hseek : seek d i c₀ = .error e := by
    rw [← h.seek_eq hle, show i - c.m_lastIndex = (i - c.m_lastIndex - 1) + 1 by omega]
    exact seek_of_broken hd hb _
  rcases eq_or_ne i (2 ^ 64 - 1) with rfl | hne
  · refine iff_of_false (by rw [item_max]; rintro ⟨⟩) fun hf => ?_
    exact (hf.2 rfl).elim hnew hcount
  · rw [item_eq_seek h.1 (by omega), hseek]
    exact iff_of_true rfl ⟨fun heq => absurd heq.symm hhigh.ne, fun heq => absurd heq hne⟩

lemma Sound.subscript_iff (h : Sound d c) (hlist : isList d = true) (hi : i < 2 ^ 64) :
    ((RLP.subscript d i).on c).1 = item d i ↔ Faithful d c i := by
  rcases h with rfl | ⟨c₀, ht⟩ | ⟨p, c₀, c₁, e, hd, ht, hb, rfl⟩
  · exact iff_of_true (subscript_new d hi) ⟨fun _ => ⟨0, rfl⟩, fun _ => .inl rfl⟩
  · exact ht.subscript_iff hlist hi
  · exact ht.subscript_spoil_iff hlist hd hb hi

/-- An object whose first item cannot be read keeps a new cache. -/
lemma cacheOf_of_firstCache_error (hf : firstCache d = .error e) {is : List ℕ}
    (his : ∀ i ∈ is, i < 2 ^ 64) : cacheOf d is = {} := by
  induction is using List.reverseRecOn with
  | nil => rfl
  | append_singleton is i ih =>
    have hi : i < 2 ^ 64 := his i (by simp)
    rw [cacheOf, foldl_append]
    change ((subscript d i).on (cacheOf d is)).2 = {}
    rw [ih fun j hj => his j (mem_append_left _ hj)]
    rcases eq_or_ne i (2 ^ 64 - 1) with rfl | hne
    · rw [subscript_max]
    · rw [subscript_of_firstCache_error hf (by omega)]

/-- Accesses that all have the outcome that they have on a new object. -/
lemma outcomes_eq {pre is : List ℕ} (h : ∀ a i post, is = a ++ i :: post →
      ((subscript d i).on (cacheOf d (pre ++ a))).1 = item d i) :
    outcomes d is (cacheOf d pre) = is.map (item d) := by
  induction is generalizing pre with
  | nil => rfl
  | cons i is ih =>
    rw [outcomes, map_cons]
    have hi := h [] i is rfl
    rw [append_nil] at hi
    have hnext : ((subscript d i).on (cacheOf d pre)).2 = cacheOf d (pre ++ [i]) := by
      rw [cacheOf, cacheOf, foldl_append]
      rfl
    rw [hi, hnext, ih fun a j post hsplit => ?_]
    rw [append_assoc]
    exact h (i :: a) j post (by rw [hsplit]; rfl)

/-- A list of which the first item can be read and a later one cannot: two accesses show it. -/
lemma exists_outcomes_ne (hlist : isList d = true) (hcount : itemCount d = .error e) {x : Bytes}
    (hx : item d 0 = .ok x) :
    ∃ i j, i < 2 ^ 64 ∧ j < 2 ^ 64 ∧ outcomes d [i, j] {} ≠ [i, j].map (item d) := by
  cases hf : firstCache d with
  | error e' =>
    rw [item_of_firstCache_error hf (by norm_num)] at hx
    cases hx
  | ok c₀ =>
    obtain ⟨p, -, hd, -⟩ := firstCache_eq_ok hf
    have hlen := length_lt_maxLength hd
    have hmax : maxLength < 2 ^ 64 - 2 := by norm_num [maxLength]
    have ht := Trail.first hf
    obtain ⟨e', hseek⟩ : ∃ e', seek d (p.length + 1) c₀ = .error e' := by
      rcases seek_firstCache hlist hd hf (n := p.length + 1) (by omega) with
        ⟨m, c, hm, -⟩ | ⟨e', -, hs⟩
      · rw [hcount] at hm
        cases hm
      · exact ⟨e', hs⟩
    obtain ⟨c₁, ht₁, hb, hon⟩ :=
      ht.subscriptItem_of_error hd (lastIndex_firstCache_le hf) hseek
    have hfirst : (subscript d (p.length + 1)).on {} = (.error e', spoil p c₁) := by
      rw [subscript_of_lt hf (show p.length + 1 < 2 ^ 64 - 1 by omega), hon]
    have hlt := ht₁.lastIndex_lt hlist hb.1
    refine ⟨p.length + 1, c₁.m_lastIndex, by omega, by omega, fun heq => ?_⟩
    have hsecond : ((subscript d c₁.m_lastIndex).on (spoil p c₁)).1 = item d c₁.m_lastIndex := by
      simp only [outcomes, hfirst, map_cons, List.cons.injEq] at heq
      exact heq.2.1
    obtain ⟨n, hn⟩ := ((ht₁.subscript_spoil_iff hlist hd hb (by omega)).mp hsecond).1 rfl
    rw [hb.sizeAsEncoded_spoil] at hn
    cases hn

/-- **When indexing has no memory.** An access to an object that has been indexed before has the
outcome that it has on a new object exactly when the item of the cache can be measured or another
one is asked for, and the largest index is not used with a cache that stands at an item in a list
whose items cannot be counted. So all accesses to a list, in any order, have the outcomes that they
have on a new object exactly when its items can be counted, or already the first one cannot be
read. -/
theorem subscript_eq_item_iff (hlist : isList d = true) :
    (∀ is i, (∀ j ∈ is, j < 2 ^ 64) → i < 2 ^ 64 →
      (((subscript d i).on (cacheOf d is)).1 = item d i ↔ Faithful d (cacheOf d is) i)) ∧
    ((∀ is, (∀ i ∈ is, i < 2 ^ 64) → outcomes d is {} = is.map (item d)) ↔
      (∃ n, itemCount d = .ok n) ∨ ∃ e, item d 0 = .error e) := by
  have hstep : ∀ is i, (∀ j ∈ is, j < 2 ^ 64) → i < 2 ^ 64 →
      (((subscript d i).on (cacheOf d is)).1 = item d i ↔ Faithful d (cacheOf d is) i) :=
    fun is i his hi => (sound_cacheOf d his).subscript_iff hlist hi
  refine ⟨hstep, fun hall => ?_, fun hor is his => ?_⟩
  · cases hcount : itemCount d with
    | ok n => exact .inl ⟨n, rfl⟩
    | error e =>
      cases hx : item d 0 with
      | error e' => exact .inr ⟨e', rfl⟩
      | ok x =>
        obtain ⟨i, j, hi, hj, hne⟩ := exists_outcomes_ne hlist hcount hx
        exact absurd (hall [i, j] (by simpa using ⟨hi, hj⟩)) hne
  · refine @outcomes_eq _ [] _ fun a i post hsplit => ?_
    have hi : i < 2 ^ 64 := his i (by simp [hsplit])
    have ha : ∀ j ∈ a, j < 2 ^ 64 := fun j hj => his j (by simp [hsplit, hj])
    rw [nil_append, hstep a i ha hi]
    rcases hor with ⟨n, hcount⟩ | ⟨e, he⟩
    · refine ⟨fun _ => ?_, fun _ => .inr ⟨n, hcount⟩⟩
      rcases sound_cacheOf d ha with hnew | ⟨c₀, ht⟩ | ⟨p, c₀, c₁, e, hd, ht, hb, -⟩
      · exact ⟨0, by rw [hnew]; rfl⟩
      · exact ht.cut.exists_size
      · rw [ht.itemCount_of_broken hlist hd hb] at hcount
        cases hcount
    · have hnew : cacheOf d a = {} := by
        cases hf : firstCache d with
        | error e' => exact cacheOf_of_firstCache_error hf ha
        | ok c₀ =>
          rw [item_eq_seek hf (by norm_num)] at he
          cases he
      rw [hnew]
      exact ⟨fun _ => ⟨0, rfl⟩, fun _ => .inl rfl⟩

/-- The list of the byte `1` and a header that cannot be read. -/
def brokenList : Bytes := [0xc2, 0x01, 0xb8]

/-- Behind the access that throws, the first item is not found any more. -/
theorem outcomes_brokenList :
    ofBytes brokenList VeryStrict = .ok brokenList ∧ isList brokenList = true ∧
      item brokenList 0 = .ok [0x01] ∧
      outcomes brokenList [0, 1, 0] {} = [.ok [0x01], .error .badRLP, .error .badRLP] := by
  decide +kernel

/-- All accesses to a list of two items have the outcomes that they have on a new object. -/
theorem subscript_eq_item_iff_pair :
    isList [0xc2, 0x01, 0x02] = true ∧
      ∀ is : List ℕ, (∀ i ∈ is, i < 2 ^ 64) →
        outcomes [0xc2, 0x01, 0x02] is {} = is.map (item [0xc2, 0x01, 0x02]) :=
  ⟨by decide, ((subscript_eq_item_iff (by decide)).2).mpr (.inl ⟨2, by decide +kernel⟩)⟩

end Tos.RLP
