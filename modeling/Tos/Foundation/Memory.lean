import Mathlib.Data.List.Basic
import Mathlib.Data.List.TakeDrop
import Mathlib.Tactic.Common

/-!
# Ranges of a byte vector

Reading and overwriting ranges of a vector, and reading it as if it went on with a filler for ever.

## Main results

* `Memory.getD_overwrite`: what a vector with a range replaced has at each position.
* `Memory.getD_slice`: what a range has at each of its positions.
-/

namespace Memory

open List

variable {α : Type}

/-- The range of length `n` from `off` on. -/
def slice (b : List α) (off n : ℕ) : List α := (b.drop off).take n

/-- The vector with the range from `off` on replaced by `src`. -/
def overwrite (b : List α) (off : ℕ) (src : List α) : List α :=
  b.take off ++ src ++ b.drop (off + src.length)

variable {b : List α} {off : ℕ}

lemma length_slice {off n : ℕ} (h : off + n ≤ b.length) : (slice b off n).length = n := by
  rw [slice, length_take, length_drop]
  omega

lemma length_overwrite {src : List α} (h : off + src.length ≤ b.length) :
    (overwrite b off src).length = b.length := by
  simp only [overwrite, length_append, length_take, length_drop]
  omega

lemma getD_slice (b : List α) (off n i : ℕ) (d : α) :
    (slice b off n).getD i d = if i < n then b.getD (off + i) d else d := by
  simp only [slice, getD_eq_getElem?_getD, getElem?_take, getElem?_drop]
  split_ifs <;> rfl

/-- What a vector with a range replaced has at each position. -/
lemma getD_overwrite {src : List α} (h : off + src.length ≤ b.length) (i : ℕ) (d : α) :
    (overwrite b off src).getD i d =
      if off ≤ i ∧ i < off + src.length then src.getD (i - off) d else b.getD i d := by
  have htake : (b.take off).length = off := length_take_of_le (by omega)
  simp only [overwrite, getD_eq_getElem?_getD]
  by_cases hlow : i < off
  · rw [if_neg (by omega), append_assoc, getElem?_append_left (by omega),
      getElem?_take_of_lt hlow]
  · by_cases hin : i < off + src.length
    · rw [if_pos ⟨by omega, hin⟩, getElem?_append_left (by simp only [length_append]; omega),
        getElem?_append_right (by omega), htake]
    · rw [if_neg (by omega), getElem?_append_right (by simp only [length_append]; omega),
        getElem?_drop]
      congr 2
      simp only [length_append]
      omega

/-- Vectors of one length agree if they agree at each position. -/
lemma ext_getD {b c : List α} (d : α) (hlen : b.length = c.length)
    (h : ∀ i < b.length, b.getD i d = c.getD i d) : b = c := by
  refine ext_getElem hlen fun i hb hc => ?_
  have := h i hb
  simpa [getD_eq_getElem?_getD, hb, hc] using this

/-- Filling up a vector changes nothing that is read with the filler. -/
lemma getD_append_replicate (b : List α) (n i : ℕ) (d : α) :
    (b ++ List.replicate n d).getD i d = b.getD i d := by
  simp only [getD_eq_getElem?_getD]
  by_cases h : i < b.length
  · rw [getElem?_append_left h]
  · rw [getElem?_append_right (by omega), getElem?_eq_none (by omega : b.length ≤ i),
      getElem?_replicate]
    split_ifs <;> rfl

/-! ### Ranges beyond the end -/

/-- The range of length `n` from `off` on, with a filler for what is beyond the end. -/
def padded (d : α) (b : List α) (off n : ℕ) : List α :=
  (List.range n).map fun i => b.getD (off + i) d

@[simp] lemma length_padded (d : α) (b : List α) (off n : ℕ) : (padded d b off n).length = n := by
  simp [padded]

lemma getD_padded (d : α) (b : List α) (off n i : ℕ) :
    (padded d b off n).getD i d = if i < n then b.getD (off + i) d else d := by
  rw [padded, getD_eq_getElem?_getD, getElem?_map]
  by_cases h : i < n
  · rw [getElem?_range h, if_pos h]
    rfl
  · rw [getElem?_eq_none (by simpa using h), if_neg h]
    rfl

/-- A range within the vector, filled up, is the range that goes on beyond the end. -/
lemma slice_append_replicate {d : α} {off k n : ℕ} (hk : off + k ≤ b.length ∨ k = 0)
    (hkn : k ≤ n) (hrest : k = n ∨ b.length ≤ off + k) :
    slice b off k ++ List.replicate (n - k) d = padded d b off n := by
  have hlen : (slice b off k).length = k := by
    rcases hk with hk | rfl
    · exact length_slice hk
    · simp [slice]
  refine ext_getD d (by simp [hlen]; omega) fun i _ => ?_
  rw [getD_append_replicate, getD_slice, getD_padded]
  by_cases hi : i < k
  · rw [if_pos hi, if_pos (by omega)]
  · rw [if_neg hi]
    split_ifs with hin
    · rw [getD_eq_getElem?_getD, getElem?_eq_none (by omega)]
      rfl
    · rfl

lemma slice_eq_padded (d : α) {off n : ℕ} (h : off + n ≤ b.length ∨ n = 0) :
    slice b off n = padded d b off n := by
  simpa using slice_append_replicate h (Nat.le_refl n) (.inl rfl)

@[simp] lemma overwrite_nil (b : List α) (off : ℕ) : overwrite b off [] = b := by
  simp [overwrite]

/-- Two ranges that follow each other are replaced as one. -/
lemma overwrite_overwrite {src src' : List α} (h : off + src.length ≤ b.length) :
    overwrite (overwrite b off src) (off + src.length) src' = overwrite b off (src ++ src') := by
  have hfront : (b.take off ++ src).length = off + src.length := by
    rw [length_append, length_take]
    omega
  unfold overwrite
  rw [take_left' hfront, drop_append, drop_drop, hfront,
    drop_eq_nil_of_le (by omega), nil_append, length_append, ← append_assoc]
  congr 2
  omega

end Memory
