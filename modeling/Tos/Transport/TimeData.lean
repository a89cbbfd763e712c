import Tos.Foundation.Sorted
import Tos.Transport.NetAddress
import Mathlib.Data.Finset.Insert

/-!
# The adjusted time

The functions of `transport/timedata.cpp`. Every peer says how far its clock is from ours, and
`AddTimeData` takes the median of these samples as the offset of the network, provided that it is
not further away than `maxtimeadjustment`.

The comparison is made on `abs64`, and the absolute value of the smallest 64-bit integer is that
integer itself, which is below every limit. If the median is that integer it becomes the offset.

## Main results

* `CMedianFilter.median_of_majority`: where more than half of the values are, there is
  the median.
* `TimeData.getTimeOffset_bounded`: the limit and the robustness of the offset.
* `TimeData.getTimeOffset_escapes`: four samples that take the offset out of its limits.

## Implementation notes

`-n` on `int64_t` is the operation on 64 bits, which gives back the smallest integer. The set of
known addresses is ordered by their bytes, so it is a set of these. What is logged is left out.
-/

namespace Tos.Net

open List hiding Vector

/-! ### The median filter -/

/-- The class `CMedianFilter`. -/
structure CMedianFilter (T : Type) where
  vValues : List T
  vSorted : List T
  nSize : ℕ

namespace CMedianFilter

variable {T : Type}

/-- The constructor. -/
def new (size : ℕ) (initial_value : T) : CMedianFilter T :=
  { vValues := [initial_value], vSorted := [initial_value], nSize := size }

/-- `CMedianFilter::input`. -/
def input [LE T] [DecidableLE T] (f : CMedianFilter T) (value : T) : CMedianFilter T :=
  let kept := if f.vValues.length = f.nSize then f.vValues.drop 1 else f.vValues
  { f with vValues := kept ++ [value], vSorted := (kept ++ [value]).insertionSort (· ≤ ·) }

/-- `CMedianFilter::median`; there is no value if the assertion fails. -/
def median [Add T] [Div T] [OfNat T 2] (f : CMedianFilter T) : Option T :=
  let vSortedSize := f.vSorted.length
  if vSortedSize % 2 = 1 then f.vSorted[vSortedSize / 2]?
  else do return ((← f.vSorted[vSortedSize / 2 - 1]?) + (← f.vSorted[vSortedSize / 2]?)) / 2

/-- `CMedianFilter::size`. -/
def size (f : CMedianFilter T) : ℕ := f.vValues.length

/-- The sorted copy is one of the values. -/
structure IsSorted [LE T] (f : CMedianFilter T) : Prop where
  perm : f.vSorted.Perm f.vValues
  pairwise : f.vSorted.Pairwise (· ≤ ·)

section Sorted

variable [LE T] [DecidableLE T]

omit [DecidableLE T] in
lemma isSorted_new (n : ℕ) (x : T) : (new n x).IsSorted := ⟨.refl _, pairwise_singleton _ _⟩

lemma isSorted_input [Std.Total (α := T) (· ≤ ·)] [IsTrans T (· ≤ ·)] (f : CMedianFilter T)
    (x : T) : (f.input x).IsSorted :=
  ⟨perm_insertionSort _ _, pairwise_insertionSort _ _⟩

variable {f : CMedianFilter T} {x : T}

/-- The values after a sample are values from before and the sample. -/
lemma forall_mem_input {P : T → Prop} (hf : ∀ y ∈ f.vValues, P y)
    (hx : P x) : ∀ y ∈ (f.input x).vValues, P y := by
  intro y hy
  obtain hy | hy := mem_append.mp hy
  · split_ifs at hy
    · exact hf y (mem_of_mem_drop hy)
    · exact hf y hy
  · exact mem_singleton.mp hy ▸ hx

variable [Add T] [Div T] [OfNat T 2]

omit [DecidableLE T] in
/-- The median of an odd number of values is the element in the middle. -/
lemma median_of_odd (hf : f.IsSorted) {k : ℕ} (hk : f.size = 2 * k + 1) :
    ∃ h : k < f.vSorted.length, f.median = some f.vSorted[k] := by
  have hlen : f.vSorted.length = 2 * k + 1 := hf.perm.length_eq.trans hk
  refine ⟨by omega, ?_⟩
  rw [median, if_pos (by omega), show f.vSorted.length / 2 = k by omega]
  exact List.getElem?_eq_getElem _

omit [DecidableLE T] in
/-- A part of the order between two bounds that holds more than half of an odd number of values
holds their median. -/
theorem median_of_majority (hf : f.IsSorted) (hodd : f.size % 2 = 1)
    {P Q : T → Prop} [DecidablePred P] [DecidablePred Q] (hP : ∀ a b, a ≤ b → P a → P b)
    (hQ : ∀ a b, a ≤ b → Q b → Q a) (hx : f.median = some x)
    (hcount : f.size < 2 * f.vValues.countP (fun y => decide (P y ∧ Q y))) : P x ∧ Q x := by
  obtain ⟨k, hk⟩ : ∃ k, f.size = 2 * k + 1 := ⟨f.size / 2, by omega⟩
  obtain ⟨h, hmid⟩ := median_of_odd hf hk
  obtain rfl := Option.some.inj (hmid.symm.trans hx)
  have hlen : f.vSorted.length = 2 * k + 1 := hf.perm.length_eq.trans hk
  have hmono {R : T → Prop} [DecidablePred R] (hR : ∀ y, P y ∧ Q y → R y) :
      f.vSorted.length < 2 * f.vSorted.countP (fun y => decide (R y)) := by
    have hle := countP_mono_left (l := f.vSorted)
      (p := fun y => decide (P y ∧ Q y)) (q := fun y => decide (R y))
      fun y _ hy => decide_eq_true (hR y (of_decide_eq_true hy))
    rw [hf.perm.countP_eq] at hle
    omega
  exact ⟨Sorted.middle_of_upward hf.pairwise hlen hP (hmono fun _ hy => hy.1) h,
    Sorted.middle_of_downward hf.pairwise hlen hQ (hmono fun _ hy => hy.2) h⟩

omit [DecidableLE T] in
/-- The median of an odd number of values is one of them. -/
lemma median_mem (hf : f.IsSorted) (hodd : f.size % 2 = 1)
    (hx : f.median = some x) : x ∈ f.vValues := by
  obtain ⟨h, hmid⟩ := median_of_odd hf (show f.size = 2 * (f.size / 2) + 1 by omega)
  obtain rfl := Option.some.inj (hmid.symm.trans hx)
  exact hf.perm.mem_iff.mp (getElem_mem h)

end Sorted

end CMedianFilter

/-! ### Samples -/

def BITCOIN_TIMEDATA_MAX_SAMPLES : ℕ := 200

def abs64 (n : Int64) : Int64 := if 0 ≤ n then n else -n

/-- The static variables of `timedata.cpp`, and the message boxes that were shown. -/
structure TimeData where
  nTimeOffset : Int64 := 0
  setKnown : Finset (Vector UInt8 16) := ∅
  vTimeOffsets : CMedianFilter Int64 := .new BITCOIN_TIMEDATA_MAX_SAMPLES 0
  fDone : Bool := false
  messageBoxes : List String := []

namespace TimeData

/-- `GetTimeOffset`. -/
def getTimeOffset (s : TimeData) : Int64 := s.nTimeOffset

/-- `GetAdjustedTime`. -/
def getAdjustedTime (s : TimeData) (now : Int64) : Int64 := now + s.getTimeOffset

def strMessage : String :=
  "Please check that your computer's date and time are correct! If your clock is wrong, " ++
    "%s will not work properly."

/-- The warning of `AddTimeData`: nobody has a time that is close to ours and not ours. -/
def warn (vSorted : List Int64) (s : TimeData) : TimeData :=
  if s.fDone then s
  else if vSorted.any fun nOffset => nOffset ≠ 0 && abs64 nOffset < 5 * 60 then s
  else { s with fDone := true, messageBoxes := s.messageBoxes ++ [strMessage] }

/-- The last part of `AddTimeData`: the offset is set from an odd number of samples. -/
def adjust (maxtimeadjustment : Int64) (s : TimeData) : TimeData :=
  if 5 ≤ s.vTimeOffsets.size ∧ s.vTimeOffsets.size % 2 = 1 then
    match s.vTimeOffsets.median with
    | none => s
    | some nMedian =>
      if abs64 nMedian ≤ max 0 maxtimeadjustment then { s with nTimeOffset := nMedian }
      else warn s.vTimeOffsets.vSorted { s with nTimeOffset := 0 }
  else s

/-- `AddTimeData`. -/
def addTimeData (maxtimeadjustment : Int64) (s : TimeData) (ip : CNetAddr)
    (nOffsetSample : Int64) : TimeData :=
  if s.setKnown.card = BITCOIN_TIMEDATA_MAX_SAMPLES then s
  else if ip.ip ∈ s.setKnown then s
  else
    adjust maxtimeadjustment
      { s with
        setKnown := insert ip.ip s.setKnown
        vTimeOffsets := s.vTimeOffsets.input nOffsetSample }

/-- The state after some calls. -/
def run (maxtimeadjustment : Int64) (calls : List (CNetAddr × Int64)) : TimeData :=
  calls.foldl (fun s c => s.addTimeData maxtimeadjustment c.1 c.2) {}

/-! ### The limits of the offset -/

instance : Std.Total (α := Int64) (· ≤ ·) := ⟨Int64.le_total⟩

instance : IsTrans Int64 (· ≤ ·) := ⟨fun _ _ _ => Int64.le_trans⟩

/-- The absolute value is right but for the smallest integer. -/
lemma toInt_abs64 {n : Int64} (hn : n ≠ Int64.minValue) : (abs64 n).toInt = |n.toInt| := by
  have hne : n.toInt ≠ -2 ^ 63 := fun h => hn (Int64.toInt_inj.mp h)
  have hle := n.le_toInt
  have hlt := n.toInt_lt
  rw [abs64]
  split_ifs with h0
  · rw [Int64.le_iff_toInt_le, Int64.toInt_zero] at h0
    exact (abs_of_nonneg h0).symm
  · rw [Int64.le_iff_toInt_le, Int64.toInt_zero, not_le] at h0
    rw [Int64.toInt_neg, Int.bmod_eq_of_le (by omega) (by omega), abs_of_neg h0]

/-- What the last part does: nothing, or the offset becomes the median or zero. -/
lemma nTimeOffset_adjust (m : Int64) (s : TimeData) :
    (s.adjust m).nTimeOffset = s.nTimeOffset ∨ (s.adjust m).nTimeOffset = 0 ∨
      ∃ x, s.vTimeOffsets.median = some x ∧ s.vTimeOffsets.size % 2 = 1 ∧
        abs64 x ≤ max 0 m ∧ (s.adjust m).nTimeOffset = x := by
  rw [adjust]
  split_ifs with hsize
  · cases hx : s.vTimeOffsets.median with
    | none => exact .inl rfl
    | some x =>
      by_cases hle : abs64 x ≤ max 0 m
      · simp only [if_pos hle]
        exact .inr (.inr ⟨x, rfl, hsize.2, hle, rfl⟩)
      · simp only [if_neg hle, warn]
        right; left
        split_ifs <;> rfl
  · exact .inl rfl

lemma vTimeOffsets_adjust (m : Int64) (s : TimeData) :
    (s.adjust m).vTimeOffsets = s.vTimeOffsets := by
  rw [adjust]
  split_ifs
  · split
    · rfl
    · split_ifs
      · rfl
      · rw [warn]
        split_ifs <;> rfl
  · rfl

/-- A sample is ignored, or it is put in and the offset is adjusted. -/
lemma addTimeData_cases (m : Int64) (s : TimeData) (ip : CNetAddr) (x : Int64) :
    s.addTimeData m ip x = s ∨ ∃ s' : TimeData, s'.nTimeOffset = s.nTimeOffset ∧
      s'.vTimeOffsets = s.vTimeOffsets.input x ∧ s.addTimeData m ip x = s'.adjust m := by
  rw [addTimeData]
  split_ifs
  · exact .inl rfl
  · exact .inl rfl
  · exact .inr ⟨{ s with
      setKnown := insert ip.ip s.setKnown, vTimeOffsets := s.vTimeOffsets.input x }, rfl, rfl, rfl⟩

lemma run_concat (m : Int64) (calls : List (CNetAddr × Int64)) (c : CNetAddr × Int64) :
    run m (calls ++ [c]) = (run m calls).addTimeData m c.1 c.2 := by
  rw [run, foldl_append]
  rfl

/-- The filter is sorted in every state. -/
lemma isSorted_run (m : Int64) (calls : List (CNetAddr × Int64)) :
    (run m calls).vTimeOffsets.IsSorted := by
  induction calls using List.reverseRecOn with
  | nil => exact CMedianFilter.isSorted_new _ _
  | append_singleton calls c ih =>
    rw [run_concat]
    obtain h | ⟨s', -, hs', h⟩ := addTimeData_cases m (run m calls) c.1 c.2
    · rwa [h]
    · rw [h, vTimeOffsets_adjust, hs']
      exact CMedianFilter.isSorted_input _ _

/-- A property of zero and of every sample is one of every value that is kept. -/
lemma forall_mem_vValues {P : Int64 → Prop} (h0 : P 0) (m : Int64)
    (calls : List (CNetAddr × Int64)) (h : ∀ c ∈ calls, P c.2) :
    ∀ x ∈ (run m calls).vTimeOffsets.vValues, P x := by
  induction calls using List.reverseRecOn with
  | nil => simpa [run, CMedianFilter.new] using h0
  | append_singleton calls c ih =>
    have ih := ih fun c' hc' => h c' (mem_append_left _ hc')
    rw [run_concat]
    obtain hs | ⟨s', -, hs', hs⟩ := addTimeData_cases m (run m calls) c.1 c.2
    · rwa [hs]
    · rw [hs, vTimeOffsets_adjust, hs']
      exact CMedianFilter.forall_mem_input ih (h c (by simp))

/-- The offset after one more call: as before, zero, or a median that passed the comparison. -/
lemma getTimeOffset_concat (m : Int64) (calls : List (CNetAddr × Int64)) (c : CNetAddr × Int64) :
    (run m (calls ++ [c])).getTimeOffset = (run m calls).getTimeOffset ∨
      (run m (calls ++ [c])).getTimeOffset = 0 ∨
      ∃ x, (run m (calls ++ [c])).vTimeOffsets.median = some x ∧
        (run m (calls ++ [c])).vTimeOffsets.size % 2 = 1 ∧ abs64 x ≤ max 0 m ∧
        (run m (calls ++ [c])).getTimeOffset = x := by
  simp only [run_concat, getTimeOffset]
  obtain h | ⟨s', hs, -, h⟩ := addTimeData_cases m (run m calls) c.1 c.2
  · exact .inl (by rw [h])
  · rw [h, ← hs, vTimeOffsets_adjust]
    exact nTimeOffset_adjust m s'

/-- An interval around zero that holds some value holds zero. -/
lemma nonneg_of_countP {l : List Int64} {n : ℕ} {d : ℤ}
    (h : n < 2 * l.countP (fun x => decide (-d ≤ x.toInt ∧ x.toInt ≤ d))) : 0 ≤ d := by
  have hpos : 0 < l.countP (fun x => decide (-d ≤ x.toInt ∧ x.toInt ≤ d)) := by omega
  obtain ⟨x, -, hx⟩ := countP_pos_iff.mp hpos
  have hx := of_decide_eq_true hx
  omega

/-- **Bounded influence on the clock.** In every run without the smallest integer as a sample the
offset stays within the limit; and if at every moment more than half of the values that are kept
lie in an interval around zero, within the limit, then so does the offset.

**Proof sketch.** The offset is always zero or a median of an odd number of values. It is one of
the values, hence not the smallest integer, and the comparison with the limit is right. A majority
in an interval has the median with it, by `CMedianFilter.median_of_majority`. -/
theorem getTimeOffset_bounded (m : Int64) (hm : 0 ≤ m) (calls : List (CNetAddr × Int64)) :
    ((∀ c ∈ calls, c.2 ≠ Int64.minValue) → |(run m calls).getTimeOffset.toInt| ≤ m.toInt) ∧
    (∀ d : ℤ, d ≤ m.toInt →
      (∀ pre, pre <+: calls → (run m pre).vTimeOffsets.size <
        2 * (run m pre).vTimeOffsets.vValues.countP
          (fun x => decide (-d ≤ x.toInt ∧ x.toInt ≤ d))) →
      |(run m calls).getTimeOffset.toInt| ≤ d) := by
  have hm' : 0 ≤ m.toInt := by simpa [Int64.le_iff_toInt_le] using hm
  induction calls using List.reverseRecOn with
  | nil =>
    exact ⟨fun _ => by simpa [run, getTimeOffset] using hm', fun d _ hpre => by
      simpa [run, getTimeOffset] using nonneg_of_countP (hpre [] prefix_rfl)⟩
  | append_singleton calls c ih =>
    obtain h | h | ⟨x, hx, hodd, hle, h⟩ := getTimeOffset_concat m calls c
    · rw [h]
      exact ⟨fun hc => ih.1 fun c' hc' => hc c' (mem_append_left _ hc'), fun d hd hpre =>
        ih.2 d hd fun pre hp => hpre pre (hp.trans (prefix_append _ _))⟩
    · rw [h]
      exact ⟨fun _ => by simpa using hm', fun d _ hpre => by
        simpa using nonneg_of_countP (hpre _ prefix_rfl)⟩
    · rw [h]
      refine ⟨fun hc => ?_, fun d _ hpre => ?_⟩
      · have hne := forall_mem_vValues (P := (· ≠ Int64.minValue)) (by decide) m _ hc x
          (CMedianFilter.median_mem (isSorted_run m _) hodd hx)
        rw [show max 0 m = m from if_pos hm, Int64.le_iff_toInt_le, toInt_abs64 hne] at hle
        exact hle
      · have hmid := CMedianFilter.median_of_majority (isSorted_run m _) hodd
          (P := fun y => -d ≤ y.toInt) (Q := fun y => y.toInt ≤ d)
          (fun _ _ hab ha => ha.trans (Int64.le_iff_toInt_le.mp hab))
          (fun _ _ hab hb => (Int64.le_iff_toInt_le.mp hab).trans hb) hx (hpre _ prefix_rfl)
        exact abs_le.mpr hmid

/-- The address `10.0.0.n`. -/
def peerAddress (n : UInt8) : CNetAddr :=
  { ip := #v[0, 0, 0, 0, 0, 0, 0, 0, 0, 0, 0xff, 0xff, 10, 0, 0, n] }

/-- Four peers that send one and the same sample. -/
def fourPeers (x : Int64) : List (CNetAddr × Int64) :=
  [(peerAddress 1, x), (peerAddress 2, x), (peerAddress 3, x), (peerAddress 4, x)]

theorem getTimeOffset_bounded_four :
    |(run 4200 (fourPeers 60)).getTimeOffset.toInt| ≤ (4200 : Int64).toInt ∧
      |(run 4200 (fourPeers 60)).getTimeOffset.toInt| ≤ 60 := by
  have h := getTimeOffset_bounded 4200 (by decide) (fourPeers 60)
  refine ⟨h.1 (by decide), h.2 60 (by decide) fun pre hpre => ?_⟩
  have hall : ∀ pre ∈ (fourPeers 60).inits, (run 4200 pre).vTimeOffsets.size <
      2 * (run 4200 pre).vTimeOffsets.vValues.countP
        (fun x => decide (-60 ≤ x.toInt ∧ x.toInt ≤ 60)) := by decide +kernel
  exact hall pre ((mem_inits _ _).mpr hpre)

/-- Four samples of the smallest integer make it the offset. -/
theorem getTimeOffset_escapes :
    (0 : Int64) ≤ 4200 ∧ ¬ |(run 4200 (fourPeers Int64.minValue)).getTimeOffset.toInt| ≤
      (4200 : Int64).toInt := by
  decide +kernel

end TimeData

end Tos.Net
