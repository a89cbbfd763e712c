import Tos.Tvm.Optimize

/-!
# Metering: the functions that set and deduct a price

The interpreter works out prices with machine words of three widths. Here they are compared with
prices as numbers without bounds: what an instruction has to pay for is written down as a bill, and
the metering pays the bill exactly or throws.

## Main results

* `updateGas_on`, `updateMem_on`: the functions of these names in full.
* `updateIOGas_pays`, `updateMem_pays`: the two ends of the metering pay their
  bills.
-/

namespace Tos.Tvm

open Method

variable {σ : Type} {E : Setup σ} {vm : LegacyVM σ}

/-! ### The price of memory -/

/-- The price of a memory of `n` bytes, as a number without bounds. -/
def EVMSchedule.memGas (S : EVMSchedule) (n : ℕ) : ℕ :=
  S.memoryGas * (n / 32) + n / 32 * (n / 32) / S.quadCoeffDiv

/-- A size rounded up to whole words. -/
def roundUp (n : ℕ) : ℕ := (n + 31) / 32 * 32

lemma memGas_mono (S : EVMSchedule) {a b : ℕ} (h : a ≤ b) : S.memGas a ≤ S.memGas b := by
  have hdiv : a / 32 ≤ b / 32 := Nat.div_le_div_right h
  exact Nat.add_le_add (Nat.mul_le_mul_left _ hdiv)
    (Nat.div_le_div_right (Nat.mul_le_mul hdiv hdiv))

lemma memGas_max_sub_add (S : EVMSchedule) (a b : ℕ) :
    S.memGas (max a b) - S.memGas a + S.memGas a = S.memGas (max a b) :=
  Nat.sub_add_cancel (memGas_mono S (le_max_left a b))

variable {n : ℕ}

/-- The sums and products of the metering fit 512 bits. -/
lemma lt_u512 (h : n < 2 ^ 256 * 2 ^ 40) : n < 2 ^ 512 := by
  refine h.trans_le ?_
  rw [← pow_add]
  refine pow_le_pow_right₀ one_le_two ?_
  norm_num

variable {S : EVMSchedule}

/-- The price of a memory whose size is a machine word fits 512 bits. -/
lemma memGas_lt (hS : S.Modest) (h : n < 2 ^ 65) : S.memGas n < 2 ^ 512 := by
  have hs : n / 32 < 2 ^ 60 := by omega
  have hlin : S.memoryGas * (n / 32) < 2 ^ 32 * 2 ^ 60 := Nat.mul_lt_mul'' hS.memory hs
  have hquad : n / 32 * (n / 32) / S.quadCoeffDiv < 2 ^ 60 * 2 ^ 60 :=
    (Nat.div_le_self _ _).trans_lt (Nat.mul_lt_mul'' hs hs)
  rw [EVMSchedule.memGas]
  exact lt_u512 (by omega)

/-- Nobody can pay for a memory of `2 ^ 63` bytes. -/
lemma memGas_of_le (hS : S.Modest) (h : 2 ^ 63 ≤ n) : 2 ^ 63 ≤ S.memGas n := by
  have hs : 2 ^ 58 ≤ n / 32 := by omega
  have hquad : 2 ^ 58 * 2 ^ 58 / 2 ^ 32 ≤ n / 32 * (n / 32) / S.quadCoeffDiv :=
    (Nat.div_le_div_left hS.quadCoeff.le hS.quadCoeff_pos).trans
      (Nat.div_le_div_right (Nat.mul_le_mul hs hs))
  rw [EVMSchedule.memGas]
  omega

lemma le_roundUp (n : ℕ) : n ≤ roundUp n := by
  rw [roundUp]
  omega

lemma dvd_roundUp (n : ℕ) : 32 ∣ roundUp n := Nat.dvd_mul_left _ _

/-! ### One step of the metering at a time -/

/-- The state in which the price has been set. -/
def LegacyVM.priced (vm : LegacyVM σ) (run size expansion : ℕ) : LegacyVM σ :=
  { vm with m_runGas := run, m_newMemSize := size, ghost := { vm.ghost with expansion } }

lemma word64_on_of_lt (h : n < 2 ^ 64) : (word64 n).on vm = (.ok n, vm) := by
  have hw : decide (2 ^ 64 ≤ n) = false := decide_eq_false (by omega)
  rw [word64, on_modify_bind, on_pure, Nat.mod_eq_of_lt h, hw, Bool.or_false]

lemma toInt63_on (v : ℕ) :
    (toInt63 v).on vm = if 2 ^ 63 ≤ v then (.error .OutOfGas, vm) else (.ok v, vm) := by
  rw [toInt63, on_ite, on_throw, on_pure]
  exact if_congr (by omega) rfl rfl

lemma toInt63_on_of_lt {v : ℕ} (h : v < 2 ^ 63) : (toInt63 v).on vm = (.ok v, vm) := by
  rw [toInt63_on, if_neg (by omega)]

lemma toInt63_on_of_le {v : ℕ} (h : 2 ^ 63 ≤ v) : (toInt63 v).on vm = (.error .OutOfGas, vm) := by
  rw [toInt63_on, if_pos h]

lemma setRunGas_on (n : ℕ) : (setRunGas n).on vm = (.ok (), vm.priced n vm.m_newMemSize 0) := rfl

lemma addRunGas_on (h : vm.m_runGas + n < 2 ^ 64) :
    (addRunGas n).on vm =
      (.ok (), vm.priced (vm.m_runGas + n) vm.m_newMemSize vm.ghost.expansion) := by
  rw [addRunGas, on_get_bind, on_bind_of_ok (word64_on_of_lt h), on_modify]
  rfl

lemma checkGas_on :
    (checkGas).on vm =
      if vm.m_io_gas < vm.m_runGas then (.error .OutOfGas, vm) else (.ok (), vm) := by
  rw [checkGas, on_get_bind, on_onlyIf, on_throw]

/-- The state after `updateIOGas`. -/
def LegacyVM.deducted (vm : LegacyVM σ) : LegacyVM σ :=
  { vm with
    m_io_gas := vm.m_io_gas - vm.m_runGas
    ghost := { vm.ghost with
      expansion := 0
      memoryPaid := vm.ghost.memoryPaid + vm.ghost.expansion } }

lemma updateIOGas_on :
    (updateIOGas).on vm =
      if vm.m_io_gas < vm.m_runGas then (.error .OutOfGas, vm) else (.ok (), vm.deducted) := by
  rw [updateIOGas, on_bind, checkGas_on]
  by_cases h : vm.m_io_gas < vm.m_runGas
  · rw [if_pos h, if_pos h]
  · rw [if_neg h, if_neg h]
    rfl

lemma memNeed_on (offset size : U256) :
    (memNeed offset size).on vm =
      (toInt63 (if size = 0#256 then 0 else offset.toNat + size.toNat)).on vm := by
  have hlt : offset.toNat + size.toNat < 2 ^ 512 := by
    have h1 := offset.isLt
    have h2 := size.isLt
    exact lt_u512 (by omega)
  rw [memNeed, u512, Nat.mod_eq_of_lt hlt]
  simp only [ne_eq, ite_not]

lemma gasForMem_on (hS : E.ext.evmSchedule.Modest) {size : ℕ} (h : size < 2 ^ 65) :
    (gasForMem E size).on vm = (toInt63 (E.ext.evmSchedule.memGas size)).on vm := by
  have hlt := memGas_lt hS h
  rw [EVMSchedule.memGas] at hlt
  simp only [gasForMem, u512, EVMSchedule.memGas, Nat.mod_eq_of_lt hlt]

/-- The price of the expansion is added, unless a part of it is too large. -/
lemma chargeExpansion_on (hS : E.ext.evmSchedule.Modest)
    (hlen : vm.m_mem.length < vm.m_newMemSize) (hnew : vm.m_newMemSize < 2 ^ 65)
    (hrun : vm.m_runGas ≤ 2 ^ 63) :
    (chargeExpansion E).on vm =
      if 2 ^ 63 ≤ E.ext.evmSchedule.memGas vm.m_newMemSize then (.error .OutOfGas, vm)
      else
        let d := E.ext.evmSchedule.memGas vm.m_newMemSize -
          E.ext.evmSchedule.memGas vm.m_mem.length
        (.ok (), vm.priced (vm.m_runGas + d) vm.m_newMemSize (vm.ghost.expansion + d)) := by
  have hle := memGas_mono E.ext.evmSchedule hlen.le
  rw [chargeExpansion, on_get_bind]
  by_cases hbig : 2 ^ 63 ≤ E.ext.evmSchedule.memGas vm.m_newMemSize
  · have h1 : (gasForMem E vm.m_newMemSize).on vm = (.error .OutOfGas, vm) := by
      rw [gasForMem_on hS hnew, toInt63_on_of_le hbig]
    rw [if_pos hbig, on_bind_of_error h1]
  · have h1 : (gasForMem E vm.m_newMemSize).on vm =
        (.ok (E.ext.evmSchedule.memGas vm.m_newMemSize), vm) := by
      rw [gasForMem_on hS hnew, toInt63_on_of_lt (by omega)]
    have h2 : (gasForMem E vm.m_mem.length).on vm =
        (.ok (E.ext.evmSchedule.memGas vm.m_mem.length), vm) := by
      rw [gasForMem_on hS (hlen.trans hnew), toInt63_on_of_lt (by omega)]
    have hsub : (2 ^ 64 + E.ext.evmSchedule.memGas vm.m_newMemSize -
        E.ext.evmSchedule.memGas vm.m_mem.length) % 2 ^ 64 =
        E.ext.evmSchedule.memGas vm.m_newMemSize - E.ext.evmSchedule.memGas vm.m_mem.length := by
      omega
    rw [if_neg hbig, on_bind_of_ok h1, on_bind_of_ok h2, hsub,
      on_bind_of_ok (toInt63_on_of_lt (by omega)),
      on_bind_of_ok (addRunGas_on (by omega)), on_modify]
    rfl

/-- The price of the bytes that are copied. -/
def EVMSchedule.copyCost (S : EVMSchedule) (n : ℕ) : ℕ := S.copyGas * ((n + 31) / 32)

lemma copyCost_lt (hS : S.Modest) (h : n < 2 ^ 63) : S.copyCost n < 2 ^ 62 := by
  have hle : S.copyGas * ((n + 31) / 32) ≤ 15 * 2 ^ 58 :=
    Nat.mul_le_mul (Nat.le_of_lt_succ hS.copy) (by omega)
  rw [EVMSchedule.copyCost]
  omega

lemma chargeCopy_on (hS : E.ext.evmSchedule.Modest) (hcopy : vm.m_copyMemSize < 2 ^ 63)
    (hrun : vm.m_runGas + E.ext.evmSchedule.copyCost vm.m_copyMemSize < 2 ^ 64) :
    (chargeCopy E).on vm =
      (.ok (), vm.priced (vm.m_runGas + E.ext.evmSchedule.copyCost vm.m_copyMemSize)
        vm.m_newMemSize vm.ghost.expansion) := by
  have hlt := copyCost_lt hS hcopy
  rw [EVMSchedule.copyCost] at hlt hrun ⊢
  rw [chargeCopy, on_get_bind, on_bind_of_ok (word64_on_of_lt (by omega)),
    on_bind_of_ok (word64_on_of_lt (by omega)), addRunGas_on hrun]

/-! ### The metering of an instruction that may expand the memory -/

/-- What is charged for the expansion of the memory to `size` bytes. -/
def expansionGas (E : Setup σ) (vm : LegacyVM σ) (size : ℕ) : ℕ :=
  E.ext.evmSchedule.memGas (max vm.m_mem.length size) - E.ext.evmSchedule.memGas vm.m_mem.length

/-- The price after `updateGas`. -/
def totalGas (E : Setup σ) (vm : LegacyVM σ) (size : ℕ) : ℕ :=
  vm.m_runGas + expansionGas E vm size + E.ext.evmSchedule.copyCost vm.m_copyMemSize

/-- The states from which a price is worked out without a wrap: the memory was paid for, and what
was added up so far leaves room. -/
structure Meterable (E : Setup σ) (vm : LegacyVM σ) : Prop where
  memory : E.ext.evmSchedule.memGas vm.m_mem.length < 2 ^ 63
  copy : vm.m_copyMemSize < 2 ^ 63
  run : vm.m_runGas + E.ext.evmSchedule.copyCost vm.m_copyMemSize ≤ 2 ^ 63

/-- Whether the gas for a memory of `size` bytes is missing. -/
def Short (E : Setup σ) (vm : LegacyVM σ) (size : ℕ) : Prop :=
  2 ^ 63 ≤ E.ext.evmSchedule.memGas (max vm.m_mem.length size) ∨
    vm.m_io_gas < totalGas E vm size

/-- `updateGas` in full: it throws if gas is missing, and otherwise it has worked out the price. -/
lemma updateGas_on (hS : E.ext.evmSchedule.Modest) (hvm : Meterable E vm)
    (hnew : vm.m_newMemSize < 2 ^ 65) :
    (Short E vm vm.m_newMemSize → ∃ r n e,
      (updateGas E).on vm = (.error .OutOfGas, vm.priced r n e)) ∧
    (¬ Short E vm vm.m_newMemSize → (updateGas E).on vm =
      (.ok (), vm.priced (totalGas E vm vm.m_newMemSize) vm.m_newMemSize
        (vm.ghost.expansion + expansionGas E vm vm.m_newMemSize))) := by
  obtain ⟨hmem, hcopy, hrun⟩ := hvm
  -- Without an error the price is added up, and what is left is the check for the gas.
  have hrest (hsmall : ¬ 2 ^ 63 ≤ E.ext.evmSchedule.memGas (max vm.m_mem.length vm.m_newMemSize)) :
      (updateGas E).on vm = checkGas.on (vm.priced (totalGas E vm vm.m_newMemSize) vm.m_newMemSize
        (vm.ghost.expansion + expansionGas E vm vm.m_newMemSize)) := by
    rw [updateGas, on_get_bind, totalGas, expansionGas]
    by_cases hlen : vm.m_mem.length < vm.m_newMemSize
    · rw [max_eq_right hlen.le] at hsmall ⊢
      have hexp := chargeExpansion_on hS hlen hnew (by omega)
      rw [if_neg hsmall] at hexp
      rw [on_bind_of_ok (by rw [on_onlyIf, if_pos hlen, hexp])]
      refine on_bind_of_ok (chargeCopy_on hS hcopy ?_)
      change vm.m_runGas + (_ - _) + E.ext.evmSchedule.copyCost vm.m_copyMemSize < 2 ^ 64
      omega
    · rw [max_eq_left (by omega : vm.m_newMemSize ≤ vm.m_mem.length), Nat.sub_self,
        on_bind_of_ok (by rw [on_onlyIf, if_neg hlen])]
      exact on_bind_of_ok (chargeCopy_on hS hcopy (by omega))
  by_cases hbig : 2 ^ 63 ≤ E.ext.evmSchedule.memGas (max vm.m_mem.length vm.m_newMemSize)
  · refine ⟨fun _ => ⟨vm.m_runGas, vm.m_newMemSize, vm.ghost.expansion, ?_⟩,
      fun h => absurd (.inl hbig) h⟩
    have hlen : vm.m_mem.length < vm.m_newMemSize := by
      by_contra hle
      rw [max_eq_left (by omega)] at hbig
      omega
    rw [max_eq_right hlen.le] at hbig
    have hexp := chargeExpansion_on hS hlen hnew (by omega)
    rw [if_pos hbig] at hexp
    rw [updateGas, on_get_bind]
    exact on_bind_of_error (by rw [on_onlyIf, if_pos hlen, hexp]; rfl)
  · rw [hrest hbig, checkGas_on]
    refine ⟨fun h => ⟨_, _, _, if_pos (h.resolve_left hbig)⟩, fun h => ?_⟩
    exact if_neg fun hs => h (.inr hs)

/-- The state after the metering of an instruction that needs a memory of `size` bytes. -/
def LegacyVM.expanded (E : Setup σ) (vm : LegacyVM σ) (size : ℕ) : LegacyVM σ :=
  { vm with
    m_io_gas := vm.m_io_gas - totalGas E vm size
    m_mem := vm.m_mem ++ List.replicate (size - vm.m_mem.length) 0
    m_runGas := totalGas E vm size
    m_newMemSize := size
    ghost := { vm.ghost with
      expansion := 0
      memoryPaid := vm.ghost.memoryPaid + (vm.ghost.expansion + expansionGas E vm size) } }

variable {need : ℕ}

/-- `updateMem` in full. -/
lemma updateMem_on (hS : E.ext.evmSchedule.Modest) (hvm : Meterable E vm)
    (hneed : need < 2 ^ 63 + 2 ^ 62) :
    (Short E vm (roundUp need) → ∃ r n e,
      (updateMem E need).on vm = (.error .OutOfGas, vm.priced r n e)) ∧
    (¬ Short E vm (roundUp need) → (updateMem E need).on vm =
      (.ok (), { vm.priced (totalGas E vm (roundUp need)) (roundUp need)
          (vm.ghost.expansion + expansionGas E vm (roundUp need)) with
        m_mem := vm.m_mem ++ List.replicate (roundUp need - vm.m_mem.length) 0 })) := by
  have hrw : (updateMem E need).on vm =
      (updateGas E >>= fun _ => modify fun vm =>
        { vm with
          m_mem := vm.m_mem ++ List.replicate (vm.m_newMemSize - vm.m_mem.length) 0 }).on
        (vm.priced vm.m_runGas (roundUp need) vm.ghost.expansion) := by
    rw [updateMem, on_bind_of_ok (word64_on_of_lt (by omega)),
      on_bind_of_ok (word64_on_of_lt (by omega)), on_modify_bind]
    rfl
  have hround : roundUp need < 2 ^ 65 := by
    rw [roundUp]
    omega
  obtain ⟨hno, hyes⟩ := @updateGas_on σ E (vm.priced vm.m_runGas (roundUp need) vm.ghost.expansion)
    hS ⟨hvm.memory, hvm.copy, hvm.run⟩ hround
  rw [hrw]
  constructor
  · intro h
    obtain ⟨r, n, e, hon⟩ := hno h
    exact ⟨r, n, e, on_bind_of_error hon⟩
  · intro h
    rw [on_bind_of_ok (hyes h), on_modify]
    rfl

/-- `updateMem` and then `updateIOGas`. -/
lemma updateMem_updateIOGas_on (hS : E.ext.evmSchedule.Modest) (hvm : Meterable E vm)
    (hneed : need < 2 ^ 63 + 2 ^ 62) :
    (Short E vm (roundUp need) → ∃ r n e,
      (updateMem E need >>= fun _ => updateIOGas).on vm = (.error .OutOfGas, vm.priced r n e)) ∧
    (¬ Short E vm (roundUp need) → (updateMem E need >>= fun _ => updateIOGas).on vm =
      (.ok (), vm.expanded E (roundUp need))) := by
  obtain ⟨hno, hyes⟩ := updateMem_on hS hvm hneed
  constructor
  · intro h
    obtain ⟨r, n, e, hon⟩ := hno h
    exact ⟨r, n, e, on_bind_of_error hon⟩
  · intro h
    rw [on_bind_of_ok (hyes h), updateIOGas_on]
    exact if_neg fun hs => h (.inr hs)

/-! ### Exact prices -/

/-- What an instruction has to pay for, as numbers without bounds: the price of its own, the end of
its accesses to memory, the bytes it copies, and the gas it passes on. -/
structure Bill where
  base : ℕ
  need : ℕ := 0
  copy : ℕ := 0
  call : ℕ := 0

/-- The exact price. -/
def Bill.cost (b : Bill) (E : Setup σ) (vm : LegacyVM σ) : ℕ :=
  b.base + expansionGas E vm (roundUp b.need) + E.ext.evmSchedule.copyCost b.copy + b.call

/-- A part of the price does not fit 63 bits, or the gas does not cover the price. -/
def Bill.Exceeds (b : Bill) (E : Setup σ) (vm : LegacyVM σ) : Prop :=
  2 ^ 63 ≤ b.base ∨ 2 ^ 63 ≤ b.need ∨ 2 ^ 63 ≤ b.copy ∨
    2 ^ 63 ≤ E.ext.evmSchedule.memGas (max vm.m_mem.length (roundUp b.need)) ∨
    2 ^ 63 ≤ b.call ∨ vm.m_io_gas < b.cost E vm

instance (b : Bill) : Decidable (b.Exceeds E vm) :=
  inferInstanceAs (Decidable (_ ∨ _ ∨ _ ∨ _ ∨ _ ∨ _))

/-- The memory was only extended by zeros, in whole words, and what was paid for it is the
difference of the prices; nothing has wrapped. -/
structure Accounted (E : Setup σ) (vm vm' : LegacyVM σ) : Prop where
  grown : ∃ n, vm'.m_mem = vm.m_mem ++ List.replicate n 0
  words : 32 ∣ vm.m_mem.length → 32 ∣ vm'.m_mem.length
  memory : E.ext.evmSchedule.memGas vm'.m_mem.length < 2 ^ 63
  paid : vm'.ghost.memoryPaid + E.ext.evmSchedule.memGas vm.m_mem.length =
    vm.ghost.memoryPaid + E.ext.evmSchedule.memGas vm'.m_mem.length
  wrapped : vm'.ghost.wrapped = vm.ghost.wrapped

/-- The metering pays a bill: it throws exactly if the bill exceeds the means, and otherwise it
deducts the exact price and extends the memory to the end of the accesses. -/
structure Pays {α : Type} (E : Setup σ) (vm : LegacyVM σ) (b : Bill)
    (r : Except VMException α × LegacyVM σ) : Prop where
  accounted : Accounted E vm r.2
  refused : b.Exceeds E vm → r.1 = .error .OutOfGas
  accepted : ¬ b.Exceeds E vm → ∃ a, r.1 = .ok a
  gas : ¬ b.Exceeds E vm → r.2.m_io_gas + b.cost E vm = vm.m_io_gas
  mem : ¬ b.Exceeds E vm →
    r.2.m_mem = vm.m_mem ++ List.replicate (roundUp b.need - vm.m_mem.length) 0

/-- Two states with the same gas and the same memory, paid for alike. -/
structure SameFunds (vm vm' : LegacyVM σ) : Prop where
  gas : vm'.m_io_gas = vm.m_io_gas
  mem : vm'.m_mem = vm.m_mem
  paid : vm'.ghost.memoryPaid = vm.ghost.memoryPaid
  wrapped : vm'.ghost.wrapped = vm.ghost.wrapped

lemma SameFunds.trans {vm₁ vm₂ vm₃ : LegacyVM σ} (h : SameFunds vm₁ vm₂) (h' : SameFunds vm₂ vm₃) :
    SameFunds vm₁ vm₃ :=
  ⟨h'.gas.trans h.gas, h'.mem.trans h.mem, h'.paid.trans h.paid, h'.wrapped.trans h.wrapped⟩

lemma sameFunds_priced (r n e : ℕ) : SameFunds vm (vm.priced r n e) := ⟨rfl, rfl, rfl, rfl⟩

variable {vm' : LegacyVM σ}

lemma SameFunds.accounted (h : SameFunds vm vm')
    (hmem : E.ext.evmSchedule.memGas vm.m_mem.length < 2 ^ 63) : Accounted E vm vm' where
  grown := ⟨0, by rw [h.mem]; simp⟩
  words := by rw [h.mem]; exact id
  memory := by rw [h.mem]; exact hmem
  paid := by rw [h.mem, h.paid]
  wrapped := h.wrapped

lemma Accounted.of_same {vm₁ vm₂ : LegacyVM σ} (h : SameFunds vm vm₁) (ha : Accounted E vm₁ vm₂) :
    Accounted E vm vm₂ where
  grown := by rw [← h.mem]; exact ha.grown
  words := by rw [← h.mem]; exact ha.words
  memory := ha.memory
  paid := by rw [← h.mem, ← h.paid]; exact ha.paid
  wrapped := ha.wrapped.trans h.wrapped

lemma Accounted.trans {vm₁ vm₂ : LegacyVM σ} (h : Accounted E vm vm₁) (h' : Accounted E vm₁ vm₂) :
    Accounted E vm vm₂ where
  grown := by
    obtain ⟨m, hm⟩ := h.grown
    obtain ⟨n, hn⟩ := h'.grown
    exact ⟨m + n, by rw [hn, hm, List.append_assoc, List.replicate_append_replicate]⟩
  words := fun hw => h'.words (h.words hw)
  memory := h'.memory
  paid := by
    have h1 := h.paid
    have h2 := h'.paid
    omega
  wrapped := h'.wrapped.trans h.wrapped

lemma SameFunds.expansionGas_eq (h : SameFunds vm vm') (size : ℕ) :
    expansionGas E vm' size = expansionGas E vm size := by
  rw [expansionGas, expansionGas, h.mem]

lemma SameFunds.exceeds_iff (h : SameFunds vm vm') (b : Bill) :
    b.Exceeds E vm' ↔ b.Exceeds E vm := by
  rw [Bill.Exceeds, Bill.Exceeds, Bill.cost, Bill.cost, h.expansionGas_eq, h.mem, h.gas]

/-- A bill is paid from a state with the same means. -/
lemma Pays.of_same {α : Type} {b : Bill}
    {r : Except VMException α × LegacyVM σ} (h : SameFunds vm vm') (hp : Pays E vm' b r) :
    Pays E vm b r where
  accounted := hp.accounted.of_same h
  refused := fun hb => hp.refused ((h.exceeds_iff b).mpr hb)
  accepted := fun hb => hp.accepted fun hb' => hb ((h.exceeds_iff b).mp hb')
  gas := fun hb => by
    have := hp.gas fun hb' => hb ((h.exceeds_iff b).mp hb')
    rwa [Bill.cost, h.expansionGas_eq, h.gas] at this
  mem := fun hb => by
    have := hp.mem fun hb' => hb ((h.exceeds_iff b).mp hb')
    rwa [h.mem] at this

/-- A bill that cannot be paid, refused before anything was deducted. -/
lemma Pays.of_refused {α : Type} {b : Bill} (h : SameFunds vm vm')
    (hmem : E.ext.evmSchedule.memGas vm.m_mem.length < 2 ^ 63) (hb : b.Exceeds E vm) :
    Pays E vm b ((.error .OutOfGas, vm') : Except VMException α × LegacyVM σ) where
  accounted := h.accounted hmem
  refused := fun _ => rfl
  accepted := fun h => absurd hb h
  gas := fun h => absurd hb h
  mem := fun h => absurd hb h

/-- `updateIOGas` pays the price that has been set. -/
lemma updateIOGas_pays (hexp : vm.ghost.expansion = 0)
    (hmem : E.ext.evmSchedule.memGas vm.m_mem.length < 2 ^ 63) (hrun : vm.m_runGas < 2 ^ 63) :
    Pays E vm { base := vm.m_runGas } (updateIOGas.on vm) := by
  have hzero : expansionGas E vm (roundUp 0) = 0 := by
    rw [expansionGas, roundUp, max_eq_left (by simp), Nat.sub_self]
  have hcost : ({ base := vm.m_runGas } : Bill).cost E vm = vm.m_runGas := by
    simp [Bill.cost, hzero, EVMSchedule.copyCost]
  have hexceeds : ({ base := vm.m_runGas } : Bill).Exceeds E vm ↔ vm.m_io_gas < vm.m_runGas := by
    have hmax : max vm.m_mem.length (roundUp 0) = vm.m_mem.length := max_eq_left (by simp [roundUp])
    rw [Bill.Exceeds, hcost]
    dsimp only
    rw [hmax]
    omega
  rw [updateIOGas_on]
  split_ifs with hshort
  · exact Pays.of_refused ⟨rfl, rfl, rfl, rfl⟩ hmem (hexceeds.mpr hshort)
  · have hle : vm.m_runGas ≤ vm.m_io_gas := by omega
    have hpaid : vm.deducted.ghost.memoryPaid = vm.ghost.memoryPaid := by
      change vm.ghost.memoryPaid + vm.ghost.expansion = _
      rw [hexp, Nat.add_zero]
    refine ⟨⟨⟨0, by simp [LegacyVM.deducted]⟩, id, hmem, by rw [hpaid]; rfl, rfl⟩,
      fun h => absurd (hexceeds.mp h) hshort, fun _ => ⟨(), rfl⟩, fun _ => ?_, fun _ => ?_⟩
    · rw [hcost]
      exact Nat.sub_add_cancel hle
    · simp [LegacyVM.deducted, roundUp]

lemma length_append_replicate_sub (mem : Bytes) (size : ℕ) :
    (mem ++ List.replicate (size - mem.length) 0).length = max mem.length size := by
  rw [List.length_append, List.length_replicate]
  omega

/-- `updateMem` and `updateIOGas` pay the price that has been set, and that of the memory. -/
lemma updateMem_pays (hS : E.ext.evmSchedule.Modest) (hvm : Meterable E vm)
    (hexp : vm.ghost.expansion = 0) (hneed : need < 2 ^ 63 + 2 ^ 62) (hrun : vm.m_runGas < 2 ^ 63) :
    Pays E vm { base := vm.m_runGas, need := need, copy := vm.m_copyMemSize }
      ((updateMem E need >>= fun _ => updateIOGas).on vm) := by
  set b : Bill := { base := vm.m_runGas, need := need, copy := vm.m_copyMemSize } with hb
  have hcost : b.cost E vm = totalGas E vm (roundUp need) := Nat.add_zero _
  have hexceeds : b.Exceeds E vm ↔ Short E vm (roundUp need) := by
    have hbig : 2 ^ 63 ≤ need →
        2 ^ 63 ≤ E.ext.evmSchedule.memGas (max vm.m_mem.length (roundUp need)) := fun h =>
      memGas_of_le hS ((h.trans (le_roundUp need)).trans (le_max_right _ _))
    have hcopy := hvm.copy
    rw [Bill.Exceeds, Short, hcost, hb]
    dsimp only
    omega
  obtain ⟨hno, hyes⟩ := updateMem_updateIOGas_on hS hvm hneed
  by_cases hs : Short E vm (roundUp need)
  · obtain ⟨r, n, e, hon⟩ := hno hs
    rw [hon]
    exact Pays.of_refused (sameFunds_priced r n e) hvm.memory (hexceeds.mpr hs)
  · rw [hyes hs]
    have hle : totalGas E vm (roundUp need) ≤ vm.m_io_gas := by
      by_contra hlt
      exact hs (.inr (by omega))
    have hlen : (vm.expanded E (roundUp need)).m_mem.length =
        max vm.m_mem.length (roundUp need) := length_append_replicate_sub _ _
    refine ⟨⟨⟨_, rfl⟩, fun hw => ?_, ?_, ?_, rfl⟩, fun h => absurd (hexceeds.mp h) hs,
      fun _ => ⟨(), rfl⟩, fun _ => ?_, fun _ => rfl⟩
    · rw [hlen]
      rcases max_choice vm.m_mem.length (roundUp need) with h | h <;> rw [h]
      · exact hw
      · exact dvd_roundUp need
    · rw [hlen]
      by_contra hbig
      exact hs (.inl (by omega))
    · rw [hlen]
      change vm.ghost.memoryPaid + (vm.ghost.expansion + expansionGas E vm (roundUp need)) + _ = _
      rw [hexp, Nat.zero_add, Nat.add_assoc, expansionGas, memGas_max_sub_add]
    · rw [hcost]
      exact Nat.sub_add_cancel hle

end Tos.Tvm
