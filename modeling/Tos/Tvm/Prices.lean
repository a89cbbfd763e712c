import Tos.Tvm.Frame
import Tos.Tvm.Metering

/-!
# Metering: the instructions

The bill of every instruction, and that its metering pays it.

## Main results

* `caseCallSetup_pays`: the metering of the instructions that call, which pay in two parts.
* `charge_pays`: the metering of every instruction pays its bill.

## Implementation notes

The host answers from its own state, so a price that depends on an answer is a function of the state
in which the metering starts. `SSTORE` asks for the stored word again when it finds that it does not
set a new one; the second answer decides on the refund only.
-/

namespace Tos.Tvm

open Method

variable {σ : Type} {E : Setup σ} {vm : LegacyVM σ}

/-! ### Bills -/

/-- The end of an access to memory; an access to no bytes has none. -/
def endOf (offset size : U256) : ℕ := if size = 0#256 then 0 else offset.toNat + size.toNat

/-- The price of the tier of an instruction. -/
def tierGas (E : Setup σ) (op : Instruction) : ℕ :=
  E.ext.evmSchedule.tierStepGas.getD op.metric.gasPriceTier.toNat 0

/-- The price of `SSTORE`, which depends on what is stored. -/
def sstoreGas (E : Setup σ) (vm : LegacyVM σ) : ℕ :=
  let stored := (E.ext.store (vm.SP 0) vm.host).1
  if stored = 0#256 ∧ vm.SP 1 ≠ 0#256 then E.ext.evmSchedule.sstoreSetGas
  else E.ext.evmSchedule.sstoreResetGas

/-- What `SUICIDE` pays for a new account. -/
def suicideNewAccountGas (E : Setup σ) (vm : LegacyVM σ) : ℕ :=
  let balance := E.ext.balance E.ext.myAddress vm.host
  let found := (E.ext.exists_ (asAddress (vm.SP 0)) balance.2).1
  if (balance.1 ≠ 0#256 ∨ E.ext.evmSchedule.zeroValueTransferChargesNewAccountGas = true) ∧
      E.ext.evmSchedule.suicideChargesNewAccountGas = true ∧ found = false then
    E.ext.evmSchedule.callNewAccountGas
  else 0

/-- What `CALL` pays for a new account. -/
def newAccountGas (E : Setup σ) (vm : LegacyVM σ) : ℕ :=
  let found := (E.ext.exists_ (asAddress (vm.SP 1)) vm.host).1
  if found = false ∧ (vm.SP 2 ≠ 0#256 ∨
      E.ext.evmSchedule.zeroValueTransferChargesNewAccountGas = true) then
    E.ext.evmSchedule.callNewAccountGas
  else 0

/-- What a transfer of value costs. -/
def transferGas (E : Setup σ) (value : U256) : ℕ :=
  if value ≠ 0#256 then E.ext.evmSchedule.callValueTransferGas else 0

/-- What a call pays before it passes gas on. The value of `CALL` and `CALLCODE` is the third item
of the stack; the ranges of the input and of the output are the four items behind it, and those
behind the second item for the calls without a value. -/
def callBill (E : Setup σ) (vm : LegacyVM σ) : Instruction → Bill
  | .CALL =>
    { base := E.ext.evmSchedule.callGas + newAccountGas E vm + transferGas E (vm.SP 2)
      need := max (endOf (vm.SP 3) (vm.SP 4)) (endOf (vm.SP 5) (vm.SP 6)) }
  | .CALLCODE =>
    { base := E.ext.evmSchedule.callGas + transferGas E (vm.SP 2)
      need := max (endOf (vm.SP 3) (vm.SP 4)) (endOf (vm.SP 5) (vm.SP 6)) }
  | _ =>
    { base := E.ext.evmSchedule.callGas
      need := max (endOf (vm.SP 2) (vm.SP 3)) (endOf (vm.SP 4) (vm.SP 5)) }

/-- The gas a call passes on, when so much is left: what it asks for, since EIP 150 at most all but
one 64th. -/
def passedOn (E : Setup σ) (vm : LegacyVM σ) (left : ℕ) : ℕ :=
  if E.ext.evmSchedule.staticCallDepthLimit = true then (vm.SP 0).toNat
  else min (vm.SP 0).toNat (left - left / 64)

/-- The exact price of an instruction. -/
def bill (E : Setup σ) (vm : LegacyVM σ) (op : Instruction) : Bill :=
  match op with
  | .MLOAD | .MSTORE => { base := tierGas E op, need := (vm.SP 0).toNat + 32 }
  | .MSTORE8 => { base := tierGas E op, need := (vm.SP 0).toNat + 1 }
  | .RETURN | .REVERT => { base := tierGas E op, need := endOf (vm.SP 0) (vm.SP 1) }
  | .SHA3 =>
    { base := E.ext.evmSchedule.sha3Gas +
        ((vm.SP 1).toNat + 31) / 32 * E.ext.evmSchedule.sha3WordGas
      need := endOf (vm.SP 0) (vm.SP 1) }
  | .LOG n =>
    { base := E.ext.evmSchedule.logGas + E.ext.evmSchedule.logTopicGas * n +
        E.ext.evmSchedule.logDataGas * (vm.SP 1).toNat
      need := endOf (vm.SP 0) (vm.SP 1) }
  | .CALLDATACOPY | .CODECOPY | .RETURNDATACOPY =>
    { base := tierGas E op, need := endOf (vm.SP 0) (vm.SP 2), copy := (vm.SP 2).toNat }
  | .EXTCODECOPY =>
    { base := E.ext.evmSchedule.extcodecopyGas
      need := endOf (vm.SP 1) (vm.SP 3)
      copy := (vm.SP 3).toNat }
  | .EXP =>
    { base := E.ext.evmSchedule.expGas +
        E.ext.evmSchedule.expByteGas * (BigEndian.bytes (vm.SP 1).toNat).length }
  | .BALANCE => { base := E.ext.evmSchedule.balanceGas }
  | .EXTCODESIZE => { base := E.ext.evmSchedule.extcodesizeGas }
  | .BLOCKHASH => { base := E.ext.evmSchedule.blockhashGas }
  | .SLOAD => { base := E.ext.evmSchedule.sloadGas }
  | .SSTORE => { base := sstoreGas E vm }
  | .SUICIDE => { base := E.ext.evmSchedule.suicideGas + suicideNewAccountGas E vm }
  | .JUMPDEST => { base := 1 }
  | .CREATE => { base := E.ext.evmSchedule.createGas, need := endOf (vm.SP 1) (vm.SP 2) }
  | .CREATE2 => { base := E.ext.evmSchedule.createGas, need := endOf (vm.SP 2) (vm.SP 3) }
  | .CALL | .CALLCODE | .DELEGATECALL | .STATICCALL =>
    { callBill E vm op with
      call := passedOn E vm (vm.m_io_gas - (callBill E vm op).cost E vm) }
  | _ => { base := tierGas E op }

/-! ### The operands of the instructions that call -/

/-- What `chargeNewAccount` charges. -/
def callNewAccountGas (E : Setup σ) (vm : LegacyVM σ) : ℕ :=
  if vm.m_OP = .CALL then newAccountGas E vm else 0

/-- What `callStaticCosts` charges, with the operands as the interpreter finds them. -/
def setupBill (E : Setup σ) (vm : LegacyVM σ) : Bill where
  base := E.ext.evmSchedule.callGas + callNewAccountGas E vm + transferGas E (callValue vm)
  need := max (endOf (callRange vm 0) (callRange vm 1)) (endOf (callRange vm 2) (callRange vm 3))

/-- The instructions that call. -/
def Instruction.calls : Instruction → Bool
  | CALL | CALLCODE | DELEGATECALL | STATICCALL => true
  | _ => false

/-- The interpreter finds the operands of a call where they are. -/
lemma setupBill_eq {op : Instruction} (hop : vm.m_OP = op) (hcall : op.calls = true) :
    setupBill E vm = callBill E vm op := by
  cases op with
  | CALL | CALLCODE | DELEGATECALL | STATICCALL =>
    simp [setupBill, callBill, callNewAccountGas, transferGas, callValue, callRange, haveValueArg,
      hop]
  | _ => cases hcall

/-- The bill of a call has the gas it passes on besides. -/
lemma bill_eq_setupBill {op : Instruction} (hop : vm.m_OP = op) (hcall : op.calls = true) :
    bill E vm op = { setupBill E vm with
      call := passedOn E vm (vm.m_io_gas - (setupBill E vm).cost E vm) } := by
  rw [setupBill_eq hop hcall]
  cases op with
  | CALL | CALLCODE | DELEGATECALL | STATICCALL => rfl
  | _ => cases hcall

/-- It finds the code of a new contract where it is. -/
lemma endOf_init {op : Instruction} (hop : vm.m_OP = op) (hcreate : op = .CREATE ∨ op = .CREATE2) :
    endOf (initOff vm) (initSize vm) = (bill E vm op).need := by
  rcases hcreate with rfl | rfl <;> simp [initOff, initSize, hop, bill]

/-! ### Metering, case by case -/

/-- What `fetchInstruction` leaves behind, when the memory was paid for. -/
structure Fetched (E : Setup σ) (vm : LegacyVM σ) : Prop where
  run : vm.m_runGas = tierGas E vm.m_OP
  copy : vm.m_copyMemSize = 0
  expansion : vm.ghost.expansion = 0
  memory : E.ext.evmSchedule.memGas vm.m_mem.length < 2 ^ 63

lemma tierGas_lt (hS : E.ext.evmSchedule.Modest) (op : Instruction) : tierGas E op < 2 ^ 32 := by
  rw [tierGas, List.getD_eq_getElem?_getD]
  rcases h : E.ext.evmSchedule.tierStepGas[op.metric.gasPriceTier.toNat]? with _ | g
  · simp
  · exact hS.tier g (List.mem_of_getElem? h)

lemma ask_on {α : Type} (c : HostCall) (method : σ → α × σ) :
    (ask c method).on vm = (.ok (method vm.host).1, vm.afterAsking c (method vm.host).2) := rfl

lemma copyCost_zero (S : EVMSchedule) : S.copyCost 0 = 0 := by simp [EVMSchedule.copyCost]

/-- A price that was set, with nothing copied. -/
lemma meterable_priced (hF : Fetched E vm) {base : ℕ} (hbase : base < 2 ^ 63) :
    Meterable E (vm.priced base vm.m_newMemSize 0) where
  memory := hF.memory
  copy := by
    change vm.m_copyMemSize < 2 ^ 63
    rw [hF.copy]
    norm_num
  run := by
    change base + E.ext.evmSchedule.copyCost vm.m_copyMemSize ≤ 2 ^ 63
    rw [hF.copy, copyCost_zero]
    omega

section Modest

variable (hS : E.ext.evmSchedule.Modest)
include hS

/-- The metering from `memNeed` on. -/
lemma memNeed_pays (hvm : Meterable E vm)
    (hexp : vm.ghost.expansion = 0) (hrun : vm.m_runGas < 2 ^ 63) (offset size : U256) :
    Pays E vm { base := vm.m_runGas, need := endOf offset size, copy := vm.m_copyMemSize }
      ((memNeed offset size >>= fun need => updateMem E need >>= fun _ => updateIOGas).on vm) := by
  rw [on_bind_congr (memNeed_on offset size), ← endOf]
  by_cases hbig : 2 ^ 63 ≤ endOf offset size
  · rw [on_bind_of_error (toInt63_on_of_le hbig)]
    exact Pays.of_refused ⟨rfl, rfl, rfl, rfl⟩ hvm.memory (.inr (.inl hbig))
  · rw [on_bind_of_ok (toInt63_on_of_lt (by omega))]
    exact updateMem_pays hS hvm hexp (by omega) hrun

/-- The metering of an instruction that sets a price of its own and accesses memory. -/
lemma price_memNeed_pays (hF : Fetched E vm) (base : ℕ) (offset size : U256) :
    Pays E vm { base := base, need := endOf offset size }
      ((toInt63 base >>= fun gas => setRunGas gas >>= fun _ =>
        memNeed offset size >>= fun need => updateMem E need >>= fun _ => updateIOGas).on vm) := by
  by_cases hbig : 2 ^ 63 ≤ base
  · rw [on_bind_of_error (toInt63_on_of_le hbig)]
    exact Pays.of_refused ⟨rfl, rfl, rfl, rfl⟩ hF.memory (.inl hbig)
  · have hlt : base < 2 ^ 63 := by omega
    rw [on_bind_of_ok (toInt63_on_of_lt hlt), on_bind_of_ok (setRunGas_on base)]
    have hpays := memNeed_pays hS (meterable_priced hF hlt) rfl hlt offset size
    rw [show (vm.priced base vm.m_newMemSize 0).m_copyMemSize = 0 from hF.copy] at hpays
    exact hpays.of_same (sameFunds_priced _ _ _)

omit hS in
/-- The metering of an instruction with a price of its own. -/
lemma fixedPrice_pays (hF : Fetched E vm) {base : ℕ} (hbase : base < 2 ^ 63) :
    Pays E vm { base := base } ((fixedPrice base).on vm) := by
  rw [fixedPrice, on_bind_of_ok (toInt63_on_of_lt hbase),
    on_bind_of_ok (setRunGas_on base)]
  exact (@updateIOGas_pays σ E (vm.priced base vm.m_newMemSize 0) rfl hF.memory hbase).of_same
    (sameFunds_priced _ _ _)

/-- The metering of an instruction at the price of its tier. -/
lemma tier_pays (hF : Fetched E vm) :
    Pays E vm { base := tierGas E vm.m_OP } (updateIOGas.on vm) := by
  have hlt := tierGas_lt hS vm.m_OP
  have hpays := updateIOGas_pays (E := E) hF.expansion hF.memory (by rw [hF.run]; omega)
  rwa [hF.run] at hpays

/-- The metering of `MLOAD`, `MSTORE` and `MSTORE8`. -/
lemma wordCharge_pays (hF : Fetched E vm) {n : ℕ} (hn : n ≤ 32) :
    Pays E vm { base := tierGas E vm.m_OP, need := (vm.SP 0).toNat + n }
      ((wordCharge E n).on vm) := by
  have htier := tierGas_lt hS vm.m_OP
  have hrun : vm.m_runGas < 2 ^ 63 := by rw [hF.run]; omega
  rw [wordCharge, on_get_bind]
  by_cases hbig : 2 ^ 63 ≤ (vm.SP 0).toNat
  · rw [on_bind_of_error (toInt63_on_of_le hbig)]
    exact Pays.of_refused ⟨rfl, rfl, rfl, rfl⟩ hF.memory
      (.inr (.inl (hbig.trans (Nat.le_add_right _ n))))
  · rw [on_bind_of_ok (toInt63_on_of_lt (by omega)),
      on_bind_of_ok (word64_on_of_lt (by omega))]
    have hmeter : Meterable E vm :=
      ⟨hF.memory, by rw [hF.copy]; norm_num, by rw [hF.copy, copyCost_zero]; omega⟩
    have hpays := updateMem_pays hS hmeter hF.expansion
      (show (vm.SP 0).toNat + n < 2 ^ 63 + 2 ^ 62 by omega) hrun
    rwa [hF.run, hF.copy] at hpays

/-- The state in which the number of bytes to be copied has been set. -/
def LegacyVM.copying (vm : LegacyVM σ) (n : ℕ) : LegacyVM σ := { vm with m_copyMemSize := n }

omit hS in
lemma setCopyMemSize_on (n : ℕ) : (setCopyMemSize n).on vm = (.ok (), vm.copying n) := rfl

omit hS in
lemma sameFunds_copying (n : ℕ) : SameFunds vm (vm.copying n) := ⟨rfl, rfl, rfl, rfl⟩

/-- The metering of `RETURN` and `REVERT`. -/
lemma outputCharge_pays (hF : Fetched E vm) :
    Pays E vm { base := tierGas E vm.m_OP, need := endOf (vm.SP 0) (vm.SP 1) }
      ((outputCharge E).on vm) := by
  have htier := tierGas_lt hS vm.m_OP
  have hrun : (vm.copying 0).m_runGas = tierGas E vm.m_OP := hF.run
  have hmeter : Meterable E (vm.copying 0) :=
    ⟨hF.memory, Nat.two_pow_pos 63, by rw [hrun]; exact Nat.le_of_lt (by
      change tierGas E vm.m_OP + E.ext.evmSchedule.copyCost 0 < 2 ^ 63
      rw [copyCost_zero]
      omega)⟩
  rw [outputCharge, on_get_bind, on_bind_of_ok (setCopyMemSize_on 0)]
  have hpays := memNeed_pays hS hmeter hF.expansion (by omega) (vm.SP 0) (vm.SP 1)
  rw [hrun] at hpays
  exact hpays.of_same (sameFunds_copying 0)

/-- The metering of an instruction that copies to memory, once its price is set. -/
lemma copyPrice_pays
    (hmem : E.ext.evmSchedule.memGas vm.m_mem.length < 2 ^ 63) (hexp : vm.ghost.expansion = 0)
    (hrun : vm.m_runGas < 2 ^ 32) (offset size : LegacyVM σ → U256) :
    Pays E vm { base := vm.m_runGas, need := endOf (offset vm) (size vm), copy := (size vm).toNat }
      ((copyPrice E offset size).on vm) := by
  rw [copyPrice, on_get_bind]
  by_cases hbig : 2 ^ 63 ≤ (size vm).toNat
  · rw [on_bind_of_error (toInt63_on_of_le hbig)]
    exact Pays.of_refused ⟨rfl, rfl, rfl, rfl⟩ hmem (.inr (.inr (.inl hbig)))
  · have hlt : (size vm).toNat < 2 ^ 63 := by omega
    have hcopy := copyCost_lt hS hlt
    have hmeter : Meterable E (vm.copying (size vm).toNat) := ⟨hmem, hlt, by
      change vm.m_runGas + E.ext.evmSchedule.copyCost (size vm).toNat ≤ 2 ^ 63
      omega⟩
    rw [on_bind_of_ok (toInt63_on_of_lt hlt), on_bind_of_ok (setCopyMemSize_on _)]
    exact (memNeed_pays hS hmeter hexp (show vm.m_runGas < 2 ^ 63 by omega) (offset vm)
      (size vm)).of_same (sameFunds_copying _)

/-- The state in which the host has been asked and a price has been set. -/
def LegacyVM.quoted (vm : LegacyVM σ) (host : σ) (asked : List HostCall) (run : ℕ) : LegacyVM σ :=
  { vm with host, m_runGas := run, ghost := { vm.ghost with asked } }

omit hS in
lemma sameFunds_quoted (host : σ) (asked : List HostCall) (run : ℕ) :
    SameFunds vm (vm.quoted host asked run) := ⟨rfl, rfl, rfl, rfl⟩

/-- What `updateSSGas` does: the host is asked, and the price is set. -/
lemma updateSSGas_on (hexp : vm.ghost.expansion = 0) :
    ∃ host asked, (updateSSGas E).on vm = (.ok (), vm.quoted host asked (sstoreGas E vm)) := by
  have hset := hS.sstoreSet
  have hreset := hS.sstoreReset
  rw [updateSSGas, on_get_bind, on_bind_of_ok (ask_on _ _), sstoreGas,
    on_ite]
  split_ifs with hfirst
  · rw [on_bind_of_ok (toInt63_on_of_lt (by omega)), setRunGas_on]
    rw [← hexp]
    exact ⟨_, _, rfl⟩
  · rw [on_bind_of_ok (ask_on _ _), on_bind_of_ok (toInt63_on_of_lt (by omega)),
      on_bind_of_ok (setRunGas_on _), on_onlyIf, ← hexp]
    split_ifs
    · exact ⟨_, _, rfl⟩
    · exact ⟨_, _, rfl⟩

/-- What `SUICIDE` does before its price is deducted. -/
lemma suicideChecks_on (hrun : vm.m_runGas < 2 ^ 32) :
    ∃ host asked, (suicideChecks E (asAddress (vm.SP 0))).on vm =
      (.ok (), vm.quoted host asked (vm.m_runGas + suicideNewAccountGas E vm)) := by
  have hnew := hS.callNewAccount
  rw [suicideChecks, on_bind_of_ok (ask_on _ _), on_onlyIf, on_onlyIf,
    on_bind_of_ok (ask_on _ _), on_onlyIf, suicideNewAccountGas]
  by_cases hnewAccount : ((E.ext.balance E.ext.myAddress vm.host).1 ≠ 0#256 ∨
      E.ext.evmSchedule.zeroValueTransferChargesNewAccountGas = true) ∧
      E.ext.evmSchedule.suicideChargesNewAccountGas = true ∧
      (E.ext.exists_ (asAddress (vm.SP 0)) (E.ext.balance E.ext.myAddress vm.host).2).1 = false
  · rw [if_pos hnewAccount, if_pos hnewAccount.1, if_pos hnewAccount.2.1]
    exact ⟨_, _, (if_pos hnewAccount.2.2).trans (addRunGas_on
      (show vm.m_runGas + E.ext.evmSchedule.callNewAccountGas < 2 ^ 64 by omega))⟩
  · rw [if_neg hnewAccount]
    split_ifs with hbalance hmode hfound
    · exact absurd ⟨hbalance, hmode, hfound⟩ hnewAccount
    · exact ⟨_, _, rfl⟩
    · exact ⟨_, _, rfl⟩
    · exact ⟨_, _, rfl⟩

/-- What a call does before its price is deducted: a new account. -/
lemma chargeNewAccount_on (hrun : vm.m_runGas < 2 ^ 32) :
    ∃ host asked, (chargeNewAccount E).on vm =
      (.ok (), vm.quoted host asked (vm.m_runGas + callNewAccountGas E vm)) := by
  have hnew := hS.callNewAccount
  rw [chargeNewAccount, on_get_bind, on_onlyIf, on_bind_of_ok (ask_on _ _),
    on_onlyIf, on_bind_of_ok (toInt63_on_of_lt (by omega)), callNewAccountGas, newAccountGas]
  split_ifs
  · exact ⟨_, _, addRunGas_on
      (show vm.m_runGas + E.ext.evmSchedule.callNewAccountGas < 2 ^ 64 by omega)⟩
  · exact ⟨_, _, rfl⟩
  · exact ⟨_, _, rfl⟩

lemma chargeValueTransfer_on (hrun : vm.m_runGas < 2 ^ 34) :
    (chargeValueTransfer E).on vm = (.ok (), vm.priced (vm.m_runGas + transferGas E (callValue vm))
      vm.m_newMemSize vm.ghost.expansion) := by
  have hvalue := hS.callValueTransfer
  rw [chargeValueTransfer, on_get_bind, on_onlyIf,
    on_bind_of_ok (toInt63_on_of_lt (by omega)), transferGas]
  split_ifs
  · exact addRunGas_on (by omega)
  · rfl

/-- The two ranges of a call are checked one after the other. -/
lemma memNeeds_pays (hvm : Meterable E vm)
    (hexp : vm.ghost.expansion = 0) (hrun : vm.m_runGas < 2 ^ 63) (off₁ size₁ off₂ size₂ : U256) :
    Pays E vm
      { base := vm.m_runGas
        need := max (endOf off₁ size₁) (endOf off₂ size₂)
        copy := vm.m_copyMemSize }
      ((memNeed off₁ size₁ >>= fun m => memNeed off₂ size₂ >>= fun n =>
        updateMem E (max m n) >>= fun _ => updateIOGas).on vm) := by
  rw [on_bind_congr (memNeed_on off₁ size₁), ← endOf]
  by_cases hbig₁ : 2 ^ 63 ≤ endOf off₁ size₁
  · rw [on_bind_of_error (toInt63_on_of_le hbig₁)]
    exact Pays.of_refused ⟨rfl, rfl, rfl, rfl⟩ hvm.memory
      (.inr (.inl (hbig₁.trans (le_max_left _ _))))
  rw [on_bind_of_ok (toInt63_on_of_lt (by omega)),
    on_bind_congr (memNeed_on off₂ size₂), ← endOf]
  by_cases hbig₂ : 2 ^ 63 ≤ endOf off₂ size₂
  · rw [on_bind_of_error (toInt63_on_of_le hbig₂)]
    exact Pays.of_refused ⟨rfl, rfl, rfl, rfl⟩ hvm.memory
      (.inr (.inl (hbig₂.trans (le_max_right _ _))))
  rw [on_bind_of_ok (toInt63_on_of_lt (by omega))]
  exact updateMem_pays hS hvm hexp (by omega) hrun

lemma setupBill_base_lt : (setupBill E vm).base < 2 ^ 34 := by
  have hcall := hS.call
  have hvalue := hS.callValueTransfer
  have hnew := hS.callNewAccount
  simp only [setupBill, callNewAccountGas, newAccountGas, transferGas]
  split_ifs <;> omega

/-- A call asks the host whether the account is new, and then its price is known. -/
lemma callStaticCosts_on :
    ∃ host asked, (callStaticCosts E).on vm =
      (memNeed (callRange vm 0) (callRange vm 1) >>= fun m =>
        memNeed (callRange vm 2) (callRange vm 3) >>= fun n =>
          updateMem E (max m n) >>= fun _ => updateIOGas).on
        ((vm.priced (setupBill E vm).base vm.m_newMemSize 0).quoted host asked
          (setupBill E vm).base) := by
  have hcall := hS.call
  have hbase := @setupBill_base_lt σ E vm hS
  have hsum : E.ext.evmSchedule.callGas + callNewAccountGas E vm < 2 ^ 34 :=
    (Nat.le_add_right _ _).trans_lt hbase
  obtain ⟨host, asked, hon⟩ := @chargeNewAccount_on σ E
    (vm.priced E.ext.evmSchedule.callGas vm.m_newMemSize 0) hS hcall
  refine ⟨host, asked, ?_⟩
  rw [callStaticCosts, on_get_bind, on_bind_of_ok (toInt63_on_of_lt (by omega)),
    on_bind_of_ok (setRunGas_on _), on_bind_of_ok hon,
    on_bind_of_ok (chargeValueTransfer_on hS hsum)]
  rfl

/-- The static costs of a call. -/
lemma callStaticCosts_pays (hF : Fetched E vm) :
    Pays E vm (setupBill E vm) ((callStaticCosts E).on vm) := by
  have hbase := @setupBill_base_lt σ E vm hS
  obtain ⟨host, asked, hon⟩ := @callStaticCosts_on σ E vm hS
  have hmeter := @meterable_priced σ E vm hF (setupBill E vm).base (by omega)
  rw [hon]
  have hpays := @memNeeds_pays σ E
    ((vm.priced (setupBill E vm).base vm.m_newMemSize 0).quoted host asked (setupBill E vm).base)
    hS ⟨hmeter.memory, hmeter.copy, hmeter.run⟩ rfl (show (setupBill E vm).base < 2 ^ 63 by omega)
    (callRange vm 0) (callRange vm 1) (callRange vm 2) (callRange vm 3)
  rw [show ((vm.priced (setupBill E vm).base vm.m_newMemSize 0).quoted host asked
    (setupBill E vm).base).m_copyMemSize = 0 from hF.copy] at hpays
  exact hpays.of_same ((sameFunds_priced _ _ _).trans (sameFunds_quoted _ _ _))

omit hS in
/-- What a call passes on, as the interpreter works it out. -/
lemma toNat_callGas (hgas : vm.m_io_gas < 2 ^ 64) :
    (callGas E vm).toNat = passedOn E vm vm.m_io_gas := by
  have hle : vm.m_io_gas - vm.m_io_gas / 64 < 2 ^ 256 := by omega
  rw [callGas, passedOn]
  split_ifs with hmode
  · rfl
  · have hmax : (BitVec.ofNat 256 (vm.m_io_gas - vm.m_io_gas / 64)).toNat =
        vm.m_io_gas - vm.m_io_gas / 64 := by
      rw [BitVec.toNat_ofNat, Nat.mod_eq_of_lt hle]
    dsimp only
    split_ifs with hlt
    · rw [BitVec.lt_def, hmax] at hlt
      rw [hmax, min_eq_right hlt.le]
    · rw [BitVec.lt_def, hmax] at hlt
      rw [min_eq_left (by omega)]

omit hS in
lemma expansionGas_zero : expansionGas E vm (roundUp 0) = 0 := by
  rw [expansionGas, roundUp, max_eq_left (by simp), Nat.sub_self]

omit hS in
/-- Whether gas that is passed on exceeds the means. -/
lemma exceeds_call_iff (hmem : E.ext.evmSchedule.memGas vm.m_mem.length < 2 ^ 63) (call : ℕ) :
    ({ base := 0, call := call } : Bill).Exceeds E vm ↔ 2 ^ 63 ≤ call ∨ vm.m_io_gas < call := by
  have hmax : max vm.m_mem.length (roundUp 0) = vm.m_mem.length := max_eq_left (by simp [roundUp])
  simp only [Bill.Exceeds, Bill.cost, expansionGas_zero, copyCost_zero, hmax]
  omega

omit hS in
/-- The gas that a call passes on is deducted, if it is there. -/
lemma passOnGas_pays (hgas : vm.m_io_gas < 2 ^ 64)
    (hmem : E.ext.evmSchedule.memGas vm.m_mem.length < 2 ^ 63) :
    Pays E vm { base := 0, call := passedOn E vm vm.m_io_gas } ((passOnGas E).on vm) := by
  rw [passOnGas, on_get_bind, toNat_callGas hgas]
  by_cases hbig : 2 ^ 63 ≤ passedOn E vm vm.m_io_gas
  · rw [on_bind_of_error (toInt63_on_of_le hbig)]
    exact Pays.of_refused ⟨rfl, rfl, rfl, rfl⟩ hmem ((exceeds_call_iff hmem _).mpr (.inl hbig))
  rw [on_bind_of_ok (toInt63_on_of_lt (by omega)), on_bind_of_ok (setRunGas_on _)]
  by_cases hshort : vm.m_io_gas < passedOn E vm vm.m_io_gas
  · rw [on_bind_of_error (updateIOGas_on.trans (if_pos hshort))]
    exact Pays.of_refused (sameFunds_priced _ _ _) hmem
      ((exceeds_call_iff hmem _).mpr (.inr hshort))
  · rw [on_bind_of_ok (updateIOGas_on.trans (if_neg hshort))]
    have hno : ¬ ({ base := 0, call := passedOn E vm vm.m_io_gas } : Bill).Exceeds E vm := by
      rw [exceeds_call_iff hmem]
      omega
    refine ⟨⟨⟨0, by simp [LegacyVM.deducted, LegacyVM.priced]⟩, id, hmem, rfl, rfl⟩,
      fun h => absurd h hno, fun _ => ⟨_, rfl⟩, fun _ => ?_, fun _ => ?_⟩
    · simp only [Bill.cost, expansionGas_zero, copyCost_zero]
      change vm.m_io_gas - passedOn E vm vm.m_io_gas + (0 + 0 + 0 + passedOn E vm vm.m_io_gas) = _
      omega
    · simp [LegacyVM.deducted, LegacyVM.priced, roundUp]

/-- The metering of a call: its static costs, and then the gas it passes on from what is left. -/
lemma caseCallSetup_pays (hF : Fetched E vm) (hgas : vm.m_io_gas < 2 ^ 64) :
    Pays E vm
      { setupBill E vm with call := passedOn E vm (vm.m_io_gas - (setupBill E vm).cost E vm) }
      ((caseCallSetup E).on vm) := by
  set b := setupBill E vm with hb
  have hcall : b.call = 0 := rfl
  have hstatic := callStaticCosts_pays hS hF
  have hquiet := (callStaticCosts_meters (E := E) (allowsMetering_quiet .CALL) rfl).within vm
  rw [← hb] at hstatic
  rw [caseCallSetup]
  rcases hon : (callStaticCosts E).on vm with ⟨r, vm₁⟩
  rw [hon] at hstatic hquiet
  set c := passedOn E vm (vm.m_io_gas - b.cost E vm) with hc
  have hcost : ({ b with call := c } : Bill).cost E vm = b.cost E vm + c := by
    rw [Bill.cost, Bill.cost, hcall, Nat.add_zero]
  by_cases hex : b.Exceeds E vm
  · -- The static costs are refused.
    obtain rfl : r = .error .OutOfGas := hstatic.refused hex
    have hex' : ({ b with call := c } : Bill).Exceeds E vm := by
      rw [Bill.Exceeds, hcall] at hex
      rw [Bill.Exceeds, hcost]
      dsimp only
      omega
    rw [on_bind_of_error hon]
    exact ⟨hstatic.accounted, fun _ => rfl, fun h => absurd hex' h, fun h => absurd hex' h,
      fun h => absurd hex' h⟩
  · -- They are paid, and what is left may be passed on.
    obtain ⟨a, ha⟩ := hstatic.accepted hex
    obtain rfl : r = .ok a := ha
    have hleft : vm₁.m_io_gas + b.cost E vm = vm.m_io_gas := hstatic.gas hex
    have hpass : passedOn E vm₁ vm₁.m_io_gas = c := by
      rw [hc, passedOn, passedOn, hquiet.SP, ← hleft, Nat.add_sub_cancel]
    have hpays := passOnGas_pays (E := E) (show vm₁.m_io_gas < 2 ^ 64 by omega)
      hstatic.accounted.memory
    rw [hpass] at hpays
    have hiff : ({ b with call := c } : Bill).Exceeds E vm ↔
        ({ base := 0, call := c } : Bill).Exceeds E vm₁ := by
      rw [exceeds_call_iff hstatic.accounted.memory, Bill.Exceeds, hcost]
      rw [Bill.Exceeds, hcall] at hex
      dsimp only
      omega
    rw [on_bind_of_ok hon]
    refine ⟨hstatic.accounted.trans hpays.accounted, fun h => hpays.refused (hiff.mp h),
      fun h => hpays.accepted fun h' => h (hiff.mpr h'), fun h => ?_, fun h => ?_⟩
    · have hg := hpays.gas fun h' => h (hiff.mpr h')
      simp only [Bill.cost, expansionGas_zero, copyCost_zero] at hg
      rw [hcost]
      omega
    · have hm := hpays.mem fun h' => h (hiff.mpr h')
      rw [hm, hstatic.mem hex]
      simp [roundUp]

/-! ### Every instruction -/

variable (hF : Fetched E vm)
include hF

omit hF in
lemma suicideNewAccountGas_lt : suicideNewAccountGas E vm < 2 ^ 32 := by
  have hnew := hS.callNewAccount
  rw [suicideNewAccountGas]
  split_ifs <;> omega

/-- The metering of `SUICIDE`. -/
lemma caseSUICIDE_pays :
    Pays E vm { base := E.ext.evmSchedule.suicideGas + suicideNewAccountGas E vm }
      ((caseSUICIDE E).charge.on vm) := by
  have hsuicide := hS.suicide
  have hnew := @suicideNewAccountGas_lt σ E vm hS
  obtain ⟨host, asked, hon⟩ := @suicideChecks_on σ E
    (vm.priced E.ext.evmSchedule.suicideGas vm.m_newMemSize 0) hS hsuicide
  change (suicideChecks E (asAddress (vm.SP 0))).on _ = _ at hon
  rw [caseSUICIDE, on_get_bind, on_bind_of_ok (toInt63_on_of_lt (by omega)),
    on_bind_of_ok (setRunGas_on _), on_bind_of_ok hon]
  have hpays := @updateIOGas_pays σ E
    ((vm.priced E.ext.evmSchedule.suicideGas vm.m_newMemSize 0).quoted host asked
      (E.ext.evmSchedule.suicideGas + suicideNewAccountGas E vm)) rfl hF.memory
    (show E.ext.evmSchedule.suicideGas + suicideNewAccountGas E vm < 2 ^ 63 by omega)
  exact hpays.of_same ((sameFunds_priced _ _ _).trans (sameFunds_quoted _ _ _))

/-- The metering of `SSTORE`. -/
lemma caseSSTORE_pays : Pays E vm { base := sstoreGas E vm } ((caseSSTORE E).charge.on vm) := by
  have hset := hS.sstoreSet
  have hreset := hS.sstoreReset
  have hlt : sstoreGas E vm < 2 ^ 63 := by
    rw [sstoreGas]
    split_ifs <;> omega
  obtain ⟨host, asked, hon⟩ := @updateSSGas_on σ E vm hS hF.expansion
  rw [caseSSTORE, on_bind_of_ok hon]
  exact (@updateIOGas_pays σ E (vm.quoted host asked (sstoreGas E vm)) hF.expansion hF.memory
    hlt).of_same (sameFunds_quoted _ _ _)

/-- The metering of `SHA3`. -/
lemma caseSHA3_pays :
    Pays E vm
      { base := E.ext.evmSchedule.sha3Gas +
          ((vm.SP 1).toNat + 31) / 32 * E.ext.evmSchedule.sha3WordGas
        need := endOf (vm.SP 0) (vm.SP 1) }
      ((caseSHA3 E).charge.on vm) := by
  have hsha3 := hS.sha3
  have hword : ((vm.SP 1).toNat + 31) / 32 * E.ext.evmSchedule.sha3WordGas ≤ 2 ^ 252 * 2 ^ 32 :=
    Nat.mul_le_mul (by have := (vm.SP 1).isLt; omega) hS.sha3Word.le
  rw [caseSHA3, on_get_bind, u512, Nat.mod_eq_of_lt (lt_u512 (by omega))]
  exact price_memNeed_pays hS hF _ _ _

/-- The metering of `LOG0` to `LOG4`. -/
lemma caseLOG_pays (n : Fin 5) :
    Pays E vm
      { base := E.ext.evmSchedule.logGas + E.ext.evmSchedule.logTopicGas * n +
          E.ext.evmSchedule.logDataGas * (vm.SP 1).toNat
        need := endOf (vm.SP 0) (vm.SP 1) }
      ((caseLOG E n).charge.on vm) := by
  have htopics : E.ext.evmSchedule.logGas + E.ext.evmSchedule.logTopicGas * n < 2 ^ 32 :=
    (Nat.add_le_add_left (Nat.mul_le_mul_left _ (Nat.le_of_lt_succ n.isLt)) _).trans_lt hS.log
  have hdata : E.ext.evmSchedule.logDataGas * (vm.SP 1).toNat ≤ 2 ^ 32 * 2 ^ 256 :=
    Nat.mul_le_mul hS.logData.le (vm.SP 1).isLt.le
  rw [caseLOG, logGasMem]
  simp only [bind_assoc]
  rw [on_get_bind, u32, Nat.mod_eq_of_lt htopics, u512,
    Nat.mod_eq_of_lt (lt_u512 (by omega))]
  exact price_memNeed_pays hS hF _ _ _

/-- The metering of `EXP`. -/
lemma caseEXP_pays :
    Pays E vm
      { base := E.ext.evmSchedule.expGas +
          E.ext.evmSchedule.expByteGas * (BigEndian.bytes (vm.SP 1).toNat).length }
      ((caseEXP E).charge.on vm) := by
  have hbytes : (BigEndian.bytes (vm.SP 1).toNat).length ≤ 32 :=
    BigEndian.length_bytes_le_iff.mpr (by simpa using (vm.SP 1).isLt)
  have hmul : E.ext.evmSchedule.expByteGas * (BigEndian.bytes (vm.SP 1).toNat).length ≤
      E.ext.evmSchedule.expByteGas * 32 := Nat.mul_le_mul_left _ hbytes
  have hexp := hS.exp
  rw [caseEXP, on_get_bind, significantBytes_eq, u32, u32, Nat.mod_eq_of_lt (by omega),
    Nat.mod_eq_of_lt (by omega)]
  exact fixedPrice_pays hF (by omega)

/-- The metering of `EXTCODECOPY`. -/
lemma caseEXTCODECOPY_pays :
    Pays E vm
      { base := E.ext.evmSchedule.extcodecopyGas
        need := endOf (vm.SP 1) (vm.SP 3)
        copy := (vm.SP 3).toNat }
      ((caseEXTCODECOPY E).charge.on vm) := by
  have hgas := hS.extcodecopy
  rw [caseEXTCODECOPY, on_bind_of_ok (toInt63_on_of_lt (by omega)),
    on_bind_of_ok (setRunGas_on _)]
  exact (@copyPrice_pays σ E (vm.priced E.ext.evmSchedule.extcodecopyGas vm.m_newMemSize 0) hS
    hF.memory rfl hgas (·.SP 1) (·.SP 3)).of_same (sameFunds_priced _ _ _)

/-- The metering of an instruction that copies, at the price of its tier. -/
lemma tier_copyPrice_pays :
    Pays E vm
      { base := tierGas E vm.m_OP, need := endOf (vm.SP 0) (vm.SP 2), copy := (vm.SP 2).toNat }
      ((copyPrice E (·.SP 0) (·.SP 2)).on vm) := by
  have hpays := copyPrice_pays hS hF.memory hF.expansion
    (by rw [hF.run]; exact tierGas_lt hS vm.m_OP) (·.SP 0) (·.SP 2)
  rwa [hF.run] at hpays

omit hS in
/-- The metering of `JUMPDEST`. -/
lemma caseJUMPDEST_pays : Pays E vm { base := 1 } ((caseJUMPDEST (σ := σ)).charge.on vm) := by
  rw [caseJUMPDEST, on_bind_of_ok (setRunGas_on _)]
  exact (@updateIOGas_pays σ E (vm.priced 1 vm.m_newMemSize 0) rfl hF.memory
    (show 1 < 2 ^ 63 by norm_num)).of_same (sameFunds_priced _ _ _)

/-- The metering of a call, which first clears the data of the last call. -/
lemma caseCall_pays {op : Instruction} (hop : vm.m_OP = op) (hcall : op.calls = true)
    (hgas : vm.m_io_gas < 2 ^ 64) (guard) :
    Pays E vm (bill E vm op) ((caseCall E guard).charge.on vm) := by
  have hF' : Fetched E { vm with m_returnData := .empty } :=
    ⟨hF.run, hF.copy, hF.expansion, hF.memory⟩
  have hsame : SameFunds vm { vm with m_returnData := .empty } := ⟨rfl, rfl, rfl, rfl⟩
  rw [caseCall, on_modify_bind, bill_eq_setupBill hop hcall]
  exact Pays.of_same hsame (caseCallSetup_pays hS hF' hgas)

/-- The metering of `CREATE` and `CREATE2`. -/
lemma caseCreate_pays {op : Instruction} (hop : vm.m_OP = op)
    (hcreate : op = .CREATE ∨ op = .CREATE2) (guard) :
    Pays E vm { base := E.ext.evmSchedule.createGas, need := (bill E vm op).need }
      ((caseCreate E guard).charge.on vm) := by
  have hgas : E.ext.evmSchedule.createGas < 2 ^ 63 := hS.create.trans (by norm_num)
  rw [caseCreate, on_bind_of_ok (toInt63_on_of_lt hgas),
    on_bind_of_ok (setRunGas_on _), on_get_bind, ← endOf_init hop hcreate]
  have hpays := memNeed_pays hS (meterable_priced hF hgas) rfl hgas (initOff vm) (initSize vm)
  rw [show (vm.priced E.ext.evmSchedule.createGas vm.m_newMemSize 0).m_copyMemSize = 0 from
    hF.copy] at hpays
  exact hpays.of_same (sameFunds_priced _ _ _)

/-- **Exact metering.** The metering of every instruction whose checks are passed pays its bill. -/
theorem charge_pays {op : Instruction}
    (hgas : op.asksFirst = true → vm.m_io_gas < 2 ^ 64) (hop : vm.m_OP = op)
    (hguard : ((interpretCase E op).guard.on vm).1 = .ok ()) :
    Pays E vm (bill E vm op) ((interpretCase E op).charge.on vm) := by
  have htier := tier_pays hS hF
  have hword (n : ℕ) (hn : n ≤ 32) := wordCharge_pays hS hF hn
  have houtput := outputCharge_pays hS hF
  have hcopy := tier_copyPrice_pays hS hF
  simp only [hop] at htier hword houtput hcopy
  cases op with
  | MLOAD | MSTORE => exact hword 32 le_rfl
  | MSTORE8 => exact hword 1 (by norm_num)
  | RETURN | REVERT => exact houtput
  | SHA3 => exact caseSHA3_pays hS hF
  | LOG n => exact caseLOG_pays hS hF n
  | EXP => exact caseEXP_pays hS hF
  | BALANCE => exact fixedPrice_pays hF (hS.balance.trans (by norm_num))
  | EXTCODESIZE => exact fixedPrice_pays hF (hS.extcodesize.trans (by norm_num))
  | BLOCKHASH => exact fixedPrice_pays hF (hS.blockhash.trans (by norm_num))
  | SLOAD => exact fixedPrice_pays hF (hS.sload.trans (by norm_num))
  | SSTORE => exact caseSSTORE_pays hS hF
  | JUMPDEST => exact caseJUMPDEST_pays hF
  | CALLDATACOPY | RETURNDATACOPY | CODECOPY => exact hcopy
  | EXTCODECOPY => exact caseEXTCODECOPY_pays hS hF
  | SUICIDE => exact caseSUICIDE_pays hS hF
  | CREATE => exact caseCreate_pays hS hF hop (.inl rfl) _
  | CREATE2 => exact caseCreate_pays hS hF hop (.inr rfl) _
  | CALL | CALLCODE | DELEGATECALL | STATICCALL => exact caseCall_pays hS hF hop rfl (hgas rfl) _
  | INVALID | unassigned | subroutine | simd =>
    exact absurd hguard (by simp [interpretCase, badInstruction])
  | _ => exact htier

end Modest

end Tos.Tvm
