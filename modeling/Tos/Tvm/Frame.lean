import Tos.Tvm.Optimize

/-!
# What metering leaves alone

The checks of a case leave the state as it is. Its metering changes gas and memory and may ask the
host, but it leaves the stack, the program counter and the code as they are, and it does not ask
the host to act.

## Main results

* `guard_on`: checks leave the state as it is.
* `charge_within`: the metering of every instruction does only what is allowed for it.
* `charge_quiet`: the metering of every instruction is quiet.
-/

namespace Tos.Tvm

variable {σ : Type} {E : Setup σ} {vm vm' : LegacyVM σ}

/-- Whether a call asks the host to do something, and not only for something. -/
def HostCall.acts : HostCall → Bool
  | setStore _ _ | suicide _ | create _ _ _ _ _ | call _ | log _ _ => true
  | _ => false

/-- The part of the state that metering leaves as it is. -/
structure Registers where
  stack : ℕ → U256
  SP : ℕ
  SPP : ℕ
  PC : ℕ
  code : Bytes
  pool : List U256
  jumpDests : List ℕ
  OP : Instruction
  output : Bytes

/-- The registers of a state. -/
def LegacyVM.registers (vm : LegacyVM σ) : Registers where
  stack := vm.m_stack
  SP := vm.m_SP
  SPP := vm.m_SPP
  PC := vm.m_PC
  code := vm.m_code
  pool := vm.m_pool
  jumpDests := vm.m_jumpDests
  OP := vm.m_OP
  output := vm.m_output

/-- Only gas, memory and what belongs to them has changed, and the host was not asked to act. -/
structure Quiet (vm vm' : LegacyVM σ) : Prop where
  registers : vm'.registers = vm.registers
  asked : ∃ l, vm'.ghost.asked = l ++ vm.ghost.asked ∧ ∀ c ∈ l, c.acts = false

/-- Nothing of the registers has changed, and the host was not asked. -/
lemma Quiet.of_eq (hr : vm'.registers = vm.registers) (ha : vm'.ghost.asked = vm.ghost.asked) :
    Quiet vm vm' := ⟨hr, [], ha, by simp⟩

instance : Std.Refl (Quiet (σ := σ)) := ⟨fun _ => .of_eq rfl rfl⟩

instance : IsTrans (LegacyVM σ) Quiet where
  trans _ _ _ h₁ h₂ := by
    obtain ⟨l₁, hl₁, hc₁⟩ := h₁.asked
    obtain ⟨l₂, hl₂, hc₂⟩ := h₂.asked
    refine ⟨h₂.registers.trans h₁.registers, l₂ ++ l₁, by rw [hl₂, hl₁, List.append_assoc], ?_⟩
    intro c hc
    exact (List.mem_append.mp hc).elim (hc₂ c) (hc₁ c)

namespace Quiet

/-- The operands are the same. -/
lemma SP (h : Quiet vm vm') (i : ℕ) : vm'.SP i = vm.SP i := by
  have hstack := congrArg Registers.stack h.registers
  have hSP := congrArg Registers.SP h.registers
  change vm'.m_stack (vm'.m_SP + i) = vm.m_stack (vm.m_SP + i)
  rw [show vm'.m_stack = vm.m_stack from hstack, show vm'.m_SP = vm.m_SP from hSP]

/-- The instruction is the same. -/
lemma m_OP (h : Quiet vm vm') : vm'.m_OP = vm.m_OP := congrArg Registers.OP h.registers

/-- The place of the result is the same. -/
lemma m_SPP (h : Quiet vm vm') : vm'.m_SPP = vm.m_SPP := congrArg Registers.SPP h.registers

/-- The stack is the same. -/
lemma m_stack (h : Quiet vm vm') : vm'.m_stack = vm.m_stack := congrArg Registers.stack h.registers

end Quiet

/-! ### The functions of the metering -/

open Method

/-- The instructions whose metering asks the host. -/
def Instruction.asksFirst : Instruction → Bool
  | .SSTORE | .SUICIDE | .CALL | .CALLCODE | .DELEGATECALL | .STATICCALL => true
  | _ => false

/-- A relation that allows all that the metering of an instruction may do: it changes gas, memory
and what belongs to them, and asks the host for something. -/
structure AllowsMetering (op : Instruction) (R : LegacyVM σ → LegacyVM σ → Prop) : Prop where
  funds : ∀ vm gas mem run size copy (ghost : Ghost), ghost.asked = vm.ghost.asked →
    R vm { vm with
      m_io_gas := gas
      m_mem := mem
      m_runGas := run
      m_newMemSize := size
      m_copyMemSize := copy
      ghost }
  host : op.asksFirst = true → ∀ vm c h, c.acts = false → R vm (vm.afterAsking c h)
  returnData : op.asksFirst = true → ∀ vm b, R vm { vm with m_returnData := b }

section Metering

variable {op : Instruction} {R : LegacyVM σ → LegacyVM σ → Prop} [Std.Refl R]

/-- A conversion throws or returns. -/
lemma toInt63_meters (v : ℕ) : Within R (toInt63 v) :=
  .ite (obeys_throw trivial) (obeys_pure _)

/-- The need of memory is computed. -/
lemma memNeed_meters (offset size : U256) : Within R (memNeed offset size) :=
  toInt63_meters _

/-- The gas for memory is computed. -/
lemma gasForMem_meters (size : ℕ) : Within R (gasForMem E size) := toInt63_meters _

variable [IsTrans (LegacyVM σ) R]

/-- The check of the gas. -/
lemma checkGas_meters : Within R (checkGas) :=
  .bind obeys_get fun _ => .onlyIf (obeys_throw trivial)

variable (h : AllowsMetering op R)

include h

/-- A sum in 64 bits. -/
lemma word64_meters (n : ℕ) : Within R (word64 n) :=
  .bind (obeys_modify fun vm => h.funds vm _ _ _ _ _ _ rfl) fun _ => obeys_pure _

omit [Std.Refl R] [IsTrans (LegacyVM σ) R] in
/-- The gas of the instruction is set. -/
lemma setRunGas_meters (n : ℕ) : Within R (setRunGas n) :=
  obeys_modify fun vm => h.funds vm _ _ _ _ _ _ rfl

/-- The gas of the instruction grows. -/
lemma addRunGas_meters (n : ℕ) : Within R (addRunGas n) :=
  .bind obeys_get fun _ => .bind (word64_meters h _) fun _ =>
    obeys_modify fun vm => h.funds vm _ _ _ _ _ _ rfl

omit [Std.Refl R] [IsTrans (LegacyVM σ) R] in
/-- The size of a copy is set. -/
lemma setCopyMemSize_meters (n : ℕ) : Within R (setCopyMemSize n) :=
  obeys_modify fun vm => h.funds vm _ _ _ _ _ _ rfl

/-- The gas is paid. -/
lemma updateIOGas_meters : Within R (updateIOGas) :=
  .bind checkGas_meters fun _ => obeys_modify fun vm => h.funds vm _ _ _ _ _ _ rfl

/-- More memory is charged for. -/
lemma chargeExpansion_meters : Within R (chargeExpansion E) :=
  .bind obeys_get fun _ => .bind (gasForMem_meters _) fun _ => .bind (gasForMem_meters _) fun _ =>
    .bind (toInt63_meters _) fun _ => .bind (addRunGas_meters h _) fun _ =>
      obeys_modify fun vm => h.funds vm _ _ _ _ _ _ rfl

/-- A copy is charged for. -/
lemma chargeCopy_meters : Within R (chargeCopy E) :=
  .bind obeys_get fun _ => .bind (word64_meters h _) fun _ => .bind (word64_meters h _) fun _ =>
    addRunGas_meters h _

/-- Memory and copy together. -/
lemma updateGas_meters : Within R (updateGas E) :=
  .bind obeys_get fun _ => .bind (.onlyIf (chargeExpansion_meters h)) fun _ =>
    .bind (chargeCopy_meters h) fun _ => checkGas_meters

/-- The memory grows to the need. -/
lemma updateMem_meters (need : ℕ) : Within R (updateMem E need) :=
  .bind (word64_meters h _) fun _ => .bind (word64_meters h _) fun _ =>
    .bind (obeys_modify fun vm => h.funds vm _ _ _ _ _ _ rfl) fun _ =>
      .bind (updateGas_meters h) fun _ => obeys_modify fun vm => h.funds vm _ _ _ _ _ _ rfl

/-- `updateMem` and `updateIOGas`, with which most of the cases end their metering. -/
lemma updateMem_updateIOGas_meters (need : ℕ) :
    Within R (updateMem E need >>= fun _ => updateIOGas) :=
  .bind (updateMem_meters h _) fun _ => updateIOGas_meters h

/-- A question to the host. -/
lemma ask_meters {α : Type} {c : HostCall} (hop : op.asksFirst = true) (hc : c.acts = false)
    (method : σ → α × σ) : Within R (ask c method : VM σ α) :=
  .bind obeys_get fun _ => .bind (obeys_modify fun vm => h.host hop vm _ _ hc) fun _ =>
    obeys_pure _

omit [Std.Refl R] [IsTrans (LegacyVM σ) R] in
/-- A note to the host. -/
lemma tell_meters {c : HostCall} (hop : op.asksFirst = true) (hc : c.acts = false)
    (method : σ → σ) : Within R (tell c method) :=
  obeys_modify fun vm => h.host hop vm _ _ hc

/-- The price of a write to the storage. -/
lemma updateSSGas_meters (hop : op.asksFirst = true) : Within R (updateSSGas E) :=
  .bind obeys_get fun _ => .bind (ask_meters h hop rfl _) fun _ => .ite
    (.bind (toInt63_meters _) fun _ => setRunGas_meters h _)
    (.bind (ask_meters h hop rfl _) fun _ => .bind (toInt63_meters _) fun _ =>
      .bind (setRunGas_meters h _) fun _ => .onlyIf (tell_meters h hop rfl _))

/-- A price of its own, and what follows. -/
lemma price_meters {m : VM σ Unit} (hm : Within R m) (gas : ℕ) :
    Within R (toInt63 gas >>= fun gas => setRunGas gas >>= fun _ => m) :=
  .bind (toInt63_meters _) fun _ => .bind (setRunGas_meters h _) fun _ => hm

/-- A price that is known. -/
lemma fixedPrice_meters (gas : ℕ) : Within R (fixedPrice gas) :=
  price_meters h (updateIOGas_meters h) gas

/-- The metering from `memNeed` on. -/
lemma needed_meters (offset size : U256) :
    Within R (memNeed offset size >>= fun need => updateMem E need >>= fun _ => updateIOGas) :=
  .bind (memNeed_meters _ _) fun _ => updateMem_updateIOGas_meters h _

/-- The price of a copy to memory. -/
lemma copyPrice_meters (offset size : LegacyVM σ → U256) : Within R (copyPrice E offset size) :=
  .bind obeys_get fun _ => .bind (toInt63_meters _) fun _ =>
    .bind (setCopyMemSize_meters h _) fun _ => needed_meters h _ _

/-- The price of the output. -/
lemma outputCharge_meters : Within R (outputCharge E) :=
  .bind obeys_get fun _ => .bind (setCopyMemSize_meters h _) fun _ => needed_meters h _ _

/-- The price of a word in memory. -/
lemma wordCharge_meters (n : ℕ) : Within R (wordCharge E n) :=
  .bind obeys_get fun _ => .bind (toInt63_meters _) fun _ => .bind (word64_meters h _) fun _ =>
    updateMem_updateIOGas_meters h _

/-- The price of a new account at `SUICIDE`. -/
lemma suicideChecks_meters (hop : op.asksFirst = true) (dest : Address) :
    Within R (suicideChecks E dest) :=
  .bind (ask_meters h hop rfl _) fun _ => .onlyIf (.onlyIf
    (.bind (ask_meters h hop rfl _) fun _ => .onlyIf (addRunGas_meters h _)))

/-- The price of a new account at a call. -/
lemma chargeNewAccount_meters (hop : op.asksFirst = true) : Within R (chargeNewAccount E) :=
  .bind obeys_get fun _ => .onlyIf (.bind (ask_meters h hop rfl _) fun _ =>
    .onlyIf (.bind (toInt63_meters _) fun _ => addRunGas_meters h _))

/-- The price of a transfer. -/
lemma chargeValueTransfer_meters : Within R (chargeValueTransfer E) :=
  .bind obeys_get fun _ => .onlyIf (.bind (toInt63_meters _) fun _ => addRunGas_meters h _)

/-- What a call costs before its gas is passed on. -/
lemma callStaticCosts_meters (hop : op.asksFirst = true) : Within R (callStaticCosts E) :=
  .bind obeys_get fun _ => .bind (toInt63_meters _) fun _ => .bind (setRunGas_meters h _) fun _ =>
    .bind (chargeNewAccount_meters h hop) fun _ => .bind (chargeValueTransfer_meters h) fun _ =>
      .bind (memNeed_meters _ _) fun _ => .bind (memNeed_meters _ _) fun _ =>
        updateMem_updateIOGas_meters h _

/-- The gas that is passed on. -/
lemma passOnGas_meters : Within R (passOnGas E) :=
  .bind obeys_get fun _ => .bind (toInt63_meters _) fun _ => .bind (setRunGas_meters h _) fun _ =>
    .bind (updateIOGas_meters h) fun _ => obeys_pure _

/-- The four calls. -/
lemma caseCall_meters (hop : op.asksFirst = true) (guard) : Within R (caseCall E guard).charge :=
  .bind (obeys_modify fun vm => h.returnData hop vm _) fun _ =>
    .bind (callStaticCosts_meters h hop) fun _ => passOnGas_meters h

/-- `CREATE` and `CREATE2`. -/
lemma caseCreate_meters (guard) : Within R (caseCreate E guard).charge :=
  price_meters h (.bind obeys_get fun _ => needed_meters h _ _) _

/-- The metering of every instruction does only what is allowed for it.

**Proof sketch.** One case for each kind of metering: a chain of the functions above, put together
by `Obeys.bind`. -/
theorem charge_within : Within R (interpretCase E op).charge := by
  cases op with
  | MLOAD | MSTORE | MSTORE8 => exact wordCharge_meters h _
  | RETURN | REVERT => exact outputCharge_meters h
  | SHA3 => exact .bind obeys_get fun _ => price_meters h (needed_meters h _ _) _
  | LOG n =>
    exact .bind (.bind obeys_get fun _ => price_meters h
      (.bind (memNeed_meters _ _) fun _ => updateMem_meters h _) _) fun _ => updateIOGas_meters h
  | EXP => exact .bind obeys_get fun _ => fixedPrice_meters h _
  | BALANCE | EXTCODESIZE | BLOCKHASH | SLOAD => exact fixedPrice_meters h _
  | SSTORE => exact .bind (updateSSGas_meters h rfl) fun _ => updateIOGas_meters h
  | JUMPDEST => exact .bind (setRunGas_meters h _) fun _ => updateIOGas_meters h
  | CALLDATACOPY | RETURNDATACOPY | CODECOPY => exact copyPrice_meters h _ _
  | EXTCODECOPY => exact price_meters h (copyPrice_meters h _ _) _
  | SUICIDE =>
    exact .bind obeys_get fun _ => price_meters h
      (.bind (suicideChecks_meters h rfl _) fun _ => updateIOGas_meters h) _
  | CREATE | CREATE2 => exact caseCreate_meters h _
  | CALL | CALLCODE | DELEGATECALL | STATICCALL => exact caseCall_meters h rfl _
  | INVALID | unassigned | subroutine | simd => exact obeys_pure _
  | _ => exact updateIOGas_meters h

end Metering

/-! ### Every instruction -/

/-- A quiet change is all that metering makes. -/
lemma allowsMetering_quiet (op : Instruction) : AllowsMetering op (Quiet (σ := σ)) :=
  ⟨fun _ _ _ _ _ _ _ ha => .of_eq rfl ha, fun _ _ c _ hc => ⟨rfl, [c], rfl, by simpa using hc⟩,
    fun _ _ _ => .of_eq rfl rfl⟩

/-- The metering of every instruction is quiet. -/
theorem charge_quiet (op : Instruction) : Within Quiet (interpretCase E op).charge :=
  charge_within (allowsMetering_quiet op)

/-- The checks of every instruction leave the state as it is. -/
theorem guard_on (op : Instruction) (vm : LegacyVM σ) :
    ((interpretCase E op).guard.on vm).2 = vm := by
  have hthrow (c : Prop) [Decidable c] (e : VMException) (vm : LegacyVM σ) :
      ((throwIf c e).on vm).2 = vm := by
    rw [throwIf, on_onlyIf]
    split_ifs <;> rfl
  cases op with
  | CREATE | CREATE2 | DELEGATECALL | STATICCALL | REVERT | SUICIDE | LOG | SHL | SHR | SAR
  | RETURNDATASIZE | SSTORE | PUSHC | JUMPC | JUMPCI => exact hthrow _ _ _
  | CALL => exact hthrow _ _ _
  | RETURNDATACOPY =>
    change ((throwIf _ _ >>= fun _ => _).on vm).2 = vm
    rw [throwIf, on_bind, on_onlyIf]
    split_ifs
    · rfl
    · exact hthrow _ _ _
  | _ => rfl

end Tos.Tvm
