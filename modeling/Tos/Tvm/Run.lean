import Tos.Tvm.Effects

/-!
# Runs of the interpreter

A round of the interpreter fetches an instruction, makes its checks, meters it and then carries it
out. What holds in every state of a run follows from what each of these parts does.

## Main results

* `step_cases`: a round ends in its metering, or carries out what was metered.
* `solvent_of_reached`: every state of a run is solvent.
* `metering_exact`: exact metering, in every round of every run.
* `memory_accounted`: the memory and its price, in every round of every run.
-/

namespace Tos.Tvm

variable {σ : Type} {E : Setup σ} {vm vm' : LegacyVM σ}

open Method

/-! ### The parts of a round -/

/-- The state after an instruction has been fetched. -/
def LegacyVM.fetched (E : Setup σ) (vm : LegacyVM σ) (op : Instruction) : LegacyVM σ :=
  { vm with
    m_OP := op
    m_SP := vm.m_SPP
    m_SPP := vm.m_SPP + op.metric.args - op.metric.ret
    m_runGas := tierGas E op
    m_newMemSize := vm.m_mem.length
    m_copyMemSize := 0
    ghost := { vm.ghost with expansion := 0 } }

/-- The byte of an opcode was read from the code, and the stack has the items for it and room for
its results. -/
structure Fetches (vm : LegacyVM σ) (op : Instruction) : Prop where
  code : ∃ b, vm.m_code[vm.m_PC]? = some b ∧ Instruction.ofByte b = op
  underflow : vm.m_SPP + op.metric.args ≤ 1024
  overflow : op.metric.ret ≤ vm.m_SPP + op.metric.args

/-- The stack has the items for an instruction and room for its results. -/
lemma adjustStack_on {removed added : ℕ} (hunder : vm.m_SPP + removed ≤ 1024)
    (hover : added ≤ vm.m_SPP + removed) :
    (adjustStack removed added).on vm =
      (.ok (), { vm with m_SP := vm.m_SPP, m_SPP := vm.m_SPP + removed - added }) := by
  rw [adjustStack, on_modify_bind, on_get_bind,
    on_bind_of_ok (by rw [on_onlyIf, if_neg (Nat.not_lt.mpr hunder)]), on_modify_bind, on_onlyIf,
    if_neg (Nat.not_lt.mpr hover)]

/-- The exceptions that are thrown before an instruction is metered. -/
def VMException.early : VMException → Bool
  | BadInstruction | OutOfStack _ _ | StackUnderflow _ _ | DisallowedStateChange
  | BufferOverrun _ _ | outOfBounds .m_code => true
  | _ => false

/-- The exceptions of the stack. -/
def VMException.isStack : VMException → Bool
  | OutOfStack _ _ | StackUnderflow _ _ => true
  | _ => false

lemma VMException.early_of_isStack {e : VMException} (h : e.isStack = true) : e.early = true := by
  cases e <;> first | rfl | cases h

lemma throwBadStack_on (removed added : ℕ) (size : ℤ) :
    ∃ e, (throwBadStack removed added size).on vm = (.error e, vm) ∧ e.isStack = true := by
  rw [throwBadStack, on_ite]
  split_ifs
  · exact ⟨_, rfl, rfl⟩
  · exact ⟨_, rfl, rfl⟩

/-- Where `m_SPP` points when the stack is at fault: behind the missing operands, or at the bottom
when there is no room for the results. -/
def LegacyVM.faultSPP (vm : LegacyVM σ) (removed added : ℕ) : ℕ :=
  if 1024 < vm.m_SPP + removed then vm.m_SPP + removed else vm.m_SPP + removed - added

/-- The state when the stack is at fault: nothing but three registers has changed. -/
def LegacyVM.atFault (vm : LegacyVM σ) (op : Instruction) : LegacyVM σ :=
  { vm with m_OP := op, m_SP := vm.m_SPP, m_SPP := vm.faultSPP op.metric.args op.metric.ret }

/-- The stack is at fault. -/
lemma adjustStack_on_error {removed added : ℕ}
    (h : ¬ (vm.m_SPP + removed ≤ 1024 ∧ added ≤ vm.m_SPP + removed)) :
    ∃ e, (adjustStack removed added).on vm =
      (.error e, { vm with m_SP := vm.m_SPP, m_SPP := vm.faultSPP removed added }) ∧
      e.isStack = true := by
  rw [adjustStack, on_modify_bind, on_get_bind, LegacyVM.faultSPP]
  by_cases hunder : 1024 < vm.m_SPP + removed
  · rw [if_pos hunder]
    obtain ⟨e, he, hstack⟩ := throwBadStack_on removed added _
    exact ⟨e, on_bind_of_error (by rw [on_onlyIf, if_pos hunder, he]), hstack⟩
  · rw [if_neg hunder, on_bind_of_ok (by rw [on_onlyIf, if_neg hunder]), on_modify_bind, on_onlyIf,
      if_pos (show vm.m_SPP + removed < added by omega)]
    exact throwBadStack_on removed added _

lemma codeByte_on {b : UInt8} {pc : ℕ} (h : vm.m_code[pc]? = some b) :
    (codeByte pc).on vm = (.ok b, vm) := by
  rw [codeByte, on_get_bind, h]
  rfl

variable (hS : E.ext.evmSchedule.Modest) {op : Instruction}

include hS in
lemma fetchInstruction_on (h : Fetches vm op) :
    (fetchInstruction E).on vm = (.ok (), vm.fetched E op) := by
  obtain ⟨⟨b, hb, rfl⟩, hunder, hover⟩ := h
  have htier := tierGas_lt hS (Instruction.ofByte b)
  rw [tierGas] at htier
  rw [fetchInstruction, on_get_bind, on_bind_of_ok (codeByte_on hb), on_modify_bind,
    on_bind_of_ok (@adjustStack_on σ { vm with m_OP := Instruction.ofByte b } _ _ hunder hover),
    on_bind_of_ok (toInt63_on_of_lt (by omega)), on_bind_of_ok (setRunGas_on _)]
  rfl

include hS in
/-- An instruction is fetched, or the round ends with the code or the stack at fault. -/
lemma fetchInstruction_cases (vm : LegacyVM σ) :
    (∃ op, Fetches vm op ∧ (fetchInstruction E).on vm = (.ok (), vm.fetched E op)) ∨
      ∃ e vm', (fetchInstruction E).on vm = (.error e, vm') ∧ SameFunds vm vm' ∧
        e.early = true := by
  rcases hb : vm.m_code[vm.m_PC]? with _ | b
  · refine .inr ⟨.outOfBounds .m_code, vm, ?_, ⟨rfl, rfl, rfl, rfl⟩, rfl⟩
    rw [fetchInstruction, on_get_bind]
    refine on_bind_of_error ?_
    rw [codeByte, on_get_bind, hb]
    rfl
  · set op := Instruction.ofByte b with hop
    by_cases hstack : vm.m_SPP + op.metric.args ≤ 1024 ∧ op.metric.ret ≤ vm.m_SPP + op.metric.args
    · have hf : Fetches vm op := ⟨⟨b, hb, rfl⟩, hstack.1, hstack.2⟩
      exact .inl ⟨op, hf, fetchInstruction_on hS hf⟩
    · obtain ⟨e, hon, he⟩ := @adjustStack_on_error σ { vm with m_OP := op } _ _ hstack
      refine .inr ⟨e, vm.atFault op, ?_, ⟨rfl, rfl, rfl, rfl⟩, VMException.early_of_isStack he⟩
      rw [fetchInstruction, on_get_bind, on_bind_of_ok (codeByte_on hb), on_modify_bind]
      exact on_bind_of_error hon

/-- The checks throw early exceptions only. -/
lemma guard_throws (op : Instruction) :
    Throws (fun e => e.early = true) (interpretCase E op).guard := by
  have hthrow (c : Prop) [Decidable c] {e : VMException} (he : e.early = true) :
      Throws (fun e => e.early = true) (throwIf c e : VM σ Unit) :=
    .ite (obeys_throw he) (obeys_pure _)
  cases op with
  | CREATE | CREATE2 | DELEGATECALL | STATICCALL | REVERT | SUICIDE | LOG | SHL | SHR | SAR
  | RETURNDATASIZE | SSTORE | PUSHC | JUMPC | JUMPCI => exact hthrow _ rfl
  | CALL => exact .bind obeys_get fun _ => hthrow _ rfl
  | RETURNDATACOPY =>
    exact .bind (hthrow _ rfl) fun _ => .bind obeys_get fun _ => hthrow _ rfl
  | INVALID | unassigned | subroutine | simd => exact obeys_throw rfl
  | _ => exact obeys_pure _

/-- An instruction is fetched and its checks are passed. -/
structure Dispatches (E : Setup σ) (vm : LegacyVM σ) (op : Instruction) : Prop where
  fetches : Fetches vm op
  guard : (interpretCase E op).guard.on (vm.fetched E op) = (.ok (), vm.fetched E op)

/-- A round up to the end of its metering. -/
def metering (E : Setup σ) : VM σ Unit := do
  fetchInstruction E
  let vm ← get
  (interpretCase E vm.m_OP).guard
  let _ ← (interpretCase E vm.m_OP).charge
  pure ()

include hS in
lemma step_on_of_dispatches (h : Dispatches E vm op) : (step E).on vm =
      ((interpretCase E op).charge >>= (interpretCase E op).effect).on (vm.fetched E op) := by
  rw [step, on_bind_of_ok (fetchInstruction_on hS h.fetches), on_get_bind]
  exact on_bind_of_ok h.guard

include hS in
lemma metering_on_of_dispatches (h : Dispatches E vm op) : (metering E).on vm =
      ((interpretCase E op).charge >>= fun _ => pure ()).on (vm.fetched E op) := by
  rw [metering, on_bind_of_ok (fetchInstruction_on hS h.fetches), on_get_bind]
  exact on_bind_of_ok h.guard

include hS in
/-- An instruction is dispatched, or the round ends before its metering. -/
theorem dispatches_cases (vm : LegacyVM σ) :
    (∃ op, Dispatches E vm op) ∨
      ∃ e vm', (metering E).on vm = (.error e, vm') ∧ (step E).on vm = (.error e, vm') ∧
        SameFunds vm vm' ∧ e.early = true := by
  rcases fetchInstruction_cases hS vm with ⟨op, hf, hon⟩ | ⟨e, vm₁, hon, hsame, hearly⟩
  swap
  · exact .inr ⟨e, vm₁, on_bind_of_error hon, on_bind_of_error hon, hsame, hearly⟩
  have hstate := guard_on (E := E) op (vm.fetched E op)
  rcases hg : (interpretCase E op).guard.on (vm.fetched E op) with ⟨e | u, vm₁⟩
  · obtain rfl : vm₁ = vm.fetched E op := by rw [hg] at hstate; exact hstate
    refine .inr ⟨e, vm.fetched E op, ?_, ?_, ⟨rfl, rfl, rfl, rfl⟩,
      (guard_throws op).throws _ e (by rw [hg])⟩
    · rw [metering, on_bind_of_ok hon, on_get_bind]
      exact on_bind_of_error hg
    · rw [step, on_bind_of_ok hon, on_get_bind]
      exact on_bind_of_error hg
  · obtain rfl : vm₁ = vm.fetched E op := by rw [hg] at hstate; exact hstate
    exact .inl ⟨op, hf, hg⟩

/-! ### What a run keeps -/

/-- What carrying out an instruction leaves as it is. -/
structure Steady (op : Instruction) (vm vm' : LegacyVM σ) : Prop where
  code : vm'.m_code = vm.m_code
  pool : vm'.m_pool = vm.m_pool
  jumpDests : vm'.m_jumpDests = vm.m_jumpDests
  SPP : vm'.m_SPP = vm.m_SPP
  paid : vm'.ghost.memoryPaid = vm.ghost.memoryPaid
  wrapped : vm'.ghost.wrapped = vm.ghost.wrapped
  fits : vm.m_io_gas < 2 ^ 64 → vm'.m_io_gas < 2 ^ 64
  gas : op.callsOut = false → vm'.m_io_gas = vm.m_io_gas
  size : op.givesOutput = false → vm'.m_mem.length = vm.m_mem.length

instance (op : Instruction) : Std.Refl (Steady (σ := σ) op) :=
  ⟨fun _ => ⟨rfl, rfl, rfl, rfl, rfl, rfl, id, fun _ => rfl, fun _ => rfl⟩⟩

instance (op : Instruction) : IsTrans (LegacyVM σ) (Steady op) where
  trans _ _ _ h₁ h₂ :=
    ⟨h₂.code.trans h₁.code, h₂.pool.trans h₁.pool, h₂.jumpDests.trans h₁.jumpDests,
      h₂.SPP.trans h₁.SPP, h₂.paid.trans h₁.paid, h₂.wrapped.trans h₁.wrapped,
      fun h => h₂.fits (h₁.fits h), fun h => (h₂.gas h).trans (h₁.gas h),
      fun h => (h₂.size h).trans (h₁.size h)⟩

lemma allows_steady (op : Instruction) : Allows op (Steady (σ := σ) op) := by
  have hsame {vm vm' : LegacyVM σ} (hr : (vm'.m_code, vm'.m_pool, vm'.m_jumpDests, vm'.m_SPP,
      vm'.ghost.memoryPaid, vm'.ghost.wrapped) = (vm.m_code, vm.m_pool, vm.m_jumpDests, vm.m_SPP,
      vm.ghost.memoryPaid, vm.ghost.wrapped)) (hgas : vm'.m_io_gas = vm.m_io_gas)
      (hsize : vm'.m_mem.length = vm.m_mem.length) : Steady op vm vm' := by
    simp only [Prod.mk.injEq] at hr
    obtain ⟨h1, h2, h3, h4, h5, h6⟩ := hr
    exact ⟨h1, h2, h3, h4, h5, h6, fun h => hgas ▸ h, fun _ => hgas, fun _ => hsize⟩
  refine ⟨fun _ _ _ => hsame rfl rfl rfl, fun _ _ _ _ => hsame rfl rfl rfl,
    fun _ => hsame rfl rfl rfl, fun _ _ => hsame rfl rfl rfl,
    fun _ _ => hsame rfl rfl rfl, fun _ _ => hsame rfl rfl rfl, fun _ _ _ _ => hsame rfl rfl rfl,
    fun _ _ h => hsame rfl rfl h, ?_, ?_⟩
  · intro hop vm
    exact ⟨rfl, rfl, rfl, rfl, rfl, rfl, id, fun _ => rfl, fun h => absurd hop (by simp [h])⟩
  · intro hop vm g hg
    exact ⟨rfl, rfl, rfl, rfl, rfl, rfl, fun _ => hg, fun h => absurd hop (by simp [h]),
      fun _ => rfl⟩

lemma effect_steady (op : Instruction) (a : (interpretCase E op).Local) :
    Within (Steady op) ((interpretCase E op).effect a) :=
  effect_within (allows_steady op) a

/-- The memory comes in whole words and was paid for, and no sum has wrapped. -/
structure Solvent (E : Setup σ) (vm : LegacyVM σ) : Prop where
  words : 32 ∣ vm.m_mem.length
  memory : E.ext.evmSchedule.memGas vm.m_mem.length < 2 ^ 63
  paid : vm.ghost.memoryPaid = E.ext.evmSchedule.memGas vm.m_mem.length
  wrapped : vm.ghost.wrapped = false

lemma Solvent.of_accounted (h : Solvent E vm) (ha : Accounted E vm vm') : Solvent E vm' where
  words := ha.words h.words
  memory := ha.memory
  paid := by
    have h1 := ha.paid
    have h2 := h.paid
    omega
  wrapped := ha.wrapped.trans h.wrapped

lemma Solvent.of_steady (h : Solvent E vm) (hs : Steady op vm vm')
    (hop : op.givesOutput = false) : Solvent E vm' where
  words := by rw [hs.size hop]; exact h.words
  memory := by rw [hs.size hop]; exact h.memory
  paid := by rw [hs.paid, hs.size hop]; exact h.paid
  wrapped := hs.wrapped.trans h.wrapped

/-- A memory that could be paid for fits a machine word. -/
lemma lt_of_memGas_lt {S : EVMSchedule} (hS : S.Modest) {n : ℕ} (h : S.memGas n < 2 ^ 63) :
    n < 2 ^ 63 := by
  by_contra hle
  have := memGas_of_le hS (Nat.not_lt.mp hle)
  omega

lemma sameFunds_fetched (op : Instruction) : SameFunds vm (vm.fetched E op) :=
  ⟨rfl, rfl, rfl, rfl⟩

include hS in
/-- The metering of an instruction that was dispatched pays its bill. -/
lemma Dispatches.pays (hmem : E.ext.evmSchedule.memGas vm.m_mem.length < 2 ^ 63)
    (hgas : op.asksFirst = true → vm.m_io_gas < 2 ^ 64) (hd : Dispatches E vm op) :
    Pays E (vm.fetched E op) (bill E (vm.fetched E op) op)
      ((interpretCase E op).charge.on (vm.fetched E op)) := by
  have hF : Fetched E (vm.fetched E op) := ⟨rfl, rfl, rfl, hmem⟩
  exact @charge_pays σ E (vm.fetched E op) hS hF op hgas rfl (by rw [hd.guard])

include hS in
/-- Metering accounts for the memory, whatever its outcome. -/
lemma metering_accounted (h : Solvent E vm)
    (hgas : vm.m_io_gas < 2 ^ 64) : Accounted E vm ((metering E).on vm).2 := by
  rcases dispatches_cases hS vm with ⟨op, hd⟩ | ⟨e, vm₁, hon, -, hsame, -⟩
  · have hacc := ((hd.pays hS h.memory fun _ => hgas).accounted).of_same (sameFunds_fetched op)
    rw [metering_on_of_dispatches hS hd, on_bind]
    rcases hc : (interpretCase E op).charge.on (vm.fetched E op) with ⟨e | a, vm₁⟩
    · rw [hc] at hacc
      exact hacc
    · rw [hc] at hacc
      exact hacc
  · rw [hon]
    exact hsame.accounted h.memory

/-- An instruction for which the memory is moved away ends the run. -/
lemma halts_of_givesOutput (hop : op.givesOutput = true)
    (a : (interpretCase E op).Local) (vm' : LegacyVM σ) :
    ((interpretCase E op).effect a).on vm ≠ (.ok .CONTINUE, vm') := by
  intro h
  cases op with
  | RETURN =>
    obtain ⟨_, _, -, h⟩ := on_bind_eq_ok.mp h
    cases h
  | REVERT =>
    obtain ⟨_, _, -, h⟩ := on_bind_eq_ok.mp h
    cases h
  | _ => cases hop

/-- What a round after which the interpreter goes on has done. -/
structure Round (E : Setup σ) (vm : LegacyVM σ) (op : Instruction)
    (a : (interpretCase E op).Local) (vm₁ vm' : LegacyVM σ) : Prop where
  dispatches : Dispatches E vm op
  charge : (interpretCase E op).charge.on (vm.fetched E op) = (.ok a, vm₁)
  effect : ((interpretCase E op).effect a).on vm₁ = (.ok .CONTINUE, vm')

include hS in
lemma round_of_goes (h : Goes E vm vm') : ∃ op a vm₁, Round E vm op a vm₁ vm' := by
  rcases dispatches_cases hS vm with ⟨op, hd⟩ | ⟨e, vm₁, -, hon, -⟩
  · rw [Goes, step_on_of_dispatches hS hd] at h
    obtain ⟨a, vm₁, hc, he⟩ := on_bind_eq_ok.mp h
    exact ⟨op, a, vm₁, hd, hc, he⟩
  · rw [Goes, hon] at h
    cases h

/-- Gas that was deducted was there. -/
lemma Pays.of_ok {α : Type} {b : Bill} {a : α}
    (h : Pays E vm b ((.ok a, vm') : Except VMException α × LegacyVM σ)) : ¬ b.Exceeds E vm := by
  intro hb
  have := h.refused hb
  cases this

include hS in
/-- One round keeps a solvent state solvent, and the gas within a machine word. -/
lemma Round.solvent (h : Solvent E vm)
    (hgas : vm.m_io_gas < 2 ^ 64) {a : (interpretCase E op).Local}
    {vm₁ : LegacyVM σ} (hr : Round E vm op a vm₁ vm') :
    Solvent E vm' ∧ vm'.m_io_gas < 2 ^ 64 ∧ vm.m_mem.length ≤ vm'.m_mem.length := by
  have hpays := hr.dispatches.pays hS h.memory fun _ => hgas
  rw [hr.charge] at hpays
  have hsteady : Steady op vm₁ vm' := by
    have := (effect_steady op a).within vm₁
    rwa [hr.effect] at this
  have hop : op.givesOutput = false := by
    by_contra hop
    exact halts_of_givesOutput (by simpa using hop) a vm' hr.effect
  have hacc : Accounted E vm vm₁ := hpays.accounted.of_same (sameFunds_fetched op)
  have hcost := hpays.gas hpays.of_ok
  refine ⟨(h.of_accounted hacc).of_steady hsteady hop, hsteady.fits ?_, ?_⟩
  · change vm₁.m_io_gas + _ = vm.m_io_gas at hcost
    omega
  · obtain ⟨n, hn⟩ := hacc.grown
    rw [hsteady.size hop, hn, List.length_append]
    omega

include hS in
/-- Every state of a run is solvent, and its gas fits a machine word. -/
theorem solvent_of_reached {gas : U256} {host : σ}
    (h : Reached E gas host vm) : Solvent E vm ∧ vm.m_io_gas < 2 ^ 64 := by
  induction h with
  | refl =>
    have hzero : E.ext.evmSchedule.memGas 0 = 0 := by simp [EVMSchedule.memGas]
    refine ⟨⟨Nat.dvd_zero _, ?_, hzero.symm, rfl⟩, Nat.mod_lt _ (Nat.two_pow_pos 64)⟩
    change E.ext.evmSchedule.memGas 0 < 2 ^ 63
    omega
  | tail _ hgo ih =>
    obtain ⟨op, a, vm₁, hr⟩ := round_of_goes hS hgo
    obtain ⟨hsolvent, hgas, -⟩ := hr.solvent hS ih.1 ih.2
    exact ⟨hsolvent, hgas⟩

/-! ### Exact metering -/

/-- A host that has nothing and does nothing. -/
def idleHost (evmSchedule : EVMSchedule) (code data : Buffer) : ExtVMFace Unit where
  evmSchedule
  envInfo := ⟨0, 0, 0, 0, 0⟩
  myAddress := 0
  caller := 0
  origin := 0
  value := 0
  gasPrice := 0
  data
  code
  depth := 0
  staticCall := false
  store _ h := (0, h)
  setStore _ _ h := h
  balance _ h := (0, h)
  codeAt _ h := (.empty, h)
  codeSizeAt _ h := (0, h)
  exists_ _ h := (false, h)
  suicide _ h := h
  create _ _ _ _ _ h := (⟨.empty, 0, 0⟩, h)
  call _ h := (⟨false, .empty, 0⟩, h)
  log _ _ h := h
  blockHash _ h := (0, h)
  addRefund _ h := h

/-- An interpreter for a host that has nothing. -/
def idleSetup (evmSchedule : EVMSchedule) (code : Buffer) : Setup Unit where
  ext := idleHost evmSchedule code .empty
  sha3 _ := 0
  EVM_OPTIMIZE := false

lemma effect_not_OutOfGas (op : Instruction) (a : (interpretCase E op).Local) :
    Throws (· ≠ .OutOfGas) ((interpretCase E op).effect a) :=
  effect_obeys (allows_anyhow op) a (by simp) (by simp) (by simp) (by simp) (by simp)

/-- A round that ends in its metering, for lack of gas. -/
structure Refused (E : Setup σ) (vm vm₁ : LegacyVM σ) : Prop where
  metering : (metering E).on vm = (.error .OutOfGas, vm₁)
  step : (step E).on vm = (.error .OutOfGas, vm₁)
  accounted : Accounted E vm vm₁

/-- A round that carries out an instruction, from the state in which that was paid for. -/
structure Carried (E : Setup σ) (vm : LegacyVM σ) (op : Instruction)
    (a : (interpretCase E op).Local) (vm₁ : LegacyVM σ) : Prop where
  charge : (interpretCase E op).charge.on (vm.fetched E op) = (.ok a, vm₁)
  metering : (metering E).on vm = (.ok (), vm₁)
  step : (step E).on vm = ((interpretCase E op).effect a).on vm₁
  accounted : Accounted E vm vm₁
  gas : vm₁.m_io_gas + (bill E (vm.fetched E op) op).cost E (vm.fetched E op) = vm.m_io_gas
  room : Room E op vm₁
  quiet : Quiet (vm.fetched E op) vm₁
  host : op.asksFirst = false → vm₁.host = vm.host
  mem : vm₁.m_mem = vm.m_mem ++ List.replicate
    (roundUp (bill E (vm.fetched E op) op).need - vm.m_mem.length) 0

/-- The end of the accesses depends on the registers only. -/
lemma need_of_quiet (h : Quiet vm vm') (op : Instruction) :
    (bill E vm' op).need = (bill E vm op).need := by
  cases op <;> simp only [bill, callBill, h.SP]

/-- Metering that asks nothing leaves the host as it is. -/
lemma charge_host (hop : op.asksFirst = false) (vm : LegacyVM σ) :
    ((interpretCase E op).charge.on vm).2.host = vm.host := by
  let R (vm vm' : LegacyVM σ) : Prop := vm'.host = vm.host
  have : Std.Refl R := ⟨fun _ => rfl⟩
  have : IsTrans (LegacyVM σ) R := ⟨fun _ _ _ h₁ h₂ => h₂.trans h₁⟩
  have hR : AllowsMetering op R :=
    ⟨fun _ _ _ _ _ _ _ _ => rfl, fun h => absurd hop (by simp [h]),
      fun h => absurd hop (by simp [h])⟩
  exact (charge_within hR).within vm

include hS in
/-- The outcome of a round in which an instruction was dispatched. -/
lemma Dispatches.outcome (hmem : E.ext.evmSchedule.memGas vm.m_mem.length < 2 ^ 63)
    (hgas : op.asksFirst = true → vm.m_io_gas < 2 ^ 64) (hd : Dispatches E vm op) :
    ((bill E (vm.fetched E op) op).Exceeds E (vm.fetched E op) ∧ ∃ vm₁, Refused E vm vm₁) ∨
      (¬ (bill E (vm.fetched E op) op).Exceeds E (vm.fetched E op) ∧
        ∃ a vm₁, Carried E vm op a vm₁) := by
  have hpays := hd.pays hS hmem hgas
  have hquiet := (charge_quiet (E := E) op).within (vm.fetched E op)
  have hhost (hop : op.asksFirst = false) := charge_host (E := E) hop (vm.fetched E op)
  have hstep := step_on_of_dispatches hS hd
  have hmeter := metering_on_of_dispatches hS hd
  rcases hc : (interpretCase E op).charge.on (vm.fetched E op) with ⟨r, vm₁⟩
  rw [hc] at hpays hquiet hhost
  have hacc : Accounted E vm vm₁ := hpays.accounted.of_same (sameFunds_fetched op)
  by_cases hb : (bill E (vm.fetched E op) op).Exceeds E (vm.fetched E op)
  · obtain rfl : r = .error .OutOfGas := hpays.refused hb
    exact .inl ⟨hb, vm₁, hmeter.trans (on_bind_of_error hc), hstep.trans (on_bind_of_error hc),
      hacc⟩
  · obtain ⟨a, rfl⟩ : ∃ a, r = .ok a := hpays.accepted hb
    have hext : vm₁.m_mem = _ := hpays.mem hb
    refine .inr ⟨hb, a, vm₁, hc, hmeter.trans (on_bind_of_ok hc), hstep.trans (on_bind_of_ok hc),
      hacc, hpays.gas hb, ⟨hquiet.m_OP, ?_, lt_of_memGas_lt hS hacc.memory⟩, hquiet, hhost, hext⟩
    -- The memory was extended to the end of the accesses, rounded up.
    rw [need_of_quiet hquiet, hext, List.length_append, List.length_replicate]
    have := le_roundUp (bill E (vm.fetched E op) op).need
    omega

/-- **Exact metering.** In every round of every run no sum or product of the metering wraps; gas is
missing exactly if a part of the exact price is too large or the gas does not cover the price; and
otherwise exactly the price is deducted. What an instruction does after its metering leaves the gas
as it is, except for what the host gives back to the instructions that call out. -/
theorem metering_exact (hS : E.ext.evmSchedule ∈ schedules) {gas : U256} {host : σ}
    (h : Reached E gas host vm) :
    ((step E).on vm).2.ghost.wrapped = false ∧
    ((∀ op, ¬ Dispatches E vm op) → ((step E).on vm).1 ≠ .error .OutOfGas) ∧
    ∀ op, Dispatches E vm op →
      let b := bill E (vm.fetched E op) op
      (((step E).on vm).1 = .error .OutOfGas ↔ b.Exceeds E (vm.fetched E op)) ∧
      (¬ b.Exceeds E (vm.fetched E op) →
        ((metering E).on vm).2.m_io_gas + b.cost E (vm.fetched E op) = vm.m_io_gas ∧
        (op.callsOut = false →
          ((step E).on vm).2.m_io_gas + b.cost E (vm.fetched E op) = vm.m_io_gas)) := by
  have hM := modest_of_mem hS
  obtain ⟨hsolvent, hgas⟩ := solvent_of_reached hM h
  refine ⟨?_, ?_, fun op hd => ?_⟩
  · rcases dispatches_cases hM vm with ⟨op, hd⟩ | ⟨e, vm₁, -, hon, hsame, -⟩
    · rcases hd.outcome hM hsolvent.memory fun _ => hgas with ⟨-, vm₁, hr⟩ | ⟨-, a, vm₁, hc⟩
      · rw [hr.step]
        exact (hsolvent.of_accounted hr.accounted).wrapped
      · rw [hc.step, ((effect_steady op a).within vm₁).wrapped]
        exact (hsolvent.of_accounted hc.accounted).wrapped
    · rw [hon]
      exact hsame.wrapped.trans hsolvent.wrapped
  · intro hno
    rcases dispatches_cases hM vm with ⟨op, hd⟩ | ⟨e, vm₁, -, hon, -, hearly⟩
    · exact absurd hd (hno op)
    · rw [hon]
      rintro ⟨rfl⟩
      cases hearly
  · rcases hd.outcome hM hsolvent.memory fun _ => hgas with ⟨hb, vm₁, hr⟩ | ⟨hb, a, vm₁, hc⟩
    · exact ⟨⟨fun _ => hb, fun _ => by rw [hr.step]⟩, fun hnot => absurd hb hnot⟩
    · refine ⟨⟨fun he => ?_, fun hnot => absurd hnot hb⟩, fun _ => ⟨?_, fun hop => ?_⟩⟩
      · rw [hc.step] at he
        exact absurd rfl ((effect_not_OutOfGas op a).throws vm₁ _ he)
      · rw [hc.metering]
        exact hc.gas
      · rw [hc.step, ((effect_steady op a).within vm₁).gas hop]
        exact hc.gas

/-- The state after so many rounds. -/
def stateAfter (E : Setup σ) (gas : U256) (host : σ) (rounds : ℕ) : LegacyVM σ :=
  (fun vm => ((step E).on vm).2)^[rounds] (initEntry E gas host)

/-- Rounds after each of which the interpreter goes on are a run. -/
lemma goes_stateAfter {gas : U256} {host : σ} {m n : ℕ} (hle : m ≤ n)
    (h : ∀ k < n, ((step E).on (stateAfter E gas host k)).1 = .ok .CONTINUE) :
    Relation.ReflTransGen (Goes E) (stateAfter E gas host m) (stateAfter E gas host n) := by
  induction n, hle using Nat.le_induction with
  | base => exact .refl
  | succ n _ ih =>
    refine .tail (ih fun k hk => h k (by omega)) (Prod.ext (h n n.lt_succ_self) ?_)
    exact (Function.iterate_succ_apply' (fun vm => ((step E).on vm).2) n _).symm

/-- The interpreter for the code without bytes. -/
def idle : Setup Unit := idleSetup frontierSchedule .empty

/-- The code `PUSH1 32 PUSH1 64 PUSH1 0 PUSH1 0 PUSH1 0 PUSH1 0 PUSH1 7 CALL`: a call with seven
units of gas whose output is written behind the second word of the memory. -/
def calling : Setup Unit :=
  idleSetup frontierSchedule
    ⟨[0x60, 32, 0x60, 64, 0x60, 0, 0x60, 0, 0x60, 0, 0x60, 0, 0x60, 7, 0xf1], by decide⟩

/-- The state before the call, with 30000 units of gas for the whole. -/
def beforeCall : LegacyVM Unit := stateAfter calling 30000 () 7

lemma beforeCall_reached : Reached calling 30000 () beforeCall :=
  goes_stateAfter (Nat.zero_le 7) (by decide +kernel)

lemma beforeCall_dispatches : Dispatches calling beforeCall .CALL where
  fetches := ⟨⟨0xf1, by decide +kernel, rfl⟩, by decide +kernel, by decide +kernel⟩
  guard := rfl

/-- The call pays for itself, for a new account, for three words of memory and for the gas it
passes on; nothing wraps. -/
theorem metering_exact_CALL :
    ((step calling).on beforeCall).2.ghost.wrapped = false ∧
    ((step calling).on beforeCall).1 ≠ .error .OutOfGas ∧
    ((metering calling).on beforeCall).2.m_io_gas + (40 + 25000 + 9 + 7) = 30000 - 7 * 3 := by
  obtain ⟨hwrapped, -, hexact⟩ := @metering_exact Unit calling beforeCall
    (by simp [calling, idleSetup, idleHost, schedules]) _ _ beforeCall_reached
  obtain ⟨hiff, hgas⟩ := hexact .CALL beforeCall_dispatches
  have hcost : (bill calling (beforeCall.fetched calling .CALL) .CALL).cost calling
      (beforeCall.fetched calling .CALL) = 40 + 25000 + 9 + 7 := by decide +kernel
  have hcovered : ¬ (bill calling (beforeCall.fetched calling .CALL) .CALL).Exceeds calling
      (beforeCall.fetched calling .CALL) := by decide +kernel
  have hfunds : beforeCall.m_io_gas = 30000 - 7 * 3 := by decide +kernel
  rw [← hcost, ← hfunds]
  exact ⟨hwrapped, hiff.not.mpr hcovered, (hgas hcovered).1⟩

/-! ### The memory and its price -/

/-- The memory comes in whole words, and what was charged for its expansion is what `gasForMem`
gives for its size. -/
structure PaidFor (E : Setup σ) (vm : LegacyVM σ) : Prop where
  words : 32 ∣ vm.m_mem.length
  paid : (gasForMem E vm.m_mem.length).on vm = (.ok vm.ghost.memoryPaid, vm)

include hS in
lemma Solvent.paidFor (h : Solvent E vm) : PaidFor E vm where
  words := h.words
  paid := by
    have hfits := lt_of_memGas_lt hS h.memory
    rw [gasForMem_on hS (by omega), toInt63_on_of_lt h.memory, h.paid]

include hS in
/-- Along a run the memory never shrinks. -/
lemma size_mono {gas : U256} {host : σ}
    (h : Reached E gas host vm) (hrun : Relation.ReflTransGen (Goes E) vm vm') :
    vm.m_mem.length ≤ vm'.m_mem.length := by
  induction hrun with
  | refl => exact le_rfl
  | tail hrun hgo ih =>
    obtain ⟨op, a, vm₁, hr⟩ := round_of_goes hS hgo
    obtain ⟨hsolvent, hgas⟩ := solvent_of_reached hS (h.trans hrun)
    exact ih.trans (hr.solvent hS hsolvent hgas).2.2

/-- **Memory accounting.** In every state of a run the memory comes in whole words, it has not
shrunk since any earlier state, and what was charged for its expansion is the price of its size.
When the next instruction has been metered, this is still so, and no access that follows is outside
of the memory of that moment; what follows charges nothing more, and the size stays the same unless
the memory is moved away for the output. -/
theorem memory_accounted (hS : E.ext.evmSchedule ∈ schedules) {gas : U256} {host : σ}
    (h : Reached E gas host vm) (hrun : Relation.ReflTransGen (Goes E) vm vm') :
    PaidFor E vm' ∧ vm.m_mem.length ≤ vm'.m_mem.length ∧
    let vm₁ := ((metering E).on vm').2
    let r := (step E).on vm'
    PaidFor E vm₁ ∧ vm'.m_mem.length ≤ vm₁.m_mem.length ∧
    r.1 ≠ .error (.outOfBounds .m_mem) ∧ r.2.ghost.memoryPaid = vm₁.ghost.memoryPaid ∧
    ((∀ op, Dispatches E vm' op → op.givesOutput = false) →
      r.2.m_mem.length = vm₁.m_mem.length) := by
  have hM := modest_of_mem hS
  obtain ⟨hsolvent, hgas⟩ := solvent_of_reached hM (h.trans hrun)
  have hacc := metering_accounted hM hsolvent hgas
  obtain ⟨n, hn⟩ := hacc.grown
  refine ⟨hsolvent.paidFor hM, size_mono hM h hrun, (hsolvent.of_accounted hacc).paidFor hM,
    by rw [hn, List.length_append]; omega, ?_⟩
  rcases dispatches_cases hM vm' with ⟨op, hd⟩ | ⟨e, vm₁, hmeter, hon, -, hearly⟩
  · rcases hd.outcome hM hsolvent.memory fun _ => hgas with ⟨-, vm₁, hr⟩ | ⟨-, a, vm₁, hc⟩
    · rw [hr.step, hr.metering]
      exact ⟨by simp, rfl, fun _ => rfl⟩
    · have hsteady := (effect_steady op a).within vm₁
      rw [hc.step, hc.metering]
      exact ⟨effect_inside op a hc.room, hsteady.paid, fun hop => hsteady.size (hop op hd)⟩
  · rw [hon, hmeter]
    refine ⟨?_, rfl, fun _ => rfl⟩
    rintro ⟨rfl⟩
    cases hearly

/-- The code `JUMPDEST MSIZE MSIZE MSTORE PUSH1 0 JUMP`: a loop that stores behind the memory. -/
def growing : Setup Unit :=
  idleSetup frontierSchedule ⟨[0x5b, 0x59, 0x59, 0x52, 0x60, 0, 0x56], by decide⟩

/-- With 100 units of gas the loop comes to its second store. -/
lemma growing_goes :
    ∀ k < 9, ((step growing).on (stateAfter growing 100 () k)).1 = .ok .CONTINUE := by
  decide +kernel

/-- From the first store of the loop to the second one: a word was paid for, the second one is paid
for before it is written, and it is written inside of the memory. -/
theorem memory_accounted_growing :
    let first := stateAfter growing 100 () 3
    let second := stateAfter growing 100 () 9
    first.m_mem.length = 0 ∧ second.m_mem.length = 32 ∧ PaidFor growing second ∧
    PaidFor growing ((metering growing).on second).2 ∧
    ((step growing).on second).1 ≠ .error (.outOfBounds .m_mem) ∧
    ((step growing).on second).2.ghost.memoryPaid = 6 ∧
    ((step growing).on second).2.m_mem.length = 64 := by
  obtain ⟨hpaid, -, hmetered, -, hinside, hcharged, hsize⟩ :=
    memory_accounted (E := growing) (by simp [growing, idleSetup, idleHost, schedules])
      (goes_stateAfter (Nat.zero_le 3) fun k hk => growing_goes k (by omega))
      (goes_stateAfter (show 3 ≤ 9 by norm_num) growing_goes)
  have hstore (op : Instruction) (h : Dispatches growing (stateAfter growing 100 () 9) op) :
      op.givesOutput = false := by
    obtain ⟨b, hb, rfl⟩ := h.fetches.code
    rw [show (stateAfter growing 100 () 9).m_code[(stateAfter growing 100 () 9).m_PC]? = some 0x52
      by decide +kernel] at hb
    obtain rfl := Option.some.inj hb
    rfl
  exact ⟨by decide +kernel, by decide +kernel, hpaid, hmetered, hinside,
    hcharged.trans (by decide +kernel), (hsize hstore).trans (by decide +kernel)⟩

end Tos.Tvm
