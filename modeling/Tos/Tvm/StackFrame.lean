import Tos.Tvm.Run

/-!
# The stack frame of an instruction

The cases of the interpreter write to the stack through two cursors: `m_SP`, at which the operands
begin, and `m_SPP`, at which the results begin. `adjustStack` sets both from the table of the
instructions before anything else is done. So an instruction that returns has changed the height of
the stack as its entry in the table says and nothing below its operands, and one for which there are
too few items or too little room ends the run before it has done anything.

## Main results

* `effect_framed`: what an instruction writes is above the end of its operands.
* `step_framed`: one round.
* `stack_framed`: every instruction, in every state of a run.
-/

namespace Tos.Tvm

variable {σ : Type} {E : Setup σ} {vm vm' : LegacyVM σ}

open Method

/-- The number of items on the stack. -/
def LegacyVM.height (vm : LegacyVM σ) : ℕ := 1024 - vm.m_SPP

/-- The items on the stack, from its bottom. -/
def LegacyVM.fromBottom (vm : LegacyVM σ) (i : ℕ) : U256 := vm.m_stack (1023 - i)

/-! ### What an instruction writes -/

/-- The operands and the result of an instruction are above the place `k` of the stack. -/
structure Above (op : Instruction) (k : ℕ) (vm : LegacyVM σ) : Prop where
  operands : vm.m_SP + op.metric.args ≤ k
  result : 0 < op.metric.ret → vm.m_SPP < k

/-- From a state whose operands and result are above `k`, nothing changes from there on. -/
def Framed (op : Instruction) (k : ℕ) (vm vm' : LegacyVM σ) : Prop :=
  Above op k vm → Above op k vm' ∧ vm'.m_SPP = vm.m_SPP ∧
    ∀ i, k ≤ i → vm'.m_stack i = vm.m_stack i

instance (op : Instruction) (k : ℕ) : Std.Refl (Framed (σ := σ) op k) :=
  ⟨fun _ h => ⟨h, rfl, fun _ _ => rfl⟩⟩

instance (op : Instruction) (k : ℕ) : IsTrans (LegacyVM σ) (Framed op k) where
  trans _ _ _ h₁ h₂ h := by
    obtain ⟨ha, hSPP, hstack⟩ := h₁ h
    obtain ⟨ha', hSPP', hstack'⟩ := h₂ ha
    exact ⟨ha', hSPP'.trans hSPP, fun i hi => (hstack' i hi).trans (hstack i hi)⟩

/-- A write above `k`. -/
lemma framed_update {op : Instruction} {k j : ℕ} (h : Above op k vm → j < k) (v : U256) :
    Framed op k vm { vm with m_stack := Function.update vm.m_stack j v } := by
  intro ha
  refine ⟨⟨ha.1, ha.2⟩, rfl, fun i hi => Function.update_of_ne ?_ _ _⟩
  have := h ha
  omega

lemma allows_framed (op : Instruction) (k : ℕ) : Allows op (Framed (σ := σ) op k) := by
  have hsame {vm vm' : LegacyVM σ} (h : (vm'.m_SP, vm'.m_SPP, vm'.m_stack) =
      (vm.m_SP, vm.m_SPP, vm.m_stack)) : Framed op k vm vm' := by
    simp only [Prod.mk.injEq] at h
    obtain ⟨hSP, hSPP, hstack⟩ := h
    refine fun ha => ⟨⟨?_, fun hret => ?_⟩, hSPP, fun i _ => by rw [hstack]⟩
    · rw [hSP]
      exact ha.operands
    · rw [hSPP]
      exact ha.result hret
  exact {
    result := fun hret vm v => framed_update (fun ha => ha.result hret) v
    operand := fun i hi vm v => framed_update (fun ha => by have := ha.operands; omega) v
    SP := fun vm ha =>
      ⟨⟨(Nat.add_le_add_right (Nat.sub_le _ _) _).trans ha.1, ha.2⟩, rfl, fun _ _ => rfl⟩
    PC := fun _ _ => hsame rfl
    output := fun _ _ => hsame rfl
    returnData := fun _ _ => hsame rfl
    host := fun _ _ _ _ => hsame rfl
    mem := fun _ _ _ => hsame rfl
    moved := fun _ _ => hsame rfl
    gas := fun _ _ _ _ => hsame rfl }

/-- What an instruction writes is above the end of its operands. -/
theorem effect_framed (op : Instruction) (k : ℕ) (a : (interpretCase E op).Local) :
    Within (Framed op k) ((interpretCase E op).effect a) :=
  effect_within (allows_framed op k) a

/-! ### One round -/

/-- The instruction at the program counter. -/
def LegacyVM.Next (vm : LegacyVM σ) (op : Instruction) : Prop :=
  ∃ b, vm.m_code[vm.m_PC]? = some b ∧ Instruction.ofByte b = op

/-- The part of the state that a fetch has set when it returns. -/
lemma fetchInstruction_of_ok {op : Instruction} {vm₁ : LegacyVM σ} (hop : vm.Next op)
    (h : (fetchInstruction E).on vm = (.ok (), vm₁)) : Fetches vm op ∧ vm₁ = vm.fetched E op := by
  obtain ⟨b, hb, rfl⟩ := hop
  set op := Instruction.ofByte b with hopdef
  rw [fetchInstruction, on_get_bind, on_bind_of_ok (codeByte_on hb), on_modify_bind] at h
  by_cases hstack : vm.m_SPP + op.metric.args ≤ 1024 ∧ op.metric.ret ≤ vm.m_SPP + op.metric.args
  · refine ⟨⟨⟨b, hb, rfl⟩, hstack.1, hstack.2⟩, ?_⟩
    have hadjust := @adjustStack_on σ { vm with m_OP := op } _ _ hstack.1 hstack.2
    rw [on_bind_of_ok hadjust, toInt63] at h
    split_ifs at h with hgas
    · cases h
    · exact (congrArg Prod.snd h).symm
  · obtain ⟨e, hon, -⟩ := @adjustStack_on_error σ { vm with m_OP := op } _ _ hstack
    rw [on_bind_of_error hon] at h
    cases h

/-- The stack is at fault: the round ends with an exception of the stack, and nothing but three
registers has changed. -/
lemma step_of_badStack {op : Instruction} (hop : vm.Next op)
    (hbad : ¬ (vm.m_SPP + op.metric.args ≤ 1024 ∧ op.metric.ret ≤ vm.m_SPP + op.metric.args)) :
    ∃ e, (step E).on vm = (.error e, vm.atFault op) ∧ e.isStack = true := by
  obtain ⟨b, hb, rfl⟩ := hop
  obtain ⟨e, hon, he⟩ := @adjustStack_on_error σ { vm with m_OP := Instruction.ofByte b } _ _ hbad
  refine ⟨e, on_bind_of_error ?_, he⟩
  rw [fetchInstruction, on_get_bind, on_bind_of_ok (codeByte_on hb), on_modify_bind]
  exact on_bind_of_error hon

/-- A round that returns has moved `m_SPP` as the table says, and has changed nothing from the end
of the operands on. -/
theorem step_framed {op : Instruction} {flow : Flow} (hop : vm.Next op)
    (h : (step E).on vm = (.ok flow, vm')) :
    Fetches vm op ∧ vm'.m_SPP = vm.m_SPP + op.metric.args - op.metric.ret ∧
      ∀ i, vm.m_SPP + op.metric.args ≤ i → vm'.m_stack i = vm.m_stack i := by
  obtain ⟨_, vm₁, hfetch, h⟩ := on_bind_eq_ok.mp h
  obtain ⟨hf, rfl⟩ := fetchInstruction_of_ok hop hfetch
  rw [on_get_bind] at h
  obtain ⟨_, vm₂, hguard, h⟩ := on_bind_eq_ok.mp h
  obtain ⟨a, vm₃, hcharge, heffect⟩ := on_bind_eq_ok.mp h
  have hvm₂ := guard_on (E := E) op (vm.fetched E op)
  have hquiet := (charge_quiet (E := E) op).within vm₂
  have hframed := (effect_framed op (vm.m_SPP + op.metric.args) a).within vm₃
  rw [show (interpretCase E op).guard.on _ = _ from hguard] at hvm₂
  rw [show (interpretCase E op).charge.on _ = _ from hcharge] at hquiet
  rw [show ((interpretCase E op).effect a).on _ = _ from heffect] at hframed
  obtain rfl : vm₂ = vm.fetched E op := hvm₂
  -- the metering has left both cursors and the stack as they were
  have hSP : vm₃.m_SP = vm.m_SPP := congrArg Registers.SP hquiet.registers
  have hSPP : vm₃.m_SPP = vm.m_SPP + op.metric.args - op.metric.ret := hquiet.m_SPP
  have hover := hf.overflow
  obtain ⟨-, hSPP', hstack⟩ := hframed ⟨by rw [hSP], fun hret => by omega⟩
  refine ⟨hf, hSPP'.trans hSPP, fun i hi => (hstack i hi).trans ?_⟩
  rw [show vm₃.m_stack = vm.m_stack from hquiet.m_stack]

/-! ### Runs -/

/-- In every state of a run the stack is within its bounds. -/
lemma m_SPP_le_of_reached {gas : U256} {host : σ} (h : Reached E gas host vm) :
    vm.m_SPP ≤ 1024 := by
  induction h with
  | refl => exact le_rfl
  | @tail vm vm' _ hgo ih =>
    cases hb : vm.m_code[vm.m_PC]? with
    | none =>
      have herror : (step E).on vm = (.error (.outOfBounds .m_code), vm) := by
        refine on_bind_of_error ?_
        rw [fetchInstruction, on_get_bind]
        refine on_bind_of_error ?_
        rw [codeByte, on_get_bind, hb]
        rfl
      rw [Goes, herror] at hgo
      cases hgo
    | some b =>
      obtain ⟨hf, hSPP, -⟩ := step_framed ⟨b, hb, rfl⟩ hgo
      have := hf.underflow
      omega

/-- **The stack frame of every instruction.** In every state of a run the stack has at most 1024
items. An instruction that returns has changed its height by what the table says, stays within the
bounds, and leaves each item below its operands as it is. An instruction for which there are too few
items, or no room for its results, throws an exception of the stack, and nothing but three registers
has changed: neither the memory nor the host.

**Proof sketch.** The cursors are set before anything else, so the second part is read off
`adjustStack`. Metering does not touch the stack, and each write that follows is to an operand or to
the first result, which are both above the end of the operands. -/
theorem stack_framed {gas : U256} {host : σ} (h : Reached E gas host vm) {op : Instruction}
    (hop : vm.Next op) :
    vm.height ≤ 1024 ∧
    (∀ flow vm', (step E).on vm = (.ok flow, vm') →
      op.metric.args ≤ vm.height ∧ vm'.height + op.metric.args = vm.height + op.metric.ret ∧
      vm'.height ≤ 1024 ∧ ∀ i, i + op.metric.args < vm.height → vm'.fromBottom i =
        vm.fromBottom i) ∧
    (vm.height < op.metric.args ∨ 1024 + op.metric.args < vm.height + op.metric.ret →
      ∃ e, (step E).on vm = (.error e, vm.atFault op) ∧ e.isStack = true) := by
  have hSPP := m_SPP_le_of_reached h
  simp only [LegacyVM.height, LegacyVM.fromBottom]
  refine ⟨Nat.sub_le _ _, fun flow vm' hon => ?_, fun hbad => step_of_badStack hop (by omega)⟩
  obtain ⟨⟨-, hunder, hover⟩, hSPP', hstack⟩ := step_framed hop hon
  refine ⟨by omega, by omega, Nat.sub_le _ _, fun i hi => hstack _ (by omega)⟩

/-- The code `PUSH1 3 PUSH1 4 PUSH1 5 ADD ADD ADD`. -/
def addCode : Setup Unit :=
  idleSetup frontierSchedule ⟨[0x60, 3, 0x60, 4, 0x60, 5, 1, 1, 1], by norm_num⟩

/-- The state of the run after some rounds. -/
def adding (rounds : ℕ) : LegacyVM Unit := stateAfter addCode 30 () rounds

/-- The first rounds go on. -/
lemma adding_reached {rounds : ℕ} (h : rounds ≤ 5) : Reached addCode 30 () (adding rounds) := by
  have hgo : ∀ k < 5, ((step addCode).on (adding k)).1 = .ok .CONTINUE := by decide +kernel
  exact goes_stateAfter (Nat.zero_le _) fun k hk => hgo k (by omega)

/-- The first `ADD` takes two of three items and leaves the one below them; the third one has no
operand but one, and throws. -/
theorem stack_framed_ADD :
    (∃ vm', (step addCode).on (adding 3) = (.ok .CONTINUE, vm') ∧ vm'.height + 2 = 3 + 1 ∧
      vm'.fromBottom 0 = 3) ∧
    ∃ e, (step addCode).on (adding 5) = (.error e, (adding 5).atFault .ADD) ∧ e.isStack = true := by
  constructor
  · have hgo : ((step addCode).on (adding 3)).1 = .ok .CONTINUE := by decide +kernel
    obtain ⟨-, hframe, -⟩ := stack_framed (adding_reached (show 3 ≤ 5 by norm_num))
      (show (adding 3).Next .ADD from ⟨1, by decide +kernel, rfl⟩)
    obtain ⟨-, hheight, -, hbelow⟩ := hframe .CONTINUE _ (Prod.ext hgo rfl)
    rw [show (adding 3).height = 3 by decide +kernel] at hheight
    exact ⟨_, Prod.ext hgo rfl, hheight, (hbelow 0 (by decide +kernel)).trans (by decide +kernel)⟩
  · exact (stack_framed (adding_reached (le_refl 5))
      (show (adding 5).Next .ADD from ⟨1, by decide +kernel, rfl⟩)).2.2 (.inl (by decide +kernel))

end Tos.Tvm
