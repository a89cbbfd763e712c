import Tos.Tvm.Run

/-!
# Gas bounds every run

Every instruction after which the interpreter goes on has a price, and a call or a new contract
gives back at most what was set aside for it: the stipend is less than what a transfer of value
costs. So the gas falls in every round, and the interpreter halts after as many rounds as there are
units of gas.

## Main results

* `Carried.gas_lt`: one round.
* `halts_within_gas`: every run.
-/

namespace Tos.Tvm

open Method

variable {σ : Type} {E : Setup σ} {vm vm' : LegacyVM σ}

/-- A host that gives back at most the gas it was given. -/
structure ExtVMFace.Thrifty (ext : ExtVMFace σ) : Prop where
  call : ∀ params host, (ext.call params host).1.gas ≤ params.gas
  create : ∀ endowment gas code op salt host,
    (ext.create endowment gas code op salt host).1.gas ≤ gas

/-! ### Gas that comes back -/

/-- What is left of the gas of a new contract comes back. -/
lemma createGas_left {gas : ℕ} (hgas : gas < 2 ^ 64) {left : U256} (h : left ≤ createGas E gas) :
    (BitVec.ofNat 256 gas - (createGas E gas - left)).toNat % 2 ^ 64 ≤ gas := by
  have hnat : (BitVec.ofNat 256 gas).toNat = gas := Nat.mod_eq_of_lt (by omega)
  have hle : createGas E gas ≤ BitVec.ofNat 256 gas := by
    rw [createGas]
    split_ifs
    · rw [BitVec.le_def, BitVec.toNat_sub_of_le]
      · exact Nat.sub_le _ _
      · rw [BitVec.le_def, BitVec.toNat_udiv]
        exact Nat.div_le_self _ _
    · exact BitVec.le_refl _
  have hused := BitVec.toNat_sub_of_le h
  rw [BitVec.le_def, hnat] at hle
  rw [BitVec.toNat_sub_of_le, hnat]
  · exact (Nat.mod_le _ _).trans (Nat.sub_le _ _)
  · rw [BitVec.le_def, hnat, hused]
    omega

lemma same_gas {α : Type} {m : VM σ α} {r : Except VMException α}
    (hm : Within (Steady .MSTORE) m) (h : m.on vm = (r, vm')) : vm'.m_io_gas = vm.m_io_gas := by
  have hgas := (hm.within vm).gas rfl
  rwa [h] at hgas

section CallOut

variable (hhost : E.ext.Thrifty)

include hhost

/-- A host that is called gives back at most its gas. -/
lemma callContract_left {gas left : U256} (h : (callContract E gas).on vm = (.ok left, vm')) :
    left ≤ gas ∧ vm'.m_io_gas = vm.m_io_gas := by
  rw [callContract, on_get_bind] at h
  obtain ⟨data, vm₁, hread, h⟩ := on_bind_eq_ok.mp h
  obtain ⟨answer, vm₂, hask, h⟩ := on_bind_eq_ok.mp h
  obtain ⟨_, vm₃, hwrite, h⟩ := on_bind_eq_ok.mp h
  have h₁ := same_gas (memRead_obeys trivial _ _) hread
  have h₂ : vm₁.m_io_gas = vm₂.m_io_gas := congrArg (·.2.m_io_gas) hask
  have h₃ := same_gas (memWrite_obeys (allows_steady _) trivial _ _) hwrite
  have h₄ : vm₃.m_io_gas = vm'.m_io_gas := congrArg (·.2.m_io_gas) h
  obtain rfl : _ = answer := Except.ok.inj (congrArg Prod.fst hask)
  obtain rfl : _ = left := Except.ok.inj (congrArg Prod.fst h)
  exact ⟨hhost.call _ _, by omega⟩

/-- After a call at most the gas that was set aside is back, with the stipend. -/
lemma caseCall_gas_le {guard : VM σ Unit} {gas : U256}
    (h : ((caseCall E guard).effect gas).on vm = (.ok .CONTINUE, vm')) :
    vm'.m_io_gas ≤ vm.m_io_gas + (callGasWithStipend E vm gas).toNat := by
  have hback {left : U256} (hle : left ≤ callGasWithStipend E vm gas) :
      (vm.m_io_gas + left.toNat % 2 ^ 64) % 2 ^ 64 ≤
        vm.m_io_gas + (callGasWithStipend E vm gas).toNat :=
    (Nat.mod_le _ _).trans (Nat.add_le_add_left ((Nat.mod_le _ _).trans hle) _)
  have hstart : ((caseCall E guard).effect gas).on vm = _ :=
    on_get_bind.trans (on_bind_of_ok (ask_on _ (E.ext.balance E.ext.myAddress)))
  rw [hstart] at h
  split_ifs at h
  · obtain ⟨left, vm₁, hcall, h⟩ := on_bind_eq_ok.mp h
    obtain ⟨hle, hgas⟩ := callContract_left hhost hcall
    cases h
    change (vm₁.m_io_gas + _) % _ ≤ _
    rw [hgas]
    exact hback hle
  · cases h
    exact hback (BitVec.le_refl _)

/-- After a new contract no more gas is there than before. -/
lemma createContract_gas_le (hgas : vm.m_io_gas < 2 ^ 64)
    (h : (createContract E).on vm = (.ok (), vm')) : vm'.m_io_gas ≤ vm.m_io_gas := by
  rw [createContract, on_get_bind] at h
  obtain ⟨code, vm₁, hread, h⟩ := on_bind_eq_ok.mp h
  have hsame := same_gas (memRead_obeys trivial _ _) hread
  cases h
  change (BitVec.ofNat 256 vm₁.m_io_gas - (_ - _)).toNat % 2 ^ 64 ≤ _
  rw [hsame]
  exact createGas_left hgas (hhost.create _ _ _ _ _ _)

lemma caseCreate_gas_le {guard : VM σ Unit} {u : Unit} (hgas : vm.m_io_gas < 2 ^ 64)
    (h : ((caseCreate E guard).effect u).on vm = (.ok .CONTINUE, vm')) :
    vm'.m_io_gas ≤ vm.m_io_gas := by
  have hstart : ((caseCreate E guard).effect u).on vm = _ :=
    on_modify_bind.trans (on_get_bind.trans
      (on_bind_of_ok (ask_on _ (E.ext.balance E.ext.myAddress))))
  rw [hstart] at h
  split_ifs at h
  · obtain ⟨_, vm₁, hcreate, h⟩ := on_bind_eq_ok.mp h
    have hle := createContract_gas_le hhost (by exact hgas) hcreate
    cases h
    exact hle
  · cases h
    exact le_rfl

end CallOut

/-! ### One round -/

/-- The gas that the metering of a call sets aside. -/
lemma caseCall_local (hS : E.ext.evmSchedule.Modest) (hF : Fetched E vm)
    (hgas : vm.m_io_gas < 2 ^ 64) {guard : VM σ Unit} {a : U256}
    (h : (caseCall E guard).charge.on vm = (.ok a, vm')) :
    a.toNat = passedOn E vm (vm.m_io_gas - (setupBill E vm).cost E vm) := by
  obtain ⟨_, vm₁, hclear, h⟩ := on_bind_eq_ok.mp h
  cases hclear
  obtain ⟨_, vm₁, hstatic, h⟩ := on_bind_eq_ok.mp h
  have hpays := @callStaticCosts_pays σ E { vm with m_returnData := .empty } hS
    ⟨hF.run, hF.copy, hF.expansion, hF.memory⟩
  have hquiet := (callStaticCosts_meters (E := E) (allowsMetering_quiet .CALL) rfl).within
    { vm with m_returnData := .empty }
  rw [hstatic] at hpays hquiet
  have hleft : vm₁.m_io_gas + (setupBill E vm).cost E vm = vm.m_io_gas := hpays.gas hpays.of_ok
  replace h : (passOnGas E).on vm₁ = (.ok a, vm') := h
  rw [passOnGas, on_get_bind] at h
  obtain ⟨_, _, -, h⟩ := on_bind_eq_ok.mp h
  obtain ⟨_, _, -, h⟩ := on_bind_eq_ok.mp h
  obtain ⟨_, _, -, h⟩ := on_bind_eq_ok.mp h
  cases h
  rw [toNat_callGas (by omega), passedOn, passedOn, hquiet.SP, ← hleft, Nat.add_sub_cancel]
  rfl

/-- Instructions have a price, and a transfer of value costs the stipend at least. -/
lemma prices_pos {S : EVMSchedule} (h : S ∈ schedules) :
    (∀ n ∈ [1, 2, 3, 4, 5, 6], 0 < S.tierStepGas.getD n 0) ∧
      (∀ g ∈ [S.expGas, S.sha3Gas, S.logGas, S.balanceGas, S.extcodesizeGas, S.extcodecopyGas,
        S.blockhashGas, S.sloadGas, S.sstoreSetGas, S.sstoreResetGas, S.createGas, S.callGas],
        0 < g) ∧ S.callStipend ≤ S.callValueTransferGas := by
  revert S
  decide

/-- The stipend is paid for by the price of the transfer. -/
lemma callGasWithStipend_lt (hS : E.ext.evmSchedule ∈ schedules)
    (hvalue : callValue vm' = callValue vm) (gas : U256) :
    (callGasWithStipend E vm' gas).toNat < gas.toNat + (setupBill E vm).base := by
  obtain ⟨-, hown, hstipend⟩ := prices_pos hS
  have hcall : 0 < E.ext.evmSchedule.callGas := hown _ (by simp)
  have hbase : (setupBill E vm).base =
    E.ext.evmSchedule.callGas + callNewAccountGas E vm + transferGas E (callValue vm) := rfl
  rw [hbase, callGasWithStipend, transferGas, hvalue]
  split_ifs
  · rw [BitVec.toNat_add, BitVec.toNat_ofNat]
    have hle := Nat.mod_le E.ext.evmSchedule.callStipend (2 ^ 256)
    exact (Nat.mod_le _ _).trans_lt (by omega)
  · omega

variable {op : Instruction} {a : (interpretCase E op).Local} {vm₁ : LegacyVM σ}

/-- An instruction after which the interpreter goes on has a price. -/
lemma base_pos (hS : E.ext.evmSchedule ∈ schedules)
    (h : ((interpretCase E op).effect a).on vm₁ = (.ok .CONTINUE, vm')) :
    0 < (bill E vm op).base := by
  obtain ⟨htier, hown, -⟩ := prices_pos hS
  cases op with
  | STOP | INVALID | unassigned | subroutine | simd | SUICIDE => cases h
  | RETURN | REVERT => exact absurd h (halts_of_givesOutput rfl a vm')
  | SSTORE =>
    change 0 < sstoreGas E vm
    rw [sstoreGas]
    split_ifs
    · exact hown _ (by simp)
    · exact hown _ (by simp)
  | JUMPDEST => exact Nat.one_pos
  | EXP | SHA3 | CALLCODE => exact Nat.add_pos_left (hown _ (by simp)) _
  | LOG | CALL => exact Nat.add_pos_left (Nat.add_pos_left (hown _ (by simp)) _) _
  | BALANCE | EXTCODESIZE | EXTCODECOPY | BLOCKHASH | SLOAD | CREATE | CREATE2 | DELEGATECALL
  | STATICCALL =>
    exact hown _ (by simp [bill, callBill])
  | _ => exact htier _ (by simp [Instruction.metric, Tier.toNat])

/-- What an instruction that is carried out costs is more than what comes back. -/
lemma Carried.gas_lt (hS : E.ext.evmSchedule ∈ schedules) (hhost : E.ext.Thrifty)
    (hmem : E.ext.evmSchedule.memGas vm.m_mem.length < 2 ^ 63) (hgas : vm.m_io_gas < 2 ^ 64)
    (hc : Carried E vm op a vm₁)
    (h : ((interpretCase E op).effect a).on vm₁ = (.ok .CONTINUE, vm')) :
    vm'.m_io_gas < vm.m_io_gas := by
  have hpos : 0 < (bill E (vm.fetched E op) op).base := base_pos hS h
  have hleft := hc.gas
  rw [Bill.cost] at hleft
  have hcall {guard : VM σ Unit} {gas : U256}
      (h : ((caseCall E guard).effect gas).on vm₁ = (.ok .CONTINUE, vm'))
      (hcall : op.calls = true) (hcharge : (caseCall E guard).charge.on (vm.fetched E op) =
        (.ok gas, vm₁)) : vm'.m_io_gas < vm.m_io_gas := by
    have hbill := @bill_eq_setupBill σ E (vm.fetched E op) op rfl hcall
    have hbase : (bill E (vm.fetched E op) op).base = (setupBill E (vm.fetched E op)).base := by
      rw [hbill]
    have hlocal : gas.toNat = (bill E (vm.fetched E op) op).call :=
      (@caseCall_local σ E (vm.fetched E op) vm₁ (modest_of_mem hS) ⟨rfl, rfl, rfl, hmem⟩ hgas _ _
        hcharge).trans (congrArg Bill.call hbill).symm
    have hvalue : callValue vm₁ = callValue (vm.fetched E op) := by
      rw [callValue, callValue, hc.quiet.SP, hc.quiet.m_OP]
    have hless := callGasWithStipend_lt hS hvalue gas
    have hback := caseCall_gas_le hhost h
    omega
  have hcreate {guard : VM σ Unit} {u : Unit}
      (h : ((caseCreate E guard).effect u).on vm₁ = (.ok .CONTINUE, vm')) :
      vm'.m_io_gas < vm.m_io_gas := by
    have hback := caseCreate_gas_le hhost (by omega) h
    omega
  have hother (hno : op.callsOut = false) : vm'.m_io_gas < vm.m_io_gas := by
    have hsame := ((effect_steady op a).within vm₁).gas hno
    rw [h] at hsame
    change vm'.m_io_gas = vm₁.m_io_gas at hsame
    omega
  cases op with
  | CALL | CALLCODE | DELEGATECALL | STATICCALL => exact hcall h rfl hc.charge
  | CREATE | CREATE2 => exact hcreate h
  | _ => exact hother rfl

section Run

variable (hS : E.ext.evmSchedule ∈ schedules) (hhost : E.ext.Thrifty) {gas : U256} {host : σ}

include hS hhost

/-- The gas falls in every round after which the interpreter goes on. -/
lemma Reached.gas_lt (hr : Reached E gas host vm) (hgo : Goes E vm vm') :
    vm'.m_io_gas < vm.m_io_gas := by
  have hM := modest_of_mem hS
  obtain ⟨hsolvent, hgas⟩ := solvent_of_reached hM hr
  rw [Goes] at hgo
  rcases dispatches_cases hM vm with ⟨op, hd⟩ | ⟨e, vm₁, -, hon, -⟩
  · rcases hd.outcome hM hsolvent.memory fun _ => hgas with ⟨-, vm₁, hr⟩ | ⟨-, a, vm₁, hc⟩
    · rw [hr.step] at hgo
      cases hgo
    · exact hc.gas_lt hS hhost hsolvent.memory hgas (hc.step.symm.trans hgo)
  · rw [hon] at hgo
    cases hgo

/-- With more rounds than units of gas the interpreter halts. -/
lemma Reached.halts {rounds : ℕ} (hr : Reached E gas host vm) (hlt : vm.m_io_gas < rounds) :
    ∃ r, interpretCases E rounds vm = some r := by
  induction rounds generalizing vm with
  | zero => exact absurd hlt (Nat.not_lt_zero _)
  | succ rounds ih =>
    rw [interpretCases]
    rcases hon : (step E).on vm with ⟨e | flow, vm'⟩
    · exact ⟨_, rfl⟩
    · cases flow with
      | BREAK => exact ⟨_, rfl⟩
      | CONTINUE =>
        have hgo := hr.gas_lt hS hhost hon
        exact ih (hr.tail hon) (by omega)

end Run

/-- **Gas bounds every run.** For every schedule, code, gas and host that gives back at most the gas
it was given: each round after which the interpreter goes on lowers the gas, a call with its stipend
and a new contract included, and so `exec` halts after at most one round more than it has units of
gas. -/
theorem halts_within_gas (hS : E.ext.evmSchedule ∈ schedules) (hhost : E.ext.Thrifty) (gas : U256)
    (host : σ) :
    (∀ vm vm', Reached E gas host vm → Goes E vm vm' → vm'.m_io_gas < vm.m_io_gas) ∧
      ∃ r, exec E (gas.toNat % 2 ^ 64 + 1) gas host = some r := by
  refine ⟨fun vm vm' hr hgo => hr.gas_lt hS hhost hgo, ?_⟩
  have hstart : Reached E gas host (initEntry E gas host) := .refl
  obtain ⟨r, hr⟩ := hstart.halts hS hhost (Nat.lt_succ_self _)
  exact ⟨_, congrArg (Option.map _) hr⟩

/-- The loop that stores behind the memory goes on after its second store, and it ends when the gas
is used up. -/
theorem halts_within_gas_growing :
    (stateAfter growing 100 () 10).m_io_gas < (stateAfter growing 100 () 9).m_io_gas ∧
    ∃ r, exec growing 101 100 () = some r ∧ r.1 = .error .OutOfGas := by
  obtain ⟨hfalls, r, hr⟩ := halts_within_gas (E := growing)
    (by simp [growing, idleSetup, idleHost, schedules])
    ⟨fun _ _ => Nat.zero_le _, fun _ _ _ _ _ _ => Nat.zero_le _⟩ 100 ()
  have hout : (exec growing 101 100 ()).map Prod.fst = some (.error .OutOfGas) := by decide +kernel
  refine ⟨hfalls _ _ (goes_stateAfter (Nat.zero_le 9) growing_goes)
    (Prod.ext (by decide +kernel) rfl), r, hr, ?_⟩
  rw [show exec growing 101 100 () = some r from hr] at hout
  exact Option.some.inj hout

end Tos.Tvm
