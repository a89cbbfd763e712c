import Tos.Tvm.Prices

/-!
# What an instruction does after its metering

Once an instruction is paid for, it changes the stack, the program counter and bytes of the memory,
and it calls the host. All else stays as it is, and no access to memory is outside of it.

## Main results

* `effect_obeys`: what an instruction may do and throw.
* `effect_inside`: memory that was paid for has room for all accesses.
-/

namespace Tos.Tvm

open Memory (overwrite padded slice)

variable {σ : Type} {E : Setup σ} {vm : LegacyVM σ}

open Method

/-! ### What an instruction changes -/

/-- Whether an instruction may make a call of the host. All may make those that only ask for
something. -/
def Instruction.makes : Instruction → HostCall → Bool
  | .SSTORE, .setStore _ _ => true
  | .SUICIDE, .suicide _ => true
  | .LOG _, .log _ _ => true
  | .CREATE, .create _ _ _ _ _ => true
  | .CREATE2, .create _ _ _ _ _ => true
  | .CALL, .call _ => true
  | .CALLCODE, .call _ => true
  | .DELEGATECALL, .call _ => true
  | .STATICCALL, .call _ => true
  | _, c => !c.acts

variable {c : HostCall}

/-- A call that only asks may be made by every instruction. -/
lemma makes_of_acts (h : c.acts = false) (op : Instruction) : op.makes c = true := by
  unfold Instruction.makes
  split <;> simp_all

/-- The instructions that give gas to the host and get some back. -/
def Instruction.callsOut : Instruction → Bool
  | .CREATE | .CREATE2 | .CALL | .CALLCODE | .DELEGATECALL | .STATICCALL => true
  | _ => false

/-- The instructions for which the memory is moved away. -/
def Instruction.givesOutput : Instruction → Bool
  | .RETURN | .REVERT => true
  | _ => false

/-- A relation that allows all that an instruction may do after its metering. It writes to its
result and to its operands; the size of the memory stays the same except where the memory is moved
away, and the gas stays the same except where the host gives some back. -/
structure Allows (op : Instruction) (R : LegacyVM σ → LegacyVM σ → Prop) : Prop where
  result : 0 < op.metric.ret → ∀ vm v, R vm (vm.setSPP v)
  operand : ∀ i < op.metric.args, ∀ vm v, R vm (vm.setSP i v)
  SP : ∀ vm, R vm { vm with m_SP := vm.m_SP - 1 }
  PC : ∀ vm n, R vm { vm with m_PC := n }
  output : ∀ vm b, R vm { vm with m_output := b }
  returnData : ∀ vm b, R vm { vm with m_returnData := b }
  host : ∀ vm c h, op.makes c = true → R vm (vm.afterAsking c h)
  mem : ∀ vm b, b.length = vm.m_mem.length → R vm { vm with m_mem := b }
  moved : op.givesOutput = true → ∀ vm, R vm { vm with m_mem := [] }
  gas : op.callsOut = true → ∀ vm g, g < 2 ^ 64 → R vm { vm with m_io_gas := g }

/-- The instructions that access the memory. -/
def Instruction.accesses : Instruction → Bool
  | .MLOAD | .MSTORE | .MSTORE8 | .SHA3 | .LOG _ | .RETURN | .REVERT | .CALLDATACOPY
  | .RETURNDATACOPY | .CODECOPY | .EXTCODECOPY | .CREATE | .CREATE2 | .CALL | .CALLCODE
  | .DELEGATECALL | .STATICCALL => true
  | _ => false

/-- Any change is allowed where only exceptions matter. -/
lemma allows_anyhow (op : Instruction) : Allows op (Anyhow (σ := LegacyVM σ)) :=
  ⟨fun _ _ _ => trivial, fun _ _ _ _ => trivial, fun _ => trivial, fun _ _ => trivial,
    fun _ _ => trivial, fun _ _ => trivial, fun _ _ _ _ => trivial, fun _ _ _ => trivial,
    fun _ _ => trivial, fun _ _ _ _ => trivial⟩

variable {α : Type} {n off : ℕ}

/-- What is copied is within the data. -/
lemma sizeToBeCopied_inside (data : Bytes) (bigIndex size : ℕ) :
    bigIndex % 2 ^ 64 + sizeToBeCopied data bigIndex (bigIndex % 2 ^ 64) size ≤ data.length ∨
      sizeToBeCopied data bigIndex (bigIndex % 2 ^ 64) size = 0 := by
  have hle : bigIndex % 2 ^ 64 ≤ bigIndex := Nat.mod_le _ _
  rw [sizeToBeCopied]
  split_ifs
  · exact .inr rfl
  · exact .inl (by omega)
  · exact .inl (by omega)

/-- A read of bytes that are there. -/
lemma readBytes_on {v : Vec} {b : Bytes} (h : off + n ≤ b.length ∨ n = 0) :
    (readBytes v b off n).on vm = (.ok (slice b off n), vm) := by
  rw [readBytes]
  split_ifs with hn hle
  · simp [slice, hn]
  · rfl
  · exact absurd (h.resolve_right hn) hle

/-! ### The parts of the cases -/

section Obeys

variable {op : Instruction} {R : LegacyVM σ → LegacyVM σ → Prop} {P : VMException → Prop}
  [Std.Refl R]

/-- A read throws for the vector it reads from. -/
lemma readBytes_obeys {v : Vec} (hv : P (.outOfBounds v)) (b : Bytes) (off n : ℕ) :
    Obeys R P (readBytes v b off n) :=
  .ite (obeys_pure _) (.ite (obeys_pure _) (obeys_throw hv))

variable [IsTrans (LegacyVM σ) R]

/-- A read from memory. -/
lemma memRead_obeys (hv : P (.outOfBounds .m_mem)) (off n : ℕ) : Obeys R P (memRead off n) :=
  .bind obeys_get fun _ => readBytes_obeys hv _ _ _

/-- A byte of the code. -/
lemma codeByte_obeys (hv : P (.outOfBounds .m_code)) (pc : ℕ) : Obeys R P (codeByte pc) := by
  refine .bind obeys_get fun vm => ?_
  cases vm.m_code[pc]? with
  | none => exact obeys_throw hv
  | some b => exact obeys_pure _

variable (h : Allows op R)

include h

/-- The program counter goes on. -/
lemma NEXT_obeys : Obeys R P (NEXT) :=
  .bind (obeys_modify fun vm => h.PC vm _) fun _ => obeys_pure _

omit [IsTrans (LegacyVM σ) R] [Std.Refl R] in
/-- The result is written. -/
lemma result_obeys (hret : 0 < op.metric.ret) (f : LegacyVM σ → U256) : Obeys R P (result f) :=
  obeys_modify fun vm => h.result hret vm _

/-- The result is all that is written. -/
lemma result_NEXT_obeys (hret : 0 < op.metric.ret) (f : LegacyVM σ → U256) :
    Obeys R P (result f >>= fun _ => NEXT) :=
  .bind (result_obeys h hret f) fun _ => NEXT_obeys h

/-- One operand is overwritten. -/
lemma operand_NEXT_obeys {i : ℕ} (hi : i < op.metric.args) (f : LegacyVM σ → U256) :
    Obeys R P (modify (fun vm => vm.setSP i (f vm)) >>= fun _ => NEXT) :=
  .bind (obeys_modify fun vm => h.operand i hi vm _) fun _ => NEXT_obeys h

/-- A call of the host that is answered. -/
lemma ask_obeys (hc : op.makes c = true) (method : σ → α × σ) : Obeys R P (ask c method) :=
  .bind obeys_get fun _ => .bind (obeys_modify fun vm => h.host vm _ _ hc) fun _ => obeys_pure _

omit [IsTrans (LegacyVM σ) R] [Std.Refl R] in
/-- A call of the host without an answer. -/
lemma tell_obeys (hc : op.makes c = true) (method : σ → σ) : Obeys R P (tell c method) :=
  obeys_modify fun vm => h.host vm _ _ hc

omit [IsTrans (LegacyVM σ) R] in
/-- A write to memory leaves its size. -/
lemma memWrite_obeys (hv : P (.outOfBounds .m_mem)) (off : ℕ) (src : Bytes) :
    Obeys R P (memWrite off src) := by
  have hon : ∀ vm : LegacyVM σ, R vm ((memWrite off src).on vm).2 ∧
      ∀ e, ((memWrite off src).on vm).1 = .error e → P e := by
    intro vm
    rw [memWrite, on_get_bind]
    split_ifs with hsrc hle
    · exact ⟨Std.Refl.refl vm, fun _ he => by cases he⟩
    · exact ⟨h.mem vm _ (Memory.length_overwrite hle), fun _ he => by cases he⟩
    · exact ⟨Std.Refl.refl vm, fun _ he => Except.error.inj he ▸ hv⟩
  exact ⟨fun vm => (hon vm).1, fun vm => (hon vm).2⟩

/-- The data that are copied are read inside, so only the memory can be missed. -/
lemma copyDataToMemory_obeys (hv : P (.outOfBounds .m_mem)) (data : Bytes) (sp0 sp1 sp2 : U256) :
    Obeys R P (copyDataToMemory data sp0 sp1 sp2) := by
  have hwrites (b : Bytes) (off off' : ℕ) (b' : Bytes) :
      Obeys R P (memWrite off b >>= fun _ => memWrite off' b') :=
    .bind (memWrite_obeys h hv _ _) fun _ => memWrite_obeys h hv _ _
  have hon : ∀ vm : LegacyVM σ, (copyDataToMemory data sp0 sp1 sp2).on vm = _ := fun vm =>
    on_bind_of_ok (readBytes_on (sizeToBeCopied_inside data _ _))
  exact ⟨fun vm => hon vm ▸ (hwrites _ _ _ _).within vm,
    fun vm e he => (hwrites _ _ _ _).throws vm e (hon vm ▸ he)⟩

/-- A jump to a place that was verified before. -/
lemma jumpVerified_obeys (dest : U256) : Obeys R P (jumpVerified dest) :=
  .bind (obeys_modify fun vm => h.PC vm _) fun _ => obeys_pure _

/-- A jump to a place that is verified. -/
lemma jumpTo_obeys (hj : P .BadJumpDestination) (dest : U256) : Obeys R P (jumpTo dest) := by
  refine .bind obeys_get fun vm => ?_
  cases verifyJumpDest vm.m_jumpDests dest with
  | none => exact obeys_throw hj
  | some pc => exact .bind (obeys_modify fun vm => h.PC vm _) fun _ => obeys_pure _

/-- A constant of the pool. -/
lemma casePUSHC_obeys (hret : 0 < op.metric.ret) (hcode : P (.outOfBounds .m_code))
    (hpool : P (.outOfBounds .m_pool)) (u : Unit) : Obeys R P ((casePUSHC E).effect u) := by
  refine .bind obeys_get fun vm => .bind (codeByte_obeys hcode _) fun high =>
    .bind (codeByte_obeys hcode _) fun low => .bind (codeByte_obeys hcode _) fun rest => ?_
  cases vm.m_pool[high.toNat * 256 + low.toNat]? with
  | none => exact obeys_throw hpool
  | some value =>
    exact .bind (result_obeys h hret _) fun _ => .bind (obeys_modify fun vm => h.PC vm _) fun _ =>
      obeys_pure _

/-- The answer of the host is written to the top of the stack. -/
lemma ask_result_obeys (hret : 0 < op.metric.ret) (c : LegacyVM σ → HostCall)
    (method : LegacyVM σ → σ → α × σ) (f : α → LegacyVM σ → U256) (hc : ∀ vm, (c vm).acts = false) :
    Obeys R P (get >>= fun vm => ask (c vm) (method vm) >>= fun a => result (f a) >>= fun _ =>
      NEXT) :=
  .bind obeys_get fun vm => .bind (ask_obeys h (makes_of_acts (hc vm) op) _) fun _ =>
    result_NEXT_obeys h hret _

/-- The output is read and the memory is moved away. -/
lemma takeOutput_obeys (hop : op.givesOutput = true) (hv : P (.outOfBounds .m_mem)) :
    Obeys R P (takeOutput) :=
  .bind obeys_get fun _ => .bind (memRead_obeys hv _ _) fun _ =>
    .bind (obeys_modify (h.moved hop)) fun _ => obeys_pure _

/-- A new contract: the host gives back gas. -/
lemma createContract_obeys (hret : 0 < op.metric.ret) (hop : op.callsOut = true)
    (hc : ∀ endowment gas code o salt, op.makes (.create endowment gas code o salt) = true)
    (hv : P (.outOfBounds .m_mem)) : Obeys R P (createContract E) := by
  refine .bind obeys_get fun _ => .bind (memRead_obeys hv _ _) fun _ =>
    .bind (ask_obeys h (hc _ _ _ _ _) _) fun answer => .bind (result_obeys h hret _) fun _ =>
      obeys_modify fun vm => ?_
  exact IsTrans.trans _ _ _ (h.gas hop vm _ (Nat.mod_lt _ (Nat.two_pow_pos 64)))
    (h.returnData { vm with m_io_gas := _ } answer.output)

/-- `CREATE` and `CREATE2`. -/
lemma caseCreate_obeys (guard) (u : Unit) (hret : 0 < op.metric.ret) (hop : op.callsOut = true)
    (hc : ∀ endowment gas code o salt, op.makes (.create endowment gas code o salt) = true)
    (hv : P (.outOfBounds .m_mem)) : Obeys R P ((caseCreate E guard).effect u) :=
  .bind (obeys_modify fun vm => h.returnData vm _) fun _ => .bind obeys_get fun _ =>
    .bind (ask_obeys h (makes_of_acts rfl op) _) fun _ =>
      .ite (.bind (createContract_obeys h hret hop hc hv) fun _ => NEXT_obeys h)
        (result_NEXT_obeys h hret _)

/-- The gas that a call did not use comes back. -/
lemma callReturn_obeys (hop : op.callsOut = true) (gas : U256) : Obeys R P (callReturn gas) :=
  .bind (obeys_modify fun vm => h.gas hop vm _ (Nat.mod_lt _ (Nat.two_pow_pos 64))) fun _ =>
    NEXT_obeys h

/-- A call: the output goes to memory and the outcome to the stack. -/
lemma callContract_obeys (hret : 0 < op.metric.ret) (hc : ∀ params, op.makes (.call params) = true)
    (hv : P (.outOfBounds .m_mem)) (gas : U256) : Obeys R P (callContract E gas) :=
  .bind obeys_get fun _ => .bind (memRead_obeys hv _ _) fun _ => .bind (ask_obeys h (hc _) _)
    fun _ => .bind (memWrite_obeys h hv _ _) fun _ =>
      .bind (obeys_modify fun vm => h.returnData vm _) fun _ =>
        .bind (result_obeys h hret _) fun _ => obeys_pure _

/-- The four calls. -/
lemma caseCall_obeys (guard) (gas : U256) (hret : 0 < op.metric.ret)
    (hop : op.callsOut = true) (hc : ∀ params, op.makes (.call params) = true)
    (hv : P (.outOfBounds .m_mem)) : Obeys R P ((caseCall E guard).effect gas) :=
  .bind obeys_get fun _ => .bind (ask_obeys h (makes_of_acts rfl op) _) fun _ => .ite
    (.bind (callContract_obeys h hret hc hv _) fun _ => callReturn_obeys h hop _)
    (.bind (result_obeys h hret _) fun _ => callReturn_obeys h hop _)

/-- **Every instruction.** After its metering it does only what is allowed for it, and throws for a
jump, for a read of the code or the pool, at `REVERT`, and for an access to memory.

**Proof sketch.** One case for each kind of instruction. A case is a chain of the parts above, and
`Obeys.bind` puts together what they do. -/
theorem effect_obeys (a : (interpretCase E op).Local) (hjump : P .BadJumpDestination)
    (hcode : P (.outOfBounds .m_code)) (hpool : P (.outOfBounds .m_pool))
    (hrevert : ∀ output, P (.RevertInstruction output))
    (hmem : op.accesses = true → P (.outOfBounds .m_mem)) :
    Obeys R P ((interpretCase E op).effect a) := by
  cases op with
  | RETURN =>
    exact .bind (takeOutput_obeys h rfl (hmem rfl)) fun _ =>
      .bind (obeys_modify fun vm => h.output vm _) fun _ => obeys_pure _
  | REVERT => exact .bind (takeOutput_obeys h rfl (hmem rfl)) fun _ => obeys_throw (hrevert _)
  | CREATE | CREATE2 =>
    exact caseCreate_obeys h _ _ Nat.one_pos rfl (fun _ _ _ _ _ => rfl) (hmem rfl)
  | CALL | CALLCODE | DELEGATECALL | STATICCALL =>
    exact caseCall_obeys h _ _ Nat.one_pos rfl (fun _ => rfl) (hmem rfl)
  | STOP | INVALID | unassigned | subroutine | simd => exact obeys_pure _
  | SUICIDE => exact .bind obeys_get fun _ => .bind (tell_obeys h rfl _) fun _ => obeys_pure _
  | MLOAD | SHA3 =>
    exact .bind obeys_get fun _ => .bind (memRead_obeys (hmem rfl) _ _) fun _ =>
      result_NEXT_obeys h Nat.one_pos _
  | MSTORE | MSTORE8 =>
    exact .bind obeys_get fun _ => .bind (memWrite_obeys h (hmem rfl) _ _) fun _ => NEXT_obeys h
  | LOG n =>
    exact .bind obeys_get fun _ => .bind (memRead_obeys (hmem rfl) _ _) fun _ =>
      .bind (tell_obeys h rfl _) fun _ => NEXT_obeys h
  | BALANCE | EXTCODESIZE | BLOCKHASH | SLOAD =>
    exact ask_result_obeys h Nat.one_pos _ _ _ fun _ => rfl
  | SSTORE => exact .bind obeys_get fun _ => .bind (tell_obeys h rfl _) fun _ => NEXT_obeys h
  | JUMPDEST => exact NEXT_obeys h
  | SIGNEXTEND => exact operand_NEXT_obeys h Nat.one_lt_two _
  | CALLDATALOAD => exact operand_NEXT_obeys h Nat.one_pos _
  | SWAP n =>
    refine .bind (obeys_modify fun vm => ?_) fun _ => NEXT_obeys h
    exact IsTrans.trans _ _ _ (h.operand 0 (Nat.succ_pos _) vm _)
      (h.operand (n + 1) (Nat.lt_succ_self _) (vm.setSP 0 _) _)
  | CALLDATACOPY | RETURNDATACOPY | CODECOPY =>
    exact .bind obeys_get fun _ => .bind (copyDataToMemory_obeys h (hmem rfl) _ _ _ _) fun _ =>
      NEXT_obeys h
  | EXTCODECOPY =>
    exact .bind obeys_get fun _ => .bind (ask_obeys h rfl _) fun _ =>
      .bind (copyDataToMemory_obeys h (hmem rfl) _ _ _ _) fun _ => NEXT_obeys h
  | POP => exact .bind (obeys_modify h.SP) fun _ => NEXT_obeys h
  | SDIV =>
    exact .bind (result_obeys h Nat.one_pos _) fun _ => .bind (obeys_modify h.SP) fun _ =>
      NEXT_obeys h
  | PUSHC => exact casePUSHC_obeys h Nat.one_pos hcode hpool a
  | PUSH n =>
    exact .bind obeys_get fun _ => .bind (readBytes_obeys hcode _ _ _) fun _ =>
      .bind (result_obeys h Nat.one_pos _) fun _ =>
        .bind (obeys_modify fun vm => h.PC vm _) fun _ => obeys_pure _
  | JUMP => exact .bind obeys_get fun _ => jumpTo_obeys h hjump _
  | JUMPI => exact .bind obeys_get fun _ => .ite (jumpTo_obeys h hjump _) (NEXT_obeys h)
  | JUMPC => exact .bind obeys_get fun _ => jumpVerified_obeys h _
  | JUMPCI => exact .bind obeys_get fun _ => .ite (jumpVerified_obeys h _) (NEXT_obeys h)
  | _ => exact result_NEXT_obeys h (Nat.succ_pos _) _

/-- After its metering every instruction does only what is allowed for it. -/
theorem effect_within (a : (interpretCase E op).Local) : Within R ((interpretCase E op).effect a) :=
  effect_obeys h a trivial trivial trivial (fun _ => trivial) fun _ => trivial

end Obeys

/-! ### Accesses to memory -/

/-- The memory has room for all accesses of the instruction, and fits a machine word. -/
structure Room (E : Setup σ) (op : Instruction) (vm : LegacyVM σ) : Prop where
  fetched : vm.m_OP = op
  need : (bill E vm op).need ≤ vm.m_mem.length
  fits : vm.m_mem.length < 2 ^ 63

/-- A read from memory that is there. -/
lemma memRead_on (h : off + n ≤ vm.m_mem.length ∨ n = 0) :
    (memRead off n).on vm = (.ok (slice vm.m_mem off n), vm) := by
  rw [memRead, on_get_bind, readBytes_on h]

/-- The state after a range of the memory was overwritten. -/
def LegacyVM.written (vm : LegacyVM σ) (off : ℕ) (src : Bytes) : LegacyVM σ :=
  { vm with m_mem := overwrite vm.m_mem off src }

/-- Two writes that follow each other are one. -/
lemma written_written {src : Bytes} (h : off + src.length ≤ vm.m_mem.length) (src' : Bytes) :
    (vm.written off src).written (off + src.length) src' = vm.written off (src ++ src') :=
  congrArg (fun b => { vm with m_mem := b }) (Memory.overwrite_overwrite h)

/-- A write to bytes that are there. -/
lemma memWrite_on {src : Bytes} (h : off + src.length ≤ vm.m_mem.length ∨ src = []) :
    (memWrite off src).on vm = (.ok (), vm.written off src) := by
  rw [memWrite, on_get_bind]
  split_ifs with hsrc hle
  · rw [LegacyVM.written, hsrc, Memory.overwrite_nil]
    rfl
  · rfl
  · exact absurd (h.resolve_right hsrc) hle

variable {offset size : U256}

/-- A range that ends within the memory is not cut by the conversion to machine words. -/
lemma toNat_of_endOf (h : endOf offset size < 2 ^ 63) :
    size.toNat % 2 ^ 64 = size.toNat ∧
      (size.toNat ≠ 0 → offset.toNat % 2 ^ 64 = offset.toNat ∧
        offset.toNat + size.toNat = endOf offset size) := by
  rw [endOf] at h ⊢
  split_ifs at h ⊢ with hz
  · rw [hz]
    exact ⟨rfl, fun hne => absurd rfl hne⟩
  · exact ⟨Nat.mod_eq_of_lt (by omega), fun _ => ⟨Nat.mod_eq_of_lt (by omega), rfl⟩⟩

/-- The bytes up to the end that was paid for. -/
lemma inside_of_endOf (h : endOf offset size ≤ n) (hn : n < 2 ^ 63) :
    offset.toNat % 2 ^ 64 + size.toNat % 2 ^ 64 ≤ n ∨ size.toNat % 2 ^ 64 = 0 := by
  obtain ⟨hsize, hoff⟩ := toNat_of_endOf (h.trans_lt hn)
  rw [hsize]
  by_cases hz : size.toNat = 0
  · exact .inr hz
  · obtain ⟨hmod, hend⟩ := hoff hz
    exact .inl (by rw [hmod]; omega)

/-- A read at 256-bit operands, within the memory. -/
lemma memRead_words_on (h : endOf offset size ≤ vm.m_mem.length)
    (hfits : vm.m_mem.length < 2 ^ 63) :
    (memRead (offset.toNat % 2 ^ 64) (size.toNat % 2 ^ 64)).on vm =
      (.ok (padded 0 vm.m_mem offset.toNat size.toNat), vm) := by
  have hin := inside_of_endOf h hfits
  obtain ⟨hsize, hoff⟩ := toNat_of_endOf (h.trans_lt hfits)
  rw [memRead_on hin, Memory.slice_eq_padded 0 hin, hsize]
  by_cases hz : size.toNat = 0
  · rw [hz]
    rfl
  · rw [(hoff hz).1]

/-- The data that are copied, filled up with zeros, are the data as they go on with zeros. -/
lemma copied_eq {data : Bytes} (hdata : data.length < 2 ^ 63) (bigIndex size : ℕ) :
    let n := sizeToBeCopied data bigIndex (bigIndex % 2 ^ 64) size
    n ≤ size ∧ slice data (bigIndex % 2 ^ 64) n ++ List.replicate (size - n) 0 =
      padded 0 data bigIndex size := by
  intro n
  have hn : n = sizeToBeCopied data bigIndex (bigIndex % 2 ^ 64) size := rfl
  rw [sizeToBeCopied] at hn
  by_cases hbig : data.length < bigIndex
  · have hzero : n = 0 := by
      rw [hn]
      split_ifs
      · rfl
      · omega
    rw [hzero]
    refine ⟨Nat.zero_le _, ?_⟩
    rw [← Memory.slice_append_replicate (.inr rfl) (Nat.zero_le size) (.inr (by omega))]
    simp [slice]
  · -- An index within the data is not cut by the conversion.
    rw [Nat.mod_eq_of_lt (by omega)] at hn ⊢
    have hcases : n ≤ size ∧ (bigIndex + n ≤ data.length ∨ n = 0) ∧
        (n = size ∨ data.length ≤ bigIndex + n) := by
      rw [hn]
      split_ifs <;> omega
    exact ⟨hcases.1, Memory.slice_append_replicate hcases.2.1 hcases.1 hcases.2.2⟩

/-- `copyDataToMemory` within the memory: the range is replaced by the data, which go on with
zeros. -/
lemma copyDataToMemory_on {sp0 sp1 sp2 : U256} (h : endOf sp0 sp2 ≤ vm.m_mem.length)
    (hfits : vm.m_mem.length < 2 ^ 63) {data : Bytes} (hdata : data.length < 2 ^ 63) :
    (copyDataToMemory data sp0 sp1 sp2).on vm =
      (.ok (), vm.written sp0.toNat (padded 0 data sp1.toNat sp2.toNat)) := by
  obtain ⟨hsize, hoff⟩ := toNat_of_endOf (h.trans_lt hfits)
  have hinside := sizeToBeCopied_inside data sp1.toNat sp2.toNat
  obtain ⟨hle, hcopied⟩ := copied_eq hdata sp1.toNat sp2.toNat
  set n := sizeToBeCopied data sp1.toNat (sp1.toNat % 2 ^ 64) sp2.toNat with hn
  have hlen : (slice data (sp1.toNat % 2 ^ 64) n).length = n := by
    rcases hinside with hin | hz
    · exact Memory.length_slice hin
    · simp [slice, hz]
  rw [copyDataToMemory, hsize, ← hn, on_bind_of_ok (readBytes_on hinside)]
  by_cases hz : sp2.toNat = 0
  · -- Nothing is copied and nothing is filled up.
    have hn0 : n = 0 := by omega
    have hnil : slice data (sp1.toNat % 2 ^ 64) n = [] := by simp [slice, hn0]
    rw [hnil, on_bind_of_ok (memWrite_on (.inr rfl)), memWrite_on (.inr (by simp [hz])), hz]
    simp [LegacyVM.written, padded]
  · obtain ⟨hmod, hend⟩ := hoff hz
    have hfirst : sp0.toNat + (slice data (sp1.toNat % 2 ^ 64) n).length ≤
        vm.m_mem.length := by
      rw [hlen]
      omega
    have hboth := written_written hfirst (List.replicate (sp2.toNat - n) 0)
    rw [hlen] at hboth
    rw [hmod, on_bind_of_ok (memWrite_on (.inl hfirst)), memWrite_on, hboth, hcopied]
    left
    have hkeep := Memory.length_overwrite hfirst
    rw [List.length_replicate]
    change sp0.toNat + n + (sp2.toNat - n) ≤ (overwrite vm.m_mem _ _).length
    omega

/-! ### Every access is inside -/

/-- The outcome is not an access outside of the memory. -/
def Inside {α : Type} (r : Except VMException α × LegacyVM σ) : Prop :=
  r.1 ≠ .error (.outOfBounds .m_mem)

/-- What never misses the memory is inside. -/
lemma Inside.of_throws {m : VM σ α} (h : Throws (· ≠ .outOfBounds .m_mem) m) :
    Inside (m.on vm) := fun he => h.throws vm _ he rfl

/-- Only the first step of what is done accesses the memory. -/
lemma Inside.bind {α β : Type} {m : VM σ α} {f : α → VM σ β} {a : α} {vm' : LegacyVM σ}
    (h : m.on vm = (.ok a, vm')) (hf : Inside ((f a).on vm')) : Inside ((m >>= f).on vm) := by
  rwa [Inside, on_bind_of_ok h]

/-- A part that is inside, and a rest that never misses. -/
lemma Inside.then_throws {α β : Type} {m : VM σ α} {f : α → VM σ β} (hm : Inside (m.on vm))
    (hf : ∀ a, Throws (· ≠ .outOfBounds .m_mem) (f a)) : Inside ((m >>= f).on vm) := by
  unfold Inside at hm ⊢
  rw [on_bind]
  rcases hon : m.on vm with ⟨r, vm'⟩
  rw [hon] at hm
  cases r with
  | error e => simpa using hm
  | ok a => exact Inside.of_throws (hf a)

/-- A look at the state first. -/
lemma getsInside {f : LegacyVM σ → VM σ α} (h : Inside ((f vm).on vm)) :
    Inside ((get >>= f).on vm) := by rwa [Inside, on_get_bind]

/-- Both sides of a condition are inside. -/
lemma Inside.ite {c : Prop} [Decidable c] {m n : VM σ α} (hm : Inside (m.on vm))
    (hn : Inside (n.on vm)) : Inside ((if c then m else n).on vm) := by
  split_ifs
  · exact hm
  · exact hn

/-- Going on throws nothing. -/
lemma NEXT_throws {P : VMException → Prop} : Throws P (NEXT : VM σ Flow) :=
  NEXT_obeys (allows_anyhow .STOP)

/-- Writing the result throws nothing. -/
lemma result_NEXT_throws {P : VMException → Prop} (f : LegacyVM σ → U256) :
    Throws P (result f >>= fun _ => NEXT) := result_NEXT_obeys (allows_anyhow .ADD) Nat.one_pos f

section Inside

variable (hfits : vm.m_mem.length < 2 ^ 63)

include hfits

/-- The output is read inside. -/
lemma takeOutput_inside {f : Bytes → VM σ α} (hf : ∀ b, Throws (· ≠ .outOfBounds .m_mem) (f b))
    (hneed : endOf (vm.SP 0) (vm.SP 1) ≤ vm.m_mem.length) : Inside ((takeOutput >>= f).on vm) := by
  have hout : takeOutput.on vm = (.ok _, { vm with m_mem := [] }) :=
    on_get_bind.trans (on_bind_of_ok (memRead_words_on hneed hfits))
  exact .bind hout (.of_throws (hf _))

/-- A copy is written inside. -/
lemma copyDataToMemory_inside {sp0 sp1 sp2 : U256} (hneed : endOf sp0 sp2 ≤ vm.m_mem.length)
    (data : Buffer) : Inside ((copyDataToMemory data sp0 sp1 sp2 >>= fun _ => NEXT).on vm) :=
  .bind (copyDataToMemory_on hneed hfits data.2) (.of_throws NEXT_throws)

/-- The code of a new contract is read inside. -/
lemma createContract_inside (hneed : endOf (initOff vm) (initSize vm) ≤ vm.m_mem.length) :
    Inside ((createContract E).on vm) :=
  getsInside (.bind (memRead_words_on hneed hfits)
    (.of_throws (.bind (ask_obeys (allows_anyhow .CREATE) rfl _) fun _ =>
    .bind (throws_modify _) fun _ => throws_modify _)))

/-- `CREATE` and `CREATE2`. -/
lemma caseCreate_inside (guard : VM σ Unit) (u : Unit)
    (hneed : endOf (initOff vm) (initSize vm) ≤ vm.m_mem.length) :
    Inside (((caseCreate E guard).effect u).on vm) := by
  refine .bind rfl (getsInside (.bind (ask_on _ _) (.ite (.then_throws ?_ fun _ => NEXT_throws)
    (.of_throws (result_NEXT_throws _)))))
  exact @createContract_inside σ E (LegacyVM.afterAsking _ _ _) hfits hneed

/-- The input is read inside and the output written inside. -/
lemma callContract_inside (gas : U256)
    (hin : endOf (callRange vm 0) (callRange vm 1) ≤ vm.m_mem.length)
    (hout : endOf (callRange vm 2) (callRange vm 3) ≤ vm.m_mem.length) :
    Inside ((callContract E gas).on vm) := by
  refine getsInside (.bind (memRead_words_on hin hfits) (.bind (ask_on _ _) (.bind
    (memWrite_on ?_) (.of_throws (.bind (throws_modify _) fun _ => .bind (throws_modify _) fun _ =>
      obeys_pure _)))))
  -- Of the output as much is written as was asked for, at most.
  refine (inside_of_endOf hout hfits).imp (fun h => le_trans ?_ h)
    fun h => by rw [h, List.take_zero]
  exact Nat.add_le_add_left ((List.length_take_le _ _)) _

/-- The four calls. -/
lemma caseCall_inside (guard) (gas : U256)
    (hin : endOf (callRange vm 0) (callRange vm 1) ≤ vm.m_mem.length)
    (hout : endOf (callRange vm 2) (callRange vm 3) ≤ vm.m_mem.length) :
    Inside (((caseCall E guard).effect gas).on vm) := by
  have hreturn (gas : U256) : Throws (· ≠ .outOfBounds .m_mem) (callReturn gas : VM σ Flow) :=
    callReturn_obeys (allows_anyhow .CALL) rfl gas
  refine getsInside (.bind (ask_on _ _) (.ite (.then_throws ?_ fun _ => hreturn _)
    (.of_throws (.bind (throws_modify _) fun _ => hreturn _))))
  exact @callContract_inside σ E (vm.afterAsking _ _) hfits _ hin hout

end Inside

/-- Memory that was paid for has room for all accesses. -/
theorem effect_inside (op : Instruction) (a : (interpretCase E op).Local) (hroom : Room E op vm) :
    Inside (((interpretCase E op).effect a).on vm) := by
  obtain ⟨hop, hneed, hfits⟩ := hroom
  have hcall (hcalls : op.calls = true) (h : (callBill E vm op).need ≤ vm.m_mem.length) :
      endOf (callRange vm 0) (callRange vm 1) ≤ vm.m_mem.length ∧
        endOf (callRange vm 2) (callRange vm 3) ≤ vm.m_mem.length := by
    rw [← setupBill_eq hop hcalls] at h
    exact max_le_iff.mp h
  -- The words of `MLOAD`, `MSTORE` and `MSTORE8` start at or before the place that was paid for.
  have hshort {n : ℕ} (h : (vm.SP 0).toNat + n ≤ vm.m_mem.length) :
      u32 (vm.SP 0).toNat + n ≤ vm.m_mem.length :=
    (Nat.add_le_add_right (Nat.mod_le _ _) n).trans h
  cases op with
  | MLOAD =>
    exact getsInside (.bind (memRead_on (.inl (hshort hneed))) (.of_throws (result_NEXT_throws _)))
  | MSTORE =>
    refine getsInside (.bind (memWrite_on (.inl ?_)) (.of_throws NEXT_throws))
    rw [length_wordBytes]
    exact hshort hneed
  | MSTORE8 =>
    exact getsInside (.bind (memWrite_on (.inl (hshort hneed))) (.of_throws NEXT_throws))
  | SHA3 =>
    exact getsInside (.bind (memRead_words_on hneed hfits) (.of_throws (result_NEXT_throws _)))
  | LOG n =>
    exact getsInside (.bind (memRead_words_on hneed hfits) (.bind rfl (.of_throws NEXT_throws)))
  | RETURN =>
    exact takeOutput_inside hfits (fun _ => .bind (throws_modify _) fun _ => obeys_pure _) hneed
  | REVERT => exact takeOutput_inside hfits (fun _ => obeys_throw (by simp)) hneed
  | CALLDATACOPY => exact getsInside (copyDataToMemory_inside hfits hneed E.ext.data)
  | CODECOPY => exact getsInside (copyDataToMemory_inside hfits hneed E.ext.code)
  | RETURNDATACOPY => exact getsInside (copyDataToMemory_inside hfits hneed vm.m_returnData)
  | EXTCODECOPY =>
    have hasked (c : HostCall) (host : σ) (code : Buffer) :
        Inside ((copyDataToMemory code (vm.SP 1) (vm.SP 2) (vm.SP 3) >>= fun _ => NEXT).on
          (vm.afterAsking c host)) :=
      @copyDataToMemory_inside σ (vm.afterAsking c host) hfits _ _ _ hneed code
    exact getsInside (.bind (ask_on _ _) (hasked _ _ _))
  | CREATE =>
    exact caseCreate_inside hfits _ _ ((endOf_init (E := E) hop (.inl rfl)).trans_le hneed)
  | CREATE2 =>
    exact caseCreate_inside hfits _ _ ((endOf_init (E := E) hop (.inr rfl)).trans_le hneed)
  | CALL | CALLCODE | DELEGATECALL | STATICCALL =>
    exact caseCall_inside hfits _ _ (hcall rfl hneed).1 (hcall rfl hneed).2
  | _ =>
    exact .of_throws (effect_obeys (allows_anyhow _) a (by simp) (by simp) (by simp) (by simp)
      (by simp [Instruction.accesses]))

end Tos.Tvm
