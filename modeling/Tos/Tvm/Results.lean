import Tos.Tvm.Run

/-!
# The results of instructions

What a round leaves on the stack and in the memory, for the signed and modular arithmetic, the
instructions that copy to memory, and those that access a word or a byte of it.

## Main results

* `arithmetic_specified`: the interpreter computes these results.
* `copies_zero_padded`: copies, and `CALLDATALOAD`, read data that go on with zeros.
* `hitsAddressed_iff`: exactly when an access is at its offset: the interpreter pays for all
  of the offset but accesses the place given by its lower 32 bits.
-/

namespace Tos.Tvm

open Memory (length_padded padded slice)

variable {σ : Type} {E : Setup σ} {vm vm' : LegacyVM σ}

open Method

/-! ### A round that has the gas -/

/-- An item of the stack, counted from its top, between two rounds. -/
def LegacyVM.item (vm : LegacyVM σ) (i : ℕ) : U256 := vm.m_stack (vm.m_SPP + i)

/-- A byte of the memory, which goes on with zeros. -/
def LegacyVM.byteAt (vm : LegacyVM σ) (i : ℕ) : UInt8 := vm.m_mem.getD i 0

/-- An instruction is fetched, its checks are passed and the gas for it is there. -/
structure Enabled (E : Setup σ) (vm : LegacyVM σ) (op : Instruction) : Prop where
  dispatches : Dispatches E vm op
  gas : ¬ (bill E (vm.fetched E op) op).Exceeds E (vm.fetched E op)

/-- The instruction is carried out. -/
lemma Enabled.carried (hS : E.ext.evmSchedule.Modest) {op : Instruction}
    (hop : op.asksFirst = false) (h : Enabled E vm op) : ∃ a vm₁, Carried E vm op a vm₁ := by
  have hmem : E.ext.evmSchedule.memGas vm.m_mem.length < 2 ^ 63 := by
    by_contra hle
    refine h.gas (.inr (.inr (.inr (.inl ?_))))
    exact (Nat.not_lt.mp hle).trans (memGas_mono _ (le_max_left _ _))
  rcases h.dispatches.outcome hS hmem fun hask => absurd hop (by simp [hask]) with
    ⟨hb, -⟩ | ⟨-, hc⟩
  · exact absurd hb h.gas
  · exact hc

namespace Carried

variable {op : Instruction} {a : (interpretCase E op).Local} {vm₁ : LegacyVM σ}

lemma SP_eq (h : Carried E vm op a vm₁) (i : ℕ) : vm₁.SP i = vm.item i := h.quiet.SP i

lemma m_SPP_eq (h : Carried E vm op a vm₁) :
    vm₁.m_SPP = vm.m_SPP + op.metric.args - op.metric.ret := h.quiet.m_SPP

lemma m_SP_eq (h : Carried E vm op a vm₁) : vm₁.m_SP = vm.m_SPP :=
  congrArg Registers.SP h.quiet.registers

lemma byteAt_eq (h : Carried E vm op a vm₁) (i : ℕ) : vm₁.byteAt i = vm.byteAt i := by
  rw [LegacyVM.byteAt, h.mem, Memory.getD_append_replicate, LegacyVM.byteAt]

end Carried

/-- The round goes on if what it carries out does. -/
lemma Carried.goes {op : Instruction} {a : (interpretCase E op).Local} {vm₁ : LegacyVM σ}
    (h : Carried E vm op a vm₁)
    (he : ((interpretCase E op).effect a).on vm₁ = (.ok .CONTINUE, vm')) : Goes E vm vm' :=
  h.step.trans he

lemma item_setSPP (v : U256) : (vm.setSPP v).item 0 = v := Function.update_self _ _ _

/-! ### Signed and modular arithmetic -/

/-- The results of the signed and modular arithmetic, in terms of the signed value of a word in
two's complement. `SDIV` rounds towards zero and `SAR` towards `-∞`; the bytes of `SIGNEXTEND` are
counted from the least significant one, those of `BYTE` from the most significant one. -/
def specified : Instruction → Option (U256 → U256 → U256)
  | .SDIV => some fun a b => BitVec.ofInt 256 (a.toInt.tdiv b.toInt)
  | .SMOD => some fun a b => if b = 0#256 then 0#256 else BitVec.ofInt 256 (a.toInt.tmod b.toInt)
  | .SAR => some fun shift x => BitVec.ofInt 256 (x.toInt / 2 ^ shift.toNat)
  | .SIGNEXTEND => some fun k x =>
      if k.toNat < 31 then (x.setWidth (8 * (k.toNat + 1))).signExtend 256 else x
  | .BYTE => some fun i x =>
      BitVec.ofNat 256 (if i.toNat < 32 then x.toNat / 256 ^ (31 - i.toNat) % 256 else 0)
  | .EXP => some fun base exponent => BitVec.ofNat 256 (base.toNat ^ exponent.toNat)
  | _ => none

/-- **Signed and modular arithmetic.** Whatever the operands, a round with one of these instructions
takes two items from the stack and leaves the specified result in their place. -/
theorem arithmetic_specified (hS : E.ext.evmSchedule ∈ schedules) {op : Instruction}
    {f : U256 → U256 → U256} (hop : specified op = some f) (h : Enabled E vm op) :
    ∃ vm', Goes E vm vm' ∧ vm'.m_SPP = vm.m_SPP + 1 ∧
      vm'.item 0 = f (vm.item 0) (vm.item 1) := by
  have hask : op.asksFirst = false := by
    cases op <;> first | rfl | simp [specified] at hop
  obtain ⟨a, vm₁, hc⟩ := h.carried (modest_of_mem hS) hask
  have hargs : op.metric.args = 2 ∧ op.metric.ret = 1 := by
    cases op <;> first | exact ⟨rfl, rfl⟩ | simp [specified] at hop
  have hSPP : vm₁.m_SPP = vm.m_SPP + 1 := by
    rw [hc.m_SPP_eq, hargs.1, hargs.2]
    omega
  cases op with
  | SDIV =>
    obtain rfl := Option.some.inj hop
    refine ⟨_, hc.goes rfl, hSPP, ?_⟩
    refine (@item_setSPP σ vm₁ (sdiv (vm₁.SP 0) (vm₁.SP 1))).trans ?_
    rw [hc.SP_eq, hc.SP_eq, sdiv_eq]
  | SMOD =>
    obtain rfl := Option.some.inj hop
    refine ⟨_, hc.goes rfl, hSPP, ?_⟩
    refine (@item_setSPP σ vm₁ (smod (vm₁.SP 0) (vm₁.SP 1))).trans ?_
    rw [hc.SP_eq, hc.SP_eq, smod_eq]
  | SAR =>
    obtain rfl := Option.some.inj hop
    refine ⟨_, hc.goes rfl, hSPP, ?_⟩
    refine (@item_setSPP σ vm₁ (sar (vm₁.SP 0) (vm₁.SP 1))).trans ?_
    rw [hc.SP_eq, hc.SP_eq, sar_eq]
  | BYTE =>
    obtain rfl := Option.some.inj hop
    refine ⟨_, hc.goes rfl, hSPP, ?_⟩
    refine (@item_setSPP σ vm₁ (byte (vm₁.SP 0) (vm₁.SP 1))).trans ?_
    rw [hc.SP_eq, hc.SP_eq, byte_eq]
  | EXP =>
    obtain rfl := Option.some.inj hop
    refine ⟨_, hc.goes rfl, hSPP, ?_⟩
    refine (@item_setSPP σ vm₁ (exp256 (vm₁.SP 0) (vm₁.SP 1))).trans ?_
    rw [hc.SP_eq, hc.SP_eq, exp256_eq]
  | SIGNEXTEND =>
    obtain rfl := Option.some.inj hop
    -- The second operand is changed in place, and that is where the result belongs.
    have hplace : vm₁.m_SP + 1 = vm₁.m_SPP := by rw [hSPP, hc.m_SP_eq]
    refine ⟨_, hc.goes rfl, hSPP, ?_⟩
    change Function.update vm₁.m_stack (vm₁.m_SP + 1) _ vm₁.m_SPP = _
    rw [hplace, Function.update_self, hc.SP_eq, hc.SP_eq, signextend_eq]
  | _ => simp [specified] at hop

/-- A state in which `SDIV` is about to divide `-2 ^ 255` by `-1`. -/
def dividing : LegacyVM Unit where
  m_io_gas := 100
  m_code := [0x05]
  m_stack i := if i = 1022 then BitVec.ofInt 256 (-2 ^ 255) else BitVec.ofInt 256 (-1)
  m_SPP := 1022
  m_jumpDests := []
  host := ()

/-- The quotient does not fit and comes back to `-2 ^ 255`. -/
theorem arithmetic_specified_dividing :
    ∃ vm', Goes idle dividing vm' ∧ vm'.item 0 = BitVec.ofInt 256 (-2 ^ 255) := by
  have henabled : Enabled idle dividing .SDIV :=
    ⟨⟨⟨⟨0x05, rfl, rfl⟩, by decide, by decide⟩, rfl⟩, by decide +kernel⟩
  obtain ⟨vm', hgoes, -, hitem⟩ := @arithmetic_specified Unit idle dividing
    (by simp [idle, idleSetup, idleHost, schedules]) .SDIV _ rfl henabled
  exact ⟨vm', hgoes, hitem.trans (by decide +kernel)⟩

/-! ### Instructions that copy to memory -/

/-- What is read after a write. -/
lemma byteAt_written {off : ℕ} {src : Bytes} (h : off + src.length ≤ vm.m_mem.length ∨ src = [])
    (i : ℕ) :
    (vm.written off src).byteAt i =
      if off ≤ i ∧ i < off + src.length then src.getD (i - off) 0 else vm.byteAt i := by
  rcases h with h | rfl
  · exact Memory.getD_overwrite h i 0
  · rw [if_neg (by simp), LegacyVM.written, Memory.overwrite_nil]

/-- What the instructions that copy take from. -/
def copySource (E : Setup σ) (vm : LegacyVM σ) : Instruction → Buffer
  | .CODECOPY => E.ext.code
  | .EXTCODECOPY => (E.ext.codeAt (asAddress (vm.item 0)) vm.host).1
  | _ => E.ext.data

/-- The place on the stack at which the operands of a copy start: where in memory, where in the
source, and how many bytes. -/
def copyOperands : Instruction → ℕ
  | .EXTCODECOPY => 1
  | _ => 0

/-- What is read after a copy. -/
lemma byteAt_copied (data : Bytes) {dst src size : U256}
    (hneed : endOf dst size ≤ vm.m_mem.length) (hfits : vm.m_mem.length < 2 ^ 63) (i : ℕ) :
    (vm.written dst.toNat (padded 0 data src.toNat size.toNat)).byteAt i =
      if dst.toNat ≤ i ∧ i < dst.toNat + size.toNat then
        data.getD (src.toNat + (i - dst.toNat)) 0
      else vm.byteAt i := by
  have hroom : dst.toNat + (padded 0 data src.toNat size.toNat).length ≤ vm.m_mem.length ∨
      padded 0 data src.toNat size.toNat = [] := by
    by_cases hz : size.toNat = 0
    · exact .inr (List.length_eq_zero_iff.mp (by rw [length_padded, hz]))
    · obtain ⟨-, hend⟩ := (toNat_of_endOf (hneed.trans_lt hfits)).2 hz
      exact .inl (by rw [length_padded]; omega)
  rw [byteAt_written hroom, length_padded, Memory.getD_padded]
  split_ifs with hi hlt
  · rfl
  · omega
  · rfl

/-- The call data are read as if they went on with zeros. -/
lemma callDataWord_eq (data : Buffer) (offset : U256) :
    callDataWord data offset = ofWordBytes (padded 0 data offset.toNat 32) := by
  have hlen := data.2
  have hsum : u512 (offset.toNat + 31) = offset.toNat + 31 := by
    have := offset.isLt
    exact Nat.mod_eq_of_lt (lt_u512 (by omega))
  rw [callDataWord, hsum]
  split_ifs with hinside hbeyond
  · rw [Nat.mod_eq_of_lt (by omega), Memory.slice_eq_padded 0 (.inl (by omega))]
  · -- Beyond the end there are zeros only.
    have hzero : padded 0 data.val offset.toNat 32 = List.replicate 32 0 := by
      have hrest : data.val.length ≤ offset.toNat + 0 := hbeyond
      rw [← Memory.slice_append_replicate (.inr rfl) (Nat.zero_le 32) (.inr hrest)]
      rfl
    rw [hzero]
    rfl
  · rw [Nat.mod_eq_of_lt (by omega), padded]

/-- A round that comes down to a copy, when `k` is the place of its operands on the stack. -/
lemma Carried.copies {op : Instruction} {a : (interpretCase E op).Local} {vm₁ vm₂ : LegacyVM σ}
    (hc : Carried E vm op a vm₁) (data : Buffer) (k : ℕ) (hmem : vm₂.m_mem = vm₁.m_mem)
    (heffect : ((interpretCase E op).effect a).on vm₁ =
      (copyDataToMemory data (vm₁.SP k) (vm₁.SP (k + 1)) (vm₁.SP (k + 2)) >>= fun _ => NEXT).on vm₂)
    (hneed : endOf (vm₁.SP k) (vm₁.SP (k + 2)) ≤ vm₁.m_mem.length) :
    ∃ vm', Goes E vm vm' ∧ ∀ i, vm'.byteAt i =
      if (vm.item k).toNat ≤ i ∧ i < (vm.item k).toNat + (vm.item (k + 2)).toNat then
        data.val.getD ((vm.item (k + 1)).toNat + (i - (vm.item k).toNat)) 0
      else vm.byteAt i := by
  have hfits := hc.room.fits
  rw [← hmem] at hneed hfits
  refine ⟨_, hc.goes (heffect.trans (on_bind_of_ok (copyDataToMemory_on hneed hfits data.2))),
    fun i => (byteAt_copied data hneed hfits i).trans ?_⟩
  have hbyte : vm₂.byteAt i = vm₁.byteAt i := by rw [LegacyVM.byteAt, hmem, LegacyVM.byteAt]
  rw [hbyte, hc.byteAt_eq, hc.SP_eq, hc.SP_eq, hc.SP_eq]

/-- **Copies read zero-padded data.** Whatever the operands, as long as the gas is there: a round
with an instruction that copies leaves in the range of the memory what the source has, with zeros
beyond its end, and changes no other byte; and `CALLDATALOAD` gives the word that is read in this
way. -/
theorem copies_zero_padded (hS : E.ext.evmSchedule ∈ schedules) (vm : LegacyVM σ) :
    (∀ op ∈ [Instruction.CALLDATACOPY, .CODECOPY, .EXTCODECOPY], Enabled E vm op →
      let dst := (vm.item (copyOperands op)).toNat
      let src := (vm.item (copyOperands op + 1)).toNat
      let size := (vm.item (copyOperands op + 2)).toNat
      ∃ vm', Goes E vm vm' ∧ ∀ i, vm'.byteAt i =
        if dst ≤ i ∧ i < dst + size then (copySource E vm op).val.getD (src + (i - dst)) 0
        else vm.byteAt i) ∧
    (Enabled E vm .CALLDATALOAD → ∃ vm', Goes E vm vm' ∧
      vm'.item 0 = ofWordBytes (Memory.padded 0 E.ext.data (vm.item 0).toNat 32)) := by
  have hM := modest_of_mem hS
  refine ⟨fun op hop henabled => ?_, fun henabled => ?_⟩
  · simp only [List.mem_cons, List.not_mem_nil, or_false] at hop
    rcases hop with rfl | rfl | rfl
    · obtain ⟨a, vm₁, hc⟩ := henabled.carried hM rfl
      exact hc.copies E.ext.data 0 rfl rfl hc.room.need
    · obtain ⟨a, vm₁, hc⟩ := henabled.carried hM rfl
      exact hc.copies E.ext.code 0 rfl rfl hc.room.need
    · obtain ⟨a, vm₁, hc⟩ := henabled.carried hM rfl
      have hsource : (E.ext.codeAt (asAddress (vm₁.SP 0)) vm₁.host).1 =
          copySource E vm .EXTCODECOPY := by
        rw [hc.SP_eq, hc.host rfl]
        rfl
      have hcopies := @Carried.copies σ E vm .EXTCODECOPY a vm₁ (vm₁.afterAsking
        (.codeAt (asAddress (vm₁.SP 0))) (E.ext.codeAt (asAddress (vm₁.SP 0)) vm₁.host).2) hc
        (E.ext.codeAt (asAddress (vm₁.SP 0)) vm₁.host).1 1 rfl rfl hc.room.need
      rw [hsource] at hcopies
      exact hcopies
  · obtain ⟨a, vm₁, hc⟩ := henabled.carried hM rfl
    have hplace : vm₁.m_SP + 0 = vm₁.m_SPP := by
      rw [hc.m_SPP_eq, hc.m_SP_eq]
      rfl
    refine ⟨_, hc.goes rfl, ?_⟩
    change Function.update vm₁.m_stack (vm₁.m_SP + 0) _ vm₁.m_SPP = _
    rw [hplace, Function.update_self, hc.SP_eq, callDataWord_eq]

/-- A state in which `CALLDATACOPY` is about to copy three bytes from far beyond the end of the call
data. -/
def copyingBeyond : LegacyVM Unit where
  m_io_gas := 100
  m_mem := List.replicate 32 0xff
  m_code := [0x37]
  m_stack i := if i = 1021 then 1 else if i = 1022 then 1#256 <<< 255 else 3
  m_SPP := 1021
  m_jumpDests := []
  host := ()

/-- Three bytes become zero, and the next one stays. -/
theorem copies_zero_padded_beyond :
    ∃ vm', Goes idle copyingBeyond vm' ∧ vm'.byteAt 3 = 0 ∧ vm'.byteAt 4 = 0xff := by
  have henabled : Enabled idle copyingBeyond .CALLDATACOPY :=
    ⟨⟨⟨⟨0x37, rfl, rfl⟩, by decide, by decide⟩, rfl⟩, by decide +kernel⟩
  obtain ⟨vm', hgoes, hbytes⟩ := (copies_zero_padded (E := idle)
    (by simp [idle, idleSetup, idleHost, schedules]) copyingBeyond).1 _ (by simp) henabled
  exact ⟨vm', hgoes, (hbytes 3).trans (by decide +kernel), (hbytes 4).trans (by decide +kernel)⟩

/-! ### Words and bytes of the memory -/

/-- After a write of `src` at `p` every byte is as it should be. -/
def Stored (vm vm' : LegacyVM σ) (p : ℕ) (src : Bytes) : Prop :=
  ∀ i, vm'.byteAt i = if p ≤ i ∧ i < p + src.length then src.getD (i - p) 0 else vm.byteAt i

/-- The bytes of `src` are at a place already. -/
def HasAt (vm : LegacyVM σ) (p : ℕ) (src : Bytes) : Prop :=
  ∀ j < src.length, vm.byteAt (p + j) = src.getD j 0

/-- The word at a place of the memory. -/
def LegacyVM.wordAt (vm : LegacyVM σ) (p : ℕ) : U256 := ofWordBytes (padded 0 vm.m_mem p 32)

/-- What `MSTORE` or `MSTORE8` stores. -/
def stored (op : Instruction) (v : U256) : Bytes :=
  if op = .MSTORE8 then [UInt8.ofNat v.toNat] else wordBytes v

/-- The instruction has accessed the bytes at its offset, and no others have changed. -/
def HitsAddressed (op : Instruction) (vm vm' : LegacyVM σ) : Prop :=
  if op = .MLOAD then vm'.item 0 = vm.wordAt (vm.item 0).toNat ∧ ∀ i, vm'.byteAt i = vm.byteAt i
  else Stored vm vm' (vm.item 0).toNat (stored op (vm.item 1))

/-- The offset is below `2 ^ 32`, or the place that it is cut to has the same contents: the word
that is to be loaded, or at both places already what is to be stored. -/
def WellAddressed (op : Instruction) (vm : LegacyVM σ) : Prop :=
  (vm.item 0).toNat < 2 ^ 32 ∨
    if op = .MLOAD then vm.wordAt (u32 (vm.item 0).toNat) = vm.wordAt (vm.item 0).toNat
    else HasAt vm (u32 (vm.item 0).toNat) (stored op (vm.item 1)) ∧
      HasAt vm (vm.item 0).toNat (stored op (vm.item 1))

/-- A write at `q` is one at `p` if the places are the same, or both have the contents already. -/
lemma stored_iff {vm₁ : LegacyVM σ} (hsame : ∀ i, vm₁.byteAt i = vm.byteAt i) {p q : ℕ}
    {src : Bytes}
    (hq : q + src.length ≤ vm₁.m_mem.length) (hpq : p = q ∨ q + src.length ≤ p) :
    Stored vm (vm₁.written q src) p src ↔ p = q ∨ HasAt vm q src ∧ HasAt vm p src := by
  have hread (i : ℕ) : (vm₁.written q src).byteAt i =
      if q ≤ i ∧ i < q + src.length then src.getD (i - q) 0 else vm.byteAt i := by
    rw [byteAt_written (.inl hq), hsame]
  constructor
  · intro hst
    refine hpq.imp_right fun hapart => ⟨fun j hj => ?_, fun j hj => ?_⟩
    · have := hst (q + j)
      rw [hread, if_pos (by omega), if_neg (by omega), Nat.add_sub_cancel_left] at this
      exact this.symm
    · have := hst (p + j)
      rwa [hread, if_neg (by omega), if_pos (by omega), Nat.add_sub_cancel_left] at this
  · rintro (rfl | ⟨hq', hp'⟩) i
    · exact hread i
    · rw [hread]
      by_cases hi : q ≤ i ∧ i < q + src.length
      · have hat := hq' (i - q) (by omega)
        rw [Nat.add_sub_cancel' hi.1] at hat
        rw [if_pos hi, ← hat]
        split_ifs with hin
        · have := hp' (i - p) (by omega)
          rwa [Nat.add_sub_cancel' hin.1] at this
        · rfl
      · rw [if_neg hi]
        split_ifs with hin
        · have := hp' (i - p) (by omega)
          rwa [Nat.add_sub_cancel' hin.1] at this
        · rfl

lemma Carried.wordAt_eq {op : Instruction} {a : (interpretCase E op).Local} {vm₁ : LegacyVM σ}
    (hc : Carried E vm op a vm₁) (p : ℕ) : vm₁.wordAt p = vm.wordAt p := by
  have hbytes (i : ℕ) : vm₁.m_mem.getD i 0 = vm.m_mem.getD i 0 := hc.byteAt_eq i
  simp only [LegacyVM.wordAt, padded, hbytes]

/-- The offset that is accessed is the one that was paid for, or far below it. -/
lemma u32_eq_or_far (p : ℕ) : p < 2 ^ 32 ∧ p = u32 p ∨ 2 ^ 32 ≤ p ∧ u32 p + 32 ≤ p := by
  rw [u32]
  omega

/-- A round that comes down to a write at the offset as it is cut. -/
lemma Carried.stores {op : Instruction} {a : (interpretCase E op).Local} {vm₁ : LegacyVM σ}
    (hc : Carried E vm op a vm₁) {src : Bytes} (hlen : src.length ≤ 32)
    (heffect : ((interpretCase E op).effect a).on vm₁ =
      (memWrite (u32 (vm₁.SP 0).toNat) src >>= fun _ => NEXT).on vm₁)
    (hneed : (vm₁.SP 0).toNat + src.length ≤ vm₁.m_mem.length) :
    ∃ vm', Goes E vm vm' ∧ (Stored vm vm' (vm.item 0).toNat src ↔
      (vm.item 0).toNat < 2 ^ 32 ∨ HasAt vm (u32 (vm.item 0).toNat) src ∧
        HasAt vm (vm.item 0).toNat src) := by
  rw [hc.SP_eq] at heffect hneed
  have hq : u32 (vm.item 0).toNat + src.length ≤ vm₁.m_mem.length :=
    (Nat.add_le_add_right (Nat.mod_le _ _) _).trans hneed
  refine ⟨_, hc.goes (heffect.trans (on_bind_of_ok (memWrite_on (.inl hq)))), ?_⟩
  have hfar := u32_eq_or_far (vm.item 0).toNat
  refine (stored_iff hc.byteAt_eq hq (by omega)).trans (or_congr_left ⟨fun h => ?_, fun h => ?_⟩)
  · omega
  · omega

/-- A round with `MLOAD` gives the word at the offset as it is cut. -/
lemma Carried.loads {a : (interpretCase E .MLOAD).Local} {vm₁ : LegacyVM σ}
    (hc : Carried E vm .MLOAD a vm₁) :
    ∃ vm', Goes E vm vm' ∧ vm'.item 0 = vm.wordAt (u32 (vm.item 0).toNat) ∧
      ∀ i, vm'.byteAt i = vm.byteAt i := by
  have hq : u32 (vm₁.SP 0).toNat + 32 ≤ vm₁.m_mem.length :=
    (Nat.add_le_add_right (Nat.mod_le _ _) _).trans hc.room.need
  have hslice : ofWordBytes (slice vm₁.m_mem (u32 (vm₁.SP 0).toNat) 32) =
      vm.wordAt (u32 (vm.item 0).toNat) := by
    rw [Memory.slice_eq_padded 0 (.inl hq), ← LegacyVM.wordAt, hc.wordAt_eq, hc.SP_eq]
  exact ⟨_, hc.goes (on_get_bind.trans (on_bind_of_ok (memRead_on (.inl hq)))),
    (@item_setSPP σ vm₁ _).trans hslice, hc.byteAt_eq⟩

/-- **Word memory operations.** A round with `MLOAD`, `MSTORE` or `MSTORE8` for which the gas is
there accesses the bytes at its offset, and no others, exactly if the offset is below `2 ^ 32` or
the place to which the interpreter cuts it has the same contents. -/
theorem hitsAddressed_iff (hS : E.ext.evmSchedule ∈ schedules) {op : Instruction}
    (hop : op ∈ [Instruction.MLOAD, .MSTORE, .MSTORE8]) (h : Enabled E vm op) :
    ∃ vm', Goes E vm vm' ∧ (HitsAddressed op vm vm' ↔ WellAddressed op vm) := by
  have hM := modest_of_mem hS
  simp only [List.mem_cons, List.not_mem_nil, or_false] at hop
  rcases hop with rfl | rfl | rfl
  · obtain ⟨a, vm₁, hc⟩ := h.carried hM rfl
    obtain ⟨vm', hgoes, hitem, hbytes⟩ := hc.loads
    refine ⟨vm', hgoes, ?_⟩
    rw [HitsAddressed, if_pos rfl, WellAddressed, if_pos rfl, hitem]
    constructor
    · exact fun hword => .inr hword.1
    · rintro (hlt | hword)
      · exact ⟨by rw [u32, Nat.mod_eq_of_lt hlt], hbytes⟩
      · exact ⟨hword, hbytes⟩
  · obtain ⟨a, vm₁, hc⟩ := h.carried hM rfl
    have hneed : (vm₁.SP 0).toNat + 32 ≤ vm₁.m_mem.length := hc.room.need
    have hlen := length_wordBytes (vm₁.SP 1)
    have hstores := hc.stores hlen.le on_get_bind (by rw [hlen]; exact hneed)
    rw [hc.SP_eq] at hstores
    exact hstores
  · obtain ⟨a, vm₁, hc⟩ := h.carried hM rfl
    have hstores := @Carried.stores σ E vm .MSTORE8 a vm₁ hc [UInt8.ofNat (vm₁.SP 1).toNat]
      (by simp) on_get_bind hc.room.need
    rw [hc.SP_eq] at hstores
    exact hstores

/-- The code `PUSH1 0xff PUSH5 0x0100000000 MSTORE8`. -/
def farStore : Setup Unit :=
  idleSetup frontierSchedule ⟨[0x60, 0xff, 0x64, 1, 0, 0, 0, 0, 0x53], by decide⟩

/-- The state in which the store is about to be executed. -/
def farStoring : LegacyVM Unit :=
  ((step farStore).on ((step farStore).on (initEntry farStore (BitVec.ofNat 256 (2 ^ 50)) ())).2).2

lemma goes_of_fst (h : ((step E).on vm).1 = .ok .CONTINUE) : Goes E vm ((step E).on vm).2 :=
  Prod.ext h rfl

lemma farStoring_reached : Reached farStore (BitVec.ofNat 256 (2 ^ 50)) () farStoring :=
  .tail (.tail .refl (goes_of_fst (by decide +kernel))) (goes_of_fst (by decide +kernel))

lemma farStoring_enabled : Enabled farStore farStoring .MSTORE8 :=
  ⟨⟨⟨⟨0x53, by decide +kernel, rfl⟩, by decide +kernel, by decide +kernel⟩, rfl⟩,
    by decide +kernel⟩

lemma farStoring_items :
    (farStoring.item 0).toNat = 2 ^ 32 ∧ farStoring.item 1 = 0xff#256 ∧ farStoring.m_mem = [] := by
  decide +kernel

/-- A run in which the gas for the offset `2 ^ 32` is there: `MSTORE8` pays for it and goes on, but
the byte at the offset is not the one that was stored. -/
theorem hitsAddressed_fails_far :
    ∃ vm', Reached farStore (BitVec.ofNat 256 (2 ^ 50)) () farStoring ∧
      Goes farStore farStoring vm' ∧ Fetches farStoring .MSTORE8 ∧
      (farStoring.item 0).toNat = 2 ^ 32 ∧ ¬ HitsAddressed .MSTORE8 farStoring vm' := by
  have hM : farStore.ext.evmSchedule.Modest :=
    modest_of_mem (by simp [farStore, idleSetup, idleHost, schedules])
  obtain ⟨a, vm₁, hc⟩ := farStoring_enabled.carried hM rfl
  obtain ⟨hoff, hval, hmem⟩ := farStoring_items
  obtain ⟨vm', hgoes, hiff⟩ := @Carried.stores Unit farStore farStoring .MSTORE8 a vm₁ hc
    [UInt8.ofNat (vm₁.SP 1).toNat] (by simp) on_get_bind hc.room.need
  refine ⟨vm', farStoring_reached, hgoes, farStoring_enabled.dispatches.fetches, hoff,
    fun hits => ?_⟩
  rw [hc.SP_eq] at hiff
  rcases hiff.mp hits with hlt | ⟨hfirst, -⟩
  · rw [hoff] at hlt
    exact absurd hlt (lt_irrefl _)
  · have := hfirst 0 (by simp)
    rw [LegacyVM.byteAt, hmem, hval] at this
    exact absurd this (by decide)

/-- A state in which `MSTORE8` is about to store at a small offset. -/
def nearStoring : LegacyVM Unit where
  m_io_gas := 100
  m_code := [0x53]
  m_stack i := if i = 1022 then 5 else 0xff
  m_SPP := 1022
  m_jumpDests := []
  host := ()

theorem hitsAddressed_iff_near :
    ∃ vm', Goes idle nearStoring vm' ∧ vm'.byteAt 5 = 0xff ∧ vm'.byteAt 4 = 0 := by
  have henabled : Enabled idle nearStoring .MSTORE8 :=
    ⟨⟨⟨⟨0x53, rfl, rfl⟩, by decide, by decide⟩, rfl⟩, by decide +kernel⟩
  obtain ⟨vm', hgoes, hiff⟩ := hitsAddressed_iff (E := idle)
    (by simp [idle, idleSetup, idleHost, schedules]) (by simp) henabled
  have hits := hiff.mpr (.inl (by decide +kernel))
  exact ⟨vm', hgoes, (hits 5).trans (by decide +kernel), (hits 4).trans (by decide +kernel)⟩

end Tos.Tvm
