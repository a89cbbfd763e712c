import Mathlib

/-!
# The fee schedules

`EVMSchedule`: what the instructions cost and which of them a fork of the chain has. The fields
are those that the interpreter reads; a schedule also has fields for transactions and for blocks.

## Main results

* `modest_of_mem`: every schedule that is defined is within the bounds.
-/

namespace Tos.Tvm

/-- `EVMSchedule`, with its defaults. -/
structure EVMSchedule where
  haveDelegateCall : Bool := true
  eip150Mode : Bool := false
  eip158Mode : Bool := false
  haveBitwiseShifting : Bool := false
  haveRevert : Bool := false
  haveReturnData : Bool := false
  haveStaticCall : Bool := false
  haveCreate2 : Bool := false
  tierStepGas : List ℕ := [0, 2, 3, 5, 8, 10, 20, 0]
  expGas : ℕ := 10
  expByteGas : ℕ := 10
  sha3Gas : ℕ := 30
  sha3WordGas : ℕ := 6
  sloadGas : ℕ := 50
  sstoreSetGas : ℕ := 20000
  sstoreResetGas : ℕ := 5000
  sstoreRefundGas : ℕ := 15000
  logGas : ℕ := 375
  logDataGas : ℕ := 8
  logTopicGas : ℕ := 375
  createGas : ℕ := 32000
  callGas : ℕ := 40
  callStipend : ℕ := 2300
  callValueTransferGas : ℕ := 9000
  callNewAccountGas : ℕ := 25000
  memoryGas : ℕ := 3
  quadCoeffDiv : ℕ := 512
  copyGas : ℕ := 3
  extcodesizeGas : ℕ := 20
  extcodecopyGas : ℕ := 20
  balanceGas : ℕ := 20
  suicideGas : ℕ := 0
  blockhashGas : ℕ := 20
  deriving DecidableEq

namespace EVMSchedule

/-- `EVMSchedule::staticCallDepthLimit`. -/
def staticCallDepthLimit (s : EVMSchedule) : Bool := !s.eip150Mode

/-- `EVMSchedule::suicideChargesNewAccountGas`. -/
def suicideChargesNewAccountGas (s : EVMSchedule) : Bool := s.eip150Mode

/-- `EVMSchedule::zeroValueTransferChargesNewAccountGas`. -/
def zeroValueTransferChargesNewAccountGas (s : EVMSchedule) : Bool := !s.eip158Mode

end EVMSchedule

/-- `DefaultSchedule`. -/
def defaultSchedule : EVMSchedule := {}

/-- `FrontierSchedule`. -/
def frontierSchedule : EVMSchedule := { haveDelegateCall := false }

/-- `HomesteadSchedule`. -/
def homesteadSchedule : EVMSchedule := { haveDelegateCall := true }

/-- `EIP150Schedule`. -/
def eip150Schedule : EVMSchedule :=
  { homesteadSchedule with
    eip150Mode := true
    extcodesizeGas := 700
    extcodecopyGas := 700
    balanceGas := 400
    sloadGas := 200
    callGas := 700
    suicideGas := 5000 }

/-- `EIP158Schedule`. -/
def eip158Schedule : EVMSchedule := { eip150Schedule with expByteGas := 50, eip158Mode := true }

/-- `ByzantiumSchedule`. -/
def byzantiumSchedule : EVMSchedule :=
  { eip158Schedule with haveRevert := true, haveReturnData := true, haveStaticCall := true }

/-- `EWASMSchedule`: it differs from `ByzantiumSchedule` in what transactions pay and in the size
of code. -/
def ewasmSchedule : EVMSchedule := byzantiumSchedule

/-- `ConstantinopleSchedule`. -/
def constantinopleSchedule : EVMSchedule :=
  { byzantiumSchedule with blockhashGas := 800, haveCreate2 := true, haveBitwiseShifting := true }

/-- The schedules that are defined. -/
def schedules : List EVMSchedule :=
  [defaultSchedule, frontierSchedule, homesteadSchedule, eip150Schedule, eip158Schedule,
    byzantiumSchedule, ewasmSchedule, constantinopleSchedule]

/-! ### Bounds -/

/-- The bounds on a schedule under which nothing in the metering leaves its machine word. -/
structure EVMSchedule.Modest (S : EVMSchedule) : Prop where
  tier : ∀ g ∈ S.tierStepGas, g < 2 ^ 32
  exp : S.expGas + S.expByteGas * 32 < 2 ^ 32
  sha3 : S.sha3Gas < 2 ^ 32
  sha3Word : S.sha3WordGas < 2 ^ 32
  sload : S.sloadGas < 2 ^ 32
  sstoreSet : S.sstoreSetGas < 2 ^ 32
  sstoreReset : S.sstoreResetGas < 2 ^ 32
  log : S.logGas + S.logTopicGas * 4 < 2 ^ 32
  logData : S.logDataGas < 2 ^ 32
  create : S.createGas < 2 ^ 32
  call : S.callGas < 2 ^ 32
  callValueTransfer : S.callValueTransferGas < 2 ^ 32
  callNewAccount : S.callNewAccountGas < 2 ^ 32
  memory : S.memoryGas < 2 ^ 32
  quadCoeff : S.quadCoeffDiv < 2 ^ 32
  quadCoeff_pos : 0 < S.quadCoeffDiv
  copy : S.copyGas < 16
  extcodesize : S.extcodesizeGas < 2 ^ 32
  extcodecopy : S.extcodecopyGas < 2 ^ 32
  balance : S.balanceGas < 2 ^ 32
  suicide : S.suicideGas < 2 ^ 32
  blockhash : S.blockhashGas < 2 ^ 32

/-- Every schedule that is defined is within the bounds. -/
theorem modest_of_mem {S : EVMSchedule} (h : S ∈ schedules) : S.Modest where
  tier := (by decide : ∀ S ∈ schedules, ∀ g ∈ S.tierStepGas, g < 2 ^ 32) S h
  exp := (by decide : ∀ S ∈ schedules, S.expGas + S.expByteGas * 32 < 2 ^ 32) S h
  sha3 := (by decide : ∀ S ∈ schedules, S.sha3Gas < 2 ^ 32) S h
  sha3Word := (by decide : ∀ S ∈ schedules, S.sha3WordGas < 2 ^ 32) S h
  sload := (by decide : ∀ S ∈ schedules, S.sloadGas < 2 ^ 32) S h
  sstoreSet := (by decide : ∀ S ∈ schedules, S.sstoreSetGas < 2 ^ 32) S h
  sstoreReset := (by decide : ∀ S ∈ schedules, S.sstoreResetGas < 2 ^ 32) S h
  log := (by decide : ∀ S ∈ schedules, S.logGas + S.logTopicGas * 4 < 2 ^ 32) S h
  logData := (by decide : ∀ S ∈ schedules, S.logDataGas < 2 ^ 32) S h
  create := (by decide : ∀ S ∈ schedules, S.createGas < 2 ^ 32) S h
  call := (by decide : ∀ S ∈ schedules, S.callGas < 2 ^ 32) S h
  callValueTransfer := (by decide : ∀ S ∈ schedules, S.callValueTransferGas < 2 ^ 32) S h
  callNewAccount := (by decide : ∀ S ∈ schedules, S.callNewAccountGas < 2 ^ 32) S h
  memory := (by decide : ∀ S ∈ schedules, S.memoryGas < 2 ^ 32) S h
  quadCoeff := (by decide : ∀ S ∈ schedules, S.quadCoeffDiv < 2 ^ 32) S h
  quadCoeff_pos := (by decide : ∀ S ∈ schedules, 0 < S.quadCoeffDiv) S h
  copy := (by decide : ∀ S ∈ schedules, S.copyGas < 16) S h
  extcodesize := (by decide : ∀ S ∈ schedules, S.extcodesizeGas < 2 ^ 32) S h
  extcodecopy := (by decide : ∀ S ∈ schedules, S.extcodecopyGas < 2 ^ 32) S h
  balance := (by decide : ∀ S ∈ schedules, S.balanceGas < 2 ^ 32) S h
  suicide := (by decide : ∀ S ∈ schedules, S.suicideGas < 2 ^ 32) S h
  blockhash := (by decide : ∀ S ∈ schedules, S.blockhashGas < 2 ^ 32) S h

end Tos.Tvm
