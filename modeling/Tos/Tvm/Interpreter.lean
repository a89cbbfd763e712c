import Tos.Tvm.Machine

/-!
# The interpreter: its cases

`LegacyVM::interpretCases`: one case for each instruction, with `caseCreate` and `caseCall`, to
which the cases of the instructions that call out hand over.

## Main definitions

* `Tos.Tvm.Case`: a case of the interpreter.
* `interpretCase`: the case of an instruction.
* `step`: one round of the interpreter.
* `interpretCases`: rounds until the interpreter halts.

## Implementation notes

Every case meters first and acts then. So a case is written in three parts, which follow each other:
`guard` has the checks before the metering, `charge` goes up to the last call of `updateIOGas`, and
`effect` is the rest. `caseCreate` and `caseCall` are called as soon as the case that asks for them
has ended, so they are written as part of it.

The macros `NEXT`, `CONTINUE` and `BREAK` end the cases. A case that leaves the loop has set
`m_bounce` to zero, and the interpreter halts.
-/

namespace Tos.Tvm

open Method (onlyIf)

variable {σ : Type}

/-- How a case ends. -/
inductive Flow where
  | CONTINUE
  | BREAK
  deriving DecidableEq

/-- The macro `NEXT`. -/
def NEXT : VM σ Flow := do
  modify fun vm => { vm with m_PC := vm.m_PC + 1 }
  pure .CONTINUE

/-- A case of the interpreter: the checks, the metering, and what it does afterwards with the
variables that the metering has set. -/
structure Case (σ : Type) where
  Local : Type := Unit
  guard : VM σ Unit := pure ()
  charge : VM σ Local
  effect : Local → VM σ Flow

/-- A condition under which a case throws. -/
def throwIf (c : Prop) [Decidable c] (e : VMException) : VM σ Unit := onlyIf c (throw e)

/-- An assignment to `m_SPP[0]`. -/
def result (f : LegacyVM σ → U256) : VM σ Unit := modify fun vm => vm.setSPP (f vm)

/-- An instruction at the price of its tier that gives one word. -/
def ordinary (f : LegacyVM σ → U256) : Case σ where
  charge := updateIOGas
  effect _ := do
    result f
    NEXT

/-- The metering of an instruction with a price of its own. -/
def fixedPrice (gas : ℕ) : VM σ Unit := do
  let gas ← toInt63 gas
  setRunGas gas
  updateIOGas

/-- The metering of an instruction that copies to memory; its price is set already. -/
def copyPrice (E : Setup σ) (offset size : LegacyVM σ → U256) : VM σ Unit := do
  let vm ← get
  let n ← toInt63 (size vm).toNat
  setCopyMemSize n
  let need ← memNeed (offset vm) (size vm)
  updateMem E need
  updateIOGas

/-- A truth value as a word. -/
def ofBool (b : Prop) [Decidable b] : U256 := if b then 1#256 else 0#256

/-! ### Instructions that leave the interpreter -/

/-- The metering and the output of `RETURN` and `REVERT`. -/
def outputCharge (E : Setup σ) : VM σ Unit := do
  let vm ← get
  setCopyMemSize 0
  let need ← memNeed (vm.SP 0) (vm.SP 1)
  updateMem E need
  updateIOGas

/-- The output of `RETURN` and `REVERT`, for which the memory is moved away. -/
def takeOutput : VM σ Bytes := do
  let vm ← get
  let output ← memRead ((vm.SP 0).toNat % 2 ^ 64) ((vm.SP 1).toNat % 2 ^ 64)
  modify fun vm => { vm with m_mem := [] }
  pure output

def caseRETURN (E : Setup σ) : Case σ where
  charge := outputCharge E
  effect _ := do
    let output ← takeOutput
    modify fun vm => { vm with m_output := output }
    pure .BREAK

def caseREVERT (E : Setup σ) : Case σ where
  guard := throwIf (E.ext.evmSchedule.haveRevert = false) .BadInstruction
  charge := outputCharge E
  effect _ := do
    let output ← takeOutput
    throw (.RevertInstruction output)

/-- Whether `SUICIDE` has to pay for a new account. -/
def suicideChecks (E : Setup σ) (dest : Address) : VM σ Unit := do
  let balance ← askBalance E E.ext.myAddress
  onlyIf (balance ≠ 0#256 ∨ E.ext.evmSchedule.zeroValueTransferChargesNewAccountGas = true)
    (onlyIf (E.ext.evmSchedule.suicideChargesNewAccountGas = true) do
      let found ← askExists E dest
      onlyIf (found = false) (addRunGas E.ext.evmSchedule.callNewAccountGas))

def caseSUICIDE (E : Setup σ) : Case σ where
  guard := throwIf (E.ext.staticCall = true) .DisallowedStateChange
  charge := do
    let vm ← get
    let gas ← toInt63 E.ext.evmSchedule.suicideGas
    setRunGas gas
    suicideChecks E (asAddress (vm.SP 0))
    updateIOGas
  effect _ := do
    let vm ← get
    tellSuicide E (asAddress (vm.SP 0))
    pure .BREAK

def caseSTOP : Case σ where
  charge := updateIOGas
  effect _ := pure .BREAK

/-- The cases of the instructions that are never executed. -/
def badInstruction : Case σ where
  guard := throw .BadInstruction
  charge := pure ()
  effect _ := pure .BREAK

/-! ### Instructions that may expand the memory -/

/-- The metering of the instructions that access `n` bytes of the memory at `m_SP[0]`. -/
def wordCharge (E : Setup σ) (n : ℕ) : VM σ Unit := do
  let vm ← get
  let offset ← toInt63 (vm.SP 0).toNat
  let need ← word64 (offset + n)
  updateMem E need
  updateIOGas

def caseMLOAD (E : Setup σ) : Case σ where
  charge := wordCharge E 32
  effect _ := do
    let vm ← get
    let word ← memRead (u32 (vm.SP 0).toNat) 32
    result fun _ => ofWordBytes word
    NEXT

def caseMSTORE (E : Setup σ) : Case σ where
  charge := wordCharge E 32
  effect _ := do
    let vm ← get
    memWrite (u32 (vm.SP 0).toNat) (wordBytes (vm.SP 1))
    NEXT

def caseMSTORE8 (E : Setup σ) : Case σ where
  charge := wordCharge E 1
  effect _ := do
    let vm ← get
    memWrite (u32 (vm.SP 0).toNat) [UInt8.ofNat (vm.SP 1).toNat]
    NEXT

def caseSHA3 (E : Setup σ) : Case σ where
  charge := do
    let vm ← get
    let gas ← toInt63 (u512 (E.ext.evmSchedule.sha3Gas +
      ((vm.SP 1).toNat + 31) / 32 * E.ext.evmSchedule.sha3WordGas))
    setRunGas gas
    let need ← memNeed (vm.SP 0) (vm.SP 1)
    updateMem E need
    updateIOGas
  effect _ := do
    let vm ← get
    let bytes ← memRead ((vm.SP 0).toNat % 2 ^ 64) ((vm.SP 1).toNat % 2 ^ 64)
    result fun _ => E.sha3 bytes
    NEXT

/-- `LOG0` to `LOG4`. -/
def caseLOG (E : Setup σ) (n : ℕ) : Case σ where
  guard := throwIf (E.ext.staticCall = true) .DisallowedStateChange
  charge := do
    logGasMem E n
    updateIOGas
  effect _ := do
    let vm ← get
    let bytes ← memRead ((vm.SP 0).toNat % 2 ^ 64) ((vm.SP 1).toNat % 2 ^ 64)
    tellLog E ((List.range n).map fun i => vm.SP (2 + i)) bytes
    NEXT

/-! ### Instructions with a price of their own -/

def caseEXP (E : Setup σ) : Case σ where
  charge := do
    let vm ← get
    fixedPrice (u32 (E.ext.evmSchedule.expGas +
      u32 (E.ext.evmSchedule.expByteGas * (32 - firstBitSet (wordBytes (vm.SP 1)) / 8))))
  effect _ := do
    result fun vm => exp256 (vm.SP 0) (vm.SP 1)
    NEXT

def caseBALANCE (E : Setup σ) : Case σ where
  charge := fixedPrice E.ext.evmSchedule.balanceGas
  effect _ := do
    let vm ← get
    let balance ← askBalance E (asAddress (vm.SP 0))
    result fun _ => balance
    NEXT

def caseEXTCODESIZE (E : Setup σ) : Case σ where
  charge := fixedPrice E.ext.evmSchedule.extcodesizeGas
  effect _ := do
    let vm ← get
    let size ← askCodeSizeAt E (asAddress (vm.SP 0))
    result fun _ => BitVec.ofNat 256 size
    NEXT

def caseBLOCKHASH (E : Setup σ) : Case σ where
  charge := fixedPrice E.ext.evmSchedule.blockhashGas
  effect _ := do
    let vm ← get
    let hash ← askBlockHash E (vm.SP 0)
    result fun _ => hash
    NEXT

def caseSLOAD (E : Setup σ) : Case σ where
  charge := fixedPrice E.ext.evmSchedule.sloadGas
  effect _ := do
    let vm ← get
    let value ← askStore E (vm.SP 0)
    result fun _ => value
    NEXT

def caseSSTORE (E : Setup σ) : Case σ where
  guard := throwIf (E.ext.staticCall = true) .DisallowedStateChange
  charge := do
    updateSSGas E
    updateIOGas
  effect _ := do
    let vm ← get
    tellSetStore E (vm.SP 0) (vm.SP 1)
    NEXT

def caseJUMPDEST : Case σ where
  charge := do
    setRunGas 1
    updateIOGas
  effect _ := NEXT

/-! ### Instructions that change an operand in place -/

/-- `SIGNEXTEND` writes to `m_SP[1]`, which is `m_SPP[0]`. -/
def caseSIGNEXTEND : Case σ where
  charge := updateIOGas
  effect _ := do
    modify fun vm => vm.setSP 1 (signextend (vm.SP 0) (vm.SP 1))
    NEXT

/-- The word of the call data at an offset. -/
def callDataWord (data : Bytes) (offset : U256) : U256 :=
  if u512 (offset.toNat + 31) < data.length then
    ofWordBytes (Memory.slice data (offset.toNat % 2 ^ 64) 32)
  else if data.length ≤ offset.toNat then 0#256
  else ofWordBytes ((List.range 32).map fun j => data.getD (offset.toNat % 2 ^ 64 + j) 0)

/-- `CALLDATALOAD` writes to `m_SP[0]`, which is `m_SPP[0]`. -/
def caseCALLDATALOAD (E : Setup σ) : Case σ where
  charge := updateIOGas
  effect _ := do
    modify fun vm => vm.setSP 0 (callDataWord E.ext.data (vm.SP 0))
    NEXT

/-! ### Instructions that copy to memory -/

def caseCALLDATACOPY (E : Setup σ) : Case σ where
  charge := copyPrice E (·.SP 0) (·.SP 2)
  effect _ := do
    let vm ← get
    copyDataToMemory E.ext.data (vm.SP 0) (vm.SP 1) (vm.SP 2)
    NEXT

def caseRETURNDATACOPY (E : Setup σ) : Case σ where
  guard := do
    throwIf (E.ext.evmSchedule.haveReturnData = false) .BadInstruction
    let vm ← get
    let endOfAccess := (vm.SP 1).toNat + (vm.SP 2).toNat
    let size := vm.m_returnData.val.length
    throwIf (size < endOfAccess) (.BufferOverrun endOfAccess size)
  charge := copyPrice E (·.SP 0) (·.SP 2)
  effect _ := do
    let vm ← get
    copyDataToMemory vm.m_returnData (vm.SP 0) (vm.SP 1) (vm.SP 2)
    NEXT

def caseCODECOPY (E : Setup σ) : Case σ where
  charge := copyPrice E (·.SP 0) (·.SP 2)
  effect _ := do
    let vm ← get
    copyDataToMemory E.ext.code (vm.SP 0) (vm.SP 1) (vm.SP 2)
    NEXT

def caseEXTCODECOPY (E : Setup σ) : Case σ where
  charge := do
    let gas ← toInt63 E.ext.evmSchedule.extcodecopyGas
    setRunGas gas
    copyPrice E (·.SP 1) (·.SP 3)
  effect _ := do
    let vm ← get
    let code ← askCodeAt E (asAddress (vm.SP 0))
    copyDataToMemory code (vm.SP 1) (vm.SP 2) (vm.SP 3)
    NEXT

/-! ### The stack -/

/-- `POP` moves `m_SP` back, which the next fetch undoes. -/
def casePOP : Case σ where
  charge := updateIOGas
  effect _ := do
    modify fun vm => { vm with m_SP := vm.m_SP - 1 }
    NEXT

/-- `SDIV` moves `m_SP` back as `POP` does. -/
def caseSDIV : Case σ where
  charge := updateIOGas
  effect _ := do
    result fun vm => sdiv (vm.SP 0) (vm.SP 1)
    modify fun vm => { vm with m_SP := vm.m_SP - 1 }
    NEXT

/-- The number that some bytes of the code make up. -/
def pushValue (bytes : Bytes) : U256 :=
  bytes.foldl (fun acc b => acc <<< 8 ||| BitVec.ofNat 256 b.toNat) 0#256

/-- `PUSH1` to `PUSH32`, by the number of bytes. The case of `PUSH1` in the source is the loop of
the others with one round. -/
def casePUSH (numBytes : ℕ) : Case σ where
  charge := updateIOGas
  effect _ := do
    let vm ← get
    let bytes ← readBytes .m_code vm.m_code (vm.m_PC + 1) numBytes
    result fun _ => pushValue bytes
    modify fun vm => { vm with m_PC := vm.m_PC + 1 + numBytes }
    pure .CONTINUE

/-- `PUSHC`: two bytes for the place in the constant pool, and one byte for the way to the next
instruction. -/
def casePUSHC (E : Setup σ) : Case σ where
  guard := throwIf (E.EVM_OPTIMIZE = false) .BadInstruction
  charge := updateIOGas
  effect _ := do
    let vm ← get
    let high ← codeByte (vm.m_PC + 1)
    let low ← codeByte (vm.m_PC + 2)
    let rest ← codeByte (vm.m_PC + 3)
    match vm.m_pool[high.toNat * 256 + low.toNat]? with
    | none => throw (.outOfBounds .m_pool)
    | some value =>
      result fun _ => value
      modify fun vm => { vm with m_PC := vm.m_PC + 3 + rest.toNat }
      pure .CONTINUE

/-- `DUP1` to `DUP16`, from zero on. -/
def caseDUP (n : ℕ) : Case σ := ordinary fun vm => vm.SP n

/-- `SWAP1` to `SWAP16`, from zero on. -/
def caseSWAP (n : ℕ) : Case σ where
  charge := updateIOGas
  effect _ := do
    modify fun vm => (vm.setSP 0 (vm.SP (n + 1))).setSP (n + 1) (vm.SP 0)
    NEXT

/-! ### Jumps -/

/-- A jump to a destination that is looked up. -/
def jumpTo (dest : U256) : VM σ Flow := do
  let vm ← get
  match verifyJumpDest vm.m_jumpDests dest with
  | none => throw .BadJumpDestination
  | some pc =>
    modify fun vm => { vm with m_PC := pc }
    pure .CONTINUE

/-- A jump to a destination that was looked up before. -/
def jumpVerified (dest : U256) : VM σ Flow := do
  modify fun vm => { vm with m_PC := dest.toNat % 2 ^ 64 }
  pure .CONTINUE

def caseJUMP : Case σ where
  charge := updateIOGas
  effect _ := do
    let vm ← get
    jumpTo (vm.SP 0)

def caseJUMPI : Case σ where
  charge := updateIOGas
  effect _ := do
    let vm ← get
    if vm.SP 1 ≠ 0#256 then jumpTo (vm.SP 0) else NEXT

def caseJUMPC (E : Setup σ) : Case σ where
  guard := throwIf (E.EVM_OPTIMIZE = false) .BadInstruction
  charge := updateIOGas
  effect _ := do
    let vm ← get
    jumpVerified (vm.SP 0)

def caseJUMPCI (E : Setup σ) : Case σ where
  guard := throwIf (E.EVM_OPTIMIZE = false) .BadInstruction
  charge := updateIOGas
  effect _ := do
    let vm ← get
    if vm.SP 1 ≠ 0#256 then jumpVerified (vm.SP 0) else NEXT

/-! ### Instructions that call out -/

/-- `salt` of `caseCreate`. -/
def createSalt (vm : LegacyVM σ) : U256 := if vm.m_OP = .CREATE then 0#256 else vm.SP 1

/-- `initOff` of `caseCreate`. -/
def initOff (vm : LegacyVM σ) : U256 := if vm.m_OP = .CREATE then vm.SP 1 else vm.SP 2

/-- `initSize` of `caseCreate`. -/
def initSize (vm : LegacyVM σ) : U256 := if vm.m_OP = .CREATE then vm.SP 2 else vm.SP 3

/-- The gas that the code of a new contract may use. -/
def createGas (E : Setup σ) (gas : ℕ) : U256 :=
  let createGas := BitVec.ofNat 256 gas
  if E.ext.evmSchedule.staticCallDepthLimit = false then createGas - createGas / 64#256
  else createGas

/-- The branch of `caseCreate` in which the host is called. -/
def createContract (E : Setup σ) : VM σ Unit := do
  let vm ← get
  let createGas := createGas E vm.m_io_gas
  let initCode ← memRead ((initOff vm).toNat % 2 ^ 64) ((initSize vm).toNat % 2 ^ 64)
  let answer ← askCreate E (vm.SP 0) createGas initCode vm.m_OP (createSalt vm)
  result fun _ => fromAddress answer.address
  modify fun vm =>
    { vm with
      m_returnData := answer.output
      m_io_gas :=
        (BitVec.ofNat 256 vm.m_io_gas - (createGas - answer.gas)).toNat % 2 ^ 64 }

/-- `LegacyVM::caseCreate`. -/
def caseCreate (E : Setup σ) (guard : VM σ Unit) : Case σ where
  guard := guard
  charge := do
    let gas ← toInt63 E.ext.evmSchedule.createGas
    setRunGas gas
    let vm ← get
    let need ← memNeed (initOff vm) (initSize vm)
    updateMem E need
    updateIOGas
  effect _ := do
    modify fun vm => { vm with m_returnData := .empty }
    let vm ← get
    let balance ← askBalance E E.ext.myAddress
    if vm.SP 0 ≤ balance ∧ E.ext.depth < 1024 then
      createContract E
      NEXT
    else
      result fun _ => 0#256
      NEXT

/-- `haveValueArg` of `caseCallSetup`. -/
def haveValueArg (op : Instruction) : Bool := op = .CALL || op = .CALLCODE

/-- The value argument of a call, zero for an instruction that has none. -/
def callValue (vm : LegacyVM σ) : U256 := if haveValueArg vm.m_OP then vm.SP 2 else 0#256

/-- `m_SP[sizesOffset + i]` of `caseCallSetup`. -/
def callRange (vm : LegacyVM σ) (i : ℕ) : U256 :=
  vm.SP ((if haveValueArg vm.m_OP then 3 else 2) + i)

/-- The price of a new account in `caseCallSetup`. -/
def chargeNewAccount (E : Setup σ) : VM σ Unit := do
  let vm ← get
  onlyIf (vm.m_OP = .CALL) do
    let found ← askExists E (asAddress (vm.SP 1))
    onlyIf (found = false ∧ (vm.SP 2 ≠ 0#256 ∨
        E.ext.evmSchedule.zeroValueTransferChargesNewAccountGas = true)) do
      let gas ← toInt63 E.ext.evmSchedule.callNewAccountGas
      addRunGas gas

/-- The gas of a call, before the stipend. -/
def callGas (E : Setup σ) (vm : LegacyVM σ) : U256 :=
  if E.ext.evmSchedule.staticCallDepthLimit = true then vm.SP 0
  else
    let maxAllowedCallGas := BitVec.ofNat 256 (vm.m_io_gas - vm.m_io_gas / 64)
    if maxAllowedCallGas < vm.SP 0 then maxAllowedCallGas else vm.SP 0

/-- The price of a transfer of value in `caseCallSetup`. -/
def chargeValueTransfer (E : Setup σ) : VM σ Unit := do
  let vm ← get
  onlyIf (callValue vm ≠ 0#256) do
    let gas ← toInt63 E.ext.evmSchedule.callValueTransferGas
    addRunGas gas

/-- The static costs of a call: `LegacyVM::caseCallSetup` up to its first call of `updateIOGas`. -/
def callStaticCosts (E : Setup σ) : VM σ Unit := do
  let vm ← get
  let gas ← toInt63 E.ext.evmSchedule.callGas
  setRunGas gas
  chargeNewAccount E
  chargeValueTransfer E
  let inputMemNeed ← memNeed (callRange vm 0) (callRange vm 1)
  let outputMemNeed ← memNeed (callRange vm 2) (callRange vm 3)
  updateMem E (max inputMemNeed outputMemNeed)
  updateIOGas

/-- The gas of a call is deducted. -/
def passOnGas (E : Setup σ) : VM σ U256 := do
  let vm ← get
  let gas ← toInt63 (callGas E vm).toNat
  setRunGas gas
  updateIOGas
  pure (callGas E vm)

/-- `LegacyVM::caseCallSetup` up to its last call of `updateIOGas`; its value is that of
`callParams->gas` at that point. -/
def caseCallSetup (E : Setup σ) : VM σ U256 := do
  callStaticCosts E
  passOnGas E

/-- The parameters of a call, with its gas and its input. -/
def callParameters (E : Setup σ) (vm : LegacyVM σ) (gas : U256) (data : Bytes) :
    CallParameters where
  senderAddress := if vm.m_OP = .DELEGATECALL then E.ext.caller else E.ext.myAddress
  codeAddress := asAddress (vm.SP 1)
  receiveAddress :=
    if vm.m_OP = .CALL ∨ vm.m_OP = .STATICCALL then asAddress (vm.SP 1) else E.ext.myAddress
  valueTransfer := callValue vm
  apparentValue :=
    if haveValueArg vm.m_OP then vm.SP 2
    else if vm.m_OP = .DELEGATECALL then E.ext.value else 0#256
  gas := gas
  data := data
  staticCall := vm.m_OP = .STATICCALL || E.ext.staticCall

/-- The gas of a call with the stipend. -/
def callGasWithStipend (E : Setup σ) (vm : LegacyVM σ) (gas : U256) : U256 :=
  if callValue vm ≠ 0#256 then gas + BitVec.ofNat 256 E.ext.evmSchedule.callStipend else gas

/-- The branch of `caseCall` in which the host is called. The output goes to memory as far as there
is room for it; the gas is what the host has left. -/
def callContract (E : Setup σ) (gas : U256) : VM σ U256 := do
  let vm ← get
  let data ← memRead ((callRange vm 0).toNat % 2 ^ 64) ((callRange vm 1).toNat % 2 ^ 64)
  let answer ← askCall E (callParameters E vm gas data)
  memWrite ((callRange vm 2).toNat % 2 ^ 64)
    (answer.output.val.take ((callRange vm 3).toNat % 2 ^ 64))
  modify fun vm => { vm with m_returnData := answer.output }
  result fun _ => ofBool (answer.success = true)
  pure answer.gas

/-- The gas that is left of a call comes back, and the interpreter goes on. -/
def callReturn (gas : U256) : VM σ Flow := do
  modify fun vm => { vm with m_io_gas := (vm.m_io_gas + gas.toNat % 2 ^ 64) % 2 ^ 64 }
  NEXT

/-- `LegacyVM::caseCall`. -/
def caseCall (E : Setup σ) (guard : VM σ Unit) : Case σ where
  Local := U256
  guard := guard
  charge := do
    modify fun vm => { vm with m_returnData := .empty }
    caseCallSetup E
  effect gas := do
    let vm ← get
    let gas := callGasWithStipend E vm gas
    let balance ← askBalance E E.ext.myAddress
    if callValue vm ≤ balance ∧ E.ext.depth < 1024 then
      let left ← callContract E gas
      callReturn left
    else
      result fun _ => 0#256
      callReturn gas

/-! ### The cases -/

/-- The case of an instruction. -/
def interpretCase (E : Setup σ) : Instruction → Case σ
  | .CREATE2 =>
    caseCreate E (throwIf (E.ext.evmSchedule.haveCreate2 = false) .BadInstruction)
  | .CREATE => caseCreate E (throwIf (E.ext.staticCall = true) .DisallowedStateChange)
  | .DELEGATECALL =>
    caseCall E (throwIf (E.ext.evmSchedule.haveDelegateCall = false) .BadInstruction)
  | .STATICCALL =>
    caseCall E (throwIf (E.ext.evmSchedule.haveStaticCall = false) .BadInstruction)
  | .CALL => caseCall E do
      let vm ← get
      throwIf (E.ext.staticCall = true ∧ vm.SP 2 ≠ 0#256) .DisallowedStateChange
  | .CALLCODE => caseCall E (pure ())
  | .RETURN => caseRETURN E
  | .REVERT => caseREVERT E
  | .SUICIDE => caseSUICIDE E
  | .STOP => caseSTOP
  | .MLOAD => caseMLOAD E
  | .MSTORE => caseMSTORE E
  | .MSTORE8 => caseMSTORE8 E
  | .SHA3 => caseSHA3 E
  | .LOG n => caseLOG E n
  | .EXP => caseEXP E
  | .ADD => ordinary fun vm => vm.SP 0 + vm.SP 1
  | .MUL => ordinary fun vm => vm.SP 0 * vm.SP 1
  | .SUB => ordinary fun vm => vm.SP 0 - vm.SP 1
  | .DIV => ordinary fun vm => div (vm.SP 0) (vm.SP 1)
  | .SDIV => caseSDIV
  | .MOD => ordinary fun vm => mod (vm.SP 0) (vm.SP 1)
  | .SMOD => ordinary fun vm => smod (vm.SP 0) (vm.SP 1)
  | .NOT => ordinary fun vm => ~~~vm.SP 0
  | .LT => ordinary fun vm => ofBool (vm.SP 0 < vm.SP 1)
  | .GT => ordinary fun vm => ofBool (vm.SP 1 < vm.SP 0)
  | .SLT => ordinary fun vm => ofBool (u2s (vm.SP 0) < u2s (vm.SP 1))
  | .SGT => ordinary fun vm => ofBool (u2s (vm.SP 1) < u2s (vm.SP 0))
  | .EQ => ordinary fun vm => ofBool (vm.SP 0 = vm.SP 1)
  | .ISZERO => ordinary fun vm => ofBool (vm.SP 0 = 0#256)
  | .AND => ordinary fun vm => vm.SP 0 &&& vm.SP 1
  | .OR => ordinary fun vm => vm.SP 0 ||| vm.SP 1
  | .XOR => ordinary fun vm => vm.SP 0 ^^^ vm.SP 1
  | .BYTE => ordinary fun vm => byte (vm.SP 0) (vm.SP 1)
  | .SHL =>
    { ordinary fun vm =>
        if 256 ≤ (vm.SP 0).toNat then 0#256 else vm.SP 1 <<< (vm.SP 0).toNat with
      guard := throwIf (E.ext.evmSchedule.haveBitwiseShifting = false) .BadInstruction }
  | .SHR =>
    { ordinary fun vm =>
        if 256 ≤ (vm.SP 0).toNat then 0#256 else vm.SP 1 >>> (vm.SP 0).toNat with
      guard := throwIf (E.ext.evmSchedule.haveBitwiseShifting = false) .BadInstruction }
  | .SAR =>
    { ordinary fun vm => sar (vm.SP 0) (vm.SP 1) with
      guard := throwIf (E.ext.evmSchedule.haveBitwiseShifting = false) .BadInstruction }
  | .ADDMOD => ordinary fun vm =>
      if vm.SP 2 ≠ 0#256 then
        BitVec.ofNat 256 (u512 ((vm.SP 0).toNat + (vm.SP 1).toNat) % (vm.SP 2).toNat)
      else 0#256
  | .MULMOD => ordinary fun vm =>
      if vm.SP 2 ≠ 0#256 then
        BitVec.ofNat 256 (u512 ((vm.SP 0).toNat * (vm.SP 1).toNat) % (vm.SP 2).toNat)
      else 0#256
  | .SIGNEXTEND => caseSIGNEXTEND
  | .subroutine _ => badInstruction
  | .simd _ => badInstruction
  | .ADDRESS => ordinary fun _ => fromAddress E.ext.myAddress
  | .ORIGIN => ordinary fun _ => fromAddress E.ext.origin
  | .BALANCE => caseBALANCE E
  | .CALLER => ordinary fun _ => fromAddress E.ext.caller
  | .CALLVALUE => ordinary fun _ => E.ext.value
  | .CALLDATALOAD => caseCALLDATALOAD E
  | .CALLDATASIZE => ordinary fun _ => BitVec.ofNat 256 E.ext.data.val.length
  | .RETURNDATASIZE =>
    { ordinary fun vm => BitVec.ofNat 256 vm.m_returnData.val.length with
      guard := throwIf (E.ext.evmSchedule.haveReturnData = false) .BadInstruction }
  | .CODESIZE => ordinary fun _ => BitVec.ofNat 256 E.ext.code.val.length
  | .EXTCODESIZE => caseEXTCODESIZE E
  | .CALLDATACOPY => caseCALLDATACOPY E
  | .RETURNDATACOPY => caseRETURNDATACOPY E
  | .CODECOPY => caseCODECOPY E
  | .EXTCODECOPY => caseEXTCODECOPY E
  | .GASPRICE => ordinary fun _ => E.ext.gasPrice
  | .BLOCKHASH => caseBLOCKHASH E
  | .COINBASE => ordinary fun _ => fromAddress E.ext.envInfo.author
  | .TIMESTAMP => ordinary fun _ => BitVec.ofInt 256 E.ext.envInfo.timestamp
  | .NUMBER => ordinary fun _ => BitVec.ofInt 256 E.ext.envInfo.number
  | .DIFFICULTY => ordinary fun _ => E.ext.envInfo.difficulty
  | .GASLIMIT => ordinary fun _ => E.ext.envInfo.gasLimit
  | .POP => casePOP
  | .PUSHC => casePUSHC E
  | .PUSH n => casePUSH (n + 1)
  | .JUMP => caseJUMP
  | .JUMPI => caseJUMPI
  | .JUMPC => caseJUMPC E
  | .JUMPCI => caseJUMPCI E
  | .DUP n => caseDUP n
  | .SWAP n => caseSWAP n
  | .SLOAD => caseSLOAD E
  | .SSTORE => caseSSTORE E
  | .PC => ordinary fun vm => BitVec.ofNat 256 vm.m_PC
  | .MSIZE => ordinary fun vm => BitVec.ofNat 256 vm.m_mem.length
  | .GAS => ordinary fun vm => BitVec.ofNat 256 vm.m_io_gas
  | .JUMPDEST => caseJUMPDEST
  | .INVALID => badInstruction
  | .unassigned => badInstruction

/-- One round of the interpreter. -/
def step (E : Setup σ) : VM σ Flow := do
  fetchInstruction E
  let vm ← get
  let c := interpretCase E vm.m_OP
  c.guard
  let locals ← c.charge
  c.effect locals

/-- Rounds until the interpreter halts, at most so many: the outcome and the state in which it
halts. -/
def interpretCases (E : Setup σ) : ℕ → LegacyVM σ → Option (Except VMException Bytes × LegacyVM σ)
  | 0, _ => none
  | rounds + 1, vm =>
    match (step E).on vm with
    | (.ok .CONTINUE, vm') => interpretCases E rounds vm'
    | (.ok .BREAK, vm') => some (.ok vm'.m_output, vm')
    | (.error e, vm') => some (.error e, vm')

end Tos.Tvm
