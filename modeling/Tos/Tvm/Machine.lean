import Tos.Foundation.Memory
import Tos.Foundation.Method
import Tos.Foundation.BinarySearch
import Tos.Tvm.Instruction
import Tos.Tvm.Schedule
import Tos.Tvm.Word
import Mathlib.Logic.Function.Basic

/-!
# The interpreter: its host, its state and its metering

The class `LegacyVM` with the functions its cases are made of: `fetchInstruction`, the metering
(`updateGas`, `updateMem`, `updateIOGas` and those that set a price), the accesses to memory, and
the calls of the host `ExtVMFace`.

## Main definitions

* `Tos.Tvm.HostCall`, `ExtVMFace`: what the interpreter can ask its host for, and a host.
* `LegacyVM`: the state of the interpreter.
* `VM`: functions of the interpreter: they change its state and may throw.
* `fetchInstruction`, `updateMem`, `updateIOGas`: the functions of these
  names.

## Implementation notes

A host is any automaton: it answers each call from a state of its own and goes on to a next state.
The tracing hook `m_onOp` is left out.

Some facts that the results of this directory speak about are not kept by the interpreter. They are
kept in the record `Ghost`, which no function reads: the calls of the host, whether a 64-bit sum or
product of the metering ever exceeded its word, and what was charged for the expansion of memory.

An access outside the bounds of a vector is undefined in the source; here it throws `outOfBounds`.
-/

namespace Tos.Tvm

/-! ### The host -/

/-- A vector of bytes: its size is at most that of the largest object. -/
abbrev Buffer := { b : Bytes // b.length < 2 ^ 63 }

/-- The vector without bytes. -/
def Buffer.empty : Buffer := ⟨[], Nat.two_pow_pos 63⟩

/-- `CallParameters`. -/
structure CallParameters where
  senderAddress : Address
  codeAddress : Address
  receiveAddress : Address
  valueTransfer : U256
  apparentValue : U256
  gas : U256
  data : Bytes
  staticCall : Bool
  deriving DecidableEq

/-- What the interpreter asks its host for. -/
inductive HostCall where
  | store (n : U256)
  | setStore (n v : U256)
  | balance (a : Address)
  | codeAt (a : Address)
  | codeSizeAt (a : Address)
  | exists_ (a : Address)
  | suicide (a : Address)
  | create (endowment gas : U256) (code : Bytes) (op : Instruction) (salt : U256)
  | call (params : CallParameters)
  | log (topics : List U256) (data : Bytes)
  | blockHash (number : U256)
  | addRefund (gas : ℕ)
  deriving DecidableEq

/-- What the interpreter uses of a `CallResult`, and the gas that the host has put into the
parameters of the call. -/
structure CallAnswer where
  success : Bool
  output : Buffer
  gas : U256

/-- What the interpreter uses of a `CreateResult`, and the gas that the host has left. -/
structure CreateAnswer where
  output : Buffer
  address : Address
  gas : U256

/-- `EnvInfo`, as far as there are instructions that read it. -/
structure EnvInfo where
  author : Address
  timestamp : ℤ
  number : ℤ
  difficulty : U256
  gasLimit : U256

/-- `ExtVMFace`: the context of an execution, and the host as an automaton with states `σ`. The last
of its methods stands for an addition to `sub.refunds`. -/
structure ExtVMFace (σ : Type) where
  evmSchedule : EVMSchedule
  envInfo : EnvInfo
  myAddress : Address
  caller : Address
  origin : Address
  value : U256
  gasPrice : U256
  data : Buffer
  code : Buffer
  depth : ℕ
  staticCall : Bool
  store : U256 → σ → U256 × σ
  setStore : U256 → U256 → σ → σ
  balance : Address → σ → U256 × σ
  codeAt : Address → σ → Buffer × σ
  codeSizeAt : Address → σ → ℕ × σ
  exists_ : Address → σ → Bool × σ
  suicide : Address → σ → σ
  create : U256 → U256 → Bytes → Instruction → U256 → σ → CreateAnswer × σ
  call : CallParameters → σ → CallAnswer × σ
  log : List U256 → Bytes → σ → σ
  blockHash : U256 → σ → U256 × σ
  addRefund : ℕ → σ → σ

/-- What an execution depends on: the host, the hash function, and whether the interpreter was
compiled with `EVM_OPTIMIZE`. -/
structure Setup (σ : Type) where
  ext : ExtVMFace σ
  sha3 : Bytes → U256
  EVM_OPTIMIZE : Bool

/-! ### The state -/

/-- The vectors that the interpreter accesses. -/
inductive Vec where
  | m_mem
  | m_code
  | m_pool
  | data
  deriving DecidableEq

/-- The exceptions of the interpreter. -/
inductive VMException where
  | BadInstruction
  | BadJumpDestination
  | OutOfGas
  | OutOfStack (required size : ℤ)
  | StackUnderflow (required size : ℤ)
  | DisallowedStateChange
  | BufferOverrun (required size : ℕ)
  | RevertInstruction (output : Bytes)
  /-- Not an exception: an access outside the bounds of a vector. -/
  | outOfBounds (v : Vec)
  deriving DecidableEq

/-- What the results speak about and the interpreter does not keep. -/
structure Ghost where
  /-- The calls of the host, the last one first. -/
  asked : List HostCall := []
  /-- Whether a 64-bit sum or product of the metering exceeded its word. -/
  wrapped : Bool := false
  /-- The part of `m_runGas` that is for the expansion of memory. -/
  expansion : ℕ := 0
  /-- What was charged for the expansion of memory. -/
  memoryPaid : ℕ := 0

/-- The state of `LegacyVM`, and that of its host. The stack grows towards smaller indices; `m_SP`
and `m_SPP` are indices into it. -/
structure LegacyVM (σ : Type) where
  m_io_gas : ℕ
  m_output : Bytes := []
  m_mem : Bytes := []
  m_code : Bytes
  m_returnData : Buffer := .empty
  m_stack : ℕ → U256 := fun _ => 0
  m_pool : List U256 := []
  m_OP : Instruction := .STOP
  m_PC : ℕ := 0
  m_SP : ℕ := 1024
  m_SPP : ℕ := 1024
  m_runGas : ℕ := 0
  m_newMemSize : ℕ := 0
  m_copyMemSize : ℕ := 0
  m_jumpDests : List ℕ
  host : σ
  ghost : Ghost := {}

/-- A function of the interpreter. -/
abbrev VM (σ : Type) := Method VMException (LegacyVM σ)

variable {σ : Type}

namespace LegacyVM

/-- `m_SP[i]`. -/
def SP (vm : LegacyVM σ) (i : ℕ) : U256 := vm.m_stack (vm.m_SP + i)

/-- An assignment to `m_SP[i]`. -/
def setSP (vm : LegacyVM σ) (i : ℕ) (v : U256) : LegacyVM σ :=
  { vm with m_stack := Function.update vm.m_stack (vm.m_SP + i) v }

/-- An assignment to `m_SPP[0]`. -/
def setSPP (vm : LegacyVM σ) (v : U256) : LegacyVM σ :=
  { vm with m_stack := Function.update vm.m_stack vm.m_SPP v }

end LegacyVM

/-- The state after a call of the host, which has gone on to a next state. -/
def LegacyVM.afterAsking (vm : LegacyVM σ) (c : HostCall) (host : σ) : LegacyVM σ :=
  { vm with host, ghost := { vm.ghost with asked := c :: vm.ghost.asked } }

/-- A call of a method of the host that gives an answer. -/
def ask {α : Type} (c : HostCall) (method : σ → α × σ) : VM σ α := do
  let vm ← get
  modify fun vm => vm.afterAsking c (method vm.host).2
  pure (method vm.host).1

/-- A call of a method of the host that gives none. -/
def tell (c : HostCall) (method : σ → σ) : VM σ Unit :=
  modify fun vm => vm.afterAsking c (method vm.host)

/-- `m_ext->store`. -/
abbrev askStore (E : Setup σ) (n : U256) : VM σ U256 := ask (.store n) (E.ext.store n)

/-- `m_ext->setStore`. -/
abbrev tellSetStore (E : Setup σ) (n v : U256) : VM σ Unit :=
  tell (.setStore n v) (E.ext.setStore n v)

/-- `m_ext->balance`. -/
abbrev askBalance (E : Setup σ) (a : Address) : VM σ U256 := ask (.balance a) (E.ext.balance a)

/-- `m_ext->codeAt`. -/
abbrev askCodeAt (E : Setup σ) (a : Address) : VM σ Buffer := ask (.codeAt a) (E.ext.codeAt a)

/-- `m_ext->codeSizeAt`. -/
abbrev askCodeSizeAt (E : Setup σ) (a : Address) : VM σ ℕ :=
  ask (.codeSizeAt a) (E.ext.codeSizeAt a)

/-- `m_ext->exists`. -/
abbrev askExists (E : Setup σ) (a : Address) : VM σ Bool := ask (.exists_ a) (E.ext.exists_ a)

/-- `m_ext->suicide`. -/
abbrev tellSuicide (E : Setup σ) (a : Address) : VM σ Unit := tell (.suicide a) (E.ext.suicide a)

/-- `m_ext->create`. -/
abbrev askCreate (E : Setup σ) (endowment gas : U256) (code : Bytes) (op : Instruction)
    (salt : U256) : VM σ CreateAnswer :=
  ask (.create endowment gas code op salt) (E.ext.create endowment gas code op salt)

/-- `m_ext->call`. -/
abbrev askCall (E : Setup σ) (params : CallParameters) : VM σ CallAnswer :=
  ask (.call params) (E.ext.call params)

/-- `m_ext->log`. -/
abbrev tellLog (E : Setup σ) (topics : List U256) (data : Bytes) : VM σ Unit :=
  tell (.log topics data) (E.ext.log topics data)

/-- `m_ext->blockHash`. -/
abbrev askBlockHash (E : Setup σ) (number : U256) : VM σ U256 :=
  ask (.blockHash number) (E.ext.blockHash number)

/-- An addition to `m_ext->sub.refunds`. -/
abbrev tellAddRefund (E : Setup σ) (gas : ℕ) : VM σ Unit :=
  tell (.addRefund gas) (E.ext.addRefund gas)

/-! ### Machine arithmetic -/

/-- Arithmetic of `unsigned`. -/
def u32 (n : ℕ) : ℕ := n % 2 ^ 32

/-- Arithmetic of `u512`. -/
def u512 (n : ℕ) : ℕ := n % 2 ^ 512

/-- The result of a 64-bit operation of the metering. -/
def word64 (n : ℕ) : VM σ ℕ := do
  modify fun vm =>
    { vm with ghost := { vm.ghost with wrapped := vm.ghost.wrapped || decide (2 ^ 64 ≤ n) } }
  pure (n % 2 ^ 64)

/-- `LegacyVM::toInt63`. -/
def toInt63 (v : ℕ) : VM σ ℕ := if 0x7FFFFFFFFFFFFFFF < v then throw .OutOfGas else pure v

/-! ### Metering -/

/-- An assignment to `m_runGas`. -/
def setRunGas (n : ℕ) : VM σ Unit :=
  modify fun vm => { vm with m_runGas := n, ghost := { vm.ghost with expansion := 0 } }

/-- An addition to `m_runGas`. -/
def addRunGas (n : ℕ) : VM σ Unit := do
  let vm ← get
  let sum ← word64 (vm.m_runGas + n)
  modify fun vm => { vm with m_runGas := sum }

/-- An assignment to `m_copyMemSize`. -/
def setCopyMemSize (n : ℕ) : VM σ Unit := modify fun vm => { vm with m_copyMemSize := n }

/-- The check that the gas is there. -/
def checkGas : VM σ Unit := do
  let vm ← get
  Method.onlyIf (vm.m_io_gas < vm.m_runGas) (throw .OutOfGas)

/-- `LegacyVM::memNeed`. -/
def memNeed (offset size : U256) : VM σ ℕ :=
  toInt63 (if size ≠ 0#256 then u512 (offset.toNat + size.toNat) else 0)

/-- `LegacyVM::gasForMem`. -/
def gasForMem (E : Setup σ) (size : ℕ) : VM σ ℕ :=
  let s := size / 32
  toInt63 (u512 (E.ext.evmSchedule.memoryGas * s + s * s / E.ext.evmSchedule.quadCoeffDiv))

/-- `LegacyVM::updateIOGas`. -/
def updateIOGas : VM σ Unit := do
  checkGas
  modify fun vm =>
    { vm with
      m_io_gas := vm.m_io_gas - vm.m_runGas
      ghost := { vm.ghost with
        expansion := 0
        memoryPaid := vm.ghost.memoryPaid + vm.ghost.expansion } }

/-- The first branch of `LegacyVM::updateGas`. -/
def chargeExpansion (E : Setup σ) : VM σ Unit := do
  let vm ← get
  let new ← gasForMem E vm.m_newMemSize
  let old ← gasForMem E vm.m_mem.length
  let gas ← toInt63 ((2 ^ 64 + new - old) % 2 ^ 64)
  addRunGas gas
  modify fun vm =>
    { vm with ghost := { vm.ghost with expansion := vm.ghost.expansion + gas } }

/-- The price of the bytes that are copied, in `LegacyVM::updateGas`. -/
def chargeCopy (E : Setup σ) : VM σ Unit := do
  let vm ← get
  let sum ← word64 (vm.m_copyMemSize + 31)
  let gas ← word64 (E.ext.evmSchedule.copyGas * (sum / 32))
  addRunGas gas

/-- `LegacyVM::updateGas`. -/
def updateGas (E : Setup σ) : VM σ Unit := do
  let vm ← get
  Method.onlyIf (vm.m_mem.length < vm.m_newMemSize) (chargeExpansion E)
  chargeCopy E
  checkGas

/-- `LegacyVM::updateMem`. -/
def updateMem (E : Setup σ) (newMem : ℕ) : VM σ Unit := do
  let sum ← word64 (newMem + 31)
  let size ← word64 (sum / 32 * 32)
  modify fun vm => { vm with m_newMemSize := size }
  updateGas E
  -- A vector that is made longer is filled up with zeros.
  modify fun vm =>
    { vm with m_mem := vm.m_mem ++ List.replicate (vm.m_newMemSize - vm.m_mem.length) 0 }

/-- `LegacyVM::updateSSGas`. The host is asked for the word a second time if the first condition
does not hold. -/
def updateSSGas (E : Setup σ) : VM σ Unit := do
  let vm ← get
  let first ← askStore E (vm.SP 0)
  if first = 0#256 ∧ vm.SP 1 ≠ 0#256 then
    let gas ← toInt63 E.ext.evmSchedule.sstoreSetGas
    setRunGas gas
  else
    let second ← askStore E (vm.SP 0)
    let gas ← toInt63 E.ext.evmSchedule.sstoreResetGas
    setRunGas gas
    Method.onlyIf (second ≠ 0#256 ∧ vm.SP 1 = 0#256)
      (tellAddRefund E E.ext.evmSchedule.sstoreRefundGas)

/-- `LegacyVM::logGasMem`. -/
def logGasMem (E : Setup σ) (n : ℕ) : VM σ Unit := do
  let vm ← get
  let schedule := E.ext.evmSchedule
  let gas ← toInt63 (u512 (u32 (schedule.logGas + schedule.logTopicGas * n) +
    schedule.logDataGas * (vm.SP 1).toNat))
  setRunGas gas
  let need ← memNeed (vm.SP 0) (vm.SP 1)
  updateMem E need

/-! ### The stack and the code -/

/-- `LegacyVM::throwBadStack`, with the size that `m_stackEnd - m_SPP` has at that moment. -/
def throwBadStack (removed added : ℕ) (size : ℤ) : VM σ Unit :=
  if size < removed then throw (.StackUnderflow removed size)
  else throw (.OutOfStack (added - removed) size)

/-- `LegacyVM::adjustStack`. A pointer below the stack, behind which nothing is read, is zero
here. -/
def adjustStack (removed added : ℕ) : VM σ Unit := do
  modify fun vm => { vm with m_SP := vm.m_SPP, m_SPP := vm.m_SPP + removed }
  let vm ← get
  Method.onlyIf (1024 < vm.m_SPP) (throwBadStack removed added (1024 - vm.m_SPP))
  modify fun vm => { vm with m_SPP := vm.m_SPP - added }
  Method.onlyIf (vm.m_SPP < added)
    (throwBadStack removed added (1024 - ((vm.m_SPP : ℤ) - added)))

/-- The byte of the code at a position. -/
def codeByte (pc : ℕ) : VM σ UInt8 := do
  let vm ← get
  match vm.m_code[pc]? with
  | some b => pure b
  | none => throw (.outOfBounds .m_code)

/-- `LegacyVM::fetchInstruction`. There is no price for the tier of the opcodes without a name; what
is read for it is never used. -/
def fetchInstruction (E : Setup σ) : VM σ Unit := do
  let vm ← get
  let b ← codeByte vm.m_PC
  let op := Instruction.ofByte b
  modify fun vm => { vm with m_OP := op }
  adjustStack op.metric.args op.metric.ret
  let gas ← toInt63 (E.ext.evmSchedule.tierStepGas.getD op.metric.gasPriceTier.toNat 0)
  setRunGas gas
  modify fun vm => { vm with m_newMemSize := vm.m_mem.length, m_copyMemSize := 0 }

/-! ### Memory -/

/-- The bytes `[off, off + n)` of a vector. -/
def readBytes (v : Vec) (b : Bytes) (off n : ℕ) : VM σ Bytes :=
  if n = 0 then pure []
  else if off + n ≤ b.length then pure (Memory.slice b off n)
  else throw (.outOfBounds v)

/-- The bytes `[off, off + n)` of the memory. -/
def memRead (off n : ℕ) : VM σ Bytes := do
  let vm ← get
  readBytes .m_mem vm.m_mem off n

/-- The bytes of the memory from `off` on are overwritten. -/
def memWrite (off : ℕ) (src : Bytes) : VM σ Unit := do
  let vm ← get
  if src = [] then pure ()
  else if off + src.length ≤ vm.m_mem.length then
    modify fun vm => { vm with m_mem := Memory.overwrite vm.m_mem off src }
  else throw (.outOfBounds .m_mem)

/-- The bytes that `LegacyVM::copyDataToMemory` takes from the data: all those asked for, or those
up to the end of the data, or none. -/
def sizeToBeCopied (data : Bytes) (bigIndex index size : ℕ) : ℕ :=
  if data.length < bigIndex + size then
    if data.length < bigIndex then 0 else data.length - index
  else size

/-- `LegacyVM::copyDataToMemory`, with the words that its second argument points to. -/
def copyDataToMemory (data : Bytes) (sp0 sp1 sp2 : U256) : VM σ Unit := do
  let offset := sp0.toNat % 2 ^ 64
  let bigIndex := sp1.toNat
  let index := bigIndex % 2 ^ 64
  let size := sp2.toNat % 2 ^ 64
  let n := sizeToBeCopied data bigIndex index size
  let copied ← readBytes .data data index n
  memWrite offset copied
  memWrite (offset + n) (List.replicate (size - n) 0)

/-! ### Jumps -/

/-- `LegacyVM::verifyJumpDest` for the destinations of a table: the position, or none. -/
def verifyJumpDest (jumpDests : List ℕ) (dest : U256) : Option ℕ :=
  if dest.toNat ≤ 0x7FFFFFFFFFFFFFFF then
    if BinarySearch.search jumpDests dest.toNat then some dest.toNat else none
  else none

end Tos.Tvm
