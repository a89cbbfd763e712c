import Tos.Tvm.Interpreter
import Mathlib.Logic.Relation

/-!
# The interpreter: its entry

`LegacyVM::optimize`, which copies the code, builds the table of jump destinations and, if the
interpreter was compiled with `EVM_OPTIMIZE`, rewrites the code; and `LegacyVM::exec`.

## Main definitions

* `Tos.Tvm.buildJumpDests`: the first loop of `optimize`.
* `firstPass`: its second loop.
* `optimize`, `exec`: the functions of these names.
* `Reached`: the states of an execution in which an instruction is fetched.
-/

namespace Tos.Tvm

variable {σ : Type}

/-- `LegacyVM::copyCode`. -/
def copyCode (code : Bytes) (extraBytes : ℕ) : Bytes := code ++ List.replicate extraBytes 0

/-- The opcodes that only the interpreter itself may put into the code. -/
def synthetic : Instruction → Bool
  | .PUSHC | .JUMPC | .JUMPCI => true
  | _ => false

/-- The first loop of `optimize`: synthetic instructions of the code become invalid, and the places
of the jump destinations are collected. -/
def buildJumpDests (nBytes : ℕ) (code : Bytes) (jumpDests : List ℕ) (pc : ℕ) : Bytes × List ℕ :=
  if pc < nBytes then
    let op := Instruction.ofByte (code.getD pc 0)
    let code := if synthetic op then code.set pc 0xfe else code
    match op with
    | .JUMPDEST => buildJumpDests nBytes code (jumpDests ++ [pc]) (pc + 1)
    | .PUSH n => buildJumpDests nBytes code jumpDests (pc + 1 + (n + 1))
    | _ => buildJumpDests nBytes code jumpDests (pc + 1)
  else (code, jumpDests)
termination_by nBytes - pc

/-- A `PUSH` is replaced by a `PUSHC` that names a place in the pool. The place is kept in 16
bits. -/
def putPUSHC (code : Bytes) (pc nPush poolSize : ℕ) : Bytes :=
  let pool_off := poolSize % 2 ^ 16
  ((((code.set pc 0xac).set (pc + 3) (UInt8.ofNat (nPush - 2))).set (pc + 2)
    (UInt8.ofNat (pool_off % 256))).set (pc + 1) (UInt8.ofNat (pool_off / 256)))

/-- A jump to a constant becomes a jump that is not looked up. -/
def replaceJump (jumpDests : List ℕ) (code : Bytes) (i : ℕ) (val : U256) : Bytes :=
  match Instruction.ofByte (code.getD i 0) with
  | .JUMP => if (verifyJumpDest jumpDests val).isSome then code.set i 0xad else code
  | .JUMPI => if (verifyJumpDest jumpDests val).isSome then code.set i 0xae else code
  | _ => code

/-- The second loop of `optimize`: long constants go to the pool, and jumps to constants are looked
up. -/
def firstPass (nBytes : ℕ) (jumpDests : List ℕ) (code : Bytes) (pool : List U256) (pc : ℕ) :
    Bytes × List U256 :=
  if pc < nBytes then
    match Instruction.ofByte (code.getD pc 0) with
    | .PUSH n =>
      let nPush : ℕ := n + 1
      let val := pushValue (Memory.slice code (pc + 1) nPush)
      let pooled := if 5 < nPush then putPUSHC code pc nPush pool.length else code
      firstPass nBytes jumpDests (replaceJump jumpDests pooled (pc + nPush + 1) val)
        (if 5 < nPush then pool ++ [val] else pool) (pc + nPush + 1)
    | _ => firstPass nBytes jumpDests code pool (pc + 1)
  else (code, pool)
termination_by nBytes - pc

/-- `LegacyVM::optimize`: the code, the jump destinations and the constant pool. -/
def optimize (EVM_OPTIMIZE : Bool) (code : Bytes) : Bytes × List ℕ × List U256 :=
  let (scanned, jumpDests) := buildJumpDests code.length (copyCode code 33) [] 0
  let (rewritten, pool) :=
    if EVM_OPTIMIZE then firstPass code.length jumpDests scanned [] 0 else (scanned, [])
  (rewritten, jumpDests, pool)

/-- The state with which `exec` enters the interpreter: a new object, with the gas cut to its
variable. -/
def initEntry (E : Setup σ) (gas : U256) (host : σ) : LegacyVM σ :=
  let (m_code, m_jumpDests, m_pool) := optimize E.EVM_OPTIMIZE E.ext.code
  { m_io_gas := gas.toNat % 2 ^ 64, m_code, m_jumpDests, m_pool, host }

/-- `LegacyVM::exec`, for at most so many rounds: the outcome, the gas that is left, the calls of
the host and its state. -/
def exec (E : Setup σ) (rounds : ℕ) (gas : U256) (host : σ) :
    Option (Except VMException Bytes × ℕ × List HostCall × σ) :=
  (interpretCases E rounds (initEntry E gas host)).map fun (outcome, vm) =>
    (outcome, vm.m_io_gas, vm.ghost.asked, vm.host)

/-- One round after which the interpreter goes on. -/
def Goes (E : Setup σ) (vm vm' : LegacyVM σ) : Prop := (step E).on vm = (.ok .CONTINUE, vm')

/-- The states in which an instruction is fetched. -/
def Reached (E : Setup σ) (gas : U256) (host : σ) (vm : LegacyVM σ) : Prop :=
  Relation.ReflTransGen (Goes E) (initEntry E gas host) vm

end Tos.Tvm
