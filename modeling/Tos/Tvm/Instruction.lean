import Mathlib

/-!
# The instructions of the virtual machine

The opcodes of `Instruction.h`, with the items they take from the stack and put on it and the tier
of their price, as the table `c_instructionInfo` has them.

## Main definitions

* `Tos.Tvm.Instruction`: the instructions; those of a family, such as `PUSH1` to `PUSH32`, are one
  constructor.
* `Instruction.ofByte`: the instruction of an opcode.
* `Instruction.metric`: `c_metrics`.

## Implementation notes

The instructions of EIP 615 and EIP 616 are compiled only if the macros of these names are set,
which they are not; then they are bad instructions, but the stack is checked for them as for all
others. The table names `XOR` twice. A map keeps the first of two entries with one key, so the
second one, which stands where `XOOR` should stand, has no effect and `XOOR` is not in the table.
-/

namespace Tos.Tvm

/-- `Tier`. -/
inductive Tier where
  | Zero | Base | VeryLow | Low | Mid | High | Ext | Special | Invalid
  deriving DecidableEq

/-- The number of a tier, as `tierStepGas` is indexed with it. -/
def Tier.toNat : Tier → ℕ
  | .Zero => 0
  | .Base => 1
  | .VeryLow => 2
  | .Low => 3
  | .Mid => 4
  | .High => 5
  | .Ext => 6
  | .Special => 7
  | .Invalid => 8

/-- `InstructionMetric`. -/
structure InstructionMetric where
  gasPriceTier : Tier
  args : ℕ
  ret : ℕ

/-- The instructions of EIP 615. -/
inductive SubroutineOp where
  | JUMPTO | JUMPIF | JUMPSUB | JUMPV | JUMPSUBV | BEGINSUB | BEGINDATA | RETURNSUB | PUTLOCAL
  | GETLOCAL
  deriving DecidableEq

/-- The instructions of EIP 616. -/
inductive SimdOp where
  | XADD | XMUL | XSUB | XDIV | XSDIV | XMOD | XSMOD | XLT | XGT | XSLT | XSGT | XEQ | XISZERO
  | XAND | XOOR | XXOR | XNOT | XSHL | XSHR | XSAR | XROL | XROR | XPUSH | XMLOAD | XMSTORE
  | XSLOAD | XSSTORE | XVTOWIDE | XWIDETOV | XGET | XPUT | XSWIZZLE | XSHUFFLE
  deriving DecidableEq

/-- `Instruction`. The members of a family are counted from zero: `PUSH n` is `PUSH1` for `n = 0`.
-/
inductive Instruction where
  | STOP | ADD | MUL | SUB | DIV | SDIV | MOD | SMOD | ADDMOD | MULMOD | EXP | SIGNEXTEND
  | LT | GT | SLT | SGT | EQ | ISZERO | AND | OR | XOR | NOT | BYTE | SHL | SHR | SAR
  | SHA3
  | ADDRESS | BALANCE | ORIGIN | CALLER | CALLVALUE | CALLDATALOAD | CALLDATASIZE | CALLDATACOPY
  | CODESIZE | CODECOPY | GASPRICE | EXTCODESIZE | EXTCODECOPY | RETURNDATASIZE | RETURNDATACOPY
  | BLOCKHASH | COINBASE | TIMESTAMP | NUMBER | DIFFICULTY | GASLIMIT
  | POP | MLOAD | MSTORE | MSTORE8 | SLOAD | SSTORE | JUMP | JUMPI | PC | MSIZE | GAS | JUMPDEST
  | PUSH (n : Fin 32)
  | DUP (n : Fin 16)
  | SWAP (n : Fin 16)
  | LOG (n : Fin 5)
  | PUSHC | JUMPC | JUMPCI
  | subroutine (op : SubroutineOp)
  | simd (op : SimdOp)
  | CREATE | CALL | CALLCODE | RETURN | DELEGATECALL | STATICCALL | CREATE2 | REVERT | INVALID
  | SUICIDE
  /-- An opcode without a name. -/
  | unassigned
  deriving DecidableEq

namespace Instruction

/-- The instructions that are not of a family, by their opcodes. -/
def single : ℕ → Instruction
  | 0x00 => STOP
  | 0x01 => ADD
  | 0x02 => MUL
  | 0x03 => SUB
  | 0x04 => DIV
  | 0x05 => SDIV
  | 0x06 => MOD
  | 0x07 => SMOD
  | 0x08 => ADDMOD
  | 0x09 => MULMOD
  | 0x0a => EXP
  | 0x0b => SIGNEXTEND
  | 0x10 => LT
  | 0x11 => GT
  | 0x12 => SLT
  | 0x13 => SGT
  | 0x14 => EQ
  | 0x15 => ISZERO
  | 0x16 => AND
  | 0x17 => OR
  | 0x18 => XOR
  | 0x19 => NOT
  | 0x1a => BYTE
  | 0x1b => SHL
  | 0x1c => SHR
  | 0x1d => SAR
  | 0x20 => SHA3
  | 0x30 => ADDRESS
  | 0x31 => BALANCE
  | 0x32 => ORIGIN
  | 0x33 => CALLER
  | 0x34 => CALLVALUE
  | 0x35 => CALLDATALOAD
  | 0x36 => CALLDATASIZE
  | 0x37 => CALLDATACOPY
  | 0x38 => CODESIZE
  | 0x39 => CODECOPY
  | 0x3a => GASPRICE
  | 0x3b => EXTCODESIZE
  | 0x3c => EXTCODECOPY
  | 0x3d => RETURNDATASIZE
  | 0x3e => RETURNDATACOPY
  | 0x40 => BLOCKHASH
  | 0x41 => COINBASE
  | 0x42 => TIMESTAMP
  | 0x43 => NUMBER
  | 0x44 => DIFFICULTY
  | 0x45 => GASLIMIT
  | 0x50 => POP
  | 0x51 => MLOAD
  | 0x52 => MSTORE
  | 0x53 => MSTORE8
  | 0x54 => SLOAD
  | 0x55 => SSTORE
  | 0x56 => JUMP
  | 0x57 => JUMPI
  | 0x58 => PC
  | 0x59 => MSIZE
  | 0x5a => GAS
  | 0x5b => JUMPDEST
  | 0xac => PUSHC
  | 0xad => JUMPC
  | 0xae => JUMPCI
  | 0xb0 => subroutine .JUMPTO
  | 0xb1 => subroutine .JUMPIF
  | 0xb2 => subroutine .JUMPSUB
  | 0xb3 => subroutine .JUMPV
  | 0xb4 => subroutine .JUMPSUBV
  | 0xb5 => subroutine .BEGINSUB
  | 0xb6 => subroutine .BEGINDATA
  | 0xb7 => subroutine .RETURNSUB
  | 0xb8 => subroutine .PUTLOCAL
  | 0xb9 => subroutine .GETLOCAL
  | 0xc1 => simd .XADD
  | 0xc2 => simd .XMUL
  | 0xc3 => simd .XSUB
  | 0xc4 => simd .XDIV
  | 0xc5 => simd .XSDIV
  | 0xc6 => simd .XMOD
  | 0xc7 => simd .XSMOD
  | 0xd0 => simd .XLT
  | 0xd1 => simd .XGT
  | 0xd2 => simd .XSLT
  | 0xd3 => simd .XSGT
  | 0xd4 => simd .XEQ
  | 0xd5 => simd .XISZERO
  | 0xd6 => simd .XAND
  | 0xd7 => simd .XOOR
  | 0xd8 => simd .XXOR
  | 0xd9 => simd .XNOT
  | 0xdb => simd .XSHL
  | 0xdc => simd .XSHR
  | 0xdd => simd .XSAR
  | 0xde => simd .XROL
  | 0xdf => simd .XROR
  | 0xe0 => simd .XPUSH
  | 0xe1 => simd .XMLOAD
  | 0xe2 => simd .XMSTORE
  | 0xe4 => simd .XSLOAD
  | 0xe5 => simd .XSSTORE
  | 0xe6 => simd .XVTOWIDE
  | 0xe7 => simd .XWIDETOV
  | 0xe8 => simd .XGET
  | 0xe9 => simd .XPUT
  | 0xea => simd .XSWIZZLE
  | 0xeb => simd .XSHUFFLE
  | 0xf0 => CREATE
  | 0xf1 => CALL
  | 0xf2 => CALLCODE
  | 0xf3 => RETURN
  | 0xf4 => DELEGATECALL
  | 0xfa => STATICCALL
  | 0xfb => CREATE2
  | 0xfd => REVERT
  | 0xfe => INVALID
  | 0xff => SUICIDE
  | _ => unassigned

local instance neZero_push : NeZero 32 := ⟨by decide⟩
local instance neZero_dup : NeZero 16 := ⟨by decide⟩
local instance neZero_log : NeZero 5 := ⟨by decide⟩

/-- `Instruction(b)`: the instruction of an opcode. -/
def ofByte (b : UInt8) : Instruction :=
  let n := b.toNat
  if 0x60 ≤ n ∧ n < 0x80 then PUSH (Fin.ofNat 32 (n - 0x60))
  else if 0x80 ≤ n ∧ n < 0x90 then DUP (Fin.ofNat 16 (n - 0x80))
  else if 0x90 ≤ n ∧ n < 0xa0 then SWAP (Fin.ofNat 16 (n - 0x90))
  else if 0xa0 ≤ n ∧ n < 0xa5 then LOG (Fin.ofNat 5 (n - 0xa0))
  else single n

end Instruction

/-- The entries of the table for EIP 615. -/
def SubroutineOp.metric : SubroutineOp → InstructionMetric
  | .JUMPTO => ⟨.VeryLow, 1, 0⟩
  | .JUMPIF => ⟨.Low, 2, 0⟩
  | .JUMPV => ⟨.Mid, 1, 0⟩
  | .JUMPSUB => ⟨.Low, 1, 0⟩
  | .JUMPSUBV => ⟨.Mid, 1, 0⟩
  | .BEGINSUB => ⟨.Special, 0, 0⟩
  | .BEGINDATA => ⟨.Special, 0, 0⟩
  | .RETURNSUB => ⟨.Mid, 1, 0⟩
  | .PUTLOCAL => ⟨.VeryLow, 1, 0⟩
  | .GETLOCAL => ⟨.VeryLow, 0, 1⟩

/-- The entries of the table for EIP 616. -/
def SimdOp.metric : SimdOp → InstructionMetric
  | .XADD => ⟨.Special, 0, 0⟩
  | .XMUL | .XSUB | .XDIV | .XSDIV | .XMOD | .XSMOD => ⟨.Special, 2, 1⟩
  | .XLT | .XGT | .XSLT | .XSGT | .XEQ | .XISZERO => ⟨.Special, 2, 1⟩
  | .XAND => ⟨.Special, 1, 1⟩
  | .XOOR => ⟨.Invalid, 0, 0⟩
  | .XXOR | .XNOT | .XSHL | .XSHR | .XSAR | .XROL | .XROR => ⟨.Special, 2, 1⟩
  | .XPUSH => ⟨.VeryLow, 1, 1⟩
  | .XMLOAD => ⟨.VeryLow, 1, 1⟩
  | .XMSTORE => ⟨.VeryLow, 2, 0⟩
  | .XSLOAD => ⟨.Special, 1, 1⟩
  | .XSSTORE => ⟨.Special, 2, 0⟩
  | .XVTOWIDE => ⟨.VeryLow, 1, 1⟩
  | .XWIDETOV => ⟨.VeryLow, 1, 1⟩
  | .XPUT => ⟨.Special, 3, 1⟩
  | .XGET => ⟨.Special, 2, 1⟩
  | .XSWIZZLE => ⟨.Special, 2, 1⟩
  | .XSHUFFLE => ⟨.Special, 3, 1⟩

/-- `c_metrics`, which `initMetrics` fills from `instructionInfo`. -/
def Instruction.metric : Instruction → InstructionMetric
  | .STOP => ⟨.Zero, 0, 0⟩
  | .ADD | .SUB => ⟨.VeryLow, 2, 1⟩
  | .MUL | .DIV | .SDIV | .MOD | .SMOD => ⟨.Low, 2, 1⟩
  | .EXP => ⟨.Special, 2, 1⟩
  | .NOT => ⟨.VeryLow, 1, 1⟩
  | .LT | .GT | .SLT | .SGT | .EQ => ⟨.VeryLow, 2, 1⟩
  | .ISZERO => ⟨.VeryLow, 1, 1⟩
  | .AND | .OR | .XOR | .BYTE | .SHL | .SHR | .SAR => ⟨.VeryLow, 2, 1⟩
  | .ADDMOD | .MULMOD => ⟨.Mid, 3, 1⟩
  | .SIGNEXTEND => ⟨.Low, 2, 1⟩
  | .SHA3 => ⟨.Special, 2, 1⟩
  | .ADDRESS => ⟨.Base, 0, 1⟩
  | .BALANCE => ⟨.Special, 1, 1⟩
  | .ORIGIN | .CALLER | .CALLVALUE => ⟨.Base, 0, 1⟩
  | .CALLDATALOAD => ⟨.VeryLow, 1, 1⟩
  | .CALLDATASIZE => ⟨.Base, 0, 1⟩
  | .CALLDATACOPY => ⟨.VeryLow, 3, 0⟩
  | .CODESIZE => ⟨.Base, 0, 1⟩
  | .CODECOPY => ⟨.VeryLow, 3, 0⟩
  | .GASPRICE => ⟨.Base, 0, 1⟩
  | .EXTCODESIZE => ⟨.Special, 1, 1⟩
  | .EXTCODECOPY => ⟨.Special, 4, 0⟩
  | .RETURNDATASIZE => ⟨.Base, 0, 1⟩
  | .RETURNDATACOPY => ⟨.VeryLow, 3, 0⟩
  | .BLOCKHASH => ⟨.Special, 1, 1⟩
  | .COINBASE | .TIMESTAMP | .NUMBER | .DIFFICULTY | .GASLIMIT => ⟨.Base, 0, 1⟩
  | .POP => ⟨.Base, 1, 0⟩
  | .MLOAD => ⟨.VeryLow, 1, 1⟩
  | .MSTORE | .MSTORE8 => ⟨.VeryLow, 2, 0⟩
  | .SLOAD => ⟨.Special, 1, 1⟩
  | .SSTORE => ⟨.Special, 2, 0⟩
  | .JUMP => ⟨.Mid, 1, 0⟩
  | .JUMPI => ⟨.High, 2, 0⟩
  | .PC | .MSIZE | .GAS => ⟨.Base, 0, 1⟩
  | .JUMPDEST => ⟨.Special, 0, 0⟩
  | .PUSH _ => ⟨.VeryLow, 0, 1⟩
  | .DUP n => ⟨.VeryLow, n + 1, n + 2⟩
  | .SWAP n => ⟨.VeryLow, n + 2, n + 2⟩
  | .LOG n => ⟨.Special, n + 2, 0⟩
  | .subroutine op => op.metric
  | .simd op => op.metric
  | .CREATE => ⟨.Special, 3, 1⟩
  | .CREATE2 => ⟨.Special, 4, 1⟩
  | .CALL | .CALLCODE => ⟨.Special, 7, 1⟩
  | .RETURN => ⟨.Zero, 2, 0⟩
  | .STATICCALL | .DELEGATECALL => ⟨.Special, 6, 1⟩
  | .REVERT => ⟨.Special, 2, 0⟩
  | .INVALID => ⟨.Zero, 0, 0⟩
  | .SUICIDE => ⟨.Special, 1, 0⟩
  | .PUSHC => ⟨.VeryLow, 0, 1⟩
  | .JUMPC => ⟨.Mid, 1, 0⟩
  | .JUMPCI => ⟨.High, 2, 0⟩
  | .unassigned => ⟨.Invalid, 0, 0⟩

end Tos.Tvm
