import JvmDecompiler.Bytes
import JvmDecompiler.Instruction

/-!
# The encoding of instructions

An instruction is one opcode byte and the operands that the opcode calls for. `Instruction.read` takes
one instruction off the front of a byte string, given the address at which the string starts: branches
are stored as distances from the address of their instruction, and the operands of a switch start at
an address divisible by four.
-/

namespace JvmDecompiler

namespace Address

/-- The address at a signed distance from this one, or the last address if that is out of range. -/
def branch (address : Address) (distance : Int) : Address :=
  let target := (address : Int) + distance
  if 0 ≤ target ∧ target ≤ (last : Int) then target.toNat else last

/-- How many bytes lie between the opcode of a switch and the next address divisible by four. -/
def switchPadding (address : Address) : Nat := (4 - (address + 1) % 4) % 4

end Address

/-- The order in which groups of opcodes go through the kinds of operands. -/
def OperandType.nth : Nat → OperandType
  | 0 => .int
  | 1 => .long
  | 2 => .float
  | 3 => .double
  | 4 => .reference
  | 5 => .byte
  | 6 => .char
  | _ => .short

/-- The order in which groups of opcodes go through the comparison operators. -/
def CompareOp.nth : Nat → CompareOp
  | 0 => .eq
  | 1 => .ne
  | 2 => .lt
  | 3 => .ge
  | 4 => .gt
  | _ => .le

/-- The order in which opcodes go through the stack operations. -/
def StackOp.nth : Nat → StackOp
  | 0 => .pop
  | 1 => .pop2
  | 2 => .dup
  | 3 => .dupX1
  | 4 => .dupX2
  | 5 => .dup2
  | 6 => .dup2X1
  | 7 => .dup2X2
  | _ => .swap

/-- The arithmetic operators that exist for all four numeric types. -/
def ArithOp.nthNumeric : Nat → ArithOp
  | 0 => .add
  | 1 => .sub
  | 2 => .mul
  | 3 => .div
  | _ => .rem

/-- The arithmetic operators that exist for the two integer types. -/
def ArithOp.nthInteger : Nat → ArithOp
  | 0 => .shl
  | 1 => .shr
  | 2 => .ushr
  | 3 => .and
  | 4 => .or
  | _ => .xor

/-- The order in which opcodes go through the conversions: from each numeric type to the three others,
then from `int` to the narrower types. -/
def OperandType.nthConversion : Nat → OperandType × OperandType
  | 0 => (.int, .long)
  | 1 => (.int, .float)
  | 2 => (.int, .double)
  | 3 => (.long, .int)
  | 4 => (.long, .float)
  | 5 => (.long, .double)
  | 6 => (.float, .int)
  | 7 => (.float, .long)
  | 8 => (.float, .double)
  | 9 => (.double, .int)
  | 10 => (.double, .long)
  | 11 => (.double, .float)
  | 12 => (.int, .byte)
  | 13 => (.int, .char)
  | _ => (.int, .short)

/-- The order in which opcodes go through the three-way comparisons. -/
def ThreeWay.nth : Nat → ThreeWay
  | 0 => .long
  | 1 => .floatL
  | 2 => .floatG
  | 3 => .doubleL
  | _ => .doubleG

/-- The order in which opcodes go through the field accesses. -/
def FieldOp.nth : Nat → FieldOp
  | 0 => .getStatic
  | 1 => .putStatic
  | 2 => .getField
  | _ => .putField

/-- The element type that a code names in the instruction for a new array of primitives. -/
def OperandType.ofArrayCode? : UInt8 → Option OperandType
  | 4 => some .boolean
  | 5 => some .char
  | 6 => some .float
  | 7 => some .double
  | 8 => some .byte
  | 9 => some .short
  | 10 => some .int
  | 11 => some .long
  | _ => none

namespace Instruction

open Reader

/-- The `float` constants that have an instruction of their own: 0, 1 and 2. -/
def smallFloat : Nat → UInt32
  | 0 => 0
  | 1 => 0x3F800000
  | _ => 0x40000000

/-- The `double` constants that have an instruction of their own: 0 and 1. -/
def smallDouble : Nat → UInt64
  | 0 => 0
  | _ => 0x3FF0000000000000

/-- A branch distance of two bytes, as an address. -/
def branch2 (address : Address) : Reader Address := do return address.branch (← s2).toInt

/-- A branch distance of four bytes, as an address. -/
def branch4 (address : Address) : Reader Address := do return address.branch (← s4).toInt

/-- The operands of a switch over a range of keys: one target for every key from the lowest to the
highest. -/
def readTableSwitch (address : Address) : Reader Instruction := do
  let _ ← take address.switchPadding
  let default ← branch4 address
  let low ← s4
  let high ← s4
  if high < low then fail .badOperand
  else
    let count := (high.toInt - low.toInt + 1).toNat
    if (← get).length < count * 4 then fail .endOfInput
    else
      let targets ← times (branch4 address) count
      return .switch default (targets.mapIdx fun i target => (Int32.ofInt (low.toInt + i), target))

/-- One case of a switch over listed keys. -/
def readSwitchCase (address : Address) : Reader (Int32 × Address) := do
  let key ← s4
  let target ← branch4 address
  return (key, target)

/-- The operands of a switch over listed keys. Cases with the same key stay in the order in which they
are listed. -/
def readLookupSwitch (address : Address) : Reader Instruction := do
  let _ ← take address.switchPadding
  let default ← branch4 address
  let count ← s4
  if count < 0 then fail .badOperand
  else
    if (← get).length < count.toInt.toNat * 8 then fail .endOfInput
    else
      let cases ← times (readSwitchCase address) count.toInt.toNat
      return .switch default (cases.mergeSort fun a b => a.1 ≤ b.1)

/-- An instruction behind the opcode that widens its slot to two bytes. -/
def readWide : Reader Instruction := do
  let opcode := (← u1).toNat
  if 0x15 ≤ opcode ∧ opcode ≤ 0x19 then return .load (.nth (opcode - 0x15)) (← u2)
  else if 0x36 ≤ opcode ∧ opcode ≤ 0x3A then return .store (.nth (opcode - 0x36)) (← u2)
  else if opcode = 0xA9 then return .ret (← u2)
  else if opcode = 0x84 then
    let slot ← u2
    let delta ← s2
    return .iinc slot delta
  else fail .unknownOpcode

/-- The operands that belong to an opcode. -/
def readOperands (address : Address) (opcode : Nat) : Reader Instruction := do
  if opcode = 0x00 then return .nop
  else if opcode = 0x01 then return .aconstNull
  else if opcode ≤ 0x08 then return .push (Int32.ofInt (opcode - 3)) .iconst
  else if opcode ≤ 0x0A then return .longConst (Int64.ofNat (opcode - 0x09))
  else if opcode ≤ 0x0D then return .floatConst (smallFloat (opcode - 0x0B))
  else if opcode ≤ 0x0F then return .doubleConst (smallDouble (opcode - 0x0E))
  else if opcode = 0x10 then return .push (← s1).toInt32 .bipush
  else if opcode = 0x11 then return .push (← s2).toInt32 .sipush
  else if opcode = 0x12 then return .ldc (← u1).toUInt16
  else if opcode ≤ 0x14 then return .ldc (← u2)
  else if opcode ≤ 0x19 then return .load (.nth (opcode - 0x15)) (← u1).toUInt16
  else if opcode ≤ 0x2D then
    return .load (.nth ((opcode - 0x1A) / 4)) ((opcode - 0x1A) % 4).toUInt16
  else if opcode ≤ 0x35 then return .arrayLoad (.nth (opcode - 0x2E))
  else if opcode ≤ 0x3A then return .store (.nth (opcode - 0x36)) (← u1).toUInt16
  else if opcode ≤ 0x4E then
    return .store (.nth ((opcode - 0x3B) / 4)) ((opcode - 0x3B) % 4).toUInt16
  else if opcode ≤ 0x56 then return .arrayStore (.nth (opcode - 0x4F))
  else if opcode ≤ 0x5F then return .stack (.nth (opcode - 0x57))
  else if opcode ≤ 0x73 then
    return .arith (.nthNumeric ((opcode - 0x60) / 4)) (.nth ((opcode - 0x60) % 4))
  else if opcode ≤ 0x77 then return .neg (.nth (opcode - 0x74))
  else if opcode ≤ 0x83 then
    return .arith (.nthInteger ((opcode - 0x78) / 2)) (.nth ((opcode - 0x78) % 2))
  else if opcode = 0x84 then
    let slot ← u1
    let delta ← s1
    return .iinc slot.toUInt16 delta.toInt16
  else if opcode ≤ 0x93 then
    let (source, target) := OperandType.nthConversion (opcode - 0x85)
    return .convert source target
  else if opcode ≤ 0x98 then return .compare (.nth (opcode - 0x94))
  else if opcode ≤ 0x9E then return .ifZero (.nth (opcode - 0x99)) (← branch2 address)
  else if opcode ≤ 0xA4 then return .ifCompare (.nth (opcode - 0x9F)) false (← branch2 address)
  else if opcode ≤ 0xA6 then return .ifCompare (.nth (opcode - 0xA5)) true (← branch2 address)
  else if opcode = 0xA7 then return .goto (← branch2 address)
  else if opcode = 0xA8 then return .jsr (← branch2 address)
  else if opcode = 0xA9 then return .ret (← u1).toUInt16
  else if opcode = 0xAA then readTableSwitch address
  else if opcode = 0xAB then readLookupSwitch address
  else if opcode ≤ 0xB0 then return .return (some (.nth (opcode - 0xAC)))
  else if opcode = 0xB1 then return .return none
  else if opcode ≤ 0xB5 then return .field (.nth (opcode - 0xB2)) (← u2)
  else if opcode = 0xB6 then return .invoke .virtual (← u2)
  else if opcode = 0xB7 then return .invoke .special (← u2)
  else if opcode = 0xB8 then return .invoke .static (← u2)
  else if opcode = 0xB9 then
    let index ← u2
    let _ ← take 2
    return .invoke .interface index
  else if opcode = 0xBA then
    let index ← u2
    let _ ← take 2
    return .invokeDynamic index
  else if opcode = 0xBB then return .new (← u2)
  else if opcode = 0xBC then
    match OperandType.ofArrayCode? (← u1) with
    | some element => return .newArray element
    | none => fail .badOperand
  else if opcode = 0xBD then return .anewArray (← u2)
  else if opcode = 0xBE then return .arrayLength
  else if opcode = 0xBF then return .throw
  else if opcode = 0xC0 then return .checkCast (← u2)
  else if opcode = 0xC1 then return .instanceOf (← u2)
  else if opcode = 0xC2 then return .monitorEnter
  else if opcode = 0xC3 then return .monitorExit
  else if opcode = 0xC4 then readWide
  else if opcode = 0xC5 then
    let index ← u2
    let dimensions ← u1
    return .multiNewArray index dimensions
  else if opcode = 0xC6 then return .ifNull true (← branch2 address)
  else if opcode = 0xC7 then return .ifNull false (← branch2 address)
  else if opcode = 0xC8 then return .goto (← branch4 address)
  else if opcode = 0xC9 then return .jsr (← branch4 address)
  else fail .unknownOpcode

/-- The instruction that a byte string starts with, if the string starts at `address`. -/
def read (address : Address) : Reader Instruction := do
  readOperands address (← u1).toNat

end Instruction

end JvmDecompiler
