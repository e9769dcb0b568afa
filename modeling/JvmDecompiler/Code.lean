import JvmDecompiler.Instruction

/-!
# The code of a method

A method's code once its bytes have been decoded: instructions in the order of their addresses, and
the ranges of code in which exceptions are caught. The faults that make a method's code unusable, with
their messages, are here as well.
-/

namespace JvmDecompiler

/-- An instruction at its place in the code of a method. -/
structure PlacedInstruction where
  address : Address
  length : Nat
  /-- The source line, if the method has a line table. -/
  line : Option Nat
  operation : Instruction
  deriving DecidableEq, Repr, Inhabited

/-- The address right behind the instruction. -/
def PlacedInstruction.next (i : PlacedInstruction) : Address := i.address + i.length

/-- A range `[start, stop)` of code in which exceptions lead to `handler`: those of one class, or all
of them if no class is given. -/
structure ProtectedRange where
  start : Address
  stop : Address
  handler : Address
  catchType : Option String
  deriving DecidableEq, Repr, Inhabited

namespace ProtectedRange

/-- Whether an address is in the range. -/
def covers (r : ProtectedRange) (a : Address) : Bool := r.start ≤ a && a < r.stop

/-- Whether the handler takes every exception. -/
def catchesAll (r : ProtectedRange) : Bool := r.catchType.isNone

end ProtectedRange

/-- The decoded code of a method. -/
structure MethodCode where
  instructions : List PlacedInstruction
  ranges : List ProtectedRange
  maxStack : UInt16
  maxLocals : UInt16
  /-- The number of bytes of the code. -/
  length : Nat
  deriving DecidableEq, Repr, Inhabited

/-- The instruction that starts at an address. -/
def MethodCode.instructionAt? (code : MethodCode) (a : Address) : Option PlacedInstruction :=
  code.instructions.find? (·.address = a)

/-- Why the code of a method cannot be used. -/
inductive CodeError where
  | unknownOpcode (address : Address) (opcode : UInt8)
  | truncated (address : Address)
  | malformedInstruction (address : Address)
  /-- A branch to where no instruction starts. -/
  | badBranchTarget (address target : Address)
  | badExceptionRange (start stop handler : UInt16)
  | malformedAttribute (name : String)
  | badConstantIndex (address : Address) (index : UInt16)
  | noCode
  deriving DecidableEq, Repr, Inhabited

/-- A byte as two hexadecimal digits. -/
def hexByte (b : UInt8) : String :=
  String.ofList [Nat.digitChar (b.toNat / 16), Nat.digitChar (b.toNat % 16)]

/-- The error in words. -/
def CodeError.message : CodeError → String
  | .unknownOpcode address opcode => s!"unknown opcode 0x{hexByte opcode} at offset {address}"
  | .truncated address => s!"instruction at offset {address} is truncated"
  | .malformedInstruction address => s!"instruction at offset {address} has invalid operands"
  | .badBranchTarget address target =>
    s!"branch at offset {address} targets {target}, which is not an instruction start"
  | .badExceptionRange start stop handler =>
    s!"exception range [{start}, {stop}) -> {handler} is invalid"
  | .malformedAttribute name => s!"malformed {name} attribute"
  | .badConstantIndex address index =>
    s!"instruction at offset {address} references bad constant #{index}"
  | .noCode => "method has no code"

end JvmDecompiler
