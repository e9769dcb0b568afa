import JvmDecompiler.Instruction
import JvmDecompiler.Ty

/-!
# Local variables

A local variable is one slot over a range of the code. Two variables of one slot overlap if an address
is in the ranges of both.
-/

namespace JvmDecompiler

/-- Where the range of a variable comes from. -/
inductive VariableOrigin where
  /-- From the descriptor of the method. -/
  | parameter
  /-- From a table of local variables. -/
  | table
  /-- From the uses of the slot. -/
  | inferred
  deriving DecidableEq, Repr, Inhabited

/-- The order in which variables that start together are looked at. -/
def VariableOrigin.rank : VariableOrigin → Nat
  | .parameter => 0
  | .table => 1
  | .inferred => 2

/-- A local variable: the slot `slot` for `length` bytes of code from `start` on. -/
structure LocalVariable where
  slot : UInt16
  start : Address
  length : Nat
  /-- The constant that the name was taken from. -/
  nameIndex : Option UInt16
  /-- The constant that the generic signature was taken from. -/
  signatureIndex : Option UInt16
  name : String
  type : Ty
  /-- The generic signature. -/
  signature : Option String
  flags : UInt8
  origin : VariableOrigin
  deriving DecidableEq, Repr, Inhabited

namespace LocalVariable

/-- The variable holds a caught exception or a return address. -/
def exceptionBit : UInt8 := 0x01

/-- A declaration of the variable is in place. -/
def declaredBit : UInt8 := 0x02

/-- The variable is declared final. -/
def finalBit : UInt8 := 0x04

/-- Nothing uses the variable any more. -/
def unusedBit : UInt8 := 0x08

/-- The largest address. -/
def lastAddress : Address := 0xFFFFFFFF

/-- The address behind the range of the variable. -/
def stop (v : LocalVariable) : Address := min (v.start + v.length) lastAddress

/-- Whether an address is in the range of the variable. -/
def covers (v : LocalVariable) (pc : Address) : Bool := v.start ≤ pc && pc < v.stop

/-- Whether two variables share a slot at some address. -/
def overlaps (v w : LocalVariable) : Bool := v.slot = w.slot && v.start < w.stop && w.start < v.stop

/-- Whether the variable is a parameter of the method. -/
def isParameter (v : LocalVariable) : Bool := v.origin = .parameter

/-- Whether a declaration of the variable is in place. -/
def isDeclared (v : LocalVariable) : Bool := v.flags &&& declaredBit != 0

/-- The variable with a declaration in place. -/
def declared (v : LocalVariable) : LocalVariable := { v with flags := v.flags ||| declaredBit }

/-- How many bytes of code an address is away from the range of the variable. -/
def distance (v : LocalVariable) (pc : Address) : Nat :=
  if pc < v.start then v.start - pc else pc - (v.stop - 1)

/-- The order of the variables of a method: by name, length, start and slot. -/
def nameOrder (v w : LocalVariable) : Ordering :=
  (compare v.name w.name).then <| (compare v.length w.length).then <|
    (compare v.start w.start).then (compare v.slot w.slot)

end LocalVariable

end JvmDecompiler
