import JvmDecompiler.Ty

/-!
# Instructions

What one instruction of the virtual machine does. Several opcodes may have the same effect: the short
forms with an implicit slot, the forms with a one-byte and a two-byte operand, and the narrow and wide
branches all are one constructor here. Branch targets are addresses in the method's code, not
distances.
-/

namespace JvmDecompiler

/-- Which kind of instruction pushed an `int` constant. -/
inductive PushForm where
  | iconst
  | bipush
  | sipush
  deriving DecidableEq, Repr, Inhabited

/-- Instructions that only move stack entries. -/
inductive StackOp where
  | pop
  | pop2
  | dup
  | dupX1
  | dupX2
  | dup2
  | dup2X1
  | dup2X2
  | swap
  deriving DecidableEq, Repr, Inhabited

/-- Arithmetic on two operands of one type. -/
inductive ArithOp where
  | add
  | sub
  | mul
  | div
  | rem
  | shl
  | shr
  | ushr
  | and
  | or
  | xor
  deriving DecidableEq, Repr, Inhabited

/-- Comparison operators, of branches and of expressions. -/
inductive CompareOp where
  | eq
  | ne
  | lt
  | ge
  | gt
  | le
  deriving DecidableEq, Repr, Inhabited

namespace CompareOp

/-- The operator that holds of two ordered values exactly when this one does not. -/
def negate : CompareOp → CompareOp
  | .eq => .ne
  | .ne => .eq
  | .lt => .ge
  | .ge => .lt
  | .gt => .le
  | .le => .gt

/-- The operator as it is written in source code. -/
def symbol : CompareOp → String
  | .eq => "=="
  | .ne => "!="
  | .lt => "<"
  | .ge => ">="
  | .gt => ">"
  | .le => "<="

end CompareOp

/-- Three-way comparisons of wide and floating-point values; the last letter of a floating-point
comparison says how it ranks NaN. -/
inductive ThreeWay where
  | long
  | floatL
  | floatG
  | doubleL
  | doubleG
  deriving DecidableEq, Repr, Inhabited

/-- Accesses to fields. -/
inductive FieldOp where
  | getStatic
  | putStatic
  | getField
  | putField
  deriving DecidableEq, Repr, Inhabited

/-- How a method is selected by a call. -/
inductive InvokeKind where
  | virtual
  | special
  | static
  | interface
  deriving DecidableEq, Repr, Inhabited

/-- An address in the code of a method. -/
abbrev Address := Nat

/-- The largest value of an address. A branch that would leave the range of addresses leads here, where
no instruction starts. -/
def Address.last : Address := 0xFFFFFFFF

/-- One instruction of the virtual machine. `index` operands point into the constant pool. -/
inductive Instruction where
  | nop
  | aconstNull
  | push (value : Int32) (form : PushForm)
  | longConst (value : Int64)
  | floatConst (bits : UInt32)
  | doubleConst (bits : UInt64)
  | ldc (index : UInt16)
  | load (type : OperandType) (slot : UInt16)
  | store (type : OperandType) (slot : UInt16)
  | iinc (slot : UInt16) (delta : Int16)
  | arrayLoad (type : OperandType)
  | arrayStore (type : OperandType)
  | stack (op : StackOp)
  | arith (op : ArithOp) (type : OperandType)
  | neg (type : OperandType)
  | convert (source target : OperandType)
  | compare (kind : ThreeWay)
  /-- Branches if the `int` on top of the stack compares so with zero. -/
  | ifZero (op : CompareOp) (target : Address)
  /-- Branches if the two topmost values, references or `int`s, compare so. -/
  | ifCompare (op : CompareOp) (onReferences : Bool) (target : Address)
  /-- Branches if the topmost reference is null, or if it is not. -/
  | ifNull (null : Bool) (target : Address)
  | goto (target : Address)
  | jsr (target : Address)
  | ret (slot : UInt16)
  /-- Branches by an `int` key; the cases are sorted by key. -/
  | switch (default : Address) (cases : List (Int32 × Address))
  | return (type : Option OperandType)
  | throw
  | field (op : FieldOp) (index : UInt16)
  | invoke (kind : InvokeKind) (index : UInt16)
  | invokeDynamic (index : UInt16)
  | new (index : UInt16)
  | newArray (element : OperandType)
  | anewArray (index : UInt16)
  | multiNewArray (index : UInt16) (dimensions : UInt8)
  | arrayLength
  | checkCast (index : UInt16)
  | instanceOf (index : UInt16)
  | monitorEnter
  | monitorExit
  deriving DecidableEq, Repr, Inhabited

namespace Instruction

/-- Every address that the instruction may branch to, the next instruction not among them. -/
def branchTargets : Instruction → List Address
  | .ifZero _ target | .ifCompare _ _ target | .ifNull _ target | .goto target | .jsr target =>
    [target]
  | .switch default cases => cases.map (·.2) ++ [default]
  | _ => []

/-- Whether the instruction either branches or goes on with the next one. -/
def isConditionalBranch : Instruction → Bool
  | .ifZero .. | .ifCompare .. | .ifNull .. => true
  | _ => false

/-- Whether the instruction never goes on with the next one. -/
def isUnconditionalTransfer : Instruction → Bool
  | .goto _ | .switch .. | .return _ | .throw | .ret _ | .jsr _ => true
  | _ => false

/-- Whether a basic block ends with the instruction. -/
def endsBlock (i : Instruction) : Bool := i.isConditionalBranch || i.isUnconditionalTransfer

end Instruction

end JvmDecompiler
