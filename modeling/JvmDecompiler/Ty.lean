/-!
# Types of the virtual machine

The types that values, fields and methods of a class file have, and the questions that the passes ask
of a type: how many slots it takes, whether the machine computes with it as `int`, and which slots of
local variables can hold it.

`null` is the type of the null literal, and `unknown` stands where a type could not be found out.
-/

namespace JvmDecompiler

/-- A type of the virtual machine. -/
inductive Ty where
  | int
  | long
  | float
  | double
  | byte
  | char
  | short
  | boolean
  | void
  /-- A class or interface, by its internal name (`java/lang/String`). -/
  | reference (name : String)
  | array (element : Ty)
  | null
  | unknown
  deriving DecidableEq, Repr, Inhabited

/-- What kind of value an instruction works on. -/
inductive OperandType where
  | int
  | long
  | float
  | double
  | reference
  /-- Bytes and booleans: one instruction serves arrays of either. -/
  | byte
  | char
  | short
  /-- Occurs only as the element type of a new array. -/
  | boolean
  deriving DecidableEq, Repr, Inhabited

/-- Values of kind `long` and `double` take two slots. -/
def OperandType.isWide : OperandType → Bool
  | .long | .double => true
  | _ => false

namespace Ty

/-- The root class. -/
def object : Ty := .reference "java/lang/Object"

/-- The class of strings. -/
def string : Ty := .reference "java/lang/String"

/-- The class that every exception descends from. -/
def throwable : Ty := .reference "java/lang/Throwable"

/-- Values of type `long` and `double` take two slots. -/
def isWide : Ty → Bool
  | .long | .double => true
  | _ => false

/-- How many slots a local variable or parameter of this type takes. -/
def width (t : Ty) : UInt16 := if t.isWide then 2 else 1

/-- Classes, arrays and the type of the null literal. -/
def isReference : Ty → Bool
  | .reference _ | .array _ | .null => true
  | _ => false

/-- The types that the machine computes with as `int`. -/
def isIntLike : Ty → Bool
  | .int | .byte | .char | .short | .boolean => true
  | _ => false

/-- The types narrower than `int`, to which an `int` value does not convert by itself. -/
def isNarrowInt : Ty → Bool
  | .byte | .char | .short | .boolean => true
  | _ => false

/-- One type for all that a local slot does not tell apart: `int` for what is computed with as `int`,
the root class for every reference and for what is unknown. -/
def category (t : Ty) : Ty :=
  if t.isIntLike then .int
  else if t.isReference then object
  else
    match t with
    | .unknown => object
    | t => t

/-- The type of the values that an instruction works on. -/
def ofOperand : OperandType → Ty
  | .int => .int
  | .long => .long
  | .float => .float
  | .double => .double
  | .reference => object
  | .byte => .byte
  | .char => .char
  | .short => .short
  | .boolean => .boolean

/-- The element type of an array type. -/
def element? : Ty → Option Ty
  | .array t => some t
  | _ => none

/-- The slots of parameters of the given types, from slot `first` on. Slots are counted modulo their
range. -/
def slotsFrom (first : UInt16) : List Ty → List UInt16
  | [] => []
  | t :: ts => first :: slotsFrom (first + t.width) ts

/-- The slot behind parameters of the given types, from slot `first` on. -/
def slotsEnd (first : UInt16) (parameters : List Ty) : UInt16 :=
  parameters.foldl (fun slot t => slot + t.width) first

/-- The array type with `n` dimensions over `t`. -/
def arrayOf (t : Ty) : Nat → Ty
  | 0 => t
  | n + 1 => .array (arrayOf t n)

end Ty

end JvmDecompiler
