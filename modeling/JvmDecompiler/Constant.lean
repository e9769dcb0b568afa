import JvmDecompiler.Ieee

/-!
# Constants

The entries of a constant pool. Names, descriptors and literals are texts and numbers; everything else
points at other entries by their index.
-/

namespace JvmDecompiler

/-- One entry of a constant pool. Floating-point numbers are kept as their bits. -/
inductive Constant where
  | utf8 (text : String)
  | integer (value : Int32)
  | float (bits : UInt32)
  | long (value : Int64)
  | double (bits : UInt64)
  | classRef (name : UInt16)
  | string (text : UInt16)
  | fieldref (owner nameAndType : UInt16)
  | methodref (owner nameAndType : UInt16)
  | interfaceMethodref (owner nameAndType : UInt16)
  | nameAndType (name descriptor : UInt16)
  | methodHandle (kind : UInt8) (reference : UInt16)
  | methodType (descriptor : UInt16)
  | dynamic (bootstrap nameAndType : UInt16)
  | invokeDynamic (bootstrap nameAndType : UInt16)
  | moduleRef (name : UInt16)
  | packageRef (name : UInt16)
  deriving DecidableEq, Hashable, Repr, Inhabited

/-- The kinds of constants, one for each tag of the file format. -/
inductive ConstantKind where
  | utf8
  | integer
  | float
  | long
  | double
  | classRef
  | string
  | fieldref
  | methodref
  | interfaceMethodref
  | nameAndType
  | methodHandle
  | methodType
  | dynamic
  | invokeDynamic
  | moduleRef
  | packageRef
  deriving DecidableEq, Repr, Inhabited

/-- The name that messages call a kind by. -/
def ConstantKind.name : ConstantKind → String
  | .utf8 => "Utf8"
  | .integer => "Integer"
  | .float => "Float"
  | .long => "Long"
  | .double => "Double"
  | .classRef => "Class"
  | .string => "String"
  | .fieldref => "Fieldref"
  | .methodref => "Methodref"
  | .interfaceMethodref => "InterfaceMethodref"
  | .nameAndType => "NameAndType"
  | .methodHandle => "MethodHandle"
  | .methodType => "MethodType"
  | .dynamic => "Dynamic"
  | .invokeDynamic => "InvokeDynamic"
  | .moduleRef => "Module"
  | .packageRef => "Package"

namespace Constant

/-- The kind of a constant. -/
def kind : Constant → ConstantKind
  | .utf8 .. => .utf8
  | .integer .. => .integer
  | .float .. => .float
  | .long .. => .long
  | .double .. => .double
  | .classRef .. => .classRef
  | .string .. => .string
  | .fieldref .. => .fieldref
  | .methodref .. => .methodref
  | .interfaceMethodref .. => .interfaceMethodref
  | .nameAndType .. => .nameAndType
  | .methodHandle .. => .methodHandle
  | .methodType .. => .methodType
  | .dynamic .. => .dynamic
  | .invokeDynamic .. => .invokeDynamic
  | .moduleRef .. => .moduleRef
  | .packageRef .. => .packageRef

/-- Constants of kind `long` and `double` take two slots of the pool. -/
def isWide : Constant → Bool
  | .long _ | .double _ => true
  | _ => false

/-- How many slots of the pool a constant takes. -/
def slots (c : Constant) : Nat := if c.isWide then 2 else 1

/-- The kinds of constants that a pool can find by their content. -/
def isIndexed : Constant → Bool
  | .utf8 _ | .classRef _ | .nameAndType .. | .fieldref .. | .methodref .. => true
  | _ => false

/-- Whether two constants are equal, floating-point ones as numbers. -/
def equal : Constant → Constant → Bool
  | .float a, .float b => Ieee.equal32 a b
  | .double a, .double b => Ieee.equal64 a b
  | a, b => a = b

end Constant

end JvmDecompiler
