import JvmDecompiler.Attribute
import JvmDecompiler.ConstantPool

/-!
# Class files

The content of a class file: a pool of constants, the header of one class, and its fields and methods
with their attributes. Everything else points into the pool by index.
-/

namespace JvmDecompiler

/-- A field or a method of a class. -/
structure Member where
  access : UInt16
  name : UInt16
  descriptor : UInt16
  attributes : List Attribute

/-- The content of a class file. `poolCount` is the number of slots that the file gives for its
pool. -/
structure ClassFile where
  minor : UInt16
  major : UInt16
  poolCount : UInt16
  pool : ConstantPool
  access : UInt16
  thisClass : UInt16
  /-- The index of the superclass; 0 if there is none. -/
  superClass : UInt16
  interfaces : List UInt16
  fields : List Member
  methods : List Member
  attributes : List Attribute

/-! ## Access flags -/

namespace Access

/-- Usable from outside its package or class. -/
def publicBit : UInt16 := 0x0001

/-- Usable only in its class. -/
def privateBit : UInt16 := 0x0002

/-- Usable in subclasses. -/
def protectedBit : UInt16 := 0x0004

/-- Belongs to the class and not to its objects. -/
def staticBit : UInt16 := 0x0008

/-- Cannot be extended, assigned or overridden. -/
def finalBit : UInt16 := 0x0010

/-- A method that holds the monitor of its object. -/
def synchronizedBit : UInt16 := 0x0020

/-- A field that is never cached. -/
def volatileBit : UInt16 := 0x0040

/-- A method that only adapts the types of another. -/
def bridgeBit : UInt16 := 0x0040

/-- A field that is not stored with its object. -/
def transientBit : UInt16 := 0x0080

/-- A method with a variable number of arguments. -/
def varargsBit : UInt16 := 0x0080

/-- A method whose code is elsewhere. -/
def nativeBit : UInt16 := 0x0100

/-- An interface and no class. -/
def interfaceBit : UInt16 := 0x0200

/-- Without objects, or without code. -/
def abstractBit : UInt16 := 0x0400

/-- A method with strict floating-point arithmetic. -/
def strictBit : UInt16 := 0x0800

/-- Not in the source. -/
def syntheticBit : UInt16 := 0x1000

/-- A type of annotations. -/
def annotationBit : UInt16 := 0x2000

/-- An enumeration, or one of its constants. -/
def enumBit : UInt16 := 0x4000

/-- A module and no class. -/
def moduleBit : UInt16 := 0x8000

/-- Whether any of the bits of `mask` is set. -/
def has (flags mask : UInt16) : Bool := flags &&& mask != 0

end Access

namespace ClassFile

/-- The internal name of the class. -/
def className? (c : ClassFile) : Option String := c.pool.className? c.thisClass

/-- The internal name of the superclass. The root class and modules have none. -/
def superClassName? (c : ClassFile) : Option String :=
  if c.superClass = 0 then none else c.pool.className? c.superClass

/-- The first method with a name. -/
def findMethod? (c : ClassFile) (name : String) : Option Member :=
  c.methods.find? fun m => c.pool.utf8? m.name = some name

/-- The name of the source file that the class was compiled from. -/
def sourceFile? (c : ClassFile) : Option String :=
  Attributes.find? c.attributes fun
    | .sourceFile index => c.pool.utf8? index
    | _ => none

end ClassFile

end JvmDecompiler
