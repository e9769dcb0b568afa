import JvmDecompiler.Attribute.Format
import JvmDecompiler.ClassFile
import JvmDecompiler.ConstantPool.Validation
import JvmDecompiler.Text.ModifiedUtf8

/-!
# Reading class files

`ClassFile.read` takes a whole byte string for one class file. The magic number and the version come
first; then the layout of the file, which has to use up all bytes; then every index in the pool, the
header and the members; last, attributes are interpreted. The first of these that fails is reported.
-/

namespace JvmDecompiler

open Reader

/-- Constants by their tag. -/
def Constant.readContent (tag : UInt8) : Reader Constant :=
  match tag with
  | 1 => do
    let length ← u2
    return .utf8 (ModifiedUtf8.decode (← take length.toNat))
  | 3 => return .integer (← s4)
  | 4 => return .float (← u4)
  | 5 => return .long (← u8).toInt64
  | 6 => return .double (← u8)
  | 7 => return .classRef (← u2)
  | 8 => return .string (← u2)
  | 9 => return .fieldref (← u2) (← u2)
  | 10 => return .methodref (← u2) (← u2)
  | 11 => return .interfaceMethodref (← u2) (← u2)
  | 12 => return .nameAndType (← u2) (← u2)
  | 15 => return .methodHandle (← u1) (← u2)
  | 16 => return .methodType (← u2)
  | 17 => return .dynamic (← u2) (← u2)
  | 18 => return .invokeDynamic (← u2) (← u2)
  | 19 => return .moduleRef (← u2)
  | 20 => return .packageRef (← u2)
  | _ => fail .noAlternative

/-- A reader that reports every fault as the lack of an alternative. -/
def Reader.asAlternative {α : Type} (reader : Reader α) : Reader α := fun input =>
  (reader input).mapError fun _ => .noAlternative

/-- One constant: its tag and what the tag calls for. -/
def Constant.read : Reader Constant := do
  let tag ← u1
  asAlternative (readContent tag)

/-- Constants that fill `n` slots. A wide constant takes two, of which the second is cut off where no
slot is left for it. -/
def ConstantPool.readSlots : (n : Nat) → Reader (List (Option Constant))
  | 0 => return []
  | n + 1 => do
    let c ← Constant.read
    if c.isWide then
      match n with
      | 0 => return [some c]
      | n + 1 => return some c :: none :: (← readSlots n)
    else return some c :: (← readSlots n)

/-- The pool of a file that gives it `count` slots. -/
def ConstantPool.read (count : UInt16) : Reader ConstantPool := do
  return .ofSlots (none :: (← readSlots (count.toNat - 1)))

/-- A field or a method. -/
def Member.read : Reader Member := do
  let access ← u2
  let name ← u2
  let descriptor ← u2
  let attributes ← counted Attribute.read
  return ⟨access, name, descriptor, attributes⟩

namespace ClassFile

/-- The first bytes of every class file. -/
def magic : Bytes := [0xCA, 0xFE, 0xBA, 0xBE]

/-- The oldest and the newest version that are read. -/
def oldestMajor : UInt16 := 45
def newestMajor : UInt16 := 69

/-- Whether files of a version are read. From version 56 on, the minor version is zero or, for files
that use preview features, all ones. -/
def isSupported (major minor : UInt16) : Bool :=
  oldestMajor ≤ major && major ≤ newestMajor && (major < 56 || minor = 0 || minor = 0xFFFF)

/-- What follows the version in a class file. -/
def readBody (minor major : UInt16) : Reader ClassFile := do
  let poolCount ← u2
  let pool ← ConstantPool.read poolCount
  let access ← u2
  let thisClass ← u2
  let superClass ← u2
  let interfaces ← counted u2
  let fields ← counted Member.read
  let methods ← counted Member.read
  let attributes ← counted Attribute.read
  return ⟨minor, major, poolCount, pool, access, thisClass, superClass, interfaces, fields, methods,
    attributes⟩

/-- The layout of a class file, with its attributes not interpreted. -/
def readLayout (bytes : Bytes) : Except FormatError ClassFile := do
  if bytes.take 4 ≠ magic then throw .badMagic
  match (do return (← u2, ← u2) : Reader (UInt16 × UInt16)) (bytes.drop 4) with
  | .error _ => throw .truncated
  | .ok ((minor, major), rest) =>
    if !isSupported major minor then throw (.unsupportedVersion major minor)
    match readBody minor major rest with
    | .error .endOfInput => throw .truncated
    | .error _ => throw .malformed
    | .ok (c, []) => return c
    | .ok (_, rest) => throw (.trailingBytes rest.length)

/-- Report the first attribute whose name is no text of the pool. -/
def checkAttributeNames (pool : ConstantPool) (source : String) (attributes : List Attribute) :
    Except FormatError Unit :=
  attributes.forM fun a => pool.checkTarget source a.name .utf8

/-- Report the first index of a field or a method that leads to no text of the pool. -/
def checkMember (pool : ConstantPool) (source : String) (m : Member) : Except FormatError Unit := do
  pool.checkTarget source m.name .utf8
  pool.checkTarget source m.descriptor .utf8
  checkAttributeNames pool source m.attributes

/-- Report the first index of the header or the members that leads to no constant of the right kind. -/
def checkReferences (c : ClassFile) : Except FormatError Unit := do
  c.pool.checkTarget "this_class" c.thisClass .classRef
  if c.superClass ≠ 0 then c.pool.checkTarget "super_class" c.superClass .classRef
  c.interfaces.forM fun i => c.pool.checkTarget "interfaces" i .classRef
  c.fields.zipIdx.forM fun (m, i) => checkMember c.pool s!"field {i}" m
  c.methods.zipIdx.forM fun (m, i) => checkMember c.pool s!"method {i}" m
  checkAttributeNames c.pool "class attributes" c.attributes

/-- The class with the contents of all attributes of itself and its members. -/
def interpretAttributes (c : ClassFile) : ClassFile :=
  let interpret (m : Member) : Member :=
    { m with attributes := m.attributes.map (Attribute.interpret c.pool) }
  { c with
    fields := c.fields.map interpret
    methods := c.methods.map interpret
    attributes := c.attributes.map (Attribute.interpret c.pool) }

/-- The class that a byte string is the file of. -/
def read (bytes : Bytes) : Except FormatError ClassFile := do
  let c ← readLayout bytes
  c.pool.validate
  c.checkReferences
  return c.interpretAttributes

end ClassFile

end JvmDecompiler
