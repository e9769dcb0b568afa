import JvmDecompiler.Attribute
import JvmDecompiler.ConstantPool
import JvmDecompiler.Names

/-!
# The layout of attributes

Readers for every kind of attribute that is recognised, and the interpretation of the attributes of a
class once its constant pool can resolve their names. Tables are a count followed by that many rows.
-/

namespace JvmDecompiler

open Reader

/-- Values behind a count of two bytes. -/
def Reader.counted {α : Type} (item : Reader α) : Reader (List α) := do
  let count ← u2
  times item count.toNat

/-- A row of an exception table. -/
def ExceptionRow.read : Reader ExceptionRow := do
  let start ← u2
  let stop ← u2
  let handler ← u2
  let catchType ← u2
  return ⟨start, stop, handler, catchType⟩

/-- A row of a line table. -/
def LineRow.read : Reader LineRow := do
  let start ← u2
  let line ← u2
  return ⟨start, line⟩

/-- A row of a table of local variables. -/
def LocalRow.read : Reader LocalRow := do
  let start ← u2
  let length ← u2
  let name ← u2
  let descriptor ← u2
  let slot ← u2
  return ⟨start, length, name, descriptor, slot⟩

/-- A row of the table of method parameters. -/
def ParameterRow.read : Reader ParameterRow := do
  let name ← u2
  let flags ← u2
  return ⟨name, flags⟩

/-- The kind of constant that a tag byte stands for. -/
def ElementTag.ofByte? (tag : UInt8) : Option ElementTag :=
  [.byte, .char, .double, .float, .int, .long, .short, .boolean, .string].find?
    fun (t : ElementTag) => t.letter.toNat = tag.toNat

namespace ElementValue

/-- An annotation whose element values are read by `value`. -/
def readAnnotationWith (value : Reader ElementValue) : Reader RawAnnotation := do
  let type ← u2
  let elements ← counted do
    let name ← u2
    let value ← value
    return (name, value)
  return ⟨type, elements⟩

/-- An element value in which values are nested at most `depth` deep. -/
def readWithin : (depth : Nat) → Reader ElementValue
  | 0 => fail .endOfInput
  | depth + 1 => do
    let tag ← u1
    match ElementTag.ofByte? tag with
    | some tag => return .const tag (← u2)
    | none =>
      if tag = 0x65 then
        let type ← u2
        let constant ← u2
        return .enumConst type constant
      else if tag = 0x63 then return .classInfo (← u2)
      else if tag = 0x40 then return .nested (← readAnnotationWith (readWithin depth))
      else if tag = 0x5B then return .array (← counted (readWithin depth))
      else fail .noAlternative

/-- An element value. Each level of nesting takes at least one byte, so no value that fits into the
input is nested deeper than the input is long. -/
def read : Reader ElementValue := fun input => readWithin (input.length + 1) input

end ElementValue

/-- An annotation. -/
def RawAnnotation.read : Reader RawAnnotation := ElementValue.readAnnotationWith ElementValue.read

/-- An attribute that is not interpreted yet: the index of its name, and its bytes behind their
number. -/
def Attribute.read : Reader Attribute := do
  let name ← u2
  let length ← u4
  let info ← take length.toNat
  return ⟨name, info, none⟩

/-- The code of a method; the attributes nested in it are not interpreted yet. -/
def CodeAttribute.read : Reader CodeAttribute := do
  let maxStack ← u2
  let maxLocals ← u2
  let length ← u4
  let bytecode ← take length.toNat
  let exceptionTable ← counted ExceptionRow.read
  let attributes ← counted Attribute.read
  return ⟨maxStack, maxLocals, bytecode, exceptionTable, attributes⟩

namespace AttributeKind

/-- Every kind, in an order that plays no role. -/
def all : List AttributeKind :=
  [.code, .lineNumberTable, .localVariableTable, .localVariableTypeTable, .exceptions, .signature,
    .deprecated, .synthetic, .constantValue, .sourceFile, .methodParameters,
    .runtimeVisibleAnnotations, .runtimeInvisibleAnnotations]

/-- The name of the attributes of a kind. -/
def name : AttributeKind → String
  | .code => KnownName.code.text
  | .lineNumberTable => KnownName.lineNumberTable.text
  | .localVariableTable => KnownName.localVariableTable.text
  | .localVariableTypeTable => KnownName.localVariableTypeTable.text
  | .exceptions => KnownName.exceptions.text
  | .signature => KnownName.signature.text
  | .deprecated => KnownName.deprecated.text
  | .synthetic => KnownName.synthetic.text
  | .constantValue => KnownName.constantValue.text
  | .sourceFile => KnownName.sourceFile.text
  | .methodParameters => KnownName.methodParameters.text
  | .runtimeVisibleAnnotations => KnownName.runtimeVisibleAnnotations.text
  | .runtimeInvisibleAnnotations => KnownName.runtimeInvisibleAnnotations.text

/-- The kind of the attributes with a name. -/
def ofName? (name : String) : Option AttributeKind := all.find? fun kind => kind.name = name

/-- The content of an attribute of a kind. -/
def readContent : AttributeKind → Reader AttributeContent
  | .code => .code <$> CodeAttribute.read
  | .lineNumberTable => .lineNumberTable <$> counted LineRow.read
  | .localVariableTable => .localVariableTable <$> counted LocalRow.read
  | .localVariableTypeTable => .localVariableTypeTable <$> counted LocalRow.read
  | .exceptions => .exceptions <$> counted u2
  | .signature => .signature <$> u2
  | .deprecated => return .deprecated
  | .synthetic => return .synthetic
  | .constantValue => .constantValue <$> u2
  | .sourceFile => .sourceFile <$> u2
  | .methodParameters => do
    let count ← u1
    .methodParameters <$> times ParameterRow.read count.toNat
  | .runtimeVisibleAnnotations => .runtimeVisibleAnnotations <$> counted RawAnnotation.read
  | .runtimeInvisibleAnnotations => .runtimeInvisibleAnnotations <$> counted RawAnnotation.read

end AttributeKind

/-- The content that `info` has under an attribute name. The bytes have to be used up. -/
def AttributeContent.ofInfo (name : String) (info : Bytes) : AttributeContent :=
  match AttributeKind.ofName? name with
  | none => .unknown name
  | some kind => (kind.readContent.all? info).getD (.malformed name)

namespace Attribute

/-- The attribute with its content, and with the contents of the attributes nested at most `depth`
deep in it. -/
def interpretWithin (pool : ConstantPool) : (depth : Nat) → Attribute → Attribute
  | 0, a => a
  | depth + 1, a =>
    let content :=
      match pool.utf8? a.name with
      | none => .malformed s!"#{a.name}"
      | some name =>
        match AttributeContent.ofInfo name a.info with
        | .code code =>
          .code { code with attributes := code.attributes.map (interpretWithin pool depth) }
        | content => content
    { a with content := some content }

/-- The attribute with the contents of itself and of all attributes nested in it. The bytes of a
nested attribute are fewer than those around it, so their number bounds the depth. -/
def interpret (pool : ConstantPool) (a : Attribute) : Attribute :=
  a.interpretWithin pool (a.info.length + 1)

end Attribute

end JvmDecompiler
