import JvmDecompiler.Bytes

/-!
# Attributes

Classes, fields, methods and the code of methods carry attributes: byte strings under a name that says
how to read them. An attribute keeps its bytes, and its content once its name is known and its bytes
have been read.

Thirteen names are recognised. A recognised attribute whose bytes do not have the layout of its kind
is malformed; an attribute under any other name is unknown.
-/

namespace JvmDecompiler

/-- A row of an exception table: within `[start, stop)` of the code, exceptions of class `catchType`
lead to `handler`. The class 0 stands for every exception. -/
structure ExceptionRow where
  start : UInt16
  stop : UInt16
  handler : UInt16
  catchType : UInt16
  deriving DecidableEq, Repr, Inhabited

/-- A row of a line table: the source line of the code from `start` on. -/
structure LineRow where
  start : UInt16
  line : UInt16
  deriving DecidableEq, Repr, Inhabited

/-- A row of a table of local variables: the name and the descriptor, or in the table of types the
generic signature, of a slot over `length` bytes of code. -/
structure LocalRow where
  start : UInt16
  length : UInt16
  name : UInt16
  descriptor : UInt16
  slot : UInt16
  deriving DecidableEq, Repr, Inhabited

/-- A row of the table of method parameters; the name 0 stands for none. -/
structure ParameterRow where
  name : UInt16
  flags : UInt16
  deriving DecidableEq, Repr, Inhabited

/-- The kinds of constants that an annotation element can have as its value. -/
inductive ElementTag where
  | byte
  | char
  | double
  | float
  | int
  | long
  | short
  | boolean
  | string
  deriving DecidableEq, Repr, Inhabited

/-- The letter that stands for a kind of constant. -/
def ElementTag.letter : ElementTag → Char
  | .byte => 'B'
  | .char => 'C'
  | .double => 'D'
  | .float => 'F'
  | .int => 'I'
  | .long => 'J'
  | .short => 'S'
  | .boolean => 'Z'
  | .string => 's'

mutual

/-- An annotation as a class file stores it. Names and values are indices of constants. -/
structure RawAnnotation where
  type : UInt16
  elements : List (UInt16 × ElementValue)

/-- The value of an annotation element as a class file stores it. -/
inductive ElementValue where
  | const (tag : ElementTag) (index : UInt16)
  | enumConst (type constant : UInt16)
  | classInfo (descriptor : UInt16)
  | nested (value : RawAnnotation)
  | array (values : List ElementValue)

end

/-- The kinds of attributes that are recognised. -/
inductive AttributeKind where
  | code
  | lineNumberTable
  | localVariableTable
  | localVariableTypeTable
  | exceptions
  | signature
  | deprecated
  | synthetic
  | constantValue
  | sourceFile
  | methodParameters
  | runtimeVisibleAnnotations
  | runtimeInvisibleAnnotations
  deriving DecidableEq, Repr, Inhabited

mutual

/-- An attribute: the index of its name, its bytes and, once they have been read, its content. -/
structure Attribute where
  name : UInt16
  info : Bytes
  content : Option AttributeContent

/-- The content of an attribute. -/
inductive AttributeContent where
  | code (code : CodeAttribute)
  | lineNumberTable (rows : List LineRow)
  | localVariableTable (rows : List LocalRow)
  | localVariableTypeTable (rows : List LocalRow)
  | exceptions (classes : List UInt16)
  | signature (index : UInt16)
  | deprecated
  | synthetic
  | constantValue (index : UInt16)
  | sourceFile (index : UInt16)
  | methodParameters (rows : List ParameterRow)
  | runtimeVisibleAnnotations (annotations : List RawAnnotation)
  | runtimeInvisibleAnnotations (annotations : List RawAnnotation)
  /-- An attribute under a name that is not recognised. -/
  | unknown (name : String)
  /-- A recognised attribute whose bytes do not have the layout of its kind. -/
  | malformed (name : String)

/-- The code of a method, with the tables that belong to it. -/
structure CodeAttribute where
  maxStack : UInt16
  maxLocals : UInt16
  bytecode : Bytes
  exceptionTable : List ExceptionRow
  attributes : List Attribute

end

namespace Attributes

/-- The first content in a list of attributes of which `select` finds a value. -/
def find? {α : Type} (attributes : List Attribute) (select : AttributeContent → Option α) : Option α :=
  attributes.findSome? fun a => a.content.bind select

/-- The code of a method. -/
def code? (attributes : List Attribute) : Option CodeAttribute :=
  find? attributes fun
    | .code code => some code
    | _ => none

/-- The name of the first attribute that is malformed. -/
def malformed? (attributes : List Attribute) : Option String :=
  find? attributes fun
    | .malformed name => some name
    | _ => none

/-- The rows of the first line table. -/
def lineRows (attributes : List Attribute) : List LineRow :=
  (find? attributes fun
    | .lineNumberTable rows => some rows
    | _ => none).getD []

/-- The rows of all tables of local variables, one table after the other. -/
def localRows (attributes : List Attribute) : List LocalRow :=
  attributes.flatMap fun a =>
    match a.content with
    | some (.localVariableTable rows) => rows
    | _ => []

/-- The rows of all tables of types of local variables, one table after the other. -/
def localTypeRows (attributes : List Attribute) : List LocalRow :=
  attributes.flatMap fun a =>
    match a.content with
    | some (.localVariableTypeTable rows) => rows
    | _ => []

/-- The index of the constant that a field starts with. -/
def constantValue? (attributes : List Attribute) : Option UInt16 :=
  find? attributes fun
    | .constantValue index => some index
    | _ => none

end Attributes

end JvmDecompiler
