import JvmDecompiler.Layout
import JvmDecompiler.Names
import JvmDecompiler.Variable.Recovery
import JvmDecompiler.Warning

/-!
# Compilation units

The recovered source of a class file: one declaration of a type with its fields and methods, and the
warnings about its methods. Names of classes are internal names.
-/

namespace JvmDecompiler

/-- The kinds of types that a class file declares. -/
inductive TypeKind where
  | «class»
  | interface
  | enum
  | annotationType
  | module
  deriving DecidableEq, Repr, Inhabited

/-- What a declaration says before its name. The last three are no words of the source; they tell which
members the compiler made, and which have a variable number of arguments. -/
inductive Modifier where
  | «public»
  | «private»
  | «protected»
  | static
  | final
  | synchronized
  | volatile
  | transient
  | native
  | «abstract»
  | strict
  /-- A method of an interface that has a body. -/
  | default
  | synthetic
  | bridge
  | varargs
  deriving DecidableEq, Repr, Inhabited

/-- The bit that stands for a modifier. -/
def Modifier.bit : Modifier → UInt16
  | .public => 0x0001
  | .private => 0x0002
  | .protected => 0x0004
  | .static => 0x0008
  | .final => 0x0010
  | .synchronized => 0x0020
  | .volatile => 0x0040
  | .transient => 0x0080
  | .native => 0x0100
  | .abstract => 0x0400
  | .strict => 0x0800
  | .default => 0x1000
  | .synthetic => 0x2000
  | .bridge => 0x4000
  | .varargs => 0x8000

/-- The bits of several modifiers. -/
def Modifier.bits (modifiers : List Modifier) : UInt16 :=
  modifiers.foldl (fun bits m => bits ||| m.bit) 0

mutual

/-- An annotation. It is visible if it is there when the program runs. -/
structure Annotation where
  className : String
  arguments : List (String × AnnotationValue)
  visible : Bool

/-- The value of an argument of an annotation. -/
inductive AnnotationValue where
  | int (value : Int32)
  | long (value : Int64)
  | float (bits : UInt32)
  | double (bits : UInt64)
  | char (unit : UInt16)
  | byte (value : Int8)
  | short (value : Int16)
  | boolean (value : Bool)
  | string (text : String)
  | classOf (type : Ty)
  | enum (className constant : String)
  | nested (value : Annotation)
  | array (values : List AnnotationValue)

end

/-- A parameter of a method. -/
structure Parameter where
  name : String
  type : Ty
  signature : Option String
  modifiers : List Modifier
  deriving DecidableEq, Repr, Inhabited

/-- The declaration of a field. -/
structure FieldDeclaration where
  modifiers : List Modifier
  name : String
  type : Ty
  signature : Option String
  annotations : List Annotation
  /-- The constant that the field starts with. -/
  initializer : Option Expr

/-- The body of a method, with the line of every statement. -/
structure MethodBody extends BoundBody where
  layout : LineLayout
  deriving Inhabited

/-- The declaration of a method. Abstract and native methods have no body. -/
structure MethodDeclaration where
  modifiers : List Modifier
  name : String
  descriptor : String
  returnType : Ty
  parameters : List Parameter
  throws : List String
  signature : Option String
  annotations : List Annotation
  body : Option MethodBody

namespace MethodDeclaration

/-- Whether the method is a constructor. -/
def isConstructor (m : MethodDeclaration) : Bool := m.name = KnownName.instanceConstructor.text

/-- Whether the method initialises the class. -/
def isStaticInitializer (m : MethodDeclaration) : Bool := m.name = KnownName.classConstructor.text

/-- What warnings call the method: its name and its descriptor. -/
def key (m : MethodDeclaration) : String := m.name ++ m.descriptor

end MethodDeclaration

/-- The declaration of a type. -/
structure TypeDeclaration where
  kind : TypeKind
  modifiers : List Modifier
  name : String
  superClass : Option String
  interfaces : List String
  signature : Option String
  annotations : List Annotation
  fields : List FieldDeclaration
  methods : List MethodDeclaration
  sourceFile : Option String

namespace TypeDeclaration

/-- The name without its package. -/
def simpleName (d : TypeDeclaration) : String := ClassName.simple d.name

/-- The first method with a name. -/
def findMethod? (d : TypeDeclaration) (name : String) : Option MethodDeclaration :=
  d.methods.find? (·.name = name)

end TypeDeclaration

/-- The recovered source of a class file. -/
structure CompilationUnit where
  /-- The package in source form; none for the default package. -/
  package : Option String
  type : TypeDeclaration
  /-- What may be wrong with the methods, in their order. -/
  warnings : List Warning

/-! ## Nodes -/

/-- The nodes of a field: those of the constant it starts with. -/
def FieldDeclaration.nodes (f : FieldDeclaration) : List Node := Expr.nodesOfOption f.initializer

/-- The nodes of the statements of a method. -/
def MethodDeclaration.nodes (m : MethodDeclaration) : List Node :=
  match m.body with
  | some body => Stmt.nodesOfList body.statements
  | none => []

/-- The nodes of a type: those of its fields before those of its methods. -/
def TypeDeclaration.nodes (d : TypeDeclaration) : List Node :=
  d.fields.flatMap FieldDeclaration.nodes ++ d.methods.flatMap MethodDeclaration.nodes

end JvmDecompiler
