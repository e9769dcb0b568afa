import JvmDecompiler.ClassFile
import JvmDecompiler.CompilationUnit

/-!
# Headers of declarations

What a class file says about a type, a field or a method apart from its code: modifiers, names and
types of parameters, generic signatures, annotations and the constants that fields start with.
-/

namespace JvmDecompiler

/-! ## Modifiers -/

/-- The kind of a type with given access flags. -/
def TypeKind.ofAccess (access : UInt16) : TypeKind :=
  if Access.has access Access.moduleBit then .module
  else if Access.has access Access.annotationBit then .annotationType
  else if Access.has access Access.interfaceBit then .interface
  else if Access.has access Access.enumBit then .enum
  else .class

namespace Modifier

/-- The modifiers whose bits are set. -/
def select (access : UInt16) (table : List (UInt16 × Modifier)) : List Modifier :=
  (table.filter fun (bit, _) => Access.has access bit).map (·.2)

/-- The modifiers of a type. Interfaces are abstract anyway, and enumerations final. -/
def ofType (access : UInt16) : List Modifier :=
  select access [(Access.publicBit, .public), (Access.syntheticBit, .synthetic)] ++
    if Access.has access (Access.interfaceBit ||| Access.enumBit) then []
    else select access [(Access.finalBit, .final), (Access.abstractBit, .abstract)]

/-- The modifiers of a field. -/
def ofField (access : UInt16) : List Modifier :=
  select access
    [(Access.publicBit, .public), (Access.privateBit, .private), (Access.protectedBit, .protected),
      (Access.staticBit, .static), (Access.finalBit, .final), (Access.volatileBit, .volatile),
      (Access.transientBit, .transient), (Access.syntheticBit, .synthetic)]

/-- The modifiers of a method in a type of some kind. A method of an interface has a body unless it is
abstract; one that belongs to its objects is a default method. -/
def ofMethod (access : UInt16) (kind : TypeKind) : List Modifier :=
  let isDefault := kind = .interface
    && !Access.has access (Access.abstractBit ||| Access.staticBit ||| Access.privateBit)
  select access
    [(Access.publicBit, .public), (Access.privateBit, .private), (Access.protectedBit, .protected),
      (Access.staticBit, .static), (Access.finalBit, .final),
      (Access.synchronizedBit, .synchronized), (Access.nativeBit, .native),
      (Access.abstractBit, .abstract), (Access.strictBit, .strict),
      (Access.syntheticBit, .synthetic), (Access.bridgeBit, .bridge),
      (Access.varargsBit, .varargs)] ++ if isDefault then [.default] else []

end Modifier

/-! ## Annotations -/

/-- The class that a descriptor in a slot spells. -/
def ConstantPool.classOfDescriptor? (pool : ConstantPool) (i : UInt16) : Option String := do
  match ← Ty.ofDescriptor? (← pool.utf8? i) with
  | .reference name => some name
  | _ => none

/-- The value of an annotation element that is a constant, which has to be of the kind of its tag and in
the range of its type. -/
def AnnotationValue.ofConstant? : ElementTag → Constant → Option AnnotationValue
  | .boolean, .integer n => some (.boolean (n != 0))
  | .char, .integer n => if 0 ≤ n && n ≤ 0xFFFF then some (.char n.toUInt32.toUInt16) else none
  | .byte, .integer n => if -0x80 ≤ n && n ≤ 0x7F then some (.byte n.toInt8) else none
  | .short, .integer n => if -0x8000 ≤ n && n ≤ 0x7FFF then some (.short n.toInt16) else none
  | .int, .integer n => some (.int n)
  | .long, .long n => some (.long n)
  | .float, .float bits => some (.float bits)
  | .double, .double bits => some (.double bits)
  | .string, .utf8 text => some (.string text)
  | _, _ => none

mutual

/-- The annotation that a class file stores, if its type is a class. -/
def RawAnnotation.resolve? (pool : ConstantPool) (visible : Bool) : RawAnnotation → Option Annotation
  | ⟨type, elements⟩ => do
    let className ← pool.classOfDescriptor? type
    return ⟨className, ElementValue.resolveArguments pool elements, visible⟩

/-- The value of an annotation element. -/
def ElementValue.resolve? (pool : ConstantPool) : ElementValue → Option AnnotationValue
  | .const tag index => do AnnotationValue.ofConstant? tag (← pool.get? index)
  | .enumConst type constant => do
    return .enum (← pool.classOfDescriptor? type) (← pool.utf8? constant)
  | .classInfo descriptor => do
    return .classOf ((Ty.ofDescriptor? (← pool.utf8? descriptor)).getD .unknown)
  | .nested value => do return .nested (← value.resolve? pool true)
  | .array values => some (.array (ElementValue.resolveEach pool values))

/-- The arguments of an annotation. One without a name or a value is left out. -/
def ElementValue.resolveArguments (pool : ConstantPool) :
    List (UInt16 × ElementValue) → List (String × AnnotationValue)
  | [] => []
  | (name, value) :: rest =>
    match pool.utf8? name, value.resolve? pool with
    | some name, some value => (name, value) :: ElementValue.resolveArguments pool rest
    | _, _ => ElementValue.resolveArguments pool rest

/-- The values of an array that there are. -/
def ElementValue.resolveEach (pool : ConstantPool) : List ElementValue → List AnnotationValue
  | [] => []
  | value :: rest => (value.resolve? pool).toList ++ ElementValue.resolveEach pool rest

end

namespace Attributes

/-- The class of the annotation for what should not be used any more. -/
def deprecatedClass : String := "java/lang/Deprecated"

/-- The annotations that one attribute holds. -/
def annotationsOf (pool : ConstantPool) : AttributeContent → List Annotation
  | .runtimeVisibleAnnotations rows => rows.filterMap (·.resolve? pool true)
  | .runtimeInvisibleAnnotations rows => rows.filterMap (·.resolve? pool false)
  | _ => []

/-- Whether an attribute says that something should not be used any more. -/
def isDeprecated : AttributeContent → Bool
  | .deprecated => true
  | _ => false

/-- The annotations in a list of attributes. What should not be used any more is annotated so even if
only an attribute says it. -/
def annotations (pool : ConstantPool) (attributes : List Attribute) : List Annotation :=
  let contents := attributes.filterMap (·.content)
  let found := contents.flatMap (annotationsOf pool)
  if contents.any isDeprecated && !found.any (·.className = deprecatedClass) then
    found ++ [⟨deprecatedClass, [], true⟩]
  else found

/-- The generic signature in a list of attributes. -/
def signature? (pool : ConstantPool) (attributes : List Attribute) : Option String :=
  find? attributes fun
    | .signature index => pool.utf8? index
    | _ => none

/-- The classes of the exceptions that a method declares. -/
def throws (pool : ConstantPool) (attributes : List Attribute) : List String :=
  let classes := find? attributes fun
    | .exceptions classes => some classes
    | _ => none
  (classes.getD []).filterMap pool.className?

/-- What a table of method parameters says about a parameter. -/
def hintOf (pool : ConstantPool) (row : ParameterRow) : ParameterHint :=
  ⟨if row.name = 0 then none else pool.utf8? row.name, Access.has row.flags Access.finalBit⟩

/-- What the first table of method parameters says about the parameters. -/
def parameterHints (pool : ConstantPool) (attributes : List Attribute) : List ParameterHint :=
  let rows := find? attributes fun
    | .methodParameters rows => some rows
    | _ => none
  (rows.getD []).map (hintOf pool)

end Attributes

/-! ## Members -/

/-- The constant that a field of some type starts with. Truth values and characters are stored as
integers. -/
def constantInitializer? (pool : ConstantPool) (index : UInt16) (type : Ty) : Option Expr := do
  let literal ←
    match ← pool.get? index, type with
    | .integer n, .boolean => some (Literal.boolean (n != 0))
    | .integer n, .char => if 0 ≤ n && n ≤ 0xFFFF then some (.char n.toUInt32.toUInt16) else none
    | .integer n, _ => some (.int n none)
    | .long n, _ => some (.long n)
    | .float bits, _ => some (.float bits)
    | .double bits, _ => some (.double bits)
    | .string text, _ => (pool.utf8? text).map .string
    | _, _ => none
  return .literal none literal

/-- The declaration of a field. -/
def FieldDeclaration.ofMember (pool : ConstantPool) (field : Member) : FieldDeclaration :=
  let type := ((pool.utf8? field.descriptor).bind Ty.ofDescriptor?).getD .unknown
  { modifiers := Modifier.ofField field.access
    name := (pool.utf8? field.name).getD ""
    type
    signature := Attributes.signature? pool field.attributes
    annotations := Attributes.annotations pool field.attributes
    initializer := (Attributes.constantValue? field.attributes).bind fun index =>
      constantInitializer? pool index type }

namespace Member

/-- Whether the member belongs to the class and not to its objects. -/
def isStatic (m : Member) : Bool := Access.has m.access Access.staticBit

/-- The rows of the method's tables of local variables. -/
def localRows (m : Member) : List LocalRow :=
  match Attributes.code? m.attributes with
  | some code => Attributes.localRows code.attributes
  | none => []

/-- The rows of the method's tables of types of local variables. -/
def localTypeRows (m : Member) : List LocalRow :=
  match Attributes.code? m.attributes with
  | some code => Attributes.localTypeRows code.attributes
  | none => []

/-- The parameter of a method at a position and in a slot. Its name comes from the table of parameters,
from the tables of local variables, or is made up from the position. -/
def parameter (m : Member) (pool : ConstantPool) (isVarargs : Bool) (position : Nat) (slot : UInt16)
    (type : Ty) : Parameter :=
  let isStart (r : LocalRow) : Bool := r.slot = slot && r.start = 0
  let hint := (Attributes.parameterHints pool m.attributes)[position]?
  let rowName := (m.localRows.find? isStart).bind (pool.utf8? ·.name)
  { name := (hint.bind (·.name) <|> rowName).getD s!"param{position + 1}"
    type
    signature := (m.localTypeRows.find? isStart).bind (pool.utf8? ·.descriptor)
    modifiers := (if hint.any (·.isFinal) then [.final] else []) ++ if isVarargs then [.varargs] else [] }

/-- The declaration of a method of a type, without its body. -/
def methodHeader (m : Member) (pool : ConstantPool) (kind : TypeKind) : MethodDeclaration :=
  let descriptor := (pool.utf8? m.descriptor).getD ""
  let type := (MethodTy.ofDescriptor? descriptor).getD ⟨[], .unknown⟩
  let slots := Ty.slotsFrom (if m.isStatic then 0 else 1) type.parameters
  let hasVarargs := Access.has m.access Access.varargsBit
  { modifiers := Modifier.ofMethod m.access kind
    name := (pool.utf8? m.name).getD ""
    descriptor
    returnType := type.result
    parameters := (type.parameters.zip slots).zipIdx.map fun ((t, slot), position) =>
      m.parameter pool (hasVarargs && position + 1 = type.parameters.length) position slot t
    throws := Attributes.throws pool m.attributes
    signature := Attributes.signature? pool m.attributes
    annotations := Attributes.annotations pool m.attributes
    body := none }

end Member

/-- The declaration of the type of a class file, without its members. -/
def ClassFile.typeHeader (c : ClassFile) : TypeDeclaration :=
  { kind := TypeKind.ofAccess c.access
    modifiers := Modifier.ofType c.access
    name := c.className?.getD ""
    superClass := c.superClassName?
    interfaces := c.interfaces.filterMap c.pool.className?
    signature := Attributes.signature? c.pool c.attributes
    annotations := Attributes.annotations c.pool c.attributes
    fields := []
    methods := []
    sourceFile := c.sourceFile? }

end JvmDecompiler
