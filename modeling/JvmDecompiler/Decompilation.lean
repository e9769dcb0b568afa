import JvmDecompiler.ClassFile.Format
import JvmDecompiler.Code.Decoding
import JvmDecompiler.CompilationUnit.Header
import JvmDecompiler.Desugaring
import JvmDecompiler.FlowGraph.Build
import JvmDecompiler.FlowGraph.LoopShapes
import JvmDecompiler.Inference
import JvmDecompiler.Structuring
import JvmDecompiler.Variable.Declaration

/-!
# Decompiling a class

From the bytes of a class file to its source. Only bytes that are no class file are an error: a method
whose code cannot be used has a comment for its body, and a warning.
-/

namespace JvmDecompiler

/-- What decompiling a class may do. -/
structure DecompileOptions where
  /-- Whether members that the compiler made are kept. -/
  includeSynthetic : Bool := false
  /-- Whether a pushed constant that a string is searched for is a character. -/
  inferCharLiterals : Bool := true
  /-- Whether overlapping rows of one name and type in a table of variables are one variable. -/
  mergeLocalVariables : Bool := true
  /-- Whether a jump to a return becomes that return. -/
  inlineReturns : Bool := true
  /-- Whether calls on string builders become concatenations. -/
  desugarStringConcat : Bool := true
  /-- Whether the copies of `finally` code that the compiler makes are removed. -/
  stripFinallyCopies : Bool := true
  deriving DecidableEq, Repr, Inhabited

/-- What decompiling a method has to know about it. -/
structure MethodContext where
  pool : ConstantPool
  method : Member
  header : MethodDeclaration
  superClass : Option String

namespace MethodContext

variable (ctx : MethodContext)

/-- The reduced flow graph of a method. -/
def flowGraph (code : MethodCode) (options : DecompileOptions) : FlowGraph :=
  ((FlowGraph.ofCode code).reduceJumps options.inlineReturns).reduceLoops ctx.pool

/-- What running the blocks of a method has to know. -/
def simContext (code : CodeAttribute) : SimContext :=
  ⟨ctx.pool, ctx.method.isStatic, code.maxStack⟩

/-- What is known about the variables of a method. -/
def variableSources (code : CodeAttribute) (codeLength : Nat) (mergeRows : Bool) : VariableSources :=
  { pool := ctx.pool
    rows := Attributes.localRows code.attributes
    typeRows := Attributes.localTypeRows code.attributes
    parameters := ctx.header.parameters.map (·.type)
    hints := ctx.header.parameters.map fun p => ⟨some p.name, p.modifiers.contains .final⟩
    isStatic := ctx.method.isStatic
    codeLength
    mergeRows }

/-- What narrowing the literals of a method has to know. -/
def typeContext (locals : List LocalVariable) (charLiterals : Bool) : TypeContext :=
  ⟨ctx.header.key, ctx.header.returnType, locals, charLiterals⟩

/-- What recovering the source forms of a method has to know. -/
def summary : MethodSummary :=
  ⟨ctx.header.name, ctx.superClass, ctx.header.returnType = .void⟩

/-- The body of a method with the warnings about it, or why its code cannot be used. -/
def body (options : DecompileOptions) : Except CodeError (MethodBody × List Warning) := do
  match Attributes.malformed? ctx.method.attributes with
  | some name => throw (.malformedAttribute name)
  | none => pure ()
  let code ← (Attributes.code? ctx.method.attributes).getDM (throw .noCode)
  let decoded ← MethodCode.decode ctx.pool code
  let graph := ctx.flowGraph decoded options
  let structured :=
    graph.structured (ctx.simContext code) ctx.header.key options.stripFinallyCopies
  let sources := ctx.variableSources code decoded.length options.mergeLocalVariables
  let bound := (sources.bind structured.statements).declare
  let (statements, warnings) :=
    (ctx.typeContext bound.locals options.inferCharLiterals).inferTypes bound.statements
  let final := { bound with statements }.desugar ctx.summary options.desugarStringConcat
  return (⟨final, LineLayout.ofBody final.statements⟩, structured.warnings ++ warnings)

end MethodContext

/-- The body of a method whose code cannot be used. -/
def placeholderBody (error : CodeError) : MethodBody :=
  let statements := [Stmt.comment s!"unsupported bytecode: {error.message}"]
  ⟨⟨statements, []⟩, LineLayout.ofBody statements⟩

/-- The body of a method with the warnings about it, or a placeholder with a warning. -/
def MethodContext.bodyOrPlaceholder (ctx : MethodContext) (options : DecompileOptions) :
    MethodBody × List Warning :=
  match ctx.body options with
  | .ok result => result
  | .error e => (placeholderBody e, [⟨.unsupportedBytecode, ctx.header.key, e.message⟩])

/-- The declaration of a method with the warnings about it. -/
def MethodContext.declaration (ctx : MethodContext) (options : DecompileOptions) :
    MethodDeclaration × List Warning :=
  if Access.has ctx.method.access (Access.abstractBit ||| Access.nativeBit) then (ctx.header, [])
  else
    let (body, warnings) := ctx.bodyOrPlaceholder options
    ({ ctx.header with body := some body }, warnings)

/-- Whether a member was made by the compiler. -/
def isCompilerMade (modifiers : List Modifier) : Bool :=
  modifiers.contains .synthetic || modifiers.contains .bridge

namespace ClassFile

/-- The fields of a class. -/
def fieldDeclarations (c : ClassFile) (options : DecompileOptions) : List FieldDeclaration :=
  (c.fields.map (FieldDeclaration.ofMember c.pool)).filter fun f =>
    options.includeSynthetic || !f.modifiers.contains .synthetic

/-- The methods of a class to decompile. -/
def methodContexts (c : ClassFile) (options : DecompileOptions) : List MethodContext :=
  let contexts := c.methods.map fun m =>
    (⟨c.pool, m, m.methodHeader c.pool (TypeKind.ofAccess c.access), c.superClassName?⟩ : MethodContext)
  contexts.filter fun ctx => options.includeSynthetic || !isCompilerMade ctx.header.modifiers

/-- The source of a class. -/
def decompile (c : ClassFile) (options : DecompileOptions) : CompilationUnit :=
  let header := c.typeHeader
  let methods := (c.methodContexts options).map (·.declaration options)
  { package := ClassName.package? header.name
    type := { header with fields := c.fieldDeclarations options, methods := methods.map (·.1) }
    warnings := methods.flatMap (·.2) }

end ClassFile

/-- The source of the class file that some bytes are. -/
def decompile (bytes : Bytes) (options : DecompileOptions) : Except FormatError CompilationUnit := do
  return (← ClassFile.read bytes).decompile options

end JvmDecompiler
