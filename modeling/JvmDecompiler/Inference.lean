import JvmDecompiler.Names
import JvmDecompiler.Tree.Transform
import JvmDecompiler.Variable
import JvmDecompiler.Warning

/-!
# Narrow literals

The machine has one kind of integer for truth values, characters, bytes and shorts, so that all their
literals come out as `int`. Where the context of an `int` literal says what it stands for, it becomes a
truth value, a character, or is cast, and comparisons of a truth value with a literal become the truth
value or its negation.
-/

namespace JvmDecompiler

/-- What narrowing literals refers to. -/
structure TypeContext where
  /-- The name and the descriptor of the method. -/
  method : String
  returnType : Ty
  locals : List LocalVariable
  /-- Whether a pushed constant that a string is searched for is a character. -/
  charLiterals : Bool

/-- A step of narrowing literals, which collects warnings. -/
abbrev Infer := StateM (List Warning)

/-! ## Literals -/

/-- The character that an `int` stands for. -/
def charOf? (value : Int32) : Option Literal :=
  if 0 ≤ value && value ≤ 0xFFFF then some (.char value.toUInt32.toUInt16) else none

namespace Expr

/-- The expression where a value of type `expected` is needed. Only an argument has to be cast to
`byte` or `short`; in other places such a literal is right as it is. -/
def narrow (expected : Ty) (isArgument : Bool) : Expr → Expr
  | e@(literal l (.int value _)) =>
    match expected with
    | .boolean => if value = 0 || value = 1 then literal l (.boolean (value = 1)) else e
    | .char => ((charOf? value).map (literal l)).getD e
    | .byte | .short => if isArgument then cast l expected e else e
    | _ => e
  | e@(ternary l condition a b) =>
    if expected = .boolean then
      ternary l condition (narrow expected isArgument a) (narrow expected isArgument b)
    else e
  | e => e

/-- The character that a literal stands for, if an instruction that pushes a constant made it. -/
def pushedChar : Expr → Expr
  | e@(literal l (.int value (some form))) =>
    match form with
    | .bipush | .sipush => ((charOf? value).map (literal l)).getD e
    | _ => e
  | e => e

/-- The truth value that a literal stands for. -/
def truth? : Expr → Option Bool
  | literal _ (.int 0 _) | literal _ (.boolean false) => some false
  | literal _ (.int 1 _) | literal _ (.boolean true) => some true
  | _ => none

/-- A comparison of a truth value with a literal is the truth value or its negation. -/
def simplifyTruth : Expr → Expr
  | e@(compare l op left right) =>
    match left.isBoolean, right.truth?, op with
    | true, some truth, .eq => if truth then left.orLine l else (left.orLine l).negate
    | true, some truth, .ne => if truth then (left.orLine l).negate else left.orLine l
    | _, _, _ => e
  | e => e

end Expr

namespace TypeContext

variable (ctx : TypeContext)

/-- Whether a call searches a string for a character. -/
def isCharSearch (kind : InvokeKind) (className name descriptor : String) : Bool :=
  ctx.charLiterals && kind = .virtual && className = KnownName.javaLangString.text
    && (name = "indexOf" || name = "lastIndexOf")
    && (descriptor = "(I)I" || descriptor = "(II)I")

/-- The name of the variable that an argument is, if nothing but its uses says that it is an `int`. -/
def inferredInt? (e : Expr) : Option String := do
  let ref ← e.asLocal?
  let v ← ctx.locals[← ref.var]?
  if v.origin = .inferred && v.type = .int then some ref.name else none

/-- Narrow an argument to the type of its parameter, and warn of an `int` variable that is passed where a
narrower type is needed. -/
def refineArgument (callee : String) (arg : Expr) (parameter : Ty) : Infer Expr := do
  let arg := arg.narrow parameter true
  match ctx.inferredInt? arg with
  | some name =>
    if parameter.isNarrowInt then
      let message := s!"local {name} passed to {callee} as {parameter.sourceName} is kept as int"
      modify (· ++ [⟨.typeInferenceUncertain, ctx.method, message⟩])
  | none => pure ()
  return arg

/-- Narrow arguments to the types of their parameters. -/
def refineEach (callee : String) : List Expr → List Ty → Infer (List Expr)
  | arg :: args, parameter :: parameters => do
    let arg ← ctx.refineArgument callee arg parameter
    let args ← refineEach callee args parameters
    return arg :: args
  | args, _ => return args

/-- Narrow the arguments of a call. -/
def refineArguments (callee descriptor : String) (args : List Expr) : Infer (List Expr) :=
  match MethodTy.ofDescriptor? descriptor with
  | some m => ctx.refineEach callee args m.parameters
  | none => return args

/-- Narrow what is directly inside an expression. -/
def refine : Expr → Infer Expr
  | .invoke l kind object className name descriptor args => do
    let args :=
      match ctx.isCharSearch kind className name descriptor, args with
      | true, first :: rest => first.pushedChar :: rest
      | _, args => args
    let args ← ctx.refineArguments s!"{className}.{name}" descriptor args
    return .invoke l kind object className name descriptor args
  | .new l className descriptor args => do
    return .new l className descriptor (← ctx.refineArguments s!"new {className}" descriptor args)
  | .assign l target value => return .assign l target (value.narrow target.type false)
  | .ternary l condition a b =>
    if a.type.isNarrowInt then return .ternary l condition a (b.narrow a.type false)
    else if b.type.isNarrowInt then return .ternary l condition (a.narrow b.type false) b
    else return .ternary l condition a b
  | .compare l op a b =>
    if a.type = .char then return .compare l op a (b.narrow .char false)
    else if b.type = .char then return .compare l op (a.narrow .char false) b
    else return .compare l op a b
  | e => return e

/-- Narrows literals from the inside out. -/
def narrowing : Transform Infer where
  expr e := return (← ctx.refine e).simplifyTruth
  simple
    | .return l (some value) => return .return l (some (value.narrow ctx.returnType false))
    | s => return s
  stmt
    | .declaration var (some init) => return .declaration var (some (init.narrow var.type false))
    | s => return s

/-- Narrow the literals of a method, and warn of what stays uncertain. -/
def inferTypes (body : List Stmt) : List Stmt × List Warning := (ctx.narrowing.onBody body).run []

end TypeContext

end JvmDecompiler
