import JvmDecompiler.Names
import JvmDecompiler.Variable.Recovery

/-!
# Source forms of compiled idioms

Compilers write some source forms as others: a concatenation of strings as calls on a builder, a value
that is returned as the store into a variable in front of the return, the end of a method as a return,
and the call of the superclass's constructor where the source has none. Here they are brought back.
-/

namespace JvmDecompiler

/-- What is known about the method whose source forms are recovered. -/
structure MethodSummary where
  name : String
  superClass : Option String
  returnsVoid : Bool
  deriving DecidableEq, Repr, Inhabited

/-! ## Concatenation -/

/-- Whether a class builds strings. -/
def isStringBuilder (className : String) : Bool :=
  className = KnownName.stringBuilder.text || className = KnownName.stringBuffer.text

namespace Expr

/-- The value whose text a call gives, or the expression itself if it is no such call. -/
def underValueOf : Expr → Expr
  | e@(invoke _ .static _ className name _ [value]) =>
    if className = KnownName.javaLangString.text && name = KnownName.valueOf.text then value else e
  | e => e

/-- What a new builder starts with. -/
def initialParts? (descriptor : String) (args : List Expr) : Option (List Expr) :=
  match args with
  | [] => if descriptor = "()V" then some [] else none
  | [initial] =>
    if descriptor = "(Ljava/lang/String;)V" then some [initial.underValueOf]
    else if descriptor = "(Ljava/lang/CharSequence;)V" then some [initial]
    else none
  | _ => none

/-- What is in a builder that is new and only appended to. -/
def builderParts? : Expr → Option (List Expr)
  | invoke _ .virtual (some object) className name _ [part] =>
    if isStringBuilder className && name = KnownName.append.text then
      (builderParts? object).map (· ++ [part])
    else none
  | new _ className descriptor args =>
    if isStringBuilder className then initialParts? descriptor args else none
  | _ => none

/-- The operands of a concatenation. One of the first two is a string: without it they would be
added. -/
def operandsOf (l : SourceLine) (parts : List Expr) : List Expr :=
  if (parts.take 2).any (·.type = .string) then parts else literal l (.string "") :: parts

/-- The concatenation that the text of a builder is. -/
def foldConcat : Expr → Expr
  | e@(invoke l .virtual (some object) className name _ []) =>
    if isStringBuilder className && name = KnownName.toString.text then
      match object.builderParts? with
      | some (part :: parts) => concat l (operandsOf l (part :: parts))
      | _ => e
    else e
  | e => e

end Expr

/-- Folds concatenations. -/
def concatFolder : Transform Id where
  expr e := pure e.foldConcat

/-! ## Temporary variables -/

/-- The variable that a statement stores a value in, the value, and the line of the store. -/
def Stmt.storedVar? : Stmt → Option (Nat × Expr × SourceLine)
  | declaration ref (some init) => ref.var.map (·, init, init.line)
  | simple s => do
    let (target, value) ← s.asAssign?
    return (← (← target.asLocal?).var, value, s.line)
  | _ => none

/-- The variable that a statement returns, and its line. -/
def Stmt.returnedVar? : Stmt → Option (Nat × SourceLine)
  | simple (.return l (some (.localVar _ ref))) => ref.var.map (·, l)
  | _ => none

/-- The return of a value that two statements store in a variable and return, if it is one of the
variables `temporary`. -/
def temporaryReturn? (temporary : List Nat) (store ret : Stmt) : Option (Nat × Stmt) := do
  let (stored, value, storeLine) ← store.storedVar?
  let (returned, returnLine) ← ret.returnedVar?
  if stored = returned && temporary.contains stored then
    some (stored, .simple (.return (storeLine <|> returnLine) (some value)))
  else none

/-- Return values without the variables `temporary`, and give the variables that this leaves unused. -/
def inlineReturns (temporary : List Nat) : List Stmt → List Stmt × List Nat
  | [] => ([], [])
  | [s] => ([s], [])
  | s :: t :: rest =>
    match temporaryReturn? temporary s t with
    | some (var, ret) =>
      let (body, unused) := inlineReturns temporary rest
      (ret :: body, var :: unused)
    | none =>
      let (body, unused) := inlineReturns temporary (t :: rest)
      (s :: body, unused)

/-- Inlines returned values in every list, and collects the variables that are not used any more. -/
def returnInliner (temporary : List Nat) : Transform (StateM (List Nat)) where
  body stmts := do
    let (stmts, unused) := inlineReturns temporary stmts
    modify (· ++ unused)
    return stmts

/-- Mark a variable as not used any more. -/
def LocalVariable.unused (v : LocalVariable) : LocalVariable :=
  { v with flags := v.flags ||| unusedBit }

/-- Return values without inferred variables that nothing else uses. -/
def BoundBody.inlineTemporaries (b : BoundBody) : BoundBody :=
  let nodes := Stmt.nodesOfList b.statements
  let temporary := b.locals.zipIdx.filter fun (v, i) =>
    v.origin = .inferred && Node.count (Node.uses i) nodes = 2
  let (statements, unused) := ((returnInliner (temporary.map (·.2))).onBody b.statements).run []
  { statements
    locals := b.locals.zipIdx.map fun (v, i) => if unused.contains i then v.unused else v }

/-! ## What the compiler adds -/

/-- Whether a statement returns no value. -/
def Stmt.isPlainReturn : Stmt → Bool
  | simple (.return _ none) => true
  | _ => false

/-- Whether a statement calls the constructor of a class on the object itself, without arguments. -/
def Stmt.isPlainSuperCall (superClass : Option String) : Stmt → Bool
  | simple (.expr _ (.invoke _ .special (some (.this _)) className name _ [])) =>
    name = KnownName.instanceConstructor.text && some className = superClass
  | _ => false

/-- A list without the return at its end. -/
def dropTrailingReturn (body : List Stmt) : List Stmt :=
  if body.getLast?.any Stmt.isPlainReturn then body.dropLast else body

/-- A list without the call of the superclass's constructor at its start. -/
def dropSuperCall (superClass : Option String) (body : List Stmt) : List Stmt :=
  if body.head?.any (Stmt.isPlainSuperCall superClass) then body.tail else body

/-- Recover the source forms of a method. Concatenations are folded if `concatenations` holds. -/
def BoundBody.desugar (b : BoundBody) (method : MethodSummary) (concatenations : Bool) : BoundBody :=
  let folded := if concatenations then Id.run (concatFolder.onBody b.statements) else b.statements
  let b := { b with statements := folded }.inlineTemporaries
  let body := if method.returnsVoid then dropTrailingReturn b.statements else b.statements
  let isConstructor := method.name = KnownName.instanceConstructor.text
  { b with statements := if isConstructor then dropSuperCall method.superClass body else body }

end JvmDecompiler
