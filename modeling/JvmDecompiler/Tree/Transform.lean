import JvmDecompiler.Tree.Stmt

/-!
# Transforming trees

A `Transform` says what becomes of each kind of node, and of each statement list, once what is below it
has been transformed, with effects in a monad. The nodes of a statement itself are transformed before the
statement lists inside it, the variables of all catch clauses before their bodies, and otherwise
everything in the order of the source.
-/

namespace JvmDecompiler

/-- What becomes of the nodes of a tree. -/
structure Transform (m : Type → Type) [Monad m] where
  expr : Expr → m Expr := pure
  localVar : LocalRef → m LocalRef := pure
  simple : SimpleStmt → m SimpleStmt := pure
  stmt : Stmt → m Stmt := pure
  body : List Stmt → m (List Stmt) := pure

namespace Transform

variable {m : Type → Type} [Monad m] (r : Transform m)

mutual

/-- Transform an expression. -/
def onExpr : Expr → m Expr
  | .literal l v => r.expr (.literal l v)
  | .localVar l ref => do r.expr (.localVar l (← r.localVar ref))
  | .this l => r.expr (.this l)
  | .caught l c => r.expr (.caught l c)
  | .binary l op a b => do
    let a ← onExpr a
    let b ← onExpr b
    r.expr (.binary l op a b)
  | .compare l op a b => do
    let a ← onExpr a
    let b ← onExpr b
    r.expr (.compare l op a b)
  | .not l a => do r.expr (.not l (← onExpr a))
  | .neg l a => do r.expr (.neg l (← onExpr a))
  | .cast l t a => do r.expr (.cast l t (← onExpr a))
  | .instanceOf l a c => do r.expr (.instanceOf l (← onExpr a) c)
  | .field l o c n t => do r.expr (.field l (← onOption o) c n t)
  | .invoke l k o c n d args => do
    let o ← onOption o
    let args ← onExprs args
    r.expr (.invoke l k o c n d args)
  | .invokeDynamic l n d args => do r.expr (.invokeDynamic l n d (← onExprs args))
  | .new l c d args => do r.expr (.new l c d (← onExprs args))
  | .newArray l t args => do r.expr (.newArray l t (← onExprs args))
  | .arrayLength l a => do r.expr (.arrayLength l (← onExpr a))
  | .arrayLoad l a b => do
    let a ← onExpr a
    let b ← onExpr b
    r.expr (.arrayLoad l a b)
  | .assign l a b => do
    let a ← onExpr a
    let b ← onExpr b
    r.expr (.assign l a b)
  | .increment l a delta before => do r.expr (.increment l (← onExpr a) delta before)
  | .ternary l a b c => do
    let a ← onExpr a
    let b ← onExpr b
    let c ← onExpr c
    r.expr (.ternary l a b c)
  | .concat l args => do r.expr (.concat l (← onExprs args))
  | .threeWay l k a b => do
    let a ← onExpr a
    let b ← onExpr b
    r.expr (.threeWay l k a b)
  | .uninitNew l c => r.expr (.uninitNew l c)
  | .unresolved l s => r.expr (.unresolved l s)

/-- Transform an expression that may be absent. -/
def onOption : Option Expr → m (Option Expr)
  | none => pure none
  | some e => do return some (← onExpr e)

/-- Transform several expressions. -/
def onExprs : List Expr → m (List Expr)
  | [] => pure []
  | e :: es => do
    let e ← onExpr e
    let es ← onExprs es
    return e :: es

end

/-- Transform a simple statement. -/
def onSimple : SimpleStmt → m SimpleStmt
  | .expr l e => do r.simple (.expr l (← r.onExpr e))
  | .return l e => do r.simple (.return l (← r.onOption e))
  | .throw l e => do r.simple (.throw l (← r.onExpr e))
  | .monitorEnter l e => do r.simple (.monitorEnter l (← r.onExpr e))
  | .monitorExit l e => do r.simple (.monitorExit l (← r.onExpr e))

/-- Transform the variable of a catch clause. -/
def onCatchVar : Option LocalRef → m (Option LocalRef)
  | none => pure none
  | some var => do return some (← r.localVar var)

/-- Transform the variables of catch clauses. -/
def onCatchVars : List CatchClause → m (List (Option LocalRef))
  | [] => pure []
  | c :: cs => do
    let var ← r.onCatchVar c.var
    let vars ← onCatchVars cs
    return var :: vars

mutual

/-- Transform a statement. -/
def onStmt : Stmt → m Stmt
  | .simple s => do r.stmt (.simple (← r.onSimple s))
  | .block body => do
    let body ← r.body (← onStmts body)
    r.stmt (.block body)
  | .declaration var init => do
    let var ← r.localVar var
    let init ← r.onOption init
    r.stmt (.declaration var init)
  | .ifElse condition a b => do
    let condition ← r.onExpr condition
    let a ← r.body (← onStmts a)
    let b ← r.body (← onStmts b)
    r.stmt (.ifElse condition a b)
  | .whileLoop condition body => do
    let condition ← r.onExpr condition
    let body ← r.body (← onStmts body)
    r.stmt (.whileLoop condition body)
  | .doWhile body condition => do
    let condition ← r.onExpr condition
    let body ← r.body (← onStmts body)
    r.stmt (.doWhile body condition)
  | .forLoop init condition update body => do
    let condition ← r.onExpr condition
    let init ← r.body (← onStmts init)
    let update ← r.body (← onStmts update)
    let body ← r.body (← onStmts body)
    r.stmt (.forLoop init condition update body)
  | .forEach var iterable body => do
    let var ← r.localVar var
    let iterable ← r.onExpr iterable
    let body ← r.body (← onStmts body)
    r.stmt (.forEach var iterable body)
  | .switch key cases => do
    let key ← r.onExpr key
    let cases ← onCases cases
    r.stmt (.switch key cases)
  | .tryCatch body catches finallyBody => do
    let vars ← r.onCatchVars catches
    let body ← r.body (← onStmts body)
    let catches ← onCatches vars catches
    let finallyBody ← onFinally finallyBody
    r.stmt (.tryCatch body catches finallyBody)
  | .synchronized object body => do
    let object ← r.onExpr object
    let body ← r.body (← onStmts body)
    r.stmt (.synchronized object body)
  | .labeled label body => do r.stmt (.labeled label (← onStmt body))
  | .label name => r.stmt (.label name)
  | .breakTo label => r.stmt (.breakTo label)
  | .continueTo label => r.stmt (.continueTo label)
  | .gotoLabel label => r.stmt (.gotoLabel label)
  | .comment text => r.stmt (.comment text)

/-- Transform the statements of a list. -/
def onStmts : List Stmt → m (List Stmt)
  | [] => pure []
  | s :: rest => do
    let s ← onStmt s
    let rest ← onStmts rest
    return s :: rest

/-- Transform the arms of a switch. -/
def onCases : List SwitchCase → m (List SwitchCase)
  | [] => pure []
  | ⟨labels, body, fallsThrough⟩ :: cases => do
    let body ← r.body (← onStmts body)
    let cases ← onCases cases
    return ⟨labels, body, fallsThrough⟩ :: cases

/-- Transform the bodies of catch clauses, whose variables have become `vars`. -/
def onCatches : List (Option LocalRef) → List CatchClause → m (List CatchClause)
  | _, [] => pure []
  | vars, ⟨classes, _, body⟩ :: clauses => do
    let body ← r.body (← onStmts body)
    let clauses ← onCatches vars.tail clauses
    return ⟨classes, vars.head?.join, body⟩ :: clauses

/-- Transform a statement list that may be absent. -/
def onFinally : Option (List Stmt) → m (Option (List Stmt))
  | none => pure none
  | some body => do return some (← r.body (← onStmts body))

end

/-- Transform a statement list. -/
def onBody (body : List Stmt) : m (List Stmt) := do r.body (← r.onStmts body)

/-- Forget lines, addresses and variables. Two copies of the same code become the same tree. -/
def erasePositions : Transform Id where
  expr e := pure (e.withLine none)
  localVar ref := pure { ref with pc := 0, var := none }
  simple
    | .expr _ e => pure (.expr none e)
    | .return _ e => pure (.return none e)
    | .throw _ e => pure (.throw none e)
    | .monitorEnter _ e => pure (.monitorEnter none e)
    | .monitorExit _ e => pure (.monitorExit none e)

end Transform

end JvmDecompiler
