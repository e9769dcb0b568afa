import JvmDecompiler.Tree.Expr

/-!
# Statements

The statements of the recovered source. A simple statement is what the instructions of a basic block
leave behind; the others are the structure that control flow is brought into. A statement list is the
body of a method, of a branch, of a loop and so on.

Jumps that no structure expresses stay as `gotoLabel` with a `label` to jump to.
-/

namespace JvmDecompiler

/-- Simple statements, each with its source line. -/
inductive SimpleStmt where
  /-- An expression that is evaluated for its effect. -/
  | expr (line : SourceLine) (value : Expr)
  | return (line : SourceLine) (value : Option Expr)
  | throw (line : SourceLine) (value : Expr)
  | monitorEnter (line : SourceLine) (object : Expr)
  | monitorExit (line : SourceLine) (object : Expr)
  deriving Inhabited

namespace SimpleStmt

/-- The source line of the statement itself. -/
def line : SimpleStmt → SourceLine
  | expr l _ | «return» l _ | throw l _ | monitorEnter l _ | monitorExit l _ => l

/-- The expression that the statement evaluates. -/
def expr? : SimpleStmt → Option Expr
  | expr _ e | throw _ e | monitorEnter _ e | monitorExit _ e => some e
  | «return» _ e => e

/-- The target and the value of an assignment. -/
def asAssign? : SimpleStmt → Option (Expr × Expr)
  | expr _ (.assign _ target value) => some (target, value)
  | _ => none

/-- Whether control does not go on behind the statement. -/
def endsFlow : SimpleStmt → Bool
  | «return» .. | throw .. => true
  | _ => false

/-- Whether two simple statements are equal. -/
def equal : SimpleStmt → SimpleStmt → Bool
  | expr l a, expr m b => l = m && a.equal b
  | «return» l a, «return» m b => l = m && Expr.equalOption a b
  | throw l a, throw m b => l = m && a.equal b
  | monitorEnter l a, monitorEnter m b => l = m && a.equal b
  | monitorExit l a, monitorExit m b => l = m && a.equal b
  | _, _ => false

end SimpleStmt

mutual

/-- Statements. -/
inductive Stmt where
  | simple (stmt : SimpleStmt)
  | block (body : List Stmt)
  /-- Declares a variable, with its first value if that is known. -/
  | declaration (var : LocalRef) (init : Option Expr)
  | ifElse (condition : Expr) (thenBody elseBody : List Stmt)
  | whileLoop (condition : Expr) (body : List Stmt)
  | doWhile (body : List Stmt) (condition : Expr)
  | forLoop (init : List Stmt) (condition : Expr) (update body : List Stmt)
  | forEach (var : LocalRef) (iterable : Expr) (body : List Stmt)
  | switch (key : Expr) (cases : List SwitchCase)
  | tryCatch (body : List Stmt) (catches : List CatchClause) (finallyBody : Option (List Stmt))
  | synchronized (object : Expr) (body : List Stmt)
  | labeled (label : String) (body : Stmt)
  /-- The target of a `gotoLabel`. -/
  | label (name : String)
  | breakTo (label : Option String)
  | continueTo (label : Option String)
  | gotoLabel (label : String)
  | comment (text : String)

/-- One arm of a switch. The label `none` stands for the default. -/
structure SwitchCase where
  labels : List (Option Int32)
  body : List Stmt
  fallsThrough : Bool

/-- A catch clause. Without classes it takes every exception. -/
structure CatchClause where
  classes : List String
  var : Option LocalRef
  body : List Stmt

end

namespace Stmt

/-- The statement lists directly inside a statement, in the order of the source. A label is looked
through. -/
def childLists : Stmt → List (List Stmt)
  | block body | whileLoop _ body | doWhile body _ | forEach _ _ body | synchronized _ body => [body]
  | ifElse _ thenBody elseBody => [thenBody, elseBody]
  | forLoop init _ update body => [init, update, body]
  | switch _ cases => cases.map SwitchCase.body
  | tryCatch body catches finallyBody => body :: catches.map CatchClause.body ++ finallyBody.toList
  | labeled _ body => body.childLists
  | _ => []

/-- The expressions of a statement itself, those of nested lists not among them. A label is looked
through. -/
def ownExprs : Stmt → List Expr
  | simple s => s.expr?.toList
  | declaration _ init => init.toList
  | ifElse condition .. | whileLoop condition _ | doWhile _ condition | forLoop _ condition .. =>
    [condition]
  | forEach _ iterable _ => [iterable]
  | switch key _ => [key]
  | synchronized object _ => [object]
  | labeled _ body => body.ownExprs
  | _ => []

/-- Whether control never goes on with the next statement. -/
def isJump : Stmt → Bool
  | simple s => s.endsFlow
  | breakTo _ | continueTo _ | gotoLabel _ => true
  | _ => false

end Stmt

/-! ## Equality -/

mutual

/-- Whether two statements are equal. -/
def Stmt.equal : Stmt → Stmt → Bool
  | .simple a, .simple b => a.equal b
  | .block a, .block b => Stmt.equalList a b
  | .declaration v a, .declaration w b => v = w && Expr.equalOption a b
  | .ifElse c a b, .ifElse d a' b' => c.equal d && Stmt.equalList a a' && Stmt.equalList b b'
  | .whileLoop c a, .whileLoop d b => c.equal d && Stmt.equalList a b
  | .doWhile a c, .doWhile b d => Stmt.equalList a b && c.equal d
  | .forLoop i c u a, .forLoop j d v b =>
    Stmt.equalList i j && c.equal d && Stmt.equalList u v && Stmt.equalList a b
  | .forEach v e a, .forEach w f b => v = w && e.equal f && Stmt.equalList a b
  | .switch k a, .switch m b => k.equal m && SwitchCase.equalList a b
  | .tryCatch a c f, .tryCatch b d g =>
    Stmt.equalList a b && CatchClause.equalList c d && Stmt.equalBody f g
  | .synchronized o a, .synchronized p b => o.equal p && Stmt.equalList a b
  | .labeled l a, .labeled m b => l = m && a.equal b
  | .label l, .label m => l = m
  | .breakTo l, .breakTo m => l = m
  | .continueTo l, .continueTo m => l = m
  | .gotoLabel l, .gotoLabel m => l = m
  | .comment s, .comment t => s = t
  | _, _ => false

/-- Whether two statement lists are equal. -/
def Stmt.equalList : List Stmt → List Stmt → Bool
  | [], [] => true
  | a :: as, b :: bs => a.equal b && Stmt.equalList as bs
  | _, _ => false

/-- Whether two statement lists that may be absent are equal. -/
def Stmt.equalBody : Option (List Stmt) → Option (List Stmt) → Bool
  | none, none => true
  | some a, some b => Stmt.equalList a b
  | _, _ => false

/-- Whether the arms of two switches are equal. -/
def SwitchCase.equalList : List SwitchCase → List SwitchCase → Bool
  | [], [] => true
  | ⟨l, a, f⟩ :: as, ⟨m, b, g⟩ :: bs =>
    l = m && Stmt.equalList a b && f = g && SwitchCase.equalList as bs
  | _, _ => false

/-- Whether the catch clauses of two statements are equal. -/
def CatchClause.equalList : List CatchClause → List CatchClause → Bool
  | [], [] => true
  | ⟨l, v, a⟩ :: as, ⟨m, w, b⟩ :: bs =>
    l = m && v = w && Stmt.equalList a b && CatchClause.equalList as bs
  | _, _ => false

end

instance : Inhabited Stmt := ⟨.block []⟩

end JvmDecompiler
