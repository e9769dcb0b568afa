import JvmDecompiler.Tree.Stmt

/-!
# Source lines of statements

An expression is on the line of the operand that is evaluated first: the array of an element, the left
side of an assignment or of an operator, the object of a call, of a field or of a test of its class, the
condition of a conditional expression. An increment is on the line of its target where the source
starts with the target. A statement is on the first line of its expressions; one without any line is on
the line of the statement before it in its list.
-/

namespace JvmDecompiler

/-- Whether an increment is written with its operator first: as `++x`, and not as `x += 5` or `x++`. -/
def isOperatorFirst (delta : Int32) (before : Bool) : Bool := (delta = 1 || delta = -1) = before

/-- The line on which an expression starts. -/
def Expr.startLine : Expr → SourceLine
  | .arrayLoad l e _ | .assign l e _ | .binary l _ e _ | .compare l _ e _ | .threeWay l _ e _
  | .instanceOf l e _ | .invoke l _ (some e) _ _ _ _ | .field l (some e) _ _ _ | .ternary l e _ _
  | .concat l (e :: _) => e.startLine <|> l
  | .increment l target delta before =>
    if isOperatorFirst delta before then l else target.startLine <|> l
  | e => e.line

/-- The smallest of the lines that are known. -/
def SourceLine.first (lines : List SourceLine) : SourceLine := (lines.filterMap id).min?

/-- The largest of the lines that are known. -/
def SourceLine.last (lines : List SourceLine) : SourceLine := (lines.filterMap id).max?

namespace Stmt

/-- The line of a statement, where `nested` is that of the statements inside it. -/
def lineWith (nested : SourceLine) (s : Stmt) : SourceLine :=
  let own := SourceLine.first (s.ownExprs.map Expr.startLine)
  match s with
  | simple t => own <|> t.line
  | declaration .. => own
  | _ => own <|> nested

mutual

/-- The line of the first statement inside a statement that has one. -/
def nestedLine : Stmt → SourceLine
  | block body | whileLoop _ body | doWhile body _ | forEach _ _ body | synchronized _ body =>
    lineOfList body
  | ifElse _ a b => lineOfList a <|> lineOfList b
  | forLoop init _ update body => lineOfList init <|> lineOfList update <|> lineOfList body
  | switch _ cases => lineOfCases cases
  | tryCatch body catches finallyBody =>
    lineOfList body <|> lineOfCatches catches <|> lineOfFinally finallyBody
  | labeled _ body => nestedLine body
  | _ => none

/-- The line of the first statement of a list that has one. -/
def lineOfList : List Stmt → SourceLine
  | [] => none
  | s :: rest => lineWith (nestedLine s) s <|> lineOfList rest

/-- The line of the first statement in the arms of a switch that has one. -/
def lineOfCases : List SwitchCase → SourceLine
  | [] => none
  | ⟨_, body, _⟩ :: cases => lineOfList body <|> lineOfCases cases

/-- The line of the first statement in catch clauses that has one. -/
def lineOfCatches : List CatchClause → SourceLine
  | [] => none
  | ⟨_, _, body⟩ :: clauses => lineOfList body <|> lineOfCatches clauses

/-- The line of the first statement that has one of a list that may be absent. -/
def lineOfFinally : Option (List Stmt) → SourceLine
  | none => none
  | some body => lineOfList body

end

/-- The line of a statement. One with no expression of its own starts where the statements inside it
do. -/
def line (s : Stmt) : SourceLine := s.lineWith s.nestedLine

mutual

/-- The lines of the statements inside a statement. -/
def layoutInside : Stmt → List SourceLine
  | block body | whileLoop _ body | doWhile body _ | forEach _ _ body | synchronized _ body =>
    layoutFrom none body
  | ifElse _ a b => layoutFrom none a ++ layoutFrom none b
  | forLoop init _ update body =>
    layoutFrom none init ++ (layoutFrom none update ++ layoutFrom none body)
  | switch _ cases => layoutCases cases
  | tryCatch body catches finallyBody =>
    layoutFrom none body ++ (layoutCatches catches ++ layoutFinally finallyBody)
  | labeled _ body => layoutInside body
  | _ => []

/-- The lines of the statements of a list and of those inside them, behind a statement on the line
`previous`. -/
def layoutFrom (previous : SourceLine) : List Stmt → List SourceLine
  | [] => []
  | s :: rest =>
    let current := s.line <|> previous
    current :: (layoutInside s ++ layoutFrom current rest)

/-- The lines of the statements in the arms of a switch. -/
def layoutCases : List SwitchCase → List SourceLine
  | [] => []
  | ⟨_, body, _⟩ :: cases => layoutFrom none body ++ layoutCases cases

/-- The lines of the statements in catch clauses. -/
def layoutCatches : List CatchClause → List SourceLine
  | [] => []
  | ⟨_, _, body⟩ :: clauses => layoutFrom none body ++ layoutCatches clauses

/-- The lines of the statements of a list that may be absent. -/
def layoutFinally : Option (List Stmt) → List SourceLine
  | none => []
  | some body => layoutFrom none body

end

end Stmt

/-- The lines of all statements of a method, a statement before those inside it. -/
structure LineLayout where
  lines : List SourceLine
  deriving DecidableEq, Repr, Inhabited

namespace LineLayout

/-- The lines of the statements of a method. -/
def ofBody (body : List Stmt) : LineLayout := ⟨Stmt.layoutFrom none body⟩

/-- The first line of the method. -/
def first? (layout : LineLayout) : SourceLine := SourceLine.first layout.lines

/-- The last line of the method. -/
def last? (layout : LineLayout) : SourceLine := SourceLine.last layout.lines

end LineLayout

end JvmDecompiler
