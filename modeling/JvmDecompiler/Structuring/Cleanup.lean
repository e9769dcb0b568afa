import JvmDecompiler.Tree.Nodes
import JvmDecompiler.Tree.Transform

/-!
# Cleaning up structured code

Statement patterns that compilers leave around structured statements, and what becomes of them: the
store of a caught exception is the variable of its catch clause, the code between that store and a
rethrow is a `finally` part, copies of that code in front of the exits of a try statement go away, the
monitor calls around it make a synchronized statement, and the steps of an iterator make a loop through
elements.
-/

namespace JvmDecompiler

namespace Stmt

/-- Whether the statement is a label to jump to. -/
def isLabel : Stmt → Bool
  | label _ => true
  | _ => false

/-- The assignment that a statement is. -/
def asAssign? : Stmt → Option (Expr × Expr)
  | simple s => s.asAssign?
  | _ => none

/-- The variable that a statement stores the caught exception in. -/
def caughtVar? (s : Stmt) : Option LocalRef :=
  match s.asAssign? with
  | some (target, .caught ..) => target.asLocal?
  | _ => none

/-- A list split before its first statement that is no label. -/
def splitLabels (body : List Stmt) : List Stmt × List Stmt := body.span isLabel

end Stmt

open Stmt

/-- The statements that are no labels. -/
def codeOf (body : List Stmt) : List Stmt := body.filter (!·.isLabel)

/-- Remove from a list, and from every list inside it, the labels that are not in `used`. -/
def retainLabels (used : List String) (body : List Stmt) : List Stmt :=
  let keep : Stmt → Bool
    | .label name => used.contains name
    | _ => true
  Id.run (({ body := fun body => pure (body.filter keep) } : Transform Id).onBody body)

/-- A copy of some code without labels, lines, addresses and variables, so that copies of the same code
can be told. -/
def normalize (body : List Stmt) : List Stmt :=
  Id.run ({ Transform.erasePositions with body := fun body => pure (codeOf body) }.onBody body)

/-! ## Catch clauses -/

/-- Remove the store of the caught exception from the front of a handler, and give its variable. -/
def takeCatchVar (body : List Stmt) : Option LocalRef × List Stmt :=
  match splitLabels body with
  | (labels, s :: rest) =>
    match s.caughtVar? with
    | some var => (some var, labels ++ rest)
    | none => (none, body)
  | _ => (none, body)

/-- The code between the store of the caught exception and the statement that throws it again, if a
handler consists of these. -/
def finallyCode? (body : List Stmt) : Option (List Stmt) := do
  match codeOf body with
  | first :: rest =>
    let var ← first.caughtVar?
    match ← rest.getLast? with
    -- the handler throws again what it has caught
    | .simple (.throw _ thrown) => if thrown.isLocalSlot var.slot then some rest.dropLast else none
    | _ => none
  | [] => none

/-! ## Copies of `finally` code -/

/-- Whether a statement leaves the code around it. -/
def exitsTry : Stmt → Bool
  | .breakTo _ | .continueTo _ | .simple (.return ..) => true
  | _ => false

/-- Whether the last statements of a list, which is given backwards, are a copy of `pattern`; labels do
not count. -/
def endsWithCopy (pattern reversed : List Stmt) : Bool :=
  let code := codeOf reversed
  pattern.length ≤ code.length
    && equalList (normalize (code.take pattern.length).reverse) pattern

/-- Remove copies of `pattern` from a list that is given backwards, each statement with what it becomes
if it stays: the next `skip` statements, and the copies in front of every exit. Labels stay. -/
def removeCopies (pattern : List Stmt) : (skip : Nat) → (reversed : List (Stmt × Stmt)) → List Stmt
  | _, [] => []
  | skip, (s, kept) :: rest =>
    -- labels stay where they are, and are no part of a copy
    if s.isLabel then kept :: removeCopies pattern skip rest
    else
      match skip with
      | skip + 1 => removeCopies pattern skip rest
      | 0 =>
        let found := exitsTry s && endsWithCopy pattern (rest.map (·.1))
        kept :: removeCopies pattern (if found then pattern.length else 0) rest

/-- Remove the copies of `pattern` from a list whose statements become `inner` if they stay: in front of
every exit, and at the end if that is where control leaves the list. -/
def stripList (pattern : List Stmt) (atEnd : Bool) (body inner : List Stmt) : List Stmt :=
  let reversed := body.reverse
  let endsInJump := (codeOf reversed).head?.any Stmt.isJump
  -- the end of the list is an exit if no jump is there
  let skip := if atEnd && !endsInJump && endsWithCopy pattern reversed then pattern.length else 0
  (removeCopies pattern skip (reversed.zip inner.reverse)).reverse

mutual

/-- Remove the copies of `pattern` from the lists inside a statement. -/
def stripInside (pattern : List Stmt) : Stmt → Stmt
  | .block body => .block (stripList pattern false body (stripEach pattern body))
  | .ifElse c a b =>
    .ifElse c (stripList pattern false a (stripEach pattern a))
      (stripList pattern false b (stripEach pattern b))
  | .whileLoop c body => .whileLoop c (stripList pattern false body (stripEach pattern body))
  | .doWhile body c => .doWhile (stripList pattern false body (stripEach pattern body)) c
  | .forLoop init c update body =>
    .forLoop (stripList pattern false init (stripEach pattern init)) c
      (stripList pattern false update (stripEach pattern update))
      (stripList pattern false body (stripEach pattern body))
  | .forEach v e body => .forEach v e (stripList pattern false body (stripEach pattern body))
  | .switch key cases => .switch key (stripCases pattern cases)
  | .tryCatch body catches finallyBody =>
    .tryCatch (stripList pattern false body (stripEach pattern body)) (stripCatches pattern catches)
      (stripFinally pattern finallyBody)
  | .synchronized o body => .synchronized o (stripList pattern false body (stripEach pattern body))
  | .labeled l body => .labeled l (stripInside pattern body)
  | s => s

/-- Remove the copies of `pattern` from the lists inside each statement of a list. -/
def stripEach (pattern : List Stmt) : List Stmt → List Stmt
  | [] => []
  | s :: rest => stripInside pattern s :: stripEach pattern rest

/-- Remove the copies of `pattern` from the arms of a switch. -/
def stripCases (pattern : List Stmt) : List SwitchCase → List SwitchCase
  | [] => []
  | ⟨labels, body, fallsThrough⟩ :: rest =>
    ⟨labels, stripList pattern false body (stripEach pattern body), fallsThrough⟩
      :: stripCases pattern rest

/-- Remove the copies of `pattern` from catch clauses. -/
def stripCatches (pattern : List Stmt) : List CatchClause → List CatchClause
  | [] => []
  | ⟨classes, var, body⟩ :: rest =>
    ⟨classes, var, stripList pattern false body (stripEach pattern body)⟩ :: stripCatches pattern rest

/-- Remove the copies of `pattern` from a list that may be absent. -/
def stripFinally (pattern : List Stmt) : Option (List Stmt) → Option (List Stmt)
  | none => none
  | some body => some (stripList pattern false body (stripEach pattern body))

end

/-- Remove the copies of `pattern` from a list and from every list inside it: in front of every exit
from the code around it, and at the end of the list itself if that is where control leaves it. -/
def stripCopies (pattern : List Stmt) (atEnd : Bool) (body : List Stmt) : List Stmt :=
  stripList pattern atEnd body (stripEach pattern body)

/-! ## Monitors -/

/-- Whether some code does nothing but leave a monitor. -/
def isMonitorExit (body : List Stmt) : Bool :=
  match codeOf body with
  | [.simple (.monitorExit ..)] => true
  | _ => false

/-- Remove the statement that enters a monitor from the end of a list, and give the object. -/
def takeMonitorEnter? (body : List Stmt) : Option (Expr × List Stmt) :=
  match splitLabels body.reverse with
  | (labels, .simple (.monitorEnter _ object) :: rest) =>
    let object :=
      match object with
      | .assign _ _ value => value
      | object => object
    some (object, (labels ++ rest).reverse)
  | _ => none

/-! ## Loops through elements -/

/-- Whether an expression takes the next element, in a loop through an iterator or an array. -/
def takesNext (throughArray : Bool) : Expr → Bool
  | .invoke _ _ _ _ name _ _ => !throughArray && name = "next"
  | .arrayLoad .. => throughArray
  | _ => false

/-- The expression under a cast. -/
def underCast : Expr → Expr
  | .cast _ _ e => e
  | e => e

/-- What a loop through elements goes through, by its initialisation. -/
def iterable? (throughArray : Bool) (init : List Stmt) : Option Expr := do
  let (_, value) ← init.findSome? Stmt.asAssign?
  if throughArray then some value
  else
    match value with
    | .invoke _ _ (some object) _ name _ _ => if name = "iterator" then some object else none
    | _ => none

/-- The variable of a loop through elements, and the body without the statement that takes the next
element. -/
def takeElement? (throughArray : Bool) (body : List Stmt) : Option (LocalRef × List Stmt) :=
  match splitLabels body with
  | (labels, s :: rest) => do
    let (target, value) ← s.asAssign?
    if !takesNext throughArray (underCast value) then none
    let var ← target.asLocal?
    return (var, labels ++ rest)
  | _ => none

end JvmDecompiler
