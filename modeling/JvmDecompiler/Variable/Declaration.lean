import JvmDecompiler.Variable.Recovery

/-!
# Declaring variables

A variable is declared in the innermost statement list that holds all of its uses. If the first
statement there that uses it assigns to it, and the value does not use it, that assignment becomes the
declaration; otherwise a declaration without a value goes in front of the statement. Parameters and the
variables of catch clauses and of loops through elements are declared where they stand.
-/

namespace JvmDecompiler

namespace Stmt

/-- How often a variable is used in a statement list. -/
def usesIn (var : Nat) (body : List Stmt) : Nat := Node.count (Node.uses var) (nodesOfList body)

/-- The declaration that a statement becomes that assigns a value to a variable. A value without a line
is on the line of the statement. -/
def declarationOf? (var : Nat) (s : SimpleStmt) : Option Stmt := do
  let (target, value) ← s.asAssign?
  let ref ← target.asLocal?
  if ref.var = some var && Node.count (Node.uses var) value.nodes = 0 then
    some (declaration ref (some (value.orLine s.line)))
  else none

/-- The statement with the declaration of a variable in place of the assignment that it starts with:
the statement itself, or the first one of a loop's initialisation. -/
def declareAtStart? (var : Nat) : Stmt → Option Stmt
  | simple s => declarationOf? var s
  | forLoop (first :: init) condition update body =>
    (declareAtStart? var first).map fun first => forLoop (first :: init) condition update body
  | labeled name body =>
    match body with
    | forLoop .. => (declareAtStart? var body).map (labeled name)
    | _ => none
  | _ => none

end Stmt

/-- The use of a variable that is its declaration. -/
def LocalVariable.toRef (v : LocalVariable) (position : Nat) : LocalRef :=
  ⟨v.slot, v.start, v.name, v.type, some position⟩

/-- The variables with the given positions in a list that a statement declares, starting from `s` and
the declarations in front of it. -/
def declareBefore (vars : List LocalVariable) (s : Stmt) (declared : List Nat) : List Stmt :=
  let (s, before) := declared.foldl
    (fun (s, before) var =>
      match Stmt.declareAtStart? var s with
      | some s => (s, before)
      | none => (s, before ++ [Stmt.declaration ((vars[var]?.getD default).toRef var) none]))
    (s, [])
  before ++ [s]

/-- The variables of `pending` all of whose uses are in one list; `total` counts all uses. -/
def enclosedIn (total : Nat → Nat) (pending : List Nat) (body : List Stmt) : List Nat :=
  let nodes := Stmt.nodesOfList body
  pending.filter fun var => Node.count (Node.uses var) nodes = total var

/-- The statement lists inside a statement that can declare a variable: all but the initialisation and
the update of a loop. A label is looked through. -/
def Stmt.scopes : Stmt → List (List Stmt)
  | .forLoop _ _ _ body => [body]
  | .labeled _ body => body.scopes
  | s => s.childLists

mutual

/-- Declare those of the pending variables all of whose uses are in one list inside a statement, where
`total` counts their uses. -/
def placeInside (vars : List LocalVariable) (total : Nat → Nat) (pending : List Nat) : Stmt → Stmt
  | .block body => .block (placeList vars (enclosedIn total pending body) body)
  | .ifElse c a b =>
    .ifElse c (placeList vars (enclosedIn total pending a) a)
      (placeList vars (enclosedIn total pending b) b)
  | .whileLoop c body => .whileLoop c (placeList vars (enclosedIn total pending body) body)
  | .doWhile body c => .doWhile (placeList vars (enclosedIn total pending body) body) c
  | .forLoop init c update body =>
    .forLoop init c update (placeList vars (enclosedIn total pending body) body)
  | .forEach v e body => .forEach v e (placeList vars (enclosedIn total pending body) body)
  | .switch key cases => .switch key (placeCases vars total pending cases)
  | .tryCatch body catches finallyBody =>
    .tryCatch (placeList vars (enclosedIn total pending body) body)
      (placeCatches vars total pending catches) (placeFinally vars total pending finallyBody)
  | .synchronized o body => .synchronized o (placeList vars (enclosedIn total pending body) body)
  | .labeled label body => .labeled label (placeInside vars total pending body)
  | s => s

/-- Declare the pending variables that are used in a list. -/
def placeList (vars : List LocalVariable) (pending : List Nat) : List Stmt → List Stmt
  | [] => []
  | s :: rest =>
    let nodes := s.nodes
    let total (var : Nat) : Nat := Node.count (Node.uses var) nodes
    let used := pending.filter (total · ≠ 0)
    let laterNodes := if used.isEmpty then [] else Stmt.nodesOfList rest
    let alone := used.filter (fun var => Node.count (Node.uses var) laterNodes = 0)
    let nested := alone.filter fun var => s.scopes.any fun body => Stmt.usesIn var body = total var
    declareBefore vars (placeInside vars total nested s) (used.filter (!nested.contains ·))
      ++ placeList vars (pending.filter (!used.contains ·)) rest

/-- Declare pending variables inside the arms of a switch. -/
def placeCases (vars : List LocalVariable) (total : Nat → Nat) (pending : List Nat) :
    List SwitchCase → List SwitchCase
  | [] => []
  | ⟨labels, body, fallsThrough⟩ :: cases =>
    ⟨labels, placeList vars (enclosedIn total pending body) body, fallsThrough⟩
      :: placeCases vars total pending cases

/-- Declare pending variables inside catch clauses. -/
def placeCatches (vars : List LocalVariable) (total : Nat → Nat) (pending : List Nat) :
    List CatchClause → List CatchClause
  | [] => []
  | ⟨classes, var, body⟩ :: clauses =>
    ⟨classes, var, placeList vars (enclosedIn total pending body) body⟩
      :: placeCatches vars total pending clauses

/-- Declare pending variables inside a list that may be absent. -/
def placeFinally (vars : List LocalVariable) (total : Nat → Nat) (pending : List Nat) :
    Option (List Stmt) → Option (List Stmt)
  | none => none
  | some body => some (placeList vars (enclosedIn total pending body) body)

end

/-- The variables that catch clauses and loops through elements declare. -/
def Node.structuralVars : Node → List Nat
  | .stmt (.forEach var _ _) => var.var.toList
  | .stmt (.tryCatch _ catches _) => catches.filterMap fun c => c.var.bind (·.var)
  | _ => []

/-- Declare every variable that is used and has no declaration, and mark what is declared. -/
def BoundBody.declare (b : BoundBody) : BoundBody :=
  let nodes := Stmt.nodesOfList b.statements
  let structural := nodes.flatMap Node.structuralVars
  let pending := b.locals.zipIdx.filter fun (v, i) => !v.isDeclared && !structural.contains i
  let isDeclared (i : Nat) : Bool := structural.contains i || Node.count (Node.uses i) nodes ≠ 0
  { statements := placeList b.locals (pending.map (·.2)) b.statements
    locals := b.locals.zipIdx.map fun (v, i) => if isDeclared i then v.declared else v }

end JvmDecompiler
