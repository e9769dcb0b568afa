import JvmDecompiler.Layout
import JvmDecompiler.Proofs.TreeTransform

/-!
# The order of the lines of a layout

A layout has a line for each statement of a body, and a statement is told from the others by where its line
stands. The lines are collected list by list (`Stmt.layoutFrom`), the statements are met node by node
(`Stmt.nodesOfList`), and the two agree on the order (`LineLayout.lines_exact`): both follow the places of
statements in the tree, which come list by list as the statement lists inside a statement do
(`Stmt.placesFrom`).

A label in front of a statement and that statement share one place. In the order of nodes the statement
comes directly behind its label, and that is how it is told (`Stmt.outermost`).
-/

namespace JvmDecompiler

/-! ## Places -/

/-- The place of a statement in its list. -/
structure Stmt.Place where
  /-- The statements in front of it in the list. -/
  before : List Stmt
  stmt : Stmt

/-- The line of the nearest statement in front of a place that has a line. -/
def Stmt.lastLine (before : List Stmt) : SourceLine := before.reverse.findSome? Stmt.line

/-- The line of the statement, or else of the nearest one in front of it that has a line. -/
def Stmt.Place.line (p : Stmt.Place) : SourceLine := p.stmt.line <|> Stmt.lastLine p.before

namespace Stmt

/-- The places in a list behind the statements `before`, and in the lists inside its statements: a
statement comes before those inside it, and the lists inside it in the order of the source. -/
def placesFrom (before : List Stmt) : List Stmt → List Place
  | [] => []
  | s :: rest =>
    ⟨before, s⟩ :: ((s.childLists.attach.flatMap fun body => placesFrom [] body.1)
      ++ placesFrom (before ++ [s]) rest)
termination_by body => sizeOf body
decreasing_by
  · have := sizeOf_lt_of_mem_childLists body.2
    simp only [List.cons.sizeOf_spec]
    omega
  · simp only [List.cons.sizeOf_spec]
    omega

theorem placesFrom_nil (before : List Stmt) : placesFrom before [] = [] := by rw [placesFrom]

theorem placesFrom_cons (before : List Stmt) (s : Stmt) (rest : List Stmt) :
    placesFrom before (s :: rest) =
      ⟨before, s⟩ :: (s.childLists.flatMap (placesFrom []) ++ placesFrom (before ++ [s]) rest) := by
  rw [placesFrom, List.flatMap_def, List.attach_map_val, List.flatMap_def]

/-- The places in the body of a method. -/
def places (body : List Stmt) : List Place := placesFrom [] body

/-- The statement, and those that it is a label in front of. -/
def layers : Stmt → List Stmt
  | s@(labeled _ body) => s :: body.layers
  | s => [s]

/-- Whether the statement is a label in front of another one. -/
def isLabeled : Stmt → Bool
  | labeled .. => true
  | _ => false

/-- Statements in the order in which they are met, without those that the one met directly before is a
label in front of. `wrapped` says whether that is so for the first one. -/
def outermost (wrapped : Bool) : List Stmt → List Stmt
  | [] => []
  | s :: rest => if wrapped then outermost s.isLabeled rest else s :: outermost s.isLabeled rest

/-- Of a statement and those that it is a label in front of, the outermost is met first. -/
theorem outermost_layers_append (wrapped : Bool) (s : Stmt) (rest : List Stmt) :
    outermost wrapped (s.layers ++ rest) = (if wrapped then [] else [s]) ++ outermost false rest := by
  match s with
  | .labeled name body =>
    rw [layers, List.cons_append, outermost, isLabeled, outermost_layers_append true body rest]
    cases wrapped <;> rfl
  | .simple _ | .block _ | .declaration .. | .ifElse .. | .whileLoop .. | .doWhile .. | .forLoop ..
  | .forEach .. | .switch .. | .tryCatch .. | .synchronized .. | .label _ | .breakTo _ | .continueTo _
  | .gotoLabel _ | .comment _ => cases wrapped <;> rfl

/-- So the outermost statements are those that have places. -/
theorem outermost_flatMap_layers (places : List Place) :
    outermost false (places.flatMap (·.stmt.layers)) = places.map Place.stmt := by
  induction places with
  | nil => rfl
  | cons p rest ih =>
    rw [List.flatMap_cons, outermost_layers_append, ih]
    rfl

end Stmt

/-! ## Statements among nodes -/

open Node (statements)

/-- No statement stands in an expression. -/
@[simp] theorem Expr.statements_nodes (e : Expr) : statements e.nodes = [] :=
  Node.flatMap_eq_nil (fun _ h => by simp [h]) fun s => Expr.stmt_notMem_nodes s e

/-- Nor in one that may be absent. -/
@[simp] theorem Expr.statements_nodesOfOption (e : Option Expr) : statements (Expr.nodesOfOption e) = [] :=
  Node.flatMap_eq_nil (fun _ h => by simp [h]) fun s => Expr.stmt_notMem_nodesOfOption s e

/-- The statements in the arms of a switch are those in their bodies. -/
theorem SwitchCase.statements_nodesOfList (cases : List SwitchCase) :
    statements (nodesOfList cases) =
      cases.flatMap fun c => statements (Stmt.nodesOfList c.body) := by
  rw [nodesOfList_eq_flatMap, statements, List.flatMap_assoc]

/-- The statements in catch clauses are those in their bodies. -/
theorem CatchClause.statements_nodesOfList (clauses : List CatchClause) :
    statements (nodesOfList clauses) =
      clauses.flatMap fun c => statements (Stmt.nodesOfList c.body) := by
  rw [nodesOfList_eq_flatMap, statements, List.flatMap_assoc]
  refine List.flatMap_congr fun c _ => ?_
  cases c.var <;> simp [LocalRef.nodes]

namespace Stmt

/-- In the order of nodes, a statement comes with those that it is a label in front of, and then come the
statements of the lists inside it. -/
theorem statements_nodes (s : Stmt) : statements s.nodes =
    s.layers ++ s.childLists.flatMap fun body => statements (nodesOfList body) := by
  match s with
  | .labeled name s =>
    change labeled name s :: statements s.nodes = _
    rw [statements_nodes s, layers, childLists, List.cons_append]
  | .tryCatch body catches finallyBody =>
    cases finallyBody <;> simp [nodes, layers, childLists, CatchClause.statements_nodesOfList, nodesOfBody,
      List.flatMap_map]
  | .switch key cases =>
    simp [nodes, layers, childLists, SwitchCase.statements_nodesOfList, List.flatMap_map]
  | .simple _ | .block _ | .declaration .. | .ifElse .. | .whileLoop .. | .doWhile .. | .forLoop ..
  | .forEach .. | .synchronized .. | .label _ | .breakTo _ | .continueTo _ | .gotoLabel _
  | .comment _ => simp [nodes, layers, childLists, SimpleStmt.nodes, LocalRef.nodes]

/-- The statements that are met in a list are those of the places in it. -/
theorem statements_nodesOfList (before body : List Stmt) :
    statements (nodesOfList body) = (placesFrom before body).flatMap (·.stmt.layers) := by
  induction before, body using placesFrom.induct with
  | case1 before => simp [placesFrom_nil, nodesOfList]
  | case2 before s rest ihinside ihrest =>
    have hinside : s.childLists.flatMap (fun body => statements (nodesOfList body)) =
        s.childLists.flatMap fun body => (placesFrom [] body).flatMap (·.stmt.layers) :=
      List.flatMap_congr fun body hbody => ihinside ⟨body, hbody⟩
    calc statements (nodesOfList (s :: rest))
        = statements s.nodes ++ statements (nodesOfList rest) := List.flatMap_append
      _ = _ := by
        rw [statements_nodes, hinside, ihrest, placesFrom_cons, List.flatMap_cons, List.flatMap_append,
          List.flatMap_assoc, List.append_assoc]

/-! ## Lines -/

/-- The arms of a switch are laid out one by one. -/
theorem layoutCases_eq (cases : List SwitchCase) :
    layoutCases cases = cases.flatMap fun c => layoutFrom none c.body := by
  induction cases with
  | nil => rfl
  | cons c cases ih =>
    obtain ⟨labels, body, fallsThrough⟩ := c
    rw [layoutCases, ih, List.flatMap_cons]

/-- So are catch clauses. -/
theorem layoutCatches_eq (clauses : List CatchClause) :
    layoutCatches clauses = clauses.flatMap fun c => layoutFrom none c.body := by
  induction clauses with
  | nil => rfl
  | cons c clauses ih =>
    obtain ⟨classes, var, body⟩ := c
    rw [layoutCatches, ih, List.flatMap_cons]

/-- The lines of the statements inside a statement are those of the lists inside it, each of which starts
without a line. -/
theorem layoutInside_eq (s : Stmt) :
    layoutInside s = s.childLists.flatMap (layoutFrom none) := by
  match s with
  | .labeled name s => rw [layoutInside, layoutInside_eq s, childLists]
  | .tryCatch body catches finallyBody =>
    cases finallyBody <;> simp [layoutInside, childLists, layoutCatches_eq, layoutFinally, List.flatMap_map]
  | .switch key cases => simp [layoutInside, childLists, layoutCases_eq, List.flatMap_map]
  | .simple _ | .block _ | .declaration .. | .ifElse .. | .whileLoop .. | .doWhile .. | .forLoop ..
  | .forEach .. | .synchronized .. | .label _ | .breakTo _ | .continueTo _ | .gotoLabel _
  | .comment _ => simp [layoutInside, childLists]

/-- The line in front of a place is that of the statement before, or the one in front of that. -/
theorem lastLine_concat (before : List Stmt) (s : Stmt) :
    lastLine (before ++ [s]) = (s.line <|> lastLine before) := by
  rw [lastLine, List.reverse_concat, List.findSome?_cons]
  cases s.line <;> rfl

/-- The lines of a list are those of the places in it. -/
theorem layoutFrom_eq (before body : List Stmt) :
    layoutFrom (lastLine before) body = (placesFrom before body).map Place.line := by
  induction before, body using placesFrom.induct with
  | case1 before => rw [placesFrom_nil, layoutFrom, List.map_nil]
  | case2 before s rest ihinside ihrest =>
    have hinside : s.childLists.flatMap (layoutFrom none) =
        s.childLists.flatMap fun body => (placesFrom [] body).map Place.line :=
      List.flatMap_congr fun body hbody => ihinside ⟨body, hbody⟩
    rw [layoutFrom, ← lastLine_concat, ihrest, layoutInside_eq, hinside, placesFrom_cons, List.map_cons,
      List.map_append, List.map_flatMap, Place.line, lastLine_concat]

end Stmt

/-- A layout and a visit of all nodes agree: the line at each position belongs to the statement that is met
at this position, where a statement with labels in front of it is met once; and it is the line of that
statement or, if that has none, of the nearest statement in front of it in the same list that has one. -/
theorem LineLayout.lines_exact (body : List Stmt) :
    (ofBody body).lines = (Stmt.places body).map Stmt.Place.line ∧
      Stmt.outermost false (statements (Stmt.nodesOfList body)) = (Stmt.places body).map Stmt.Place.stmt := by
  constructor
  · exact Stmt.layoutFrom_eq [] body
  · rw [Stmt.statements_nodesOfList [] body]
    exact Stmt.outermost_flatMap_layers _

end JvmDecompiler
