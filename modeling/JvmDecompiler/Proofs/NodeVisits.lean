import JvmDecompiler.Proofs.TreeTransform
import Mathlib.Algebra.Order.Group.Multiset
import Mathlib.Tactic.Abel

/-!
# What a transform meets in a tree

`Stmt.nodes` lists the nodes of a tree, and a transform goes through the tree in an order of its own. It meets
the same nodes: one that changes nothing and records what it is given (`Transform.recording`) ends with every
node of the tree as often as the list has it (`Transform.meets_onStmt`).

So forgetting positions forgets all of them. The nodes of what comes out are those of the tree, each without
its own position (`Stmt.nodes_erased`), and no line, address or variable is left
(`Transform.isBare_of_mem_erasePositions`).
-/

namespace JvmDecompiler

namespace Node

/-- The node, where of the use of a variable it does not matter what is stored there. -/
def unstored : Node → Node
  | .localVar ref _ => .localVar ref none
  | n => n

/-- How often each node is among some nodes. -/
def bag (nodes : List Node) : Multiset Node := ↑(nodes.map unstored)

@[simp] theorem bag_nil : bag [] = 0 := rfl

/-- Nodes of two lists are counted together. -/
@[simp] theorem bag_append (a b : List Node) : bag (a ++ b) = bag a + bag b := by
  rw [bag, List.map_append, ← Multiset.coe_add, bag, bag]

@[simp] theorem bag_cons (n : Node) (nodes : List Node) : bag (n :: nodes) = {n.unstored} + bag nodes := rfl

end Node

open Node (bag)

/-- An assignment is counted with the nodes of its target and its value. -/
theorem Expr.bag_nodes_assign (line : SourceLine) (target value : Expr) :
    bag (Expr.assign line target value).nodes =
      {.expr (.assign line target value)} + (bag target.nodes + bag value.nodes) := by
  cases target with
  | localVar =>
    simp only [nodes, Node.bag_cons, Node.bag_nil, Node.unstored]
    abel
  | _ => simp only [nodes, Node.bag_cons, Node.bag_append, Node.bag_nil, Node.unstored]

/-- The variables of catch clauses and their bodies, taken apart. -/
theorem CatchClause.bag_nodesOfList (clauses : List CatchClause) : bag (CatchClause.nodesOfList clauses) =
    bag (clauses.flatMap fun c => c.var.toList.flatMap LocalRef.nodes) +
      bag (clauses.flatMap fun c => Stmt.nodesOfList c.body) := by
  rw [nodesOfList_eq_flatMap]
  induction clauses with
  | nil => rfl
  | cons c rest ih =>
    simp only [List.flatMap_cons, Node.bag_append, ih]
    abel

/-! ## Recording -/

namespace Transform

/-- Record that a node has been met. -/
def record (n : Node) : StateM (Multiset Node) Unit := modify ({n} + ·)

/-- Change nothing, and record every node. -/
def recording : Transform (StateM (Multiset Node)) where
  expr e := do record (.expr e); return e
  localVar ref := do record (.localVar ref none); return ref
  simple s := do record (.simple s); return s
  stmt s := do record (.stmt s); return s

/-- The computation gives `a` and records the nodes `met`. -/
def Meets {α : Type} (x : StateM (Multiset Node) α) (a : α) (met : Multiset Node) : Prop :=
  ∀ visited, x.run visited = (a, visited + met)

namespace Meets

variable {α β : Type} {x : StateM (Multiset Node) α} {f : α → StateM (Multiset Node) β} {a : α} {b : β}
  {m n : Multiset Node}

/-- A value that is given meets no node. -/
theorem pure (a : α) : Meets (pure a) a 0 := fun visited => congrArg (Prod.mk a) (add_zero visited).symm

/-- Two computations in a row meet what each of them does. -/
theorem bind (hx : Meets x a m) (hf : Meets (f a) b n) : Meets (x >>= f) b (m + n) := by
  intro visited
  rw [StateT.run_bind, hx, ← add_assoc]
  exact hf _

/-- The nodes that are met can be counted in another order. -/
theorem of_eq (hx : Meets x a m) (h : m = n) : Meets x a n := h ▸ hx

end Meets

/-- At an expression the expression is recorded. -/
theorem meets_expr (e : Expr) : Meets (recording.expr e) e {.expr e} :=
  fun _ => congrArg (Prod.mk e) (add_comm _ _)

/-- At the use of a variable this use is recorded. -/
theorem meets_localVar (ref : LocalRef) : Meets (recording.localVar ref) ref (bag ref.nodes) :=
  fun _ => congrArg (Prod.mk ref) (add_comm _ _)

/-- At a simple statement the statement is recorded. -/
theorem meets_simple (s : SimpleStmt) : Meets (recording.simple s) s {.simple s} :=
  fun _ => congrArg (Prod.mk s) (add_comm _ _)

/-- At a statement the statement is recorded. -/
theorem meets_stmt (s : Stmt) : Meets (recording.stmt s) s {.stmt s} :=
  fun _ => congrArg (Prod.mk s) (add_comm _ _)

mutual

/-- A transform meets the nodes of an expression. -/
theorem meets_onExpr (e : Expr) : Meets (recording.onExpr e) e (bag e.nodes) := by
  -- an expression is recorded behind its parts, and listed in front of them: equal only as multisets
  cases e with
  | literal | this | caught | uninitNew | unresolved => exact meets_expr _
  | localVar _ ref => exact .of_eq (.bind (meets_localVar ref) (meets_expr _)) (add_comm _ _)
  | not _ a | neg _ a | cast _ _ a | instanceOf _ a _ | arrayLength _ a | increment _ a _ _ =>
    exact .of_eq (.bind (meets_onExpr a) (meets_expr _)) (add_comm _ _)
  | binary _ _ a b | compare _ _ a b | arrayLoad _ a b | threeWay _ _ a b =>
    refine .of_eq (.bind (meets_onExpr a) (.bind (meets_onExpr b) (meets_expr _))) ?_
    simp only [Expr.nodes, Node.bag_cons, Node.bag_append, Node.unstored]
    abel
  | assign _ a b =>
    refine .of_eq (.bind (meets_onExpr a) (.bind (meets_onExpr b) (meets_expr _))) ?_
    rw [Expr.bag_nodes_assign]
    abel
  | ternary _ a b c =>
    refine .of_eq (.bind (meets_onExpr a) (.bind (meets_onExpr b) (.bind (meets_onExpr c) (meets_expr _)))) ?_
    simp only [Expr.nodes, Node.bag_cons, Node.bag_append, Node.unstored]
    abel
  | field _ o _ _ _ => exact .of_eq (.bind (meets_onOption o) (meets_expr _)) (add_comm _ _)
  | invoke _ _ o _ _ _ args =>
    refine .of_eq (.bind (meets_onOption o) (.bind (meets_onExprs args) (meets_expr _))) ?_
    simp only [Expr.nodes, Node.bag_cons, Node.bag_append, Node.unstored]
    abel
  | invokeDynamic _ _ _ args | new _ _ _ args | newArray _ _ args | concat _ args =>
    exact .of_eq (.bind (meets_onExprs args) (meets_expr _)) (add_comm _ _)

/-- Recording meets the nodes of an expression that may be absent. -/
theorem meets_onOption (e : Option Expr) : Meets (recording.onOption e) e (bag (Expr.nodesOfOption e)) := by
  cases e with
  | none => exact .pure none
  | some e => exact .of_eq (.bind (meets_onExpr e) (.pure (some e))) (add_zero _)

/-- It meets those of several expressions. -/
theorem meets_onExprs (es : List Expr) : Meets (recording.onExprs es) es (bag (Expr.nodesOfList es)) := by
  cases es with
  | nil => exact .pure []
  | cons e es =>
    refine .of_eq (.bind (meets_onExpr e) (.bind (meets_onExprs es) (.pure (e :: es)))) ?_
    rw [Expr.nodesOfList, Node.bag_append, add_zero]

end

/-- It meets those of a simple statement. -/
theorem meets_onSimple (s : SimpleStmt) : Meets (recording.onSimple s) s (bag s.nodes) := by
  cases s with
  | «return» _ e => exact .of_eq (.bind (meets_onOption e) (meets_simple _)) (add_comm _ _)
  | expr _ e | throw _ e | monitorEnter _ e | monitorExit _ e =>
    exact .of_eq (.bind (meets_onExpr e) (meets_simple _)) (add_comm _ _)

/-- The variable of a catch clause, as nodes. -/
theorem meets_onCatchVar (var : Option LocalRef) :
    Meets (recording.onCatchVar var) var (bag (var.toList.flatMap LocalRef.nodes)) := by
  cases var with
  | none => exact .pure none
  | some ref => exact .of_eq (.bind (meets_localVar ref) (.pure (some ref))) rfl

/-- The variables of catch clauses are met in front of their bodies. -/
theorem meets_onCatchVars (clauses : List CatchClause) :
    Meets (recording.onCatchVars clauses) (clauses.map CatchClause.var)
      (bag (clauses.flatMap fun c => c.var.toList.flatMap LocalRef.nodes)) := by
  induction clauses with
  | nil => exact .pure []
  | cons c clauses ih =>
    refine .of_eq (.bind (meets_onCatchVar c.var) (.bind ih (.pure _))) ?_
    rw [List.flatMap_cons, Node.bag_append, add_zero]

mutual

/-- A transform meets the nodes of a statement. -/
theorem meets_onStmt (s : Stmt) : Meets (recording.onStmt s) s (bag s.nodes) := by
  cases s with
  | label | breakTo | continueTo | gotoLabel | comment => exact meets_stmt _
  | simple s => exact .of_eq (.bind (meets_onSimple s) (meets_stmt _)) (add_comm _ _)
  | labeled _ s => exact .of_eq (.bind (meets_onStmt s) (meets_stmt _)) (add_comm _ _)
  -- the parts are met before the statement, and conditions before lists: the two sides are sums of the same parts
  | block body =>
    refine .of_eq (.bind (meets_onStmts body) (.bind (.pure body) (meets_stmt _))) ?_
    simp only [Stmt.nodes, Node.bag_cons, Node.unstored]
    abel
  | declaration ref init =>
    refine .of_eq (.bind (meets_localVar ref) (.bind (meets_onOption init) (meets_stmt _))) ?_
    simp only [Stmt.nodes, Node.bag_cons, Node.bag_append, Node.unstored]
    abel
  | ifElse c a b =>
    refine .of_eq (.bind (meets_onExpr c) (.bind (meets_onStmts a) (.bind (.pure a)
      (.bind (meets_onStmts b) (.bind (.pure b) (meets_stmt _)))))) ?_
    simp only [Stmt.nodes, Node.bag_cons, Node.bag_append, Node.unstored]
    abel
  | whileLoop c body | synchronized c body | doWhile body c =>
    refine .of_eq (.bind (meets_onExpr c) (.bind (meets_onStmts body) (.bind (.pure body) (meets_stmt _)))) ?_
    simp only [Stmt.nodes, Node.bag_cons, Node.bag_append, Node.unstored]
    abel
  | forLoop init c update body =>
    refine .of_eq (.bind (meets_onExpr c) (.bind (meets_onStmts init) (.bind (.pure init)
      (.bind (meets_onStmts update) (.bind (.pure update) (.bind (meets_onStmts body) (.bind (.pure body)
      (meets_stmt _)))))))) ?_
    simp only [Stmt.nodes, Node.bag_cons, Node.bag_append, Node.unstored]
    abel
  | forEach ref e body =>
    refine .of_eq (.bind (meets_localVar ref) (.bind (meets_onExpr e) (.bind (meets_onStmts body)
      (.bind (.pure body) (meets_stmt _))))) ?_
    simp only [Stmt.nodes, Node.bag_cons, Node.bag_append, Node.unstored]
    abel
  | switch key cases =>
    refine .of_eq (.bind (meets_onExpr key) (.bind (meets_onCases cases) (meets_stmt _))) ?_
    simp only [Stmt.nodes, Node.bag_cons, Node.bag_append, Node.unstored]
    abel
  | tryCatch body catches finallyBody =>
    refine .of_eq (.bind (meets_onCatchVars catches) (.bind (meets_onStmts body) (.bind (.pure body)
      (.bind (meets_onCatches catches) (.bind (meets_onFinally finallyBody) (meets_stmt _)))))) ?_
    simp only [Stmt.nodes, Node.bag_cons, Node.bag_append, Node.unstored, CatchClause.bag_nodesOfList]
    abel

/-- It meets those of the statements of a list. -/
theorem meets_onStmts (body : List Stmt) : Meets (recording.onStmts body) body (bag (Stmt.nodesOfList body)) := by
  cases body with
  | nil => exact .pure []
  | cons s rest =>
    refine .of_eq (.bind (meets_onStmt s) (.bind (meets_onStmts rest) (.pure (s :: rest)))) ?_
    rw [Stmt.nodesOfList, Node.bag_append, add_zero]

/-- It meets those of the arms of a switch. -/
theorem meets_onCases (arms : List SwitchCase) :
    Meets (recording.onCases arms) arms (bag (SwitchCase.nodesOfList arms)) := by
  match arms with
  | [] => exact .pure []
  | ⟨labels, body, fallsThrough⟩ :: rest =>
    refine .of_eq (.bind (meets_onStmts body) (.bind (.pure body) (.bind (meets_onCases rest)
      (.pure (⟨labels, body, fallsThrough⟩ :: rest))))) ?_
    rw [SwitchCase.nodesOfList, Node.bag_append, zero_add, add_zero]

/-- It meets those in the bodies of catch clauses; their variables are met apart. -/
theorem meets_onCatches (clauses : List CatchClause) :
    Meets (recording.onCatches (clauses.map CatchClause.var) clauses) clauses
      (bag (clauses.flatMap fun c => Stmt.nodesOfList c.body)) := by
  cases clauses with
  | nil => exact .pure []
  | cons c rest =>
    obtain ⟨classes, var, body⟩ := c
    refine .of_eq (.bind (meets_onStmts body) (.bind (.pure body) (.bind (meets_onCatches rest)
      (.pure (⟨classes, var, body⟩ :: rest))))) ?_
    rw [List.flatMap_cons, Node.bag_append, zero_add, add_zero]

/-- It meets those of a `finally` part. -/
theorem meets_onFinally (body : Option (List Stmt)) :
    Meets (recording.onFinally body) body (bag (Stmt.nodesOfBody body)) := by
  match body with
  | none => exact .pure none
  | some body =>
    refine .of_eq (.bind (meets_onStmts body) (.bind (.pure body) (.pure (some body)))) ?_
    rw [Stmt.nodesOfBody, zero_add, add_zero]

end

end Transform

/-! ## Forgetting positions -/

open Transform (erasePositions)

/-- The use of a variable without its address, and bound to nothing. -/
def LocalRef.erased (ref : LocalRef) : LocalRef := { ref with pc := 0, var := none }

/-- The node without positions in it. -/
def Node.erased : Node → Node
  | .stmt s => .stmt (Id.run (erasePositions.onStmt s))
  | .simple s => .simple (Id.run (erasePositions.onSimple s))
  | .expr e => .expr (Id.run (erasePositions.onExpr e))
  | .localVar ref stored => .localVar ref.erased (Id.run (erasePositions.onOption stored))

mutual

/-- Forgetting positions keeps the nodes of an expression in their order, each without its positions. -/
theorem Expr.nodes_erased (e : Expr) : (Id.run (erasePositions.onExpr e)).nodes = e.nodes.map Node.erased := by
  cases e with
  | literal | this | caught | uninitNew | unresolved | localVar => rfl
  | not _ a | neg _ a | cast _ _ a | instanceOf _ a _ | arrayLength _ a | increment _ a _ _ =>
    exact congrArg (List.cons _) (Expr.nodes_erased a)
  | binary _ _ a b | compare _ _ a b | arrayLoad _ a b | threeWay _ _ a b =>
    refine congrArg (List.cons _) ?_
    rw [List.map_append, ← Expr.nodes_erased a, ← Expr.nodes_erased b]
    rfl
  -- erasing changes what a store to a local says about the local, which is the second node
  | assign _ a b =>
    have hb := Expr.nodes_erased b
    have ha := Expr.nodes_erased a
    -- the place is a local, which has no nodes below it
    cases a with
    | localVar =>
      exact congrArg (fun nodes => _ :: _ :: _ :: nodes) hb
    | _ =>
      refine congrArg (List.cons _) ?_
      rw [List.map_append, ← ha, ← hb]
      rfl
  | ternary _ a b c =>
    refine congrArg (List.cons _) ?_
    rw [List.map_append, List.map_append, ← Expr.nodes_erased a, ← Expr.nodes_erased b, ← Expr.nodes_erased c]
    rfl
  | field _ o _ _ _ => exact congrArg (List.cons _) (Expr.nodesOfOption_erased o)
  | invoke _ _ o _ _ _ args =>
    refine congrArg (List.cons _) ?_
    rw [List.map_append, ← Expr.nodesOfOption_erased o, ← Expr.nodesOfList_erased args]
    rfl
  | invokeDynamic _ _ _ args | new _ _ _ args | newArray _ _ args | concat _ args =>
    exact congrArg (List.cons _) (Expr.nodesOfList_erased args)

/-- An erased expression that may be absent has erased nodes. -/
theorem Expr.nodesOfOption_erased (e : Option Expr) :
    Expr.nodesOfOption (Id.run (erasePositions.onOption e)) = (Expr.nodesOfOption e).map Node.erased := by
  cases e with
  | none => rfl
  | some e => exact Expr.nodes_erased e

/-- So have several erased expressions. -/
theorem Expr.nodesOfList_erased (es : List Expr) :
    Expr.nodesOfList (Id.run (erasePositions.onExprs es)) = (Expr.nodesOfList es).map Node.erased := by
  cases es with
  | nil => rfl
  | cons e es =>
    rw [Expr.nodesOfList, List.map_append, ← Expr.nodes_erased e, ← Expr.nodesOfList_erased es]
    rfl

end

/-- So has an erased simple statement. -/
theorem SimpleStmt.nodes_erased (s : SimpleStmt) :
    (Id.run (erasePositions.onSimple s)).nodes = s.nodes.map Node.erased := by
  cases s with
  | «return» _ e => exact congrArg (List.cons _) (Expr.nodesOfOption_erased e)
  | expr _ e | throw _ e | monitorEnter _ e | monitorExit _ e =>
    exact congrArg (List.cons _) (Expr.nodes_erased e)

mutual

/-- Forgetting positions keeps the nodes of a statement in their order, each without its positions. -/
theorem Stmt.nodes_erased (s : Stmt) : (Id.run (erasePositions.onStmt s)).nodes = s.nodes.map Node.erased := by
  cases s with
  | label | breakTo | continueTo | gotoLabel | comment => rfl
  | simple s => exact congrArg (List.cons _) (SimpleStmt.nodes_erased s)
  | labeled _ s => exact congrArg (List.cons _) (Stmt.nodes_erased s)
  | block body => exact congrArg (List.cons _) (Stmt.nodesOfList_erased body)
  | declaration ref init => exact congrArg (fun nodes => _ :: _ :: nodes) (Expr.nodesOfOption_erased init)
  | ifElse c a b =>
    refine congrArg (List.cons _) ?_
    rw [List.map_append, List.map_append, ← Expr.nodes_erased c, ← Stmt.nodesOfList_erased a,
      ← Stmt.nodesOfList_erased b]
    rfl
  | whileLoop c body | synchronized c body | doWhile body c =>
    refine congrArg (List.cons _) ?_
    rw [List.map_append, ← Expr.nodes_erased c, ← Stmt.nodesOfList_erased body]
    rfl
  | forLoop init c update body =>
    refine congrArg (List.cons _) ?_
    rw [List.map_append, List.map_append, List.map_append, ← Expr.nodes_erased c, ← Stmt.nodesOfList_erased init,
      ← Stmt.nodesOfList_erased update, ← Stmt.nodesOfList_erased body]
    rfl
  | forEach ref e body =>
    refine congrArg (fun nodes => _ :: _ :: nodes) ?_
    change _ = (e.nodes ++ Stmt.nodesOfList body).map Node.erased
    rw [List.map_append, ← Expr.nodes_erased e, ← Stmt.nodesOfList_erased body]
    rfl
  | switch key cases =>
    refine congrArg (List.cons _) ?_
    rw [List.map_append, ← Expr.nodes_erased key, ← SwitchCase.nodesOfList_erased cases]
    rfl
  | tryCatch body catches finallyBody =>
    refine congrArg (List.cons _) ?_
    rw [List.map_append, List.map_append, ← Stmt.nodesOfList_erased body,
      ← CatchClause.nodesOfList_erased catches, ← Stmt.nodesOfBody_erased finallyBody]
    rfl

/-- So have the erased statements of a list. -/
theorem Stmt.nodesOfList_erased (body : List Stmt) :
    Stmt.nodesOfList (Id.run (erasePositions.onStmts body)) = (Stmt.nodesOfList body).map Node.erased := by
  cases body with
  | nil => rfl
  | cons s rest =>
    rw [Stmt.nodesOfList, List.map_append, ← Stmt.nodes_erased s, ← Stmt.nodesOfList_erased rest]
    rfl

/-- So has an erased `finally` part. -/
theorem Stmt.nodesOfBody_erased (body : Option (List Stmt)) :
    Stmt.nodesOfBody (Id.run (erasePositions.onFinally body)) = (Stmt.nodesOfBody body).map Node.erased := by
  match body with
  | none => rfl
  | some body => exact Stmt.nodesOfList_erased body

/-- So have the erased arms of a switch. -/
theorem SwitchCase.nodesOfList_erased (arms : List SwitchCase) :
    SwitchCase.nodesOfList (Id.run (erasePositions.onCases arms)) =
      (SwitchCase.nodesOfList arms).map Node.erased := by
  match arms with
  | [] => rfl
  | ⟨_, body, _⟩ :: rest =>
    rw [SwitchCase.nodesOfList, List.map_append, ← Stmt.nodesOfList_erased body,
      ← SwitchCase.nodesOfList_erased rest]
    rfl

/-- So have erased catch clauses. -/
theorem CatchClause.nodesOfList_erased (clauses : List CatchClause) :
    CatchClause.nodesOfList
        (Id.run (erasePositions.onCatches (Id.run (erasePositions.onCatchVars clauses)) clauses)) =
      (CatchClause.nodesOfList clauses).map Node.erased := by
  match clauses with
  | [] => rfl
  | ⟨_, none, body⟩ :: rest =>
    rw [CatchClause.nodesOfList, List.map_append, ← Stmt.nodesOfList_erased body,
      ← CatchClause.nodesOfList_erased rest]
    rfl
  | ⟨_, some ref, body⟩ :: rest =>
    refine congrArg (List.cons _) ?_
    change _ = (Stmt.nodesOfList body ++ CatchClause.nodesOfList rest).map Node.erased
    rw [List.map_append, ← Stmt.nodesOfList_erased body, ← CatchClause.nodesOfList_erased rest]
    rfl

end

namespace Node

/-- Whether nothing is left of where a node is from: no line, no address and no variable. -/
def IsBare : Node → Prop
  | .stmt _ => True
  | .simple s => s.line = none
  | .expr e => e.line = none
  | .localVar ref _ => ref.pc = 0 ∧ ref.var = none

/-- Nothing is left of where an erased node is from. -/
theorem isBare_erased (n : Node) : n.erased.IsBare := by
  cases n with
  | stmt => trivial
  | simple s => cases s <;> rfl
  | expr e => cases e <;> rfl
  | localVar => exact ⟨rfl, rfl⟩

end Node

/-- Of a tree without positions, no node has a line, an address or a variable. -/
theorem Transform.isBare_of_mem_erasePositions {body : List Stmt} {n : Node}
    (hn : n ∈ Stmt.nodesOfList (Id.run (erasePositions.onBody body))) : n.IsBare := by
  have hnodes := Stmt.nodesOfList_erased body
  obtain ⟨n, -, rfl⟩ := List.mem_map.1 (hnodes ▸ hn)
  exact n.isBare_erased

end JvmDecompiler
