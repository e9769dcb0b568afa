import JvmDecompiler.Tree.Stmt

/-!
# The nodes of a tree

`Expr.nodes` and `Stmt.nodes` list the nodes of a tree: a node before the nodes below it, operands in
the order of their evaluation, and statements in the order of the source. Everything that a pass has
to find in a tree it finds in this list.
-/

namespace JvmDecompiler

/-- A node of a tree. -/
inductive Node where
  | stmt (s : Stmt)
  | simple (s : SimpleStmt)
  | expr (e : Expr)
  /-- A use of a local variable; `stored` is the value if the use is the target of an assignment. -/
  | localVar (ref : LocalRef) (stored : Option Expr)

/-- The variable that a node uses. -/
def Node.local? : Node → Option LocalRef
  | .localVar ref _ => some ref
  | _ => none

/-- The statement that a node is. -/
def Node.stmt? : Node → Option Stmt
  | .stmt s => some s
  | _ => none

mutual

/-- The nodes of an expression. -/
def Expr.nodes : Expr → List Node
  | e@(.literal ..) | e@(.this _) | e@(.caught ..) | e@(.uninitNew ..) | e@(.unresolved ..) => [.expr e]
  | e@(.localVar _ ref) => [.expr e, .localVar ref none]
  | e@(.assign _ (.localVar l ref) value) =>
    .expr e :: .expr (.localVar l ref) :: .localVar ref (some value) :: value.nodes
  | e@(.binary _ _ a b) | e@(.compare _ _ a b) | e@(.threeWay _ _ a b) | e@(.arrayLoad _ a b)
  | e@(.assign _ a b) => .expr e :: (a.nodes ++ b.nodes)
  | e@(.not _ a) | e@(.neg _ a) | e@(.arrayLength _ a) | e@(.cast _ _ a) | e@(.instanceOf _ a _)
  | e@(.increment _ a _ _) => .expr e :: a.nodes
  | e@(.field _ object _ _ _) => .expr e :: Expr.nodesOfOption object
  | e@(.invoke _ _ object _ _ _ args) => .expr e :: (Expr.nodesOfOption object ++ Expr.nodesOfList args)
  | e@(.invokeDynamic _ _ _ args) | e@(.new _ _ _ args) | e@(.newArray _ _ args)
  | e@(.concat _ args) => .expr e :: Expr.nodesOfList args
  | e@(.ternary _ a b c) => .expr e :: (a.nodes ++ (b.nodes ++ c.nodes))

/-- The nodes of an expression that may be absent. -/
def Expr.nodesOfOption : Option Expr → List Node
  | none => []
  | some e => e.nodes

/-- The nodes of several expressions. -/
def Expr.nodesOfList : List Expr → List Node
  | [] => []
  | e :: es => e.nodes ++ Expr.nodesOfList es

end

/-- The nodes of a simple statement. -/
def SimpleStmt.nodes (s : SimpleStmt) : List Node := .simple s :: Expr.nodesOfOption s.expr?

/-- The node of a declared variable. -/
def LocalRef.nodes (ref : LocalRef) : List Node := [.localVar ref none]

mutual

/-- The nodes of a statement. -/
def Stmt.nodes : Stmt → List Node
  | s@(.simple t) => .stmt s :: t.nodes
  | s@(.block body) => .stmt s :: Stmt.nodesOfList body
  | s@(.declaration var init) => .stmt s :: (var.nodes ++ Expr.nodesOfOption init)
  | s@(.ifElse condition a b) =>
    .stmt s :: (condition.nodes ++ (Stmt.nodesOfList a ++ Stmt.nodesOfList b))
  | s@(.whileLoop condition body) => .stmt s :: (condition.nodes ++ Stmt.nodesOfList body)
  | s@(.doWhile body condition) => .stmt s :: (Stmt.nodesOfList body ++ condition.nodes)
  | s@(.forLoop init condition update body) =>
    .stmt s :: (Stmt.nodesOfList init ++ (condition.nodes ++
      (Stmt.nodesOfList update ++ Stmt.nodesOfList body)))
  | s@(.forEach var iterable body) =>
    .stmt s :: (var.nodes ++ (iterable.nodes ++ Stmt.nodesOfList body))
  | s@(.switch key cases) => .stmt s :: (key.nodes ++ SwitchCase.nodesOfList cases)
  | s@(.tryCatch body catches finallyBody) =>
    .stmt s :: (Stmt.nodesOfList body ++ (CatchClause.nodesOfList catches ++
      Stmt.nodesOfBody finallyBody))
  | s@(.synchronized object body) => .stmt s :: (object.nodes ++ Stmt.nodesOfList body)
  | s@(.labeled _ body) => .stmt s :: body.nodes
  | s@(.label _) | s@(.breakTo _) | s@(.continueTo _) | s@(.gotoLabel _) | s@(.comment _) => [.stmt s]

/-- The nodes of a statement list. -/
def Stmt.nodesOfList : List Stmt → List Node
  | [] => []
  | s :: body => s.nodes ++ Stmt.nodesOfList body

/-- The nodes of a statement list that may be absent. -/
def Stmt.nodesOfBody : Option (List Stmt) → List Node
  | none => []
  | some body => Stmt.nodesOfList body

/-- The nodes of the arms of a switch. -/
def SwitchCase.nodesOfList : List SwitchCase → List Node
  | [] => []
  | ⟨_, body, _⟩ :: cases => Stmt.nodesOfList body ++ SwitchCase.nodesOfList cases

/-- The nodes of catch clauses. -/
def CatchClause.nodesOfList : List CatchClause → List Node
  | [] => []
  | ⟨_, none, body⟩ :: clauses => Stmt.nodesOfList body ++ CatchClause.nodesOfList clauses
  | ⟨_, some var, body⟩ :: clauses =>
    var.nodes ++ (Stmt.nodesOfList body ++ CatchClause.nodesOfList clauses)

end

namespace Node

@[simp] theorem local?_localVar (ref : LocalRef) (stored : Option Expr) :
    (localVar ref stored).local? = some ref := rfl

@[simp] theorem local?_stmt (s : Stmt) : (stmt s).local? = none := rfl

@[simp] theorem local?_simple (s : SimpleStmt) : (simple s).local? = none := rfl

@[simp] theorem local?_expr (e : Expr) : (expr e).local? = none := rfl

@[simp] theorem stmt?_stmt (s : Stmt) : (stmt s).stmt? = some s := rfl

@[simp] theorem stmt?_simple (s : SimpleStmt) : (simple s).stmt? = none := rfl

@[simp] theorem stmt?_expr (e : Expr) : (expr e).stmt? = none := rfl

@[simp] theorem stmt?_localVar (ref : LocalRef) (stored : Option Expr) :
    (localVar ref stored).stmt? = none := rfl

/-- The variables used in a list of nodes. -/
abbrev locals (nodes : List Node) : List LocalRef := nodes.flatMap (·.local?.toList)

/-- The statements among some nodes. -/
abbrev statements (nodes : List Node) : List Stmt := nodes.flatMap (·.stmt?.toList)

/-- How many nodes of a list have a property. Whatever is counted in a tree is counted in this way, so that
the lemmas below are the only ones about counting. -/
def count (p : Node → Bool) (nodes : List Node) : Nat := nodes.countP p

section Count

variable {p : Node → Bool}

@[simp] theorem count_nil : count p [] = 0 := rfl

@[simp] theorem count_cons (node : Node) (nodes : List Node) :
    count p (node :: nodes) = count p nodes + if p node then 1 else 0 := List.countP_cons

@[simp] theorem count_append (a b : List Node) : count p (a ++ b) = count p a + count p b :=
  List.countP_append

/-- Nothing is counted where no node has the property. -/
theorem count_eq_zero {nodes : List Node} (h : ∀ node ∈ nodes, p node = false) : count p nodes = 0 :=
  List.countP_eq_zero.2 fun node hnode => by simp [h node hnode]

end Count

/-- Whether a node is a use of a variable. -/
@[simp] def uses (var : Nat) (node : Node) : Bool := node.local?.any (·.var = some var)

/-- Whether a node is a statement with a property. -/
@[simp] def isStmt (q : Stmt → Bool) (node : Node) : Bool := node.stmt?.any q

end Node

end JvmDecompiler
