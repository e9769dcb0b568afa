import JvmDecompiler.Tree.Nodes
import JvmDecompiler.Tree.Transform
import Mathlib.Data.List.Forall2

/-!
# The variables that a transformed tree uses

`Transform.onBody` rewrites a tree in a monad, from the leaves to the root. What is said of the result
of a computation depends on the monad: of a plain one that the result has a property, of one with a state
that it has the property whenever it starts in a state with an invariant, and that the invariant lasts.
A `ResultLogic` is such a way of saying something about results, and the one induction over trees,
`Transform.Relates.onBody`, is made for all of them: if every part of a transform makes uses of
variables that are related to those it was given, then so does the whole transform. Where only a property of
what comes out is wanted, that is `Transform.Respects.onBody`.
-/

namespace JvmDecompiler

/-! ## Uses of variables -/

namespace Node

variable {P : LocalRef → Prop}

/-- Every use of a variable in some nodes has a property. -/
def AllLocals (P : LocalRef → Prop) (nodes : List Node) : Prop := ∀ ref ∈ locals nodes, P ref

@[simp] theorem allLocals_nil : AllLocals P [] := nofun

@[simp] theorem allLocals_cons {node : Node} {nodes : List Node} :
    AllLocals P (node :: nodes) ↔ (∀ ref ∈ node.local?, P ref) ∧ AllLocals P nodes := by
  simp [AllLocals, or_imp, forall_and]

/-- A property holds of the uses in two lists if it holds of those in each. -/
@[simp] theorem allLocals_append {a b : List Node} :
    AllLocals P (a ++ b) ↔ AllLocals P a ∧ AllLocals P b := by
  simp [AllLocals, or_imp, forall_and]

end Node

open Node (AllLocals locals)

variable {P Q : LocalRef → Prop}

/-- A use of a variable is the only one in its node. -/
@[simp] theorem LocalRef.allLocals_nodes {ref : LocalRef} : AllLocals P ref.nodes ↔ P ref := by
  simp [nodes]

/-- The same, as a list. -/
@[simp] theorem LocalRef.locals_nodes (ref : LocalRef) : locals ref.nodes = [ref] := rfl

/-- In an assignment the uses in the target stand in front of those in the value. -/
@[simp] theorem Expr.locals_nodes_assign (line : SourceLine) (target value : Expr) :
    locals (Expr.assign line target value).nodes = locals target.nodes ++ locals value.nodes := by
  cases target <;> simp [nodes]

/-- A clause has its variable in front of the uses in its body. -/
theorem CatchClause.locals_nodesOfList_cons (classes : List String) (var : Option LocalRef) (body : List Stmt)
    (clauses : List CatchClause) : locals (CatchClause.nodesOfList (⟨classes, var, body⟩ :: clauses)) =
      var.toList ++ (locals (Stmt.nodesOfList body) ++ locals (CatchClause.nodesOfList clauses)) := by
  cases var <;> simp [nodesOfList]

/-- What holds of the uses in some clauses holds of the variable and the body of each. -/
theorem CatchClause.allLocals_nodesOfList_cons {classes : List String} {var : Option LocalRef}
    {body : List Stmt} {clauses : List CatchClause} :
    AllLocals P (CatchClause.nodesOfList (⟨classes, var, body⟩ :: clauses)) ↔
      (∀ ref ∈ var, P ref) ∧ AllLocals P (Stmt.nodesOfList body) ∧
        AllLocals P (CatchClause.nodesOfList clauses) := by
  cases var <;> simp [nodesOfList]

/-- The target of an assignment is a use like any other. -/
@[simp] theorem Expr.allLocals_nodes_assign {line : SourceLine} {target value : Expr} :
    AllLocals P (Expr.assign line target value).nodes ↔
      AllLocals P target.nodes ∧ AllLocals P value.nodes := by
  cases target <;> simp [nodes, and_assoc]

/-- Where an expression is from has no influence on the uses in it. -/
@[simp] theorem Expr.allLocals_withLine {e : Expr} {line : SourceLine} :
    AllLocals P (e.withLine line).nodes ↔ AllLocals P e.nodes := by
  cases e <;> simp [withLine, nodes]

/-- The line of an expression does not concern the uses in it. -/
@[simp] theorem Expr.allLocals_orLine {e : Expr} {line : SourceLine} :
    AllLocals P (e.orLine line).nodes ↔ AllLocals P e.nodes := by
  rw [orLine]
  split <;> simp

/-- What holds of the uses in some expressions holds of those in each. -/
theorem Expr.allLocals_nodesOfList {es : List Expr} :
    AllLocals P (Expr.nodesOfList es) ↔ ∀ e ∈ es, AllLocals P e.nodes := by
  induction es with
  | nil => simp [nodesOfList]
  | cons e es ih => simp [nodesOfList, ih]

/-- What holds of the uses in a list holds of those in each statement. -/
theorem Stmt.allLocals_nodesOfList {body : List Stmt} :
    AllLocals P (Stmt.nodesOfList body) ↔ ∀ s ∈ body, AllLocals P s.nodes := by
  induction body with
  | nil => simp [nodesOfList]
  | cons s body ih => simp [nodesOfList, ih]

/-- What holds of the uses in two lists together holds of those in each. -/
@[simp] theorem Stmt.allLocals_append {a b : List Stmt} :
    AllLocals P (Stmt.nodesOfList (a ++ b)) ↔
      AllLocals P (Stmt.nodesOfList a) ∧ AllLocals P (Stmt.nodesOfList b) := by
  simp only [Stmt.allLocals_nodesOfList, List.mem_append, or_imp, forall_and]

/-! ## Nodes of lists -/

/-- The nodes of the arms of a switch are those of their bodies. -/
theorem SwitchCase.nodesOfList_eq_flatMap (arms : List SwitchCase) :
    nodesOfList arms = arms.flatMap fun c => Stmt.nodesOfList c.body := by
  induction arms with
  | nil => rfl
  | cons c rest ih =>
    obtain ⟨labels, body, fallsThrough⟩ := c
    rw [nodesOfList, ih, List.flatMap_cons]

/-- The nodes of some clauses are their variables and those of their bodies. -/
theorem CatchClause.nodesOfList_eq_flatMap (clauses : List CatchClause) :
    nodesOfList clauses =
      clauses.flatMap fun c => c.var.toList.flatMap LocalRef.nodes ++ Stmt.nodesOfList c.body := by
  induction clauses with
  | nil => rfl
  | cons c rest ih =>
    obtain ⟨classes, var, body⟩ := c
    cases var <;> simp [nodesOfList, ih]

/-! ## Nodes of expressions -/

mutual

/-- There are no statements in expressions. -/
theorem Expr.stmt_notMem_nodes (s : Stmt) (e : Expr) : Node.stmt s ∉ e.nodes := by
  cases e with
  | literal | this | caught | uninitNew | unresolved | localVar => simp [nodes]
  | not _ a | neg _ a | cast _ _ a | instanceOf _ a _ | arrayLength _ a | increment _ a _ _ =>
    simp [nodes, Expr.stmt_notMem_nodes s a]
  | binary _ _ a b | compare _ _ a b | arrayLoad _ a b | threeWay _ _ a b =>
    simp [nodes, Expr.stmt_notMem_nodes s a, Expr.stmt_notMem_nodes s b]
  | assign _ a b =>
    have ha := Expr.stmt_notMem_nodes s a
    cases a <;> simp_all [nodes, Expr.stmt_notMem_nodes s b]
  | ternary _ a b c =>
    simp [nodes, Expr.stmt_notMem_nodes s a, Expr.stmt_notMem_nodes s b, Expr.stmt_notMem_nodes s c]
  | field _ o _ _ _ => simp [nodes, Expr.stmt_notMem_nodesOfOption s o]
  | invoke _ _ o _ _ _ args =>
    simp [nodes, Expr.stmt_notMem_nodesOfOption s o, Expr.stmt_notMem_nodesOfList s args]
  | invokeDynamic _ _ _ args | new _ _ _ args | newArray _ _ args | concat _ args =>
    simp [nodes, Expr.stmt_notMem_nodesOfList s args]

/-- No statement stands in an expression that may be absent. -/
theorem Expr.stmt_notMem_nodesOfOption (s : Stmt) (e : Option Expr) : Node.stmt s ∉ Expr.nodesOfOption e := by
  cases e with
  | none => simp [nodesOfOption]
  | some e => exact Expr.stmt_notMem_nodes s e

/-- No statement stands in one of several expressions. -/
theorem Expr.stmt_notMem_nodesOfList (s : Stmt) (es : List Expr) : Node.stmt s ∉ Expr.nodesOfList es := by
  cases es with
  | nil => simp [nodesOfList]
  | cons e es => simp [nodesOfList, Expr.stmt_notMem_nodes s e, Expr.stmt_notMem_nodesOfList s es]

end

/-- Where there are no statements, nothing is listed that only statements have. -/
theorem Node.flatMap_eq_nil {α : Type} {f : Node → List α} {nodes : List Node}
    (hf : ∀ node, node.stmt? = none → f node = []) (h : ∀ s, Node.stmt s ∉ nodes) : nodes.flatMap f = [] := by
  refine List.flatMap_eq_nil_iff.2 fun node hnode => ?_
  cases node with
  | stmt s => exact absurd hnode (h s)
  | simple | expr | localVar => exact hf _ rfl

/-- Where there are no statements, none is counted. -/
theorem Node.count_isStmt_eq_zero {q : Stmt → Bool} {nodes : List Node} (h : ∀ s, Node.stmt s ∉ nodes) :
    count (isStmt q) nodes = 0 := by
  refine count_eq_zero fun node hnode => ?_
  cases node with
  | stmt s => exact absurd hnode (h s)
  | simple | expr | localVar => rfl

/-- In an expression there is no statement to count. -/
@[simp] theorem Expr.count_isStmt_nodes (q : Stmt → Bool) (e : Expr) : Node.count (Node.isStmt q) e.nodes = 0 :=
  Node.count_isStmt_eq_zero fun s => stmt_notMem_nodes s e

/-- Nor in one that may be absent. -/
@[simp] theorem Expr.count_isStmt_nodesOfOption (q : Stmt → Bool) (e : Option Expr) :
    Node.count (Node.isStmt q) (nodesOfOption e) = 0 :=
  Node.count_isStmt_eq_zero fun s => stmt_notMem_nodesOfOption s e

/-- A simple statement holds expressions only. -/
@[simp] theorem SimpleStmt.count_isStmt_nodes (q : Stmt → Bool) (s : SimpleStmt) :
    Node.count (Node.isStmt q) s.nodes = 0 := by
  simp [nodes]

/-- A use of a variable is no statement. -/
@[simp] theorem LocalRef.count_isStmt_nodes (q : Stmt → Bool) (ref : LocalRef) :
    Node.count (Node.isStmt q) ref.nodes = 0 := rfl

/-! ## Lists inside statements -/

/-- A list inside a statement is smaller than the statement. -/
theorem Stmt.sizeOf_lt_of_mem_childLists {s : Stmt} {body : List Stmt} (h : body ∈ s.childLists) :
    sizeOf body < sizeOf s := by
  -- the lists of arms and clauses lie one level deeper than the others
  cases s with
  | labeled _ s =>
    have := sizeOf_lt_of_mem_childLists (s := s) h
    simp only [labeled.sizeOf_spec]
    omega
  | switch _ cases =>
    obtain ⟨c, hc, rfl⟩ := List.mem_map.1 h
    have hcases := List.sizeOf_lt_of_mem hc
    obtain ⟨labels, body, fallsThrough⟩ := c
    simp only [SwitchCase.mk.sizeOf_spec, switch.sizeOf_spec] at hcases ⊢
    omega
  | tryCatch _ catches finallyBody =>
    simp only [childLists, List.cons_append, List.mem_cons, List.mem_append, List.mem_map,
      Option.mem_toList, tryCatch.sizeOf_spec] at h ⊢
    rcases h with rfl | ⟨c, hc, rfl⟩ | hbody
    · omega
    · have hcatches := List.sizeOf_lt_of_mem hc
      obtain ⟨classes, ref, body⟩ := c
      simp only [CatchClause.mk.sizeOf_spec] at hcatches ⊢
      omega
    · obtain rfl : finallyBody = some body := hbody
      simp only [Option.some.sizeOf_spec]
      omega
  | _ => simp [childLists] at h <;> grind

/-! ## Transforms without effects -/

namespace Transform

section Plain

variable {r : Transform Id}

mutual

/-- A transform that keeps variables, and every expression once what is below it has been kept, keeps all
expressions. -/
theorem onExpr_eq_self (hexpr : ∀ e, r.expr e = e) (hlocal : ∀ ref, r.localVar ref = ref) (e : Expr) :
    r.onExpr e = e := by
  cases e with
  | literal | this | caught | uninitNew | unresolved => exact hexpr _
  | localVar l ref => exact (hexpr _).trans (by rw [hlocal])
  | not _ a | neg _ a | cast _ _ a | instanceOf _ a _ | arrayLength _ a | increment _ a _ _ =>
    exact (hexpr _).trans (by rw [onExpr_eq_self hexpr hlocal a])
  | binary _ _ a b | compare _ _ a b | arrayLoad _ a b | assign _ a b | threeWay _ _ a b =>
    exact (hexpr _).trans (by rw [onExpr_eq_self hexpr hlocal a, onExpr_eq_self hexpr hlocal b])
  | ternary _ a b c =>
    exact (hexpr _).trans (by rw [onExpr_eq_self hexpr hlocal a, onExpr_eq_self hexpr hlocal b,
      onExpr_eq_self hexpr hlocal c])
  | field _ o _ _ _ => exact (hexpr _).trans (by rw [onOption_eq_self hexpr hlocal o])
  | invoke _ _ o _ _ _ args =>
    exact (hexpr _).trans
      (by rw [onOption_eq_self hexpr hlocal o, onExprs_eq_self hexpr hlocal args])
  | invokeDynamic _ _ _ args | new _ _ _ args | newArray _ _ args | concat _ args =>
    exact (hexpr _).trans (by rw [onExprs_eq_self hexpr hlocal args])

/-- A transform that leaves expressions and variables alone leaves an optional expression alone. -/
theorem onOption_eq_self (hexpr : ∀ e, r.expr e = e) (hlocal : ∀ ref, r.localVar ref = ref)
    (e : Option Expr) : r.onOption e = e := by
  cases e with
  | none => rfl
  | some e => exact congrArg some (onExpr_eq_self hexpr hlocal e)

/-- It leaves several expressions alone. -/
theorem onExprs_eq_self (hexpr : ∀ e, r.expr e = e) (hlocal : ∀ ref, r.localVar ref = ref)
    (es : List Expr) : r.onExprs es = es := by
  cases es with
  | nil => rfl
  | cons e es =>
    exact congrArg₂ List.cons (onExpr_eq_self hexpr hlocal e) (onExprs_eq_self hexpr hlocal es)

end

/-- With simple statements left alone as well, it leaves each of them alone. -/
theorem onSimple_eq_self (hexpr : ∀ e, r.expr e = e) (hlocal : ∀ ref, r.localVar ref = ref)
    (hsimple : ∀ s, r.simple s = s) (s : SimpleStmt) : r.onSimple s = s := by
  cases s with
  | «return» l e =>
    exact (hsimple _).trans (congrArg (SimpleStmt.return l) (onOption_eq_self hexpr hlocal e))
  | expr l e => exact (hsimple _).trans (congrArg (SimpleStmt.expr l) (onExpr_eq_self hexpr hlocal e))
  | throw l e => exact (hsimple _).trans (congrArg (SimpleStmt.throw l) (onExpr_eq_self hexpr hlocal e))
  | monitorEnter l e =>
    exact (hsimple _).trans (congrArg (SimpleStmt.monitorEnter l) (onExpr_eq_self hexpr hlocal e))
  | monitorExit l e =>
    exact (hsimple _).trans (congrArg (SimpleStmt.monitorExit l) (onExpr_eq_self hexpr hlocal e))

/-- A list of statements is transformed statement by statement. -/
theorem onStmts_eq_map (body : List Stmt) : r.onStmts body = body.map r.onStmt := by
  induction body with
  | nil => rfl
  | cons s rest ih => exact congrArg (r.onStmt s :: ·) ih

/-- The arms of a switch are transformed one by one. -/
theorem onCases_eq_map (arms : List SwitchCase) :
    r.onCases arms = arms.map fun c => { c with body := r.body (r.onStmts c.body) } := by
  induction arms with
  | nil => rfl
  | cons c rest ih =>
    obtain ⟨labels, body, fallsThrough⟩ := c
    exact congrArg (⟨labels, r.body (r.onStmts body), fallsThrough⟩ :: ·) ih

/-- The bodies of some clauses are transformed one by one, whatever becomes of the variables. -/
theorem map_body_onCatches (vars : List (Option LocalRef)) (clauses : List CatchClause) :
    List.map CatchClause.body (r.onCatches vars clauses) =
      clauses.map fun c => r.body (r.onStmts c.body) := by
  induction clauses generalizing vars with
  | nil => rfl
  | cons c rest ih =>
    obtain ⟨classes, var, body⟩ := c
    exact congrArg (r.body (r.onStmts body) :: ·) (ih vars.tail)

/-- A transform that keeps variables keeps those of catch clauses. -/
theorem onCatches_onCatchVars (hlocal : ∀ ref, r.localVar ref = ref) (clauses : List CatchClause) :
    r.onCatches (r.onCatchVars clauses) clauses =
      clauses.map fun c => { c with body := r.body (r.onStmts c.body) } := by
  induction clauses with
  | nil => rfl
  | cons c rest ih =>
    obtain ⟨classes, var, body⟩ := c
    have hvar : r.onCatchVar var = var := by
      cases var with
      | none => rfl
      | some ref => exact congrArg some (hlocal ref)
    have hhead : (r.onCatchVars (⟨classes, var, body⟩ :: rest)).head?.join = var := hvar
    exact congrArg₂ List.cons (congrArg (CatchClause.mk classes · (r.body (r.onStmts body))) hhead) ih

end Plain

end Transform

/-! ## Results of computations -/

/-- A way of saying that the results of computations in a monad have a property. -/
structure ResultLogic (m : Type → Type) [Monad m] where
  ensures : {α : Type} → m α → (α → Prop) → Prop
  pure : ∀ {α : Type} {a : α} {P : α → Prop}, P a → ensures (pure a) P
  bind : ∀ {α β : Type} {x : m α} {f : α → m β} {P : α → Prop} {Q : β → Prop},
    ensures x P → (∀ a, P a → ensures (f a) Q) → ensures (x >>= f) Q

namespace ResultLogic

/-- The result of a computation without effects. -/
def plain : ResultLogic Id where
  ensures x P := P x.run
  pure h := h
  bind hx hf := hf _ hx

/-- The result of a computation with a state of which `I` holds, and holds again at the end. -/
def keeping {σ : Type} (I : σ → Prop) : ResultLogic (StateM σ) where
  ensures x P := ∀ s, I s → P (x.run s).1 ∧ I (x.run s).2
  pure h _ hs := ⟨h, hs⟩
  bind {_ _ x _ _ _} hx hf s hs := hf (x.run s).1 (hx s hs).1 (x.run s).2 (hx s hs).2

end ResultLogic

/-! ## Transforms -/

namespace Transform

variable {m : Type → Type} [Monad m] {L : ResultLogic m} {r : Transform m} {R : List LocalRef → List LocalRef → Prop}

/-- A transform that makes of the uses in a tree, if they have the property `P`, uses to which they are
related. The relation is between the uses of a whole tree in their order; what is said of the parts of a tree
holds of the tree. The transform relates a single use to what becomes of it, and keeps the relation where it
changes a node once the uses below it are made. -/
structure Relates (L : ResultLogic m) (P : LocalRef → Prop) (R : List LocalRef → List LocalRef → Prop)
    (r : Transform m) : Prop where
  nil : R [] []
  append : ∀ {a b c d}, R a b → R c d → R (a ++ c) (b ++ d)
  localVar : ∀ ref, P ref → L.ensures (r.localVar ref) fun ref' => R [ref] [ref']
  expr : ∀ a e, R a (locals e.nodes) → L.ensures (r.expr e) fun e => R a (locals e.nodes)
  simple : ∀ a s, R a (locals s.nodes) → L.ensures (r.simple s) fun s => R a (locals s.nodes)
  stmt : ∀ a s, R a (locals s.nodes) → L.ensures (r.stmt s) fun s => R a (locals s.nodes)
  body : ∀ a b, R a (locals (Stmt.nodesOfList b)) →
    L.ensures (r.body b) fun b => R a (locals (Stmt.nodesOfList b))

mutual

/-- The uses in a transformed expression are related to those in the expression. -/
theorem Relates.onExpr (h : r.Relates L P R) {e : Expr} (he : AllLocals P e.nodes) :
    L.ensures (r.onExpr e) fun e' => R (locals e.nodes) (locals e'.nodes) := by
  cases e with
  | literal | this | caught | uninitNew | unresolved => exact h.expr _ _ h.nil
  | localVar l ref =>
    exact L.bind (h.localVar ref (by simpa [Expr.nodes] using he)) fun ref href => h.expr _ _ href
  | not _ a | neg _ a | cast _ _ a | instanceOf _ a _ | arrayLength _ a | increment _ a _ _ =>
    exact L.bind (Relates.onExpr h (by simpa [Expr.nodes] using he)) fun a ha => h.expr _ _ ha
  | binary _ _ a b | compare _ _ a b | arrayLoad _ a b | assign _ a b | threeWay _ _ a b =>
    have hab : AllLocals P a.nodes ∧ AllLocals P b.nodes := by simpa [Expr.nodes] using he
    refine L.bind (Relates.onExpr h hab.1) fun a ha => L.bind (Relates.onExpr h hab.2) fun b hb =>
      h.expr _ _ ?_
    simpa [Expr.nodes] using h.append ha hb
  | ternary _ a b c =>
    have habc : AllLocals P a.nodes ∧ AllLocals P b.nodes ∧ AllLocals P c.nodes := by
      simpa [Expr.nodes] using he
    refine L.bind (Relates.onExpr h habc.1) fun a ha =>
      L.bind (Relates.onExpr h habc.2.1) fun b hb =>
      L.bind (Relates.onExpr h habc.2.2) fun c hc => h.expr _ _ ?_
    simpa [Expr.nodes] using h.append ha (h.append hb hc)
  | field _ o _ _ _ =>
    exact L.bind (Relates.onOption h (by simpa [Expr.nodes] using he)) fun o ho => h.expr _ _ ho
  | invoke _ _ o _ _ _ args =>
    have hoargs : AllLocals P (Expr.nodesOfOption o) ∧ AllLocals P (Expr.nodesOfList args) := by
      simpa [Expr.nodes] using he
    refine L.bind (Relates.onOption h hoargs.1) fun o ho =>
      L.bind (Relates.onExprs h hoargs.2) fun args hargs => h.expr _ _ ?_
    simpa [Expr.nodes] using h.append ho hargs
  | invokeDynamic _ _ _ args | new _ _ _ args | newArray _ _ args | concat _ args =>
    exact L.bind (Relates.onExprs h (by simpa [Expr.nodes] using he)) fun args hargs => h.expr _ _ hargs

/-- The same of an expression that may be absent. -/
theorem Relates.onOption (h : r.Relates L P R) {e : Option Expr} (he : AllLocals P (Expr.nodesOfOption e)) :
    L.ensures (r.onOption e) fun e' => R (locals (Expr.nodesOfOption e)) (locals (Expr.nodesOfOption e')) := by
  cases e with
  | none => exact L.pure h.nil
  | some e => exact L.bind (Relates.onExpr h he) fun _ he => L.pure he

/-- The same of several expressions. -/
theorem Relates.onExprs (h : r.Relates L P R) {es : List Expr} (hes : AllLocals P (Expr.nodesOfList es)) :
    L.ensures (r.onExprs es) fun es' => R (locals (Expr.nodesOfList es)) (locals (Expr.nodesOfList es')) := by
  cases es with
  | nil => exact L.pure h.nil
  | cons e es =>
    rw [Expr.nodesOfList, Node.allLocals_append] at hes
    refine L.bind (Relates.onExpr h hes.1) fun e he => L.bind (Relates.onExprs h hes.2) fun es hes =>
      L.pure ?_
    simp only [Expr.nodesOfList, List.flatMap_append]
    exact h.append he hes

end

/-- The same of a simple statement. -/
theorem Relates.onSimple (h : r.Relates L P R) {s : SimpleStmt} (hs : AllLocals P s.nodes) :
    L.ensures (r.onSimple s) fun s' => R (locals s.nodes) (locals s'.nodes) := by
  cases s with
  | «return» _ e => exact L.bind (h.onOption hs) fun _ he => h.simple _ _ he
  | expr _ e | throw _ e | monitorEnter _ e | monitorExit _ e =>
    exact L.bind (h.onExpr hs) fun _ he => h.simple _ _ he

/-- What becomes of the variables of catch clauses, which are among the uses of the clauses. -/
theorem Relates.onCatchVars (h : r.Relates L P R) {clauses : List CatchClause}
    (hclauses : AllLocals P (CatchClause.nodesOfList clauses)) :
    L.ensures (r.onCatchVars clauses) fun vars =>
      List.Forall₂ (fun c var => R c.var.toList var.toList) clauses vars := by
  match clauses with
  | [] => exact L.pure .nil
  | ⟨_, var, body⟩ :: clauses =>
    rw [CatchClause.allLocals_nodesOfList_cons] at hclauses
    refine L.bind (P := fun var' => R var.toList var'.toList) ?_ fun var hvar =>
      L.bind (h.onCatchVars hclauses.2.2) fun vars hvars => L.pure (.cons hvar hvars)
    cases var with
    | none => exact L.pure h.nil
    | some ref => exact L.bind (h.localVar ref (hclauses.1 ref rfl)) fun ref href => L.pure href

mutual

/-- The same of a statement. -/
theorem Relates.onStmt (h : r.Relates L P R) {s : Stmt} (hs : AllLocals P s.nodes) :
    L.ensures (r.onStmt s) fun s' => R (locals s.nodes) (locals s'.nodes) := by
  -- a list is made statement by statement and then as a whole, in two steps for the relation
  cases s with
  | label | breakTo | continueTo | gotoLabel | comment => exact h.stmt _ _ h.nil
  | simple s => exact L.bind (h.onSimple hs) fun _ hs => h.stmt _ _ hs
  | block body =>
    exact L.bind (Relates.onStmts h hs) fun _ hbody => L.bind (h.body _ _ hbody) fun _ hbody =>
      h.stmt _ _ hbody
  | declaration ref init =>
    have hparts : P ref ∧ AllLocals P (Expr.nodesOfOption init) := by simpa [Stmt.nodes] using hs
    refine L.bind (h.localVar ref hparts.1) fun ref href => L.bind (h.onOption hparts.2) fun init hinit =>
      h.stmt _ _ ?_
    simpa [Stmt.nodes] using h.append href hinit
  | ifElse c a b =>
    have hparts : AllLocals P c.nodes ∧ AllLocals P (Stmt.nodesOfList a) ∧
        AllLocals P (Stmt.nodesOfList b) := by simpa [Stmt.nodes] using hs
    refine L.bind (h.onExpr hparts.1) fun c hc =>
      L.bind (Relates.onStmts h hparts.2.1) fun _ ha => L.bind (h.body _ _ ha) fun a ha =>
      L.bind (Relates.onStmts h hparts.2.2) fun _ hb => L.bind (h.body _ _ hb) fun b hb => h.stmt _ _ ?_
    simpa [Stmt.nodes] using h.append hc (h.append ha hb)
  | whileLoop c body | synchronized c body =>
    have hparts : AllLocals P c.nodes ∧ AllLocals P (Stmt.nodesOfList body) := by
      simpa [Stmt.nodes] using hs
    refine L.bind (h.onExpr hparts.1) fun c hc =>
      L.bind (Relates.onStmts h hparts.2) fun _ hbody => L.bind (h.body _ _ hbody) fun body hbody =>
      h.stmt _ _ ?_
    simpa [Stmt.nodes] using h.append hc hbody
  | doWhile body c =>
    have hparts : AllLocals P (Stmt.nodesOfList body) ∧ AllLocals P c.nodes := by
      simpa [Stmt.nodes] using hs
    refine L.bind (h.onExpr hparts.2) fun c hc =>
      L.bind (Relates.onStmts h hparts.1) fun _ hbody => L.bind (h.body _ _ hbody) fun body hbody =>
      h.stmt _ _ ?_
    simpa [Stmt.nodes] using h.append hbody hc
  | forLoop init c update body =>
    have hparts : AllLocals P (Stmt.nodesOfList init) ∧ AllLocals P c.nodes ∧
        AllLocals P (Stmt.nodesOfList update) ∧ AllLocals P (Stmt.nodesOfList body) := by
      simpa [Stmt.nodes] using hs
    obtain ⟨hinit, hc, hupdate, hbody⟩ := hparts
    refine L.bind (h.onExpr hc) fun c hc =>
      L.bind (Relates.onStmts h hinit) fun _ hinit => L.bind (h.body _ _ hinit) fun init hinit =>
      L.bind (Relates.onStmts h hupdate) fun _ hupdate => L.bind (h.body _ _ hupdate) fun update hupdate =>
      L.bind (Relates.onStmts h hbody) fun _ hbody => L.bind (h.body _ _ hbody) fun body hbody =>
      h.stmt _ _ ?_
    simpa [Stmt.nodes] using h.append hinit (h.append hc (h.append hupdate hbody))
  | forEach ref e body =>
    have hparts : P ref ∧ AllLocals P e.nodes ∧ AllLocals P (Stmt.nodesOfList body) := by
      simpa [Stmt.nodes] using hs
    refine L.bind (h.localVar ref hparts.1) fun ref href => L.bind (h.onExpr hparts.2.1) fun e he =>
      L.bind (Relates.onStmts h hparts.2.2) fun _ hbody => L.bind (h.body _ _ hbody) fun body hbody =>
      h.stmt _ _ ?_
    simpa [Stmt.nodes] using h.append href (h.append he hbody)
  | switch key cases =>
    have hparts : AllLocals P key.nodes ∧ AllLocals P (SwitchCase.nodesOfList cases) := by
      simpa [Stmt.nodes] using hs
    refine L.bind (h.onExpr hparts.1) fun key hkey =>
      L.bind (Relates.onCases h hparts.2) fun cases hcases => h.stmt _ _ ?_
    simpa [Stmt.nodes] using h.append hkey hcases
  | tryCatch body catches finallyBody =>
    have hparts : AllLocals P (Stmt.nodesOfList body) ∧ AllLocals P (CatchClause.nodesOfList catches) ∧
        AllLocals P (Stmt.nodesOfBody finallyBody) := by simpa [Stmt.nodes] using hs
    refine L.bind (h.onCatchVars hparts.2.1) fun vars hvars =>
      L.bind (Relates.onStmts h hparts.1) fun _ hbody => L.bind (h.body _ _ hbody) fun body hbody =>
      L.bind (Relates.onCatches h hvars hparts.2.1) fun catches hcatches =>
      L.bind (Relates.onFinally h hparts.2.2) fun finallyBody hfinally => h.stmt _ _ ?_
    simpa [Stmt.nodes] using h.append hbody (h.append hcatches hfinally)
  | labeled _ s => exact L.bind (Relates.onStmt h hs) fun _ hs => h.stmt _ _ hs

/-- The same of the statements of a list. -/
theorem Relates.onStmts (h : r.Relates L P R) {body : List Stmt}
    (hbody : AllLocals P (Stmt.nodesOfList body)) :
    L.ensures (r.onStmts body) fun body' =>
      R (locals (Stmt.nodesOfList body)) (locals (Stmt.nodesOfList body')) := by
  cases body with
  | nil => exact L.pure h.nil
  | cons s rest =>
    rw [Stmt.nodesOfList, Node.allLocals_append] at hbody
    refine L.bind (Relates.onStmt h hbody.1) fun s hs =>
      L.bind (Relates.onStmts h hbody.2) fun rest hrest => L.pure ?_
    simp only [Stmt.nodesOfList, List.flatMap_append]
    exact h.append hs hrest

/-- The same of the arms of a switch. -/
theorem Relates.onCases (h : r.Relates L P R) {cases : List SwitchCase}
    (hcases : AllLocals P (SwitchCase.nodesOfList cases)) :
    L.ensures (r.onCases cases) fun cases' =>
      R (locals (SwitchCase.nodesOfList cases)) (locals (SwitchCase.nodesOfList cases')) := by
  match cases with
  | [] => exact L.pure h.nil
  | ⟨_, body, _⟩ :: cases =>
    rw [SwitchCase.nodesOfList, Node.allLocals_append] at hcases
    refine L.bind (Relates.onStmts h hcases.1) fun _ hbody => L.bind (h.body _ _ hbody) fun body hbody =>
      L.bind (Relates.onCases h hcases.2) fun cases hcases => L.pure ?_
    simp only [SwitchCase.nodesOfList, List.flatMap_append]
    exact h.append hbody hcases

/-- The same of the clauses of a try statement, if their variables are related to begin with. -/
theorem Relates.onCatches (h : r.Relates L P R) {vars : List (Option LocalRef)}
    {clauses : List CatchClause} (hvars : List.Forall₂ (fun c var => R c.var.toList var.toList) clauses vars)
    (hclauses : AllLocals P (CatchClause.nodesOfList clauses)) :
    L.ensures (r.onCatches vars clauses) fun clauses' =>
      R (locals (CatchClause.nodesOfList clauses)) (locals (CatchClause.nodesOfList clauses')) := by
  match clauses, vars, hvars with
  | [], _, _ => exact L.pure h.nil
  | ⟨_, _, body⟩ :: clauses, var :: vars, .cons hvar hvars =>
    rw [CatchClause.allLocals_nodesOfList_cons] at hclauses
    refine L.bind (Relates.onStmts h hclauses.2.1) fun _ hbody => L.bind (h.body _ _ hbody) fun body hbody =>
      L.bind (Relates.onCatches h hvars hclauses.2.2) fun clauses hclauses => L.pure ?_
    rw [CatchClause.locals_nodesOfList_cons, CatchClause.locals_nodesOfList_cons]
    exact h.append hvar (h.append hbody hclauses)

/-- The same of a `finally` part. -/
theorem Relates.onFinally (h : r.Relates L P R) {body : Option (List Stmt)}
    (hbody : AllLocals P (Stmt.nodesOfBody body)) :
    L.ensures (r.onFinally body) fun body' =>
      R (locals (Stmt.nodesOfBody body)) (locals (Stmt.nodesOfBody body')) := by
  match body with
  | none => exact L.pure h.nil
  | some body =>
    exact L.bind (Relates.onStmts h hbody) fun _ hbody => L.bind (h.body _ _ hbody) fun _ hbody =>
      L.pure hbody

end

/-- What the parts of a transform do to the uses in a tree, the whole transform does. -/
theorem Relates.onBody (h : r.Relates L P R) {body : List Stmt}
    (hbody : AllLocals P (Stmt.nodesOfList body)) :
    L.ensures (r.onBody body) fun body' =>
      R (locals (Stmt.nodesOfList body)) (locals (Stmt.nodesOfList body')) :=
  L.bind (h.onStmts hbody) fun _ hbody => h.body _ _ hbody

/-- A transform whose parts make uses of variables with the property `Q` from those with the property
`P`. All other parts see a node once the uses below it are made. -/
structure Respects (L : ResultLogic m) (P Q : LocalRef → Prop) (r : Transform m) : Prop where
  localVar : ∀ ref, P ref → L.ensures (r.localVar ref) Q
  expr : ∀ e, AllLocals Q e.nodes → L.ensures (r.expr e) fun e => AllLocals Q e.nodes
  simple : ∀ s, AllLocals Q s.nodes → L.ensures (r.simple s) fun s => AllLocals Q s.nodes
  stmt : ∀ s, AllLocals Q s.nodes → L.ensures (r.stmt s) fun s => AllLocals Q s.nodes
  body : ∀ b, AllLocals Q (Stmt.nodesOfList b) →
    L.ensures (r.body b) fun b => AllLocals Q (Stmt.nodesOfList b)

/-- Where all that matters is a property of what comes out, any uses are related to uses with the property. -/
theorem Respects.relates (h : r.Respects L P Q) : r.Relates L P fun _ b => ∀ ref ∈ b, Q ref where
  nil := nofun
  append ha hc := List.forall_mem_append.2 ⟨ha, hc⟩
  localVar ref href := by simpa only [List.forall_mem_singleton] using h.localVar ref href
  expr _ := h.expr
  simple _ := h.simple
  stmt _ := h.stmt
  body _ := h.body

/-- All uses in a transformed body have the new property, if those in the body have the old one. -/
theorem Respects.onBody (h : r.Respects L P Q) {body : List Stmt}
    (hbody : AllLocals P (Stmt.nodesOfList body)) :
    L.ensures (r.onBody body) fun body => AllLocals Q (Stmt.nodesOfList body) :=
  h.relates.onBody hbody

end Transform

end JvmDecompiler
