import JvmDecompiler.Proofs.TreeTransform

/-!
# The expressions of a transformed body

The expressions that statements evaluate are the roots of a body. A transform that relates each expression to
what becomes of it, and keeps the relation where it changes a statement, relates the roots of a body to those
of the result, one by one and in their order (`Transform.RelatesRoots.onBody`).

The effects of a transform, such as warnings, need not matter for what comes out. Then it does what a
transform without effects does (`Transform.ActsAs.onExpr`).
-/

namespace JvmDecompiler

/-! ## Results that do not depend on the state -/

/-- A result that is the same in every state. -/
def ResultLogic.steady {σ : Type} : ResultLogic (StateM σ) where
  ensures x P := ∃ a, P a ∧ ∀ s, (x.run s).1 = a
  pure h := ⟨_, h, fun _ => rfl⟩
  bind {_ _ x f _ _} hx hf := by
    obtain ⟨a, ha, hrun⟩ := hx
    obtain ⟨b, hb, hrun'⟩ := hf a ha
    refine ⟨b, hb, fun s => ?_⟩
    show ((f (x.run s).1).run (x.run s).2).1 = b
    rw [hrun, hrun']

/-- A result that is the same in every state has its property in each. -/
theorem ResultLogic.of_steady {σ α : Type} {x : StateM σ α} {P : α → Prop}
    (h : ResultLogic.steady.ensures x P) (s : σ) : P (x.run s).1 := by
  obtain ⟨a, ha, hrun⟩ := h
  rwa [hrun s]

/-- A computation with one result for all states has a steady one. -/
theorem ResultLogic.steady_of_run {σ α : Type} {x : StateM σ α} {a : α} (h : ∀ s, (x.run s).1 = a) :
    ResultLogic.steady.ensures x (· = a) := ⟨a, rfl, h⟩

/-- What is known of a steady result may be weakened. -/
theorem ResultLogic.steady_mono {σ α : Type} {x : StateM σ α} {P Q : α → Prop}
    (h : ResultLogic.steady.ensures x P) (hPQ : ∀ a, P a → Q a) : ResultLogic.steady.ensures x Q := by
  obtain ⟨a, ha, hrun⟩ := h
  exact ⟨a, hPQ a ha, hrun⟩

namespace Transform

variable {m : Type → Type} [Monad m] {L : ResultLogic m} {r : Transform m}

/-- A transform that makes of the nodes of expressions what one without effects makes of them. -/
structure ActsAs (L : ResultLogic m) (r : Transform m) (q : Transform Id) : Prop where
  expr : ∀ e, L.ensures (r.expr e) (· = q.expr e)
  localVar : ∀ ref, L.ensures (r.localVar ref) (· = q.localVar ref)

variable {q : Transform Id}

mutual

/-- A transform acts on whole expressions as it does on their nodes. -/
theorem ActsAs.onExpr (h : r.ActsAs L q) (e : Expr) : L.ensures (r.onExpr e) (· = q.onExpr e) := by
  cases e with
  | literal | this | caught | uninitNew | unresolved => exact h.expr _
  | localVar l ref => exact L.bind (h.localVar ref) fun _ href => href ▸ h.expr _
  | not _ a | neg _ a | cast _ _ a | instanceOf _ a _ | arrayLength _ a | increment _ a _ _ =>
    exact L.bind (ActsAs.onExpr h a) fun _ ha => ha ▸ h.expr _
  | binary _ _ a b | compare _ _ a b | arrayLoad _ a b | assign _ a b | threeWay _ _ a b =>
    exact L.bind (ActsAs.onExpr h a) fun _ ha => L.bind (ActsAs.onExpr h b) fun _ hb => ha ▸ hb ▸ h.expr _
  | ternary _ a b c =>
    exact L.bind (ActsAs.onExpr h a) fun _ ha => L.bind (ActsAs.onExpr h b) fun _ hb =>
      L.bind (ActsAs.onExpr h c) fun _ hc => ha ▸ hb ▸ hc ▸ h.expr _
  | field _ o _ _ _ => exact L.bind (ActsAs.onOption h o) fun _ ho => ho ▸ h.expr _
  | invoke _ _ o _ _ _ args =>
    exact L.bind (ActsAs.onOption h o) fun _ ho => L.bind (ActsAs.onExprs h args) fun _ hargs =>
      ho ▸ hargs ▸ h.expr _
  | invokeDynamic _ _ _ args | new _ _ _ args | newArray _ _ args | concat _ args =>
    exact L.bind (ActsAs.onExprs h args) fun _ hargs => hargs ▸ h.expr _

/-- So it does on expressions that may be absent. -/
theorem ActsAs.onOption (h : r.ActsAs L q) (e : Option Expr) : L.ensures (r.onOption e) (· = q.onOption e) := by
  cases e with
  | none => exact L.pure rfl
  | some e => exact L.bind (ActsAs.onExpr h e) fun _ he => L.pure (congrArg some he)

/-- So it does on several expressions. -/
theorem ActsAs.onExprs (h : r.ActsAs L q) (es : List Expr) : L.ensures (r.onExprs es) (· = q.onExprs es) := by
  cases es with
  | nil => exact L.pure rfl
  | cons e es =>
    exact L.bind (ActsAs.onExpr h e) fun _ he => L.bind (ActsAs.onExprs h es) fun _ hes =>
      L.pure (congrArg₂ List.cons he hes)

end

end Transform

/-! ## Roots -/

mutual

/-- The expressions that a statement evaluates, those of the statements inside it among them. -/
def Stmt.roots : Stmt → List Expr
  | .simple s => s.expr?.toList
  | .block body => Stmt.rootsOfList body
  | .declaration _ init => init.toList
  | .ifElse condition a b => condition :: (Stmt.rootsOfList a ++ Stmt.rootsOfList b)
  | .whileLoop condition body => condition :: Stmt.rootsOfList body
  | .doWhile body condition => Stmt.rootsOfList body ++ [condition]
  | .forLoop init condition update body =>
    Stmt.rootsOfList init ++ condition :: (Stmt.rootsOfList update ++ Stmt.rootsOfList body)
  | .forEach _ iterable body => iterable :: Stmt.rootsOfList body
  | .switch key cases => key :: SwitchCase.rootsOfList cases
  | .tryCatch body catches finallyBody =>
    Stmt.rootsOfList body ++ CatchClause.rootsOfList catches ++ Stmt.rootsOfBody finallyBody
  | .synchronized object body => object :: Stmt.rootsOfList body
  | .labeled _ body => body.roots
  | .label _ | .breakTo _ | .continueTo _ | .gotoLabel _ | .comment _ => []

/-- The expressions that statements evaluate. -/
def Stmt.rootsOfList : List Stmt → List Expr
  | [] => []
  | s :: rest => s.roots ++ Stmt.rootsOfList rest

/-- The expressions of a statement list that may be absent. -/
def Stmt.rootsOfBody : Option (List Stmt) → List Expr
  | none => []
  | some body => Stmt.rootsOfList body

/-- The expressions of the arms of a switch. -/
def SwitchCase.rootsOfList : List SwitchCase → List Expr
  | [] => []
  | ⟨_, body, _⟩ :: cases => Stmt.rootsOfList body ++ SwitchCase.rootsOfList cases

/-- The expressions of catch clauses. -/
def CatchClause.rootsOfList : List CatchClause → List Expr
  | [] => []
  | ⟨_, _, body⟩ :: clauses => Stmt.rootsOfList body ++ CatchClause.rootsOfList clauses

end

namespace Transform

open List (Forall₂)

variable {m : Type → Type} [Monad m] {L : ResultLogic m} {r : Transform m} {R : Expr → Expr → Prop}

/-- A transform that relates every expression to what becomes of it, and keeps the relation between the roots
of a statement, and those of what it came from, where it changes the statement. -/
structure RelatesRoots (L : ResultLogic m) (R : Expr → Expr → Prop) (r : Transform m) : Prop where
  expr : ∀ e, L.ensures (r.onExpr e) (R e)
  localVar : ∀ ref, L.ensures (r.localVar ref) fun _ => True
  simple : ∀ es s, Forall₂ R es s.expr?.toList → L.ensures (r.simple s) fun s => Forall₂ R es s.expr?.toList
  stmt : ∀ es s, Forall₂ R es s.roots → L.ensures (r.stmt s) fun s => Forall₂ R es s.roots
  body : ∀ es b, Forall₂ R es (Stmt.rootsOfList b) →
    L.ensures (r.body b) fun b => Forall₂ R es (Stmt.rootsOfList b)

/-- Lists that are related part by part are related. -/
theorem forall₂_append {α β : Type} {R : α → β → Prop} {as cs : List α} {bs ds : List β}
    (h : Forall₂ R as bs) (h' : Forall₂ R cs ds) : Forall₂ R (as ++ cs) (bs ++ ds) := by
  induction h with
  | nil => exact h'
  | cons hab _ ih => exact .cons hab ih

/-- The roots of an expression that may be absent are related to those it becomes. -/
theorem RelatesRoots.onOption (h : r.RelatesRoots L R) (e : Option Expr) :
    L.ensures (r.onOption e) fun e' => Forall₂ R e.toList e'.toList := by
  cases e with
  | none => exact L.pure .nil
  | some e => exact L.bind (h.expr e) fun _ he => L.pure (.cons he .nil)

/-- The same of a simple statement. -/
theorem RelatesRoots.onSimple (h : r.RelatesRoots L R) (s : SimpleStmt) :
    L.ensures (r.onSimple s) fun s' => Forall₂ R s.expr?.toList s'.expr?.toList := by
  cases s with
  | «return» _ e => exact L.bind (h.onOption e) fun _ he => h.simple _ _ he
  | expr _ e | throw _ e | monitorEnter _ e | monitorExit _ e =>
    exact L.bind (h.expr e) fun _ he => h.simple _ _ (.cons he .nil)

/-- The variables of catch clauses have no roots. -/
theorem RelatesRoots.onCatchVars (h : r.RelatesRoots L R) (clauses : List CatchClause) :
    L.ensures (r.onCatchVars clauses) fun _ => True := by
  match clauses with
  | [] => exact L.pure trivial
  | ⟨_, var, _⟩ :: clauses =>
    refine L.bind (P := fun _ => True) ?_ fun _ _ => L.bind (h.onCatchVars clauses) fun _ _ =>
      L.pure trivial
    cases var with
    | none => exact L.pure trivial
    | some ref => exact L.bind (h.localVar ref) fun _ _ => L.pure trivial

mutual

/-- The roots of a statement are related to those it becomes. -/
theorem RelatesRoots.onStmt (h : r.RelatesRoots L R) (s : Stmt) :
    L.ensures (r.onStmt s) fun s' => Forall₂ R s.roots s'.roots := by
  cases s with
  | label | breakTo | continueTo | gotoLabel | comment => exact h.stmt _ _ .nil
  | simple s => exact L.bind (h.onSimple s) fun _ hs => h.stmt _ _ hs
  | block body =>
    exact L.bind (RelatesRoots.onStmts h body) fun _ hbody => L.bind (h.body _ _ hbody) fun _ hbody =>
      h.stmt _ _ hbody
  | declaration ref init =>
    exact L.bind (h.localVar ref) fun _ _ => L.bind (h.onOption init) fun _ hinit => h.stmt _ _ hinit
  | ifElse c a b =>
    exact L.bind (h.expr c) fun _ hc =>
      L.bind (RelatesRoots.onStmts h a) fun _ ha => L.bind (h.body _ _ ha) fun _ ha =>
      L.bind (RelatesRoots.onStmts h b) fun _ hb => L.bind (h.body _ _ hb) fun _ hb =>
      h.stmt _ _ (.cons hc (forall₂_append ha hb))
  | whileLoop c body | synchronized c body =>
    exact L.bind (h.expr c) fun _ hc =>
      L.bind (RelatesRoots.onStmts h body) fun _ hbody => L.bind (h.body _ _ hbody) fun _ hbody =>
      h.stmt _ _ (.cons hc hbody)
  | doWhile body c =>
    exact L.bind (h.expr c) fun _ hc =>
      L.bind (RelatesRoots.onStmts h body) fun _ hbody => L.bind (h.body _ _ hbody) fun _ hbody =>
      h.stmt _ _ (forall₂_append hbody (.cons hc .nil))
  | forLoop init c update body =>
    exact L.bind (h.expr c) fun _ hc =>
      L.bind (RelatesRoots.onStmts h init) fun _ hinit => L.bind (h.body _ _ hinit) fun _ hinit =>
      L.bind (RelatesRoots.onStmts h update) fun _ hupdate => L.bind (h.body _ _ hupdate) fun _ hupdate =>
      L.bind (RelatesRoots.onStmts h body) fun _ hbody => L.bind (h.body _ _ hbody) fun _ hbody =>
      h.stmt _ _ (forall₂_append hinit (.cons hc (forall₂_append hupdate hbody)))
  | forEach ref e body =>
    exact L.bind (h.localVar ref) fun _ _ => L.bind (h.expr e) fun _ he =>
      L.bind (RelatesRoots.onStmts h body) fun _ hbody => L.bind (h.body _ _ hbody) fun _ hbody =>
      h.stmt _ _ (.cons he hbody)
  | switch key cases =>
    exact L.bind (h.expr key) fun _ hkey => L.bind (RelatesRoots.onCases h cases) fun _ hcases =>
      h.stmt _ _ (.cons hkey hcases)
  | tryCatch body catches finallyBody =>
    exact L.bind (h.onCatchVars catches) fun _ _ =>
      L.bind (RelatesRoots.onStmts h body) fun _ hbody => L.bind (h.body _ _ hbody) fun _ hbody =>
      L.bind (RelatesRoots.onCatches h _ catches) fun _ hcatches =>
      L.bind (RelatesRoots.onFinally h finallyBody) fun _ hfinally =>
      h.stmt _ _ (forall₂_append (forall₂_append hbody hcatches) hfinally)
  | labeled _ s => exact L.bind (RelatesRoots.onStmt h s) fun _ hs => h.stmt _ _ hs

/-- The same of the statements of a list. -/
theorem RelatesRoots.onStmts (h : r.RelatesRoots L R) (body : List Stmt) :
    L.ensures (r.onStmts body) fun body' => Forall₂ R (Stmt.rootsOfList body) (Stmt.rootsOfList body') := by
  cases body with
  | nil => exact L.pure .nil
  | cons s rest =>
    exact L.bind (RelatesRoots.onStmt h s) fun _ hs => L.bind (RelatesRoots.onStmts h rest) fun _ hrest =>
      L.pure (forall₂_append hs hrest)

/-- The same of the arms of a switch. -/
theorem RelatesRoots.onCases (h : r.RelatesRoots L R) (cases : List SwitchCase) :
    L.ensures (r.onCases cases) fun cases' =>
      Forall₂ R (SwitchCase.rootsOfList cases) (SwitchCase.rootsOfList cases') := by
  match cases with
  | [] => exact L.pure .nil
  | ⟨_, body, _⟩ :: cases =>
    exact L.bind (RelatesRoots.onStmts h body) fun _ hbody => L.bind (h.body _ _ hbody) fun _ hbody =>
      L.bind (RelatesRoots.onCases h cases) fun _ hcases => L.pure (forall₂_append hbody hcases)

/-- The same of catch clauses. -/
theorem RelatesRoots.onCatches (h : r.RelatesRoots L R) (vars : List (Option LocalRef))
    (clauses : List CatchClause) :
    L.ensures (r.onCatches vars clauses) fun clauses' =>
      Forall₂ R (CatchClause.rootsOfList clauses) (CatchClause.rootsOfList clauses') := by
  match clauses with
  | [] => exact L.pure .nil
  | ⟨_, _, body⟩ :: clauses =>
    exact L.bind (RelatesRoots.onStmts h body) fun _ hbody => L.bind (h.body _ _ hbody) fun _ hbody =>
      L.bind (RelatesRoots.onCatches h vars.tail clauses) fun _ hclauses =>
      L.pure (forall₂_append hbody hclauses)

/-- The same of a `finally` part. -/
theorem RelatesRoots.onFinally (h : r.RelatesRoots L R) (body : Option (List Stmt)) :
    L.ensures (r.onFinally body) fun body' =>
      Forall₂ R (Stmt.rootsOfBody body) (Stmt.rootsOfBody body') := by
  match body with
  | none => exact L.pure .nil
  | some body =>
    exact L.bind (RelatesRoots.onStmts h body) fun _ hbody => L.bind (h.body _ _ hbody) fun _ hbody =>
      L.pure hbody

end

/-- The roots of a body are related to those of what becomes of it. -/
theorem RelatesRoots.onBody (h : r.RelatesRoots L R) (body : List Stmt) :
    L.ensures (r.onBody body) fun body' => Forall₂ R (Stmt.rootsOfList body) (Stmt.rootsOfList body') :=
  L.bind (h.onStmts body) fun _ hbody => h.body _ _ hbody

end Transform

end JvmDecompiler
