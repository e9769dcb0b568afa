import JvmDecompiler.Variable.Declaration

/-!
# Scopes of variables

The scope of a declaration is what follows it in its statement list, with all lists below. What the
initialisation of a loop declares is in scope in the whole loop; the variable of a loop through elements
in its body, and the variable of a catch clause in its clause.

`Stmt.allScoped` says of one variable that all of its uses are in the scope of one of its declarations.
The variable of a declaration, of a catch clause and of a loop through elements is no use of it here: it
is the declaration.

A variable that is used nowhere in a statement is in scope everywhere in it, and so is a variable that is
declared in front of it: `Stmt.isScoped_of_unused` and `Stmt.isScoped_true`.
-/

namespace JvmDecompiler

open Node (count uses)

/-! ## Counting uses -/

/-- A use of a variable is one of its uses. -/
@[simp] theorem LocalRef.count_uses_nodes (ref : LocalRef) (var : Nat) :
    count (uses var) ref.nodes = if ref.var = some var then 1 else 0 := by
  simp [nodes]

/-- Where an expression is from has no influence on the uses in it. -/
theorem Expr.count_uses_withLine (e : Expr) (line : SourceLine) (var : Nat) :
    count (uses var) (e.withLine line).nodes = count (uses var) e.nodes := by
  cases e with
  | assign l target value => cases target <;> simp [withLine, nodes]
  | _ => simp [withLine, nodes]

/-- The line of an expression does not concern the uses in it. -/
@[simp] theorem Expr.count_uses_orLine (e : Expr) (line : SourceLine) (var : Nat) :
    count (uses var) (e.orLine line).nodes = count (uses var) e.nodes := by
  unfold orLine
  split
  · exact e.count_uses_withLine line var
  · rfl

/-! ## Scopes -/

/-- Whether uses of a variable in an expression are in scope. -/
def Expr.isScoped (var : Nat) (declared : Bool) (e : Expr) : Bool :=
  declared || count (uses var) e.nodes = 0

/-- Whether a statement declares a variable for the statements behind it. -/
def Stmt.declares (var : Nat) : Stmt → Bool
  | .declaration ref _ => ref.var = some var
  | _ => false

mutual

/-- Whether all uses of a variable in a statement are in the scope of a declaration, where `declared`
says whether the statement is. -/
def Stmt.isScoped (var : Nat) (declared : Bool) : Stmt → Bool
  | .simple s => declared || count (uses var) s.nodes = 0
  | .block body => Stmt.allScoped var declared body
  | .declaration _ init => declared || count (uses var) (Expr.nodesOfOption init) = 0
  | .ifElse condition a b =>
    condition.isScoped var declared && Stmt.allScoped var declared a && Stmt.allScoped var declared b
  | .whileLoop condition body => condition.isScoped var declared && Stmt.allScoped var declared body
  | .doWhile body condition => Stmt.allScoped var declared body && condition.isScoped var declared
  | .forLoop init condition update body =>
    let inLoop := declared || init.any (·.declares var)
    Stmt.allScoped var declared init && condition.isScoped var inLoop
      && Stmt.allScoped var inLoop update && Stmt.allScoped var inLoop body
  | .forEach ref iterable body =>
    iterable.isScoped var declared && Stmt.allScoped var (declared || ref.var = some var) body
  | .switch key cases => key.isScoped var declared && SwitchCase.allScoped var declared cases
  | .tryCatch body catches finallyBody =>
    Stmt.allScoped var declared body && CatchClause.allScoped var declared catches
      && Stmt.bodyScoped var declared finallyBody
  | .synchronized object body => object.isScoped var declared && Stmt.allScoped var declared body
  | .labeled _ body => body.isScoped var declared
  | .label _ | .breakTo _ | .continueTo _ | .gotoLabel _ | .comment _ => true

/-- Whether all uses of a variable in a statement list are in the scope of a declaration. -/
def Stmt.allScoped (var : Nat) (declared : Bool) : List Stmt → Bool
  | [] => true
  | s :: rest => s.isScoped var declared && Stmt.allScoped var (declared || s.declares var) rest

/-- Whether all uses of a variable in a list that may be absent are in the scope of a declaration. -/
def Stmt.bodyScoped (var : Nat) (declared : Bool) : Option (List Stmt) → Bool
  | none => true
  | some body => Stmt.allScoped var declared body

/-- Whether all uses of a variable in the arms of a switch are in the scope of a declaration. -/
def SwitchCase.allScoped (var : Nat) (declared : Bool) : List SwitchCase → Bool
  | [] => true
  | ⟨_, body, _⟩ :: cases => Stmt.allScoped var declared body && SwitchCase.allScoped var declared cases

/-- Whether all uses of a variable in catch clauses are in the scope of a declaration. -/
def CatchClause.allScoped (var : Nat) (declared : Bool) : List CatchClause → Bool
  | [] => true
  | ⟨_, none, body⟩ :: clauses =>
    Stmt.allScoped var declared body && CatchClause.allScoped var declared clauses
  | ⟨_, some ref, body⟩ :: clauses =>
    Stmt.allScoped var (declared || ref.var = some var) body
      && CatchClause.allScoped var declared clauses

end

variable {var : Nat}

/-- Where a variable is declared all its uses are in scope. -/
@[simp] theorem Expr.isScoped_true (e : Expr) : e.isScoped var true = true := rfl

/-- Where it is not used none is out of scope. -/
theorem Expr.isScoped_of_unused {declared : Bool} {e : Expr} (h : count (uses var) e.nodes = 0) :
    e.isScoped var declared = true := by
  simp [isScoped, h]

/-- A declaration in the first of two lists reaches the second. -/
theorem Stmt.allScoped_append (declared : Bool) (a b : List Stmt) :
    Stmt.allScoped var declared (a ++ b) = (Stmt.allScoped var declared a &&
      Stmt.allScoped var (declared || a.any (·.declares var)) b) := by
  induction a generalizing declared with
  | nil => simp [Stmt.allScoped]
  | cons s a ih => simp [Stmt.allScoped, ih, Bool.and_assoc, Bool.or_assoc]

/-! ## Variables that are declared in front -/

mutual

/-- Everything behind a declaration is in its scope. -/
@[simp] theorem Stmt.isScoped_true (s : Stmt) : s.isScoped var true = true := by
  cases s with
  | simple _ | declaration _ _ | label _ | breakTo _ | continueTo _ | gotoLabel _ | comment _ => rfl
  | block body => simp [Stmt.isScoped, Stmt.allScoped_true body]
  | ifElse _ a b => simp [Stmt.isScoped, Stmt.allScoped_true a, Stmt.allScoped_true b]
  | whileLoop _ body | doWhile body _ | forEach _ _ body | synchronized _ body =>
    simp [Stmt.isScoped, Stmt.allScoped_true body]
  | forLoop init _ update body =>
    simp [Stmt.isScoped, Stmt.allScoped_true init, Stmt.allScoped_true update, Stmt.allScoped_true body]
  | switch _ cases => simp [Stmt.isScoped, SwitchCase.allScoped_true cases]
  | tryCatch body catches finallyBody =>
    simp [Stmt.isScoped, Stmt.allScoped_true body, CatchClause.allScoped_true catches,
      Stmt.bodyScoped_true finallyBody]
  | labeled _ body => simp [Stmt.isScoped, Stmt.isScoped_true body]

/-- Where a variable is declared, all its uses in a list are in scope. -/
@[simp] theorem Stmt.allScoped_true (body : List Stmt) : Stmt.allScoped var true body = true := by
  cases body with
  | nil => rfl
  | cons s rest => simp [Stmt.allScoped, Stmt.isScoped_true s, Stmt.allScoped_true rest]

/-- The same of a list that may be absent. -/
@[simp] theorem Stmt.bodyScoped_true (body : Option (List Stmt)) : Stmt.bodyScoped var true body = true := by
  cases body with
  | none => rfl
  | some body => simp [Stmt.bodyScoped, Stmt.allScoped_true body]

/-- The same of the arms of a switch. -/
@[simp] theorem SwitchCase.allScoped_true (cases : List SwitchCase) :
    SwitchCase.allScoped var true cases = true := by
  match cases with
  | [] => rfl
  | ⟨_, body, _⟩ :: cases =>
    simp [SwitchCase.allScoped, Stmt.allScoped_true body, SwitchCase.allScoped_true cases]

/-- The same of catch clauses. -/
@[simp] theorem CatchClause.allScoped_true (clauses : List CatchClause) :
    CatchClause.allScoped var true clauses = true := by
  match clauses with
  | [] => rfl
  | ⟨_, none, body⟩ :: clauses | ⟨_, some _, body⟩ :: clauses =>
    simp [CatchClause.allScoped, Stmt.allScoped_true body, CatchClause.allScoped_true clauses]

end

/-! ## Variables that are not used -/

/-- A statement that does not use a variable does not declare it. -/
theorem Stmt.declares_of_unused {s : Stmt} (h : count (uses var) s.nodes = 0) :
    s.declares var = false := by
  cases s with
  | declaration ref init => simp_all [Stmt.nodes, Stmt.declares]
  | _ => rfl

/-- The declarations in a list that does not use a variable are of others. -/
theorem Stmt.any_declares_of_unused {body : List Stmt}
    (h : count (uses var) (Stmt.nodesOfList body) = 0) : body.any (·.declares var) = false := by
  induction body with
  | nil => rfl
  | cons s rest ih =>
    simp only [Stmt.nodesOfList, Node.count_append, Nat.add_eq_zero_iff] at h
    simp [Stmt.declares_of_unused h.1, ih h.2]

mutual

/-- A variable that is not used is in scope. -/
theorem Stmt.isScoped_of_unused {declared : Bool} {s : Stmt} (h : count (uses var) s.nodes = 0) :
    s.isScoped var declared = true := by
  cases s with
  | simple t => simpa [Stmt.isScoped, Stmt.nodes] using .inr h
  | declaration ref init => simp_all [Stmt.isScoped, Stmt.nodes]
  | label _ | breakTo _ | continueTo _ | gotoLabel _ | comment _ => rfl
  | block body => simp_all [Stmt.isScoped, Stmt.nodes, Stmt.allScoped_of_unused]
  | ifElse c a b => simp_all [Stmt.isScoped, Stmt.nodes, Stmt.allScoped_of_unused, Expr.isScoped_of_unused]
  | whileLoop c body | doWhile body c | synchronized c body =>
    simp_all [Stmt.isScoped, Stmt.nodes, Stmt.allScoped_of_unused, Expr.isScoped_of_unused]
  | forEach ref e body => simp_all [Stmt.isScoped, Stmt.nodes, Stmt.allScoped_of_unused, Expr.isScoped_of_unused]
  | forLoop init c update body =>
    simp [Stmt.nodes] at h
    obtain ⟨hinit, hcondition, hupdate, hbody⟩ := h
    simp [Stmt.isScoped, Stmt.allScoped_of_unused hinit, Expr.isScoped_of_unused hcondition,
      Stmt.allScoped_of_unused hupdate, Stmt.allScoped_of_unused hbody]
  | switch key cases =>
    simp_all [Stmt.isScoped, Stmt.nodes, SwitchCase.allScoped_of_unused, Expr.isScoped_of_unused]
  | tryCatch body catches finallyBody =>
    simp_all [Stmt.isScoped, Stmt.nodes, Stmt.allScoped_of_unused, CatchClause.allScoped_of_unused,
      Stmt.bodyScoped_of_unused]
  | labeled _ body => simp_all [Stmt.isScoped, Stmt.nodes, Stmt.isScoped_of_unused]

/-- In a list that does not use a variable no use is out of scope. -/
theorem Stmt.allScoped_of_unused {declared : Bool} {body : List Stmt}
    (h : count (uses var) (Stmt.nodesOfList body) = 0) : Stmt.allScoped var declared body = true := by
  cases body with
  | nil => rfl
  | cons s rest =>
    simp only [Stmt.nodesOfList, Node.count_append, Nat.add_eq_zero_iff] at h
    simp [Stmt.allScoped, Stmt.isScoped_of_unused h.1, Stmt.allScoped_of_unused h.2]

/-- The same of a list that may be absent. -/
theorem Stmt.bodyScoped_of_unused {declared : Bool} {body : Option (List Stmt)}
    (h : count (uses var) (Stmt.nodesOfBody body) = 0) : Stmt.bodyScoped var declared body = true := by
  cases body with
  | none => rfl
  | some body => exact Stmt.allScoped_of_unused h

/-- The same of the arms of a switch. -/
theorem SwitchCase.allScoped_of_unused {declared : Bool} {cases : List SwitchCase}
    (h : count (uses var) (SwitchCase.nodesOfList cases) = 0) : SwitchCase.allScoped var declared cases = true := by
  match cases with
  | [] => rfl
  | ⟨_, body, _⟩ :: cases =>
    simp_all [SwitchCase.allScoped, SwitchCase.nodesOfList, Stmt.allScoped_of_unused, SwitchCase.allScoped_of_unused]

/-- The same of catch clauses. -/
theorem CatchClause.allScoped_of_unused {declared : Bool} {clauses : List CatchClause}
    (h : count (uses var) (CatchClause.nodesOfList clauses) = 0) :
    CatchClause.allScoped var declared clauses = true := by
  match clauses with
  | [] => rfl
  | ⟨_, none, body⟩ :: clauses | ⟨_, some _, body⟩ :: clauses =>
    simp_all [CatchClause.allScoped, CatchClause.nodesOfList, Stmt.allScoped_of_unused,
      CatchClause.allScoped_of_unused]

end

end JvmDecompiler
