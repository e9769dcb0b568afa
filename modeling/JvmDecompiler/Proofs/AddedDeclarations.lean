import JvmDecompiler.Proofs.Declaring

/-!
# What placing declarations adds to a body

`BoundBody.declare` adds one declaration for every variable that needs one, and nothing else: without the
declarations that have no value, and with those that have one turned back into assignments, the body is what
it was, up to lines (`BoundBody.declare_exact`).

Declarations are counted. A pending variable that is not declared at a statement of a list goes on to those
lists inside the statement that have all of its uses. As it is used, and the lists inside a statement together
have no more uses than the statement, that is one list (`Stmt.sum_usesIn_scopes_le`): so what a list adds is
the sum of what is added at its statements and inside them.
-/

namespace JvmDecompiler

open Node (count uses)

/-! ## Declarations in a tree -/

/-- The variable that a statement declares by itself. -/
def Stmt.declared : Stmt → List LocalRef
  | .declaration ref _ => [ref]
  | _ => []

/-- The variables declared in a list of nodes. -/
abbrev Node.declarations (nodes : List Node) : List LocalRef := nodes.flatMap (·.stmt?.elim [] Stmt.declared)

open Node (declarations)

/-- A variable that is only named is not declared. -/
@[simp] theorem LocalRef.declarations_nodes (ref : LocalRef) : declarations ref.nodes = [] := rfl

/-- No expression declares a variable. -/
@[simp] theorem Expr.declarations_nodes (e : Expr) : declarations e.nodes = [] :=
  Node.flatMap_eq_nil (fun _ h => by simp [h]) fun s => Expr.stmt_notMem_nodes s e

/-- Nor does one that may be absent. -/
@[simp] theorem Expr.declarations_nodesOfOption (e : Option Expr) :
    declarations (Expr.nodesOfOption e) = [] :=
  Node.flatMap_eq_nil (fun _ h => by simp [h]) fun s => Expr.stmt_notMem_nodesOfOption s e

/-- Whether a node is the declaration of a variable. -/
abbrev Node.introduces (x : Option Nat) : Node → Bool := isStmt fun s => s.declared.any (·.var = x)

open Node (introduces)

variable {x : Option Nat} {vars : List LocalVariable}

/-- What is counted are the variables in the list of declarations. -/
theorem Node.countP_declarations (nodes : List Node) :
    (declarations nodes).countP (·.var = x) = count (introduces x) nodes := by
  induction nodes with
  | nil => rfl
  | cons node nodes ih =>
    rw [declarations, List.flatMap_cons, List.countP_append, ih, count_cons, Nat.add_comm]
    cases node with
    | stmt s => cases s <;> simp [Stmt.declared, List.countP_singleton]
    | simple | expr | localVar => simp

/-- The declarations in two lists add up. -/
@[simp] theorem Stmt.count_introduces_nodesOfList_append (a b : List Stmt) :
    count (introduces x) (nodesOfList (a ++ b)) =
      count (introduces x) (nodesOfList a) + count (introduces x) (nodesOfList b) := by
  induction a with
  | nil => simp [nodesOfList]
  | cons s a ih => simp [nodesOfList, ih, Nat.add_assoc]

/-- A label declares nothing. -/
theorem Stmt.count_introduces_labeled (name : String) (s : Stmt) :
    count (introduces x) (Stmt.labeled name s).nodes = count (introduces x) s.nodes := by
  simp [nodes, declared]

/-! ## Declaring at a statement -/

/-- A statement with a declaration in place of an assignment has one more declaration. -/
theorem Stmt.count_introduces_declareAtStart? {var : Nat} {s s' : Stmt} (h : declareAtStart? var s = some s') :
    count (introduces x) s'.nodes = count (introduces x) s.nodes + if some var = x then 1 else 0 := by
  induction s using declareAtStart?.induct generalizing s' with
  | case1 s =>
    obtain ⟨line, l₁, l₂, ref, value, rfl, href, -, rfl⟩ := exists_of_declarationOf? h
    simp [nodes, declared, href]
  | case2 first init condition update body ih =>
    obtain ⟨first', hfirst, rfl⟩ := Option.map_eq_some_iff.1 h
    simp [nodes, nodesOfList, declared, ih hfirst]
    omega
  | case3 name init condition update body ih =>
    obtain ⟨body', hbody, rfl⟩ := Option.map_eq_some_iff.1 h
    rw [count_introduces_labeled, count_introduces_labeled, ih hbody]
  | case4 | case5 => simp [declareAtStart?] at h

/-- Declaring a variable in front of a statement adds one declaration of it, and none of another. -/
theorem count_introduces_declareOne (p : Stmt × List Stmt) (var : Nat) :
    count (introduces x) (Stmt.nodesOfList (inOrder (declareOne vars p var))) =
      count (introduces x) (Stmt.nodesOfList (inOrder p)) + if some var = x then 1 else 0 := by
  unfold declareOne inOrder
  split
  · rename_i s hs
    simp [Stmt.nodesOfList, Stmt.count_introduces_declareAtStart? hs]
    omega
  · simp [Stmt.nodesOfList, Stmt.nodes, Stmt.declared, LocalVariable.toRef]
    omega

/-- Declaring variables in front of a statement adds one declaration for each. -/
theorem count_introduces_declareBefore (s : Stmt) (declared : List Nat) :
    count (introduces x) (Stmt.nodesOfList (declareBefore vars s declared)) =
      count (introduces x) s.nodes + (declared.map some).count x := by
  have hfold : ∀ p, count (introduces x) (Stmt.nodesOfList (inOrder (declared.foldl (declareOne vars) p))) =
      count (introduces x) (Stmt.nodesOfList (inOrder p)) + (declared.map some).count x := by
    induction declared with
    | nil => exact fun _ => rfl
    | cons var declared ih =>
      intro p
      rw [List.foldl_cons, ih, count_introduces_declareOne, List.map_cons, List.count_cons]
      simp only [beq_iff_eq]
      omega
  rw [declareBefore_eq, hfold]
  simp [inOrder, Stmt.nodesOfList]

/-! ## Declaring inside a statement -/

/-- How many declarations of a variable are added to a list of statements that has some pending ones: one, if
the list uses the variable. -/
def placed (x : Option Nat) (pending : List Nat) (body : List Stmt) : Nat :=
  ((pending.filter fun var => Stmt.usesIn var body ≠ 0).map some).count x

/-- In a list of present values the absent one does not occur. -/
theorem count_map_some_none (l : List Nat) : (l.map some).count none = 0 := by
  simp [List.count_eq_zero]

/-- A value occurs among present ones as often as before. -/
theorem count_map_some (l : List Nat) (var : Nat) : (l.map some).count (some var) = l.count var :=
  List.count_map_of_injective l some (Option.some_injective _) var

/-- A value that passes a filter occurs as often behind it, and any other not at all. -/
theorem count_filter_eq (p : Nat → Bool) (l : List Nat) (var : Nat) :
    (l.filter p).count var = if p var then l.count var else 0 := by
  split
  · exact List.count_filter ‹_›
  · exact List.count_eq_zero.2 fun h => absurd (List.mem_filter.1 h).2 ‹_›

/-- For an unbound variable no declaration is placed. -/
theorem placed_none (pending : List Nat) (body : List Stmt) : placed none pending body = 0 :=
  count_map_some_none _

/-- A variable is declared as often as it is pending, if the list uses it at all. -/
theorem placed_some (var : Nat) (pending : List Nat) (body : List Stmt) :
    placed (some var) pending body = if Stmt.usesIn var body = 0 then 0 else pending.count var := by
  rw [placed, count_map_some, count_filter_eq]
  simp

/-- The lists inside a statement have no more uses than the statement. -/
theorem Stmt.sum_usesIn_scopes_le (var : Nat) (s : Stmt) :
    (s.scopes.map (usesIn var)).sum ≤ count (uses var) s.nodes := by
  -- the bodies of arms are all there is to count in a switch; in catch clauses the variables come in addition
  have hcases : ∀ cases : List SwitchCase, (cases.map fun c => usesIn var c.body).sum =
      count (uses var) (SwitchCase.nodesOfList cases) := by
    intro cases
    induction cases with
    | nil => rfl
    | cons c cases ih =>
      obtain ⟨_, body, _⟩ := c
      rw [List.map_cons, List.sum_cons, ih, SwitchCase.nodesOfList, Node.count_append, usesIn]
  have hcatches : ∀ clauses : List CatchClause, (clauses.map fun c => usesIn var c.body).sum ≤
      count (uses var) (CatchClause.nodesOfList clauses) := by
    intro clauses
    induction clauses with
    | nil => exact Nat.le_refl _
    | cons c clauses ih =>
      obtain ⟨_, ref, body⟩ := c
      rw [List.map_cons, List.sum_cons, usesIn]
      cases ref <;> simp only [CatchClause.nodesOfList, Node.count_append] <;> omega
  cases s with
  | simple | declaration | label | breakTo | continueTo | gotoLabel | comment => exact Nat.zero_le _
  | labeled name s => exact Stmt.sum_usesIn_scopes_le var s
  | switch key cases =>
    have h := hcases cases
    simp [scopes, childLists, nodes, Function.comp_def, h]
  | tryCatch body catches finallyBody =>
    have h := hcatches catches
    cases finallyBody <;> simp [scopes, childLists, nodes, Function.comp_def, usesIn, nodesOfBody] at h ⊢ <;> omega
  | block | ifElse | whileLoop | doWhile | forLoop | forEach | synchronized =>
    simp [scopes, childLists, nodes, usesIn]
    try omega

/-- Of several numbers only one can be what they add up to at most. -/
theorem sum_map_ite_eq {l : List Nat} {n : Nat} (hn : n ≠ 0) (hmem : n ∈ l) (hsum : l.sum ≤ n) (k : Nat) :
    (l.map fun m => if m = n then k else 0).sum = k := by
  -- exactly one summand is `n`, since a second one would make the sum too large
  induction l with
  | nil => cases hmem
  | cons m l ih =>
    rw [List.sum_cons] at hsum
    rw [List.map_cons, List.sum_cons]
    by_cases hm : m = n
    · have hrest : l.map (fun m => if m = n then k else 0) = l.map fun _ => 0 :=
        List.map_congr_left fun m' hm' => if_neg fun heq => by
          have := List.single_le_sum (fun _ _ => Nat.zero_le _) _ hm'
          omega
      rw [if_pos hm, hrest]
      simp
    · rw [if_neg hm, Nat.zero_add]
      exact ih ((List.mem_cons.1 hmem).resolve_left (Ne.symm hm)) (by omega)

/-- The variables that are declared inside a statement are each declared in one list. -/
theorem sum_placed_nestedIn (pending : List Nat) (s : Stmt) (rest : List Stmt) :
    (s.scopes.map fun body =>
      placed x (enclosedIn (fun var => count (uses var) s.nodes) (nestedIn pending s rest) body) body).sum =
    ((nestedIn pending s rest).map some).count x := by
  -- an unbound variable is never placed; a bound one is, in the one scope that has all its uses
  cases x with
  | none => simp [placed_none, count_map_some_none]
  | some var =>
    have henclosed : ∀ body, placed (some var)
        (enclosedIn (fun var => count (uses var) s.nodes) (nestedIn pending s rest) body) body =
        if Stmt.usesIn var body = count (uses var) s.nodes then (nestedIn pending s rest).count var else 0 := by
      -- the uses in a scope are those in the statement for exactly the scope in which the variable is declared
      intro body
      rw [placed_some, enclosedIn, count_filter_eq, Stmt.usesIn]
      by_cases hmem : var ∈ nestedIn pending s rest
      · have hused := (mem_usedBy.1 (mem_nestedIn.1 hmem).1).2
        by_cases heq : count (uses var) (Stmt.nodesOfList body) = count (uses var) s.nodes
        · simp [heq, hused]
        · simp [heq]
      · simp [List.count_eq_zero.2 hmem]
    rw [count_map_some, List.map_congr_left fun body _ => henclosed body]
    by_cases hmem : var ∈ nestedIn pending s rest
    · obtain ⟨hin, -, body, hbody, huses⟩ := mem_nestedIn.1 hmem
      have hsum := sum_map_ite_eq (mem_usedBy.1 hin).2 (huses ▸ List.mem_map_of_mem hbody)
        (s.sum_usesIn_scopes_le var) ((nestedIn pending s rest).count var)
      rw [List.map_map] at hsum
      exact hsum
    · simp [List.count_eq_zero.2 hmem]

/-- The variables that a list uses are declared at its first statement, inside it or behind it. -/
theorem placed_cons (pending : List Nat) (s : Stmt) (rest : List Stmt) :
    placed x pending (s :: rest) =
      ((nestedIn pending s rest).map some).count x +
        (((usedBy pending s).filter (!(nestedIn pending s rest).contains ·)).map some).count x +
      placed x (pending.filter (!(usedBy pending s).contains ·)) rest := by
  -- a variable that is pending and used in `s` is declared in front of it or inside, and is gone for the rest
  cases x with
  | none => simp [placed_none, count_map_some_none]
  | some var =>
    have hcount : (usedBy pending s).count var =
        if count (uses var) s.nodes = 0 then 0 else pending.count var := by
      rw [usedBy, count_filter_eq]
      simp
    have huses : Stmt.usesIn var (s :: rest) = count (uses var) s.nodes + Stmt.usesIn var rest := by
      simp [Stmt.usesIn, Stmt.nodesOfList]
    have hin : var ∈ usedBy pending s ↔ var ∈ pending ∧ count (uses var) s.nodes ≠ 0 := mem_usedBy
    simp only [placed_some, count_map_some, count_filter_eq, huses, hcount, Bool.not_eq_true',
      List.contains_eq_mem, decide_eq_false_iff_not]
    -- declared inside: it is not used behind `s`, so that nothing is placed there
    by_cases hmem : var ∈ nestedIn pending s rest
    · obtain ⟨hused, hrest, -⟩ := mem_nestedIn.1 hmem
      have hnested : (nestedIn pending s rest).count var = (usedBy pending s).count var := by
        unfold nestedIn at hmem ⊢
        obtain ⟨hmem, hscope⟩ := List.mem_filter.1 hmem
        rw [count_filter_eq, if_pos hscope, count_filter_eq, if_pos (List.mem_filter.1 hmem).2]
      rw [hnested, hcount]
      simp [hmem, hrest]
    · rw [List.count_eq_zero.2 hmem]
      by_cases hpending : var ∈ pending
      · by_cases hused : count (uses var) s.nodes = 0 <;> simp [hmem, hin, hpending, hused]
      · simp [List.count_eq_zero.2 hpending]

section Inside

mutual

/-- Inside a statement, declarations are added to the lists that have all uses of a variable. -/
theorem count_introduces_placeInside {total : Nat → Nat} {pending : List Nat} (s : Stmt) :
    count (introduces x) (placeInside vars total pending s).nodes = count (introduces x) s.nodes +
      (s.scopes.map fun body => placed x (enclosedIn total pending body) body).sum := by
  cases s with
  | simple | declaration | label | breakTo | continueTo | gotoLabel | comment => rfl
  | block body | whileLoop c body | doWhile body c | synchronized c body | forEach ref c body
  | forLoop init c update body =>
    simp [placeInside, Stmt.nodes, Stmt.declared, Stmt.scopes, Stmt.childLists, count_introduces_placeList body,
      Nat.add_assoc]
  | ifElse c a b =>
    simp [placeInside, Stmt.nodes, Stmt.declared, Stmt.scopes, Stmt.childLists, count_introduces_placeList a,
      count_introduces_placeList b]
    omega
  | switch key cases =>
    simp [placeInside, Stmt.nodes, Stmt.declared, Stmt.scopes, Stmt.childLists, count_introduces_placeCases cases,
      Function.comp_def]
  | tryCatch body catches finallyBody =>
    simp [placeInside, Stmt.nodes, Stmt.declared, Stmt.scopes, Stmt.childLists, count_introduces_placeList body,
      count_introduces_placeCatches catches, count_introduces_placeFinally finallyBody, Function.comp_def]
    omega
  | labeled name body =>
    rw [placeInside, Stmt.count_introduces_labeled, Stmt.count_introduces_labeled, count_introduces_placeInside body,
      Stmt.scopes]

/-- A list gets a declaration for each pending variable that it uses. -/
theorem count_introduces_placeList {pending : List Nat} (body : List Stmt) :
    count (introduces x) (Stmt.nodesOfList (placeList vars pending body)) =
      count (introduces x) (Stmt.nodesOfList body) + placed x pending body := by
  cases body with
  | nil => cases x <;> simp [placeList, placed_none, placed_some, Stmt.usesIn, Stmt.nodesOfList]
  | cons s rest =>
    rw [placeList_cons, Stmt.count_introduces_nodesOfList_append, count_introduces_declareBefore,
      count_introduces_placeInside s, count_introduces_placeList rest, sum_placed_nestedIn, placed_cons,
      Stmt.nodesOfList, Node.count_append]
    omega

/-- What is placed in the arms of a switch is what is placed in each of them. -/
theorem count_introduces_placeCases {total : Nat → Nat} {pending : List Nat} (cases : List SwitchCase) :
    count (introduces x) (SwitchCase.nodesOfList (placeCases vars total pending cases)) =
      count (introduces x) (SwitchCase.nodesOfList cases) +
        (cases.map fun c => placed x (enclosedIn total pending c.body) c.body).sum := by
  match cases with
  | [] => rfl
  | ⟨_, body, _⟩ :: cases =>
    simp [placeCases, SwitchCase.nodesOfList, count_introduces_placeList body, count_introduces_placeCases cases]
    omega

/-- What is placed in the clauses of a try statement is what is placed in each of them. -/
theorem count_introduces_placeCatches {total : Nat → Nat} {pending : List Nat} (clauses : List CatchClause) :
    count (introduces x) (CatchClause.nodesOfList (placeCatches vars total pending clauses)) =
      count (introduces x) (CatchClause.nodesOfList clauses) +
        (clauses.map fun c => placed x (enclosedIn total pending c.body) c.body).sum := by
  match clauses with
  | [] => rfl
  | ⟨_, none, body⟩ :: clauses | ⟨_, some _, body⟩ :: clauses =>
    simp [placeCatches, CatchClause.nodesOfList, count_introduces_placeList body,
      count_introduces_placeCatches clauses]
    omega

/-- What is placed in a `finally` part is what is placed in its list. -/
theorem count_introduces_placeFinally {total : Nat → Nat} {pending : List Nat} (body : Option (List Stmt)) :
    count (introduces x) (Stmt.nodesOfBody (placeFinally vars total pending body)) =
      count (introduces x) (Stmt.nodesOfBody body) +
        (body.toList.map fun body => placed x (enclosedIn total pending body) body).sum := by
  match body with
  | none => rfl
  | some body => simp [placeFinally, Stmt.nodesOfBody, count_introduces_placeList body]

end

end Inside

/-! ## Taking declarations away again -/

/-- Whether a statement declares a variable without a value. -/
def Stmt.isBareDeclaration : Stmt → Bool
  | .declaration _ none => true
  | _ => false

namespace Transform

/-- Forget lines. -/
def eraseLines : Transform Id := { erasePositions with localVar := pure }

/-- Delete declarations without a value, and turn those with one into assignments. -/
def undeclare : Transform Id where
  stmt
    | .declaration ref (some value) =>
      pure (.simple (.expr none (.assign none (.localVar none ref) value)))
    | s => pure s
  body b := pure (b.filter (!·.isBareDeclaration))

/-- To delete declarations leaves expressions as they are. -/
theorem undeclare_onExpr (e : Expr) : undeclare.onExpr e = e := onExpr_eq_self (fun _ => rfl) (fun _ => rfl) e

/-- To delete declarations leaves simple statements as they are. -/
theorem undeclare_onSimple (s : SimpleStmt) : undeclare.onSimple s = s :=
  onSimple_eq_self (fun _ => rfl) (fun _ => rfl) (fun _ => rfl) s

/-- A line that is passed on is forgotten with the others. -/
theorem eraseLines_onExpr_orLine (e : Expr) (line : SourceLine) :
    eraseLines.onExpr (e.orLine line) = eraseLines.onExpr e := by
  unfold Expr.orLine
  split
  · cases e <;> rfl
  · rfl

end Transform

open Transform (eraseLines undeclare)

/-- A statement without declarations, up to lines. -/
def Stmt.restored (s : Stmt) : Stmt := Id.run (eraseLines.onStmt (Id.run (undeclare.onStmt s)))

/-- A statement list without declarations, up to lines. -/
def Stmt.restoredList (body : List Stmt) : List Stmt :=
  Id.run (eraseLines.onBody (Id.run (undeclare.onBody body)))

namespace Stmt

/-- To delete declarations inside a statement leaves it a bare declaration if it was one. -/
theorem isBareDeclaration_onStmt (s : Stmt) : isBareDeclaration (undeclare.onStmt s) = s.isBareDeclaration := by
  cases s with
  | declaration ref init => cases init <;> rfl
  | _ => rfl

/-- To delete declarations goes through a list statement by statement, and drops the bare declarations. -/
theorem undeclare_onBody_cons (s : Stmt) (body : List Stmt) :
    Id.run (undeclare.onBody (s :: body)) =
      (if s.isBareDeclaration then [] else [Id.run (undeclare.onStmt s)]) ++
        Id.run (undeclare.onBody body) := by
  change (undeclare.onStmt s :: undeclare.onStmts body).filter (!·.isBareDeclaration) = _
  rw [List.filter_cons, isBareDeclaration_onStmt]
  cases s.isBareDeclaration <;> rfl

/-- A list is restored statement by statement. -/
theorem restoredList_cons (s : Stmt) (body : List Stmt) :
    restoredList (s :: body) =
      (if s.isBareDeclaration then [] else [s.restored]) ++ restoredList body := by
  unfold restoredList
  rw [undeclare_onBody_cons]
  cases s.isBareDeclaration <;> rfl

/-- Two lists are restored one after the other. -/
theorem restoredList_append (a b : List Stmt) : restoredList (a ++ b) = restoredList a ++ restoredList b := by
  induction a with
  | nil => rfl
  | cons s a ih => rw [List.cons_append, restoredList_cons, restoredList_cons, ih, List.append_assoc]

/-- A switch is restored by restoring its arms. -/
theorem restored_switch (key : Expr) (cases : List SwitchCase) :
    (Stmt.switch key cases).restored = .switch (eraseLines.onExpr (undeclare.onExpr key))
      (cases.map fun c => { c with body := restoredList c.body }) := by
  have hswitch : (Stmt.switch key cases).restored = .switch (eraseLines.onExpr (undeclare.onExpr key))
      (eraseLines.onCases (undeclare.onCases cases)) := rfl
  rw [hswitch, Transform.onCases_eq_map, Transform.onCases_eq_map, List.map_map]
  rfl

/-- A try statement is restored by restoring its parts. -/
theorem restored_tryCatch (body : List Stmt) (catches : List CatchClause) (finallyBody : Option (List Stmt)) :
    (Stmt.tryCatch body catches finallyBody).restored = .tryCatch (restoredList body)
      (catches.map fun c => { c with body := restoredList c.body }) (finallyBody.map restoredList) := by
  have htry : (Stmt.tryCatch body catches finallyBody).restored = .tryCatch (restoredList body)
      (eraseLines.onCatches (eraseLines.onCatchVars (undeclare.onCatches (undeclare.onCatchVars catches) catches))
        (undeclare.onCatches (undeclare.onCatchVars catches) catches)) (finallyBody.map restoredList) := by
    cases finallyBody <;> rfl
  rw [htry, Transform.onCatches_onCatchVars fun _ => rfl, Transform.onCatches_onCatchVars fun _ => rfl,
    List.map_map]
  rfl

/-- The declaration in place of an assignment is turned back into it. -/
theorem restored_declareAtStart? {var : Nat} {s s' : Stmt} (h : declareAtStart? var s = some s') :
    s'.restored = s.restored ∧ s'.isBareDeclaration = false ∧ s.isBareDeclaration = false := by
  induction s using declareAtStart?.induct generalizing s' with
  | case1 s =>
    obtain ⟨line, l₁, l₂, ref, value, rfl, -, -, rfl⟩ := exists_of_declarationOf? h
    refine ⟨?_, rfl, rfl⟩
    have hvalue : eraseLines.onExpr (undeclare.onExpr (value.orLine line)) =
        eraseLines.onExpr (undeclare.onExpr value) := by
      rw [Transform.undeclare_onExpr, Transform.undeclare_onExpr, Transform.eraseLines_onExpr_orLine]
    exact congrArg (fun value => simple (.expr none (.assign none (.localVar none ref) value))) hvalue
  | case2 first init condition update body ih =>
    obtain ⟨first', hfirst, rfl⟩ := Option.map_eq_some_iff.1 h
    obtain ⟨hrestored, hbare', hbare⟩ := ih hfirst
    refine ⟨?_, rfl, rfl⟩
    have hinit : restoredList (first' :: init) = restoredList (first :: init) := by
      rw [restoredList_cons, restoredList_cons, hrestored, hbare', hbare]
    exact congrArg (forLoop · _ _ _) hinit
  | case3 name init condition update body ih =>
    obtain ⟨body', hbody, rfl⟩ := Option.map_eq_some_iff.1 h
    exact ⟨congrArg (labeled name) (ih hbody).1, rfl, rfl⟩
  | case4 | case5 => simp [declareAtStart?] at h

end Stmt

open Stmt (restoredList)

/-- A declaration in front of a statement, or folded into it, is gone when it is restored. -/
theorem restoredList_declareOne (p : Stmt × List Stmt) (var : Nat) :
    restoredList (inOrder (declareOne vars p var)) = restoredList (inOrder p) := by
  unfold declareOne inOrder
  split
  · rename_i s hs
    obtain ⟨hrestored, hbare', hbare⟩ := Stmt.restored_declareAtStart? hs
    simp only [Stmt.restoredList_append, Stmt.restoredList_cons, hrestored, hbare', hbare]
  · simp only [Stmt.restoredList_append, Stmt.restoredList_cons, Stmt.isBareDeclaration, if_true,
      List.nil_append, List.append_assoc]
    rfl

/-- So are several declarations. -/
theorem restoredList_declareBefore (s : Stmt) (declared : List Nat) :
    restoredList (declareBefore vars s declared) = restoredList [s] := by
  have hfold : ∀ p, restoredList (inOrder (declared.foldl (declareOne vars) p)) = restoredList (inOrder p) := by
    induction declared with
    | nil => exact fun _ => rfl
    | cons var declared ih => exact fun p => (ih _).trans (restoredList_declareOne p var)
  rw [declareBefore_eq, hfold]
  rfl

/-- Placing declarations inside a statement leaves it a bare declaration if it was one. -/
theorem isBareDeclaration_placeInside (total : Nat → Nat) (pending : List Nat) (s : Stmt) :
    (placeInside vars total pending s).isBareDeclaration = s.isBareDeclaration := by
  cases s <;> rfl

mutual

/-- Declaring variables inside a statement adds nothing but declarations. -/
theorem restored_placeInside {total : Nat → Nat} {pending : List Nat} (s : Stmt) :
    (placeInside vars total pending s).restored = s.restored := by
  -- the lists inside are placed with other variables, which makes no difference once they are restored
  cases s with
  | simple | declaration | label | breakTo | continueTo | gotoLabel | comment => rfl
  | block body => exact congrArg Stmt.block (restoredList_placeList body)
  | ifElse c a b => exact congrArg₂ (Stmt.ifElse _) (restoredList_placeList a) (restoredList_placeList b)
  | whileLoop c body => exact congrArg (Stmt.whileLoop _) (restoredList_placeList body)
  | doWhile body c => exact congrArg (Stmt.doWhile · _) (restoredList_placeList body)
  | forLoop init c update body => exact congrArg (Stmt.forLoop _ _ _) (restoredList_placeList body)
  | forEach ref c body => exact congrArg (Stmt.forEach _ _) (restoredList_placeList body)
  | synchronized c body => exact congrArg (Stmt.synchronized _) (restoredList_placeList body)
  | switch key cases =>
    rw [placeInside, Stmt.restored_switch, Stmt.restored_switch, restoredList_placeCases cases]
  | tryCatch body catches finallyBody =>
    rw [placeInside, Stmt.restored_tryCatch, Stmt.restored_tryCatch, restoredList_placeList body,
      restoredList_placeCatches catches, restoredList_placeFinally finallyBody]
  | labeled name body => exact congrArg (Stmt.labeled name) (restored_placeInside body)

/-- To place declarations in a list and to take them back gives the list. -/
theorem restoredList_placeList {pending : List Nat} (body : List Stmt) :
    restoredList (placeList vars pending body) = restoredList body := by
  cases body with
  | nil => simp only [placeList]
  | cons s rest =>
    rw [placeList_cons, Stmt.restoredList_append, restoredList_declareBefore, restoredList_placeList rest,
      Stmt.restoredList_cons, Stmt.restoredList_cons, isBareDeclaration_placeInside, restored_placeInside s,
      List.append_assoc]
    rfl

/-- The same of the arms of a switch. -/
theorem restoredList_placeCases {total : Nat → Nat} {pending : List Nat} (cases : List SwitchCase) :
    ((placeCases vars total pending cases).map fun c => { c with body := restoredList c.body }) =
      cases.map fun c => { c with body := restoredList c.body } := by
  match cases with
  | [] => simp only [placeCases]
  | ⟨_, body, _⟩ :: cases =>
    simp only [placeCases, List.map_cons, restoredList_placeList body, restoredList_placeCases cases]

/-- The same of the clauses of a try statement. -/
theorem restoredList_placeCatches {total : Nat → Nat} {pending : List Nat} (clauses : List CatchClause) :
    ((placeCatches vars total pending clauses).map fun c => { c with body := restoredList c.body }) =
      clauses.map fun c => { c with body := restoredList c.body } := by
  match clauses with
  | [] => simp only [placeCatches]
  | ⟨_, _, body⟩ :: clauses =>
    simp only [placeCatches, List.map_cons, restoredList_placeList body, restoredList_placeCatches clauses]

/-- The same of a `finally` part. -/
theorem restoredList_placeFinally {total : Nat → Nat} {pending : List Nat} (body : Option (List Stmt)) :
    (placeFinally vars total pending body).map restoredList = body.map restoredList := by
  match body with
  | none => simp only [placeFinally]
  | some body => simp only [placeFinally, Option.map_some, restoredList_placeList body]

end

/-! ## A body without declarations -/

mutual

/-- Without declarations there is nothing to take away. -/
theorem Stmt.undeclare_onStmt {s : Stmt} (h : declarations s.nodes = []) : Id.run (undeclare.onStmt s) = s := by
  cases s with
  | label | breakTo | continueTo | gotoLabel | comment => rfl
  | simple s => exact congrArg simple (Transform.undeclare_onSimple s)
  | declaration ref init => simp [nodes, declared] at h
  | block body => exact congrArg block (Stmt.undeclare_onBody h)
  | ifElse c a b =>
    have hlists : declarations (nodesOfList a) = [] ∧ declarations (nodesOfList b) = [] := by
      simpa [nodes, declared] using h
    have hc := Transform.undeclare_onExpr c
    have ha := Stmt.undeclare_onBody hlists.1
    have hb := Stmt.undeclare_onBody hlists.2
    exact congr (congrArg₂ ifElse hc ha) hb
  | whileLoop c body =>
    have hbody : declarations (nodesOfList body) = [] := by simpa [nodes, declared] using h
    exact congrArg₂ whileLoop (Transform.undeclare_onExpr c) (Stmt.undeclare_onBody hbody)
  | doWhile body c =>
    have hbody : declarations (nodesOfList body) = [] := by simpa [nodes, declared] using h
    exact congrArg₂ doWhile (Stmt.undeclare_onBody hbody) (Transform.undeclare_onExpr c)
  | synchronized c body =>
    have hbody : declarations (nodesOfList body) = [] := by simpa [nodes, declared] using h
    exact congrArg₂ synchronized (Transform.undeclare_onExpr c) (Stmt.undeclare_onBody hbody)
  | forEach ref c body =>
    have hbody : declarations (nodesOfList body) = [] := by simpa [nodes, declared] using h
    exact congrArg₂ (forEach ref) (Transform.undeclare_onExpr c) (Stmt.undeclare_onBody hbody)
  | forLoop init c update body =>
    have hlists : declarations (nodesOfList init) = [] ∧ declarations (nodesOfList update) = [] ∧
        declarations (nodesOfList body) = [] := by
      simpa [nodes, declared] using h
    have hinit := Stmt.undeclare_onBody hlists.1
    have hupdate := Stmt.undeclare_onBody hlists.2.1
    have hbody := Stmt.undeclare_onBody hlists.2.2
    exact congr (congr (congrArg₂ forLoop hinit (Transform.undeclare_onExpr c)) hupdate) hbody
  | switch key cases =>
    have hcases : declarations (SwitchCase.nodesOfList cases) = [] := by simpa [nodes, declared] using h
    exact congrArg₂ switch (Transform.undeclare_onExpr key) (Stmt.undeclare_onCases hcases)
  | tryCatch body catches finallyBody =>
    have hlists : declarations (nodesOfList body) = [] ∧
        declarations (CatchClause.nodesOfList catches) = [] ∧ declarations (nodesOfBody finallyBody) = [] := by
      simpa [nodes, declared] using h
    have hbody := Stmt.undeclare_onBody hlists.1
    have hcatches := (Transform.onCatches_onCatchVars (fun _ => rfl) catches).trans
      (Stmt.undeclare_catches hlists.2.1)
    have hfinally := Stmt.undeclare_onFinally hlists.2.2
    exact congr (congrArg₂ tryCatch hbody hcatches) hfinally
  | labeled name s =>
    have hs : declarations s.nodes = [] := by simpa [nodes, declared] using h
    exact congrArg (labeled name) (Stmt.undeclare_onStmt hs)

/-- A list without declarations has none to delete. -/
theorem Stmt.undeclare_onBody {body : List Stmt} (h : declarations (nodesOfList body) = []) :
    Id.run (undeclare.onBody body) = body := by
  cases body with
  | nil => rfl
  | cons s rest =>
    rw [nodesOfList, declarations, List.flatMap_append, List.append_eq_nil_iff] at h
    have hbare : s.isBareDeclaration = false := by
      cases s with
      | declaration => simp [nodes, declared] at h
      | _ => rfl
    rw [undeclare_onBody_cons, hbare, Stmt.undeclare_onStmt h.1, Stmt.undeclare_onBody h.2]
    rfl

/-- Arms of a switch without declarations have none to delete. -/
theorem Stmt.undeclare_onCases {cases : List SwitchCase}
    (h : declarations (SwitchCase.nodesOfList cases) = []) : Id.run (undeclare.onCases cases) = cases := by
  match cases with
  | [] => rfl
  | ⟨labels, body, fallsThrough⟩ :: cases =>
    rw [SwitchCase.nodesOfList, declarations, List.flatMap_append, List.append_eq_nil_iff] at h
    have hbody := Stmt.undeclare_onBody h.1
    exact congrArg₂ List.cons (congrArg (SwitchCase.mk labels · fallsThrough) hbody)
      (Stmt.undeclare_onCases h.2)

/-- Clauses without declarations have none to delete. -/
theorem Stmt.undeclare_catches {clauses : List CatchClause}
    (h : declarations (CatchClause.nodesOfList clauses) = []) :
    (clauses.map fun c => { c with body := undeclare.body (undeclare.onStmts c.body) }) = clauses := by
  match clauses with
  | [] => rfl
  | ⟨classes, var, body⟩ :: clauses =>
    have hlists : declarations (nodesOfList body) = [] ∧ declarations (CatchClause.nodesOfList clauses) = [] := by
      cases var <;> simpa [CatchClause.nodesOfList] using h
    have hbody := Stmt.undeclare_onBody hlists.1
    exact congrArg₂ List.cons (congrArg (CatchClause.mk classes var) hbody) (Stmt.undeclare_catches hlists.2)

/-- A `finally` part without declarations has none to delete. -/
theorem Stmt.undeclare_onFinally {body : Option (List Stmt)} (h : declarations (nodesOfBody body) = []) :
    Id.run (undeclare.onFinally body) = body := by
  match body with
  | none => rfl
  | some body => exact congrArg some (Stmt.undeclare_onBody h)

end

/-- A variable that has been declared counts as such. -/
theorem LocalVariable.isDeclared_declared (v : LocalVariable) : v.declared.isDeclared = true := by
  have hbit : ∀ flags bit : UInt8, (flags ||| bit) &&& bit = bit := by
    intro flags bit
    apply UInt8.eq_of_toBitVec_eq
    rw [UInt8.toBitVec_and, UInt8.toBitVec_or]
    ext i
    simp only [BitVec.getElem_and, BitVec.getElem_or]
    grind
  rw [isDeclared, declared, hbit]
  rfl

namespace BoundBody

/-- A variable that is used and that neither is declared nor stands in a catch clause or a loop through
elements, which declare it. -/
def NeedsDeclaration (b : BoundBody) (var : Nat) : Prop :=
  ∃ v, b.locals[var]? = some v ∧ v.isDeclared = false ∧ var ∉ b.structuralVars ∧
    count (uses var) (Stmt.nodesOfList b.statements) ≠ 0

/-- The pending variables that are used are those that need a declaration. -/
theorem mem_pending_iff {b : BoundBody} {var : Nat} :
    var ∈ b.pending ∧ count (uses var) (Stmt.nodesOfList b.statements) ≠ 0 ↔ b.NeedsDeclaration var := by
  cases hv : b.locals[var]? with
  | none =>
    have hnot : var ∉ b.pending := fun hmem => by
      obtain ⟨⟨v, i⟩, hv', rfl⟩ := List.mem_map.1 hmem
      rw [List.mem_zipIdx_iff_getElem?.1 (List.mem_filter.1 hv').1] at hv
      cases hv
    simp [NeedsDeclaration, hv, hnot]
  | some v => simp [NeedsDeclaration, hv, mem_pending hv, and_assoc]

/-- A body without declarations gets one for every variable that needs one, and nothing else: taking the
declarations away again leaves the body as it was, up to lines. -/
theorem declare_exact (b : BoundBody) (h : declarations (Stmt.nodesOfList b.statements) = []) :
    (∀ var, b.NeedsDeclaration var →
      (declarations (Stmt.nodesOfList b.declare.statements)).countP (·.var = some var) = 1 ∧
      ∃ v, b.declare.locals[var]? = some v ∧ v.isDeclared = true) ∧
    (∀ ref ∈ declarations (Stmt.nodesOfList b.declare.statements),
      ∃ var, ref.var = some var ∧ b.NeedsDeclaration var) ∧
    Id.run (eraseLines.onBody (Id.run (undeclare.onBody b.declare.statements))) =
      Id.run (eraseLines.onBody b.statements) := by
  -- how often a variable is declared is counted for all of them at once, the unbound one included
  have hcount : ∀ x, (declarations (Stmt.nodesOfList b.declare.statements)).countP (·.var = x) =
      placed x b.pending b.statements := by
    intro x
    have hplace := @count_introduces_placeList x b.locals b.pending b.statements
    rw [← Node.countP_declarations, ← Node.countP_declarations, h, List.countP_nil, Nat.zero_add] at hplace
    exact hplace
  refine ⟨fun var hvar => ?_, fun ref href => ?_, ?_⟩
  · obtain ⟨hpending, hused⟩ := mem_pending_iff.2 hvar
    constructor
    · rw [hcount, placed_some, Stmt.usesIn, if_neg hused]
      exact List.count_eq_one_of_mem b.nodup_pending hpending
    · obtain ⟨v, hv, -⟩ := hvar
      refine ⟨v.declared, ?_, v.isDeclared_declared⟩
      simp [declare, List.getElem?_zipIdx, hv, hused]
  · have hpos : placed ref.var b.pending b.statements ≠ 0 := by
      rw [← hcount]
      exact Nat.ne_of_gt (List.countP_pos_iff.2 ⟨ref, href, decide_eq_true rfl⟩)
    cases hvar : ref.var with
    | none =>
      rw [hvar, placed_none] at hpos
      exact absurd rfl hpos
    | some var =>
      rw [hvar, placed_some] at hpos
      have hused : Stmt.usesIn var b.statements ≠ 0 := fun hzero => hpos (if_pos hzero)
      rw [if_neg hused] at hpos
      exact ⟨var, rfl, mem_pending_iff.1 ⟨List.count_pos_iff.1 (Nat.pos_of_ne_zero hpos), hused⟩⟩
  -- taking the declarations back gives the list, and there were none to begin with
  · have hrestored := @restoredList_placeList b.locals b.pending b.statements
    exact hrestored.trans (congrArg (fun body => Id.run (eraseLines.onBody body)) (Stmt.undeclare_onBody h))

/-- A variable with a value in front of a branch, and one that both arms of the branch assign to. -/
def branching : BoundBody where
  statements :=
    let x : LocalRef := ⟨0, 2, "x", .int, some 0⟩
    let y : LocalRef := ⟨1, 8, "y", .int, some 1⟩
    let set (ref : LocalRef) (value : Int32) : Stmt :=
      .simple (.expr (some 7) (.assign none (.localVar none ref) (.literal none (.int value none))))
    [set x 0, .ifElse (.compare none .eq (.localVar none x) (.literal none (.int 0 none))) [set y 1] [set y 2],
      .simple (.return none (some (.localVar none y)))]
  locals := [{ (default : LocalVariable) with name := "x" }, { (default : LocalVariable) with name := "y" }]

/-- One variable is declared where it gets its value, and the other in front of the branch. -/
theorem declare_exact_branching :
    declarations (Stmt.nodesOfList branching.statements) = [] ∧
    branching.NeedsDeclaration 0 ∧ branching.NeedsDeclaration 1 ∧
    (declarations (Stmt.nodesOfList branching.declare.statements)).map (·.var) = [some 0, some 1] ∧
    (declarations (Stmt.nodesOfList branching.declare.statements)).countP (·.var = some 1) = 1 ∧
    Id.run (eraseLines.onBody (Id.run (undeclare.onBody branching.declare.statements))) =
      Id.run (eraseLines.onBody branching.statements) := by
  have hnone : declarations (Stmt.nodesOfList branching.statements) = [] := by cbv
  have hx : branching.NeedsDeclaration 0 := ⟨_, rfl, by decide, by decide, by cbv⟩
  have hy : branching.NeedsDeclaration 1 := ⟨_, rfl, by decide, by decide, by cbv⟩
  have hdeclared : (declarations (Stmt.nodesOfList branching.declare.statements)).map (·.var) =
      [some 0, some 1] := by cbv
  obtain ⟨hcount, -, hrestored⟩ := declare_exact branching hnone
  exact ⟨hnone, hx, hy, hdeclared, (hcount 1 hy).1, hrestored⟩

end BoundBody

end JvmDecompiler
