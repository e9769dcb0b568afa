import JvmDecompiler.Proofs.Binding
import JvmDecompiler.Proofs.Scope
import Mathlib

/-!
# Declarations are in scope

Which variables `BoundBody.declare` leaves with uses outside the scope of their declarations.
-/

namespace JvmDecompiler

open Node (count uses)

variable {var other : Nat}

/-- Only the evaluation of an assignment is an assignment. -/
theorem SimpleStmt.exists_of_asAssign? {s : SimpleStmt} {target value : Expr}
    (h : s.asAssign? = some (target, value)) : ∃ line l, s = .expr line (.assign l target value) := by
  unfold asAssign? at h
  split at h
  · cases h
    exact ⟨_, _, rfl⟩
  · cases h

namespace Stmt

/-! ## Declaring where a statement starts -/

/-- What becomes a declaration is an assignment to the variable of a value that does not use it. -/
theorem exists_of_declarationOf? {s : SimpleStmt} {d : Stmt} (h : declarationOf? var s = some d) :
    ∃ line l₁ l₂ ref value, s = .expr line (.assign l₁ (.localVar l₂ ref) value) ∧ ref.var = some var ∧
      count (uses var) value.nodes = 0 ∧ d = .declaration ref (some (value.orLine line)) := by
  simp only [declarationOf?, bind, Option.bind_eq_some_iff] at h
  obtain ⟨⟨target, value⟩, hassign, ref, hlocal, hd⟩ := h
  obtain ⟨line, l₁, rfl⟩ := SimpleStmt.exists_of_asAssign? hassign
  have ht : ∃ l, target = .localVar l ref := by
    cases target with
    | localVar l r => exact ⟨l, congrArg _ (Option.some.inj hlocal)⟩
    | _ => cases hlocal
  obtain ⟨l₂, rfl⟩ := ht
  split at hd
  · rename_i hc
    simp only [Bool.and_eq_true, decide_eq_true_eq] at hc
    exact ⟨line, l₁, l₂, ref, value, rfl, hc.1, hc.2, (Option.some.inj hd).symm⟩
  · cases hd

/-- Declaring a variable where a statement starts makes no difference to another variable, and that
cannot be declared there. -/
theorem declareAtStart?_of_ne {s s' : Stmt} (hne : other ≠ var)
    (h : declareAtStart? other s = some s') :
    (∀ declared, s'.isScoped var declared = s.isScoped var declared) ∧
      s'.declares var = s.declares var ∧
      declareAtStart? var s = none ∧ declareAtStart? var s' = none := by
  -- along the search: where one variable is assigned to, the other one finds no place
  induction s using declareAtStart?.induct generalizing s' with
  | case1 s =>
    obtain ⟨line, l₁, l₂, ref, value, rfl, href, hvalue, rfl⟩ := exists_of_declarationOf? h
    have href' : ref.var ≠ some var := fun h => hne (Option.some.inj (href.symm.trans h))
    refine ⟨fun declared => ?_, ?_, ?_, rfl⟩
    · simp [isScoped, SimpleStmt.nodes, SimpleStmt.expr?, Expr.nodesOfOption, Expr.nodes, href']
    · simp [declares, href']
    · simp [declareAtStart?, declarationOf?, SimpleStmt.asAssign?, Expr.asLocal?, href']
  | case2 first init condition update body ih =>
    obtain ⟨first', hfirst, rfl⟩ := Option.map_eq_some_iff.1 h
    obtain ⟨hscoped, hdeclares, hnone, hnone'⟩ := ih hfirst
    refine ⟨fun declared => ?_, rfl, ?_, ?_⟩
    · simp only [isScoped, allScoped, List.any_cons, hscoped, hdeclares]
    · simp [declareAtStart?, hnone]
    · simp [declareAtStart?, hnone']
  | case3 name init condition update body ih =>
    obtain ⟨body', hbody, rfl⟩ := Option.map_eq_some_iff.1 h
    obtain ⟨hscoped, hdeclares, hnone, hnone'⟩ := ih hbody
    refine ⟨fun declared => ?_, rfl, ?_, ?_⟩
    · simp only [isScoped]
      exact hscoped declared
    · simp [declareAtStart?, hnone]
    · unfold declareAtStart?
      split
      · rw [hnone']
        rfl
      · rfl
  | case4 | case5 => simp [declareAtStart?] at h

end Stmt

/-! ## Declaring in front of a statement -/

/-- A statement and the declarations in front of it after one more variable has been declared. -/
def declareOne (vars : List LocalVariable) (p : Stmt × List Stmt) (var : Nat) : Stmt × List Stmt :=
  match Stmt.declareAtStart? var p.1 with
  | some s => (s, p.2)
  | none => (p.1, p.2 ++ [Stmt.declaration ((vars[var]?.getD default).toRef var) none])

/-- A statement behind the declarations in front of it. -/
def inOrder (p : Stmt × List Stmt) : List Stmt := p.2 ++ [p.1]

/-- Declarations are put in front of a statement one after the other. -/
theorem declareBefore_eq (vars : List LocalVariable) (s : Stmt) (declared : List Nat) :
    declareBefore vars s declared = inOrder (declared.foldl (declareOne vars) (s, [])) := rfl

section DeclareBefore

variable {vars : List LocalVariable} {p : Stmt × List Stmt}

/-- Declaring another variable makes no difference. -/
theorem allScoped_declareOne_of_ne (hne : other ≠ var) (declared : Bool) (rest : List Stmt) :
    Stmt.allScoped var declared (inOrder (declareOne vars p other) ++ rest) =
      Stmt.allScoped var declared (inOrder p ++ rest) := by
  unfold declareOne inOrder
  split
  · rename_i s hs
    obtain ⟨hscoped, hdeclares, -⟩ := Stmt.declareAtStart?_of_ne hne hs
    simp only [List.append_assoc, Stmt.allScoped_append, List.cons_append, List.nil_append,
      Stmt.allScoped, hscoped, hdeclares]
  · simp [List.append_assoc, Stmt.allScoped_append, Stmt.allScoped, Stmt.isScoped, Stmt.declares,
      LocalVariable.toRef, Expr.nodesOfOption, hne]

/-- Declarations of other variables do not change where one is in scope. -/
theorem allScoped_foldl_declareOne {others : List Nat} (hothers : var ∉ others) (declared : Bool)
    (rest : List Stmt) :
    Stmt.allScoped var declared (inOrder (others.foldl (declareOne vars) p) ++ rest) =
      Stmt.allScoped var declared (inOrder p ++ rest) := by
  induction others generalizing p with
  | nil => rfl
  | cons other others ih =>
    have hne : var ≠ other := List.ne_of_not_mem_cons hothers
    rw [List.foldl_cons, ih (List.not_mem_of_not_mem_cons hothers), allScoped_declareOne_of_ne (Ne.symm hne)]

/-- Declaring other variables makes no difference to the scope of a variable. -/
theorem allScoped_declareBefore_of_not_mem {others : List Nat} (hothers : var ∉ others)
    (declared : Bool) (s : Stmt) (rest : List Stmt) :
    Stmt.allScoped var declared (declareBefore vars s others ++ rest) =
      Stmt.allScoped var declared (s :: rest) := by
  rw [declareBefore_eq, allScoped_foldl_declareOne hothers]
  rfl

/-- Declaring other variables leaves the assignment to a variable where it is. -/
theorem declareAtStart?_foldl_declareOne {others : List Nat} (hothers : var ∉ others) :
    -- only the statement itself may change, and then neither the old one nor the new one is a place for `var`
    let q := others.foldl (declareOne vars) p
    q.1 = p.1 ∨ (Stmt.declareAtStart? var p.1 = none ∧ Stmt.declareAtStart? var q.1 = none) := by
  induction others generalizing p with
  | nil => exact .inl rfl
  | cons other others ih =>
    have hne : var ≠ other := List.ne_of_not_mem_cons hothers
    have hothers' : var ∉ others := List.not_mem_of_not_mem_cons hothers
    rw [List.foldl_cons]
    have hone : (declareOne vars p other).1 = p.1 ∨ (Stmt.declareAtStart? var p.1 = none ∧
        Stmt.declareAtStart? var (declareOne vars p other).1 = none) := by
      unfold declareOne
      split
      · rename_i s hs
        exact .inr (Stmt.declareAtStart?_of_ne (Ne.symm hne) hs).2.2
      · exact .inl rfl
    rcases hone with hsame | ⟨hnone, hnone'⟩
    · have hrest := @ih (declareOne vars p other) hothers'
      rw [hsame] at hrest
      exact hrest
    · refine .inr ⟨hnone, ?_⟩
      rcases @ih (declareOne vars p other) hothers' with hsame | ⟨-, hlast⟩
      · rw [hsame, hnone']
      · exact hlast

/-- What goes in front of a statement are declarations without values. -/
theorem mem_foldl_declareOne {others : List Nat} {d : Stmt}
    (hd : d ∈ (others.foldl (declareOne vars) p).2) :
    d ∈ p.2 ∨ ∃ other ∈ others,
      d = .declaration ((vars[other]?.getD default).toRef other) none := by
  induction others generalizing p with
  | nil => exact .inl hd
  | cons other others ih =>
    rcases ih hd with hd | ⟨o, ho, hd⟩
    · unfold declareOne at hd
      split at hd
      · exact .inl hd
      · rcases List.mem_append.1 hd with hd | hd
        · exact .inl hd
        · exact .inr ⟨other, List.mem_cons_self, List.mem_singleton.1 hd⟩
    · exact .inr ⟨o, List.mem_cons_of_mem _ ho, hd⟩

/-- Declarations of other variables in front of a list make no difference. -/
theorem allScoped_append_of_declarations {before : List Stmt} (declared : Bool) (rest : List Stmt)
    (h : ∀ d ∈ before, ∃ ref, d = .declaration ref none ∧ ref.var ≠ some var) :
    Stmt.allScoped var declared (before ++ rest) = Stmt.allScoped var declared rest := by
  induction before with
  | nil => rfl
  | cons d before ih =>
    obtain ⟨ref, rfl, href⟩ := h d List.mem_cons_self
    simp [Stmt.allScoped, Stmt.isScoped, Stmt.declares, Expr.nodesOfOption, href,
      ih fun d hd => h d (List.mem_cons_of_mem _ hd)]

/-- A variable that is declared with others: what the others leave of the statement, and the
declarations in front of it. -/
theorem exists_declareBefore {declared : List Nat} (s : Stmt) (hmem : var ∈ declared)
    (hnodup : declared.Nodup) :
    ∃ q : Stmt × List Stmt,
      (q.1 = s ∨ (Stmt.declareAtStart? var s = none ∧ Stmt.declareAtStart? var q.1 = none)) ∧
      (∀ d ∈ q.2, ∃ ref, d = .declaration ref none ∧ ref.var ≠ some var) ∧
      ∀ rest, Stmt.allScoped var false (declareBefore vars s declared ++ rest) =
        Stmt.allScoped var false (inOrder (declareOne vars q var) ++ rest) := by
  obtain ⟨before, after, rfl⟩ := List.append_of_mem hmem
  have hbefore : var ∉ before := fun h => (List.nodup_append.1 hnodup).2.2 var h var List.mem_cons_self rfl
  have hafter : var ∉ after := (List.nodup_cons.1 (List.nodup_append.1 hnodup).2.1).1
  refine ⟨before.foldl (declareOne vars) (s, []), declareAtStart?_foldl_declareOne hbefore,
    fun d hd => ?_, fun rest => ?_⟩
  · rcases mem_foldl_declareOne hd with hd | ⟨other, hother, rfl⟩
    · cases hd
    · refine ⟨_, rfl, fun h => hbefore ?_⟩
      exact Option.some.inj h ▸ hother
  · rw [declareBefore_eq, List.foldl_append, List.foldl_cons, allScoped_foldl_declareOne hafter]

/-- A variable with a declaration in front of a statement is in scope there and behind it. -/
theorem allScoped_declareBefore_of_none {declared : List Nat} {s : Stmt} (hmem : var ∈ declared)
    (hnodup : declared.Nodup) (hnone : Stmt.declareAtStart? var s = none) (rest : List Stmt) :
    Stmt.allScoped var false (declareBefore vars s declared ++ rest) = true := by
  obtain ⟨q, hq, hbefore, heq⟩ := @exists_declareBefore var vars declared s hmem hnodup
  have hnone' : Stmt.declareAtStart? var q.1 = none := by
    rcases hq with hsame | ⟨-, hnone'⟩
    · rw [hsame, hnone]
    · exact hnone'
  rw [heq, declareOne, hnone']
  simp [inOrder, List.append_assoc, allScoped_append_of_declarations false _ hbefore, Stmt.allScoped,
    Stmt.isScoped, Stmt.declares, LocalVariable.toRef, Expr.nodesOfOption]

/-- A variable that is declared where a statement starts. -/
theorem allScoped_declareBefore_of_some {declared : List Nat} {s s₁ : Stmt} (hmem : var ∈ declared)
    (hnodup : declared.Nodup) (hsome : Stmt.declareAtStart? var s = some s₁) (rest : List Stmt) :
    Stmt.allScoped var false (declareBefore vars s declared ++ rest) =
      Stmt.allScoped var false (s₁ :: rest) := by
  obtain ⟨q, hq, hbefore, heq⟩ := @exists_declareBefore var vars declared s hmem hnodup
  have hsome' : Stmt.declareAtStart? var q.1 = some s₁ := by
    rcases hq with hsame | ⟨hnone, -⟩
    · rw [hsame, hsome]
    · rw [hnone] at hsome
      cases hsome
  rw [heq, declareOne, hsome', inOrder, List.append_assoc,
    allScoped_append_of_declarations false _ hbefore]
  rfl

end DeclareBefore

/-! ## Declaring other variables -/

section Placing

variable {vars : List LocalVariable}

/-- Placing declarations inside a statement does not change what it declares itself. -/
theorem declares_placeInside (total : Nat → Nat) (pending : List Nat) (s : Stmt) :
    (placeInside vars total pending s).declares var = s.declares var := by
  cases s <;> rfl

/-- What is left to a list inside a statement had been pending. -/
theorem mem_of_mem_enclosedIn {total : Nat → Nat} {pending : List Nat} {body : List Stmt}
    (h : var ∈ enclosedIn total pending body) : var ∈ pending :=
  (List.mem_filter.1 h).1

mutual

/-- Declaring other variables inside a statement makes no difference. -/
theorem isScoped_placeInside_of_not_mem {total : Nat → Nat} {pending : List Nat}
    (h : var ∉ pending) (declared : Bool) (s : Stmt) :
    (placeInside vars total pending s).isScoped var declared = s.isScoped var declared := by
  have hinside : ∀ body, var ∉ enclosedIn total pending body := fun body hmem =>
    h (mem_of_mem_enclosedIn hmem)
  cases s with
  | simple _ | declaration _ _ | label _ | breakTo _ | continueTo _ | gotoLabel _ | comment _ => rfl
  | block body => simp [placeInside, Stmt.isScoped, allScoped_placeList_of_not_mem (hinside body)]
  | ifElse c a b =>
    simp [placeInside, Stmt.isScoped, allScoped_placeList_of_not_mem (hinside a),
      allScoped_placeList_of_not_mem (hinside b)]
  | whileLoop c body | doWhile body c | synchronized c body | forEach ref c body
  | forLoop init c update body =>
    simp [placeInside, Stmt.isScoped, allScoped_placeList_of_not_mem (hinside body)]
  | switch key cases => simp [placeInside, Stmt.isScoped, allScoped_placeCases_of_not_mem h]
  | tryCatch body catches finallyBody =>
    simp [placeInside, Stmt.isScoped, allScoped_placeList_of_not_mem (hinside body),
      allScoped_placeCatches_of_not_mem h, bodyScoped_placeFinally_of_not_mem h]
  | labeled _ body => simp [placeInside, Stmt.isScoped, isScoped_placeInside_of_not_mem h]

/-- Declaring other variables in a list makes no difference. -/
theorem allScoped_placeList_of_not_mem {pending : List Nat} (h : var ∉ pending) (declared : Bool)
    (body : List Stmt) :
    Stmt.allScoped var declared (placeList vars pending body) = Stmt.allScoped var declared body := by
  cases body with
  | nil => rfl
  | cons s rest =>
    rw [placeList]
    dsimp only
    rw [allScoped_declareBefore_of_not_mem]
    · rw [Stmt.allScoped, Stmt.allScoped, isScoped_placeInside_of_not_mem, declares_placeInside,
        allScoped_placeList_of_not_mem]
      · exact fun hmem => h (List.mem_filter.1 hmem).1
      · exact fun hmem => h (List.mem_filter.1 (List.mem_filter.1 (List.mem_filter.1 hmem).1).1).1
    · exact fun hmem => h (List.mem_filter.1 (List.mem_filter.1 hmem).1).1

/-- In the arms of a switch nothing changes for a variable that is not pending. -/
theorem allScoped_placeCases_of_not_mem {total : Nat → Nat} {pending : List Nat} (h : var ∉ pending)
    (declared : Bool) (cases : List SwitchCase) :
    SwitchCase.allScoped var declared (placeCases vars total pending cases) =
      SwitchCase.allScoped var declared cases := by
  match cases with
  | [] => rfl
  | ⟨_, body, _⟩ :: cases =>
    have hbody : var ∉ enclosedIn total pending body := fun hmem => h (mem_of_mem_enclosedIn hmem)
    simp [placeCases, SwitchCase.allScoped, allScoped_placeList_of_not_mem hbody,
      allScoped_placeCases_of_not_mem h]

/-- Nor does it in catch clauses. -/
theorem allScoped_placeCatches_of_not_mem {total : Nat → Nat} {pending : List Nat}
    (h : var ∉ pending) (declared : Bool) (clauses : List CatchClause) :
    CatchClause.allScoped var declared (placeCatches vars total pending clauses) =
      CatchClause.allScoped var declared clauses := by
  match clauses with
  | [] => rfl
  | ⟨_, none, body⟩ :: clauses | ⟨_, some _, body⟩ :: clauses =>
    have hbody : var ∉ enclosedIn total pending body := fun hmem => h (mem_of_mem_enclosedIn hmem)
    simp [placeCatches, CatchClause.allScoped, allScoped_placeList_of_not_mem hbody,
      allScoped_placeCatches_of_not_mem h]

/-- Nor in a `finally` part. -/
theorem bodyScoped_placeFinally_of_not_mem {total : Nat → Nat} {pending : List Nat}
    (h : var ∉ pending) (declared : Bool) (body : Option (List Stmt)) :
    Stmt.bodyScoped var declared (placeFinally vars total pending body) =
      Stmt.bodyScoped var declared body := by
  cases body with
  | none => rfl
  | some body =>
    have hbody : var ∉ enclosedIn total pending body := fun hmem => h (mem_of_mem_enclosedIn hmem)
    simp [placeFinally, Stmt.bodyScoped, allScoped_placeList_of_not_mem hbody]

end

/-! ## Declaring in one list inside a statement -/

/-- A list that does not use a variable stays without need of a declaration. -/
theorem allScoped_placeList_of_unused {total : Nat → Nat} {pending : List Nat} {body : List Stmt}
    (hpos : total var ≠ 0) (h : count (uses var) (Stmt.nodesOfList body) = 0) (declared : Bool) :
    Stmt.allScoped var declared (placeList vars (enclosedIn total pending body) body) = true := by
  have hnot : var ∉ enclosedIn total pending body := by
    intro hmem
    have htotal := (List.mem_filter.1 hmem).2
    simp only [h, decide_eq_true_eq] at htotal
    exact hpos htotal.symm
  rw [allScoped_placeList_of_not_mem hnot, Stmt.allScoped_of_unused h]

/-- In arms of a switch that do not use a variable it is in scope wherever it is used. -/
theorem allScoped_placeCases_of_unused {total : Nat → Nat} {pending : List Nat}
    {cases : List SwitchCase} (hpos : total var ≠ 0)
    (h : count (uses var) (SwitchCase.nodesOfList cases) = 0) (declared : Bool) :
    SwitchCase.allScoped var declared (placeCases vars total pending cases) = true := by
  induction cases with
  | nil => rfl
  | cons c cases ih =>
    obtain ⟨labels, body, fallsThrough⟩ := c
    simp only [SwitchCase.nodesOfList, Node.count_append, Nat.add_eq_zero_iff] at h
    simp [placeCases, SwitchCase.allScoped, allScoped_placeList_of_unused hpos h.1, ih h.2]

/-- The same of catch clauses. -/
theorem allScoped_placeCatches_of_unused {total : Nat → Nat} {pending : List Nat}
    {clauses : List CatchClause} (hpos : total var ≠ 0)
    (h : count (uses var) (CatchClause.nodesOfList clauses) = 0) (declared : Bool) :
    CatchClause.allScoped var declared (placeCatches vars total pending clauses) = true := by
  induction clauses with
  | nil => rfl
  | cons c clauses ih =>
    obtain ⟨classes, ref, body⟩ := c
    cases ref <;>
      simp only [CatchClause.nodesOfList, Node.count_append, Nat.add_eq_zero_iff] at h
    · simp [placeCatches, CatchClause.allScoped, allScoped_placeList_of_unused hpos h.1, ih h.2]
    · simp [placeCatches, CatchClause.allScoped, allScoped_placeList_of_unused hpos h.2.1, ih h.2.2]

/-- The same of a `finally` part. -/
theorem bodyScoped_placeFinally_of_unused {total : Nat → Nat} {pending : List Nat}
    {body : Option (List Stmt)} (hpos : total var ≠ 0)
    (h : count (uses var) (Stmt.nodesOfBody body) = 0) (declared : Bool) :
    Stmt.bodyScoped var declared (placeFinally vars total pending body) = true := by
  cases body with
  | none => rfl
  | some body => exact allScoped_placeList_of_unused hpos h declared

/-- An arm has no more uses of a variable than all arms together. -/
theorem usesIn_le_of_mem_cases {body : List Stmt} {cases : List SwitchCase}
    (h : body ∈ cases.map (·.body)) :
    Stmt.usesIn var body ≤ count (uses var) (SwitchCase.nodesOfList cases) := by
  induction cases with
  | nil => cases h
  | cons c cases ih =>
    obtain ⟨labels, body', fallsThrough⟩ := c
    simp only [SwitchCase.nodesOfList, Node.count_append]
    rcases List.mem_cons.1 h with rfl | h
    · exact Nat.le_add_right _ _
    · exact Nat.le_trans (ih h) (Nat.le_add_left _ _)

/-- A clause has no more uses of a variable than all clauses together. -/
theorem usesIn_le_of_mem_catches {body : List Stmt} {clauses : List CatchClause}
    (h : body ∈ clauses.map (·.body)) :
    Stmt.usesIn var body ≤ count (uses var) (CatchClause.nodesOfList clauses) := by
  induction clauses with
  | nil => cases h
  | cons c clauses ih =>
    obtain ⟨classes, ref, body'⟩ := c
    have hle : Stmt.usesIn var body ≤ count (uses var) (Stmt.nodesOfList body') +
        count (uses var) (CatchClause.nodesOfList clauses) := by
      rcases List.mem_cons.1 h with rfl | h
      · exact Nat.le_add_right _ _
      · exact Nat.le_trans (ih h) (Nat.le_add_left _ _)
    cases ref with
    | none => simpa only [CatchClause.nodesOfList, Node.count_append] using hle
    | some ref =>
      simp only [CatchClause.nodesOfList, Node.count_append]
      exact Nat.le_trans hle (Nat.le_add_left _ _)

section Focus

variable {total : Nat → Nat} {pending : List Nat} {body : List Stmt}

/-- If one arm has all uses of a variable, scopes are right in the arms if they are in this one. -/
theorem allScoped_placeCases {cases : List SwitchCase} (hpos : total var ≠ 0)
    (hbody : body ∈ cases.map (·.body)) (huses : Stmt.usesIn var body = total var)
    (hle : count (uses var) (SwitchCase.nodesOfList cases) ≤ total var) :
    SwitchCase.allScoped var false (placeCases vars total pending cases) =
      Stmt.allScoped var false (placeList vars (enclosedIn total pending body) body) := by
  induction cases with
  | nil => cases hbody
  | cons c cases ih =>
    obtain ⟨labels, body', fallsThrough⟩ := c
    simp only [SwitchCase.nodesOfList, Node.count_append] at hle
    simp only [placeCases, SwitchCase.allScoped]
    rcases List.mem_cons.1 hbody with rfl | hbody
    · have hrest : count (uses var) (SwitchCase.nodesOfList cases) = 0 := by
        rw [Stmt.usesIn] at huses
        omega
      rw [allScoped_placeCases_of_unused hpos hrest, Bool.and_true]
    · have hcases := @usesIn_le_of_mem_cases var _ _ hbody
      have hhead : count (uses var) (Stmt.nodesOfList body') = 0 := by omega
      rw [allScoped_placeList_of_unused hpos hhead, Bool.true_and, ih hbody (by omega)]

/-- The same of one of several clauses. -/
theorem allScoped_placeCatches {clauses : List CatchClause} (hpos : total var ≠ 0)
    (hbody : body ∈ clauses.map (·.body)) (huses : Stmt.usesIn var body = total var)
    (hle : count (uses var) (CatchClause.nodesOfList clauses) ≤ total var) :
    CatchClause.allScoped var false (placeCatches vars total pending clauses) =
      Stmt.allScoped var false (placeList vars (enclosedIn total pending body) body) := by
  induction clauses with
  | nil => cases hbody
  | cons c clauses ih =>
    obtain ⟨classes, ref, body'⟩ := c
    have hle' : count (uses var) (Stmt.nodesOfList body') +
        count (uses var) (CatchClause.nodesOfList clauses) ≤ total var := by
      cases ref <;> simp only [CatchClause.nodesOfList, Node.count_append] at hle <;> omega
    -- this clause has all the uses: there is none in the others, nor is its variable the one in question
    rcases List.mem_cons.1 hbody with rfl | hbody
    · rw [Stmt.usesIn] at huses
      have hrest : count (uses var) (CatchClause.nodesOfList clauses) = 0 := by
        omega
      cases ref with
      | none =>
        simp only [placeCatches, CatchClause.allScoped]
        rw [allScoped_placeCatches_of_unused hpos hrest, Bool.and_true]
      | some ref =>
        have href : ref.var ≠ some var := by
          intro href
          simp only [CatchClause.nodesOfList, Node.count_append, LocalRef.count_uses_nodes,
            if_pos href] at hle
          omega
        simp only [placeCatches, CatchClause.allScoped, href, decide_false, Bool.or_false]
        rw [allScoped_placeCatches_of_unused hpos hrest, Bool.and_true]
    · have hclauses := @usesIn_le_of_mem_catches var _ _ hbody
      have hhead : count (uses var) (Stmt.nodesOfList body') = 0 := by omega
      have hrest := ih hbody (by omega)
      cases ref <;> simp only [placeCatches, CatchClause.allScoped] <;>
        rw [allScoped_placeList_of_unused hpos hhead, Bool.true_and, hrest]

/-- If all uses of a variable in a statement are in one of its lists, only that list matters. -/
theorem isScoped_placeInside {s : Stmt} (hpos : total var ≠ 0) (hbody : body ∈ s.scopes)
    (huses : Stmt.usesIn var body = total var) (hle : count (uses var) s.nodes ≤ total var) :
    (placeInside vars total pending s).isScoped var false =
      Stmt.allScoped var false (placeList vars (enclosedIn total pending body) body) := by
  -- `body` has all uses of `var`, so that no other part of the statement has one
  cases s with
  | simple _ | declaration _ _ | label _ | breakTo _ | continueTo _ | gotoLabel _ | comment _ =>
    cases hbody
  | labeled label s =>
    rw [placeInside, Stmt.isScoped]
    exact isScoped_placeInside hpos hbody huses hle
  | block body' =>
    obtain rfl : body = body' := by simpa [Stmt.scopes, Stmt.childLists] using hbody
    rw [placeInside, Stmt.isScoped]
  | whileLoop c body' | doWhile body' c | synchronized c body' =>
    obtain rfl : body = body' := by simpa [Stmt.scopes, Stmt.childLists] using hbody
    simp [Stmt.nodes] at hle
    have hc : count (uses var) c.nodes = 0 := by
      rw [Stmt.usesIn] at huses
      omega
    simp only [placeInside, Stmt.isScoped, Expr.isScoped_of_unused hc, Bool.true_and, Bool.and_true]
  | forEach ref c body' =>
    obtain rfl : body = body' := by simpa [Stmt.scopes, Stmt.childLists] using hbody
    simp [Stmt.nodes] at hle
    rw [Stmt.usesIn] at huses
    have hc : count (uses var) c.nodes = 0 := by omega
    have href : ref.var ≠ some var := by
      intro href
      rw [if_pos href] at hle
      omega
    simp [placeInside, Stmt.isScoped, Expr.isScoped_of_unused hc, href]
  | forLoop init c update body' =>
    obtain rfl : body = body' := by simpa [Stmt.scopes] using hbody
    simp [Stmt.nodes] at hle
    rw [Stmt.usesIn] at huses
    have hinit : count (uses var) (Stmt.nodesOfList init) = 0 := by omega
    have hc : count (uses var) c.nodes = 0 := by omega
    have hupdate : count (uses var) (Stmt.nodesOfList update) = 0 := by omega
    simp [placeInside, Stmt.isScoped, Stmt.allScoped_of_unused hinit, Expr.isScoped_of_unused hc,
      Stmt.allScoped_of_unused hupdate, Stmt.any_declares_of_unused hinit]
  | ifElse c a b =>
    simp [Stmt.nodes] at hle
    rw [Stmt.usesIn] at huses
    simp only [placeInside, Stmt.isScoped]
    have hbody' : body = a ∨ body = b := by simpa [Stmt.scopes, Stmt.childLists] using hbody
    rcases hbody' with rfl | rfl
    · have hc : count (uses var) c.nodes = 0 := by omega
      have hb : count (uses var) (Stmt.nodesOfList b) = 0 := by omega
      rw [Expr.isScoped_of_unused hc, allScoped_placeList_of_unused hpos hb, Bool.true_and,
        Bool.and_true]
    · have hc : count (uses var) c.nodes = 0 := by omega
      have ha : count (uses var) (Stmt.nodesOfList a) = 0 := by omega
      rw [Expr.isScoped_of_unused hc, allScoped_placeList_of_unused hpos ha, Bool.true_and,
        Bool.true_and]
  | switch key cases =>
    simp [Stmt.nodes] at hle
    have hcases := @usesIn_le_of_mem_cases var _ _ hbody
    have hkey : count (uses var) key.nodes = 0 := by omega
    simp only [placeInside, Stmt.isScoped]
    rw [Expr.isScoped_of_unused hkey, Bool.true_and, allScoped_placeCases hpos hbody huses (by omega)]
  | tryCatch body' catches finallyBody =>
    simp [Stmt.nodes] at hle
    simp only [placeInside, Stmt.isScoped]
    have hbody' : body = body' ∨ body ∈ catches.map (·.body) ∨ body ∈ finallyBody := by
      simpa [Stmt.scopes, Stmt.childLists] using hbody
    rcases hbody' with rfl | hbody' | hbody'
    · rw [Stmt.usesIn] at huses
      have hcatches : count (uses var) (CatchClause.nodesOfList catches) = 0 := by omega
      have hfinally : count (uses var) (Stmt.nodesOfBody finallyBody) = 0 := by omega
      rw [allScoped_placeCatches_of_unused hpos hcatches,
        bodyScoped_placeFinally_of_unused hpos hfinally, Bool.and_true, Bool.and_true]
    · have hcatches := @usesIn_le_of_mem_catches var _ _ hbody'
      have htry : count (uses var) (Stmt.nodesOfList body') = 0 := by omega
      have hfinally : count (uses var) (Stmt.nodesOfBody finallyBody) = 0 := by omega
      rw [allScoped_placeList_of_unused hpos htry, bodyScoped_placeFinally_of_unused hpos hfinally,
        Bool.true_and, Bool.and_true, allScoped_placeCatches hpos hbody' huses (by omega)]
    · obtain rfl : finallyBody = some body := hbody'
      rw [Stmt.usesIn] at huses
      rw [Stmt.nodesOfBody] at hle
      have htry : count (uses var) (Stmt.nodesOfList body') = 0 := by omega
      have hcatches : count (uses var) (CatchClause.nodesOfList catches) = 0 := by omega
      rw [allScoped_placeList_of_unused hpos htry, allScoped_placeCatches_of_unused hpos hcatches,
        Bool.true_and, Bool.true_and, placeFinally, Stmt.bodyScoped]

end Focus

/-- Declaring variables inside a statement leaves its start as it is. -/
theorem declareAtStart?_placeInside (total : Nat → Nat) (pending : List Nat) (s : Stmt) :
    Stmt.declareAtStart? var (placeInside vars total pending s) =
      (Stmt.declareAtStart? var s).map (placeInside vars total pending) := by
  -- placing changes lists inside the statement, and the search looks only at the first part of a `for` loop
  induction s using Stmt.declareAtStart?.induct with
  | case1 s =>
    cases hs : Stmt.declarationOf? var s with
    | none => simp [placeInside, Stmt.declareAtStart?, hs]
    | some d =>
      obtain ⟨_, _, _, _, _, -, -, -, rfl⟩ := Stmt.exists_of_declarationOf? hs
      simp [placeInside, Stmt.declareAtStart?, hs]
  | case2 first init condition update body ih =>
    simp [placeInside, Stmt.declareAtStart?, Option.map_map, Function.comp_def]
  | case3 name init condition update body ih =>
    simp only [placeInside, Stmt.declareAtStart?] at ih ⊢
    rw [ih]
    simp [placeInside, Option.map_map, Function.comp_def]
  | case4 name body hbody =>
    cases body with
    | forLoop _ _ _ _ => exact absurd rfl (hbody _ _ _ _)
    | _ => simp [placeInside, Stmt.declareAtStart?]
  | case5 s h₁ h₂ h₃ =>
    cases s with
    | simple _ => exact absurd rfl (h₁ _)
    | labeled _ _ => exact absurd rfl (h₃ _ _)
    | forLoop init _ _ _ =>
      cases init with
      | nil => simp [placeInside, Stmt.declareAtStart?]
      | cons _ _ => exact absurd rfl (h₂ _ _ _ _ _)
    | _ => simp [placeInside, Stmt.declareAtStart?]

end Placing

/-! ## Where a variable is declared -/

/-- A scope of a statement is one of the lists inside it. -/
theorem Stmt.mem_childLists_of_mem_scopes {s : Stmt} {body : List Stmt} (h : body ∈ s.scopes) :
    body ∈ s.childLists := by
  match s with
  | .labeled _ s => exact mem_childLists_of_mem_scopes (s := s) h
  | .forLoop _ _ _ body => simpa [scopes, childLists] using .inr (.inr (List.mem_singleton.1 h))
  | .simple _ | .block _ | .declaration .. | .ifElse .. | .whileLoop .. | .doWhile .. | .forEach ..
  | .switch .. | .tryCatch .. | .synchronized .. | .label _ | .breakTo _ | .continueTo _
  | .gotoLabel _ | .comment _ => exact h

/-- A scope is smaller than its statement. -/
theorem Stmt.sizeOf_lt_of_mem_scopes {s : Stmt} {body : List Stmt} (h : body ∈ s.scopes) :
    sizeOf body < sizeOf s := sizeOf_lt_of_mem_childLists (mem_childLists_of_mem_scopes h)

/-- The rest of the innermost statement list with all uses of a variable, from the first statement that
uses it. -/
def Stmt.home? (var : Nat) : List Stmt → Option (Stmt × List Stmt)
  | [] => none
  | s :: rest =>
    if count (uses var) s.nodes = 0 then home? var rest
    else if usesIn var rest ≠ 0 then some (s, rest)
    else
      match h : s.scopes.find? fun body => usesIn var body = count (uses var) s.nodes with
      | some body =>
        have := sizeOf_lt_of_mem_scopes (List.mem_of_find?_eq_some h)
        home? var body
      | none => some (s, rest)
  termination_by body => sizeOf body

section Home

variable {vars : List LocalVariable} {pending : List Nat}

/-- The pending variables that a statement uses. -/
def usedBy (pending : List Nat) (s : Stmt) : List Nat :=
  pending.filter fun var => count (uses var) s.nodes ≠ 0

/-- The pending variables that are declared inside a statement, with `rest` behind it. -/
def nestedIn (pending : List Nat) (s : Stmt) (rest : List Stmt) : List Nat :=
  let laterNodes := if (usedBy pending s).isEmpty then [] else Stmt.nodesOfList rest
  ((usedBy pending s).filter (fun var => count (uses var) laterNodes = 0)).filter fun var =>
    s.scopes.any fun body => Stmt.usesIn var body = count (uses var) s.nodes

/-- A variable is declared in front of the first statement that uses it, unless all its uses are in one scope
of this statement. -/
theorem placeList_cons (s : Stmt) (rest : List Stmt) :
    placeList vars pending (s :: rest) =
      declareBefore vars (placeInside vars (fun var => count (uses var) s.nodes) (nestedIn pending s rest) s)
          ((usedBy pending s).filter (!(nestedIn pending s rest).contains ·)) ++
        placeList vars (pending.filter (!(usedBy pending s).contains ·)) rest := by
  rw [placeList]
  rfl

/-- The variables that are left for a statement are the pending ones that it uses. -/
theorem mem_usedBy {s : Stmt} :
    var ∈ usedBy pending s ↔ var ∈ pending ∧ count (uses var) s.nodes ≠ 0 := by
  simp [usedBy]

/-- A variable is declared inside a statement if one scope there has all its uses. -/
theorem mem_nestedIn {s : Stmt} {rest : List Stmt} :
    var ∈ nestedIn pending s rest ↔ var ∈ usedBy pending s ∧ Stmt.usesIn var rest = 0 ∧
      ∃ body ∈ s.scopes, Stmt.usesIn var body = count (uses var) s.nodes := by
  simp only [nestedIn, List.mem_filter, List.any_eq_true, decide_eq_true_eq, and_assoc]
  refine and_congr_right fun hmem => ?_
  have hne : (usedBy pending s).isEmpty = false :=
    List.isEmpty_eq_false_iff.2 (List.ne_nil_of_mem hmem)
  simp [hne, Stmt.usesIn]

/-- A pending variable that is declared at a statement, not inside it. -/
theorem allScoped_placeList_of_here {s : Stmt} {rest : List Stmt} (hmem : var ∈ pending)
    (hnodup : pending.Nodup) (hused : count (uses var) s.nodes ≠ 0)
    (hnested : var ∉ nestedIn pending s rest) :
    Stmt.allScoped var false (placeList vars pending (s :: rest)) = true ↔
      ∀ s₁ ∈ Stmt.declareAtStart? var s, Stmt.allScoped var false (s₁ :: rest) = true := by
  have hin : var ∈ usedBy pending s := mem_usedBy.2 ⟨hmem, hused⟩
  have hhere : var ∈ (usedBy pending s).filter (!(nestedIn pending s rest).contains ·) :=
    List.mem_filter.2 ⟨hin, by simpa using hnested⟩
  have hhere' : ((usedBy pending s).filter (!(nestedIn pending s rest).contains ·)).Nodup :=
    (hnodup.filter _).filter _
  have hlater : var ∉ pending.filter (!(usedBy pending s).contains ·) := fun h => by
    have := (List.mem_filter.1 h).2
    simp [hin] at this
  rw [placeList_cons]
  -- a place to fold into is the same before and behind placing what is inside
  cases hstart : Stmt.declareAtStart? var s with
  | none =>
    have hstart' : Stmt.declareAtStart? var
        (placeInside vars (fun var => count (uses var) s.nodes) (nestedIn pending s rest) s) = none := by
      rw [declareAtStart?_placeInside, hstart, Option.map_none]
    rw [allScoped_declareBefore_of_none hhere hhere' hstart']
    simp
  | some s₁ =>
    have hstart' : Stmt.declareAtStart? var
        (placeInside vars (fun var => count (uses var) s.nodes) (nestedIn pending s rest) s) =
          some (placeInside vars (fun var => count (uses var) s.nodes) (nestedIn pending s rest) s₁) := by
      rw [declareAtStart?_placeInside, hstart, Option.map_some]
    rw [allScoped_declareBefore_of_some hhere hhere' hstart', Stmt.allScoped, declares_placeInside,
      isScoped_placeInside_of_not_mem hnested, allScoped_placeList_of_not_mem hlater]
    simp [Stmt.allScoped]

/-- A pending variable is in scope, unless it is declared where a statement starts and the declaration
does not reach all of its uses. -/
theorem allScoped_placeList (hmem : var ∈ pending) (hnodup : pending.Nodup) (body : List Stmt) :
    Stmt.allScoped var false (placeList vars pending body) = true ↔
      ∀ home ∈ Stmt.home? var body, ∀ s₁ ∈ Stmt.declareAtStart? var home.1,
        Stmt.allScoped var false (s₁ :: home.2) = true := by
  -- along the search for the list with all uses, with the pending variables that are left for it
  induction body using Stmt.home?.induct var generalizing pending with
  | case1 => simp [placeList, Stmt.allScoped, Stmt.home?]
  | case2 s rest hunused ih =>
    have hnot : var ∉ usedBy pending s := fun h => (mem_usedBy.1 h).2 hunused
    have hnested : var ∉ nestedIn pending s rest := fun h => hnot (mem_nestedIn.1 h).1
    have hlater : var ∈ pending.filter (!(usedBy pending s).contains ·) :=
      List.mem_filter.2 ⟨hmem, by simpa using hnot⟩
    have hhome : Stmt.home? var (s :: rest) = Stmt.home? var rest := by
      rw [Stmt.home?, if_pos hunused]
    rw [hhome, ← ih hlater (hnodup.filter _), placeList_cons,
      allScoped_declareBefore_of_not_mem fun h => hnot (List.mem_filter.1 h).1, Stmt.allScoped,
      isScoped_placeInside_of_not_mem hnested, Stmt.isScoped_of_unused hunused, declares_placeInside,
      Stmt.declares_of_unused hunused, Bool.true_and, Bool.or_false]
  | case3 s rest hused hlater =>
    have hnested : var ∉ nestedIn pending s rest := fun h => hlater (mem_nestedIn.1 h).2.1
    have hhome : Stmt.home? var (s :: rest) = some (s, rest) := by
      rw [Stmt.home?, if_neg hused, if_pos hlater]
    rw [allScoped_placeList_of_here hmem hnodup hused hnested, hhome]
    simp
  | case4 s rest hused hlater body h hlt ih =>
    have hbody : body ∈ s.scopes := List.mem_of_find?_eq_some h
    have huses : Stmt.usesIn var body = count (uses var) s.nodes := by
      simpa using List.find?_some h
    have hrest : count (uses var) (Stmt.nodesOfList rest) = 0 := Decidable.not_not.1 hlater
    have hin : var ∈ usedBy pending s := mem_usedBy.2 ⟨hmem, hused⟩
    have hnested : var ∈ nestedIn pending s rest := mem_nestedIn.2 ⟨hin, hrest, body, hbody, huses⟩
    have hhere : var ∉ (usedBy pending s).filter (!(nestedIn pending s rest).contains ·) := fun h => by
      have := (List.mem_filter.1 h).2
      simp [hnested] at this
    have hlater' : var ∉ pending.filter (!(usedBy pending s).contains ·) := fun h => by
      have := (List.mem_filter.1 h).2
      simp [hin] at this
    have hinside : var ∈ enclosedIn (fun var => count (uses var) s.nodes) (nestedIn pending s rest) body :=
      List.mem_filter.2 ⟨hnested, by simpa [Stmt.usesIn] using huses⟩
    have hinside' : (enclosedIn (fun var => count (uses var) s.nodes) (nestedIn pending s rest) body).Nodup :=
      (((hnodup.filter _).filter _).filter _).filter _
    have hhome : Stmt.home? var (s :: rest) = Stmt.home? var body := by
      rw [Stmt.home?, if_neg hused, if_neg hlater]
      split
      · rename_i body' hfind
        rw [Option.some.inj (h.symm.trans hfind)]
      · rename_i hfind
        rw [h] at hfind
        cases hfind
    have hfocus := @isScoped_placeInside var vars (fun var => count (uses var) s.nodes)
      (nestedIn pending s rest) body s hused hbody huses (Nat.le_refl _)
    rw [hhome, ← ih hinside hinside', placeList_cons, allScoped_declareBefore_of_not_mem hhere,
      Stmt.allScoped, hfocus, allScoped_placeList_of_not_mem hlater', Stmt.allScoped_of_unused hrest,
      Bool.and_true]
  | case5 s rest hused hlater h =>
    have hnested : var ∉ nestedIn pending s rest := fun hmem => by
      obtain ⟨body, hbody, huses⟩ := (mem_nestedIn.1 hmem).2.2
      exact absurd huses (by simpa using List.find?_eq_none.1 h body hbody)
    have hhome : Stmt.home? var (s :: rest) = some (s, rest) := by
      rw [Stmt.home?, if_neg hused, if_neg hlater]
      split
      · rename_i hfind
        simp [h] at hfind
      · rfl
    rw [allScoped_placeList_of_here hmem hnodup hused hnested, hhome]
    simp

end Home

/-! ## What a declaration reaches -/

/-- Whether a declaration of a variable where a statement starts reaches the uses of the variable in
the statement and behind it; `later` says whether those behind it are in scope without it. The
declaration in a loop's initialisation reaches the loop only. -/
def Stmt.startReaches (var : Nat) (later : Bool) : Stmt → Bool
  | .forLoop (first :: init) condition update body =>
    later && first.startReaches var ((Stmt.forLoop init condition update body).isScoped var false)
  | .labeled _ body => body.startReaches var later
  | _ => true

/-- A declaration that is folded into a statement puts into scope what the statement starts with. -/
theorem isScoped_declareAtStart? {s s₁ : Stmt} (h : Stmt.declareAtStart? var s = some s₁)
    (later : Bool) :
    (s₁.isScoped var false && (s₁.declares var || later)) = s.startReaches var later := by
  induction s using Stmt.declareAtStart?.induct generalizing s₁ later with
  | case1 s =>
    obtain ⟨line, l₁, l₂, ref, value, rfl, href, hvalue, rfl⟩ := Stmt.exists_of_declarationOf? h
    simp [Stmt.isScoped, Stmt.declares, Stmt.startReaches, Expr.nodesOfOption, href, hvalue]
  | case2 first init condition update body ih =>
    obtain ⟨first₁, hfirst, rfl⟩ := Option.map_eq_some_iff.1 h
    have hinit := ih hfirst ((Stmt.forLoop init condition update body).isScoped var false)
    rw [Stmt.startReaches, ← hinit]
    have hloop : (Stmt.forLoop (first₁ :: init) condition update body).declares var = false := rfl
    rw [hloop, Bool.false_or]
    cases hd : first₁.declares var with
    | true => simp [Stmt.isScoped, Stmt.allScoped, hd, Bool.and_comm]
    | false =>
      simp only [Stmt.isScoped, Stmt.allScoped, hd, List.any_cons, Bool.false_or]
      ac_rfl
  | case3 name init condition update body ih =>
    obtain ⟨body', hbody, rfl⟩ := Option.map_eq_some_iff.1 h
    have hloop : body'.declares var = false := by
      cases init with
      | nil => simp [Stmt.declareAtStart?] at hbody
      | cons first init =>
        obtain ⟨first', -, rfl⟩ := Option.map_eq_some_iff.1 hbody
        rfl
    have hih := ih hbody later
    rw [hloop] at hih
    exact hih
  | case4 | case5 => simp [Stmt.declareAtStart?] at h

/-- The statements behind a declared start are in scope if the declaration reaches them. -/
theorem allScoped_declareAtStart? {s s₁ : Stmt} (h : Stmt.declareAtStart? var s = some s₁)
    (rest : List Stmt) :
    Stmt.allScoped var false (s₁ :: rest) = s.startReaches var (Stmt.allScoped var false rest) := by
  rw [← isScoped_declareAtStart? h, Stmt.allScoped]
  cases s₁.declares var <;> simp

/-! ## All variables of a body -/

namespace BoundBody

/-- The variables that catch clauses and loops through elements declare. -/
def structuralVars (b : BoundBody) : List Nat :=
  (Stmt.nodesOfList b.statements).flatMap Node.structuralVars

/-- Every use of a variable that is not a parameter is in the scope of a declaration of the variable. -/
def AllDeclared (b : BoundBody) : Prop :=
  ∀ var v, b.locals[var]? = some v → v.isParameter = false → Stmt.allScoped var false b.statements = true

/-- A variable of a catch clause or of a loop through elements is used only there, and a variable that
a loop starts with is used only in the loop, as far as its innermost list with all uses goes. -/
def DeclarationsReach (b : BoundBody) : Prop :=
  ∀ var v, b.locals[var]? = some v → v.isParameter = false →
    if var ∈ b.structuralVars then Stmt.allScoped var false b.statements = true
    else
      ∀ home ∈ Stmt.home? var b.statements, (Stmt.declareAtStart? var home.1).isSome = true →
        home.1.startReaches var (Stmt.allScoped var false home.2) = true

/-- The variables for which `declare` looks for a place. -/
def pending (b : BoundBody) : List Nat :=
  (b.locals.zipIdx.filter fun (v, i) => !v.isDeclared && !b.structuralVars.contains i).map (·.2)

/-- Declaring the variables of a body is placing declarations in its list. -/
theorem statements_declare (b : BoundBody) :
    b.declare.statements = placeList b.locals b.pending b.statements := rfl

/-- No variable is pending twice. -/
theorem nodup_pending (b : BoundBody) : b.pending.Nodup := by
  have hsub : b.pending.Sublist (b.locals.zipIdx.map (·.2)) := List.filter_sublist.map _
  refine List.Nodup.sublist hsub ?_
  rw [List.zipIdx_map_snd]
  exact List.nodup_range'

/-- The pending variables are those that are neither declared nor parts of a statement. -/
theorem mem_pending {b : BoundBody} {v : LocalVariable} (hv : b.locals[var]? = some v) :
    var ∈ b.pending ↔ v.isDeclared = false ∧ var ∉ b.structuralVars := by
  simp only [pending, List.mem_map, List.mem_filter, Prod.exists, List.mem_zipIdx_iff_getElem?]
  constructor
  · rintro ⟨w, i, ⟨hw, hc⟩, rfl⟩
    obtain rfl : w = v := Option.some.inj (hw.symm.trans hv)
    simpa using hc
  · intro hc
    exact ⟨v, var, ⟨hv, by simpa using hc⟩, rfl⟩

/-- Placing declarations changes no more of a variable than what says that it has one. -/
theorem getElem?_locals_declare (b : BoundBody) (var : Nat) :
    ∃ f : LocalVariable → LocalVariable, (∀ v, (f v).isParameter = v.isParameter) ∧
      b.declare.locals[var]? = b.locals[var]?.map f := by
  refine ⟨fun v => if b.structuralVars.contains var ||
    count (uses var) (Stmt.nodesOfList b.statements) ≠ 0 then v.declared else v, fun v => ?_, ?_⟩
  · dsimp only
    split <;> rfl
  · simp only [declare, List.getElem?_map, List.getElem?_zipIdx, Option.map_map, Function.comp_def,
      Nat.zero_add]
    rfl

/-- Declarations are in scope exactly if they reach all uses. -/
theorem allDeclared_declare_iff (src : VariableSources) (body : List Stmt) :
    (src.bind body).declare.AllDeclared ↔ (src.bind body).DeclarationsReach := by
  have hscoped : ∀ var v, (src.bind body).locals[var]? = some v → v.isParameter = false →
      (Stmt.allScoped var false (src.bind body).declare.statements = true ↔
        if var ∈ (src.bind body).structuralVars then
          Stmt.allScoped var false (src.bind body).statements = true
        else
          ∀ home ∈ Stmt.home? var (src.bind body).statements,
            (Stmt.declareAtStart? var home.1).isSome = true →
              home.1.startReaches var (Stmt.allScoped var false home.2) = true) := by
    intro var v hv hp
    have hopen : v.isDeclared = false :=
      VariableSources.isOpen_of_mem_bind (List.mem_of_getElem? hv) hp
    rw [statements_declare]
    split
    · rename_i hstructural
      have hnot : var ∉ (src.bind body).pending := fun h => ((mem_pending hv).1 h).2 hstructural
      rw [allScoped_placeList_of_not_mem hnot]
    · rename_i hstructural
      have hmem : var ∈ (src.bind body).pending := (mem_pending hv).2 ⟨hopen, hstructural⟩
      rw [allScoped_placeList hmem (nodup_pending _)]
      refine forall₂_congr fun home _ => ?_
      cases hstart : Stmt.declareAtStart? var home.1 with
      | none => simp
      | some s₁ => simp [allScoped_declareAtStart? hstart]
  constructor
  · intro h var v hv hp
    obtain ⟨f, hf, hlocals⟩ := (src.bind body).getElem?_locals_declare var
    refine (hscoped var v hv hp).1 (h var (f v) ?_ ((hf v).trans hp))
    rw [hlocals, hv, Option.map_some]
  · intro h var v hv hp
    obtain ⟨f, hf, hlocals⟩ := (src.bind body).getElem?_locals_declare var
    rw [hlocals] at hv
    obtain ⟨w, hw, rfl⟩ := Option.map_eq_some_iff.1 hv
    have hp' : w.isParameter = false := (hf w).symm.trans hp
    exact (hscoped var w hw hp').2 (h var w hw hp')

/-- Nothing is known about the variables of a static method without parameters. -/
def nothingKnown : VariableSources := ⟨.empty, [], [], [], [], true, 10, true⟩

/-- A loop counts with a variable that is used behind the loop as well. -/
def countThenReturn : List Stmt :=
  let i (pc : Address) : Expr := .localVar none ⟨0, pc, "", .int, none⟩
  [.forLoop [.simple (.expr none (.assign none (i 0) (.literal none (.int 0 none))))]
      (.compare none .lt (i 2) (.literal none (.int 10 none))) [] [],
    .simple (.return none (some (i 8)))]

/-- A slot holds a caught exception and then, behind the clause, another object. -/
def catchThenReturn : List Stmt :=
  let ref (pc : Address) : LocalRef := ⟨0, pc, "", .object, none⟩
  [.tryCatch [] [⟨["E"], some (ref 1), []⟩] none,
    .simple (.expr none (.assign none (.localVar none (ref 3)) (.literal none .null))),
    .simple (.return none (some (.localVar none (ref 5))))]

/-- The declaration in a loop does not reach the uses behind the loop, and the variable of a catch clause
is not declared outside of the clause. -/
theorem not_allDeclared_declare :
    ¬(nothingKnown.bind countThenReturn).declare.AllDeclared ∧
      ¬(nothingKnown.bind catchThenReturn).declare.AllDeclared := by
  constructor
  · intro h
    have hv : (nothingKnown.bind countThenReturn).declare.locals[0]?.map (·.isParameter) =
        some false := by cbv
    obtain ⟨v, hv, hp⟩ := Option.map_eq_some_iff.1 hv
    have hscoped : Stmt.allScoped 0 false (nothingKnown.bind countThenReturn).declare.statements =
        false := by cbv
    exact Bool.false_ne_true (hscoped.symm.trans (h 0 v hv hp))
  · intro h
    have hv : (nothingKnown.bind catchThenReturn).declare.locals[0]?.map (·.isParameter) =
        some false := by cbv
    obtain ⟨v, hv, hp⟩ := Option.map_eq_some_iff.1 hv
    have hscoped : Stmt.allScoped 0 false (nothingKnown.bind catchThenReturn).declare.statements =
        false := by cbv
    exact Bool.false_ne_true (hscoped.symm.trans (h 0 v hv hp))

end BoundBody

end JvmDecompiler
