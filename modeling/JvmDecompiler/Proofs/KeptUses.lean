import JvmDecompiler.Desugaring
import JvmDecompiler.Inference
import JvmDecompiler.Proofs.Declaring
import JvmDecompiler.Proofs.TreeTransform
import Mathlib.Data.List.Basic

/-!
# What later passes do to uses of variables

Behind the recovery of variables a body is only given declarations, narrower literals and the source
forms of compiled idioms. None of this makes a use of a variable, but for the declarations: what holds of
all uses in a body, and of the variables that may be declared, holds of all uses in the result.
-/

namespace JvmDecompiler

open Node (AllLocals)

/-! ## Declaring -/

section Declaring

variable {Q : LocalRef → Prop} {vars : List LocalVariable}

/-- A declaration takes its variable and its value from the assignment that it stands for. -/
theorem Stmt.allLocals_declareAtStart? {var : Nat} {s s' : Stmt} (h : declareAtStart? var s = some s')
    (hs : AllLocals Q s.nodes) : AllLocals Q s'.nodes := by
  -- along the search for the assignment: into the first part of a `for` loop, and past a label
  induction s using declareAtStart?.induct generalizing s' with
  | case1 s =>
    obtain ⟨line, l₁, l₂, ref, value, rfl, -, -, rfl⟩ := exists_of_declarationOf? h
    simpa [nodes, SimpleStmt.nodes, SimpleStmt.expr?, Expr.nodesOfOption, Expr.nodes] using hs
  | case2 first init condition update body ih =>
    obtain ⟨first', hfirst, rfl⟩ := Option.map_eq_some_iff.1 h
    have hparts : AllLocals Q first.nodes ∧ AllLocals Q (nodesOfList init) ∧
        AllLocals Q condition.nodes ∧ AllLocals Q (nodesOfList update) ∧
        AllLocals Q (nodesOfList body) := by simpa [nodes, nodesOfList, and_assoc] using hs
    simpa [nodes, nodesOfList, and_assoc] using And.intro (ih hfirst hparts.1) hparts.2
  | case3 name init condition update body ih =>
    obtain ⟨loop, hloop, rfl⟩ := Option.map_eq_some_iff.1 h
    have hs : AllLocals Q (forLoop init condition update body).nodes := hs
    simpa [nodes] using ih hloop hs
  | case4 | case5 => simp [declareAtStart?] at h

/-- Declaring a variable adds its declaration only. -/
theorem allLocals_declareOne {p : Stmt × List Stmt} {var : Nat}
    (hp : AllLocals Q (Stmt.nodesOfList (inOrder p)))
    (hvar : Q ((vars[var]?.getD default).toRef var)) :
    AllLocals Q (Stmt.nodesOfList (inOrder (declareOne vars p var))) := by
  rw [inOrder, Stmt.allLocals_append, Stmt.nodesOfList, Stmt.nodesOfList, List.append_nil] at hp
  unfold declareOne inOrder
  split
  · rename_i s hs
    simpa [Stmt.nodesOfList] using And.intro hp.1 (Stmt.allLocals_declareAtStart? hs hp.2)
  · simpa [Stmt.nodesOfList, Stmt.nodes, Expr.nodesOfOption, and_assoc] using ⟨hp.1, hvar, hp.2⟩

/-- Declaring variables in front of a statement adds their declarations only. -/
theorem allLocals_declareBefore {s : Stmt} {declared : List Nat} (hs : AllLocals Q s.nodes)
    (hdeclared : ∀ var ∈ declared, Q ((vars[var]?.getD default).toRef var)) :
    AllLocals Q (Stmt.nodesOfList (declareBefore vars s declared)) := by
  rw [declareBefore_eq]
  have hstart : AllLocals Q (Stmt.nodesOfList (inOrder (s, []))) := by
    simpa [inOrder, Stmt.nodesOfList] using hs
  revert hstart
  generalize (s, ([] : List Stmt)) = p
  induction declared generalizing p with
  | nil => exact id
  | cons var declared ih =>
    intro hp
    rw [List.foldl_cons]
    refine ih (fun other hother => hdeclared other (List.mem_cons_of_mem _ hother)) _ ?_
    exact allLocals_declareOne hp (hdeclared var List.mem_cons_self)

/-- The variables that are declared in one list are among the pending ones. -/
theorem of_mem_enclosedIn {total : Nat → Nat} {pending : List Nat} {body : List Stmt}
    (hpending : ∀ var ∈ pending, Q ((vars[var]?.getD default).toRef var)) :
    ∀ var ∈ enclosedIn total pending body, Q ((vars[var]?.getD default).toRef var) :=
  fun var hvar => hpending var (List.mem_of_mem_filter hvar)

mutual

/-- Placing declarations inside a statement adds only uses of pending variables. -/
theorem allLocals_placeInside {total : Nat → Nat} {pending : List Nat} {s : Stmt}
    (hpending : ∀ var ∈ pending, Q ((vars[var]?.getD default).toRef var)) (hs : AllLocals Q s.nodes) :
    AllLocals Q (placeInside vars total pending s).nodes := by
  -- every list inside the statement is placed with a part of the pending variables
  cases s with
  | simple | declaration | label | breakTo | continueTo | gotoLabel | comment => exact hs
  | block body => exact allLocals_placeList (of_mem_enclosedIn hpending) hs
  | ifElse c a b =>
    have hparts : AllLocals Q c.nodes ∧ AllLocals Q (Stmt.nodesOfList a) ∧
        AllLocals Q (Stmt.nodesOfList b) := by simpa [Stmt.nodes] using hs
    simpa [placeInside, Stmt.nodes] using ⟨hparts.1,
      allLocals_placeList (of_mem_enclosedIn hpending) hparts.2.1,
      allLocals_placeList (of_mem_enclosedIn hpending) hparts.2.2⟩
  | whileLoop c body | synchronized c body =>
    have hparts : AllLocals Q c.nodes ∧ AllLocals Q (Stmt.nodesOfList body) := by
      simpa [Stmt.nodes] using hs
    simpa [placeInside, Stmt.nodes] using And.intro hparts.1
      (allLocals_placeList (of_mem_enclosedIn hpending) hparts.2)
  | doWhile body c =>
    have hparts : AllLocals Q (Stmt.nodesOfList body) ∧ AllLocals Q c.nodes := by
      simpa [Stmt.nodes] using hs
    simpa [placeInside, Stmt.nodes] using And.intro
      (allLocals_placeList (of_mem_enclosedIn hpending) hparts.1) hparts.2
  | forLoop init c update body =>
    have hparts : AllLocals Q (Stmt.nodesOfList init) ∧ AllLocals Q c.nodes ∧
        AllLocals Q (Stmt.nodesOfList update) ∧ AllLocals Q (Stmt.nodesOfList body) := by
      simpa [Stmt.nodes] using hs
    simpa [placeInside, Stmt.nodes] using ⟨hparts.1, hparts.2.1, hparts.2.2.1,
      allLocals_placeList (of_mem_enclosedIn hpending) hparts.2.2.2⟩
  | forEach ref e body =>
    have hparts : Q ref ∧ AllLocals Q e.nodes ∧ AllLocals Q (Stmt.nodesOfList body) := by
      simpa [Stmt.nodes] using hs
    simpa [placeInside, Stmt.nodes] using ⟨hparts.1, hparts.2.1,
      allLocals_placeList (of_mem_enclosedIn hpending) hparts.2.2⟩
  | switch key cases =>
    have hparts : AllLocals Q key.nodes ∧ AllLocals Q (SwitchCase.nodesOfList cases) := by
      simpa [Stmt.nodes] using hs
    simpa [placeInside, Stmt.nodes] using And.intro hparts.1 (allLocals_placeCases hpending hparts.2)
  | tryCatch body catches finallyBody =>
    have hparts : AllLocals Q (Stmt.nodesOfList body) ∧ AllLocals Q (CatchClause.nodesOfList catches) ∧
        AllLocals Q (Stmt.nodesOfBody finallyBody) := by simpa [Stmt.nodes] using hs
    simpa [placeInside, Stmt.nodes] using ⟨allLocals_placeList (of_mem_enclosedIn hpending) hparts.1,
      allLocals_placeCatches hpending hparts.2.1, allLocals_placeFinally hpending hparts.2.2⟩
  | labeled _ s =>
    have hs : AllLocals Q s.nodes := hs
    simpa [placeInside, Stmt.nodes] using allLocals_placeInside hpending hs

/-- So does placing them in a list. -/
theorem allLocals_placeList {pending : List Nat} {body : List Stmt}
    (hpending : ∀ var ∈ pending, Q ((vars[var]?.getD default).toRef var))
    (hbody : AllLocals Q (Stmt.nodesOfList body)) :
    AllLocals Q (Stmt.nodesOfList (placeList vars pending body)) := by
  match body with
  | [] => exact Node.allLocals_nil
  | s :: rest =>
    rw [Stmt.nodesOfList, Node.allLocals_append] at hbody
    have hinside : ∀ {total nested}, (∀ var ∈ nested, var ∈ pending) →
        AllLocals Q (placeInside vars total nested s).nodes := fun hnested =>
      allLocals_placeInside (fun var hvar => hpending var (hnested var hvar)) hbody.1
    have hrest : ∀ {later}, (∀ var ∈ later, var ∈ pending) →
        AllLocals Q (Stmt.nodesOfList (placeList vars later rest)) := fun hlater =>
      allLocals_placeList (fun var hvar => hpending var (hlater var hvar)) hbody.2
    rw [placeList, Stmt.allLocals_append]
    refine ⟨allLocals_declareBefore (hinside fun var hvar => ?_) fun var hvar => hpending var ?_,
      hrest fun var hvar => List.mem_of_mem_filter hvar⟩
    · exact List.mem_of_mem_filter (List.mem_of_mem_filter (List.mem_of_mem_filter hvar))
    · exact List.mem_of_mem_filter (List.mem_of_mem_filter hvar)

/-- So does placing them in the arms of a switch. -/
theorem allLocals_placeCases {total : Nat → Nat} {pending : List Nat} {cases : List SwitchCase}
    (hpending : ∀ var ∈ pending, Q ((vars[var]?.getD default).toRef var))
    (hcases : AllLocals Q (SwitchCase.nodesOfList cases)) :
    AllLocals Q (SwitchCase.nodesOfList (placeCases vars total pending cases)) := by
  match cases with
  | [] => exact Node.allLocals_nil
  | ⟨_, body, _⟩ :: cases =>
    rw [SwitchCase.nodesOfList, Node.allLocals_append] at hcases
    rw [placeCases, SwitchCase.nodesOfList, Node.allLocals_append]
    exact ⟨allLocals_placeList (of_mem_enclosedIn hpending) hcases.1, allLocals_placeCases hpending hcases.2⟩

/-- So does placing them in catch clauses. -/
theorem allLocals_placeCatches {total : Nat → Nat} {pending : List Nat} {clauses : List CatchClause}
    (hpending : ∀ var ∈ pending, Q ((vars[var]?.getD default).toRef var))
    (hclauses : AllLocals Q (CatchClause.nodesOfList clauses)) :
    AllLocals Q (CatchClause.nodesOfList (placeCatches vars total pending clauses)) := by
  match clauses with
  | [] => exact Node.allLocals_nil
  | ⟨_, none, body⟩ :: clauses =>
    rw [CatchClause.nodesOfList, Node.allLocals_append] at hclauses
    rw [placeCatches, CatchClause.nodesOfList, Node.allLocals_append]
    exact ⟨allLocals_placeList (of_mem_enclosedIn hpending) hclauses.1,
      allLocals_placeCatches hpending hclauses.2⟩
  | ⟨_, some ref, body⟩ :: clauses =>
    rw [CatchClause.nodesOfList, Node.allLocals_append, Node.allLocals_append] at hclauses
    rw [placeCatches, CatchClause.nodesOfList, Node.allLocals_append, Node.allLocals_append]
    exact ⟨hclauses.1, allLocals_placeList (of_mem_enclosedIn hpending) hclauses.2.1,
      allLocals_placeCatches hpending hclauses.2.2⟩

/-- So does placing them in a `finally` part. -/
theorem allLocals_placeFinally {total : Nat → Nat} {pending : List Nat} {body : Option (List Stmt)}
    (hpending : ∀ var ∈ pending, Q ((vars[var]?.getD default).toRef var))
    (hbody : AllLocals Q (Stmt.nodesOfBody body)) :
    AllLocals Q (Stmt.nodesOfBody (placeFinally vars total pending body)) := by
  match body with
  | none => exact Node.allLocals_nil
  | some body => exact allLocals_placeList (of_mem_enclosedIn hpending) hbody

end

/-- Declaring variables adds their declarations only. -/
theorem BoundBody.allLocals_declare {b : BoundBody} (h : AllLocals Q (Stmt.nodesOfList b.statements))
    (hdeclared : ∀ (i : Nat) (v : LocalVariable), b.locals[i]? = some v → Q (v.toRef i)) :
    AllLocals Q (Stmt.nodesOfList b.declare.statements) := by
  refine allLocals_placeList (fun var hvar => ?_) h
  obtain ⟨⟨v, i⟩, hv, rfl⟩ := List.mem_map.1 hvar
  have hget : b.locals[i]? = some v := List.mem_zipIdx_iff_getElem?.1 (List.mem_of_mem_filter hv)
  rw [hget, Option.getD_some]
  exact hdeclared i v hget

end Declaring

/-! ## Narrowing literals -/

section Narrowing

variable {Q : LocalRef → Prop}

namespace Expr

/-- A negated condition has the uses of the condition. -/
@[simp] theorem allLocals_negate {e : Expr} : AllLocals Q e.negate.nodes ↔ AllLocals Q e.nodes := by
  induction e using negate.induct with
  | case1 | case2 | case3 => simp [negate, nodes]
  | case4 _ _ _ iha ihb | case5 _ _ _ iha ihb => simp [negate, nodes, iha, ihb]
  | case6 e hcompare hnot hliteral hand hor =>
    rw [negate]
    · simp [nodes]
    all_goals assumption

/-- A literal uses no variable. -/
theorem allLocals_literal {line : SourceLine} {value : Literal} : AllLocals Q (literal line value).nodes := by
  simp [nodes]

/-- A number that is written as a character uses no variable. -/
theorem allLocals_charLiteral {line : SourceLine} {value : Int32} {form : Option PushForm} :
    AllLocals Q (((charOf? value).map (literal line)).getD (literal line (.int value form))).nodes := by
  cases charOf? value <;> exact allLocals_literal

/-- Narrowing changes literals only. -/
theorem allLocals_narrow {expected : Ty} {isArgument : Bool} {e : Expr} (h : AllLocals Q e.nodes) :
    AllLocals Q (e.narrow expected isArgument).nodes := by
  fun_induction narrow expected isArgument e with
  | case1 | case2 | case5 | case7 | case8 => exact allLocals_literal
  | case3 => exact allLocals_charLiteral
  | case4 | case6 => simp [nodes]
  | case9 l condition a b _ iha ihb =>
    have hparts : AllLocals Q condition.nodes ∧ AllLocals Q a.nodes ∧ AllLocals Q b.nodes := by
      simpa [nodes] using h
    simpa [nodes] using ⟨hparts.1, iha hparts.2.1, ihb hparts.2.2⟩
  | case10 | case11 => exact h

/-- Nor does writing one so add a use. -/
theorem allLocals_pushedChar {e : Expr} (h : AllLocals Q e.nodes) : AllLocals Q e.pushedChar.nodes := by
  unfold pushedChar
  split
  · split
    · exact allLocals_charLiteral
    · exact allLocals_charLiteral
    · exact h
  · exact h

/-- A comparison with a truth value keeps the other operand. -/
theorem allLocals_simplifyTruth {e : Expr} (h : AllLocals Q e.nodes) :
    AllLocals Q e.simplifyTruth.nodes := by
  unfold simplifyTruth
  split
  · rename_i l op left right
    have hleft : AllLocals Q left.nodes := (show AllLocals Q left.nodes ∧ AllLocals Q right.nodes by
      simpa [nodes] using h).1
    split
    · split <;> simpa using hleft
    · split <;> simpa using hleft
    · exact h
  · exact h

end Expr

variable {ctx : TypeContext}

/-- The only effects of narrowing are warnings. -/
abbrev ResultLogic.warning : ResultLogic Infer := .keeping fun _ => True

/-- Refining an argument adds no use. -/
theorem ensures_refineArgument {callee : String} {arg : Expr} {parameter : Ty}
    (h : AllLocals Q arg.nodes) :
    ResultLogic.warning.ensures (ctx.refineArgument callee arg parameter) fun e => AllLocals Q e.nodes := by
  have harg : AllLocals Q (arg.narrow parameter true).nodes := Expr.allLocals_narrow h
  intro warnings _
  unfold TypeContext.refineArgument
  dsimp only
  cases ctx.inferredInt? (arg.narrow parameter true) with
  | none => exact ⟨harg, trivial⟩
  | some name =>
    by_cases hnarrow : parameter.isNarrowInt = true
    · simp only [hnarrow, if_true]
      exact ⟨harg, trivial⟩
    · simp only [hnarrow]
      exact ⟨harg, trivial⟩

/-- Refining several arguments adds none. -/
theorem ensures_refineEach {callee : String} {args : List Expr} {parameters : List Ty}
    (h : AllLocals Q (Expr.nodesOfList args)) :
    ResultLogic.warning.ensures (ctx.refineEach callee args parameters) fun es =>
      AllLocals Q (Expr.nodesOfList es) := by
  induction args generalizing parameters with
  | nil => exact fun _ _ => ⟨h, trivial⟩
  | cons arg args ih =>
    cases parameters with
    | nil => exact fun _ _ => ⟨h, trivial⟩
    | cons parameter parameters =>
      rw [Expr.nodesOfList, Node.allLocals_append] at h
      refine ResultLogic.bind _ (ensures_refineArgument h.1) fun arg harg =>
        ResultLogic.bind _ (ih h.2) fun args hargs => ResultLogic.pure _ ?_
      rw [Expr.nodesOfList, Node.allLocals_append]
      exact ⟨harg, hargs⟩

/-- Refining them by the descriptor of the call adds none. -/
theorem ensures_refineArguments {callee descriptor : String} {args : List Expr}
    (h : AllLocals Q (Expr.nodesOfList args)) :
    ResultLogic.warning.ensures (ctx.refineArguments callee descriptor args) fun es =>
      AllLocals Q (Expr.nodesOfList es) := by
  unfold TypeContext.refineArguments
  split
  · exact ensures_refineEach h
  · exact ResultLogic.pure _ h

/-- Refining an expression adds none. -/
theorem ensures_refine {e : Expr} (h : AllLocals Q e.nodes) :
    ResultLogic.warning.ensures (ctx.refine e) fun e => AllLocals Q e.nodes := by
  unfold TypeContext.refine
  -- the forms of expression that are refined themselves, in the order of the definition
  split
  -- a call: its arguments, the first of which may be written as a character
  · rename_i l kind object className name descriptor args
    have hparts : AllLocals Q (Expr.nodesOfOption object) ∧ AllLocals Q (Expr.nodesOfList args) := by
      simpa [Expr.nodes] using h
    refine ResultLogic.bind _ (ensures_refineArguments (Q := Q) ?_) fun args hargs =>
      ResultLogic.pure _ ?_
    · split
      · rename_i first rest _
        rw [Expr.nodesOfList, Node.allLocals_append] at hparts ⊢
        exact ⟨Expr.allLocals_pushedChar hparts.2.1, hparts.2.2⟩
      · exact hparts.2
    · simpa [Expr.nodes] using And.intro hparts.1 hargs
  · rename_i l className descriptor args
    refine ResultLogic.bind _ (ensures_refineArguments (by simpa [Expr.nodes] using h)) fun args hargs =>
      ResultLogic.pure _ ?_
    simpa [Expr.nodes] using hargs
  -- an assignment: the value, to the type of the target
  · rename_i l target value
    have hparts : AllLocals Q target.nodes ∧ AllLocals Q value.nodes := by simpa using h
    refine ResultLogic.pure _ ?_
    simpa using And.intro hparts.1 (Expr.allLocals_narrow hparts.2)
  -- a choice: the arm that is a number, to the type of the other
  · rename_i l condition a b
    have hparts : AllLocals Q condition.nodes ∧ AllLocals Q a.nodes ∧ AllLocals Q b.nodes := by
      simpa [Expr.nodes] using h
    split
    · refine ResultLogic.pure _ ?_
      simpa [Expr.nodes] using ⟨hparts.1, hparts.2.1, Expr.allLocals_narrow hparts.2.2⟩
    · split
      · refine ResultLogic.pure _ ?_
        simpa [Expr.nodes] using ⟨hparts.1, Expr.allLocals_narrow hparts.2.1, hparts.2.2⟩
      · exact ResultLogic.pure _ h
  · rename_i l op a b
    have hparts : AllLocals Q a.nodes ∧ AllLocals Q b.nodes := by simpa [Expr.nodes] using h
    split
    · refine ResultLogic.pure _ ?_
      simpa [Expr.nodes] using And.intro hparts.1 (Expr.allLocals_narrow hparts.2)
    · split
      · refine ResultLogic.pure _ ?_
        simpa [Expr.nodes] using And.intro (Expr.allLocals_narrow hparts.1) hparts.2
      · exact ResultLogic.pure _ h
  · exact ResultLogic.pure _ h

/-- Narrowing the types of expressions adds none. -/
theorem respects_narrowing : ctx.narrowing.Respects .warning Q Q where
  localVar _ href := ResultLogic.pure _ href
  expr e he := ResultLogic.bind _ (ensures_refine he) fun _ he =>
    ResultLogic.pure _ (Expr.allLocals_simplifyTruth he)
  simple s hs := by
    simp only [TypeContext.narrowing]
    split
    · exact ResultLogic.pure _ (Expr.allLocals_narrow hs)
    · exact ResultLogic.pure _ hs
  -- only a declaration with a value is narrowed
  stmt s hs := by
    simp only [TypeContext.narrowing]
    split
    · rename_i ref init
      have hparts : Q ref ∧ AllLocals Q init.nodes := by
        simpa [Stmt.nodes, Expr.nodesOfOption] using hs
      refine ResultLogic.pure _ ?_
      simpa [Stmt.nodes, Expr.nodesOfOption] using And.intro hparts.1 (Expr.allLocals_narrow hparts.2)
    · exact ResultLogic.pure _ hs
  body _ hb := ResultLogic.pure _ hb

/-- Narrowing literals makes no use of a variable. -/
theorem TypeContext.allLocals_inferTypes {body : List Stmt} (h : AllLocals Q (Stmt.nodesOfList body)) :
    AllLocals Q (Stmt.nodesOfList (ctx.inferTypes body).1) :=
  (respects_narrowing.onBody h [] trivial).1

end Narrowing

/-! ## Source forms -/

section SourceForms

variable {Q : LocalRef → Prop}

namespace Expr

/-- To leave out a conversion to text adds no use. -/
theorem allLocals_underValueOf {e : Expr} (h : AllLocals Q e.nodes) : AllLocals Q e.underValueOf.nodes := by
  unfold underValueOf
  split
  · rename_i object _ _ _ value
    split
    · have hparts : AllLocals Q (nodesOfOption object) ∧ AllLocals Q value.nodes := by
        simpa [nodes, nodesOfList] using h
      exact hparts.2
    · exact h
  · exact h

/-- The parts that a concatenation starts with are made of the arguments of the constructor. -/
theorem allLocals_initialParts? {descriptor : String} {args parts : List Expr}
    (h : initialParts? descriptor args = some parts) (hargs : AllLocals Q (nodesOfList args)) :
    AllLocals Q (nodesOfList parts) := by
  unfold initialParts? at h
  split at h
  · split at h
    · obtain rfl := Option.some.inj h
      exact hargs
    · cases h
  · rename_i initial
    have hinitial : AllLocals Q initial.nodes := by simpa [nodesOfList] using hargs
    split at h
    · obtain rfl := Option.some.inj h
      simpa [nodesOfList] using allLocals_underValueOf hinitial
    · split at h
      · obtain rfl := Option.some.inj h
        exact hargs
      · cases h
  · cases h

/-- What is in a builder is an operand of the calls that build it. -/
theorem allLocals_builderParts? {e : Expr} {parts : List Expr} (h : e.builderParts? = some parts)
    (he : AllLocals Q e.nodes) : AllLocals Q (nodesOfList parts) := by
  -- along the chain of calls down to where the builder is made
  induction e using builderParts?.induct generalizing parts with
  | case1 line object className name descriptor part happend ih =>
    rw [builderParts?, if_pos happend] at h
    obtain ⟨parts, hparts, rfl⟩ := Option.map_eq_some_iff.1 h
    have hsplit : AllLocals Q object.nodes ∧ AllLocals Q part.nodes := by
      simpa [nodes, nodesOfOption, nodesOfList] using he
    rw [allLocals_nodesOfList]
    intro e he
    rcases List.mem_append.1 he with he | he
    · exact allLocals_nodesOfList.1 (ih hparts hsplit.1) e he
    · obtain rfl := List.mem_singleton.1 he
      exact hsplit.2
  | case2 line object className name descriptor part happend =>
    rw [builderParts?, if_neg happend] at h
    cases h
  | case3 line className descriptor args hbuilder =>
    rw [builderParts?, if_pos hbuilder] at h
    exact allLocals_initialParts? h (by simpa [nodes] using he)
  | case4 line className descriptor args hbuilder =>
    rw [builderParts?, if_neg hbuilder] at h
    cases h
  | case5 e hinvoke hnew =>
    rw [builderParts?] at h
    · cases h
    · exact hinvoke
    · exact hnew

/-- A concatenation has the operands of the calls that it stands for. -/
theorem allLocals_foldConcat {e : Expr} (h : AllLocals Q e.nodes) : AllLocals Q e.foldConcat.nodes := by
  unfold foldConcat
  split
  · rename_i l object className name descriptor
    have hobject : AllLocals Q object.nodes := by simpa [nodes, nodesOfOption, nodesOfList] using h
    split
    · split
      · rename_i part parts hparts
        have hoperands := allLocals_builderParts? hparts hobject
        rw [nodes, Node.allLocals_cons, operandsOf]
        refine ⟨nofun, ?_⟩
        split
        · exact hoperands
        · rw [nodesOfList, Node.allLocals_append]
          exact ⟨allLocals_literal, hoperands⟩
      · exact h
    · exact h
  · exact h

end Expr

/-- Folding concatenations adds no use. -/
theorem respects_concatFolder : concatFolder.Respects .plain Q Q where
  localVar _ href := href
  expr _ he := Expr.allLocals_foldConcat he
  simple _ hs := hs
  stmt _ hs := hs
  body _ hb := hb

/-- A returned value is the one that is stored in front of the return. -/
theorem allLocals_temporaryReturn? {temporary : List Nat} {store ret s : Stmt} {var : Nat}
    (h : temporaryReturn? temporary store ret = some (var, s)) (hs : AllLocals Q store.nodes) :
    AllLocals Q s.nodes := by
  unfold temporaryReturn? at h
  obtain ⟨⟨stored, value, line⟩, hstored, h⟩ := Option.bind_eq_some_iff.1 h
  obtain ⟨⟨returned, line'⟩, -, h⟩ := Option.bind_eq_some_iff.1 h
  have hvalue : AllLocals Q value.nodes := by
    unfold Stmt.storedVar? at hstored
    split at hstored
    · rename_i ref init
      obtain ⟨_, _, heq⟩ := Option.map_eq_some_iff.1 hstored
      obtain rfl : init = value := congrArg (·.2.1) heq
      have hparts : Q ref ∧ AllLocals Q init.nodes := by
        simpa [Stmt.nodes, Expr.nodesOfOption] using hs
      exact hparts.2
    · rename_i s
      obtain ⟨⟨target, value'⟩, hassign, hstored⟩ := Option.bind_eq_some_iff.1 hstored
      obtain ⟨ref, -, hstored⟩ := Option.bind_eq_some_iff.1 hstored
      obtain ⟨_, -, hstored⟩ := Option.bind_eq_some_iff.1 hstored
      obtain rfl : value' = value := congrArg (·.2.1) (Option.some.inj hstored)
      obtain ⟨line, l, rfl⟩ := SimpleStmt.exists_of_asAssign? hassign
      have hparts : AllLocals Q target.nodes ∧ AllLocals Q value'.nodes := by
        simpa [Stmt.nodes, SimpleStmt.nodes, SimpleStmt.expr?, Expr.nodesOfOption] using hs
      exact hparts.2
    · cases hstored
  dsimp only at h
  split at h
  · obtain rfl : Stmt.simple (.return (line <|> line') (some value)) = s :=
      congrArg (·.2) (Option.some.inj h)
    simpa [Stmt.nodes, SimpleStmt.nodes, SimpleStmt.expr?, Expr.nodesOfOption] using hvalue
  · cases h

/-- Inlining the returned values in a list adds no use. -/
theorem allLocals_inlineReturns {temporary : List Nat} {body : List Stmt}
    (h : AllLocals Q (Stmt.nodesOfList body)) :
    AllLocals Q (Stmt.nodesOfList (inlineReturns temporary body).1) := by
  induction body using inlineReturns.induct temporary with
  | case1 | case2 => simpa [inlineReturns] using h
  | case3 s t rest var ret hret body unused hrest ih =>
    simp only [Stmt.nodesOfList, Node.allLocals_append] at h
    simp only [inlineReturns, hret, Stmt.nodesOfList, Node.allLocals_append]
    exact ⟨allLocals_temporaryReturn? hret h.1, ih h.2.2⟩
  | case4 s t rest hnone body unused hrest ih =>
    rw [Stmt.nodesOfList, Node.allLocals_append] at h
    simp only [inlineReturns, hnone, Stmt.nodesOfList, Node.allLocals_append]
    exact ⟨h.1, ih h.2⟩

/-- Nor does inlining them everywhere. -/
theorem respects_returnInliner {temporary : List Nat} :
    (returnInliner temporary).Respects (.keeping fun _ => True) Q Q where
  localVar _ href := ResultLogic.pure _ href
  expr _ he := ResultLogic.pure _ he
  simple _ hs := ResultLogic.pure _ hs
  stmt _ hs := ResultLogic.pure _ hs
  body _ hb := fun _ _ => ⟨allLocals_inlineReturns hb, trivial⟩

/-- Some of the statements of a list have only uses of the list. -/
theorem allLocals_of_subset {a b : List Stmt} (h : AllLocals Q (Stmt.nodesOfList b)) (hsub : a ⊆ b) :
    AllLocals Q (Stmt.nodesOfList a) := by
  rw [Stmt.allLocals_nodesOfList] at h ⊢
  exact fun s hs => h s (hsub hs)

/-- To drop a return at the end adds no statement. -/
theorem dropTrailingReturn_subset (body : List Stmt) : dropTrailingReturn body ⊆ body := by
  rw [dropTrailingReturn]
  split
  · exact List.dropLast_subset body
  · exact List.Subset.refl body

/-- To drop the call of the constructor above adds none. -/
theorem dropSuperCall_subset (superClass : Option String) (body : List Stmt) :
    dropSuperCall superClass body ⊆ body := by
  rw [dropSuperCall]
  split
  · exact (List.tail_sublist body).subset
  · exact List.Subset.refl body

/-- What holds of the uses in two lists holds of those in whichever is taken. -/
theorem allLocals_ite {p : Prop} [Decidable p] {a b : List Stmt} (ha : AllLocals Q (Stmt.nodesOfList a))
    (hb : AllLocals Q (Stmt.nodesOfList b)) : AllLocals Q (Stmt.nodesOfList (if p then a else b)) := by
  split
  · exact ha
  · exact hb

/-- Inlining temporaries adds no use. -/
theorem BoundBody.allLocals_inlineTemporaries {b : BoundBody}
    (h : AllLocals Q (Stmt.nodesOfList b.statements)) :
    AllLocals Q (Stmt.nodesOfList b.inlineTemporaries.statements) :=
  (respects_returnInliner.onBody h [] trivial).1

/-- Recovering source forms makes no use of a variable. -/
theorem BoundBody.allLocals_desugar {b : BoundBody} {method : MethodSummary} {concatenations : Bool}
    (h : AllLocals Q (Stmt.nodesOfList b.statements)) :
    AllLocals Q (Stmt.nodesOfList (b.desugar method concatenations).statements) := by
  have hfolded : AllLocals Q (Stmt.nodesOfList
      (if concatenations then Id.run (concatFolder.onBody b.statements) else b.statements)) :=
    allLocals_ite (respects_concatFolder.onBody h) h
  have hinlined := allLocals_inlineTemporaries (b := ⟨_, b.locals⟩) hfolded
  have hbody := allLocals_ite (p := method.returnsVoid = true)
    (allLocals_of_subset hinlined (dropTrailingReturn_subset _)) hinlined
  exact allLocals_ite (allLocals_of_subset hbody (dropSuperCall_subset method.superClass _)) hbody

end SourceForms

/-! ## Marking variables -/

/-- Changing some variables of a list in a way that `g` does not see. -/
theorem map_map_zipIdx {α : Type} {g : LocalVariable → α} {f : LocalVariable → LocalVariable}
    (hf : ∀ v, g (f v) = g v) (p : Nat → Bool) (vars : List LocalVariable) :
    (vars.zipIdx.map fun (v, i) => if p i then f v else v).map g = vars.map g := by
  rw [List.map_map]
  have hstep : (g ∘ fun x : LocalVariable × Nat => if p x.2 then f x.1 else x.1) = g ∘ Prod.fst := by
    funext ⟨v, i⟩
    by_cases hp : p i = true
    · rw [Function.comp_apply, if_pos hp, hf]
      rfl
    · rw [Function.comp_apply, if_neg hp]
      rfl
  show vars.zipIdx.map (g ∘ fun x : LocalVariable × Nat => if p x.2 then f x.1 else x.1) = _
  rw [hstep, ← List.map_map, List.zipIdx_map_fst]

/-- A variable without its flags. -/
def LocalVariable.unmarked (v : LocalVariable) : LocalVariable := { v with flags := 0 }

namespace BoundBody

/-- Declaring variables marks some of them. -/
theorem map_unmarked_declare (b : BoundBody) :
    b.declare.locals.map LocalVariable.unmarked = b.locals.map LocalVariable.unmarked := by
  let nodes := Stmt.nodesOfList b.statements
  let isDeclared (i : Nat) : Bool :=
    (nodes.flatMap Node.structuralVars).contains i || Node.count (Node.uses i) nodes ≠ 0
  exact map_map_zipIdx (f := LocalVariable.declared) (fun _ => rfl) isDeclared b.locals

/-- Recovering source forms marks some variables. -/
theorem map_unmarked_desugar (b : BoundBody) (method : MethodSummary) (concatenations : Bool) :
    (b.desugar method concatenations).locals.map LocalVariable.unmarked =
      b.locals.map LocalVariable.unmarked := by
  unfold desugar inlineTemporaries
  exact map_map_zipIdx (g := LocalVariable.unmarked) (f := LocalVariable.unused) (fun _ => rfl) _ _

end BoundBody

end JvmDecompiler
