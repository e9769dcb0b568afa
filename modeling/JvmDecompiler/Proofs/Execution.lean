import JvmDecompiler.Proofs.TreeTransform
import JvmDecompiler.Structuring.Cleanup
import Mathlib.Data.Stream.Init

/-!
# Executing statements

What structured statements do, with the ordinary meaning of `if`, `while`, `do`, `for`, `switch`, labels,
`break` and `continue`. Expressions are not computed: an infinite sequence says which values conditions
and keys have, in the order in which they are evaluated (`Values`). What can be seen of an execution are
the simple statements that it runs, the conditions and keys that it evaluates, and its end.

A comparison and its negation ask the same question, so both are seen as the comparison with `==`, `<`
or `>`, and the value answers that.

An execution goes through a loop a limited number of times, and is unfinished if that is not enough.
-/

namespace JvmDecompiler

/-- The values of conditions and keys, in the order in which these are evaluated. A condition holds if
its value is not zero. -/
abbrev Values := Stream' Int32

/-- What can be seen of an execution. -/
inductive Event where
  | run (stmt : SimpleStmt)
  | test (condition : Expr)
  | key (value : Expr)
  | over

/-! ## Conditions -/

namespace CompareOp

/-- The operator that asks the same question with `==`, `<` or `>`. -/
def base : CompareOp → CompareOp
  | .eq | .ne => .eq
  | .lt | .ge => .lt
  | .gt | .le => .gt

/-- Whether the operator holds when the one that asks the same question does not. -/
def isNegated : CompareOp → Bool
  | .ne | .ge | .le => true
  | .eq | .lt | .gt => false

/-- The opposite operator asks the same question. -/
@[simp] theorem base_negate (op : CompareOp) : op.negate.base = op.base := by cases op <;> rfl

/-- It has the opposite answer. -/
@[simp] theorem isNegated_negate (op : CompareOp) : op.negate.isNegated = !op.isNegated := by
  cases op <;> rfl

end CompareOp

/-- What evaluating a condition comes to. -/
structure Tested where
  holds : Bool
  seen : List Event
  rest : Values

namespace Tested

/-- The opposite, found out in the same way. -/
def not (t : Tested) : Tested := { t with holds := !t.holds }

/-- The same behind something else. -/
def after (seen : List Event) (t : Tested) : Tested := { t with seen := seen ++ t.seen }

@[simp] theorem holds_not (t : Tested) : t.not.holds = !t.holds := rfl
@[simp] theorem seen_not (t : Tested) : t.not.seen = t.seen := rfl
@[simp] theorem rest_not (t : Tested) : t.not.rest = t.rest := rfl
@[simp] theorem not_not (t : Tested) : t.not.not = t := by simp [not]
@[simp] theorem holds_after (seen : List Event) (t : Tested) : (t.after seen).holds = t.holds := rfl
@[simp] theorem seen_after (seen : List Event) (t : Tested) : (t.after seen).seen = seen ++ t.seen := rfl
@[simp] theorem rest_after (seen : List Event) (t : Tested) : (t.after seen).rest = t.rest := rfl

end Tested

/-- Evaluate a condition. The logical operators evaluate their right operand only if the left one calls
for it. -/
def Expr.test : Expr → Values → Tested
  | .not _ e, vs => (e.test vs).not
  | .literal _ (.boolean b), vs => ⟨b, [], vs⟩
  | .binary _ .and left right, vs =>
    let t := left.test vs
    if t.holds then (right.test t.rest).after t.seen else t
  | .binary _ .or left right, vs =>
    let t := left.test vs
    if t.holds then t else (right.test t.rest).after t.seen
  | .compare line op left right, vs =>
    ⟨(vs.head != 0) != op.isNegated, [.test (.compare line op.base left right)], vs.tail⟩
  | e, vs => ⟨vs.head != 0, [.test e], vs.tail⟩

/-- A negated condition holds if the condition does not, and is evaluated in the same way. -/
@[simp] theorem Expr.test_negate (e : Expr) (vs : Values) : e.negate.test vs = (e.test vs).not := by
  fun_induction Expr.negate e generalizing vs with
  | case1 l op left right => simp [Expr.test, Tested.not]
  | case2 l e => simp [Expr.test]
  | case3 l b => rfl
  | case4 l left right ihl ihr =>
    simp only [Expr.test, ihl, ihr, Tested.holds_not, Tested.rest_not, Tested.seen_not]
    cases (left.test vs).holds <;> rfl
  | case5 l left right ihl ihr =>
    simp only [Expr.test, ihl, ihr, Tested.holds_not, Tested.rest_not, Tested.seen_not]
    cases (left.test vs).holds <;> rfl
  | case6 e => rfl

/-! ## Executions -/

/-- How control leaves a statement: behind it, or by a jump. -/
inductive Exit where
  | behind
  | breakTo (label : Option String)
  | continueTo (label : Option String)
  deriving DecidableEq

namespace Exit

/-- Whether control leaves the innermost statement that can be left by `break`. -/
def isBreak (e : Exit) : Bool := e = .breakTo none

/-- Whether control goes on with the next round of a loop that has some labels. -/
def resumes (labels : List String) : Exit → Bool
  | .continueTo none => true
  | .continueTo (some label) => labels.contains label
  | _ => false

end Exit

/-- How an execution ends. -/
inductive Outcome where
  | leaves (exit : Exit) (rest : Values)
  /-- A `return` or `throw` has been run. -/
  | over
  | unfinished
  /-- There is a statement that has no meaning here. -/
  | stuck

/-- What can be seen of an execution, and how it ends. -/
structure Execution where
  seen : List Event
  outcome : Outcome

namespace Execution

/-- Nothing is left to do. -/
def done (vs : Values) : Execution := ⟨[], .leaves .behind vs⟩

/-- The same behind something else. -/
def after (seen : List Event) (x : Execution) : Execution := { x with seen := seen ++ x.seen }

/-- Go on if control gets behind the first part. -/
def andThen (x : Execution) (f : Values → Execution) : Execution :=
  match x.outcome with
  | .leaves .behind vs => (f vs).after x.seen
  | _ => x

/-- Some jumps lead behind the statement. -/
def catching (p : Exit → Bool) (x : Execution) : Execution :=
  match x.outcome with
  | .leaves e vs => if p e then { x with outcome := .leaves .behind vs } else x
  | _ => x

/-- Go on if a condition holds, and leave the statement otherwise. -/
def guard (condition : Expr) (vs : Values) : Execution :=
  let t := condition.test vs
  ⟨t.seen, .leaves (if t.holds then .behind else .breakTo none) t.rest⟩

/-- Go through a loop, at most `n` times. -/
def iterate (round : Values → Execution) : (n : Nat) → Values → Execution
  | 0, _ => ⟨[], .unfinished⟩
  | n + 1, vs => (round vs).andThen (iterate round n)

/-- A loop. -/
def loop (fuel : Nat) (round : Values → Execution) (vs : Values) : Execution :=
  (iterate round fuel vs).catching Exit.isBreak

/-- All that can be seen, the end included. -/
def trace (x : Execution) : List Event :=
  match x.outcome with
  | .leaves .behind _ | .over => x.seen ++ [.over]
  | _ => x.seen

section

variable (x : Execution) (f g : Values → Execution) (seen : List Event) (vs : Values)

/-- Behind nothing an execution is as it is. -/
@[simp] theorem after_nil : x.after [] = x := rfl

/-- What can be seen in front of an execution adds up. -/
@[simp] theorem after_after (seen' : List Event) :
    (x.after seen').after seen = x.after (seen ++ seen') := by simp [after]

/-- Where nothing is left to do, the next part is all. -/
@[simp] theorem andThen_done : (done vs).andThen f = f vs := rfl

/-- What can be seen in front of a first part is in front of both. -/
@[simp] theorem andThen_after : (x.after seen).andThen f = (x.andThen f).after seen := by
  obtain ⟨s, o⟩ := x
  cases o with
  | leaves e vs => cases e <;> simp [andThen, after]
  | _ => rfl

/-- Where jumps lead does not depend on what can be seen in front. -/
@[simp] theorem catching_after (p : Exit → Bool) :
    (x.after seen).catching p = (x.catching p).after seen := by
  obtain ⟨s, o⟩ := x
  cases o with
  | leaves e vs =>
    simp only [catching, after]
    split <;> rfl
  | _ => rfl

/-- To do nothing more changes nothing. -/
theorem andThen_done_right : x.andThen done = x := by
  obtain ⟨s, o⟩ := x
  cases o with
  | leaves e vs => cases e <;> simp [andThen, after, done]
  | _ => rfl

/-- Three parts in a row can be put together in either way. -/
theorem andThen_assoc : (x.andThen f).andThen g = x.andThen fun vs => (f vs).andThen g := by
  obtain ⟨s, o⟩ := x
  cases o with
  | leaves e vs =>
    cases e with
    | behind => exact andThen_after (f vs) g s
    | _ => rfl
  | _ => rfl

end

end Execution

open Execution

/-- The arm at which a switch starts: the one for the key, else the default. -/
def switchEntry? (key : Int32) (arms : List (List (Option Int32))) : Option Nat :=
  arms.findIdx? (·.contains (some key)) <|> arms.findIdx? (·.contains none)

mutual

/-- Execute a statement that has some labels. -/
def Stmt.exec (fuel : Nat) (labels : List String) : Stmt → Values → Execution
  | .simple s, vs => ⟨[.run s], if s.endsFlow then .over else .leaves .behind vs⟩
  | .block body, vs => Stmt.execAll fuel body vs
  | .ifElse condition a b, vs =>
    let t := condition.test vs
    (if t.holds then Stmt.execAll fuel a t.rest else Stmt.execAll fuel b t.rest).after t.seen
  | .whileLoop condition body, vs =>
    loop fuel (fun vs => (guard condition vs).andThen fun vs =>
      (Stmt.execAll fuel body vs).catching (Exit.resumes labels)) vs
  | .doWhile body condition, vs =>
    loop fuel (fun vs => ((Stmt.execAll fuel body vs).catching (Exit.resumes labels)).andThen
      (guard condition)) vs
  | .forLoop init condition update body, vs =>
    (Stmt.execAll fuel init vs).andThen
      (loop fuel fun vs => (guard condition vs).andThen fun vs =>
        ((Stmt.execAll fuel body vs).catching (Exit.resumes labels)).andThen
          (Stmt.execAll fuel update))
  | .switch key arms, vs =>
    let x := match switchEntry? vs.head (arms.map SwitchCase.labels) with
      | some i => SwitchCase.execFrom fuel i arms vs.tail
      | none => done vs.tail
    (x.catching Exit.isBreak).after [.key key]
  | .labeled label s, vs =>
    (Stmt.exec fuel (label :: labels) s vs).catching (· = .breakTo (some label))
  | .breakTo label, vs => ⟨[], .leaves (.breakTo label) vs⟩
  | .continueTo label, vs => ⟨[], .leaves (.continueTo label) vs⟩
  | .label _, vs | .comment _, vs => done vs
  | .declaration .., _ | .forEach .., _ | .tryCatch .., _ | .synchronized .., _ | .gotoLabel _, _ =>
    ⟨[], .stuck⟩

/-- Execute the statements of a list. -/
def Stmt.execAll (fuel : Nat) : List Stmt → Values → Execution
  | [], vs => done vs
  | s :: rest, vs => (Stmt.exec fuel [] s vs).andThen (Stmt.execAll fuel rest)

/-- Execute the arms of a switch from the one at position `i` on. -/
def SwitchCase.execFrom (fuel : Nat) : (i : Nat) → List SwitchCase → Values → Execution
  | _, [], vs => done vs
  | 0, ⟨_, body, fallsThrough⟩ :: rest, vs =>
    (Stmt.execAll fuel body vs).andThen fun vs =>
      if fallsThrough then SwitchCase.execFrom fuel 0 rest vs else done vs
  | i + 1, _ :: rest, vs => SwitchCase.execFrom fuel i rest vs

end

/-! ## Lists of statements -/

namespace Stmt

variable {fuel : Nat}

/-- Two lists are executed one after the other. -/
theorem execAll_append (a b : List Stmt) (vs : Values) :
    execAll fuel (a ++ b) vs = (execAll fuel a vs).andThen (execAll fuel b) := by
  induction a generalizing vs with
  | nil => simp [execAll]
  | cons s a ih =>
    have hrest : execAll fuel (a ++ b) = fun vs => (execAll fuel a vs).andThen (execAll fuel b) :=
      funext ih
    simp only [List.cons_append, execAll, andThen_assoc, hrest]

/-- A list of one statement is executed as the statement. -/
@[simp] theorem execAll_singleton (s : Stmt) (vs : Values) : execAll fuel [s] vs = exec fuel [] s vs := by
  simp only [execAll]
  exact andThen_done_right _

/-- A label does nothing. -/
theorem exec_of_isLabel {s : Stmt} (h : s.isLabel = true) (labels : List String) (vs : Values) :
    exec fuel labels s vs = done vs := by
  cases s with
  | label => simp [exec]
  | _ => cases h

/-- Taking labels out of a list does not change what it does. -/
theorem execAll_filter {keep : Stmt → Bool} {body : List Stmt}
    (h : ∀ s ∈ body, keep s = false → s.isLabel = true) :
    execAll fuel (body.filter keep) = execAll fuel body := by
  induction body with
  | nil => rfl
  | cons s body ih =>
    have ih := ih fun t ht => h t (List.mem_cons_of_mem s ht)
    funext vs
    cases hkeep : keep s with
    | true => rw [List.filter_cons_of_pos hkeep, execAll, execAll, ih]
    | false =>
      have hlabel := h s List.mem_cons_self hkeep
      rw [List.filter_cons_of_neg (by simp [hkeep]), execAll, exec_of_isLabel hlabel, andThen_done, ih]

/-- The simple statements of a block none of which ends the method. -/
theorem execAll_map_simple {stmts : List SimpleStmt} (h : ∀ s ∈ stmts, s.endsFlow = false)
    (vs : Values) :
    execAll fuel (stmts.map .simple) vs = ⟨stmts.map .run, .leaves .behind vs⟩ := by
  induction stmts with
  | nil => simp [execAll, done]
  | cons s stmts ih =>
    have hs : exec fuel [] (.simple s) vs = (done vs).after [.run s] := by
      simp [exec, h s List.mem_cons_self, done, after]
    rw [List.map_cons, execAll, hs, andThen_after, andThen_done,
      ih fun t ht => h t (List.mem_cons_of_mem s ht)]
    rfl

/-- Control does not get behind a list that ends with a jump. -/
theorem not_behind_of_isJump {body : List Stmt} (h : (codeOf body).getLast?.any isJump = true)
    (vs rest : Values) : (execAll fuel body vs).outcome ≠ .leaves .behind rest := by
  -- a label at the end does not matter, since labels do nothing
  have hcode : execAll fuel (codeOf body) = execAll fuel body :=
    execAll_filter fun s _ hs => by simpa using hs
  obtain ⟨last, hlast, hjump⟩ := (Option.any_eq_true _ _).1 h
  obtain ⟨front, hfront⟩ := List.getLast?_eq_some_iff.1 hlast
  -- control leaves the last statement by a jump, if it gets there
  have hend : ∀ vs rest, (exec fuel [] last vs).outcome ≠ .leaves .behind rest := by
    intro vs rest
    cases last with
    | simple s => simp_all [isJump, exec]
    | breakTo | continueTo | gotoLabel => simp [exec]
    | _ => cases hjump
  rw [← hcode, hfront, execAll_append, funext (execAll_singleton last)]
  intro hbehind
  unfold andThen at hbehind
  split at hbehind
  · exact hend _ _ hbehind
  · rename_i hnot
    exact hnot _ hbehind

end Stmt

/-! ## Labels that nothing names -/

namespace Transform

/-- A transform that changes nothing but the lists of statements. -/
structure OnlyLists (r : Transform Id) : Prop where
  expr : ∀ e, r.expr e = e
  localVar : ∀ ref, r.localVar ref = ref
  simple : ∀ s, r.simple s = s
  stmt : ∀ s, r.stmt s = s

variable {r : Transform Id} {fuel : Nat}

/-- A transform of lists leaves expressions as they are. -/
theorem OnlyLists.onExpr (h : r.OnlyLists) (e : Expr) : r.onExpr e = e := onExpr_eq_self h.expr h.localVar e

/-- It leaves expressions that may be absent as they are. -/
theorem OnlyLists.onOption (h : r.OnlyLists) (e : Option Expr) : r.onOption e = e :=
  onOption_eq_self h.expr h.localVar e

/-- It leaves simple statements as they are. -/
theorem OnlyLists.onSimple (h : r.OnlyLists) (s : SimpleStmt) : r.onSimple s = s :=
  onSimple_eq_self h.expr h.localVar h.simple s

/-- A transform that only takes labels out of lists changes nothing of what statements do. -/
structure DropsLabels (r : Transform Id) : Prop extends r.OnlyLists where
  execAll : ∀ fuel body, Stmt.execAll fuel (r.body body) = Stmt.execAll fuel body

/-- A transform leaves the labels of the arms of a switch as they are. -/
theorem map_labels_onCases (arms : List SwitchCase) :
    List.map SwitchCase.labels (r.onCases arms) = arms.map SwitchCase.labels := by
  induction arms with
  | nil => rfl
  | cons arm arms ih =>
    obtain ⟨labels, body, fallsThrough⟩ := arm
    exact congrArg (labels :: ·) ih

mutual

/-- A statement without its labels in lists is executed as before. -/
theorem DropsLabels.exec (h : r.DropsLabels) (labels : List String) (s : Stmt) :
    Stmt.exec fuel labels (r.onStmt s) = Stmt.exec fuel labels s := by
  have hlist : ∀ body, Stmt.execAll fuel (r.onStmts body) = Stmt.execAll fuel body →
      Stmt.execAll fuel (r.body (r.onStmts body)) = Stmt.execAll fuel body :=
    fun body hbody => (h.execAll fuel _).trans hbody
  cases s with
  | label | breakTo | continueTo | gotoLabel | comment => exact congrArg _ (h.stmt _)
  | simple s => exact congrArg _ ((h.stmt _).trans (congrArg Stmt.simple (h.onSimple s)))
  | block body =>
    have hbody := hlist body (DropsLabels.execAll_onStmts h body)
    have heq : r.onStmt (.block body) = .block (r.body (r.onStmts body)) := h.stmt _
    simp only [heq, Stmt.exec, hbody]
  | ifElse c a b =>
    have ha := hlist a (DropsLabels.execAll_onStmts h a)
    have hb := hlist b (DropsLabels.execAll_onStmts h b)
    have heq : r.onStmt (.ifElse c a b) =
        .ifElse c (r.body (r.onStmts a)) (r.body (r.onStmts b)) :=
      (h.stmt _).trans (by rw [h.onExpr])
    simp only [heq, Stmt.exec, ha, hb]
  | whileLoop c body =>
    have hbody := hlist body (DropsLabels.execAll_onStmts h body)
    have heq : r.onStmt (.whileLoop c body) = .whileLoop c (r.body (r.onStmts body)) :=
      (h.stmt _).trans (by rw [h.onExpr])
    simp only [heq, Stmt.exec, hbody]
  | doWhile body c =>
    have hbody := hlist body (DropsLabels.execAll_onStmts h body)
    have heq : r.onStmt (.doWhile body c) = .doWhile (r.body (r.onStmts body)) c :=
      (h.stmt _).trans (by rw [h.onExpr])
    simp only [heq, Stmt.exec, hbody]
  | forLoop init c update body =>
    have hinit := hlist init (DropsLabels.execAll_onStmts h init)
    have hupdate := hlist update (DropsLabels.execAll_onStmts h update)
    have hbody := hlist body (DropsLabels.execAll_onStmts h body)
    have heq : r.onStmt (.forLoop init c update body) = .forLoop (r.body (r.onStmts init)) c
        (r.body (r.onStmts update)) (r.body (r.onStmts body)) :=
      (h.stmt _).trans (by rw [h.onExpr])
    simp only [heq, Stmt.exec, hinit, hupdate, hbody]
  | switch key arms =>
    have harms := fun i => DropsLabels.execFrom h i arms
    have heq : r.onStmt (.switch key arms) = .switch key (r.onCases arms) :=
      (h.stmt _).trans (by rw [h.onExpr])
    simp only [heq, Stmt.exec, harms, map_labels_onCases]
  | labeled label s =>
    have hs := DropsLabels.exec h (label :: labels) s
    have heq : r.onStmt (.labeled label s) = .labeled label (r.onStmt s) := h.stmt _
    simp only [heq, Stmt.exec, hs]
  -- the last four forms have no execution of their own, so it is enough that they keep their form
  | declaration ref init =>
    have heq : ∃ ref' init', r.onStmt (.declaration ref init) = .declaration ref' init' :=
      ⟨_, _, h.stmt _⟩
    obtain ⟨ref', init', heq⟩ := heq
    simp only [heq, Stmt.exec]
  | forEach ref e body =>
    have heq : ∃ ref' e' body', r.onStmt (.forEach ref e body) = .forEach ref' e' body' :=
      ⟨_, _, _, h.stmt _⟩
    obtain ⟨ref', e', body', heq⟩ := heq
    simp only [heq, Stmt.exec]
  | tryCatch body catches finallyBody =>
    have heq : ∃ body' catches' finallyBody',
        r.onStmt (.tryCatch body catches finallyBody) = .tryCatch body' catches' finallyBody' :=
      ⟨_, _, _, h.stmt _⟩
    obtain ⟨body', catches', finallyBody', heq⟩ := heq
    simp only [heq, Stmt.exec]
  | synchronized e body =>
    have heq : ∃ e' body', r.onStmt (.synchronized e body) = .synchronized e' body' :=
      ⟨_, _, h.stmt _⟩
    obtain ⟨e', body', heq⟩ := heq
    simp only [heq, Stmt.exec]

/-- So are the statements of a list. -/
theorem DropsLabels.execAll_onStmts (h : r.DropsLabels) (body : List Stmt) :
    Stmt.execAll fuel (r.onStmts body) = Stmt.execAll fuel body := by
  match body with
  | [] => rfl
  | s :: rest =>
    funext vs
    have hs := DropsLabels.exec h [] s
    have hrest := DropsLabels.execAll_onStmts h rest
    have heq : r.onStmts (s :: rest) = r.onStmt s :: r.onStmts rest := rfl
    simp only [heq, Stmt.execAll, hs, hrest]

/-- So are the arms of a switch. -/
theorem DropsLabels.execFrom (h : r.DropsLabels) (i : Nat) (arms : List SwitchCase) :
    SwitchCase.execFrom fuel i (r.onCases arms) = SwitchCase.execFrom fuel i arms := by
  match arms with
  | [] => rfl
  | ⟨labels, body, fallsThrough⟩ :: rest =>
    funext vs
    have hbody := (h.execAll fuel _).trans (DropsLabels.execAll_onStmts h body)
    have hrest := fun i => DropsLabels.execFrom h i rest
    have heq : r.onCases (⟨labels, body, fallsThrough⟩ :: rest) =
        ⟨labels, r.body (r.onStmts body), fallsThrough⟩ :: r.onCases rest := rfl
    cases i with
    | zero => simp only [heq, SwitchCase.execFrom, hbody, hrest]
    | succ i => simp only [heq, SwitchCase.execFrom, hrest]

end

end Transform

/-- Removing labels that no jump names is a transform of lists that takes nothing but labels away. -/
theorem exists_retainLabels_eq (used : List String) :
    ∃ keep : Stmt → Bool, (∀ s, keep s = false → ∃ name, s = .label name ∧ name ∉ used) ∧
      ∀ body, retainLabels used body =
        Id.run (({ body := fun body => pure (body.filter keep) } : Transform Id).onBody body) := by
  refine ⟨_, fun s hs => ?_, fun _ => rfl⟩
  cases s with
  | label name => exact ⟨name, rfl, by simpa using hs⟩
  | _ => cases hs

/-- Removing labels that no jump names does not change what statements do. -/
theorem Stmt.execAll_retainLabels (used : List String) (fuel : Nat) (body : List Stmt) :
    Stmt.execAll fuel (retainLabels used body) = Stmt.execAll fuel body := by
  obtain ⟨keep, hkeep, heq⟩ := exists_retainLabels_eq used
  have h : Transform.DropsLabels ({ body := fun body => pure (body.filter keep) } : Transform Id) :=
    { expr := fun _ => rfl
      localVar := fun _ => rfl
      simple := fun _ => rfl
      stmt := fun _ => rfl
      execAll := fun fuel body => execAll_filter fun s _ hs => by
        obtain ⟨name, rfl, -⟩ := hkeep s hs
        rfl }
  rw [heq]
  exact (h.execAll fuel _).trans (h.execAll_onStmts body)

end JvmDecompiler
