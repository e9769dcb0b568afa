import JvmDecompiler.Proofs.JumpScope
import JvmDecompiler.Proofs.TreeTransform
import Mathlib

/-!
# Labels and the jumps to them

How often a label stands in a statement, and how often a jump names it. Both are counted as marks, and
marks are counted over the nodes of the statement: a statement has its own mark, if it is a label or a
jump, and those in the lists inside it (`Stmt.marks_eq`).

Cleaning up treats marks with care. Labels that stand in front of a statement that is taken out stay
where they are, and the labels that are removed in the end are those that no jump names. Only `finally`
code loses labels, and with the copies of it that are removed labels can go away as well.
-/

namespace JvmDecompiler

/-- A label, or a jump to it. -/
inductive Mark where
  | label (name : String)
  | goto (name : String)
  deriving DecidableEq, Repr

/-- Whether a statement by itself is a mark. -/
def Stmt.isMark (m : Mark) : Stmt → Bool
  | .label name => .label name = m
  | .gotoLabel name => .goto name = m
  | _ => false

namespace Stmt

/-- How often a mark is in a statement. -/
def marks (m : Mark) (s : Stmt) : Nat := Node.count (Node.isStmt (Stmt.isMark m)) s.nodes

/-- How often a mark is in a statement list. -/
def marksOfList (m : Mark) (body : List Stmt) : Nat := Node.count (Node.isStmt (Stmt.isMark m)) (nodesOfList body)

/-- The mark that a statement is. A label in front of a loop is looked through. -/
def mark? : Stmt → Option Mark
  | label name => some (.label name)
  | gotoLabel name => some (.goto name)
  | labeled _ body => body.mark?
  | _ => none

end Stmt

variable {m : Mark}

/-! ## Counting marks -/

/-- The marks in the arms of a switch are those in their bodies. -/
theorem SwitchCase.count_isMark_nodesOfList (cases : List SwitchCase) :
    Node.count (Node.isStmt (Stmt.isMark m)) (nodesOfList cases) =
      (cases.map fun c => Stmt.marksOfList m c.body).sum := by
  induction cases with
  | nil => rfl
  | cons c cases ih =>
    obtain ⟨_, body, _⟩ := c
    simp [nodesOfList, ih, Stmt.marksOfList]

/-- The marks in catch clauses are those in their bodies. -/
theorem CatchClause.count_isMark_nodesOfList (clauses : List CatchClause) :
    Node.count (Node.isStmt (Stmt.isMark m)) (nodesOfList clauses) =
      (clauses.map fun c => Stmt.marksOfList m c.body).sum := by
  induction clauses with
  | nil => rfl
  | cons c clauses ih =>
    obtain ⟨_, var, body⟩ := c
    cases var <;> simp [nodesOfList, LocalRef.nodes, ih, Stmt.marksOfList]

namespace Stmt

variable {s : Stmt} {body other : List Stmt}

@[simp] theorem marksOfList_nil : marksOfList m [] = 0 := rfl

/-- The marks in a list are counted statement by statement. -/
@[simp] theorem marksOfList_cons : marksOfList m (s :: body) = s.marks m + marksOfList m body :=
  Node.count_append _ _

/-- The marks in two lists add up. -/
@[simp] theorem marksOfList_append :
    marksOfList m (body ++ other) = marksOfList m body + marksOfList m other := by
  induction body with
  | nil => simp
  | cons s body ih => simp [ih, Nat.add_assoc]

/-- The marks in a list are those in its statements together. -/
theorem marksOfList_eq_sum (body : List Stmt) : marksOfList m body = (body.map (marks m)).sum := by
  induction body with
  | nil => rfl
  | cons s body ih => simp [ih]

/-- A simple statement holds no mark. -/
@[simp] theorem marks_simple (s : SimpleStmt) : (simple s).marks m = 0 := by
  simp [marks, nodes, SimpleStmt.nodes, isMark]

/-- Nor do several. -/
@[simp] theorem marksOfList_simple (stmts : List SimpleStmt) :
    marksOfList m (stmts.map simple) = 0 := by
  induction stmts with
  | nil => rfl
  | cons s stmts ih => simp [ih]

/-- A comment is no mark. -/
@[simp] theorem marks_comment (text : String) : (comment text).marks m = 0 := rfl

/-- The label of a loop or a switch is no mark. -/
@[simp] theorem marks_labeled (name : String) : (labeled name s).marks m = s.marks m := by
  simp [marks, nodes, isMark]

/-- A label is a mark itself. -/
theorem marks_label (name : String) : (label name).marks m = if m = .label name then 1 else 0 := by
  simp [marks, nodes, isMark, eq_comm]

/-- A jump to a label is a mark itself. -/
theorem marks_gotoLabel (name : String) :
    (gotoLabel name).marks m = if m = .goto name then 1 else 0 := by
  simp [marks, nodes, isMark, eq_comm]

/-- The marks in a statement are its own one and those in the lists inside it. -/
theorem marks_eq (s : Stmt) :
    s.marks m = (if s.mark? = some m then 1 else 0) + (s.childLists.map (marksOfList m)).sum := by
  match s with
  | .labeled name s => rw [marks_labeled, marks_eq s, mark?, childLists]
  | .tryCatch body catches finallyBody =>
    cases finallyBody <;> simp [marks, marksOfList, nodes, isMark, mark?, childLists,
      CatchClause.count_isMark_nodesOfList, nodesOfBody, Function.comp_def]
  | .switch key cases =>
    simp [marks, marksOfList, nodes, isMark, mark?, childLists, SwitchCase.count_isMark_nodesOfList,
      Function.comp_def]
  | .simple _ | .block _ | .declaration .. | .ifElse .. | .whileLoop .. | .doWhile .. | .forLoop ..
  | .forEach .. | .synchronized .. | .label _ | .breakTo _ | .continueTo _ | .gotoLabel _
  | .comment _ =>
    simp [marks, marksOfList, nodes, isMark, mark?, childLists, SimpleStmt.nodes, LocalRef.nodes]

/-- Leaving statements out leaves no more marks. -/
theorem marksOfList_le_of_sublist (h : body.Sublist other) :
    marksOfList m body ≤ marksOfList m other := by
  rw [marksOfList_eq_sum, marksOfList_eq_sum]
  exact (h.map (marks m)).sum_le_sum fun _ _ => Nat.zero_le _

/-- A change that adds no mark to the statements adds none to the list. -/
theorem marksOfList_map_le {f : Stmt → Stmt} (h : ∀ t ∈ body, (f t).marks m ≤ t.marks m) :
    marksOfList m (body.map f) ≤ marksOfList m body := by
  rw [marksOfList_eq_sum, marksOfList_eq_sum, List.map_map]
  exact List.sum_le_sum h

/-- A change that keeps the marks in the statements keeps those in the list. -/
theorem marksOfList_map_eq {f : Stmt → Stmt} (h : ∀ t ∈ body, (f t).marks m = t.marks m) :
    marksOfList m (body.map f) = marksOfList m body := by
  rw [marksOfList_eq_sum, marksOfList_eq_sum, List.map_map]
  exact congrArg List.sum (List.map_congr_left h)

/-- A list backwards has the same marks. -/
@[simp] theorem marksOfList_reverse : marksOfList m body.reverse = marksOfList m body := by
  simp only [marksOfList_eq_sum, List.map_reverse, List.sum_reverse]

end Stmt

/-! ## Marks in what is cleaned up -/

open Stmt

/-- Whether a statement is a mark does not depend on the lists inside it. -/
theorem Stmt.mark?_head (s : Stmt) : s.head.mark? = s.mark? := by
  match s with
  | .labeled _ s => exact mark?_head s
  | .simple _ | .block _ | .declaration .. | .ifElse .. | .whileLoop .. | .doWhile .. | .forLoop ..
  | .forEach .. | .switch .. | .tryCatch .. | .synchronized .. | .label _ | .breakTo _ | .continueTo _
  | .gotoLabel _ | .comment _ => rfl

/-- The mark that a statement is does not depend on what is in the lists inside it. -/
theorem Stmt.mark?_eq_of_head_eq {s t : Stmt} (h : s.head = t.head) : s.mark? = t.mark? := by
  rw [← mark?_head s, h, mark?_head]

/-- Deleting copies inside a statement adds no mark. -/
theorem marks_stripInside_le (pattern : List Stmt) (s : Stmt) :
    (stripInside pattern s).marks m ≤ s.marks m := by
  rw [marks_eq, marks_eq s, mark?_eq_of_head_eq (head_stripInside pattern s), childLists_stripInside,
    List.map_map]
  refine Nat.add_le_add_left (List.sum_le_sum fun body hbody => ?_) _
  calc marksOfList m (stripList pattern false body (stripEach pattern body))
      ≤ marksOfList m (stripEach pattern body) :=
        marksOfList_le_of_sublist (stripList_sublist pattern false body _)
    _ ≤ marksOfList m body := by
        rw [stripEach_eq_map]
        refine marksOfList_map_le fun t ht => ?_
        have hsize := (List.sizeOf_lt_of_mem ht).trans (sizeOf_lt_of_mem_childLists hbody)
        exact marks_stripInside_le pattern t
  termination_by sizeOf s

/-- Removing copies adds no marks. -/
theorem marksOfList_stripCopies_le (pattern : List Stmt) (atEnd : Bool) (body : List Stmt) :
    marksOfList m (stripCopies pattern atEnd body) ≤ marksOfList m body := by
  refine (marksOfList_le_of_sublist (stripList_sublist pattern atEnd body _)).trans ?_
  rw [stripEach_eq_map]
  exact marksOfList_map_le fun t _ => marks_stripInside_le pattern t

/-! ### Labels that nothing names -/

section Retain

variable {r : Transform Id} {keep : Stmt → Bool}

/-- Taking out statements without marks keeps the marks. -/
theorem marksOfList_filter {body : List Stmt} (h : ∀ s ∈ body, keep s = false → s.marks m = 0) :
    marksOfList m (body.filter keep) = marksOfList m body := by
  induction body with
  | nil => rfl
  | cons s body ih =>
    obtain ⟨hs, hbody⟩ := List.forall_mem_cons.1 h
    cases hkeep : keep s with
    | true => simp [hkeep, ih hbody]
    | false => simp [hkeep, ih hbody, hs hkeep]

/-- A transform that takes statements without a mark out of lists, and does nothing else, changes nothing
about the mark. -/
theorem Transform.OnlyLists.marks_onStmt (h : r.OnlyLists)
    (hbody : ∀ body, marksOfList m (r.body body) = marksOfList m body) (s : Stmt) :
    Stmt.marks m (r.onStmt s) = s.marks m := by
  obtain ⟨hhead, hlists⟩ := Transform.OnlyLists.onStmt h s
  rw [marks_eq, marks_eq s, mark?_eq_of_head_eq hhead, hlists, List.map_map]
  congr 2
  refine List.map_congr_left fun body hmem => ?_
  show marksOfList m (r.body (r.onStmts body)) = _
  rw [hbody, Transform.onStmts_eq_map]
  refine marksOfList_map_eq fun t ht => ?_
  have hsize := (List.sizeOf_lt_of_mem ht).trans (sizeOf_lt_of_mem_childLists hmem)
  exact Transform.OnlyLists.marks_onStmt h hbody t
  termination_by sizeOf s

end Retain

/-- Removing labels that no jump names leaves all jumps, and the labels that jumps name. -/
theorem marksOfList_retainLabels {used : List String} (h : ∀ name, m = .label name → name ∈ used)
    (body : List Stmt) : marksOfList m (retainLabels used body) = marksOfList m body := by
  obtain ⟨keep, hkeep, heq⟩ := exists_retainLabels_eq used
  let r : Transform Id := { body := fun body => pure (body.filter keep) }
  have hr : r.OnlyLists :=
    { expr := fun _ => rfl, localVar := fun _ => rfl, simple := fun _ => rfl, stmt := fun _ => rfl }
  have hbody : ∀ body, marksOfList m (r.body body) = marksOfList m body := by
    refine fun body => marksOfList_filter fun s _ hs => ?_
    obtain ⟨name, rfl, hname⟩ := hkeep s hs
    rw [marks_label, if_neg fun hm => hname (h name hm)]
  rw [heq]
  show marksOfList m (r.body (r.onStmts body)) = _
  rw [hbody, Transform.onStmts_eq_map]
  exact marksOfList_map_eq fun t _ => hr.marks_onStmt hbody t

/-! ### Statements that are taken out -/

/-- A statement without marks can be taken from behind labels. -/
theorem marksOfList_of_splitLabels {body labels rest : List Stmt} {s : Stmt}
    (h : splitLabels body = (labels, s :: rest)) (hs : s.marks m = 0) :
    marksOfList m (labels ++ rest) = marksOfList m body := by
  have happend := splitLabels_append body
  rw [h] at happend
  simp [← happend, hs]

/-- An assignment holds no mark. -/
theorem marks_of_asAssign? {s : Stmt} {assignment : Expr × Expr} (h : s.asAssign? = some assignment) :
    s.marks m = 0 := by
  cases s with
  | simple s => exact marks_simple s
  | _ => cases h

/-- To take the variable of a clause from its body takes no mark. -/
theorem marksOfList_takeCatchVar (body : List Stmt) :
    marksOfList m (takeCatchVar body).2 = marksOfList m body := by
  unfold takeCatchVar
  split
  · rename_i labels s rest hsplit
    split
    · rename_i var hvar
      refine marksOfList_of_splitLabels hsplit ?_
      unfold caughtVar? at hvar
      split at hvar
      · exact marks_of_asAssign? (by assumption)
      · cases hvar
    · rfl
  · rfl

/-- To take the lock of a synchronized statement takes none. -/
theorem marksOfList_of_takeMonitorEnter? {body out : List Stmt} {object : Expr}
    (h : takeMonitorEnter? body = some (object, out)) : marksOfList m out = marksOfList m body := by
  unfold takeMonitorEnter? at h
  split at h
  · rename_i labels line o rest hsplit
    cases h
    rw [marksOfList_reverse, marksOfList_of_splitLabels hsplit (marks_simple _), marksOfList_reverse]
  · cases h

/-- To take the element of a loop takes none. -/
theorem marksOfList_of_takeElement? {throughArray : Bool} {body rest : List Stmt} {var : LocalRef}
    (h : takeElement? throughArray body = some (var, rest)) :
    marksOfList m rest = marksOfList m body := by
  unfold takeElement? at h
  split at h
  · rename_i labels s tail hsplit
    simp only [Option.bind_eq_bind, Option.bind_eq_some_iff] at h
    obtain ⟨assignment, hassign, h⟩ := h
    split at h
    · simp at h
    · simp only [Option.pure_def, Option.bind_eq_some_iff, Option.some.injEq, Prod.mk.injEq] at h
      obtain ⟨_, -, -, rfl⟩ := h
      exact marksOfList_of_splitLabels hsplit (marks_of_asAssign? hassign)
  · cases h

end JvmDecompiler
