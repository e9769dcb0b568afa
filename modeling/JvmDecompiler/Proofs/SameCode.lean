import JvmDecompiler.Proofs.NodeVisits
import JvmDecompiler.Structuring.Cleanup

/-!
# Copies of the same code

`normalize` forgets where code is from, so that copies of it can be compared. Two pieces of code are copies of
each other if they differ in what belongs to the place where they stand and in nothing else: the labels in
their lists, the lines of their nodes, the addresses of the uses of variables and what these are bound to. This
is `Expr.SameCode` for expressions and `Stmt.SameBody` for lists of statements, relations between trees as
they are. Floating-point constants agree if they are equal as numbers, as everywhere where trees are compared.

The normal forms of two lists are equal exactly if the lists are the same code
(`Stmt.equalList_normalize_iff`). The induction over trees has one case for each form of node: a child that was
forgotten, by the relation or by the traversal that makes normal forms, would show in the case of its parent.
-/

namespace JvmDecompiler

/-! ## The relation -/

/-- Two uses of a variable with the same slot, name and type. -/
structure LocalRef.SameUse (v w : LocalRef) : Prop where
  slot : v.slot = w.slot
  name : v.name = w.name
  type : v.type = w.type

/-- Two expressions that differ only in lines, in the addresses of uses and in what these are bound to. -/
inductive Expr.SameCode : Expr → Expr → Prop
  | literal {l m v w} (h : Literal.equal v w = true) : Expr.SameCode (.literal l v) (.literal m w)
  | localVar {l m v w} (h : v.SameUse w) : Expr.SameCode (.localVar l v) (.localVar m w)
  | this {l m} : Expr.SameCode (.this l) (.this m)
  | caught {l m className} : Expr.SameCode (.caught l className) (.caught m className)
  | binary {l m op a b c d} (left : Expr.SameCode a c) (right : Expr.SameCode b d) :
    Expr.SameCode (.binary l op a b) (.binary m op c d)
  | compare {l m op a b c d} (left : Expr.SameCode a c) (right : Expr.SameCode b d) :
    Expr.SameCode (.compare l op a b) (.compare m op c d)
  | not {l m a b} (operand : Expr.SameCode a b) : Expr.SameCode (.not l a) (.not m b)
  | neg {l m a b} (operand : Expr.SameCode a b) : Expr.SameCode (.neg l a) (.neg m b)
  | cast {l m type a b} (operand : Expr.SameCode a b) : Expr.SameCode (.cast l type a) (.cast m type b)
  | instanceOf {l m className a b} (operand : Expr.SameCode a b) :
    Expr.SameCode (.instanceOf l a className) (.instanceOf m b className)
  | field {l m className name type a b} (object : Option.Rel Expr.SameCode a b) :
    Expr.SameCode (.field l a className name type) (.field m b className name type)
  | invoke {l m kind className name descriptor a b as bs} (object : Option.Rel Expr.SameCode a b)
    (args : List.Forall₂ Expr.SameCode as bs) :
    Expr.SameCode (.invoke l kind a className name descriptor as) (.invoke m kind b className name descriptor bs)
  | invokeDynamic {l m name descriptor as bs} (args : List.Forall₂ Expr.SameCode as bs) :
    Expr.SameCode (.invokeDynamic l name descriptor as) (.invokeDynamic m name descriptor bs)
  | new {l m className descriptor as bs} (args : List.Forall₂ Expr.SameCode as bs) :
    Expr.SameCode (.new l className descriptor as) (.new m className descriptor bs)
  | newArray {l m element as bs} (dimensions : List.Forall₂ Expr.SameCode as bs) :
    Expr.SameCode (.newArray l element as) (.newArray m element bs)
  | arrayLength {l m a b} (array : Expr.SameCode a b) : Expr.SameCode (.arrayLength l a) (.arrayLength m b)
  | arrayLoad {l m a b c d} (array : Expr.SameCode a c) (index : Expr.SameCode b d) :
    Expr.SameCode (.arrayLoad l a b) (.arrayLoad m c d)
  | assign {l m a b c d} (target : Expr.SameCode a c) (value : Expr.SameCode b d) :
    Expr.SameCode (.assign l a b) (.assign m c d)
  | increment {l m delta before a b} (target : Expr.SameCode a b) :
    Expr.SameCode (.increment l a delta before) (.increment m b delta before)
  | ternary {l m a b c d e f} (condition : Expr.SameCode a d) (thenExpr : Expr.SameCode b e)
    (elseExpr : Expr.SameCode c f) : Expr.SameCode (.ternary l a b c) (.ternary m d e f)
  | concat {l m as bs} (parts : List.Forall₂ Expr.SameCode as bs) :
    Expr.SameCode (.concat l as) (.concat m bs)
  | threeWay {l m kind a b c d} (left : Expr.SameCode a c) (right : Expr.SameCode b d) :
    Expr.SameCode (.threeWay l kind a b) (.threeWay m kind c d)
  | uninitNew {l m className} : Expr.SameCode (.uninitNew l className) (.uninitNew m className)
  | unresolved {l m text} : Expr.SameCode (.unresolved l text) (.unresolved m text)

/-- Two simple statements that differ only in where they are from. -/
inductive SimpleStmt.SameCode : SimpleStmt → SimpleStmt → Prop
  | expr {l m a b} (value : Expr.SameCode a b) : SimpleStmt.SameCode (.expr l a) (.expr m b)
  | return {l m a b} (value : Option.Rel Expr.SameCode a b) : SimpleStmt.SameCode (.return l a) (.return m b)
  | throw {l m a b} (value : Expr.SameCode a b) : SimpleStmt.SameCode (.throw l a) (.throw m b)
  | monitorEnter {l m a b} (object : Expr.SameCode a b) :
    SimpleStmt.SameCode (.monitorEnter l a) (.monitorEnter m b)
  | monitorExit {l m a b} (object : Expr.SameCode a b) :
    SimpleStmt.SameCode (.monitorExit l a) (.monitorExit m b)

/-- Two lists whose statements are related one by one, between labels that may be anywhere in either of
them. -/
inductive Stmt.UpToLabels (R : Stmt → Stmt → Prop) : List Stmt → List Stmt → Prop
  | nil : Stmt.UpToLabels R [] []
  | cons {s t a b} (first : R s t) (rest : Stmt.UpToLabels R a b) : Stmt.UpToLabels R (s :: a) (t :: b)
  | labelLeft {name a b} (rest : Stmt.UpToLabels R a b) : Stmt.UpToLabels R (.label name :: a) b
  | labelRight {name a b} (rest : Stmt.UpToLabels R a b) : Stmt.UpToLabels R a (.label name :: b)

mutual

/-- Two statements that differ only in where they are from, and in the labels in the lists inside them. -/
inductive Stmt.SameCode : Stmt → Stmt → Prop
  | simple {s t} (h : SimpleStmt.SameCode s t) : Stmt.SameCode (.simple s) (.simple t)
  | block {a b} (body : Stmt.UpToLabels Stmt.SameCode a b) : Stmt.SameCode (.block a) (.block b)
  | declaration {v w a b} (var : v.SameUse w) (init : Option.Rel Expr.SameCode a b) :
    Stmt.SameCode (.declaration v a) (.declaration w b)
  | ifElse {a b c d p q} (condition : Expr.SameCode p q) (thenBody : Stmt.UpToLabels Stmt.SameCode a c)
    (elseBody : Stmt.UpToLabels Stmt.SameCode b d) : Stmt.SameCode (.ifElse p a b) (.ifElse q c d)
  | whileLoop {a b p q} (condition : Expr.SameCode p q) (body : Stmt.UpToLabels Stmt.SameCode a b) :
    Stmt.SameCode (.whileLoop p a) (.whileLoop q b)
  | doWhile {a b p q} (body : Stmt.UpToLabels Stmt.SameCode a b) (condition : Expr.SameCode p q) :
    Stmt.SameCode (.doWhile a p) (.doWhile b q)
  | forLoop {a b c d e f p q} (init : Stmt.UpToLabels Stmt.SameCode a d) (condition : Expr.SameCode p q)
    (update : Stmt.UpToLabels Stmt.SameCode b e) (body : Stmt.UpToLabels Stmt.SameCode c f) :
    Stmt.SameCode (.forLoop a p b c) (.forLoop d q e f)
  | forEach {v w a b p q} (var : v.SameUse w) (iterable : Expr.SameCode p q)
    (body : Stmt.UpToLabels Stmt.SameCode a b) : Stmt.SameCode (.forEach v p a) (.forEach w q b)
  | switch {p q as bs} (key : Expr.SameCode p q) (cases : List.Forall₂ SwitchCase.SameCode as bs) :
    Stmt.SameCode (.switch p as) (.switch q bs)
  | tryCatch {a b as bs f g} (body : Stmt.UpToLabels Stmt.SameCode a b)
    (catches : List.Forall₂ CatchClause.SameCode as bs)
    (finallyBody : Option.Rel (Stmt.UpToLabels Stmt.SameCode) f g) :
    Stmt.SameCode (.tryCatch a as f) (.tryCatch b bs g)
  | synchronized {a b p q} (object : Expr.SameCode p q) (body : Stmt.UpToLabels Stmt.SameCode a b) :
    Stmt.SameCode (.synchronized p a) (.synchronized q b)
  | labeled {label s t} (body : Stmt.SameCode s t) : Stmt.SameCode (.labeled label s) (.labeled label t)
  | label {name} : Stmt.SameCode (.label name) (.label name)
  | breakTo {label} : Stmt.SameCode (.breakTo label) (.breakTo label)
  | continueTo {label} : Stmt.SameCode (.continueTo label) (.continueTo label)
  | gotoLabel {label} : Stmt.SameCode (.gotoLabel label) (.gotoLabel label)
  | comment {text} : Stmt.SameCode (.comment text) (.comment text)

/-- Two arms of switches that differ only in their bodies, and there only as statements do. -/
inductive SwitchCase.SameCode : SwitchCase → SwitchCase → Prop
  | mk {labels a b fallsThrough} (body : Stmt.UpToLabels Stmt.SameCode a b) :
    SwitchCase.SameCode ⟨labels, a, fallsThrough⟩ ⟨labels, b, fallsThrough⟩

/-- Two catch clauses of the same classes that differ only as uses of variables and as statements do. -/
inductive CatchClause.SameCode : CatchClause → CatchClause → Prop
  | mk {classes v w a b} (var : Option.Rel LocalRef.SameUse v w) (body : Stmt.UpToLabels Stmt.SameCode a b) :
    CatchClause.SameCode ⟨classes, v, a⟩ ⟨classes, w, b⟩

end

/-- Two lists of statements that differ only in the labels of lists, in the lines and addresses of nodes and in
what variables are bound to. -/
abbrev Stmt.SameBody : List Stmt → List Stmt → Prop := UpToLabels SameCode

/-! ## Normal forms -/

/-- What `normalize` does to each node and to each list. -/
def Transform.normalizing : Transform Id :=
  { erasePositions with body := fun body => pure (codeOf body) }

open Transform (normalizing)

namespace LocalRef

/-- Two uses are equal without positions if they have the same slot, name and type. -/
theorem erased_eq_iff {v w : LocalRef} : v.erased = w.erased ↔ v.SameUse w := by
  constructor
  · intro h
    exact ⟨congrArg (·.slot) h, congrArg (·.name) h, congrArg (·.type) h⟩
  · rintro ⟨hslot, hname, htype⟩
    rw [erased, erased, hslot, hname, htype]

/-- The normal form of the variable of a catch clause. -/
def normalOption (v : Option LocalRef) : Option LocalRef := Id.run (normalizing.onCatchVar v)

/-- So are the variables of two clauses. -/
theorem normalOption_eq_iff {v w : Option LocalRef} :
    normalOption v = normalOption w ↔ Option.Rel SameUse v w := by
  constructor
  · intro h
    cases v with
    | none =>
      cases w with
      | none => exact .none
      | some => nomatch h
    | some v =>
      cases w with
      | none => nomatch h
      | some w => exact .some (erased_eq_iff.1 (Option.some.inj h))
  · rintro (h | _)
    · exact congrArg some (erased_eq_iff.2 h)
    · rfl

end LocalRef

/-! ### Expressions -/

namespace Expr

/-- The normal form of an expression. -/
def normal (e : Expr) : Expr := Id.run (normalizing.onExpr e)

/-- The normal form of an expression that may be absent. -/
def normalOption (e : Option Expr) : Option Expr := Id.run (normalizing.onOption e)

/-- The normal forms of several expressions. -/
def normalList (es : List Expr) : List Expr := Id.run (normalizing.onExprs es)

/-- Expressions of the same code are of the same kind. -/
theorem SameCode.ctorIdx_eq {a b : Expr} (h : a.SameCode b) : a.ctorIdx = b.ctorIdx := by
  cases h <;> rfl

/-- The normal form of an expression is of its kind. -/
theorem ctorIdx_normal (e : Expr) : e.normal.ctorIdx = e.ctorIdx := by
  cases e <;> rfl

/-- Equal expressions are of the same form. -/
theorem ctorIdx_eq_of_equal {a b : Expr} (h : a.equal b = true) : a.ctorIdx = b.ctorIdx := by
  unfold equal at h
  split at h
  all_goals first | rfl | exact absurd h Bool.false_ne_true

/-- Expressions of different forms are not the same code, and neither are their normal forms. -/
theorem equal_normal_iff_of_ctorIdx {a b : Expr}
    (h : a.ctorIdx = b.ctorIdx → (a.normal.equal b.normal = true ↔ a.SameCode b)) :
    a.normal.equal b.normal = true ↔ a.SameCode b := by
  by_cases hform : a.ctorIdx = b.ctorIdx
  · exact h hform
  · refine iff_of_false (fun hequal => hform ?_) fun hsame => hform hsame.ctorIdx_eq
    rw [← a.ctorIdx_normal, ← b.ctorIdx_normal]
    exact ctorIdx_eq_of_equal hequal

mutual

/-- The normal forms of two expressions are equal exactly if the expressions are the same code. -/
theorem equal_normal_iff (a b : Expr) : a.normal.equal b.normal = true ↔ a.SameCode b := by
  refine equal_normal_iff_of_ctorIdx fun hform => ?_
  cases a <;> cases b <;> try (cases hform; done)
  -- two nodes of the same form are compared field by field, where the line of either is forgotten
  case literal.literal => exact ⟨.literal, fun | .literal h => h⟩
  case localVar.localVar _ v _ w =>
    change decide (v.erased = w.erased) = true ↔ _
    rw [decide_eq_true_eq, LocalRef.erased_eq_iff]
    exact ⟨.localVar, fun | .localVar h => h⟩
  case this.this => exact iff_of_true rfl .this
  case caught.caught _ x _ y => exact decide_eq_true_iff.trans ⟨fun | rfl => .caught, fun | .caught => rfl⟩
  case uninitNew.uninitNew _ x _ y =>
    exact decide_eq_true_iff.trans ⟨fun | rfl => .uninitNew, fun | .uninitNew => rfl⟩
  case unresolved.unresolved _ x _ y =>
    exact decide_eq_true_iff.trans ⟨fun | rfl => .unresolved, fun | .unresolved => rfl⟩
  case not.not _ x _ c => exact (equal_normal_iff x c).trans ⟨.not, fun | .not h => h⟩
  case neg.neg _ x _ c => exact (equal_normal_iff x c).trans ⟨.neg, fun | .neg h => h⟩
  case arrayLength.arrayLength _ x _ c =>
    exact (equal_normal_iff x c).trans ⟨.arrayLength, fun | .arrayLength h => h⟩
  case binary.binary _ op x y _ op' c d =>
    change (decide (op = op') && x.normal.equal c.normal && y.normal.equal d.normal) = true ↔ _
    simp only [Bool.and_eq_true, decide_eq_true_eq, equal_normal_iff x c, equal_normal_iff y d]
    exact ⟨fun ⟨⟨rfl, hx⟩, hy⟩ => .binary hx hy, fun | .binary hx hy => ⟨⟨rfl, hx⟩, hy⟩⟩
  case compare.compare _ op x y _ op' c d =>
    change (decide (op = op') && x.normal.equal c.normal && y.normal.equal d.normal) = true ↔ _
    simp only [Bool.and_eq_true, decide_eq_true_eq, equal_normal_iff x c, equal_normal_iff y d]
    exact ⟨fun ⟨⟨rfl, hx⟩, hy⟩ => .compare hx hy, fun | .compare hx hy => ⟨⟨rfl, hx⟩, hy⟩⟩
  case threeWay.threeWay _ op x y _ op' c d =>
    change (decide (op = op') && x.normal.equal c.normal && y.normal.equal d.normal) = true ↔ _
    simp only [Bool.and_eq_true, decide_eq_true_eq, equal_normal_iff x c, equal_normal_iff y d]
    exact ⟨fun ⟨⟨rfl, hx⟩, hy⟩ => .threeWay hx hy, fun | .threeWay hx hy => ⟨⟨rfl, hx⟩, hy⟩⟩
  case arrayLoad.arrayLoad _ x y _ c d =>
    change (x.normal.equal c.normal && y.normal.equal d.normal) = true ↔ _
    simp only [Bool.and_eq_true, equal_normal_iff x c, equal_normal_iff y d]
    exact ⟨fun ⟨hx, hy⟩ => .arrayLoad hx hy, fun | .arrayLoad hx hy => ⟨hx, hy⟩⟩
  case assign.assign _ x y _ c d =>
    change (x.normal.equal c.normal && y.normal.equal d.normal) = true ↔ _
    simp only [Bool.and_eq_true, equal_normal_iff x c, equal_normal_iff y d]
    exact ⟨fun ⟨hx, hy⟩ => .assign hx hy, fun | .assign hx hy => ⟨hx, hy⟩⟩
  case ternary.ternary _ x y z _ c d e =>
    change (x.normal.equal c.normal && y.normal.equal d.normal && z.normal.equal e.normal) = true ↔ _
    simp only [Bool.and_eq_true, equal_normal_iff x c, equal_normal_iff y d, equal_normal_iff z e]
    exact ⟨fun ⟨⟨hx, hy⟩, hz⟩ => .ternary hx hy hz, fun | .ternary hx hy hz => ⟨⟨hx, hy⟩, hz⟩⟩
  case cast.cast _ type x _ type' c =>
    change (decide (type = type') && x.normal.equal c.normal) = true ↔ _
    simp only [Bool.and_eq_true, decide_eq_true_eq, equal_normal_iff x c]
    exact ⟨fun ⟨rfl, hx⟩ => .cast hx, fun | .cast hx => ⟨rfl, hx⟩⟩
  case instanceOf.instanceOf _ x className _ c className' =>
    change (x.normal.equal c.normal && decide (className = className')) = true ↔ _
    simp only [Bool.and_eq_true, decide_eq_true_eq, equal_normal_iff x c]
    exact ⟨fun ⟨hx, rfl⟩ => .instanceOf hx, fun | .instanceOf hx => ⟨hx, rfl⟩⟩
  case increment.increment _ x delta before _ c delta' before' =>
    change (x.normal.equal c.normal && decide (delta = delta') && decide (before = before')) = true ↔ _
    simp only [Bool.and_eq_true, decide_eq_true_eq, equal_normal_iff x c]
    exact ⟨fun ⟨⟨hx, rfl⟩, rfl⟩ => .increment hx, fun | .increment hx => ⟨⟨hx, rfl⟩, rfl⟩⟩
  case field.field _ o className name type _ o' className' name' type' =>
    change (equalOption (normalOption o) (normalOption o') && decide (className = className') &&
      decide (name = name') && decide (type = type')) = true ↔ _
    simp only [Bool.and_eq_true, decide_eq_true_eq, equalOption_normal_iff o o']
    exact ⟨fun ⟨⟨⟨ho, rfl⟩, rfl⟩, rfl⟩ => .field ho, fun | .field ho => ⟨⟨⟨ho, rfl⟩, rfl⟩, rfl⟩⟩
  case invoke.invoke _ kind o className name descriptor args _ kind' o' className' name' descriptor' args' =>
    change (decide (kind = kind') && equalOption (normalOption o) (normalOption o') &&
      decide (className = className') && decide (name = name') && decide (descriptor = descriptor') &&
      equalList (normalList args) (normalList args')) = true ↔ _
    simp only [Bool.and_eq_true, decide_eq_true_eq, equalOption_normal_iff o o', equalList_normal_iff args args']
    exact ⟨fun ⟨⟨⟨⟨⟨rfl, ho⟩, rfl⟩, rfl⟩, rfl⟩, hargs⟩ => .invoke ho hargs,
      fun | .invoke ho hargs => ⟨⟨⟨⟨⟨rfl, ho⟩, rfl⟩, rfl⟩, rfl⟩, hargs⟩⟩
  case invokeDynamic.invokeDynamic _ name descriptor args _ name' descriptor' args' =>
    change (decide (name = name') && decide (descriptor = descriptor') &&
      equalList (normalList args) (normalList args')) = true ↔ _
    simp only [Bool.and_eq_true, decide_eq_true_eq, equalList_normal_iff args args']
    exact ⟨fun ⟨⟨rfl, rfl⟩, hargs⟩ => .invokeDynamic hargs, fun | .invokeDynamic hargs => ⟨⟨rfl, rfl⟩, hargs⟩⟩
  case new.new _ name descriptor args _ name' descriptor' args' =>
    change (decide (name = name') && decide (descriptor = descriptor') &&
      equalList (normalList args) (normalList args')) = true ↔ _
    simp only [Bool.and_eq_true, decide_eq_true_eq, equalList_normal_iff args args']
    exact ⟨fun ⟨⟨rfl, rfl⟩, hargs⟩ => .new hargs, fun | .new hargs => ⟨⟨rfl, rfl⟩, hargs⟩⟩
  case newArray.newArray _ element args _ element' args' =>
    change (decide (element = element') && equalList (normalList args) (normalList args')) = true ↔ _
    simp only [Bool.and_eq_true, decide_eq_true_eq, equalList_normal_iff args args']
    exact ⟨fun ⟨rfl, hargs⟩ => .newArray hargs, fun | .newArray hargs => ⟨rfl, hargs⟩⟩
  case concat.concat _ args _ args' =>
    exact (equalList_normal_iff args args').trans ⟨.concat, fun | .concat h => h⟩

/-- Expressions that may be absent have equal normal forms if both are absent or of the same code. -/
theorem equalOption_normal_iff (a b : Option Expr) :
    equalOption (normalOption a) (normalOption b) = true ↔ Option.Rel SameCode a b := by
  cases a with
  | none =>
    cases b with
    | none => exact iff_of_true rfl .none
    | some => exact iff_of_false Bool.false_ne_true nofun
  | some a =>
    cases b with
    | none => exact iff_of_false Bool.false_ne_true nofun
    | some b => exact (equal_normal_iff a b).trans ⟨.some, fun | .some h => h⟩

/-- Several expressions have equal normal forms if they are of the same code one by one. -/
theorem equalList_normal_iff (as bs : List Expr) :
    equalList (normalList as) (normalList bs) = true ↔ List.Forall₂ SameCode as bs := by
  cases as with
  | nil =>
    cases bs with
    | nil => exact iff_of_true rfl .nil
    | cons => exact iff_of_false Bool.false_ne_true nofun
  | cons a as =>
    cases bs with
    | nil => exact iff_of_false Bool.false_ne_true nofun
    | cons b bs =>
      change (a.normal.equal b.normal && equalList (normalList as) (normalList bs)) = true ↔ _
      rw [Bool.and_eq_true, equal_normal_iff a b, equalList_normal_iff as bs, List.forall₂_cons]

end

end Expr

/-! ### Lists without their labels -/

/-- A label is left out of the code of a list. -/
theorem codeOf_cons_label {s : Stmt} {body : List Stmt} (hs : s.isLabel = true) :
    codeOf (s :: body) = codeOf body := List.filter_cons_of_neg (by simp [hs])

/-- Any other statement is kept. -/
theorem codeOf_cons_code {s : Stmt} {body : List Stmt} (hs : s.isLabel = false) :
    codeOf (s :: body) = s :: codeOf body := List.filter_cons_of_pos (by simp [hs])

namespace Stmt

variable {R : Stmt → Stmt → Prop} {a b : List Stmt}

/-- A list without its code has labels in it only. -/
theorem UpToLabels.of_codeOf_eq_nil (h : codeOf b = []) : UpToLabels R [] b := by
  induction b with
  | nil => exact .nil
  | cons t b ih =>
    cases t with
    | label => exact .labelRight (ih h)
    | _ => nomatch h

/-- Where related statements are both labels or both not, labels may be left out of both lists. -/
theorem upToLabels_iff (hR : ∀ s t, R s t → s.isLabel = t.isLabel) :
    UpToLabels R a b ↔ List.Forall₂ R (codeOf a) (codeOf b) := by
  constructor
  · intro h
    induction h with
    | nil => exact .nil
    | @cons s t a b first rest ih =>
      cases ht : t.isLabel with
      | true => rwa [codeOf_cons_label ((hR s t first).trans ht), codeOf_cons_label ht]
      | false =>
        rw [codeOf_cons_code ((hR s t first).trans ht), codeOf_cons_code ht]
        exact .cons first ih
    | labelLeft _ ih => exact ih
    | labelRight _ ih => exact ih
  · intro h
    induction a generalizing b with
    | nil => exact .of_codeOf_eq_nil (List.forall₂_nil_left_iff.1 h)
    | cons s a iha =>
      cases hs : s.isLabel with
      | true =>
        cases s with
        | label => exact .labelLeft (iha h)
        | _ => exact absurd hs Bool.false_ne_true
      | false =>
        rw [codeOf_cons_code hs] at h
        -- the statement that stands for `s` is behind the labels at the front of `b`
        induction b with
        | nil => nomatch h
        | cons t b ihb =>
          cases ht : t.isLabel with
          | true =>
            cases t with
            | label => exact .labelRight (ihb h)
            | _ => exact absurd ht Bool.false_ne_true
          | false =>
            rw [codeOf_cons_code ht, List.forall₂_cons] at h
            exact .cons h.1 (iha h.2)

end Stmt

/-! ### Statements -/

namespace SimpleStmt

/-- The normal form of a simple statement. -/
def normal (s : SimpleStmt) : SimpleStmt := Id.run (normalizing.onSimple s)

/-- Simple statements have equal normal forms if they are of the same code. -/
theorem equal_normal_iff (s t : SimpleStmt) : s.normal.equal t.normal = true ↔ s.SameCode t := by
  cases s with
  | expr _ a =>
    cases t with
    | expr _ b => exact (Expr.equal_normal_iff a b).trans ⟨.expr, fun | .expr h => h⟩
    | _ => exact iff_of_false Bool.false_ne_true nofun
  | «return» _ a =>
    cases t with
    | «return» _ b => exact (Expr.equalOption_normal_iff a b).trans ⟨.return, fun | .return h => h⟩
    | _ => exact iff_of_false Bool.false_ne_true nofun
  | throw _ a =>
    cases t with
    | throw _ b => exact (Expr.equal_normal_iff a b).trans ⟨.throw, fun | .throw h => h⟩
    | _ => exact iff_of_false Bool.false_ne_true nofun
  | monitorEnter _ a =>
    cases t with
    | monitorEnter _ b => exact (Expr.equal_normal_iff a b).trans ⟨.monitorEnter, fun | .monitorEnter h => h⟩
    | _ => exact iff_of_false Bool.false_ne_true nofun
  | monitorExit _ a =>
    cases t with
    | monitorExit _ b => exact (Expr.equal_normal_iff a b).trans ⟨.monitorExit, fun | .monitorExit h => h⟩
    | _ => exact iff_of_false Bool.false_ne_true nofun

end SimpleStmt

/-- The normal forms of the arms of a switch. -/
def SwitchCase.normalList (arms : List SwitchCase) : List SwitchCase := Id.run (normalizing.onCases arms)

@[simp] theorem SwitchCase.normalList_nil : normalList [] = [] := rfl

/-- The arms of a switch are normalized one by one. -/
@[simp] theorem SwitchCase.normalList_cons (labels : List (Option Int32)) (body : List Stmt)
    (fallsThrough : Bool) (arms : List SwitchCase) : normalList (⟨labels, body, fallsThrough⟩ :: arms) =
      ⟨labels, normalize body, fallsThrough⟩ :: normalList arms := rfl

/-- The normal forms of catch clauses. -/
def CatchClause.normalList (clauses : List CatchClause) : List CatchClause :=
  Id.run (normalizing.onCatches (Id.run (normalizing.onCatchVars clauses)) clauses)

@[simp] theorem CatchClause.normalList_nil : normalList [] = [] := rfl

/-- Catch clauses are normalized one by one. -/
@[simp] theorem CatchClause.normalList_cons (classes : List String) (var : Option LocalRef) (body : List Stmt)
    (clauses : List CatchClause) : normalList (⟨classes, var, body⟩ :: clauses) =
      ⟨classes, LocalRef.normalOption var, normalize body⟩ :: normalList clauses := rfl

namespace Stmt

/-- The normal form of a statement. -/
def normal (s : Stmt) : Stmt := Id.run (normalizing.onStmt s)

/-- The normal form of a list that may be absent. -/
def normalOption (body : Option (List Stmt)) : Option (List Stmt) := Id.run (normalizing.onFinally body)

@[simp] theorem normalOption_none : normalOption none = none := rfl

@[simp] theorem normalOption_some (body : List Stmt) : normalOption (some body) = some (normalize body) := rfl

/-- A statement is a label if its normal form is. -/
theorem isLabel_normal (s : Stmt) : s.normal.isLabel = s.isLabel := by
  cases s <;> rfl

/-- The labels of a list can be taken out first. -/
theorem normalize_eq_map (body : List Stmt) : normalize body = (codeOf body).map normal := by
  induction body with
  | nil => rfl
  | cons s rest ih =>
    change codeOf (s.normal :: Id.run (normalizing.onStmts rest)) = _
    cases hs : s.isLabel with
    | true =>
      rw [codeOf_cons_label (s.isLabel_normal.trans hs), codeOf_cons_label hs]
      exact ih
    | false =>
      rw [codeOf_cons_code (s.isLabel_normal.trans hs), codeOf_cons_code hs]
      exact congrArg (s.normal :: ·) ih

/-- Of two statements of the same code both are labels or none. -/
theorem SameCode.isLabel_eq {s t : Stmt} (h : s.SameCode t) : s.isLabel = t.isLabel := by
  cases h <;> rfl

/-- Statements of the same code are of the same kind. -/
theorem SameCode.ctorIdx_eq {s t : Stmt} (h : s.SameCode t) : s.ctorIdx = t.ctorIdx := by
  cases h <;> rfl

/-- The normal form of a statement is of its kind. -/
theorem ctorIdx_normal (s : Stmt) : s.normal.ctorIdx = s.ctorIdx := by
  cases s <;> rfl

/-- Equal statements are of the same form. -/
theorem ctorIdx_eq_of_equal {s t : Stmt} (h : s.equal t = true) : s.ctorIdx = t.ctorIdx := by
  unfold equal at h
  split at h
  all_goals first | rfl | exact absurd h Bool.false_ne_true

/-- Statements of different forms are not the same code, and neither are their normal forms. -/
theorem equal_normal_iff_of_ctorIdx {s t : Stmt}
    (h : s.ctorIdx = t.ctorIdx → (s.normal.equal t.normal = true ↔ s.SameCode t)) :
    s.normal.equal t.normal = true ↔ s.SameCode t := by
  by_cases hform : s.ctorIdx = t.ctorIdx
  · exact h hform
  · refine iff_of_false (fun hequal => hform ?_) fun hsame => hform hsame.ctorIdx_eq
    rw [← s.ctorIdx_normal, ← t.ctorIdx_normal]
    exact ctorIdx_eq_of_equal hequal

end Stmt

mutual

/-- The normal forms of two statements are equal exactly if the statements are the same code. -/
theorem Stmt.equal_normal_iff (s t : Stmt) : s.normal.equal t.normal = true ↔ s.SameCode t := by
  refine Stmt.equal_normal_iff_of_ctorIdx fun hform => ?_
  cases s <;> cases t <;> try (cases hform; done)
  -- the lists inside two statements of the same form are compared without their labels
  case simple.simple s t =>
    change (Stmt.simple s.normal).equal (.simple t.normal) = true ↔ _
    rw [Stmt.equal, SimpleStmt.equal_normal_iff]
    exact ⟨.simple, fun | .simple h => h⟩
  case block.block a b =>
    change (Stmt.block (normalize a)).equal (.block (normalize b)) = true ↔ _
    rw [Stmt.equal, Stmt.equalList_normalize_iff a b]
    exact ⟨.block, fun | .block h => h⟩
  case declaration.declaration v a w b =>
    change (Stmt.declaration v.erased (Expr.normalOption a)).equal
      (.declaration w.erased (Expr.normalOption b)) = true ↔ _
    simp only [Stmt.equal, Bool.and_eq_true, decide_eq_true_eq, LocalRef.erased_eq_iff,
      Expr.equalOption_normal_iff]
    exact ⟨fun ⟨hvar, hinit⟩ => .declaration hvar hinit, fun | .declaration hvar hinit => ⟨hvar, hinit⟩⟩
  case ifElse.ifElse p a b q c d =>
    change (Stmt.ifElse p.normal (normalize a) (normalize b)).equal
      (.ifElse q.normal (normalize c) (normalize d)) = true ↔ _
    simp only [Stmt.equal, Bool.and_eq_true, Expr.equal_normal_iff, Stmt.equalList_normalize_iff a c,
      Stmt.equalList_normalize_iff b d]
    exact ⟨fun ⟨⟨hp, ha⟩, hb⟩ => .ifElse hp ha hb, fun | .ifElse hp ha hb => ⟨⟨hp, ha⟩, hb⟩⟩
  case whileLoop.whileLoop p a q b =>
    change (Stmt.whileLoop p.normal (normalize a)).equal (.whileLoop q.normal (normalize b)) = true ↔ _
    simp only [Stmt.equal, Bool.and_eq_true, Expr.equal_normal_iff, Stmt.equalList_normalize_iff a b]
    exact ⟨fun ⟨hp, ha⟩ => .whileLoop hp ha, fun | .whileLoop hp ha => ⟨hp, ha⟩⟩
  case doWhile.doWhile a p b q =>
    change (Stmt.doWhile (normalize a) p.normal).equal (.doWhile (normalize b) q.normal) = true ↔ _
    simp only [Stmt.equal, Bool.and_eq_true, Expr.equal_normal_iff, Stmt.equalList_normalize_iff a b]
    exact ⟨fun ⟨ha, hp⟩ => .doWhile ha hp, fun | .doWhile ha hp => ⟨ha, hp⟩⟩
  case forLoop.forLoop a p b c d q e f =>
    change (Stmt.forLoop (normalize a) p.normal (normalize b) (normalize c)).equal
      (.forLoop (normalize d) q.normal (normalize e) (normalize f)) = true ↔ _
    simp only [Stmt.equal, Bool.and_eq_true, Expr.equal_normal_iff, Stmt.equalList_normalize_iff a d,
      Stmt.equalList_normalize_iff b e, Stmt.equalList_normalize_iff c f]
    exact ⟨fun ⟨⟨⟨ha, hp⟩, hb⟩, hc⟩ => .forLoop ha hp hb hc,
      fun | .forLoop ha hp hb hc => ⟨⟨⟨ha, hp⟩, hb⟩, hc⟩⟩
  case forEach.forEach v p a w q b =>
    change (Stmt.forEach v.erased p.normal (normalize a)).equal
      (.forEach w.erased q.normal (normalize b)) = true ↔ _
    simp only [Stmt.equal, Bool.and_eq_true, decide_eq_true_eq, LocalRef.erased_eq_iff, Expr.equal_normal_iff,
      Stmt.equalList_normalize_iff a b]
    exact ⟨fun ⟨⟨hv, hp⟩, ha⟩ => .forEach hv hp ha, fun | .forEach hv hp ha => ⟨⟨hv, hp⟩, ha⟩⟩
  case switch.switch p as q bs =>
    change (Stmt.switch p.normal (SwitchCase.normalList as)).equal
      (.switch q.normal (SwitchCase.normalList bs)) = true ↔ _
    simp only [Stmt.equal, Bool.and_eq_true, Expr.equal_normal_iff, SwitchCase.equalList_normal_iff as bs]
    exact ⟨fun ⟨hp, has⟩ => .switch hp has, fun | .switch hp has => ⟨hp, has⟩⟩
  case tryCatch.tryCatch a as f b bs g =>
    change (Stmt.tryCatch (normalize a) (CatchClause.normalList as) (Stmt.normalOption f)).equal
      (.tryCatch (normalize b) (CatchClause.normalList bs) (Stmt.normalOption g)) = true ↔ _
    simp only [Stmt.equal, Bool.and_eq_true, Stmt.equalList_normalize_iff a b,
      CatchClause.equalList_normal_iff as bs, Stmt.equalBody_normal_iff f g]
    exact ⟨fun ⟨⟨ha, has⟩, hf⟩ => .tryCatch ha has hf, fun | .tryCatch ha has hf => ⟨⟨ha, has⟩, hf⟩⟩
  case synchronized.synchronized p a q b =>
    change (Stmt.synchronized p.normal (normalize a)).equal (.synchronized q.normal (normalize b)) = true ↔ _
    simp only [Stmt.equal, Bool.and_eq_true, Expr.equal_normal_iff, Stmt.equalList_normalize_iff a b]
    exact ⟨fun ⟨hp, ha⟩ => .synchronized hp ha, fun | .synchronized hp ha => ⟨hp, ha⟩⟩
  case labeled.labeled l s m t =>
    change (Stmt.labeled l s.normal).equal (.labeled m t.normal) = true ↔ _
    simp only [Stmt.equal, Bool.and_eq_true, decide_eq_true_eq, Stmt.equal_normal_iff s t]
    exact ⟨fun ⟨rfl, hs⟩ => .labeled hs, fun | .labeled hs => ⟨rfl, hs⟩⟩
  case label.label l m =>
    change (Stmt.label l).equal (.label m) = true ↔ _
    rw [Stmt.equal, decide_eq_true_eq]
    exact ⟨fun | rfl => .label, fun | .label => rfl⟩
  case breakTo.breakTo l m =>
    change (Stmt.breakTo l).equal (.breakTo m) = true ↔ _
    rw [Stmt.equal, decide_eq_true_eq]
    exact ⟨fun | rfl => .breakTo, fun | .breakTo => rfl⟩
  case continueTo.continueTo l m =>
    change (Stmt.continueTo l).equal (.continueTo m) = true ↔ _
    rw [Stmt.equal, decide_eq_true_eq]
    exact ⟨fun | rfl => .continueTo, fun | .continueTo => rfl⟩
  case gotoLabel.gotoLabel l m =>
    change (Stmt.gotoLabel l).equal (.gotoLabel m) = true ↔ _
    rw [Stmt.equal, decide_eq_true_eq]
    exact ⟨fun | rfl => .gotoLabel, fun | .gotoLabel => rfl⟩
  case comment.comment l m =>
    change (Stmt.comment l).equal (.comment m) = true ↔ _
    rw [Stmt.equal, decide_eq_true_eq]
    exact ⟨fun | rfl => .comment, fun | .comment => rfl⟩

/-- The labels of the list on the left aside, its statements are compared one by one. -/
theorem Stmt.equalList_codeOf_iff (a b : List Stmt) :
    Stmt.equalList ((codeOf a).map Stmt.normal) (b.map Stmt.normal) = true ↔
      List.Forall₂ Stmt.SameCode (codeOf a) b := by
  -- labels are skipped on the left, and are not there on the right
  cases a with
  | nil =>
    cases b with
    | nil => exact iff_of_true (by simp [codeOf, Stmt.equalList]) .nil
    | cons => exact iff_of_false (by simp [codeOf, Stmt.equalList]) nofun
  | cons s a =>
    cases hs : s.isLabel with
    | true =>
      rw [codeOf_cons_label hs]
      exact Stmt.equalList_codeOf_iff a b
    | false =>
      rw [codeOf_cons_code hs]
      cases b with
      | nil => exact iff_of_false (by simp [Stmt.equalList]) nofun
      | cons t b =>
        rw [List.map_cons, List.map_cons, Stmt.equalList, Bool.and_eq_true, Stmt.equal_normal_iff s t,
          Stmt.equalList_codeOf_iff a b, List.forall₂_cons]

/-- The normal forms of two lists are equal exactly if the lists are the same code. -/
theorem Stmt.equalList_normalize_iff (a b : List Stmt) :
    Stmt.equalList (normalize a) (normalize b) = true ↔ Stmt.SameBody a b := by
  rw [Stmt.normalize_eq_map, Stmt.normalize_eq_map, Stmt.equalList_codeOf_iff a (codeOf b)]
  exact (Stmt.upToLabels_iff fun _ _ h => h.isLabel_eq).symm

/-- Lists that may be absent have equal normal forms if both are absent or of the same code. -/
theorem Stmt.equalBody_normal_iff (a b : Option (List Stmt)) :
    Stmt.equalBody (Stmt.normalOption a) (Stmt.normalOption b) = true ↔ Option.Rel Stmt.SameBody a b := by
  match a, b with
  | none, none => exact iff_of_true (by simp [Stmt.equalBody]) .none
  | none, some _ | some _, none => exact iff_of_false (by simp [Stmt.equalBody]) nofun
  | some a, some b =>
    rw [Stmt.normalOption_some, Stmt.normalOption_some, Stmt.equalBody, Stmt.equalList_normalize_iff a b]
    exact ⟨.some, fun | .some h => h⟩

/-- The arms of two switches have equal normal forms if they are of the same code one by one. -/
theorem SwitchCase.equalList_normal_iff (as bs : List SwitchCase) :
    SwitchCase.equalList (SwitchCase.normalList as) (SwitchCase.normalList bs) = true ↔
      List.Forall₂ SwitchCase.SameCode as bs := by
  match as, bs with
  | [], [] => exact iff_of_true (by simp [SwitchCase.equalList]) .nil
  | [], ⟨_, _, _⟩ :: _ | ⟨_, _, _⟩ :: _, [] => exact iff_of_false (by simp [SwitchCase.equalList]) nofun
  | ⟨l, a, f⟩ :: as, ⟨m, b, g⟩ :: bs =>
    simp only [SwitchCase.normalList_cons, SwitchCase.equalList, Bool.and_eq_true, decide_eq_true_eq,
      Stmt.equalList_normalize_iff a b, SwitchCase.equalList_normal_iff as bs, List.forall₂_cons]
    exact ⟨fun ⟨⟨⟨rfl, h⟩, rfl⟩, hrest⟩ => ⟨.mk h, hrest⟩, fun ⟨.mk h, hrest⟩ => ⟨⟨⟨rfl, h⟩, rfl⟩, hrest⟩⟩

/-- The same of catch clauses. -/
theorem CatchClause.equalList_normal_iff (as bs : List CatchClause) :
    CatchClause.equalList (CatchClause.normalList as) (CatchClause.normalList bs) = true ↔
      List.Forall₂ CatchClause.SameCode as bs := by
  match as, bs with
  | [], [] => exact iff_of_true (by simp [CatchClause.equalList]) .nil
  | [], ⟨_, _, _⟩ :: _ | ⟨_, _, _⟩ :: _, [] => exact iff_of_false (by simp [CatchClause.equalList]) nofun
  | ⟨l, v, a⟩ :: as, ⟨m, w, b⟩ :: bs =>
    simp only [CatchClause.normalList_cons, CatchClause.equalList, Bool.and_eq_true, decide_eq_true_eq,
      LocalRef.normalOption_eq_iff, Stmt.equalList_normalize_iff a b, CatchClause.equalList_normal_iff as bs,
      List.forall₂_cons]
    exact ⟨fun ⟨⟨⟨rfl, hv⟩, h⟩, hrest⟩ => ⟨.mk hv h, hrest⟩, fun ⟨.mk hv h, hrest⟩ => ⟨⟨⟨rfl, hv⟩, h⟩, hrest⟩⟩

end

/-- A transform meets the nodes of every statement, and forgetting positions leaves none of them. What it leaves
is compared where copies of code are looked for: labels aside, two lists become equal exactly if they are the
same code. -/
theorem Stmt.traversals_agree :
    (∀ (s : Stmt) (visited : Multiset Node),
      (Transform.recording.onStmt s).run visited = (s, visited + Node.bag s.nodes)) ∧
    (∀ body : List Stmt,
      ∀ n ∈ Stmt.nodesOfList (Id.run (Transform.erasePositions.onBody body)), n.IsBare) ∧
    ∀ a b : List Stmt, Stmt.equalList (normalize a) (normalize b) = true ↔ Stmt.SameBody a b :=
  ⟨Transform.meets_onStmt, fun _ _ => Transform.isBare_of_mem_erasePositions, Stmt.equalList_normalize_iff⟩

end JvmDecompiler
