import JvmDecompiler.Proofs.Approximation
import JvmDecompiler.Proofs.Negation
import JvmDecompiler.Text.ModifiedUtf8

/-!
# Evaluating expressions

An evaluation of an expression comes to a value or an exception, and changes the world on the way. What calls,
variables, arithmetic and the like do is not fixed (`Actions`); what is fixed is what the source forms say: in
which order the parts of an expression are evaluated, that truth values and characters are numbers, and what
the logical operators, comparisons, negations and conditional expressions make of them.

Evaluations are looked at under conditions: where an operand of a logical operator is no truth value, or two
floating-point numbers are compared, there is no outcome, and more can be asked for (`EvalConditions`). An
evaluation with an outcome has the same without the conditions (`Actions.within_eval`).
-/

namespace JvmDecompiler

/-- Values of source expressions. Truth values and characters are numbers here, as they are for the machine;
what tells them apart is the type of an expression. Strings are given by their code units. -/
inductive SourceValue (Object : Type) where
  | int (value : Int32)
  | long (value : Int64)
  | float (bits : UInt32)
  | double (bits : UInt64)
  | string (units : List UInt16)
  | object (o : Object)
  | null
  deriving DecidableEq, Repr

/-- The code units of a text. -/
def unitsOf (text : String) : List UInt16 := ModifiedUtf8.unitsOfChars text.toList

/-! ## Outcomes -/

/-- A computation that changes the world, and comes to a result or an exception, or has no outcome. -/
abbrev Partly (World Error α : Type) := ExceptT Error (StateT World Option) α

namespace Partly

variable {World Error α β : Type}

/-- There is no outcome. -/
def outside : Partly World Error α := ExceptT.mk failure

/-- Where the first computation has an outcome, the second one has the same. -/
def Within (x y : Partly World Error α) : Prop := Approximates x.run y.run

/-- A computation has the outcome that it has. -/
theorem Within.refl (x : Partly World Error α) : Within x x := Approximates.refl _

/-- An outcome that is kept twice is kept. -/
theorem Within.trans {x y z : Partly World Error α} (h : Within x y) (h' : Within y z) : Within x z :=
  Approximates.trans h h'

/-- Equal computations have the same outcome. -/
theorem Within.of_eq {x y : Partly World Error α} (h : x = y) : Within x y := h ▸ .refl x

/-- Without an outcome there is none to keep. -/
theorem within_outside (x : Partly World Error α) : Within outside x := Approximates.failure _

/-- Two computations in a row keep their outcome if each of them does. -/
theorem Within.bind {x y : Partly World Error α} {f g : α → Partly World Error β} (hx : Within x y)
    (hf : ∀ a, Within (f a) (g a)) : Within (x >>= f) (y >>= g) := by
  unfold Within
  rw [ExceptT.run_bind, ExceptT.run_bind]
  refine Approximates.bind hx fun result => ?_
  cases result with
  | ok a => exact hf a
  | error _ => exact Approximates.refl _

/-- The same step in front of both. -/
theorem Within.step (x : Partly World Error α) {f g : α → Partly World Error β}
    (hf : ∀ a, Within (f a) (g a)) : Within (x >>= f) (x >>= g) := (refl x).bind hf

end Partly

open Partly (outside Within)

/-! ## Truth values -/

section Truth

variable {World Error Object : Type}

/-- The number that stands for a truth value. -/
def SourceValue.ofTruth (b : Bool) : SourceValue Object := .int (if b then 1 else 0)

/-- The truth value that a number stands for. -/
def SourceValue.truth : SourceValue Object → Partly World Error Bool
  | .int v => if v = 0 then return false else if v = 1 then return true else outside
  | _ => outside

open SourceValue (ofTruth)

/-- The number that stands for a truth value stands for it. -/
@[simp] theorem SourceValue.truth_ofTruth (b : Bool) :
    ((ofTruth b : SourceValue Object).truth : Partly World Error Bool) = pure b := by
  cases b <;> rfl

/-- What stands for a truth value is the number of the truth value. -/
theorem SourceValue.within_ofTruth (v : SourceValue Object) :
    Within (do return ofTruth (← v.truth)) (pure v : Partly World Error (SourceValue Object)) := by
  cases v with
  | int v =>
    rw [truth]
    split
    · rename_i h
      exact .of_eq (by rw [h]; rfl)
    · split
      · rename_i h
        exact .of_eq (by rw [h]; rfl)
      · exact Partly.within_outside _
  | _ => exact Partly.within_outside _

/-- Where a computation comes to a truth value, one that it is within comes to the same truth value, and what
is made of it is the same. -/
theorem SourceValue.within_truth {x : Partly World Error Bool} {y : Partly World Error (SourceValue Object)}
    (f : Bool → Bool) (h : Within (do return ofTruth (← x)) y) :
    Within (do return (ofTruth (f (← x)) : SourceValue Object)) (do return ofTruth (f (← (← y).truth))) := by
  have hbind : Within ((do return ofTruth (← x)) >>= fun v : SourceValue Object => do
      return (ofTruth (f (← v.truth)) : SourceValue Object)) (do return ofTruth (f (← (← y).truth))) :=
    h.bind fun _ => .refl _
  simpa only [bind_assoc, pure_bind, SourceValue.truth_ofTruth] using hbind

end Truth

/-! ## Forms -/

/-- What can be assigned to, its parts evaluated. -/
inductive AssignTarget (Object : Type) where
  | localVar (ref : LocalRef)
  | field (object : Option (SourceValue Object)) (className name : String) (type : Ty)
  | element (array index : SourceValue Object)

/-- What the world does where an expression calls for it. -/
structure Actions (World Error Object : Type) where
  load : AssignTarget Object → Partly World Error (SourceValue Object)
  store : AssignTarget Object → SourceValue Object → Partly World Error (SourceValue Object)
  increment : AssignTarget Object → Int32 → Bool → Partly World Error (SourceValue Object)
  this : Partly World Error (SourceValue Object)
  caught : Option String → Partly World Error (SourceValue Object)
  classObject : Ty → Partly World Error (SourceValue Object)
  binary : BinaryOp → SourceValue Object → SourceValue Object → Partly World Error (SourceValue Object)
  threeWay : ThreeWay → SourceValue Object → SourceValue Object → Partly World Error (SourceValue Object)
  /-- Whether two references lead to the same object. -/
  same : SourceValue Object → SourceValue Object → Partly World Error Bool
  neg : SourceValue Object → Partly World Error (SourceValue Object)
  cast : Ty → SourceValue Object → Partly World Error (SourceValue Object)
  instanceOf : String → SourceValue Object → Partly World Error (SourceValue Object)
  call : InvokeKind → String → String → String → Option (SourceValue Object) → List (SourceValue Object) →
    Partly World Error (SourceValue Object)
  callDynamic : String → String → List (SourceValue Object) → Partly World Error (SourceValue Object)
  create : String → String → List (SourceValue Object) → Partly World Error (SourceValue Object)
  createArray : Ty → List (SourceValue Object) → Partly World Error (SourceValue Object)
  arrayLength : SourceValue Object → Partly World Error (SourceValue Object)
  concat : List (SourceValue Object) → Partly World Error (SourceValue Object)
  uninitNew : String → Partly World Error (SourceValue Object)
  unresolved : String → Partly World Error (SourceValue Object)

/-- Under which conditions an evaluation has an outcome: expressions are admitted, and some of them come to a
truth value or not at all. -/
structure EvalConditions where
  admits : Expr → Bool
  truth : Expr → Bool

/-- No conditions. -/
def EvalConditions.none : EvalConditions := ⟨fun _ => true, fun _ => false⟩

/-- An evaluation of an expression under the conditions. -/
def EvalConditions.guarded {World Error Object : Type} (c : EvalConditions) (e : Expr)
    (x : Partly World Error (SourceValue Object)) : Partly World Error (SourceValue Object) :=
  if c.admits e then
    if c.truth e then do return .ofTruth (← (← x).truth)
    else x
  else outside

namespace Actions

variable {World Error Object : Type} (s : Actions World Error Object)

open SourceValue (ofTruth)

/-- The value of a literal. -/
def literal : Literal → Partly World Error (SourceValue Object)
  | .int value _ => return .int value
  | .long value => return .long value
  | .float bits => return .float bits
  | .double bits => return .double bits
  | .char unit => return .int unit.toUInt32.toInt32
  | .boolean b => return ofTruth b
  | .string text => return .string (unitsOf text)
  | .classOf type => s.classObject type
  | .null => return .null

/-- How two numbers compare. -/
def comparison {α : Type} [LT α] [DecidableLT α] (x y : α) : Comparison :=
  if x < y then .less else if y < x then .greater else .equal

/-- Whether a comparison of two values holds. Numbers are ordered, and references are the same or not. -/
def compare (op : CompareOp) : SourceValue Object → SourceValue Object → Partly World Error Bool
  | .int x, .int y => return op.holdsOf (comparison x y)
  | .long x, .long y => return op.holdsOf (comparison x y)
  | x@(.string _), y | x@(.object _), y | x@.null, y =>
    match op with
    | .eq => s.same x y
    | .ne => do return !(← s.same x y)
    | _ => outside
  | _, _ => outside

/-- A number as a value of a type. Numbers are cut off to bytes and shorts. -/
def castTo (type : Ty) (v : SourceValue Object) : Partly World Error (SourceValue Object) :=
  match type, v with
  | .byte, .int v => return .int v.toInt8.toInt32
  | .short, .int v => return .int v.toInt16.toInt32
  | type, v => s.cast type v

/-- The negative of a number. -/
def negative : SourceValue Object → Partly World Error (SourceValue Object)
  | .int v => return .int (-v)
  | v => s.neg v

variable (c : EvalConditions)

mutual

/-- The evaluation of an expression under some conditions. -/
def eval : Expr → Partly World Error (SourceValue Object)
  | e@(.literal _ value) => c.guarded e (s.literal value)
  | e@(.localVar _ ref) => c.guarded e (s.load (.localVar ref))
  | e@(.this _) => c.guarded e s.this
  | e@(.caught _ className) => c.guarded e (s.caught className)
  | e@(.binary _ op left right) => c.guarded e <|
    match op with
    | .and => do
      if ← (← eval left).truth then return ofTruth (← (← eval right).truth) else return ofTruth false
    | .or => do
      if ← (← eval left).truth then return ofTruth true else return ofTruth (← (← eval right).truth)
    | op => do
      let left ← eval left
      s.binary op left (← eval right)
  | e@(.compare _ op left right) => c.guarded e do
    let left ← eval left
    return ofTruth (← s.compare op left (← eval right))
  | e@(.not _ operand) => c.guarded e do return ofTruth !(← (← eval operand).truth)
  | e@(.neg _ operand) => c.guarded e do s.negative (← eval operand)
  | e@(.cast _ type operand) => c.guarded e do s.castTo type (← eval operand)
  | e@(.instanceOf _ operand className) => c.guarded e do s.instanceOf className (← eval operand)
  | e@(.field _ object className name type) => c.guarded e do
    s.load (.field (← evalOption object) className name type)
  | e@(.invoke _ kind object className name descriptor args) => c.guarded e do
    let object ← evalOption object
    s.call kind className name descriptor object (← evalList args)
  | e@(.invokeDynamic _ name descriptor args) => c.guarded e do
    s.callDynamic name descriptor (← evalList args)
  | e@(.new _ className descriptor args) => c.guarded e do s.create className descriptor (← evalList args)
  | e@(.newArray _ element dimensions) => c.guarded e do s.createArray element (← evalList dimensions)
  | e@(.arrayLength _ array) => c.guarded e do s.arrayLength (← eval array)
  | e@(.arrayLoad _ array index) => c.guarded e do
    let array ← eval array
    s.load (.element array (← eval index))
  | e@(.assign _ target value) => c.guarded e do
    let target ← place target
    s.store target (← eval value)
  | e@(.increment _ target delta before) => c.guarded e do s.increment (← place target) delta before
  | e@(.ternary _ condition thenExpr elseExpr) => c.guarded e do
    match ← eval condition with
    | .int v => if v = 0 then eval elseExpr else eval thenExpr
    | _ => outside
  | e@(.concat _ parts) => c.guarded e do s.concat (← evalList parts)
  | e@(.threeWay _ kind left right) => c.guarded e do
    let left ← eval left
    s.threeWay kind left (← eval right)
  | e@(.uninitNew _ className) => c.guarded e (s.uninitNew className)
  | e@(.unresolved _ text) => c.guarded e (s.unresolved text)

/-- The evaluation of an expression that may be absent. -/
def evalOption : Option Expr → Partly World Error (Option (SourceValue Object))
  | Option.none => return Option.none
  | some e => do return some (← eval e)

/-- The evaluation of several expressions in order. -/
def evalList : List Expr → Partly World Error (List (SourceValue Object))
  | [] => return []
  | e :: es => do
    let v ← eval e
    return v :: (← evalList es)

/-- The place that an expression stands for where it is assigned to. -/
def place : Expr → Partly World Error (AssignTarget Object)
  | .localVar _ ref => return .localVar ref
  | .field _ object className name type => do return .field (← evalOption object) className name type
  | .arrayLoad _ array index => do
    let array ← eval array
    return .element array (← eval index)
  | _ => outside

end

variable {c}

/-- Every evaluation is one under the conditions. -/
theorem exists_eval_eq_guarded (e : Expr) : ∃ x, s.eval c e = c.guarded e x := by
  cases e <;> exact ⟨_, rfl⟩

end Actions

section Conditions

variable {World Error Object : Type} (s : Actions World Error Object) {c : EvalConditions}

open SourceValue (ofTruth)

/-- What holds of an evaluation holds of it under conditions, which only leave outcomes out. -/
theorem EvalConditions.within_guarded {x y : Partly World Error (SourceValue Object)} {e : Expr}
    (h : c.admits e = true → Within x y) : Within (c.guarded e x) y := by
  unfold guarded
  split
  · rename_i hadmits
    split
    · have htruth : Within (x >>= fun v => do return ofTruth (← v.truth)) (y >>= pure) :=
        (h hadmits).bind fun v => v.within_ofTruth
      rwa [bind_pure] at htruth
    · exact h hadmits
  · exact Partly.within_outside _

/-- Where a truth value is asked for, or nothing else can come out, a truth value comes out. -/
theorem EvalConditions.exists_guarded_eq_ofTruth {e : Expr} {y : Partly World Error (SourceValue Object)}
    (h : c.truth e = true ∨ ∃ x : Partly World Error Bool, y = do return ofTruth (← x)) :
    ∃ x : Partly World Error Bool, c.guarded e y = do return ofTruth (← x) := by
  unfold guarded
  split
  · split
    · exact ⟨do (← y).truth, by rw [bind_assoc]⟩
    · rename_i hfalse
      exact h.resolve_left hfalse
  · exact ⟨outside, rfl⟩

/-- What has to come to a truth value does so or has no outcome. -/
theorem Actions.exists_eval_eq_ofTruth {e : Expr} (h : c.truth e = true) :
    ∃ x : Partly World Error Bool, s.eval c e = do return ofTruth (← x) := by
  obtain ⟨x, hx⟩ := s.exists_eval_eq_guarded (c := c) e
  rw [hx]
  exact c.exists_guarded_eq_ofTruth (.inl h)

/-- A comparison comes to a truth value. -/
theorem Actions.exists_eval_compare_eq_ofTruth (l : SourceLine) (op : CompareOp) (left right : Expr) :
    ∃ x : Partly World Error Bool, s.eval c (.compare l op left right) = do return ofTruth (← x) := by
  refine c.exists_guarded_eq_ofTruth (.inr ⟨do s.compare op (← s.eval c left) (← s.eval c right), ?_⟩)
  simp only [bind_assoc]

/-- What logical and other operators make of two operands depends on what these come to only. -/
theorem Actions.within_binary {l : SourceLine} {op : BinaryOp} {a b a' b' : Expr}
    (ha : Within (s.eval c a) (s.eval .none a')) (hb : Within (s.eval c b) (s.eval .none b')) :
    Within (s.eval c (.binary l op a b)) (s.eval .none (.binary l op a' b')) := by
  cases op with
  | and =>
    refine c.within_guarded fun _ => ha.bind fun _ => .step _ fun p => ?_
    cases p with
    | true => exact hb.bind fun _ => .refl _
    | false => exact .refl _
  | or =>
    refine c.within_guarded fun _ => ha.bind fun _ => .step _ fun p => ?_
    cases p with
    | true => exact .refl _
    | false => exact hb.bind fun _ => .refl _
  | _ => exact c.within_guarded fun _ => ha.bind fun _ => hb.bind fun _ => .refl _

/-- A choice keeps its outcome if its three parts keep theirs. -/
theorem Actions.within_ternary {l : SourceLine} {condition thenExpr elseExpr condition' thenExpr' elseExpr' : Expr}
    (hcondition : Within (s.eval c condition) (s.eval .none condition'))
    (hthen : Within (s.eval c thenExpr) (s.eval .none thenExpr'))
    (helse : Within (s.eval c elseExpr) (s.eval .none elseExpr')) :
    Within (s.eval c (.ternary l condition thenExpr elseExpr))
      (s.eval .none (.ternary l condition' thenExpr' elseExpr')) := by
  refine c.within_guarded fun _ => hcondition.bind fun v => ?_
  cases v with
  | int v =>
    dsimp only
    split
    · exact helse
    · exact hthen
  | _ => exact .refl _

mutual

/-- An evaluation with an outcome has the same without the conditions. -/
theorem Actions.within_eval (s : Actions World Error Object) (e : Expr) : Within (s.eval c e) (s.eval .none e) := by
  cases e with
  | literal | localVar | this | caught | uninitNew | unresolved =>
    exact c.within_guarded fun _ => .refl _
  | binary _ _ a b => exact s.within_binary (s.within_eval a) (s.within_eval b)
  | compare _ _ a b | arrayLoad _ a b | threeWay _ _ a b =>
    exact c.within_guarded fun _ => (s.within_eval a).bind fun _ => (s.within_eval b).bind fun _ => .refl _
  | not _ a | neg _ a | cast _ _ a | instanceOf _ a _ | arrayLength _ a =>
    exact c.within_guarded fun _ => (s.within_eval a).bind fun _ => .refl _
  | field _ o _ _ _ => exact c.within_guarded fun _ => (s.within_evalOption o).bind fun _ => .refl _
  | invoke _ _ o _ _ _ args =>
    exact c.within_guarded fun _ => (s.within_evalOption o).bind fun _ =>
      (s.within_evalList args).bind fun _ => .refl _
  | invokeDynamic _ _ _ args | new _ _ _ args | newArray _ _ args | concat _ args =>
    exact c.within_guarded fun _ => (s.within_evalList args).bind fun _ => .refl _
  | assign _ a b =>
    exact c.within_guarded fun _ => (s.within_place a).bind fun _ => (s.within_eval b).bind fun _ => .refl _
  | increment _ a _ _ => exact c.within_guarded fun _ => (s.within_place a).bind fun _ => .refl _
  | ternary _ a b d => exact s.within_ternary (s.within_eval a) (s.within_eval b) (s.within_eval d)

/-- For an expression that may be absent, too, conditions take outcomes away and change none. -/
theorem Actions.within_evalOption (s : Actions World Error Object) (e : Option Expr) :
    Within (s.evalOption c e) (s.evalOption .none e) := by
  cases e with
  | none => exact .refl _
  | some e => exact (s.within_eval e).bind fun _ => .refl _

/-- The same of several expressions. -/
theorem Actions.within_evalList (s : Actions World Error Object) (es : List Expr) :
    Within (s.evalList c es) (s.evalList .none es) := by
  cases es with
  | nil => exact .refl _
  | cons e es => exact (s.within_eval e).bind fun _ => (s.within_evalList es).bind fun _ => .refl _

/-- The same of the place that is assigned to. -/
theorem Actions.within_place (s : Actions World Error Object) (e : Expr) :
    Within (s.place c e) (s.place .none e) := by
  cases e with
  | localVar => exact .refl _
  | field _ o _ _ _ => exact (s.within_evalOption o).bind fun _ => .refl _
  | arrayLoad _ a b => exact (s.within_eval a).bind fun _ => (s.within_eval b).bind fun _ => .refl _
  | _ => exact Partly.within_outside _

end

end Conditions

/-! ## Negations -/

section Negations

variable {World Error Object : Type} (s : Actions World Error Object)

open SourceValue (ofTruth)

/-- The line of an expression does not change its value. -/
theorem Actions.eval_withLine (e : Expr) (l : SourceLine) :
    s.eval .none (e.withLine l) = s.eval .none e := by
  cases e with
  | binary _ op left right => cases op <;> rfl
  | _ => rfl

/-- Nor does a line for an expression without one. -/
theorem Actions.eval_orLine (e : Expr) (l : SourceLine) :
    s.eval .none (e.orLine l) = s.eval .none e := by
  unfold Expr.orLine
  split
  · exact s.eval_withLine e l
  · rfl

/-- Numbers that are not floating are always ordered. -/
theorem Actions.comparison_ne_unordered {α : Type} [LT α] [DecidableLT α] (x y : α) :
    comparison x y ≠ .unordered := by
  unfold comparison
  split
  · simp
  · split <;> simp

/-- A comparison with the negated operator holds exactly if the comparison does not. -/
theorem Actions.compare_negate (op : CompareOp) (x y : SourceValue Object) :
    s.compare op.negate x y = (do return !(← s.compare op x y)) := by
  -- only floats can be unordered, and they have no outcome here
  have hnumbers : ∀ c : Comparison, c ≠ .unordered →
      (pure (op.negate.holdsOf c) : Partly World Error Bool) = (do return !(← pure (op.holdsOf c))) := by
    intro c hc
    rw [pure_bind, (CompareOp.holdsOf_negate_iff op c).2 fun h => hc h.2]
  cases x with
  | int x =>
    cases y with
    | int y => exact hnumbers _ (comparison_ne_unordered x y)
    | _ => rfl
  | long x =>
    cases y with
    | long y => exact hnumbers _ (comparison_ne_unordered x y)
    | _ => rfl
  | float | double => rfl
  | string | object | null =>
    cases op with
    | ne => simp [compare, CompareOp.negate]
    | _ => rfl

/-- The truth value that an expression comes to. -/
def Actions.asTruth (e : Expr) : Partly World Error (SourceValue Object) := do
  return ofTruth (← (← s.eval .none e).truth)

/-- The opposite of the truth value that an expression comes to. -/
def Actions.opposite (e : Expr) : Partly World Error (SourceValue Object) := do
  return ofTruth !(← (← s.eval .none e).truth)

/-- As a truth value an expression comes to what it comes to. -/
theorem Actions.within_asTruth (e : Expr) : Within (s.asTruth e) (s.eval .none e) := by
  have h : Within (s.asTruth e) (s.eval .none e >>= pure) := .step _ fun v => v.within_ofTruth
  rwa [bind_pure] at h

/-- Two expressions with opposite outcomes are opposite as truth values. -/
theorem Actions.within_asTruth_of_opposite {e e' : Expr} (h : Within (s.opposite e) (s.eval .none e')) :
    Within (s.opposite e) (s.asTruth e') := by
  have heq : s.opposite e = do return ofTruth (← (do return !(← (← s.eval .none e).truth))) := by
    simp only [opposite, bind_assoc, pure_bind]
  rw [heq] at h ⊢
  exact SourceValue.within_truth id h

/-- The negation of an expression comes to the opposite truth value, with the same effects. -/
theorem Actions.within_negate (e : Expr) :
    Within (s.opposite e) (s.eval .none e.negate) := by
  induction e using Expr.negate.induct with
  | case1 l op left right =>
    have hnegated : s.eval .none (.compare l op.negate left right) = (do
      let left ← s.eval .none left
      return ofTruth (← s.compare op.negate left (← s.eval .none right))) := rfl
    have heval : s.eval .none (.compare l op left right) = (do
      let left ← s.eval .none left
      return ofTruth (← s.compare op left (← s.eval .none right))) := rfl
    refine .of_eq ?_
    simp only [Expr.negate, opposite, heval, hnegated, s.compare_negate, bind_assoc, pure_bind,
      SourceValue.truth_ofTruth]
  -- a `!` is taken away, and what is left comes to a truth value
  | case2 l operand =>
    have heval : s.eval .none (.not l operand) = s.opposite operand := rfl
    refine .trans (.of_eq ?_) (s.within_asTruth operand)
    simp only [opposite, asTruth, heval, bind_assoc, pure_bind, SourceValue.truth_ofTruth, Bool.not_not]
  | case3 l b =>
    have heval : ∀ b, s.eval .none (.literal l (.boolean b)) = pure (ofTruth b) := fun _ => rfl
    refine .of_eq ?_
    simp only [Expr.negate, opposite, heval, pure_bind, SourceValue.truth_ofTruth]
  -- the negation of a conjunction evaluates the right part exactly if the left one holds
  | case4 l left right ihleft ihright =>
    have heval : s.eval .none (.binary l .and left right) = (do
      if ← (← s.eval .none left).truth then s.asTruth right else return ofTruth false) := rfl
    have hnegated : s.eval .none (.binary l .or left.negate right.negate) = (do
      if ← (← s.eval .none left.negate).truth then return ofTruth true else s.asTruth right.negate) := rfl
    have hparts : Within
        (s.opposite left >>= fun v => do if ← v.truth then return ofTruth true else s.opposite right)
        (s.eval .none (.binary l .or left.negate right.negate)) := by
      rw [hnegated]
      refine ihleft.bind fun v => .step _ fun p => ?_
      cases p with
      | true => exact .refl _
      | false => exact s.within_asTruth_of_opposite ihright
    refine Within.trans (.of_eq ?_) hparts
    simp only [opposite, asTruth, heval, bind_assoc, pure_bind, SourceValue.truth_ofTruth]
    refine bind_congr fun v => bind_congr fun p => ?_
    cases p <;> simp
  -- the negation of a disjunction evaluates it exactly if the left one does not hold
  | case5 l left right ihleft ihright =>
    have heval : s.eval .none (.binary l .or left right) = (do
      if ← (← s.eval .none left).truth then return ofTruth true else s.asTruth right) := rfl
    have hnegated : s.eval .none (.binary l .and left.negate right.negate) = (do
      if ← (← s.eval .none left.negate).truth then s.asTruth right.negate else return ofTruth false) := rfl
    have hparts : Within
        (s.opposite left >>= fun v => do if ← v.truth then s.opposite right else return ofTruth false)
        (s.eval .none (.binary l .and left.negate right.negate)) := by
      rw [hnegated]
      refine ihleft.bind fun v => .step _ fun p => ?_
      cases p with
      | true => exact s.within_asTruth_of_opposite ihright
      | false => exact .refl _
    refine Within.trans (.of_eq ?_) hparts
    simp only [opposite, asTruth, heval, bind_assoc, pure_bind, SourceValue.truth_ofTruth]
    refine bind_congr fun v => bind_congr fun p => ?_
    cases p <;> simp
  | case6 e h₁ h₂ h₃ h₄ h₅ =>
    rw [Expr.negate]
    · exact .refl _
    all_goals assumption

end Negations

end JvmDecompiler
