import JvmDecompiler.Inference
import JvmDecompiler.Proofs.ExprEvaluation
import JvmDecompiler.Proofs.RootExpressions

/-!
# The values of refined expressions

Refining the types of a body changes literals, and takes comparisons of truth values apart. What every
expression of the body comes to stays the same, with the same effects in the same order
(`TypeContext.refining_keeps_values`): where no floating-point numbers are compared, constants fit the byte and
short parameters that they are passed to, and the operands of the logical operators are truth values.

A comparison with 0 or 1 is taken apart if what is compared has the type of a truth value, and that type is
read off once the parts are refined. So the expressions that have to come to truth values are those whose
refined form has that type. More have it than before: the arm `1` of a conditional expression is made `true` if
the other arm is a truth value, and the type of the whole, or of its arithmetic negation, is that of the first
arm. With the types as they were, the result does not hold (`TypeContext.refining_changes_value`).
-/

namespace JvmDecompiler

open Partly (outside Within)
open SourceValue (ofTruth)
open List (Forall₂)

/-! ## Literals -/

/-- Whether a constant fits a parameter. Only bytes and shorts are cut off. -/
def Ty.fits : Ty → Int32 → Bool
  | .byte, v => -128 ≤ v && v ≤ 127
  | .short, v => -32768 ≤ v && v ≤ 32767
  | _, _ => true

/-- Whether an argument fits a parameter if it is a constant. -/
def Expr.fits (parameter : Ty) (e : Expr) : Bool := e.intValue?.all parameter.fits

section Literals

variable {World Error Object : Type} (s : Actions World Error Object)

/-- A number that a code unit can be keeps its value as one. -/
theorem toInt32_toUInt16 {v : Int32} (hlow : 0 ≤ v) (hhigh : v ≤ 0xFFFF) :
    v.toUInt32.toUInt16.toUInt32.toInt32 = v := by
  have hlow : 0 ≤ v.toBitVec.toInt := Int32.le_iff_toInt_le.1 hlow
  have hhigh : v.toBitVec.toInt ≤ 65535 := Int32.le_iff_toInt_le.1 hhigh
  apply Int32.toBitVec_inj.1
  show (v.toBitVec.setWidth 16).setWidth 32 = v.toBitVec
  rw [BitVec.toInt_eq_toNat_cond] at hlow hhigh
  apply BitVec.eq_of_toNat_eq
  rw [BitVec.toNat_setWidth, BitVec.toNat_setWidth]
  split at hhigh <;> omega

/-- A number that a byte can be keeps its value as one. -/
theorem toInt32_toInt8 {v : Int32} (hlow : -128 ≤ v) (hhigh : v ≤ 127) : v.toInt8.toInt32 = v := by
  have hlow : -128 ≤ v.toInt := Int32.le_iff_toInt_le.1 hlow
  have hhigh : v.toInt ≤ 127 := Int32.le_iff_toInt_le.1 hhigh
  apply Int32.toInt_inj.1
  rw [Int8.toInt_toInt32, Int32.toInt_toInt8]
  simp only [Int.bmod]
  omega

/-- A number that a short can be keeps its value as one. -/
theorem toInt32_toInt16 {v : Int32} (hlow : -32768 ≤ v) (hhigh : v ≤ 32767) :
    v.toInt16.toInt32 = v := by
  have hlow : -32768 ≤ v.toInt := Int32.le_iff_toInt_le.1 hlow
  have hhigh : v.toInt ≤ 32767 := Int32.le_iff_toInt_le.1 hhigh
  apply Int32.toInt_inj.1
  rw [Int16.toInt_toInt32, Int32.toInt_toInt16]
  simp only [Int.bmod]
  omega

/-- An expression that is a known number comes to it. -/
theorem Actions.eval_of_intValue? {e : Expr} {v : Int32} (h : e.intValue? = some v) :
    s.eval .none e = pure (.int v) := by
  unfold Expr.intValue? at h
  split at h <;> cases h
  rfl

/-- A number made a character stands for itself. -/
theorem Actions.eval_charOf? (l : SourceLine) (value : Int32) (form : Option PushForm) :
    s.eval .none (((charOf? value).map (.literal l)).getD (.literal l (.int value form))) =
      pure (.int value) := by
  unfold charOf?
  split
  · rename_i h
    rw [Bool.and_eq_true, decide_eq_true_iff, decide_eq_true_iff] at h
    show pure (SourceValue.int value.toUInt32.toUInt16.toUInt32.toInt32) = _
    rw [toInt32_toUInt16 h.1 h.2]
  · rfl

/-- A constant keeps its value where a value of another type is needed, if it fits the type. -/
theorem Actions.eval_narrow_int {expected : Ty} {isArgument : Bool} {value : Int32} (l : SourceLine)
    (form : Option PushForm) (h : isArgument = true → expected.fits value = true) :
    s.eval .none ((Expr.literal l (.int value form)).narrow expected isArgument) = pure (.int value) := by
  cases expected with
  | boolean =>
    by_cases htruth : (value = 0 || value = 1) = true
    · simp only [Expr.narrow, htruth, if_true]
      have hvalue : value = 0 ∨ value = 1 := by simpa using htruth
      rcases hvalue with rfl | rfl <;> rfl
    · simp only [Expr.narrow, htruth]
      rfl
  | char => exact s.eval_charOf? l value form
  | byte =>
    cases isArgument with
    | false => rfl
    | true =>
      have hfits : -128 ≤ value ∧ value ≤ 127 := by simpa [Ty.fits] using h rfl
      have hcut : s.castTo .byte (.int value) = pure (.int value.toInt8.toInt32) := rfl
      exact hcut.trans (by rw [toInt32_toInt8 hfits.1 hfits.2])
  | short =>
    cases isArgument with
    | false => rfl
    | true =>
      have hfits : -32768 ≤ value ∧ value ≤ 32767 := by simpa [Ty.fits] using h rfl
      have hcut : s.castTo .short (.int value) = pure (.int value.toInt16.toInt32) := rfl
      exact hcut.trans (by rw [toInt32_toInt16 hfits.1 hfits.2])
  | _ => rfl

/-- A narrowed expression has the same value, if constants that are passed fit. -/
theorem Actions.eval_narrow {expected : Ty} {isArgument : Bool} {e : Expr}
    (h : isArgument = true → e.fits expected = true) :
    s.eval .none (e.narrow expected isArgument) = s.eval .none e := by
  cases e with
  | literal l value =>
    cases value with
    | int value form => exact s.eval_narrow_int l form h
    | _ => rfl
  | ternary l condition a b =>
    by_cases hexpected : expected = .boolean
    · -- Every constant fits a truth value, as far as that goes.
      have hfits : ∀ e : Expr, e.fits expected = true := fun e => by
        rw [hexpected]
        exact Option.all_eq_true _ _ |>.2 fun _ _ => rfl
      rw [Expr.narrow, if_pos hexpected]
      simp only [Actions.eval, eval_narrow fun _ => hfits a, eval_narrow fun _ => hfits b]
      rfl
    · rw [Expr.narrow, if_neg hexpected]
  | _ => rfl

/-- Outside of arguments, an expression may be narrowed to any type. -/
theorem Actions.within_narrow {x : Partly World Error (SourceValue Object)} {e : Expr}
    (h : Within x (s.eval .none e)) (t : Ty) : Within x (s.eval .none (e.narrow t false)) := by
  have hnarrow : s.eval .none (e.narrow t false) = s.eval .none e := s.eval_narrow nofun
  exact hnarrow ▸ h

/-- A number that is written as a character has the same value. -/
theorem Actions.eval_pushedChar (e : Expr) : s.eval .none e.pushedChar = s.eval .none e := by
  unfold Expr.pushedChar
  split
  · split
    · exact s.eval_charOf? _ _ _
    · exact s.eval_charOf? _ _ _
    · rfl
  · rfl

/-- A number stays what it is or is made a character. -/
theorem Expr.charOf?_eq (l : SourceLine) (value : Int32) (form : Option PushForm) :
    ((charOf? value).map (literal l)).getD (literal l (.int value form)) = .literal l (.int value form) ∨
      ∃ unit, ((charOf? value).map (literal l)).getD (literal l (.int value form)) =
        .literal l (.char unit) := by
  unfold charOf?
  split
  · exact .inr ⟨_, rfl⟩
  · exact .inl rfl

/-- What is made a character was a constant. -/
theorem Expr.pushedChar_eq (e : Expr) : e.pushedChar = e ∨
    ∃ l value form unit, e = .literal l (.int value form) ∧ e.pushedChar = .literal l (.char unit) := by
  unfold pushedChar
  split
  · rename_i l value form
    split
    · exact (charOf?_eq l value _).imp_right fun ⟨unit, h⟩ => ⟨l, value, _, unit, rfl, h⟩
    · exact (charOf?_eq l value _).imp_right fun ⟨unit, h⟩ => ⟨l, value, _, unit, rfl, h⟩
    · exact .inl rfl
  · exact .inl rfl

/-- A character is no truth value. -/
theorem Expr.isBoolean_of_narrow_char {e : Expr} (h : (e.narrow .char false).isBoolean = true) :
    e.isBoolean = true := by
  cases e with
  | literal l value =>
    cases value with
    | int value form =>
      have hnarrow : (literal l (.int value form)).narrow .char false =
          ((charOf? value).map (literal l)).getD (literal l (.int value form)) := rfl
      rw [hnarrow] at h
      obtain heq | ⟨unit, heq⟩ := charOf?_eq l value form
      · rwa [heq] at h
      · rw [heq] at h
        cases h
    | _ => exact h
  | _ => exact h

end Literals

/-! ## Refinement without warnings -/

/-- Narrow arguments to the types of their parameters. -/
def Expr.narrowEach : List Expr → List Ty → List Expr
  | arg :: args, parameter :: parameters => arg.narrow parameter true :: narrowEach args parameters
  | args, _ => args

/-- The types of the parameters of a method with a descriptor. -/
def Expr.parameterTypes (descriptor : String) : List Ty :=
  ((MethodTy.ofDescriptor? descriptor).map (·.parameters)).getD []

/-- The arguments of a call, the first one a character if the call searches a string for it. -/
def Expr.pushedFirst : Bool → List Expr → List Expr
  | true, first :: rest => first.pushedChar :: rest
  | _, args => args

namespace TypeContext

variable (ctx : TypeContext)

/-- What becomes of an expression whose parts are refined, but for the comparisons of truth values. -/
def narrowParts : Expr → Expr
  | .invoke l kind object className name descriptor args =>
    let args := Expr.pushedFirst (ctx.isCharSearch kind className name descriptor) args
    .invoke l kind object className name descriptor (Expr.narrowEach args (Expr.parameterTypes descriptor))
  | .new l className descriptor args =>
    .new l className descriptor (Expr.narrowEach args (Expr.parameterTypes descriptor))
  | .assign l target value => .assign l target (value.narrow target.type false)
  | .ternary l condition a b =>
    if a.type.isNarrowInt then .ternary l condition a (b.narrow a.type false)
    else if b.type.isNarrowInt then .ternary l condition (a.narrow b.type false) b
    else .ternary l condition a b
  | .compare l op a b =>
    if a.type = .char then .compare l op a (b.narrow .char false)
    else if b.type = .char then .compare l op (a.narrow .char false) b
    else .compare l op a b
  | e => e

/-- What refinement makes of expressions, without the warnings. -/
def quiet : Transform Id where
  expr e := (ctx.narrowParts e).simplifyTruth

/-- Warnings aside, to refine an argument is to narrow it to its parameter. -/
theorem run_refineArgument (callee : String) (arg : Expr) (parameter : Ty) (w : List Warning) :
    ((ctx.refineArgument callee arg parameter).run w).1 = arg.narrow parameter true := by
  unfold refineArgument
  dsimp only
  split
  · split <;> rfl
  · rfl

/-- To refine several arguments is to narrow each of them. -/
theorem run_refineEach (callee : String) (args : List Expr) (parameters : List Ty) (w : List Warning) :
    ((ctx.refineEach callee args parameters).run w).1 = Expr.narrowEach args parameters := by
  induction args, parameters using Expr.narrowEach.induct generalizing w with
  | case1 arg args parameter parameters ih =>
    exact congrArg₂ List.cons (ctx.run_refineArgument callee arg parameter w) (ih _)
  | case2 args parameters h =>
    rw [refineEach, Expr.narrowEach]
    · rfl
    all_goals exact h

/-- To refine the arguments of a call is to narrow them to what the descriptor says. -/
theorem run_refineArguments (callee descriptor : String) (args : List Expr) (w : List Warning) :
    ((ctx.refineArguments callee descriptor args).run w).1 =
      Expr.narrowEach args (Expr.parameterTypes descriptor) := by
  unfold refineArguments Expr.parameterTypes
  cases MethodTy.ofDescriptor? descriptor with
  | none => cases args <;> rfl
  | some m => exact ctx.run_refineEach callee args m.parameters w

/-- To refine an expression is to narrow its parts. -/
theorem run_refine (e : Expr) (w : List Warning) : ((ctx.refine e).run w).1 = ctx.narrowParts e := by
  cases e with
  | invoke l kind object className name descriptor args =>
    exact congrArg (Expr.invoke l kind object className name descriptor)
      (ctx.run_refineArguments _ descriptor _ w)
  | new l className descriptor args =>
    exact congrArg (Expr.new l className descriptor) (ctx.run_refineArguments _ descriptor args w)
  | ternary l condition a b =>
    simp only [refine, narrowParts]
    split
    · rfl
    · split <;> rfl
  | compare l op a b =>
    simp only [refine, narrowParts]
    split
    · rfl
    · split <;> rfl
  | _ => rfl

/-- Narrowing does what the transform without warnings does. -/
theorem narrowing_actsAs_quiet : ctx.narrowing.ActsAs ResultLogic.steady ctx.quiet where
  expr e := ResultLogic.steady_of_run fun w => congrArg Expr.simplifyTruth (ctx.run_refine e w)
  localVar _ := ResultLogic.steady_of_run fun _ => rfl

/-- What refinement makes of an expression. -/
def refined (e : Expr) : Expr := ((ctx.narrowing.onExpr e).run []).1

/-- What refinement makes of an expression does not depend on the warnings. -/
theorem refined_eq (e : Expr) : ctx.refined e = ctx.quiet.onExpr e :=
  ResultLogic.of_steady (ctx.narrowing_actsAs_quiet.onExpr e) []

end TypeContext

/-! ## Comparisons of truth values -/

section Comparisons

variable {World Error Object : Type} (s : Actions World Error Object) {c : EvalConditions}

/-- A comparison for equality or difference tells a truth value from another one. -/
theorem Actions.compare_ofTruth (p t : Bool) :
    s.compare .eq (ofTruth p) (ofTruth t) = pure (if t then p else !p) ∧
      s.compare .ne (ofTruth p) (ofTruth t) = pure (if !t then p else !p) := by
  cases p <;> cases t <;> exact ⟨rfl, rfl⟩

/-- An expression that is a known truth value comes to it. -/
theorem Actions.eval_of_truth? {e : Expr} {t : Bool} (h : e.truth? = some t) :
    s.eval .none e = pure (ofTruth t) := by
  unfold Expr.truth? at h
  split at h <;> cases h <;> rfl

/-- What comes to a truth value may be kept or negated. -/
theorem Actions.within_keep_or_negate {x : Partly World Error Bool} {left : Expr} (l : SourceLine)
    (keep : Bool) (h : Within (do return ofTruth (← x)) (s.eval .none left)) :
    Within (x >>= fun p => return ofTruth (if keep then p else !p))
      (s.eval .none (if keep then left.orLine l else (left.orLine l).negate)) := by
  rw [← s.eval_orLine left l] at h
  cases keep with
  | true => exact h
  | false => exact (SourceValue.within_truth not h).trans (s.within_negate _)

/-- A comparison of a truth value with a literal is the truth value or its negation. -/
theorem Actions.within_truth_or_negation {l : SourceLine} {op : CompareOp} {a b left right : Expr}
    {t keep : Bool} (hleft : Within (s.eval c a) (s.eval .none left))
    (hright : Within (s.eval c b) (s.eval .none right)) (htruth : c.truth a = true)
    (ht : right.truth? = some t)
    (hcompare : ∀ p, s.compare op (ofTruth p) (ofTruth t) = pure (if keep then p else !p)) :
    Within (s.eval c (.compare l op a b))
      (s.eval .none (if keep then left.orLine l else (left.orLine l).negate)) := by
  obtain ⟨x, hx⟩ := s.exists_eval_eq_ofTruth htruth
  rw [s.eval_of_truth? ht] at hright
  have hcompared : Within (do
        let v ← s.eval c a
        return (ofTruth (← s.compare op v (← s.eval c b)) : SourceValue Object))
      (x >>= fun p => return ofTruth (if keep then p else !p)) := by
    rw [hx, bind_assoc]
    refine .step x fun p => ?_
    have hstep : Within (do return (ofTruth (← s.compare op (ofTruth p) (← s.eval c b)) : SourceValue Object))
        (do return ofTruth (← s.compare op (ofTruth p) (← pure (ofTruth t)))) :=
      hright.bind fun _ => .refl _
    rwa [pure_bind, hcompare, pure_bind] at hstep
  rw [hx] at hleft
  exact c.within_guarded fun _ => hcompared.trans (s.within_keep_or_negate l keep hleft)

/-- Comparisons of truth values with literals may be taken apart. -/
theorem Actions.within_simplifyTruth {l : SourceLine} {op : CompareOp} {a b left right : Expr}
    (hleft : Within (s.eval c a) (s.eval .none left)) (hright : Within (s.eval c b) (s.eval .none right))
    (htruth : left.isBoolean = true → c.truth a = true) :
    Within (s.eval c (.compare l op a b)) (s.eval .none (Expr.compare l op left right).simplifyTruth) := by
  unfold Expr.simplifyTruth
  dsimp only
  split
  next t hboolean ht _ _ =>
    exact s.within_truth_or_negation hleft hright (htruth hboolean) ht fun p => (s.compare_ofTruth p t).1
  next t hboolean ht _ _ =>
    have hne := s.within_truth_or_negation (l := l) hleft hright (htruth hboolean) ht fun p =>
      (s.compare_ofTruth p t).2
    cases t <;> exact hne
  next => exact c.within_guarded fun _ => hleft.bind fun _ => hright.bind fun _ => .refl _

end Comparisons

/-! ## Expressions that stand for others -/

/-- Whether the constants that are passed by a call itself fit their parameters. -/
def Expr.constantsFit : Expr → Bool
  | .invoke _ _ _ _ _ descriptor args | .new _ _ descriptor args =>
    (args.zip (parameterTypes descriptor)).all fun (arg, parameter) => arg.fits parameter
  | _ => true

section StandsFor

variable {World Error Object : Type} {s : Actions World Error Object} {c : EvalConditions}

/-- An expression may take the place of another one: what the other one comes to under the conditions, it comes
to as well, and where it is a constant, the other one is the same constant or comes to truth values only. -/
structure StandsFor (s : Actions World Error Object) (c : EvalConditions) (e e' : Expr) : Prop where
  eval : Within (s.eval c e) (s.eval .none e')
  place : Within (s.place c e) (s.place .none e')
  constant : ∀ v, e'.intValue? = some v → e.intValue? = some v ∨
    ∃ x : Partly World Error Bool, s.eval c e = do return ofTruth (← x)

namespace StandsFor

variable {e e' : Expr}

/-- Something that cannot be assigned to, and is no constant. -/
theorem of_eval (h : Within (s.eval c e) (s.eval .none e')) (hplace : s.place c e = outside)
    (hconstant : e'.intValue? = none) : StandsFor s c e e' where
  eval := h
  place := hplace ▸ Partly.within_outside _
  constant v hv := by rw [hconstant] at hv; cases hv

/-- What takes the place of an expression may be written as a character. -/
theorem pushedChar (h : StandsFor s c e e') : StandsFor s c e e'.pushedChar := by
  rcases e'.pushedChar_eq with heq | ⟨l, value, form, unit, rfl, heq⟩
  · rwa [heq]
  · exact {
      eval := (s.eval_pushedChar _).symm ▸ h.eval
      place := h.place.trans (Partly.within_outside _)
      constant := fun v hv => by rw [heq] at hv; cases hv }

/-- What takes the place of an expression may be narrowed, and comes to the same. -/
theorem eval_of_narrowed (h : StandsFor s c e e') {e'' : Expr}
    (hnarrowed : e'' = e' ∨ ∃ t, e'' = e'.narrow t false) : Within (s.eval c e) (s.eval .none e'') := by
  rcases hnarrowed with rfl | ⟨t, rfl⟩
  · exact h.eval
  · exact s.within_narrow h.eval t

/-- An argument may be narrowed to the type of its parameter. -/
theorem eval_argument (h : StandsFor s c e e') {parameter : Ty} (hfits : e.fits parameter = true) :
    Within (s.eval c e) (s.eval .none (e'.narrow parameter true)) := by
  -- the argument that is left fits, or it has become a constant that does not
  by_cases hfits' : e'.fits parameter = true
  · rw [s.eval_narrow fun _ => hfits']
    exact h.eval
  · obtain ⟨v, hv, hvfits⟩ : ∃ v, e'.intValue? = some v ∧ ¬parameter.fits v = true := by
      simpa [Expr.fits, Option.all_eq_false] using hfits'
    rcases h.constant v hv with hconstant | ⟨x, hx⟩
    · exact absurd (by simpa [Expr.fits, hconstant] using hfits) hvfits
    · -- A constant that does not fit is no truth value, so that there is no outcome.
      have htruth : Within (s.eval c e) (do return ofTruth (← (← s.eval .none e').truth)) := by
        have heval := h.eval
        rw [hx] at heval ⊢
        exact SourceValue.within_truth id heval
      have hnone : (SourceValue.int v : SourceValue Object).truth =
          (outside : Partly World Error Bool) := by
        rw [SourceValue.truth, if_neg, if_neg]
        · rintro rfl
          cases parameter <;> exact hvfits rfl
        · rintro rfl
          cases parameter <;> exact hvfits rfl
      rw [s.eval_of_intValue? hv, pure_bind, hnone] at htruth
      exact htruth.trans (Partly.within_outside _)

/-- Expressions that take the places of others come to the same in their order. -/
theorem evalList_of_forall₂ {es es' : List Expr} (h : Forall₂ (StandsFor s c) es es') :
    Within (s.evalList c es) (s.evalList .none es') := by
  induction h with
  | nil => exact .refl _
  | cons he _ ih => exact he.eval.bind fun _ => ih.bind fun _ => .refl _

/-- The arguments of a call may be narrowed to the types of the parameters. -/
theorem evalList_arguments {args args' : List Expr} {parameters : List Ty}
    (h : Forall₂ (StandsFor s c) args args')
    (hfits : ((args.zip parameters).all fun (arg, parameter) => arg.fits parameter) = true) :
    Within (s.evalList c args) (s.evalList .none (Expr.narrowEach args' parameters)) := by
  induction h generalizing parameters with
  | nil => cases parameters <;> exact .refl _
  | cons harg hargs ih =>
    cases parameters with
    | nil => exact evalList_of_forall₂ (.cons harg hargs)
    | cons parameter parameters =>
      rw [List.zip_cons_cons, List.all_cons, Bool.and_eq_true] at hfits
      exact (harg.eval_argument hfits.1).bind fun _ => (ih hfits.2).bind fun _ => .refl _

/-- The first argument of a call may be written as a character. -/
theorem forall₂_pushedFirst {args args' : List Expr} (search : Bool)
    (h : Forall₂ (StandsFor s c) args args') : Forall₂ (StandsFor s c) args (Expr.pushedFirst search args') := by
  cases search with
  | false => cases h <;> (constructor <;> assumption)
  | true =>
    cases h with
    | nil => exact .nil
    | cons harg hargs => exact .cons harg.pushedChar hargs

end StandsFor

end StandsFor

/-! ## Refined expressions -/

namespace TypeContext

variable {World Error Object : Type} {s : Actions World Error Object} (ctx : TypeContext)

/-- The conditions under which refinement keeps values: constants fit the parameters that they are passed to,
and what becomes an expression with the type of a truth value comes to a truth value. -/
def conditions : EvalConditions := ⟨Expr.constantsFit, fun e => (ctx.refined e).isBoolean⟩

/-- What becomes of a comparison before it may be taken apart. -/
theorem narrowParts_compare (l : SourceLine) (op : CompareOp) (a b : Expr) :
    ∃ a' b', ctx.narrowParts (.compare l op a b) = .compare l op a' b' ∧
      (a' = a ∨ a' = a.narrow .char false) ∧ (b' = b ∨ b' = b.narrow .char false) := by
  unfold narrowParts
  dsimp only
  split
  · exact ⟨_, _, rfl, .inl rfl, .inr rfl⟩
  · split
    · exact ⟨_, _, rfl, .inr rfl, .inl rfl⟩
    · exact ⟨_, _, rfl, .inl rfl, .inl rfl⟩

/-- What becomes of a conditional expression. -/
theorem narrowParts_ternary (l : SourceLine) (condition a b : Expr) :
    ∃ a' b', ctx.narrowParts (.ternary l condition a b) = .ternary l condition a' b' ∧
      (a' = a ∨ ∃ t, a' = a.narrow t false) ∧ (b' = b ∨ ∃ t, b' = b.narrow t false) := by
  unfold narrowParts
  dsimp only
  split
  · exact ⟨_, _, rfl, .inl rfl, .inr ⟨_, rfl⟩⟩
  · split
    · exact ⟨_, _, rfl, .inr ⟨_, rfl⟩, .inl rfl⟩
    · exact ⟨_, _, rfl, .inl rfl, .inl rfl⟩

mutual

/-- Every refined expression may take the place of the expression. -/
theorem standsFor (ctx : TypeContext) (e : Expr) : StandsFor s ctx.conditions e (ctx.quiet.onExpr e) := by
  -- each form evaluates its parts in order, and the parts stand for those they came from
  cases e with
  | literal l v =>
    exact ⟨ctx.conditions.within_guarded fun _ => .refl _, Partly.within_outside _, fun _ h => .inl h⟩
  | localVar l ref => exact ⟨ctx.conditions.within_guarded fun _ => .refl _, .refl _, nofun⟩
  | this | caught | uninitNew | unresolved =>
    exact .of_eval (ctx.conditions.within_guarded fun _ => .refl _) rfl rfl
  | binary _ _ a b =>
    exact .of_eval (s.within_binary (ctx.standsFor a).eval (ctx.standsFor b).eval) rfl rfl
  -- comparisons of truth values are simplified, so what is compared has to come to one
  | compare l op a b =>
    obtain ⟨a', b', hparts, ha', hb'⟩ :=
      ctx.narrowParts_compare l op (ctx.quiet.onExpr a) (ctx.quiet.onExpr b)
    have heq : ctx.quiet.onExpr (.compare l op a b) = (Expr.compare l op a' b').simplifyTruth :=
      congrArg Expr.simplifyTruth hparts
    have hleft := (ctx.standsFor a).eval_of_narrowed (ha'.imp_right fun h => ⟨_, h⟩)
    have hright := (ctx.standsFor b).eval_of_narrowed (hb'.imp_right fun h => ⟨_, h⟩)
    have htruth : a'.isBoolean = true → ctx.conditions.truth a = true := by
      intro h
      show (ctx.refined a).isBoolean = true
      rw [refined_eq]
      rcases ha' with rfl | rfl
      · exact h
      · exact Expr.isBoolean_of_narrow_char h
    rw [heq]
    exact {
      eval := s.within_simplifyTruth hleft hright htruth
      place := Partly.within_outside _
      constant := fun _ _ => .inr (s.exists_eval_compare_eq_ofTruth l op a b) }
  | not _ a | neg _ a | cast _ _ a | instanceOf _ a _ | arrayLength _ a =>
    exact .of_eval (ctx.conditions.within_guarded fun _ => (ctx.standsFor a).eval.bind fun _ => .refl _) rfl rfl
  | field _ o _ _ _ =>
    exact {
      eval := ctx.conditions.within_guarded fun _ => (ctx.within_evalOption o).bind fun _ => .refl _
      place := (ctx.within_evalOption o).bind fun _ => .refl _
      constant := nofun }
  | arrayLoad _ a b =>
    exact {
      eval := ctx.conditions.within_guarded fun _ => (ctx.standsFor a).eval.bind fun _ =>
        (ctx.standsFor b).eval.bind fun _ => .refl _
      place := (ctx.standsFor a).eval.bind fun _ => (ctx.standsFor b).eval.bind fun _ => .refl _
      constant := nofun }
  | threeWay _ _ a b =>
    exact .of_eval (ctx.conditions.within_guarded fun _ => (ctx.standsFor a).eval.bind fun _ =>
      (ctx.standsFor b).eval.bind fun _ => .refl _) rfl rfl
  -- the arguments of a call are narrowed to its parameters, which they fit
  | invoke _ _ o _ _ _ args =>
    refine .of_eval (ctx.conditions.within_guarded fun hfits => (ctx.within_evalOption o).bind fun _ =>
      (StandsFor.evalList_arguments (StandsFor.forall₂_pushedFirst _ (ctx.forall₂_standsFor args)) hfits).bind
        fun _ => .refl _) rfl rfl
  | new _ _ _ args =>
    exact .of_eval (ctx.conditions.within_guarded fun hfits =>
      (StandsFor.evalList_arguments (ctx.forall₂_standsFor args) hfits).bind fun _ => .refl _) rfl rfl
  | invokeDynamic _ _ _ args | newArray _ _ args | concat _ args =>
    exact .of_eval (ctx.conditions.within_guarded fun _ =>
      (StandsFor.evalList_of_forall₂ (ctx.forall₂_standsFor args)).bind fun _ => .refl _) rfl rfl
  | assign _ a b =>
    exact .of_eval (ctx.conditions.within_guarded fun _ => (ctx.standsFor a).place.bind fun _ =>
      ((ctx.standsFor b).eval_of_narrowed (.inr ⟨_, rfl⟩)).bind fun _ => .refl _) rfl rfl
  | increment _ a _ _ =>
    exact .of_eval (ctx.conditions.within_guarded fun _ => (ctx.standsFor a).place.bind fun _ => .refl _) rfl rfl
  | ternary l condition a b =>
    obtain ⟨a', b', hparts, ha', hb'⟩ := ctx.narrowParts_ternary l (ctx.quiet.onExpr condition)
      (ctx.quiet.onExpr a) (ctx.quiet.onExpr b)
    have heq : ctx.quiet.onExpr (.ternary l condition a b) =
        .ternary l (ctx.quiet.onExpr condition) a' b' := congrArg Expr.simplifyTruth hparts
    rw [heq]
    exact .of_eval (s.within_ternary (ctx.standsFor condition).eval
      ((ctx.standsFor a).eval_of_narrowed ha') ((ctx.standsFor b).eval_of_narrowed hb')) rfl rfl

/-- An expression that may be absent comes to the same when it is refined. -/
theorem within_evalOption (ctx : TypeContext) (e : Option Expr) :
    Within (s.evalOption ctx.conditions e) (s.evalOption .none (ctx.quiet.onOption e)) := by
  cases e with
  | none => exact .refl _
  | some e => exact (ctx.standsFor e).eval.bind fun _ => .refl _

/-- Several refined expressions may take the places of the expressions. -/
theorem forall₂_standsFor (ctx : TypeContext) (es : List Expr) :
    Forall₂ (StandsFor s ctx.conditions) es (ctx.quiet.onExprs es) := by
  cases es with
  | nil => exact .nil
  | cons e es => exact .cons (ctx.standsFor e) (ctx.forall₂_standsFor es)

end

/-! ## Refined bodies -/

/-- Narrowing relates every expression in a body to one that comes to the same. -/
theorem narrowing_relatesRoots : ctx.narrowing.RelatesRoots ResultLogic.steady fun e e' =>
    Within (s.eval ctx.conditions e) (s.eval .none e') where
  expr e := ResultLogic.steady_mono (ctx.narrowing_actsAs_quiet.onExpr e) fun _ he =>
    he ▸ (ctx.standsFor e).eval
  localVar _ := ResultLogic.steady.pure trivial
  simple es t h := by
    cases t with
    | «return» l value =>
      cases value with
      | none => exact ResultLogic.steady.pure h
      | some value =>
        obtain _ | ⟨hvalue, hnil⟩ := h
        exact ResultLogic.steady.pure (.cons (s.within_narrow hvalue _) hnil)
    | _ => exact ResultLogic.steady.pure h
  stmt es t h := by
    cases t with
    | declaration var init =>
      cases init with
      | none => exact ResultLogic.steady.pure h
      | some init =>
        obtain _ | ⟨hinit, hnil⟩ := h
        exact ResultLogic.steady.pure (.cons (s.within_narrow hinit _) hnil)
    | _ => exact ResultLogic.steady.pure h
  body _ _ h := ResultLogic.steady.pure h

/-- Under the conditions, what an expression comes to is what it comes to anyway, and what the refined
expression comes to, with the same effects in the same order. That holds of all expressions that the statements
of a body evaluate. -/
theorem refining_keeps_values (s : Actions World Error Object) :
    (∀ e, Within (s.eval ctx.conditions e) (s.eval .none e) ∧
      Within (s.eval ctx.conditions e) (s.eval .none (ctx.refined e))) ∧
    ∀ body, Forall₂ (fun e e' => Within (s.eval ctx.conditions e) (s.eval .none e'))
      (Stmt.rootsOfList body) (Stmt.rootsOfList (ctx.inferTypes body).1) := by
  refine ⟨fun e => ⟨s.within_eval e, ?_⟩, fun body => ?_⟩
  · rw [ctx.refined_eq]
    exact (ctx.standsFor e).eval
  · exact ResultLogic.of_steady (ctx.narrowing_relatesRoots.onBody body) []

end TypeContext

/-! ## Types as they were -/

/-- A world in which there are local variables only, each of them a number. -/
def Actions.ofLocals (values : UInt16 → Int32) : Actions Unit Unit Empty where
  load
    | .localVar ref => return .int (values ref.slot)
    | _ => outside
  store _ _ := outside
  increment _ _ _ := outside
  this := outside
  caught _ := outside
  classObject _ := outside
  binary _ _ _ := outside
  threeWay _ _ _ := outside
  same _ _ := outside
  neg _ := outside
  cast _ _ := outside
  instanceOf _ _ := outside
  call _ _ _ _ _ _ := outside
  callDynamic _ _ _ := outside
  create _ _ _ := outside
  createArray _ _ := outside
  arrayLength _ := outside
  concat _ := outside
  uninitNew _ := outside
  unresolved _ := outside

/-- The local variable in a slot, with the type of a truth value. -/
def Expr.flag (slot : UInt16) : Expr := .localVar none (.ofSlot slot 0 .boolean)

/-- The context of a method that returns an `int`. -/
def TypeContext.ofInt : TypeContext := ⟨"m(ZZ)I", .int, [], true⟩

example :
    let e := Expr.compare none .eq (.flag 0) (.literal none (.int 0 none))
    TypeContext.ofInt.refined e = .not none (.flag 0) ∧
      ((Actions.ofLocals fun _ => 0).eval TypeContext.ofInt.conditions e).run.run () =
        some (.ok (.int 1), ()) :=
  ⟨rfl, rfl⟩

/-- `-(c ? 1 : b) == 1` does not hold where `c` does. Every expression in it that has the type of a truth value
is one. The arm `1` is made `true`, the type of the negation is then that of a truth value, and the comparison
is taken apart: what is left comes to the number -1. -/
theorem TypeContext.refining_changes_value :
    let one := Expr.literal none (.int 1 none)
    let body (e : Expr) : List Stmt := [.simple (.return none (some e))]
    let e := Expr.compare none .eq (.neg none (.ternary none (.flag 0) one (.flag 1))) one
    let e' := Expr.neg none (.ternary none (.flag 0) (.literal none (.boolean true)) (.flag 1))
    (ofInt.inferTypes (body e)).1 = body e' ∧
      ((Actions.ofLocals fun _ => 1).eval ⟨Expr.constantsFit, Expr.isBoolean⟩ e).run.run () =
        some (.ok (.int 0), ()) ∧
      ((Actions.ofLocals fun _ => 1).eval .none e').run.run () = some (.ok (.int (-1)), ()) :=
  ⟨rfl, rfl, rfl⟩

end JvmDecompiler
