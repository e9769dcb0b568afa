import JvmDecompiler.Desugaring
import JvmDecompiler.Proofs.ExprEvaluation

/-!
# What a folded concatenation says

A chain of calls that fills a new builder and takes its text is folded into a concatenation of the same
operands. The two agree, in the text that comes out, in the effects and in their order, where each operand is
printed alike by both (`Expr.value_foldConcat`): a builder prints it by the parameter type of the method that
appends it, a concatenation by its static type.

That is a condition on the two types (`SameText`), and an exact one (`sameText_of_forall`). The fold does not
look at the types. It also folds chains in which a character is appended as a number or a number as a
character, and chains to which an array of characters is appended, which a concatenation does not print by its
elements (`Expr.value_foldConcat_ne`).
-/

namespace JvmDecompiler

/-- A computation that changes the world, and comes to a result or an exception. -/
abbrev Effectful (World Error α : Type) := ExceptT Error (StateM World) α

/-- An operand of a concatenation: its static type and its value. -/
structure Operand (Object : Type) where
  type : Ty
  value : SourceValue Object

/-- What is around expressions that build strings. Expressions of other forms are evaluated by `eval`, and
`content` is the text in a builder that is not a new one. -/
structure Runtime (World Error Object : Type) where
  eval : Expr → Effectful World Error (SourceValue Object)
  content : Expr → Effectful World Error (List UInt16)
  floatText : UInt32 → List UInt16
  doubleText : UInt64 → List UInt16
  objectText : Object → List UInt16
  /-- The elements of an array of characters. -/
  elements : Object → List UInt16
  nullPointer : Error
  /-- What `+` comes to where neither side is a string. -/
  sum : Operand Object → Operand Object → Operand Object

/-- The type of the only parameter of a method. -/
def parameterType (descriptor : String) : Ty :=
  (((MethodTy.ofDescriptor? descriptor).map (·.parameters)).bind (·.head?)).getD .unknown

namespace Runtime

variable {World Error Object : Type} (r : Runtime World Error Object)

/-! ## Printing -/

/-- The text of a value of a type, as string conversion gives it. The type tells characters and truth values
from numbers. -/
def text (type : Ty) : SourceValue Object → List UInt16
  | .int value =>
    match type with
    | .char => [value.toUInt32.toUInt16]
    | .boolean => unitsOf (if value = 0 then "false" else "true")
    | _ => unitsOf (toString value)
  | .long value => unitsOf (toString value)
  | .float bits => r.floatText bits
  | .double bits => r.doubleText bits
  | .string units => units
  | .object o => r.objectText o
  | .null => unitsOf "null"

/-- The text that a method with a parameter of the type appends, or the string that it makes. An array of
characters is printed by its elements. -/
def appended (parameter : Ty) (value : SourceValue Object) : Effectful World Error (List UInt16) :=
  if parameter = .array .char then
    match value with
    | .object o => return r.elements o
    | .null => throw r.nullPointer
    | value => return r.text parameter value
  else return r.text parameter value

/-- Anything but an array of characters is appended as its text. -/
theorem appended_of_ne {parameter : Ty} (h : parameter ≠ .array .char) (value : SourceValue Object) :
    r.appended parameter value = pure (r.text parameter value) := if_neg h

/-- The `+` of two operands. It joins texts where one side is a string. -/
def plus (a b : Operand Object) : Operand Object :=
  if a.type = .string ∨ b.type = .string then
    ⟨.string, .string (r.text a.type a.value ++ r.text b.type b.value)⟩
  else r.sum a b

/-- The text of operands joined from left to right by `+`. -/
def joined : List (Operand Object) → List UInt16
  | [] => []
  | a :: rest =>
    let total := rest.foldl r.plus a
    r.text total.type total.value

/-! ## Evaluation -/

mutual

/-- The value of an expression. Besides texts, calls that convert a value to a string, texts of builders and
concatenations, expressions are evaluated in any way. -/
def value : Expr → Effectful World Error (SourceValue Object)
  | .literal _ (.string text) => return .string (unitsOf text)
  | e@(.invoke _ .static _ className name descriptor [operand]) =>
    if className = "java/lang/String" && name = "valueOf" then do
      return .string (← r.appended (parameterType descriptor) (← value operand))
    else r.eval e
  | e@(.invoke _ .virtual (some object) className name _ []) =>
    if isStringBuilder className && name = "toString" then do return .string (← built object)
    else r.eval e
  | .concat _ parts => do return .string (r.joined (← operands parts))
  | e => r.eval e

/-- The text in a builder. -/
def built : Expr → Effectful World Error (List UInt16)
  | e@(.invoke _ .virtual (some object) className name descriptor [operand]) =>
    if isStringBuilder className && name = "append" then do
      let front ← built object
      return front ++ (← r.appended (parameterType descriptor) (← value operand))
    else r.content e
  | e@(.new _ className descriptor []) =>
    if isStringBuilder className && descriptor = "()V" then return [] else r.content e
  | e@(.new _ className descriptor [initial]) =>
    if isStringBuilder className &&
        (descriptor = "(Ljava/lang/String;)V" || descriptor = "(Ljava/lang/CharSequence;)V") then do
      match ← value initial with
      | .null => throw r.nullPointer
      | initial => return r.text .string initial
    else r.content e
  | e => r.content e

/-- The operands of a concatenation, evaluated in order. -/
def operands : List Expr → Effectful World Error (List (Operand Object))
  | [] => return []
  | part :: parts => do
    let first : Operand Object := ⟨part.type, ← value part⟩
    return first :: (← operands parts)

end

/-! ## Joining -/

/-- A text that operands are added to is followed by their texts. -/
theorem text_foldl_plus {a : Operand Object} (rest : List (Operand Object)) (h : a.type = .string) :
    r.text (rest.foldl r.plus a).type (rest.foldl r.plus a).value =
      r.text a.type a.value ++ rest.flatMap fun b => r.text b.type b.value := by
  induction rest generalizing a with
  | nil => simp
  | cons b rest ih =>
    have hplus : r.plus a b = ⟨.string, .string (r.text a.type a.value ++ r.text b.type b.value)⟩ :=
      if_pos (.inl h)
    rw [List.foldl_cons, ih (by rw [hplus]), hplus, List.flatMap_cons, ← List.append_assoc]
    rfl

/-- Where one of the first two operands is a string, nothing is added up. -/
theorem joined_eq_flatMap {operands : List (Operand Object)}
    (h : ∃ a ∈ operands.take 2, a.type = .string) :
    r.joined operands = operands.flatMap fun a => r.text a.type a.value := by
  match operands with
  | [] => simp at h
  | [a] => simp [joined]
  | a :: b :: rest =>
    have hstring : a.type = .string ∨ b.type = .string := by simpa using h
    have hplus : r.plus a b = ⟨.string, .string (r.text a.type a.value ++ r.text b.type b.value)⟩ :=
      if_pos hstring
    show r.text ((rest.foldl r.plus (r.plus a b))).type (rest.foldl r.plus (r.plus a b)).value = _
    rw [r.text_foldl_plus rest (by rw [hplus]), hplus, List.flatMap_cons, List.flatMap_cons,
      ← List.append_assoc]
    rfl

end Runtime

/-! ## Printing alike -/

/-- The type that stands for those which print numbers in one way. -/
def Ty.printsAs : Ty → Ty
  | .char => .char
  | .boolean => .boolean
  | _ => .int

/-- Numbers are printed in one of three ways. -/
theorem Ty.printsAs_cases (t : Ty) : t.printsAs = .char ∨ t.printsAs = .boolean ∨ t.printsAs = .int := by
  cases t <;> simp [printsAs]

/-- A builder prints an operand by the type `parameter` as a concatenation does by its type `type`. -/
def SameText (parameter type : Ty) : Prop :=
  parameter ≠ .array .char ∧ parameter.printsAs = type.printsAs

instance (parameter type : Ty) : Decidable (SameText parameter type) :=
  inferInstanceAs (Decidable (_ ∧ _))

section SameText

variable {World Error Object : Type} (r : Runtime World Error Object) {parameter type : Ty}

/-- The way of printing is all that the text of a value depends on. -/
theorem Runtime.text_printsAs (type : Ty) (value : SourceValue Object) :
    r.text type.printsAs value = r.text type value := by
  cases value <;> cases type <;> rfl

/-- Where the types print alike, the appended text is that of the operand. -/
theorem SameText.appended_eq (h : SameText parameter type) (value : SourceValue Object) :
    r.appended parameter value = pure (r.text type value) := by
  rw [r.appended_of_ne h.1, ← r.text_printsAs parameter, h.2, r.text_printsAs]

/-- Types that print every value alike are such types. -/
theorem sameText_of_forall
    (h : ∀ (r : Runtime Unit Unit Unit) value, r.appended parameter value = pure (r.text type value)) :
    SameText parameter type := by
  let r : Runtime Unit Unit Unit :=
    { eval := fun _ => pure .null, content := fun _ => pure [], floatText := fun _ => []
      doubleText := fun _ => [], objectText := fun _ => [], elements := fun _ => [0]
      nullPointer := (), sum := fun a _ => a }
  have hpure : ∀ {a b : List UInt16}, (pure a : Effectful Unit Unit (List UInt16)) = pure b → a = b := by
    intro a b heq
    have hrun : ((Except.ok a, ()) : Except Unit _ × Unit) = (.ok b, ()) := congrFun heq ()
    simpa using hrun
  have harray : parameter ≠ .array .char := by
    rintro rfl
    have heq : ([0] : List UInt16) = [] := hpure (h r (.object ()))
    cases heq
  refine ⟨harray, ?_⟩
  have hone : r.text parameter (.int 1) = r.text type (.int 1) := by
    have heq := h r (.int 1)
    rw [r.appended_of_ne harray] at heq
    exact hpure heq
  rw [← r.text_printsAs parameter, ← r.text_printsAs type] at hone
  -- one is the character U+0001, the truth value true, or the number 1
  obtain hp | hp | hp := parameter.printsAs_cases <;> obtain ht | ht | ht := type.printsAs_cases <;>
    rw [hp, ht] at hone ⊢ <;> exact absurd hone (by decide +kernel)

end SameText

/-! ## Folding -/

namespace Expr

/-- The operand of a call that converts a value to a string, with the type of the parameter that takes it. -/
def converted? : Expr → Option (Ty × Expr)
  | invoke _ .static _ className name descriptor [operand] =>
    if className = "java/lang/String" && name = "valueOf" then some (parameterType descriptor, operand)
    else none
  | _ => none

/-- What a builder is filled with, in order: each operand with the type of the parameter that takes it. -/
def fillings : Expr → List (Ty × Expr)
  | invoke _ _ (some object) _ _ _ [] => fillings object
  | invoke _ _ (some object) _ _ descriptor [operand] =>
    fillings object ++ [(parameterType descriptor, operand)]
  | new _ _ descriptor [initial] =>
    if descriptor = "(Ljava/lang/String;)V" then [initial.converted?.getD (.string, initial)]
    else [(.string, initial)]
  | _ => []

/-- What is left out of a conversion to text is the conversion. -/
theorem underValueOf_eq (e : Expr) : e.underValueOf = (e.converted?.getD (.string, e)).2 := by
  fun_cases converted? e with
  | case1 l object className name descriptor operand hc =>
    rw [underValueOf]
    exact if_pos hc
  | case2 l object className name descriptor operand hc =>
    rw [underValueOf]
    exact if_neg hc
  | case3 =>
    rename_i h
    rw [underValueOf]
    · rfl
    · exact h

/-- What a new builder starts with. -/
def initial? : Expr → Option Expr
  | invoke _ _ (some object) _ _ _ _ => initial? object
  | new _ _ _ [initial] => some initial
  | _ => none

end Expr

section Folding

variable {World Error Object : Type} (r : Runtime World Error Object)

namespace Runtime

/-- The text that operands come to one by one. -/
def texts (operands : List (Operand Object)) : List UInt16 := operands.flatMap fun a => r.text a.type a.value

/-- The expression is not null where its evaluation comes to a value. -/
def NeverNull (e : Expr) : Prop := ∀ w, (StateT.run (ExceptT.run (r.value e)) w).1 ≠ .ok .null

/-- Operands are evaluated one after the other. -/
theorem operands_append (ps qs : List Expr) :
    r.operands (ps ++ qs) = (do return (← r.operands ps) ++ (← r.operands qs)) := by
  induction ps with
  | nil => simp [operands]
  | cons p ps ih => simp [operands, ih]

/-- A single operand comes to its value. -/
theorem operands_singleton (p : Expr) :
    r.operands [p] = (do return [⟨p.type, ← r.value p⟩]) := by
  simp [operands]

/-- What is done with null does not matter to an expression that is not null. -/
theorem bind_of_neverNull {β : Type} {e : Expr} (h : r.NeverNull e)
    {f g : SourceValue Object → Effectful World Error β} (hfg : ∀ v, v ≠ .null → f v = g v) :
    r.value e >>= f = r.value e >>= g := by
  funext w
  have hw := h w
  show StateT.run (ExceptT.run (r.value e >>= f)) w = StateT.run (ExceptT.run (r.value e >>= g)) w
  simp only [ExceptT.run_bind, StateT.run_bind]
  -- both go on from the same result and world, and the result is not null
  generalize StateT.run (ExceptT.run (r.value e)) w = outcome at hw
  obtain ⟨result, w'⟩ := outcome
  cases result with
  | error _ => rfl
  | ok v =>
    have hne : v ≠ .null := fun heq => hw (congrArg Except.ok heq)
    show StateT.run (ExceptT.run (f v)) w' = StateT.run (ExceptT.run (g v)) w'
    rw [hfg v hne]

/-- A conversion to text comes to the text that would be appended. -/
theorem value_of_converted? {e : Expr} {a : Ty × Expr} (h : e.converted? = some a) :
    r.value e = (do return .string (← r.appended a.1 (← r.value a.2))) := by
  unfold Expr.converted? at h
  split at h
  · obtain ⟨hc, ha⟩ := Option.ite_none_right_eq_some.1 h
    obtain rfl := Option.some.inj ha
    rw [value]
    exact if_pos hc
  · cases h

/-- A string that a value is converted to is not null. -/
theorem neverNull_of_converted? {e : Expr} {a : Ty × Expr} (h : e.converted? = some a) : r.NeverNull e := by
  intro w hnull
  rw [r.value_of_converted? h, ← bind_assoc] at hnull
  generalize (r.value a.2 >>= fun v => r.appended a.1 v) = text at hnull
  simp only [ExceptT.run_bind, StateT.run_bind] at hnull
  generalize StateT.run (ExceptT.run text) w = outcome at hnull
  obtain ⟨_ | units, w'⟩ := outcome <;> cases hnull

/-- The text of a string is that of its only operand. -/
theorem text_value_eq {e : Expr} (h : SameText .string e.type) :
    (do return r.text .string (← r.value e)) = (do return r.texts (← r.operands [e])) := by
  have htext : ∀ v, r.text .string v = r.text e.type v := fun v => by
    rw [← r.text_printsAs, h.2, r.text_printsAs]
  simp [operands_singleton, texts, htext]

/-- A string that a value is converted to gives way to the value. -/
theorem text_value_eq_of_converted? {e : Expr}
    (h : SameText (e.converted?.getD (.string, e)).1 (e.converted?.getD (.string, e)).2.type) :
    (do return r.text .string (← r.value e)) = (do return r.texts (← r.operands [e.underValueOf])) := by
  rw [Expr.underValueOf_eq]
  cases he : e.converted? with
  | none =>
    rw [he] at h
    exact r.text_value_eq h
  | some a =>
    rw [he] at h
    rw [r.value_of_converted? he]
    have happended : ∀ v, r.appended a.1 v = pure (r.text a.2.type v) := h.appended_eq r
    simp [operands_singleton, texts, happended, text]

/-- What a new builder starts with is what it is filled with first. A string that stands for a value gives
way to the value. -/
theorem built_new {l : SourceLine} {className descriptor : String} {args parts : List Expr}
    (hbuilder : isStringBuilder className = true) (h : Expr.initialParts? descriptor args = some parts)
    (hsame : ∀ a ∈ (Expr.new l className descriptor args).fillings, SameText a.1 a.2.type)
    (hinitial : ∀ e, (Expr.new l className descriptor args).initial? = some e → r.NeverNull e) :
    r.built (.new l className descriptor args) = (do return r.texts (← r.operands parts)) := by
  match args with
  | [] =>
    obtain ⟨hd, hparts⟩ := Option.ite_none_right_eq_some.1 h
    obtain rfl := Option.some.inj hparts
    simp [built, hbuilder, hd, operands, texts]
  | [initial] =>
    have hbuilt : (descriptor = "(Ljava/lang/String;)V" ∨ descriptor = "(Ljava/lang/CharSequence;)V") →
        r.built (.new l className descriptor [initial]) =
          (do return r.text .string (← r.value initial)) := by
      intro hd
      have hif : (isStringBuilder className && (descriptor = "(Ljava/lang/String;)V" ||
          descriptor = "(Ljava/lang/CharSequence;)V")) = true := by simpa [hbuilder] using hd
      rw [built, if_pos hif]
      exact r.bind_of_neverNull (hinitial initial rfl) fun v hv => by
        cases v <;> first | rfl | exact absurd rfl hv
    unfold Expr.initialParts? at h
    unfold Expr.fillings at hsame
    dsimp only at h
    split at h
    · rename_i hd
      obtain rfl := Option.some.inj h
      rw [if_pos hd] at hsame
      rw [hbuilt (.inl hd)]
      exact r.text_value_eq_of_converted? (hsame _ List.mem_cons_self)
    · rename_i hne
      obtain ⟨hd, hparts⟩ := Option.ite_none_right_eq_some.1 h
      obtain rfl := Option.some.inj hparts
      rw [if_neg hne] at hsame
      rw [hbuilt (.inr hd)]
      exact r.text_value_eq (hsame _ List.mem_cons_self)

/-- A builder with the fillings. -/
theorem built_of_builderParts? {object : Expr} {parts : List Expr} (h : object.builderParts? = some parts)
    (hsame : ∀ a ∈ object.fillings, SameText a.1 a.2.type)
    (hinitial : ∀ e, object.initial? = some e → r.NeverNull e) :
    r.built object = (do return r.texts (← r.operands parts)) := by
  induction object using Expr.builderParts?.induct generalizing parts with
  | case1 l object className name descriptor operand hc ih =>
    rw [Expr.builderParts?, if_pos hc] at h
    obtain ⟨front, hfront, rfl⟩ := Option.map_eq_some_iff.1 h
    rw [Expr.fillings] at hsame
    have hlast := hsame (parameterType descriptor, operand) (by simp)
    have hobject := ih hfront (fun a ha => hsame a (by simp [ha])) hinitial
    have hbuilt : r.built (.invoke l .virtual (some object) className name descriptor [operand]) = (do
        let front ← r.built object
        return front ++ (← r.appended (parameterType descriptor) (← r.value operand))) := by
      rw [built]
      exact if_pos hc
    rw [hbuilt, hobject, operands_append, operands_singleton]
    simp [texts, hlast.appended_eq]
  | case2 l object className name descriptor operand hc =>
    rw [Expr.builderParts?, if_neg hc] at h
    cases h
  | case3 l className descriptor args hc =>
    rw [Expr.builderParts?, if_pos hc] at h
    exact r.built_new hc h hsame hinitial
  | case4 l className descriptor args hc =>
    rw [Expr.builderParts?, if_neg hc] at h
    cases h
  | case5 e h₁ h₂ =>
    rw [Expr.builderParts?] at h
    · cases h
    · exact h₁
    · exact h₂

/-- The operands have the types of the parts. -/
theorem operands_bind_congr {β : Type} {parts : List Expr}
    {f g : List (Operand Object) → Effectful World Error β}
    (h : ∀ ops : List (Operand Object), ops.map (·.type) = parts.map (·.type) → f ops = g ops) :
    r.operands parts >>= f = r.operands parts >>= g := by
  induction parts generalizing f g with
  | nil => simpa [operands] using h [] rfl
  | cons part parts ih =>
    simp only [operands, bind_assoc, pure_bind]
    exact bind_congr fun v => ih fun ops hops => h _ (by simp [hops])

/-- Operands are joined to their texts: either one of the first two is a string, or the empty text has been
put in front. -/
theorem joined_operandsOf (l : SourceLine) (parts : List Expr) :
    (do return r.joined (← r.operands (Expr.operandsOf l parts))) =
      (do return r.texts (← r.operands parts) : Effectful World Error (List UInt16)) := by
  unfold Expr.operandsOf
  split
  · rename_i hstring
    -- one of the first two operands is a string, so that the sum is one of texts
    refine r.operands_bind_congr fun ops hops => ?_
    have htake : (ops.take 2).map (·.type) = (parts.take 2).map (·.type) := by
      rw [List.map_take, List.map_take, hops]
    have hmem : Ty.string ∈ (ops.take 2).map (·.type) := by
      obtain ⟨p, hp, htype⟩ : ∃ p ∈ parts.take 2, p.type = .string := by simpa using hstring
      rw [htake]
      exact List.mem_map.2 ⟨p, hp, htype⟩
    rw [r.joined_eq_flatMap (List.mem_map.1 hmem)]
    rfl
  · have hempty : r.value (.literal l (.string "")) = pure (.string []) := rfl
    simp only [operands, hempty, pure_bind, bind_assoc]
    refine bind_congr fun ops => ?_
    rw [r.joined_eq_flatMap ⟨_, List.mem_cons_self, rfl⟩]
    rfl

end Runtime

namespace Expr

/-- Where every operand is printed alike, folding keeps the value of an expression, the exceptions, and the
effects in their order. -/
theorem value_foldConcat (e : Expr) (hsame : ∀ a ∈ e.fillings, SameText a.1 a.2.type)
    (hinitial : ∀ initial, e.initial? = some initial → r.NeverNull initial) :
    r.value e.foldConcat = r.value e := by
  unfold foldConcat
  split
  · rename_i l object className name descriptor
    split
    · rename_i hc
      have hvalue : r.value (.invoke l .virtual (some object) className name descriptor []) =
          (do return .string (← r.built object)) := by
        rw [Runtime.value]
        exact if_pos hc
      split
      · rename_i part parts hparts
        have hjoined := r.joined_operandsOf l (part :: parts)
        rw [hvalue, r.built_of_builderParts? hparts hsame hinitial, ← hjoined, Runtime.value]
        simp only [bind_assoc, pure_bind]
      · rfl
    · rfl
  · rfl

end Expr

end Folding

/-- Locals of a type that all hold the same value, and note their slots when they are read. An object is an
array with the characters `a` and `b`. -/
def sampleRuntime (v : SourceValue Unit) : Runtime (List UInt16) Unit Unit where
  eval e := do
    modify (· ++ (e.asLocal?.map (·.slot)).toList)
    return v
  content _ := return []
  floatText _ := []
  doubleText _ := []
  objectText _ := unitsOf "[C@1"
  elements _ := unitsOf "ab"
  nullPointer := ()
  sum a _ := a

/-- The text that an expression comes to there, and the slots that are read on the way. -/
def sampleText (v : SourceValue Unit) (e : Expr) : Option (List UInt16) × List UInt16 :=
  match StateT.run (ExceptT.run ((sampleRuntime v).value e)) [] with
  | (.ok (.string units), slots) => (some units, slots)
  | (_, slots) => (none, slots)

namespace Expr

/-- The text of a builder that locals are appended to, each given by its type and by the parameter type as it
is spelled in a descriptor. -/
def sampleChain (initial : Expr) (locals : List (Ty × String)) : Expr :=
  let filled := locals.zipIdx.foldl (fun object ((type, parameter), slot) =>
    invoke none .virtual (some object) "java/lang/StringBuilder" "append"
      ("(" ++ parameter ++ ")Ljava/lang/StringBuilder;")
      [localVar none (.ofSlot slot.toUInt16 0 type)]) initial
  invoke none .virtual (some filled) "java/lang/StringBuilder" "toString" "()Ljava/lang/String;" []

/-- A number that the builder starts with as a string, and behind it a character and a number. -/
theorem value_foldConcat_converted :
    let number : Expr := localVar none (.ofSlot 7 0 .int)
    let initial : Expr := invoke none .static none "java/lang/String" "valueOf" "(I)Ljava/lang/String;" [number]
    let chain := sampleChain (new none "java/lang/StringBuilder" "(Ljava/lang/String;)V" [initial])
      [(.char, "C"), (.short, "I")]
    let r := sampleRuntime (.int 67)
    (∀ a ∈ chain.fillings, SameText a.1 a.2.type) ∧
      (∀ e, chain.initial? = some e → r.NeverNull e) ∧
      chain.foldConcat = concat none (literal none (.string "") :: chain.fillings.map (·.2)) ∧
      r.value chain.foldConcat = r.value chain ∧
      sampleText (.int 67) chain.foldConcat = (some (unitsOf "67C67"), [7, 0, 1]) := by
  intro number initial chain r
  have hsame : ∀ a ∈ chain.fillings, SameText a.1 a.2.type := by
    decide +kernel
  have hinitial : ∀ e, chain.initial? = some e → r.NeverNull e := by
    intro e he
    obtain rfl := Option.some.inj he
    exact r.neverNull_of_converted? rfl
  exact ⟨hsame, hinitial, rfl, value_foldConcat r chain hsame hinitial, by decide +kernel⟩

/-- Folding does not keep the text of a character that is appended as a number, of a number that is appended
as a character, nor of an array of characters. -/
theorem value_foldConcat_ne :
    let differs (type : Ty) (parameter : String) (v : SourceValue Unit) (built joined : String) : Prop :=
      let chain := sampleChain (new none "java/lang/StringBuilder" "()V" []) [(type, parameter)]
      sampleText v chain = (some (unitsOf built), [0]) ∧
        sampleText v chain.foldConcat = (some (unitsOf joined), [0]) ∧ built ≠ joined
    differs .char "I" (.int 67) "67" "C" ∧ differs .int "C" (.int 67) "C" "67" ∧
      differs (.array .char) "[C" (.object ()) "ab" "[C@1" := by
  refine ⟨⟨?_, ?_, ?_⟩, ⟨?_, ?_, ?_⟩, ?_, ?_, ?_⟩ <;> decide +kernel

end Expr

end JvmDecompiler
