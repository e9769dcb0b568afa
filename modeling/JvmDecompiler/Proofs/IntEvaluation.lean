import JvmDecompiler.ConstantPool
import JvmDecompiler.Tree.Stmt
import Mathlib.Logic.Function.Basic

/-!
# Computing with `int`

What expressions on `int` values mean: constants, local variables, sums, differences and products, calls of
static methods, assignments and increments. They act on the slots of the method and on the calls made so
far (`World`); what a call returns may depend on all of them.

An expression accesses some of these cells and changes some of them (`Expr.accesses`). Two expressions of
which neither changes what the other one accesses can be evaluated in either order (`Footprint.commute`).
-/

namespace JvmDecompiler

/-- A call of a static method with `int` arguments. -/
structure IntCall where
  className : String
  name : String
  descriptor : String
  args : List Int32
  deriving DecidableEq, Repr, Inhabited

/-- What expressions read and change: the slots of the method, and the calls made so far, in order. -/
structure World where
  slots : UInt16 → Int32
  calls : List IntCall

namespace World

/-- Store a value in a slot. -/
def set (w : World) (slot : UInt16) (value : Int32) : World :=
  { w with slots := Function.update w.slots slot value }

/-- Make a call. What it returns is up to the called method, which may go by all earlier calls. -/
def call (answer : List IntCall → IntCall → Int32) (w : World) (c : IntCall) : Int32 × World :=
  (answer w.calls c, { w with calls := w.calls ++ [c] })

end World

/-! ## Evaluation -/

/-- The operation of an operator on `int` values, which wraps around. -/
def BinaryOp.onInts? : BinaryOp → Option (Int32 → Int32 → Int32)
  | .add => some (· + ·)
  | .sub => some (· - ·)
  | .mul => some (· * ·)
  | _ => none

/-- Expressions of the forms that are computed with here, which have an `int` value. -/
inductive Expr.IsInt : Expr → Prop
  | literal {line : SourceLine} {value : Int32} {form : Option PushForm} :
      IsInt (.literal line (.int value form))
  | localVar {line : SourceLine} {ref : LocalRef} (htype : ref.type = .int) : IsInt (.localVar line ref)
  | binary {line : SourceLine} {op : BinaryOp} {f : Int32 → Int32 → Int32} {left right : Expr}
      (hop : op.onInts? = some f) (hleft : IsInt left) (hright : IsInt right) :
      IsInt (.binary line op left right)
  | call {line : SourceLine} {className name descriptor : String} {args : List Expr}
      (hresult : resultType descriptor = .int) (hargs : ∀ e ∈ args, IsInt e) :
      IsInt (.invoke line .static none className name descriptor args)
  | assign {line l : SourceLine} {ref : LocalRef} {value : Expr} (htype : ref.type = .int)
      (hvalue : IsInt value) : IsInt (.assign line (.localVar l ref) value)
  | increment {line l : SourceLine} {ref : LocalRef} {delta : Int32} {before : Bool}
      (htype : ref.type = .int) : IsInt (.increment line (.localVar l ref) delta before)

/-- Statements that evaluate such an expression, or call a static method without a result. -/
inductive SimpleStmt.IsInt : SimpleStmt → Prop
  | expr {line : SourceLine} {e : Expr} (h : e.IsInt) : IsInt (.expr line e)
  | call {line l : SourceLine} {className name descriptor : String} {args : List Expr}
      (hresult : Expr.resultType descriptor = .void) (hargs : ∀ e ∈ args, e.IsInt) :
      IsInt (.expr line (.invoke l .static none className name descriptor args))

section Evaluation

variable (answer : List IntCall → IntCall → Int32)

mutual

/-- The value of an expression, and the world behind its evaluation. Operands are evaluated from the left.
What has none of the forms of `Expr.IsInt` counts as 0. -/
def Expr.evalInt : Expr → World → Int32 × World
  | .literal _ (.int value _), w => (value, w)
  | .localVar _ ref, w => (w.slots ref.slot, w)
  | .binary _ op left right, w =>
    let l := left.evalInt w
    let r := right.evalInt l.2
    ((op.onInts?.map fun f => f l.1 r.1).getD 0, r.2)
  | .invoke _ .static none className name descriptor args, w =>
    let values := Expr.evalInts args w
    values.2.call answer ⟨className, name, descriptor, values.1⟩
  | .assign _ (.localVar _ ref) value, w =>
    let v := value.evalInt w
    (v.1, v.2.set ref.slot v.1)
  | .increment _ (.localVar _ ref) delta before, w =>
    let old := w.slots ref.slot
    (if before then old + delta else old, w.set ref.slot (old + delta))
  | _, w => (0, w)

/-- The values of expressions that are evaluated one after the other. -/
def Expr.evalInts : List Expr → World → List Int32 × World
  | [], w => ([], w)
  | e :: es, w =>
    let v := e.evalInt w
    let vs := Expr.evalInts es v.2
    (v.1 :: vs.1, vs.2)

end

/-- The world behind some statements. -/
def SimpleStmt.runInts : List SimpleStmt → World → World
  | [], w => w
  | .expr _ e :: rest, w => runInts rest (e.evalInt answer w).2
  | _ :: rest, w => runInts rest w

/-- Statements are run one after the other. -/
theorem SimpleStmt.runInts_append (stmts more : List SimpleStmt) (w : World) :
    runInts answer (stmts ++ more) w = runInts answer more (runInts answer stmts w) := by
  induction stmts generalizing w with
  | nil => rfl
  | cons stmt stmts ih => cases stmt <;> exact ih _

/-- Expressions are evaluated one after the other. -/
theorem Expr.evalInts_append (es fs : List Expr) (w : World) :
    Expr.evalInts answer (es ++ fs) w =
      ((Expr.evalInts answer es w).1 ++ (Expr.evalInts answer fs (Expr.evalInts answer es w).2).1,
        (Expr.evalInts answer fs (Expr.evalInts answer es w).2).2) := by
  induction es generalizing w with
  | nil => rfl
  | cons e es ih => simp [Expr.evalInts, ih]

end Evaluation

/-! ## Accesses -/

/-- A part of the world. -/
inductive Cell where
  | slot (slot : UInt16)
  | calls
  deriving DecidableEq, Repr, Inhabited

/-- An access to a part of the world. -/
structure Access where
  cell : Cell
  changes : Bool
  deriving DecidableEq, Repr, Inhabited

mutual

/-- What the evaluation of an expression accesses. A call depends on all earlier calls and adds one. -/
def Expr.accesses : Expr → List Access
  | .localVar _ ref => [⟨.slot ref.slot, false⟩]
  | .binary _ _ left right => left.accesses ++ right.accesses
  | .invoke _ .static none _ _ _ args => Expr.accessesOfAll args ++ [⟨.calls, true⟩]
  | .assign _ (.localVar _ ref) value => value.accesses ++ [⟨.slot ref.slot, true⟩]
  | .increment _ (.localVar _ ref) _ _ => [⟨.slot ref.slot, true⟩]
  | _ => []

/-- What the evaluation of some expressions accesses. -/
def Expr.accessesOfAll : List Expr → List Access
  | [] => []
  | e :: es => e.accesses ++ Expr.accessesOfAll es

end

/-- Whether two accesses must stay in order. -/
def Access.clashes (a b : Access) : Bool := a.cell = b.cell && (a.changes || b.changes)

/-- Whether neither of two expressions changes what the other one accesses. -/
def Expr.independent (e f : Expr) : Bool :=
  e.accesses.all fun a => f.accesses.all fun b => !a.clashes b

/-! ## Footprints -/

/-- Whether two worlds are the same at a cell. -/
def World.SameAt (w v : World) : Cell → Prop
  | .slot slot => w.slots slot = v.slots slot
  | .calls => w.calls = v.calls

namespace World.SameAt

variable {u v w : World} {c : Cell}

/-- A world is the same as itself. -/
theorem refl (w : World) (c : Cell) : w.SameAt w c := by cases c <;> rfl

/-- Being the same at a cell is mutual. -/
theorem symm (h : w.SameAt v c) : v.SameAt w c := by cases c <;> exact Eq.symm h

/-- Two worlds that are the same as a third are the same. -/
theorem trans (h : w.SameAt v c) (h' : v.SameAt u c) : w.SameAt u c := by
  cases c <;> exact Eq.trans h h'

end World.SameAt

/-- Worlds that are the same everywhere are equal. -/
theorem World.ext_of_sameAt {w v : World} (h : ∀ c, w.SameAt v c) : w = v := by
  obtain ⟨slots, calls⟩ := w
  obtain ⟨slots', calls'⟩ := v
  obtain rfl : slots = slots' := funext fun slot => h (.slot slot)
  obtain rfl : calls = calls' := h .calls
  rfl

/-- Some accesses cover all that a computation does: it changes no other cell, and its value and its
changes depend on no other cell. -/
structure Footprint {α : Type} (accesses : List Access) (x : World → α × World) : Prop where
  frame : ∀ w c, (∀ a ∈ accesses, a.cell = c → a.changes = false) → (x w).2.SameAt w c
  value : ∀ w v, (∀ a ∈ accesses, w.SameAt v a.cell) → (x w).1 = (x v).1
  change : ∀ w v, (∀ a ∈ accesses, w.SameAt v a.cell) → ∀ a ∈ accesses, (x w).2.SameAt (x v).2 a.cell

namespace Footprint

variable {α β : Type} {as bs : List Access} {x : World → α × World} {y : World → β × World}

/-- A value that is given accesses nothing. -/
theorem const (a : α) : Footprint [] (fun w => (a, w)) :=
  ⟨fun w c _ => .refl w c, fun _ _ _ => rfl, fun _ _ _ _ h => nomatch h⟩

/-- One computation behind another one. -/
theorem bind {f : α → World → β × World} (hx : Footprint as x) (hf : ∀ a, Footprint bs (f a)) :
    Footprint (as ++ bs) (fun w => f (x w).1 (x w).2) := by
  -- the cells that the second computation accesses are still the same behind the first one
  have hmiddle : ∀ w v, (∀ a ∈ as ++ bs, w.SameAt v a.cell) →
      ∀ a ∈ as ++ bs, (x w).2.SameAt (x v).2 a.cell := by
    intro w v h a ha
    by_cases hcell : ∃ b ∈ as, b.cell = a.cell
    · obtain ⟨b, hb, hcell⟩ := hcell
      rw [← hcell]
      exact hx.change w v (fun a ha => h a (List.mem_append_left _ ha)) b hb
    · have hframe : ∀ w, (x w).2.SameAt w a.cell := fun w =>
        hx.frame w a.cell fun b hb hba => absurd ⟨b, hb, hba⟩ hcell
      exact (hframe w).trans ((h a ha).trans (hframe v).symm)
  have hvalue : ∀ w v, (∀ a ∈ as ++ bs, w.SameAt v a.cell) → (x w).1 = (x v).1 :=
    fun w v h => hx.value w v fun a ha => h a (List.mem_append_left _ ha)
  refine ⟨fun w c h => ?_, fun w v h => ?_, fun w v h a ha => ?_⟩
  · have h₁ := (hf (x w).1).frame (x w).2 c fun a ha => h a (List.mem_append_right _ ha)
    exact h₁.trans (hx.frame w c fun a ha => h a (List.mem_append_left _ ha))
  · rw [hvalue w v h]
    exact (hf _).value _ _ fun a ha => hmiddle w v h a (List.mem_append_right _ ha)
  · rw [hvalue w v h]
    by_cases hcell : ∃ b ∈ bs, b.cell = a.cell
    · obtain ⟨b, hb, hcell⟩ := hcell
      rw [← hcell]
      exact (hf _).change _ _ (fun a ha => hmiddle w v h a (List.mem_append_right _ ha)) b hb
    · have hframe : ∀ u, (f (x v).1 u).2.SameAt u a.cell := fun u =>
        (hf _).frame u a.cell fun b hb hba => absurd ⟨b, hb, hba⟩ hcell
      exact (hframe _).trans ((hmiddle w v h a ha).trans (hframe _).symm)

/-- Two computations of which neither changes what the other one accesses may be done in either order. -/
theorem commute (hx : Footprint as x) (hy : Footprint bs y)
    (h : ∀ a ∈ as, ∀ b ∈ bs, a.clashes b = false) (w : World) :
    (y w).1 = (y (x w).2).1 ∧ (x (y w).2).1 = (x w).1 ∧ (x (y w).2).2 = (y (x w).2).2 := by
  have hclash : ∀ a ∈ as, ∀ b ∈ bs, a.cell = b.cell → a.changes = false ∧ b.changes = false := by
    intro a ha b hb hcell
    have hno := h a ha b hb
    simpa [Access.clashes, hcell] using hno
  -- neither computation changes what the other one accesses
  have hkeepx : ∀ b ∈ bs, (x w).2.SameAt w b.cell := fun b hb =>
    hx.frame w b.cell fun a ha hcell => (hclash a ha b hb hcell).1
  have hkeepy : ∀ a ∈ as, (y w).2.SameAt w a.cell := fun a ha =>
    hy.frame w a.cell fun b hb hcell => (hclash a ha b hb hcell.symm).2
  refine ⟨hy.value _ _ fun b hb => (hkeepx b hb).symm, hx.value _ _ hkeepy,
    World.ext_of_sameAt fun c => ?_⟩
  by_cases hcx : ∃ a ∈ as, a.cell = c
  · obtain ⟨a, ha, rfl⟩ := hcx
    by_cases hcy : ∃ b ∈ bs, b.cell = a.cell
    · -- both access the cell, so neither changes it
      obtain ⟨b, hb, hcell⟩ := hcy
      have hkeep : ∀ u, (x u).2.SameAt u a.cell := fun u => hx.frame u a.cell fun a' ha' hcell' =>
        (hclash a' ha' b hb (hcell'.trans hcell.symm)).1
      have hkeep' : ∀ u, (y u).2.SameAt u a.cell := fun u => hy.frame u a.cell fun b' hb' hcell' =>
        (hclash a ha b' hb' hcell'.symm).2
      exact ((hkeep _).trans (hkeep' w)).trans ((hkeep' _).trans (hkeep w)).symm
    · have hframe : ∀ u, (y u).2.SameAt u a.cell := fun u =>
        hy.frame u a.cell fun b hb hcell => absurd ⟨b, hb, hcell⟩ hcy
      exact (hx.change _ _ hkeepy a ha).trans (hframe _).symm
  · have hframe : ∀ u, (x u).2.SameAt u c := fun u =>
      hx.frame u c fun a ha hcell => absurd ⟨a, ha, hcell⟩ hcx
    by_cases hcy : ∃ b ∈ bs, b.cell = c
    · obtain ⟨b, hb, rfl⟩ := hcy
      exact (hframe _).trans (hy.change _ _ (fun b hb => (hkeepx b hb).symm) b hb)
    · have hframe' : ∀ u, (y u).2.SameAt u c := fun u =>
        hy.frame u c fun b hb hcell => absurd ⟨b, hb, hcell⟩ hcy
      exact ((hframe _).trans (hframe' w)).trans ((hframe' _).trans (hframe w)).symm

end Footprint

namespace Expr

section Footprint

variable (answer : List IntCall → IntCall → Int32)

/-- A call accesses the calls so far, and adds to them. -/
theorem footprint_call (f : List Int32 → IntCall) (values : List Int32) :
    Footprint [⟨.calls, true⟩] fun w => w.call answer (f values) := by
  refine ⟨fun w c h => ?_, fun w v h => ?_, fun w v h a ha => ?_⟩
  · cases c with
    | slot => exact rfl
    | calls => cases h _ List.mem_cons_self rfl
  · have hcalls : w.calls = v.calls := h _ List.mem_cons_self
    simp [World.call, hcalls]
  · have hcalls : w.calls = v.calls := h _ List.mem_cons_self
    obtain rfl := List.mem_singleton.1 ha
    simp [World.call, World.SameAt, hcalls]

/-- Giving a slot a new value, which may depend on the old one. -/
theorem footprint_update (slot : UInt16) (value new : Int32 → Int32) :
    Footprint [⟨.slot slot, true⟩] fun w =>
      (value (w.slots slot), w.set slot (new (w.slots slot))) := by
  refine ⟨fun w c h => ?_, fun w v h => ?_, fun w v h a ha => ?_⟩
  · cases c with
    | slot other =>
      have hne : other ≠ slot := by
        rintro rfl
        cases h _ List.mem_cons_self rfl
      simp [World.set, World.SameAt, hne]
    | calls => exact rfl
  · have hslot : w.slots slot = v.slots slot := h _ List.mem_cons_self
    rw [hslot]
  · have hslot : w.slots slot = v.slots slot := h _ List.mem_cons_self
    obtain rfl := List.mem_singleton.1 ha
    simp [World.set, World.SameAt, hslot]

/-- To read a slot accesses this slot. -/
theorem footprint_slot (slot : UInt16) :
    Footprint [⟨.slot slot, false⟩] fun w : World => (w.slots slot, w) := by
  refine ⟨fun w c _ => .refl w c, fun w v h => ?_, fun w v h a ha => h a ha⟩
  exact h _ List.mem_cons_self

/-- Expressions one after the other access what each of them does. -/
theorem footprint_evalInts {es : List Expr} (h : ∀ e ∈ es, Footprint e.accesses (e.evalInt answer)) :
    Footprint (accessesOfAll es) (evalInts answer es) := by
  induction es with
  | nil => exact Footprint.const []
  | cons e es ih =>
    have hrest := ih fun f hf => h f (List.mem_cons_of_mem _ hf)
    have hcons := (h e List.mem_cons_self).bind fun v => hrest.bind fun vs => Footprint.const (v :: vs)
    rwa [List.append_nil] at hcons

/-- A call accesses what its arguments do, and the calls. -/
theorem footprint_invoke {line : SourceLine} {className name descriptor : String} {args : List Expr}
    (h : ∀ e ∈ args, Footprint e.accesses (e.evalInt answer)) :
    Footprint (invoke line .static none className name descriptor args).accesses
      ((invoke line .static none className name descriptor args).evalInt answer) :=
  (footprint_evalInts answer h).bind fun values =>
    footprint_call answer (fun values => ⟨className, name, descriptor, values⟩) values

/-- An expression does no more than its accesses say. -/
theorem IsInt.footprint {e : Expr} (h : e.IsInt) : Footprint e.accesses (e.evalInt answer) := by
  induction h with
  | literal => exact Footprint.const _
  | localVar => exact footprint_slot _
  | @binary line op f left right hop _ _ ihl ihr =>
    have hboth := ihl.bind fun l => ihr.bind fun r =>
      Footprint.const ((op.onInts?.map fun f => f l r).getD 0)
    rwa [List.append_nil] at hboth
  | call _ _ ih => exact footprint_invoke answer ih
  | @assign line l ref value _ _ ih =>
    exact ih.bind fun v => footprint_update ref.slot (fun _ => v) (fun _ => v)
  | @increment line l ref delta before =>
    exact footprint_update ref.slot (fun old => if before then old + delta else old) (· + delta)

/-- An expression accesses no more than is read off it. -/
theorem footprint_of_isInt {line : SourceLine} {e : Expr} (h : (SimpleStmt.expr line e).IsInt) :
    Footprint e.accesses (e.evalInt answer) := by
  cases h with
  | expr h => exact h.footprint answer
  | call _ hargs => exact footprint_invoke answer fun e he => (hargs e he).footprint answer

/-- Independent expressions have no accesses that must stay in order. -/
theorem not_clashes_of_independent {e f : Expr} (h : e.independent f = true) :
    ∀ a ∈ e.accesses, ∀ b ∈ f.accesses, a.clashes b = false := by
  simpa [independent] using h

/-- Independence is mutual. -/
theorem independent_comm (e f : Expr) : e.independent f = f.independent e := by
  have hclash : ∀ a b : Access, a.clashes b = b.clashes a := by
    intro a b
    simp only [Access.clashes, Bool.or_comm a.changes, eq_comm (a := a.cell)]
  rw [Bool.eq_iff_iff]
  simp only [independent, List.all_eq_true]
  exact ⟨fun h b hb a ha => hclash b a ▸ h a ha b hb, fun h a ha b hb => hclash b a ▸ h b hb a ha⟩

/-- An expression that may be evaluated any number of times changes nothing. -/
theorem IsInt.changes_of_isPure {e : Expr} (h : e.IsInt) (hpure : e.isPure = true) :
    ∀ a ∈ e.accesses, a.changes = false := by
  induction h with
  | literal => exact fun a ha => nomatch ha
  | localVar => exact fun a ha => List.mem_singleton.1 ha ▸ rfl
  | binary hop _ _ ihl ihr =>
    obtain ⟨hl, hr⟩ := Bool.and_eq_true_iff.1 hpure
    exact fun a ha => (List.mem_append.1 ha).elim (ihl hl a) (ihr hr a)
  | call | assign | increment => cases hpure

/-- Two expressions that change nothing are independent. -/
theorem IsInt.independent_of_isPure {e f : Expr} (he : e.IsInt) (hf : f.IsInt)
    (hpure : e.isPure = true) (hpure' : f.isPure = true) : e.independent f = true := by
  simp only [independent, List.all_eq_true]
  intro a ha b hb
  simp [Access.clashes, he.changes_of_isPure hpure a ha, hf.changes_of_isPure hpure' b hb]

/-- A pure expression leaves the world as it is. -/
theorem IsInt.evalInt_of_isPure {e : Expr} (h : e.IsInt) (hpure : e.isPure = true) (w : World) :
    (e.evalInt answer w).2 = w :=
  World.ext_of_sameAt fun c => (h.footprint answer).frame w c fun a ha _ => h.changes_of_isPure hpure a ha

/-- Any other expression changes something. -/
theorem IsInt.exists_changes {e : Expr} (h : e.IsInt) (hpure : e.isPure = false) :
    ∃ a ∈ e.accesses, a.changes = true := by
  induction h with
  | literal | localVar => cases hpure
  | binary hop _ _ ihl ihr =>
    rcases Bool.and_eq_false_iff.1 hpure with hl | hr
    · obtain ⟨a, ha, hchanges⟩ := ihl hl
      exact ⟨a, List.mem_append_left _ ha, hchanges⟩
    · obtain ⟨a, ha, hchanges⟩ := ihr hr
      exact ⟨a, List.mem_append_right _ ha, hchanges⟩
  | call => exact ⟨⟨.calls, true⟩, List.mem_append_right _ List.mem_cons_self, rfl⟩
  | assign => exact ⟨_, List.mem_append_right _ List.mem_cons_self, rfl⟩
  | increment => exact ⟨_, List.mem_cons_self, rfl⟩

/-- An expression that is independent of itself changes nothing. -/
theorem IsInt.isPure_of_independent {e : Expr} (h : e.IsInt) (hself : e.independent e = true) :
    e.isPure = true := by
  by_contra hpure
  obtain ⟨a, ha, hchanges⟩ := h.exists_changes (Bool.not_eq_true _ ▸ hpure)
  have hno := not_clashes_of_independent hself a ha a ha
  simp [Access.clashes, hchanges] at hno

/-- The value of such an expression takes one slot. -/
theorem IsInt.type {e : Expr} (h : e.IsInt) : e.type = .int := by
  induction h with
  | literal => rfl
  | localVar htype => exact htype
  | @binary line op f left right hop _ _ ihl _ =>
    have hlogical : op.isLogical = false := by cases op <;> first | rfl | cases hop
    simp [Expr.type, hlogical, ihl, Ty.isIntLike]
  | call hresult => exact hresult
  | assign htype => exact htype
  | increment htype => exact htype

end Footprint

end Expr

end JvmDecompiler
