import JvmDecompiler.Proofs.Execution

/-!
# Negated conditions

A truth value is evaluated from the left, and the logical operators evaluate their right operand only if
the left one calls for it. `Expr.negate` moves a negation into comparisons and through the logical
operators, which changes neither what is evaluated nor in which order, as long as every comparison that it
changes says the opposite afterwards.

That holds of operands that are less, equal or greater. Of two floating-point numbers neither may be less
than the other nor equal to it, and then `<` and the `>=` that it becomes both fail. So a negated condition
holds exactly if the condition does not, and evaluates the same, unless the evaluation comes to an ordering
of unordered operands into which the negation is moved (`Expr.evaluate_negate_iff`); and in no case do both
hold (`Expr.not_both`).
-/

namespace JvmDecompiler

/-- How two operands compare. -/
inductive Comparison where
  | less
  | equal
  | greater
  /-- One of them is not a number. -/
  | unordered
  deriving DecidableEq, Repr

namespace CompareOp

/-- Whether the operator holds of operands that compare so. -/
def holdsOf : CompareOp → Comparison → Bool
  | .eq, c => c = .equal
  | .ne, c => c ≠ .equal
  | .lt, c => c = .less
  | .ge, c => c = .greater || c = .equal
  | .gt, c => c = .greater
  | .le, c => c = .less || c = .equal

/-- Whether the operator asks which operand is the greater one. -/
def isOrdering : CompareOp → Bool
  | .eq | .ne => false
  | .lt | .ge | .gt | .le => true

/-- An operator and its opposite never hold together. -/
theorem not_holdsOf_both (op : CompareOp) (c : Comparison) : (op.holdsOf c && op.negate.holdsOf c) = false := by
  cases op <;> cases c <;> rfl

/-- The negated operator is the opposite one, except for an ordering of unordered operands. -/
theorem holdsOf_negate_iff (op : CompareOp) (c : Comparison) :
    op.negate.holdsOf c = !op.holdsOf c ↔ ¬(op.isOrdering = true ∧ c = .unordered) := by
  cases op <;> cases c <;> decide

end CompareOp

/-- A part of a truth value that is evaluated as a whole. -/
inductive Leaf where
  | value (e : Expr)
  | constant
  /-- Two operands that are compared. -/
  | operands (left right : Expr)

/-- What the leaves of a truth value come to. They are numbered from the left, so that a leaf that occurs
twice may come to different values. -/
structure Valuation where
  truth : Nat → Expr → Bool
  comparison : Nat → Expr → Expr → Comparison

/-- What an evaluation comes to, and the leaves that it evaluates, with their numbers and in order. -/
@[ext]
structure Evaluated where
  value : Bool
  leaves : List (Nat × Leaf)

namespace Evaluated

/-- The opposite, found out in the same way. -/
def not (x : Evaluated) : Evaluated := ⟨!x.value, x.leaves⟩

/-- Both of two, where the second one matters only if the first one holds. -/
def and (x y : Evaluated) : Evaluated := if x.value then ⟨y.value, x.leaves ++ y.leaves⟩ else x

/-- One of two, where the second one matters only if the first one does not hold. -/
def or (x y : Evaluated) : Evaluated := if x.value then x else ⟨y.value, x.leaves ++ y.leaves⟩

variable {x y x' y' : Evaluated} {l : Nat × Leaf} {k : Nat}

/-- A leaf of a conjunction is one of its parts. -/
theorem mem_leaves_of_mem_and (h : l ∈ (x.and y).leaves) : l ∈ x.leaves ∨ l ∈ y.leaves := by
  unfold and at h
  split at h
  · exact List.mem_append.1 h
  · exact .inl h

/-- A leaf of a disjunction is one of its parts. -/
theorem mem_leaves_of_mem_or (h : l ∈ (x.or y).leaves) : l ∈ x.leaves ∨ l ∈ y.leaves := by
  unfold or at h
  split at h
  · exact .inl h
  · exact List.mem_append.1 h

/-- A conjunction evaluates what its first part does. -/
theorem leaves_and_ne_nil (h : x.leaves ≠ []) : (x.and y).leaves ≠ [] := by
  unfold and
  split <;> simp [h]

/-- So does a disjunction. -/
theorem leaves_or_ne_nil (h : x.leaves ≠ []) : (x.or y).leaves ≠ [] := by
  unfold or
  split <;> simp [h]

/-- The opposite of the opposite is the same. -/
@[simp] theorem not_not (x : Evaluated) : x.not.not = x := by simp [not]

/-- Being the opposite is mutual. -/
theorem eq_not_comm : x = y.not ↔ y = x.not :=
  ⟨fun h => by rw [h, not_not], fun h => by rw [h, not_not]⟩

/-- The leaves of the first part have smaller numbers than those of the second part. -/
def Divides (k : Nat) (x y : Evaluated) : Prop := (∀ l ∈ x.leaves, l.1 < k) ∧ ∀ l ∈ y.leaves, k ≤ l.1

/-- Leaves that are evaluated one part after the other tell what was evaluated of each part. -/
theorem Divides.leaves_inj (h : Divides k x y) (h' : Divides k x' y')
    (heq : x.leaves ++ y.leaves = x'.leaves ++ y'.leaves) : x.leaves = x'.leaves ∧ y.leaves = y'.leaves := by
  have hfront : ∀ {x y : Evaluated}, Divides k x y →
      (x.leaves ++ y.leaves).filter (·.1 < k) = x.leaves := by
    intro x y h
    have hnone : y.leaves.filter (·.1 < k) = [] :=
      List.filter_eq_nil_iff.2 fun l hl => by simpa using h.2 l hl
    rw [List.filter_append, hnone, List.append_nil]
    exact List.filter_eq_self.2 fun l hl => by simpa using h.1 l hl
  have hx : x.leaves = x'.leaves := by rw [← hfront h, heq, hfront h']
  exact ⟨hx, List.append_cancel_left (hx ▸ heq)⟩

/-- De Morgan's law of evaluations. It takes the opposite of each part that matters, and only that. -/
theorem or_eq_not_and_iff (h : Divides k x y) (h' : Divides k x' y') (hy' : y'.leaves ≠ [])
    (hboth : (x.value && x'.value) = false) :
    x'.or y' = (x.and y).not ↔ x' = x.not ∧ (x.value = true → y' = y.not) := by
  cases hx : x.value with
  | true =>
    have hx' : x'.value = false := by simpa [hx] using hboth
    rw [or, and, hx, hx', if_neg Bool.false_ne_true, if_pos rfl]
    constructor
    · intro heq
      obtain ⟨hvalue, hleaves⟩ := Evaluated.ext_iff.1 heq
      obtain ⟨hfront, hback⟩ := h'.leaves_inj h hleaves
      exact ⟨Evaluated.ext (by simp [not, hx, hx']) hfront, fun _ => Evaluated.ext hvalue hback⟩
    · rintro ⟨hfront, hback⟩
      rw [hfront, hback rfl]
      rfl
  | false =>
    cases hx' : x'.value with
    | true => simp [or, and, not, hx, hx', Evaluated.ext_iff]
    | false =>
      -- the second part is evaluated of one of the two only
      have hnone : Divides k x ⟨true, []⟩ := ⟨h.1, by simp⟩
      have hmore : x'.leaves ++ y'.leaves ≠ x.leaves := fun heq =>
        hy' (h'.leaves_inj hnone (by simpa using heq)).2
      simp [or, and, not, hx, hx', Evaluated.ext_iff, hmore]

/-- A conjunction is the opposite of a disjunction if their parts are opposite as far as they are evaluated.
-/
theorem and_eq_not_or_iff (h : Divides k x y) (h' : Divides k x' y') (hy : y.leaves ≠ [])
    (hboth : (x.value && x'.value) = false) :
    x'.and y' = (x.or y).not ↔ x' = x.not ∧ (x.value = false → y' = y.not) := by
  rw [eq_not_comm, or_eq_not_and_iff h' h hy (by rw [Bool.and_comm, hboth]), eq_not_comm (x := x),
    eq_not_comm (x := y)]
  refine and_congr_right fun hx => ?_
  rw [hx, not, Bool.not_eq_true']

end Evaluated

namespace Expr

/-- How many leaves a truth value has. -/
def leafCount : Expr → Nat
  | .not _ e => e.leafCount
  | .binary _ .and left right | .binary _ .or left right => left.leafCount + right.leafCount
  | _ => 1

/-- Evaluate a truth value whose first leaf has number `n`. -/
def evaluate (v : Valuation) (n : Nat) : Expr → Evaluated
  | .not _ e => (e.evaluate v n).not
  | .literal _ (.boolean b) => ⟨b, [(n, .constant)]⟩
  | .binary _ .and left right =>
    (left.evaluate v n).and (right.evaluate v (n + left.leafCount))
  | .binary _ .or left right => (left.evaluate v n).or (right.evaluate v (n + left.leafCount))
  | .compare _ op left right => ⟨op.holdsOf (v.comparison n left right), [(n, .operands left right)]⟩
  | e => ⟨v.truth n e, [(n, .value e)]⟩

/-- No ordering of unordered operands is evaluated, those under a `!` apart: a negation only takes away the
`!`. -/
def OrdersOperands (v : Valuation) (n : Nat) : Expr → Prop
  | .compare _ op left right => ¬(op.isOrdering = true ∧ v.comparison n left right = .unordered)
  | .binary _ .and left right => left.OrdersOperands v n ∧
      ((left.evaluate v n).value = true → right.OrdersOperands v (n + left.leafCount))
  | .binary _ .or left right => left.OrdersOperands v n ∧
      ((left.evaluate v n).value = false → right.OrdersOperands v (n + left.leafCount))
  | _ => True

variable {v : Valuation} {n : Nat}

/-- A negation has as many leaves. -/
@[simp] theorem leafCount_negate (e : Expr) : e.negate.leafCount = e.leafCount := by
  fun_induction negate e with
  | case1 | case3 | case6 => rfl
  | case2 => rfl
  | case4 l left right ihl ihr | case5 l left right ihl ihr => simp [leafCount, ihl, ihr]

/-! ## Which leaves are evaluated -/

/-- The numbers of leaves follow each other from the first. -/
theorem number_of_mem_leaves {e : Expr} {l : Nat × Leaf} (h : l ∈ (e.evaluate v n).leaves) :
    n ≤ l.1 ∧ l.1 < n + e.leafCount := by
  have hparts : ∀ {left right : Expr} {n : Nat},
      n ≤ l.1 ∧ l.1 < n + left.leafCount ∨
        n + left.leafCount ≤ l.1 ∧ l.1 < n + left.leafCount + right.leafCount →
      n ≤ l.1 ∧ l.1 < n + (left.leafCount + right.leafCount) := by omega
  fun_induction evaluate v n e with
  | case1 n line e ih => exact ih h
  | case3 n line left right ihl ihr =>
    exact hparts ((Evaluated.mem_leaves_of_mem_and h).imp ihl ihr)
  | case4 n line left right ihl ihr =>
    exact hparts ((Evaluated.mem_leaves_of_mem_or h).imp ihl ihr)
  | case2 | case5 | case6 => simp_all [leafCount]

/-- Every truth value evaluates something. -/
theorem leaves_ne_nil (e : Expr) : (e.evaluate v n).leaves ≠ [] := by
  fun_induction evaluate v n e with
  | case1 n line e ih => exact ih
  | case3 n line left right ihl ihr => exact Evaluated.leaves_and_ne_nil ihl
  | case4 n line left right ihl ihr => exact Evaluated.leaves_or_ne_nil ihl
  | case2 | case5 | case6 => exact List.cons_ne_nil _ _

/-- The operands of a logical operator have their leaves one behind the other. -/
theorem divides {left left' right' : Expr} (hleft : left'.leafCount = left.leafCount) :
    (left'.evaluate v n).Divides (n + left.leafCount) (right'.evaluate v (n + left.leafCount)) :=
  ⟨fun _ h => hleft ▸ (number_of_mem_leaves h).2, fun _ h => (number_of_mem_leaves h).1⟩

/-! ## Negation -/

/-- A condition and its negation do not both hold. -/
theorem not_both (e : Expr) : ((e.evaluate v n).value && (e.negate.evaluate v n).value) = false := by
  fun_induction negate e generalizing n with
  | case1 l op left right => exact op.not_holdsOf_both _
  | case2 l e => simp [evaluate, Evaluated.not]
  | case3 l b => simp [evaluate]
  | case4 l left right ihl ihr | case5 l left right ihl ihr =>
    have hl := @ihl n
    have hr := @ihr (n + left.leafCount)
    simp only [evaluate, leafCount_negate, Evaluated.and, Evaluated.or]
    cases hx : (left.evaluate v n).value <;> cases hy : (left.negate.evaluate v n).value <;>
      simp_all
  | case6 e => simp [evaluate, Evaluated.not]

/-- A negated condition comes to the opposite of the condition, and evaluates the same leaves in the same
order, exactly if no ordering of unordered operands is evaluated outside of a `!`. -/
theorem evaluate_negate_iff (v : Valuation) (n : Nat) (e : Expr) :
    e.negate.evaluate v n = (e.evaluate v n).not ↔ e.OrdersOperands v n := by
  fun_induction negate e generalizing n with
  | case1 l op left right =>
    simp only [evaluate, OrdersOperands, Evaluated.not, Evaluated.mk.injEq, and_true]
    exact op.holdsOf_negate_iff _
  | case2 l e => simp [evaluate, OrdersOperands]
  | case3 l b => simp [evaluate, OrdersOperands, Evaluated.not]
  | case4 l left right ihl ihr =>
    simp only [evaluate, OrdersOperands, leafCount_negate, ← ihl, ← ihr]
    exact Evaluated.or_eq_not_and_iff (divides rfl) (divides (leafCount_negate left))
      (leaves_ne_nil _) (not_both left)
  | case5 l left right ihl ihr =>
    simp only [evaluate, OrdersOperands, leafCount_negate, ← ihl, ← ihr]
    exact Evaluated.and_eq_not_or_iff (divides rfl) (divides (leafCount_negate left))
      (leaves_ne_nil _) (not_both left)
  | case6 e hcompare hnot hliteral hand hor =>
    have hordered : e.OrdersOperands v n := by
      unfold OrdersOperands
      split
      · exact (hcompare _ _ _ _ rfl).elim
      · exact (hand _ _ _ rfl).elim
      · exact (hor _ _ _ rfl).elim
      · trivial
    exact iff_of_true rfl hordered

/-- All floats are unordered, and everything else is equal. -/
def floatsUnordered : Valuation where
  truth _ _ := true
  comparison _ left right :=
    if left.type = .float ∧ right.type = .float then .unordered else .equal

/-- Neither `a < b` nor its negation holds if one of the two floats is not a number. -/
theorem negate_not_opposite :
    let a := Expr.localVar none (.ofSlot 0 0 .float)
    let b := Expr.localVar none (.ofSlot 1 1 .float)
    let e := Expr.compare none .lt a b
    (∀ m left right, floatsUnordered.comparison m left right = .unordered →
      left.type = .float ∧ right.type = .float) ∧
    (e.evaluate floatsUnordered 0).value = false ∧
      (e.negate.evaluate floatsUnordered 0).value = false := by
  refine ⟨fun m left right h => ?_, by decide, by decide⟩
  unfold floatsUnordered at h
  dsimp only at h
  split at h
  · assumption
  · cases h

end Expr

end JvmDecompiler
