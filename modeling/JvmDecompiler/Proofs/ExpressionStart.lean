import JvmDecompiler.Proofs.StackHeight

/-!
# Where the computation of a value starts

The value on top of the stack is looked for backwards: from one value that is needed, each instruction takes
off those that it puts on the stack and adds those that it takes (`PlacedInstruction.expressionStartFrom`).
Forwards, the instructions run on an empty stack. The two meet in the height of the stack: what is needed
in front of an instruction is the height there of a run that ends with one value
(`PlacedInstruction.bringsTo_concat`), so that the search ends where that height is zero for the first time
(`PlacedInstruction.expressionStart?_exact`).
-/

namespace JvmDecompiler

open StackEffect

namespace PlacedInstruction

variable {pool : ConstantPool} {n m : Nat} {i : PlacedInstruction} {is js : List PlacedInstruction}

/-- On a stack of height `n`, the instructions find what they take and bring it to the height `m`. -/
def BringsTo (pool : ConstantPool) (n : Nat) (is : List PlacedInstruction) (m : Nat) : Prop :=
  ∃ effects, Sim.HaveEffects pool is effects ∧ Sustained n effects ∧
    m + totalPops effects = n + totalPushes effects

/-- The instructions compute one value from an empty stack. -/
def ComputesValue (pool : ConstantPool) (is : List PlacedInstruction) : Prop := BringsTo pool 0 is 1

@[simp] theorem bringsTo_nil : BringsTo pool n [] m ↔ n = m := by
  constructor
  · rintro ⟨effects, heffects, -, hheight⟩
    cases heffects
    simpa using hheight.symm
  · rintro rfl
    exact ⟨[], .nil, sustained_nil n, rfl⟩

theorem bringsTo_cons : BringsTo pool n (i :: is) m ↔
    ∃ e, i.operation.stackEffect? pool = some e ∧ e.pops ≤ n ∧
      BringsTo pool (n - e.pops + e.pushes) is m := by
  constructor
  · rintro ⟨all, hall, hsustained, hheight⟩
    obtain _ | @⟨_, e, _, effects, he, heffects⟩ := hall
    obtain ⟨hpops, hsustained⟩ := sustained_cons.1 hsustained
    refine ⟨e, he, hpops, effects, heffects, hsustained, ?_⟩
    rw [totalPops_cons, totalPushes_cons] at hheight
    omega
  · rintro ⟨e, he, hpops, effects, heffects, hsustained, hheight⟩
    refine ⟨e :: effects, .cons he heffects, sustained_cons.2 ⟨hpops, hsustained⟩, ?_⟩
    rw [totalPops_cons, totalPushes_cons]
    omega

theorem bringsTo_append : BringsTo pool n (is ++ js) m ↔
    ∃ k, BringsTo pool n is k ∧ BringsTo pool k js m := by
  induction is generalizing n with
  | nil => simp
  | cons i is ih =>
    simp only [List.cons_append, bringsTo_cons, ih]
    constructor
    · rintro ⟨e, he, hpops, k, hfirst, hlater⟩
      exact ⟨k, ⟨e, he, hpops, hfirst⟩, hlater⟩
    · rintro ⟨k, ⟨e, he, hpops, hfirst⟩, hlater⟩
      exact ⟨e, he, hpops, k, hfirst, hlater⟩

/-- Read from the end, an instruction asks for what it takes in place of what it puts on the stack. -/
theorem bringsTo_concat {e : StackEffect} (he : i.operation.stackEffect? pool = some e) :
    BringsTo pool n (is ++ [i]) m ↔ e.pushes ≤ m ∧ BringsTo pool n is (m - e.pushes + e.pops) := by
  rw [bringsTo_append]
  simp only [bringsTo_cons, he, Option.some.injEq, exists_eq_left', bringsTo_nil]
  constructor
  · rintro ⟨k, hfirst, hpops, rfl⟩
    rw [Nat.add_sub_cancel, Nat.sub_add_cancel hpops]
    exact ⟨Nat.le_add_left _ _, hfirst⟩
  · rintro ⟨hpushes, hfirst⟩
    refine ⟨_, hfirst, Nat.le_add_left _ _, ?_⟩
    rw [Nat.add_sub_cancel, Nat.sub_add_cancel hpushes]

/-- Without an effect in the table nothing is known of a run. -/
theorem not_bringsTo_concat (he : i.operation.stackEffect? pool = none) :
    ¬BringsTo pool n (is ++ [i]) m := by
  rw [bringsTo_append]
  simp [bringsTo_cons, he]

/-! ## The search -/

/-- From the position on, the instructions compute the values that are needed, and from no later one. -/
def IsLastStart (pool : ConstantPool) (needed : Nat) (is : List PlacedInstruction) (start : Nat) : Prop :=
  start < is.length ∧ BringsTo pool 0 (is.drop start) needed ∧
    ∀ later, start < later → later < is.length → ¬BringsTo pool 0 (is.drop later) needed

theorem not_isLastStart_concat {needed start : Nat}
    (h : ∀ front : List PlacedInstruction, ¬BringsTo pool 0 (front ++ [i]) needed) :
    ¬IsLastStart pool needed (is ++ [i]) start := by
  rintro ⟨hlt, hstart, -⟩
  rw [List.length_append, List.length_singleton] at hlt
  rw [List.drop_append_of_le_length (by omega)] at hstart
  exact h _ hstart

/-- One step of the search: if nothing is needed any more in front of the last instruction, it starts
there, and else where what is needed starts. -/
theorem isLastStart_concat {needed start : Nat} {e : StackEffect}
    (he : i.operation.stackEffect? pool = some e) (hpushes : e.pushes ≤ needed) :
    IsLastStart pool needed (is ++ [i]) start ↔
      if needed - e.pushes + e.pops = 0 then start = is.length
      else IsLastStart pool (needed - e.pushes + e.pops) is start := by
  -- the last instruction brings its own values, and needs those it takes from the others
  have hdrop : ∀ {k}, k ≤ is.length → (BringsTo pool 0 ((is ++ [i]).drop k) needed ↔
      BringsTo pool 0 (is.drop k) (needed - e.pushes + e.pops)) := by
    intro k hk
    rw [List.drop_append_of_le_length hk, bringsTo_concat he]
    exact and_iff_right hpushes
  have hlast : BringsTo pool 0 ((is ++ [i]).drop is.length) needed ↔ needed - e.pushes + e.pops = 0 := by
    rw [hdrop (Nat.le_refl _), List.drop_length, bringsTo_nil, eq_comm]
  have hlength : (is ++ [i]).length = is.length + 1 := by simp
  rw [IsLastStart, hlength]
  split
  · rename_i hzero
    constructor
    · rintro ⟨hlt, -, hlater⟩
      by_contra hne
      exact hlater is.length (by omega) (by omega) (hlast.2 hzero)
    · rintro rfl
      exact ⟨by omega, hlast.2 hzero, fun later _ _ => by omega⟩
  · rename_i hnonzero
    constructor
    · rintro ⟨hlt, hstart, hlater⟩
      have hne : start ≠ is.length := by
        rintro rfl
        exact hnonzero (hlast.1 hstart)
      exact ⟨by omega, (hdrop (by omega)).1 hstart,
        fun later hgt hle => mt (hdrop (by omega)).2 (hlater later hgt (by omega))⟩
    · rintro ⟨hlt, hstart, hlater⟩
      refine ⟨by omega, (hdrop (by omega)).2 hstart, fun later hgt hle => ?_⟩
      rcases Nat.lt_or_ge later is.length with hin | hout
      · exact mt (hdrop (by omega)).1 (hlater later hgt hin)
      · obtain rfl : later = is.length := by omega
        exact mt hlast.1 hnonzero

theorem expressionStartFrom_eq_some_iff {needed start : Nat} {reversed : List PlacedInstruction} :
    expressionStartFrom pool needed reversed = some start ↔
      IsLastStart pool needed reversed.reverse start := by
  -- from the end of the code, with the values that are still needed
  induction reversed generalizing needed with
  | nil => simp [expressionStartFrom, IsLastStart]
  | cons i rest ih =>
    rw [expressionStartFrom, List.reverse_cons]
    cases he : i.operation.stackEffect? pool with
    | none =>
      simp only [reduceCtorEq, false_iff]
      exact not_isLastStart_concat fun _ => not_bringsTo_concat he
    | some e =>
      dsimp only
      split
      · rename_i hlt
        simp only [reduceCtorEq, false_iff]
        exact not_isLastStart_concat fun _ h => Nat.not_le_of_lt hlt ((bringsTo_concat he).1 h).1
      · rw [isLastStart_concat he (by omega), List.length_reverse]
        split
        · rw [Option.some.injEq, eq_comm]
        · exact ih

/-! ## Numbers that stay above zero -/

/-- A difference, if it is not below zero. -/
def checkedSub? (a b : Nat) : Option Nat := if b ≤ a then some (a - b) else none

/-- The search with its subtraction checked. It has no answer at all if what is needed goes below
zero. -/
def checkedStartFrom? (pool : ConstantPool) : (needed : Nat) → (reversed : List PlacedInstruction) →
    Option (Option Nat)
  | _, [] => some none
  | needed, i :: rest =>
    match i.operation.stackEffect? pool with
    | none => some none
    | some effect =>
      if needed < effect.pushes then some none
      else do
        let needed := (← checkedSub? needed effect.pushes) + effect.pops
        if needed = 0 then some (some rest.length) else checkedStartFrom? pool needed rest

theorem checkedStartFrom?_eq (needed : Nat) (reversed : List PlacedInstruction) :
    checkedStartFrom? pool needed reversed = some (expressionStartFrom pool needed reversed) := by
  -- no subtraction gets below zero, since the test for it comes first
  induction reversed generalizing needed with
  | nil => rfl
  | cons i rest ih =>
    rw [checkedStartFrom?, expressionStartFrom]
    cases i.operation.stackEffect? pool with
    | none => rfl
    | some e =>
      dsimp only
      split
      · rfl
      · rename_i hle
        rw [checkedSub?, if_pos (Nat.le_of_not_lt hle)]
        dsimp only [Option.bind_eq_bind, Option.bind_some]
        split
        · rfl
        · exact ih _

/-- The start of an expression is the last position in front of its end from which on the instructions
compute one value from an empty stack, each of them finding what it takes; if there is such a position, it is
found. The search never subtracts more than there is. -/
theorem expressionStart?_exact (pool : ConstantPool) (instructions : List PlacedInstruction) (stop : Nat) :
    (∀ start, expressionStart? pool instructions stop = some start ↔
      start < stop ∧ ComputesValue pool ((instructions.take stop).drop start) ∧
        ∀ later, start < later → later < stop →
          ¬ComputesValue pool ((instructions.take stop).drop later)) ∧
    checkedStartFrom? pool 1 (instructions.take stop).reverse =
      some (expressionStart? pool instructions stop) := by
  refine ⟨fun start => ?_, checkedStartFrom?_eq _ _⟩
  have houtside : ∀ k, (instructions.take stop).length ≤ k →
      ¬ComputesValue pool ((instructions.take stop).drop k) := by
    intro k hk
    rw [List.drop_eq_nil_of_le hk, ComputesValue, bringsTo_nil]
    exact Nat.zero_ne_one
  have hlength : (instructions.take stop).length ≤ stop := List.length_take_le _ _
  rw [expressionStart?, expressionStartFrom_eq_some_iff, List.reverse_reverse]
  constructor
  · rintro ⟨hlt, hstart, hlater⟩
    refine ⟨by omega, hstart, fun later hgt _ => ?_⟩
    rcases Nat.lt_or_ge later (instructions.take stop).length with hin | hout
    · exact hlater later hgt hin
    · exact houtside later hout
  · rintro ⟨-, hstart, hlater⟩
    have hin : start < (instructions.take stop).length := by
      by_contra hout
      exact houtside start (by omega) hstart
    exact ⟨hin, hstart, fun later hgt hlt => hlater later hgt (by omega)⟩

end PlacedInstruction

end JvmDecompiler
