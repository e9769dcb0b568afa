import JvmDecompiler.Proofs.TreeTransform
import JvmDecompiler.Variable.Recovery
import Mathlib.Tactic.Tauto

/-!
# Variables that uses are bound to

Of the variables that `VariableSources.bind` finds, only parameters come with a declaration.
-/

namespace JvmDecompiler

/-- A variable without a declaration, unless it is a parameter. -/
def LocalVariable.IsOpen (v : LocalVariable) : Prop := v.isParameter = false → v.isDeclared = false

/-- What says that a variable has a declaration stays with its flags. -/
theorem LocalVariable.IsOpen.of_eq {v w : LocalVariable} (h : v.IsOpen) (hf : w.flags = v.flags)
    (ho : w.origin = v.origin) : w.IsOpen := by
  simpa [IsOpen, isParameter, isDeclared, hf, ho] using h

namespace VariableSources

variable (src : VariableSources)

theorem isOpen_of_mem_parameterVariables {v : LocalVariable} (h : v ∈ src.parameterVariables) :
    v.IsOpen := by
  obtain ⟨p, -, rfl⟩ := List.mem_map.1 h
  intro hp
  simp [parameter, LocalVariable.isParameter] at hp

/-- Joining rows moves the ends of variables only. -/
theorem exists_of_mem_joinRows {merge : Bool} {v u : LocalVariable} {rest : List LocalVariable}
    (h : u ∈ joinRows merge v rest) :
    ∃ w ∈ v :: rest, { u with length := 0 } = { w with length := 0 } := by
  induction rest generalizing v with
  | nil =>
    obtain rfl := List.mem_singleton.1 h
    exact ⟨u, List.mem_cons_self, rfl⟩
  | cons w rest ih =>
    have hjoined : ∀ {length : Nat}, u ∈ joinRows merge { v with length } rest →
        ∃ w' ∈ v :: w :: rest, { u with length := 0 } = { w' with length := 0 } := by
      intro length hu
      obtain ⟨w', hw', hsame⟩ := ih hu
      rcases List.mem_cons.1 hw' with rfl | hw'
      · exact ⟨v, List.mem_cons_self, hsame⟩
      · exact ⟨w', List.mem_cons_of_mem _ (List.mem_cons_of_mem _ hw'), hsame⟩
    have hlater : u ∈ joinRows merge w rest →
        ∃ w' ∈ v :: w :: rest, { u with length := 0 } = { w' with length := 0 } := by
      intro hu
      obtain ⟨w', hw', hsame⟩ := ih hu
      exact ⟨w', List.mem_cons_of_mem _ hw', hsame⟩
    rw [joinRows] at h
    split at h
    · rcases List.mem_cons.1 h with rfl | h
      · exact ⟨u, List.mem_cons_self, rfl⟩
      · exact hlater h
    · split at h
      · exact hjoined h
      · rcases List.mem_cons.1 h with rfl | h
        · exact ⟨v, List.mem_cons_self, rfl⟩
        · exact hlater h

/-- A variable from the table is that of a row, up to its end. The row does not say what is in the slot of a
parameter at the start of the code. -/
theorem exists_row_of_mem_tableVariables {v : LocalVariable} (h : v ∈ src.tableVariables) :
    0 < v.length ∧ ∃ row ∈ src.rows,
      (row.slot < Ty.slotsEnd src.firstSlot src.parameters → row.start ≠ 0) ∧
        { v with length := 0 } = { src.rowVariable row with length := 0 } := by
  unfold tableVariables at h
  dsimp only at h
  split at h
  · cases h
  · rename_i first rest hsorted
    obtain ⟨hmem, hpos⟩ := List.mem_filter.1 h
    obtain ⟨w, hw, hsame⟩ := exists_of_mem_joinRows hmem
    rw [← hsorted, List.mem_mergeSort] at hw
    obtain ⟨row, hrow, rfl⟩ := List.mem_map.1 hw
    obtain ⟨hrow, hkept⟩ := List.mem_filter.1 hrow
    exact ⟨by simpa using hpos, row, hrow, by simpa [imp_iff_not_or] using hkept, hsame⟩

theorem isOpen_of_mem_tableVariables {v : LocalVariable} (h : v ∈ src.tableVariables) : v.IsOpen := by
  obtain ⟨-, row, -, -, hsame⟩ := src.exists_row_of_mem_tableVariables h
  have hflags : v.flags = 0 := congrArg LocalVariable.flags hsame
  intro _
  simp [LocalVariable.isDeclared, hflags]

end VariableSources

theorem isOpen_of_runVariable {position : Nat} {run : List SlotUse} {v : LocalVariable}
    (h : runVariable position run = some v) : v.IsOpen := by
  cases run with
  | nil => cases h
  | cons first rest =>
    obtain rfl := Option.some.inj h
    intro _
    simp only [LocalVariable.isDeclared]
    split <;> rfl

theorem isOpen_of_mem_inferredVariables {uses : List SlotUse} {v : LocalVariable}
    (h : v ∈ inferredVariables uses) : v.IsOpen := by
  obtain ⟨_, -, h⟩ := List.mem_flatMap.1 h
  obtain ⟨_, -, h⟩ := List.mem_filterMap.1 h
  exact isOpen_of_runVariable h

/-- Making variables disjoint moves their ends only. -/
theorem exists_of_mem_separate {settled rest : List LocalVariable} {u : LocalVariable}
    (h : u ∈ separate settled rest) :
    ∃ w ∈ settled ++ rest, u.flags = w.flags ∧ u.origin = w.origin := by
  induction settled, rest using separate.induct with
  | case1 settled =>
    rw [separate, List.mem_reverse] at h
    exact ⟨u, by simpa using h, rfl, rfl⟩
  | case2 v rest ih =>
    rw [separate] at h
    obtain ⟨w, hw, hsame⟩ := ih h
    exact ⟨w, by simpa using hw, hsame⟩
  | case3 prev settled v rest hdisjoint ih =>
    rw [separate, if_pos hdisjoint] at h
    obtain ⟨w, hw, hsame⟩ := ih h
    refine ⟨w, ?_, hsame⟩
    simp only [List.cons_append, List.mem_cons, List.mem_append] at hw ⊢
    tauto
  | case4 prev settled v rest hoverlap hlater v' ih =>
    rw [separate, if_neg hoverlap, if_pos hlater] at h
    obtain ⟨w, hw, hf, ho⟩ := ih h
    have hw' : w = v' ∨ w ∈ prev :: settled ++ v :: rest := by
      split at hw <;> simp only [List.cons_append, List.mem_cons, List.mem_append] at hw ⊢ <;> tauto
    rcases hw' with rfl | hw'
    · exact ⟨v, by simp, hf, ho⟩
    · exact ⟨w, hw', hf, ho⟩
  | case5 prev settled v rest hoverlap hlater prev' ih =>
    rw [separate, if_neg hoverlap, if_neg hlater] at h
    obtain ⟨w, hw, hf, ho⟩ := ih h
    have hw' : w = prev' ∨ w ∈ prev :: settled ++ v :: rest := by
      split at hw <;> simp only [List.cons_append, List.mem_cons, List.mem_append] at hw ⊢ <;> tauto
    rcases hw' with rfl | hw'
    · exact ⟨prev, by simp, hf, ho⟩
    · exact ⟨w, hw', hf, ho⟩

theorem isOpen_of_mem_makeDisjoint {vars : List LocalVariable} {v : LocalVariable}
    (hvars : ∀ w ∈ vars, w.IsOpen) (h : v ∈ makeDisjoint vars) : v.IsOpen := by
  obtain ⟨w, hw, hf, ho⟩ := exists_of_mem_separate h
  rw [List.nil_append, List.mem_mergeSort] at hw
  exact (hvars w hw).of_eq hf ho

/-- Renaming changes names only. -/
theorem map_renameConflictsFrom {α : Type} {f : LocalVariable → α}
    (hf : ∀ (v : LocalVariable) (name : String), f { v with name } = f v) (taken : List String)
    (seen : List (String × Ty)) (vars : List LocalVariable) :
    (renameConflictsFrom taken seen vars).map f = vars.map f := by
  induction vars generalizing taken seen with
  | nil => rfl
  | cons v vars ih =>
    rw [renameConflictsFrom]
    split
    · rw [List.map_cons, List.map_cons, ih, hf]
    · rw [List.map_cons, List.map_cons, ih]

theorem VariableSources.isOpen_of_mem_locals {src : VariableSources} {body : List Stmt}
    {v : LocalVariable} (h : v ∈ src.locals body) : v.IsOpen := by
  rw [VariableSources.locals, List.mem_mergeSort] at h
  have hmarks : (v.flags, v.origin) ∈ (renameConflicts _).map fun v => (v.flags, v.origin) := List.mem_map_of_mem h
  rw [renameConflicts, map_renameConflictsFrom fun _ _ => rfl] at hmarks
  obtain ⟨w, hw, hsame⟩ := List.mem_map.1 hmarks
  obtain ⟨hf, ho⟩ := Prod.mk.inj hsame
  refine (isOpen_of_mem_makeDisjoint (fun w hw => ?_) hw).of_eq hf.symm ho.symm
  rcases List.mem_append.1 hw with hw | hw
  · rcases List.mem_append.1 hw with hw | hw
    · exact src.isOpen_of_mem_parameterVariables hw
    · exact src.isOpen_of_mem_tableVariables hw
  · exact isOpen_of_mem_inferredVariables hw

/-- Binding uses adds no variable with a declaration. -/
theorem respects_binder_isOpen :
    binder.Respects (.keeping fun vars => ∀ v ∈ vars, v.IsOpen) (fun _ => True) (fun _ => True) where
  expr _ he := ResultLogic.pure _ he
  simple _ hs := ResultLogic.pure _ hs
  stmt _ hs := ResultLogic.pure _ hs
  body _ hb := ResultLogic.pure _ hb
  localVar ref _ := by
    intro vars hvars
    refine ⟨trivial, ?_⟩
    cases h : variableAt? vars ref.slot ref.pc with
    | some i =>
      have hrun : ((binder.localVar ref).run vars).2 = vars := by
        simp only [binder, bind_pure_comp, StateT.run_bind, StateT.run_get, pure_bind, h]
        rfl
      rw [hrun]
      exact hvars
    | none =>
      have hrun : ((binder.localVar ref).run vars).2 = vars ++ [variableOfUse ref] := by
        simp only [binder, StateT.run_bind, StateT.run_get, pure_bind, h]
        rfl
      rw [hrun]
      intro v hv
      rcases List.mem_append.1 hv with hv | hv
      · exact hvars v hv
      · obtain rfl := List.mem_singleton.1 hv
        exact fun _ => by simp [LocalVariable.isDeclared, variableOfUse]

/-- Of the variables of a body, only parameters have a declaration. -/
theorem VariableSources.isOpen_of_mem_bind {src : VariableSources} {body : List Stmt}
    {v : LocalVariable} (h : v ∈ (src.bind body).locals) : v.IsOpen :=
  (respects_binder_isOpen.onBody (fun _ _ => trivial) (src.locals body)
    fun _ hw => isOpen_of_mem_locals hw).2 v h

end JvmDecompiler
