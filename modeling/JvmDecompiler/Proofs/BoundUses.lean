import JvmDecompiler.Decompilation
import JvmDecompiler.Proofs.KeptUses
import JvmDecompiler.Proofs.VariableTable

/-!
# Uses are bound to consistent variables

Binding looks every use of a slot up in the table of variables. The table has a variable for the slot of
every use in the body (`VariableSources.table_locals`), because the uses that are collected for it are
those that the binder meets; so the binder never has to add a variable, and the table stays in order. As
the ranges of one slot are disjoint, the first variable that covers an address is the only one.

`BoundBody.Consistent` says what holds of a body then, and the passes behind the binder keep it: they
mark variables, and make no uses but declarations (`Proofs.KeptUses`).
-/

namespace JvmDecompiler

open Node (AllLocals)

/-- A use of a variable names a variable of its slot by its position, which is the one whose range the
use is in if there is one. -/
def LocalRef.IsBound (vars : List LocalVariable) (ref : LocalRef) : Prop :=
  ∃ i v, ref.var = some i ∧ vars[i]? = some v ∧ v.slot = ref.slot ∧ v.name = ref.name ∧
    ∀ j w, vars[j]? = some w → w.slot = ref.slot → w.covers ref.pc = true → j = i

/-! ## Uses of slots are uses of variables -/

/-- A use of a slot is that of a variable. -/
def SlotUse.IsOf (u : SlotUse) (ref : LocalRef) : Prop := u.slot = ref.slot ∧ u.pc = ref.pc ∧ u.type = ref.type

/-- The use of a slot at a variable is that of the variable. -/
theorem SlotUse.isOf_of_mem_ofNode {ref : LocalRef} {stored : Option Expr} {u : SlotUse}
    (hu : u ∈ ofNode (.localVar ref stored)) : u.IsOf ref := by
  cases stored <;> obtain rfl := List.mem_singleton.1 hu <;> exact ⟨rfl, rfl, rfl⟩

/-- Every use of a variable in a tree is a use of its slot. -/
theorem SlotUse.exists_of_mem_locals {nodes : List Node} {ref : LocalRef}
    (h : ref ∈ Node.locals nodes) : ∃ u ∈ nodes.flatMap SlotUse.ofNode, u.IsOf ref := by
  obtain ⟨node, hnode, hlocal⟩ := List.mem_flatMap.1 h
  cases node with
  | localVar other stored =>
    obtain rfl := List.mem_singleton.1 hlocal
    obtain ⟨u, hu⟩ : ∃ u, u ∈ ofNode (.localVar ref stored) := by
      cases stored <;> exact ⟨_, List.mem_singleton_self _⟩
    exact ⟨u, List.mem_flatMap.2 ⟨_, hnode, hu⟩, isOf_of_mem_ofNode hu⟩
  | stmt | simple | expr => cases hlocal

namespace SlotUse

/-- Every use of a slot in some nodes is that of a variable in them. -/
def FromLocals (nodes : List Node) : Prop :=
  ∀ u ∈ nodes.flatMap ofNode, ∃ ref ∈ Node.locals nodes, u.IsOf ref

namespace FromLocals

variable {a b nodes : List Node}

/-- Nodes without statements have only uses of variables in them. -/
theorem of_stmt_notMem (h : ∀ s, Node.stmt s ∉ nodes) : FromLocals nodes := by
  intro u hu
  obtain ⟨node, hnode, hu⟩ := List.mem_flatMap.1 hu
  cases node with
  | stmt s => exact absurd hnode (h s)
  | simple | expr => cases hu
  | localVar ref stored => exact ⟨ref, List.mem_flatMap.2 ⟨_, hnode, List.mem_singleton_self ref⟩, isOf_of_mem_ofNode hu⟩

/-- So it is with an expression. -/
theorem expr (e : Expr) : FromLocals e.nodes := of_stmt_notMem fun s => Expr.stmt_notMem_nodes s e

/-- So it is with one that may be absent. -/
theorem option (e : Option Expr) : FromLocals (Expr.nodesOfOption e) :=
  of_stmt_notMem fun s => Expr.stmt_notMem_nodesOfOption s e

/-- So it is with a use of a variable. -/
theorem ref (ref : LocalRef) : FromLocals ref.nodes := of_stmt_notMem (by simp [LocalRef.nodes])

/-- Two lists of such nodes are one. -/
theorem append (ha : FromLocals a) (hb : FromLocals b) : FromLocals (a ++ b) := by
  intro u hu
  rw [List.flatMap_append, List.mem_append] at hu
  rw [Node.locals, List.flatMap_append]
  rcases hu with hu | hu
  · obtain ⟨ref, href, h⟩ := ha u hu
    exact ⟨ref, List.mem_append_left _ href, h⟩
  · obtain ⟨ref, href, h⟩ := hb u hu
    exact ⟨ref, List.mem_append_right _ href, h⟩

/-- A statement has a use of its own only if it declares a variable. -/
theorem cons_stmt {s : Stmt} (h : FromLocals nodes)
    (hs : ∀ u ∈ ofNode (.stmt s), ∃ ref ∈ Node.locals nodes, u.IsOf ref) : FromLocals (.stmt s :: nodes) := by
  intro u hu
  rw [List.flatMap_cons, List.mem_append] at hu
  exact hu.elim (hs u) (h u)

end FromLocals

end SlotUse

/-- The variable of a catch clause is used in the clauses. -/
theorem CatchClause.mem_locals_nodesOfList {clauses : List CatchClause} {c : CatchClause} {ref : LocalRef}
    (hc : c ∈ clauses) (hvar : c.var = some ref) : ref ∈ Node.locals (nodesOfList clauses) := by
  induction clauses with
  | nil => cases hc
  | cons first rest ih =>
    obtain ⟨classes, var, body⟩ := first
    rw [locals_nodesOfList_cons, List.mem_append, List.mem_append]
    rcases List.mem_cons.1 hc with rfl | hc
    · exact .inl (Option.mem_toList.2 hvar)
    · exact .inr (.inr (ih hc))

open SlotUse (FromLocals)

mutual

/-- Every use of a slot in a statement is that of a variable in it. -/
theorem Stmt.fromLocals (s : Stmt) : FromLocals s.nodes := by
  cases s with
  | label | breakTo | continueTo | gotoLabel | comment => exact nofun
  | simple s =>
    have hnot : ∀ s', Node.stmt s' ∉ s.nodes := by simp [SimpleStmt.nodes, Expr.stmt_notMem_nodesOfOption]
    exact (FromLocals.of_stmt_notMem hnot).cons_stmt nofun
  | block body => exact (Stmt.fromLocals_list body).cons_stmt nofun
  | declaration ref init => exact ((FromLocals.ref ref).append (.option init)).cons_stmt nofun
  | ifElse c a b =>
    exact ((FromLocals.expr c).append ((Stmt.fromLocals_list a).append (Stmt.fromLocals_list b))).cons_stmt nofun
  | whileLoop c body | synchronized c body =>
    exact ((FromLocals.expr c).append (Stmt.fromLocals_list body)).cons_stmt nofun
  | doWhile body c => exact ((Stmt.fromLocals_list body).append (.expr c)).cons_stmt nofun
  | forLoop init c update body =>
    exact ((Stmt.fromLocals_list init).append ((FromLocals.expr c).append
      ((Stmt.fromLocals_list update).append (Stmt.fromLocals_list body)))).cons_stmt nofun
  -- a loop through elements uses the slot of its variable, which is the first node below it
  | forEach var iterable body =>
    refine ((FromLocals.ref var).append ((FromLocals.expr iterable).append
      (Stmt.fromLocals_list body))).cons_stmt fun u hu => ?_
    obtain rfl := List.mem_singleton.1 hu
    exact ⟨var, List.mem_cons_self, rfl, rfl, rfl⟩
  | switch key cases => exact ((FromLocals.expr key).append (Stmt.fromLocals_cases cases)).cons_stmt nofun
  | tryCatch body catches finallyBody =>
    refine ((Stmt.fromLocals_list body).append ((Stmt.fromLocals_catches catches).append
      (Stmt.fromLocals_finally finallyBody))).cons_stmt fun u hu => ?_
    obtain ⟨c, hc, hu⟩ := List.mem_filterMap.1 hu
    obtain ⟨ref, hvar, rfl⟩ := Option.map_eq_some_iff.1 hu
    refine ⟨ref, ?_, rfl, rfl, rfl⟩
    rw [Node.locals, List.flatMap_append, List.flatMap_append]
    exact List.mem_append_right _ (List.mem_append_left _ (CatchClause.mem_locals_nodesOfList hc hvar))
  | labeled _ body => exact (Stmt.fromLocals body).cons_stmt nofun

/-- The same of a list. -/
theorem Stmt.fromLocals_list (body : List Stmt) : FromLocals (Stmt.nodesOfList body) := by
  cases body with
  | nil => exact nofun
  | cons s rest => exact (Stmt.fromLocals s).append (Stmt.fromLocals_list rest)

/-- The same of the arms of a switch. -/
theorem Stmt.fromLocals_cases (cases : List SwitchCase) : FromLocals (SwitchCase.nodesOfList cases) := by
  match cases with
  | [] => exact nofun
  | ⟨_, body, _⟩ :: cases => exact (Stmt.fromLocals_list body).append (Stmt.fromLocals_cases cases)

/-- The same of catch clauses. -/
theorem Stmt.fromLocals_catches (clauses : List CatchClause) : FromLocals (CatchClause.nodesOfList clauses) := by
  match clauses with
  | [] => exact nofun
  | ⟨_, none, body⟩ :: clauses => exact (Stmt.fromLocals_list body).append (Stmt.fromLocals_catches clauses)
  | ⟨_, some var, body⟩ :: clauses =>
    exact (FromLocals.ref var).append ((Stmt.fromLocals_list body).append (Stmt.fromLocals_catches clauses))

/-- The same of a `finally` part. -/
theorem Stmt.fromLocals_finally (body : Option (List Stmt)) : FromLocals (Stmt.nodesOfBody body) := by
  cases body with
  | none => exact nofun
  | some body => exact Stmt.fromLocals_list body

end

/-! ## Binding -/

section Binding

variable {vars : List LocalVariable} {slot : UInt16} {pc : Address}

/-- No two variables of one slot cover one address. -/
theorem eq_of_covers (h : vars.Pairwise LocalVariable.Apart) {i j : Nat} {v w : LocalVariable}
    (hi : vars[i]? = some v) (hj : vars[j]? = some w) (hslot : v.slot = w.slot)
    (hv : v.covers pc = true) (hw : w.covers pc = true) : i = j := by
  rw [LocalVariable.covers_iff] at hv hw
  have happart : v.Apart w → False := by
    intro h
    rcases h hslot with hle | hle
    · exact absurd (hv.2.trans_le (hle.trans hw.1)) (lt_irrefl _)
    · exact absurd (hw.2.trans_le (hle.trans hv.1)) (lt_irrefl _)
  obtain ⟨hilt, rfl⟩ := List.getElem?_eq_some_iff.1 hi
  obtain ⟨hjlt, rfl⟩ := List.getElem?_eq_some_iff.1 hj
  rcases lt_trichotomy i j with hlt | heq | hlt
  · exact (happart (List.pairwise_iff_getElem.1 h i j hilt hjlt hlt)).elim
  · exact heq
  · exact (happart (List.pairwise_iff_getElem.1 h j i hjlt hilt hlt).symm).elim

/-- A fold that chooses one of two elements at every step ends with one of the elements. -/
theorem foldl_mem_cons {α : Type} {choose : α → α → α} (h : ∀ a b, choose a b = a ∨ choose a b = b)
    (l : List α) (a : α) : l.foldl choose a ∈ a :: l := by
  induction l generalizing a with
  | nil => exact List.mem_singleton_self a
  | cons b l ih =>
    have hstep := ih (choose a b)
    rw [List.mem_cons] at hstep
    rw [List.foldl_cons, List.mem_cons, List.mem_cons]
    rcases hstep with heq | hmem
    · rw [heq]
      exact (h a b).imp_right .inl
    · exact .inr (.inr hmem)

/-- A fold that keeps the closer of two candidates ends with one that is no farther than any of them. -/
theorem foldl_closer_le (l : List (Nat × Nat)) (a : Nat × Nat) : ∀ d ∈ a :: l,
    (l.foldl (fun best d => if d.1 < best.1 then d else best) a).1 ≤ d.1 := by
  -- the step is taken for the better of `a` and `b`, which is no worse than either
  induction l generalizing a with
  | nil =>
    intro d hd
    obtain rfl := List.mem_singleton.1 hd
    exact le_rfl
  | cons b l ih =>
    have hstep := ih (if b.1 < a.1 then b else a)
    have hbest := hstep _ List.mem_cons_self
    rw [List.foldl_cons]
    intro d hd
    rcases List.mem_cons.1 hd with rfl | hd
    · refine hbest.trans ?_
      split
      · exact le_of_lt ‹_›
      · exact le_rfl
    · rcases List.mem_cons.1 hd with rfl | hd
      · refine hbest.trans ?_
        split
        · exact le_rfl
        · exact not_lt.1 ‹_›
      · exact hstep d (List.mem_cons_of_mem _ hd)

/-- The nearest variable of a slot is one of the slot, and no variable of the slot is nearer. -/
theorem exists_nearestVariable? (h : ∃ v ∈ vars, v.slot = slot) :
    ∃ i v, nearestVariable? vars slot pc = some i ∧ vars[i]? = some v ∧ v.slot = slot ∧
      ∀ w ∈ vars, w.slot = slot → v.distance pc ≤ w.distance pc := by
  let closer (best d : Nat × Nat) : Nat × Nat := if d.1 < best.1 then d else best
  let distances := (vars.zipIdx.filter fun x => x.1.slot = slot).map fun x => (x.1.distance pc, x.2)
  -- the list has the distance and the position of every variable of the slot, and of no other
  have hslots : ∀ d ∈ distances, ∃ v, vars[d.2]? = some v ∧ v.slot = slot ∧ v.distance pc = d.1 := by
    intro d hd
    obtain ⟨⟨v, i⟩, hv, rfl⟩ := List.mem_map.1 hd
    obtain ⟨hmem, hv⟩ := List.mem_filter.1 hv
    exact ⟨v, List.mem_zipIdx_iff_getElem?.1 hmem, by simpa using hv, rfl⟩
  have hmem : ∀ v ∈ vars, v.slot = slot → ∃ i, (v.distance pc, i) ∈ distances := by
    intro v hv hslot
    obtain ⟨i, hi⟩ := List.mem_iff_getElem?.1 hv
    exact ⟨i, List.mem_map.2 ⟨(v, i),
      List.mem_filter.2 ⟨List.mem_zipIdx_iff_getElem?.2 hi, by simpa using hslot⟩, rfl⟩⟩
  obtain ⟨v, hv, hslot⟩ := h
  obtain ⟨i, hi⟩ := hmem v hv hslot
  cases hdistances : distances with
  | nil =>
    rw [hdistances] at hi
    cases hi
  | cons first rest =>
    have hnearest : rest.foldl closer first ∈ distances := by
      rw [hdistances]
      refine foldl_mem_cons (fun best d => ?_) rest first
      by_cases hlt : d.1 < best.1
      · exact .inr (if_pos hlt)
      · exact .inl (if_neg hlt)
    obtain ⟨w, hw, hwslot, hdistance⟩ := hslots _ hnearest
    refine ⟨_, w, ?_, hw, hwslot, fun x hx hxslot => ?_⟩
    · show distances.head?.map (fun first => (distances.tail.foldl closer first).2) = _
      rw [hdistances]
      rfl
    · obtain ⟨k, hk⟩ := hmem x hx hxslot
      rw [hdistances] at hk
      rw [hdistance]
      exact foldl_closer_le rest first _ hk

/-- A variable is not away from an address that it covers. -/
theorem LocalVariable.distance_eq_zero {v : LocalVariable} (h : v.covers pc = true) : v.distance pc = 0 := by
  obtain ⟨hstart, hstop⟩ := LocalVariable.covers_iff.1 h
  rw [distance, if_neg (not_lt.2 hstart)]
  exact Nat.sub_eq_zero_of_le (Nat.le_sub_one_of_lt hstop)

/-- A slot that has a variable has one for every address. It is the one that covers the address if there is
one, and no variable of the slot is nearer. -/
theorem exists_variableAt? (hdisjoint : vars.Pairwise LocalVariable.Apart)
    (hslot : ∃ v ∈ vars, v.slot = slot) :
    ∃ i v, variableAt? vars slot pc = some i ∧ vars[i]? = some v ∧ v.slot = slot ∧
      (∀ j w, vars[j]? = some w → w.slot = slot → w.covers pc = true → j = i) ∧
      ∀ w ∈ vars, w.slot = slot → v.distance pc ≤ w.distance pc := by
  rw [variableAt?]
  cases hfound : vars.findIdx? fun v => v.slot = slot && v.covers pc with
  | some i =>
    obtain ⟨hi, hcovers, -⟩ := List.findIdx?_eq_some_iff_getElem.1 hfound
    rw [Bool.and_eq_true, decide_eq_true_eq] at hcovers
    have hget : vars[i]? = some vars[i] := List.getElem?_eq_getElem hi
    refine ⟨i, vars[i], rfl, hget, hcovers.1, fun j w hj hw hwcovers => ?_, fun w _ _ => ?_⟩
    · exact eq_of_covers hdisjoint hj hget (hw.trans hcovers.1.symm) hwcovers hcovers.2
    · rw [LocalVariable.distance_eq_zero hcovers.2]
      exact Nat.zero_le _
  | none =>
    obtain ⟨i, v, hnearest, hget, hv, hmin⟩ := @exists_nearestVariable? vars slot pc hslot
    refine ⟨i, v, hnearest, hget, hv, fun j w hj hw hwcovers => ?_, hmin⟩
    have hnot := List.findIdx?_eq_none_iff.1 hfound w (List.mem_of_getElem? hj)
    simp [hw, hwcovers] at hnot

/-- A use is bound to the variable that is found for it, and no variable is added. -/
theorem run_binder_localVar {ref : LocalRef} {i : Nat} {v : LocalVariable}
    (hat : variableAt? vars ref.slot ref.pc = some i) (hget : vars[i]? = some v) :
    (binder.localVar ref).run vars = (ref.bindTo v i, vars) := by
  have hrun : (binder.localVar ref).run vars = (ref.bindTo (vars[i]?.getD default) i, vars) := by
    simp only [binder, bind_pure_comp, StateT.run_bind, StateT.run_get, pure_bind, hat]
    rfl
  rw [hrun, hget, Option.getD_some]

/-- The variable of a slot to which a use at an address is bound, and its position. -/
def VariableAt (vars : List LocalVariable) (slot : UInt16) (pc : Address) (i : Nat) (v : LocalVariable) : Prop :=
  variableAt? vars slot pc = some i ∧ vars[i]? = some v

/-- Binding uses of slots that have variables adds no variable, and makes of each use one of the variable at
its slot and address. -/
theorem relates_binder (hdisjoint : vars.Pairwise LocalVariable.Apart) :
    binder.Relates (.keeping (· = vars)) (fun ref => ∃ v ∈ vars, v.slot = ref.slot)
      (List.Forall₂ fun ref ref' =>
        ref'.IsBound vars ∧ ∃ i v, VariableAt vars ref.slot ref.pc i v ∧ ref' = ref.bindTo v i) where
  nil := .nil
  append h h' := List.rel_append h h'
  expr _ _ h := ResultLogic.pure _ h
  simple _ _ h := ResultLogic.pure _ h
  stmt _ _ h := ResultLogic.pure _ h
  body _ _ h := ResultLogic.pure _ h
  localVar ref hslot := by
    intro state hstate
    obtain ⟨i, v, hat, hget, hv, hunique, -⟩ := @exists_variableAt? vars ref.slot ref.pc hdisjoint hslot
    rw [hstate, run_binder_localVar hat hget]
    exact ⟨.cons ⟨⟨i, v, rfl, hget, hv, rfl, hunique⟩, i, v, ⟨hat, hget⟩, rfl⟩ .nil, rfl⟩

end Binding

namespace VariableSources

variable (src : VariableSources) (body : List Stmt)

/-- Recovering variables binds every use in a body, to the variables that were collected for it. -/
theorem forall₂_bind : (src.bind body).locals = src.locals body ∧ List.Forall₂
    (fun ref ref' => ref'.IsBound (src.locals body) ∧
      ∃ i v, VariableAt (src.locals body) ref.slot ref.pc i v ∧ ref' = ref.bindTo v i)
    (Node.locals (Stmt.nodesOfList body)) (Node.locals (Stmt.nodesOfList (src.bind body).statements)) := by
  obtain ⟨hdisjoint, -, hslots⟩ := src.table_locals body
  have huses : AllLocals (fun ref => ∃ v ∈ src.locals body, v.slot = ref.slot)
      (Stmt.nodesOfList body) := by
    intro ref href
    obtain ⟨u, hu, hslot, -⟩ := SlotUse.exists_of_mem_locals href
    obtain ⟨v, hv, hvslot⟩ := hslots u hu
    exact ⟨v, hv, hvslot.trans hslot⟩
  obtain ⟨hbound, hvars⟩ := (relates_binder hdisjoint).onBody huses (src.locals body) rfl
  exact ⟨hvars, hbound⟩

/-- Binding adds no variable, and binds every use. -/
theorem bind_locals :
    (src.bind body).locals = src.locals body ∧
      AllLocals (LocalRef.IsBound (src.locals body)) (Stmt.nodesOfList (src.bind body).statements) :=
  ⟨(src.forall₂_bind body).1, ((List.forall₂_and_left _ _).1 (src.forall₂_bind body).2.flip).1⟩

/-- The variable to which a use is bound. It is one that covers the use if there is one, and none of its slot
is nearer. -/
structure IsBoundTo (u : SlotUse) (v : LocalVariable) : Prop where
  variableAt : ∃ i, VariableAt (src.locals body) u.slot u.pc i v
  slot : v.slot = u.slot
  covering : ∀ w ∈ src.locals body, w.slot = u.slot → w.covers u.pc = true → w = v
  nearest : ∀ w ∈ src.locals body, w.slot = u.slot → v.distance u.pc ≤ w.distance u.pc

variable {src body} {u : SlotUse} {v w x : LocalVariable} {slot : UInt16} {pc : Address}

/-- Every use is bound to a variable. -/
theorem exists_isBoundTo (hu : u ∈ SlotUse.ofBody body) : ∃ v, src.IsBoundTo body u v := by
  obtain ⟨hdisjoint, -, hslots⟩ := src.table_locals body
  obtain ⟨i, v, hat, hget, hslot, hunique, hnearest⟩ :=
    @exists_variableAt? (src.locals body) u.slot u.pc hdisjoint (hslots u hu)
  refine ⟨v, ⟨i, hat, hget⟩, hslot, fun w hw hwslot hcovers => ?_, hnearest⟩
  obtain ⟨j, hj⟩ := List.mem_iff_getElem?.1 hw
  rw [hunique j w hj hwslot hcovers, hget] at hj
  exact (Option.some.inj hj).symm

/-- The variable that a use is bound to is one of the method. -/
theorem IsBoundTo.mem (h : src.IsBoundTo body u v) : v ∈ src.locals body := by
  obtain ⟨i, -, hget⟩ := h.variableAt
  exact List.mem_of_getElem? hget

/-- There is only one variable that a use can be bound to. -/
theorem IsBoundTo.eq_of_variableAt (h : src.IsBoundTo body u v) {i : Nat}
    (hw : VariableAt (src.locals body) u.slot u.pc i w) : w = v := by
  obtain ⟨j, hat, hget⟩ := h.variableAt
  obtain rfl : i = j := Option.some.inj (hw.1.symm.trans hat)
  exact Option.some.inj (hw.2.symm.trans hget)

end VariableSources

/-! ## Consistent bodies -/

/-- The variables of a body fit to each other and to the uses in it. -/
structure BoundBody.Consistent (b : BoundBody) : Prop where
  /-- The variables are in the order of their names, lengths, starts and slots. -/
  sorted : b.locals.Pairwise fun v w => (v.nameOrder w).isLE
  /-- Variables of one slot have disjoint ranges. -/
  disjoint : b.locals.Pairwise LocalVariable.Apart
  /-- Variables of one name have one type. -/
  oneType : ∀ v ∈ b.locals, ∀ w ∈ b.locals, v.name = w.name → v.type = w.type
  /-- Every use in the body names its variable. -/
  bound : ∀ ref ∈ Node.locals (Stmt.nodesOfList b.statements), ref.IsBound b.locals

/-- The flags of variables do not matter for what uses are bound to. -/
theorem LocalRef.isBound_map_unmarked {vars : List LocalVariable} {ref : LocalRef} :
    ref.IsBound (vars.map LocalVariable.unmarked) ↔ ref.IsBound vars := by
  constructor
  · rintro ⟨i, v, hvar, hget, hslot, hname, hunique⟩
    rw [List.getElem?_map, Option.map_eq_some_iff] at hget
    obtain ⟨v, hget, rfl⟩ := hget
    refine ⟨i, v, hvar, hget, hslot, hname, fun j w hj hw hcovers => hunique j w.unmarked ?_ hw hcovers⟩
    rw [List.getElem?_map, hj, Option.map_some]
  · rintro ⟨i, v, hvar, hget, hslot, hname, hunique⟩
    refine ⟨i, v.unmarked, hvar, ?_, hslot, hname, fun j w hj hw hcovers => ?_⟩
    · rw [List.getElem?_map, hget, Option.map_some]
    · rw [List.getElem?_map, Option.map_eq_some_iff] at hj
      obtain ⟨w, hj, rfl⟩ := hj
      exact hunique j w hj hw hcovers

/-- Marking variables keeps a body consistent. -/
theorem BoundBody.Consistent.of_map_unmarked {b b' : BoundBody} (h : b.Consistent)
    (hmarked : b'.locals.map LocalVariable.unmarked = b.locals.map LocalVariable.unmarked)
    (hbound : ∀ ref ∈ Node.locals (Stmt.nodesOfList b'.statements), ref.IsBound b.locals) :
    b'.Consistent where
  -- flags play no part in what consistency says, so each field is that of the unmarked variables
  sorted := by
    have hsorted : (b.locals.map LocalVariable.unmarked).Pairwise fun v w => (v.nameOrder w).isLE :=
      List.pairwise_map.2 h.sorted
    rw [← hmarked, List.pairwise_map] at hsorted
    exact hsorted
  disjoint := by
    have hdisjoint : (b.locals.map LocalVariable.unmarked).Pairwise LocalVariable.Apart :=
      List.pairwise_map.2 h.disjoint
    rw [← hmarked, List.pairwise_map] at hdisjoint
    exact hdisjoint
  oneType := by
    have hfrom : ∀ v ∈ b'.locals, ∃ w ∈ b.locals, w.unmarked = v.unmarked := by
      intro v hv
      have hv : v.unmarked ∈ b'.locals.map LocalVariable.unmarked := List.mem_map_of_mem hv
      rw [hmarked] at hv
      exact List.mem_map.1 hv
    intro v hv w hw hname
    obtain ⟨v', hv', hvv'⟩ := hfrom v hv
    obtain ⟨w', hw', hww'⟩ := hfrom w hw
    simp only [LocalVariable.unmarked, LocalVariable.mk.injEq] at hvv' hww'
    obtain ⟨-, -, -, -, -, hvname, hvtype, -⟩ := hvv'
    obtain ⟨-, -, -, -, -, hwname, hwtype, -⟩ := hww'
    rw [← hvtype, ← hwtype]
    exact h.oneType v' hv' w' hw' (by rw [hvname, hwname, hname])
  bound ref href := by
    rw [← LocalRef.isBound_map_unmarked, hmarked, LocalRef.isBound_map_unmarked]
    exact hbound ref href

namespace VariableSources

variable (src : VariableSources) (body : List Stmt)

/-- The binder leaves a consistent body. -/
theorem consistent_bind : (src.bind body).Consistent where
  sorted := by
    rw [(src.bind_locals body).1]
    exact src.sorted_locals body
  disjoint := by
    rw [(src.bind_locals body).1]
    exact (src.table_locals body).1
  oneType := by
    rw [(src.bind_locals body).1]
    intro v hv w hw hname
    exact src.oneType_locals body v.named (List.mem_map_of_mem hv) w.named (List.mem_map_of_mem hw) hname
  bound := by
    rw [(src.bind_locals body).1]
    exact (src.bind_locals body).2

/-- A declaration of a variable is a use that is bound to it. -/
theorem isBound_toRef {i : Nat} {v : LocalVariable} (h : (src.bind body).locals[i]? = some v) :
    (v.toRef i).IsBound (src.bind body).locals := by
  have hdisjoint := (src.consistent_bind body).disjoint
  rw [(src.bind_locals body).1] at h hdisjoint ⊢
  refine ⟨i, v, rfl, h, rfl, rfl, fun j w hj hw hcovers => ?_⟩
  have hlast : v.start < LocalVariable.lastAddress :=
    (LocalVariable.covers_iff.1 hcovers).2.trans_le (min_le_right _ _)
  have hpos : 0 < v.length := (src.table_locals body).2.1 v (List.mem_of_getElem? h)
  exact eq_of_covers hdisjoint hj h hw hcovers (LocalVariable.covers_start hpos hlast)

end VariableSources

/-- The passes behind the binder keep a body consistent. -/
theorem BoundBody.Consistent.desugar {b : BoundBody} (h : b.Consistent) (types : TypeContext)
    (method : MethodSummary) (concatenations : Bool) :
    (({ b with statements := (types.inferTypes b.statements).1 } : BoundBody).desugar method
      concatenations).Consistent := by
  refine h.of_map_unmarked (BoundBody.map_unmarked_desugar _ _ _) ?_
  exact BoundBody.allLocals_desugar (TypeContext.allLocals_inferTypes h.bound)

/-- Declaring the variables of a body that is bound keeps it consistent. -/
theorem VariableSources.consistent_declare (src : VariableSources) (body : List Stmt) :
    (src.bind body).declare.Consistent := by
  refine (src.consistent_bind body).of_map_unmarked (BoundBody.map_unmarked_declare _) ?_
  exact BoundBody.allLocals_declare (src.consistent_bind body).bound fun _ _ => src.isBound_toRef body

namespace MethodContext

variable {ctx : MethodContext} {options : DecompileOptions}

/-- A body comes from binding, declaring, narrowing and recovering source forms, and the variables that its
uses are bound to from what the method says about them. -/
theorem exists_sources_of_body {body : MethodBody} {warnings : List Warning}
    (h : ctx.body options = .ok (body, warnings)) :
    ∃ (code : CodeAttribute) (length : Nat) (statements : List Stmt) (types : TypeContext),
      let bound := (ctx.variableSources code length options.mergeLocalVariables).bind statements
      body.toBoundBody = (({ bound.declare with
        statements := (types.inferTypes bound.declare.statements).1 } :
          BoundBody).desugar ctx.summary options.desugarStringConcat) := by
  simp only [MethodContext.body, bind, Except.bind, pure, Except.pure] at h
  split at h
  · cases h
  · split at h
    · cases h
    · split at h
      · cases h
      · rename_i decoded _
        obtain ⟨rfl, -⟩ := Prod.mk.inj (Except.ok.inj h)
        exact ⟨_, _, _, _, rfl⟩

/-- The body of a method is made of bound statements, which are then declared, refined and desugared. -/
theorem exists_of_body {body : MethodBody} {warnings : List Warning}
    (h : ctx.body options = .ok (body, warnings)) :
    ∃ (src : VariableSources) (statements : List Stmt) (types : TypeContext),
      body.toBoundBody = (({ (src.bind statements).declare with
        statements := (types.inferTypes (src.bind statements).declare.statements).1 } :
          BoundBody).desugar ctx.summary options.desugarStringConcat) := by
  obtain ⟨code, length, statements, types, heq⟩ := exists_sources_of_body h
  exact ⟨_, statements, types, heq⟩

/-- The table of the variables of a body is consistent with itself and with the uses in the body, and
binding uses never adds a variable to the table that was collected. -/
theorem consistent_body (ctx : MethodContext) (options : DecompileOptions) :
    (ctx.bodyOrPlaceholder options).1.Consistent ∧
      ∀ (src : VariableSources) (statements : List Stmt),
        (src.bind statements).locals = src.locals statements := by
  refine ⟨?_, fun src statements => (src.bind_locals statements).1⟩
  rw [bodyOrPlaceholder]
  split
  · rename_i result hresult
    obtain ⟨src, statements, types, heq⟩ := exists_of_body hresult
    rw [heq]
    exact (src.consistent_declare statements).desugar types ctx.summary options.desugarStringConcat
  · -- The placeholder uses no variable.
    exact ⟨.nil, .nil, nofun, nofun⟩

end MethodContext

end JvmDecompiler
