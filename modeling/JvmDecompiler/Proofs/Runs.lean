import JvmDecompiler.Proofs.VariableTable
import Mathlib.Data.List.Forall2

/-!
# Runs of uses

The variables that are inferred for uses are one for each run: uses of one slot that follow each other in the
order of their addresses and are of one storage class. `RunAt` says where a run stands among the uses in this
order, and its variable among the variables.
-/

namespace JvmDecompiler

/-! ## Splitting lists -/

/-- A list whose neighbours are all related in one way is split where they are not in another one. -/
theorem splitBy_and_of_isChain {α : Type} {r s : α → α → Bool} {l : List α} (h : l.IsChain fun a b => r a b) :
    (l.splitBy fun a b => r a b && s a b) = l.splitBy s := by
  rw [List.splitBy_eq_iff]
  refine ⟨(List.flatten_splitBy s l).symm, List.nil_notMem_splitBy s l, fun part hpart => ?_, ?_⟩
  · have hwithin : part <:+: l := by
      obtain ⟨before, after, hsplit⟩ := List.append_of_mem hpart
      refine ⟨before.flatten, after.flatten, ?_⟩
      rw [← List.flatten_splitBy s l, hsplit, List.flatten_append, List.flatten_cons, List.append_assoc]
    have hchain : part.IsChain fun a b => r a b := h.infix hwithin
    have hr := List.isChain_iff_forall_rel_of_append_cons_cons.1 hchain
    have hs := List.isChain_iff_forall_rel_of_append_cons_cons.1 (List.isChain_of_mem_splitBy hpart)
    rw [List.isChain_iff_forall_rel_of_append_cons_cons]
    intro a b before after heq
    rw [Bool.and_eq_true]
    exact ⟨hr heq, hs heq⟩
  · refine (List.isChain_getLast_head_splitBy s l).imp fun a b hab => ?_
    obtain ⟨ha, hb, hs⟩ := hab
    exact ⟨ha, hb, by rw [hs, Bool.and_false]⟩

/-- To split a list and then its parts is to split it at once. -/
theorem flatMap_splitBy_splitBy {α : Type} (r s : α → α → Bool) (l : List α) :
    (l.splitBy r).flatMap (·.splitBy s) = l.splitBy fun a b => r a b && s a b := by
  have key : ∀ parts : List (List α), (∀ part ∈ parts, part ≠ [] ∧ part.IsChain fun a b => r a b) →
      (parts.IsChain fun a b => ∃ ha hb, r (a.getLast ha) (b.head hb) = false) →
      parts.flatMap (·.splitBy s) = parts.flatten.splitBy fun a b => r a b && s a b := by
    intro parts
    induction parts with
    | nil => exact fun _ _ => rfl
    | cons part rest ih =>
      intro hparts hchain
      have hpart := (hparts part List.mem_cons_self).2
      rw [List.flatMap_cons, ih (fun p hp => hparts p (List.mem_cons_of_mem _ hp)) hchain.tail,
        List.flatten_cons, List.splitBy_append, splitBy_and_of_isChain hpart]
      intro x hx y hy
      cases rest with
      | nil => cases hy
      | cons next rest =>
        obtain ⟨ha, hb, hr⟩ := (List.isChain_cons_cons.1 hchain).1
        rw [List.flatten_cons, List.head?_append_of_ne_nil _ hb] at hy
        rw [← List.getLast_of_mem_getLast? hx, ← List.head_of_mem_head? hy, hr, Bool.false_and]
  rw [key _ (fun part hpart => ⟨List.ne_nil_of_mem_splitBy hpart, List.isChain_of_mem_splitBy hpart⟩)
    (List.isChain_getLast_head_splitBy r l), List.flatten_splitBy]

namespace SlotUse

/-- A use is of a lower slot than another one, or of the same slot at no later address. -/
def Before (u v : SlotUse) : Prop := u.slot < v.slot ∨ u.slot = v.slot ∧ u.pc ≤ v.pc

/-- Uses in order go up in their slots. -/
theorem Before.slot_le {u v : SlotUse} (h : u.Before v) : u.slot ≤ v.slot := by
  rcases h with hlt | ⟨heq, -⟩
  · exact UInt16.le_of_lt hlt
  · exact UInt16.le_of_eq heq

/-- The storage class of what an instruction works with. -/
def storageClass (u : SlotUse) : StorageClass := .ofTy u.type

/-- Whether two uses that follow each other are in one run. -/
def sameRun (u v : SlotUse) : Bool := u.slot == v.slot && u.storageClass == v.storageClass

/-- Uses in the order of their slots and addresses. -/
def inOrder (uses : List SlotUse) : List SlotUse :=
  uses.mergeSort fun u v => ((compare u.slot v.slot).then (compare u.pc v.pc)).isLE

/-- Uses that follow each other in a slot, with one storage class. -/
def runs (uses : List SlotUse) : List (List SlotUse) := (inOrder uses).splitBy sameRun

/-- The order leaves no use out. -/
theorem mem_inOrder {uses : List SlotUse} {u : SlotUse} : u ∈ inOrder uses ↔ u ∈ uses := List.mem_mergeSort

/-- Uses in order come one before the other. -/
theorem pairwise_inOrder (uses : List SlotUse) : (inOrder uses).Pairwise Before := by
  have : Std.TransCmp fun u v : SlotUse => (compare u.slot v.slot).then (compare u.pc v.pc) :=
    inferInstanceAs (Std.TransCmp (compareLex (compareOn fun u : SlotUse => u.slot) (compareOn (·.pc))))
  refine (pairwise_mergeSort_isLE (fun u v : SlotUse => (compare u.slot v.slot).then (compare u.pc v.pc))
    uses).imp fun {u v} h => ?_
  rw [Ordering.isLE_then_iff_or] at h
  rcases h with hlt | ⟨heq, hle⟩
  · exact .inl (Std.compare_eq_lt.1 hlt)
  · exact .inr ⟨Std.LawfulEqCmp.compare_eq_iff_eq.1 heq, Nat.isLE_compare.1 hle⟩

/-- Uses are in one run if they have the same slot and storage class. -/
theorem sameRun_iff {u v : SlotUse} :
    u.sameRun v = true ↔ u.slot = v.slot ∧ u.storageClass = v.storageClass := by
  simp [sameRun]

/-- All uses of a run are in one run with each other. -/
theorem sameRun_of_mem_runs {uses run : List SlotUse} (h : run ∈ runs uses) :
    ∀ u ∈ run, ∀ v ∈ run, u.sameRun v = true := by
  have : IsTrans SlotUse fun u v => u.sameRun v = true := ⟨fun u v w huv hvw => by
    rw [sameRun_iff] at *
    exact ⟨huv.1.trans hvw.1, huv.2.trans hvw.2⟩⟩
  have : Std.Symm fun u v : SlotUse => u.sameRun v = true := ⟨fun u v h => by
    rw [sameRun_iff] at *
    exact ⟨h.1.symm, h.2.symm⟩⟩
  have hpairwise : run.Pairwise fun u v => u.sameRun v = true := (List.isChain_of_mem_splitBy h).pairwise
  intro u hu v hv
  exact List.Pairwise.forall_of_forall (R := fun u v : SlotUse => u.sameRun v = true)
    (fun u _ => sameRun_iff.2 ⟨rfl, rfl⟩) hpairwise hu hv

end SlotUse

/-- A variable that was inferred for a run of uses. -/
structure LocalVariable.IsOfRun (v : LocalVariable) (run : List SlotUse) : Prop where
  inferred : v.origin = .inferred
  slot : ∀ u ∈ run, u.slot = v.slot
  range : ∀ u ∈ run, v.start ≤ u.pc ∧ u.pc < v.start + v.length
  starts : ∃ u ∈ run, u.pc = v.start
  type : ∃ u ∈ run, v.type = runType u.type run

/-- The variable that is made for a run is one of the run. -/
theorem isOfRun_runVariable {position : Nat} {run : List SlotUse} {v : LocalVariable}
    (h : runVariable position run = some v) (hslots : ∀ u ∈ run, ∀ w ∈ run, u.slot = w.slot) :
    v.IsOfRun run := by
  obtain ⟨-, hinferred, u, hu, huslot, hustart⟩ := of_runVariable h hslots
  refine ⟨hinferred, fun w hw => (hslots w hw u hu).trans huslot, fun w hw => ?_, ⟨u, hu, hustart⟩, ?_⟩
  · cases run with
    | nil => cases hu
    | cons first rest =>
      obtain rfl := Option.some.inj h
      have hmin : ((first :: rest).map (·.pc)).min? =
          some (rest.foldl (fun pc u => min pc u.pc) first.pc) := by
        rw [List.map_cons, List.min?_cons', List.foldl_map]
      have hmax : ((first :: rest).map (·.pc)).max? =
          some (rest.foldl (fun pc u => max pc u.pc) first.pc) := by
        rw [List.map_cons, List.max?_cons', List.foldl_map]
      have hlow := (List.min?_eq_some_iff.1 hmin).2 _ (List.mem_map_of_mem hw)
      have hhigh := (List.max?_eq_some_iff.1 hmax).2 _ (List.mem_map_of_mem hw)
      refine ⟨hlow, ?_⟩
      have hle := (hlow.trans hhigh).trans (Nat.le_succ _)
      exact (Nat.lt_succ_of_le hhigh).trans_eq (Nat.add_sub_cancel' hle).symm
  · cases run with
    | nil => cases hu
    | cons first rest =>
      obtain rfl := Option.some.inj h
      exact ⟨first, List.mem_cons_self, rfl⟩

/-- Of lists of uses, each of one slot and not empty, every one has a variable. -/
theorem forall₂_runVariable {parts : List (List SlotUse)}
    (hparts : ∀ part ∈ parts, part ≠ [] ∧ ∀ u ∈ part, ∀ w ∈ part, u.slot = w.slot) (position : Nat) :
    List.Forall₂ (fun run v => LocalVariable.IsOfRun v run) parts
      ((parts.zipIdx position).filterMap fun (run, position) => runVariable position run) := by
  induction parts generalizing position with
  | nil => exact .nil
  | cons part rest ih =>
    obtain ⟨hne, hslots⟩ := hparts part List.mem_cons_self
    obtain ⟨v, hv⟩ : ∃ v, runVariable position part = some v := by
      cases part with
      | nil => exact absurd rfl hne
      | cons first rest => exact ⟨_, rfl⟩
    rw [List.zipIdx_cons, List.filterMap_cons_some (by exact hv)]
    exact .cons (isOfRun_runVariable hv hslots)
      (ih (fun part hpart => hparts part (List.mem_cons_of_mem _ hpart)) (position + 1))

/-- The inferred variables are those of the runs, in their order. -/
theorem forall₂_isOfRun (uses : List SlotUse) :
    List.Forall₂ (fun run v => LocalVariable.IsOfRun v run) (SlotUse.runs uses) (inferredVariables uses) := by
  have hruns : SlotUse.runs uses = ((SlotUse.inOrder uses).splitBy fun u v => u.slot == v.slot).flatMap
      (·.splitBy fun u v => u.storageClass == v.storageClass) := (flatMap_splitBy_splitBy _ _ _).symm
  have hslot : ∀ parts : List (List SlotUse), (∀ part ∈ parts, ∀ u ∈ part, ∀ v ∈ part, u.slot = v.slot) →
      List.Forall₂ (fun run v => LocalVariable.IsOfRun v run)
        (parts.flatMap (·.splitBy fun u v => u.storageClass == v.storageClass))
        (parts.flatMap fun part => (part.splitBy fun u v => u.storageClass == v.storageClass).zipIdx.filterMap
          fun (run, position) => runVariable position run) := by
    intro parts
    induction parts with
    | nil => exact fun _ => .nil
    | cons part rest ih =>
      intro hparts
      rw [List.flatMap_cons, List.flatMap_cons]
      refine List.rel_append ?_ (ih fun part hpart => hparts part (List.mem_cons_of_mem _ hpart))
      refine forall₂_runVariable (fun run hrun => ⟨List.ne_nil_of_mem_splitBy hrun, fun u hu w hw => ?_⟩) 0
      exact hparts part List.mem_cons_self u (mem_of_mem_splitBy hrun hu) w (mem_of_mem_splitBy hrun hw)
  rw [hruns]
  exact hslot _ fun part hpart => slot_eq_of_mem_splitBy hpart

/-! ## Where a run stands -/

/-- The run at a position among the runs of uses, and its variable. -/
structure RunAt (uses : List SlotUse) (i : Nat) (run : List SlotUse) (v : LocalVariable) : Prop where
  run_eq : (SlotUse.runs uses)[i]? = some run
  var_eq : (inferredVariables uses)[i]? = some v

namespace RunAt

variable {uses run run' : List SlotUse} {i j : Nat} {v w : LocalVariable} {u : SlotUse}

/-- Every run has a variable. -/
theorem of_run (h : (SlotUse.runs uses)[i]? = some run) : ∃ v, RunAt uses i run v := by
  obtain ⟨hi, -⟩ := List.getElem?_eq_some_iff.1 h
  rw [(forall₂_isOfRun uses).length_eq] at hi
  exact ⟨_, h, List.getElem?_eq_getElem hi⟩

/-- Every inferred variable has a run. -/
theorem of_var (h : (inferredVariables uses)[i]? = some v) : ∃ run, RunAt uses i run v := by
  obtain ⟨hi, -⟩ := List.getElem?_eq_some_iff.1 h
  rw [← (forall₂_isOfRun uses).length_eq] at hi
  exact ⟨_, List.getElem?_eq_getElem hi, h⟩

/-- Every use is in a run. -/
theorem exists_of_mem (hu : u ∈ uses) : ∃ i run v, RunAt uses i run v ∧ u ∈ run := by
  obtain ⟨run, hrun, hurun⟩ := exists_mem_splitBy SlotUse.sameRun (SlotUse.mem_inOrder.2 hu)
  obtain ⟨i, hi⟩ := List.mem_iff_getElem?.1 hrun
  obtain ⟨v, h⟩ := of_run hi
  exact ⟨i, run, v, h, hurun⟩

/-- The variable at a position is that of the run there. -/
theorem isOfRun (h : RunAt uses i run v) : v.IsOfRun run := by
  obtain ⟨hi, rfl⟩ := List.getElem?_eq_some_iff.1 h.run_eq
  obtain ⟨hi', rfl⟩ := List.getElem?_eq_some_iff.1 h.var_eq
  exact (List.forall₂_iff_get.1 (forall₂_isOfRun uses)).2 i hi hi'

/-- At one position there are one run and one variable. -/
theorem unique (h : RunAt uses i run v) (h' : RunAt uses i run' w) : run = run' ∧ v = w :=
  ⟨Option.some.inj (h.run_eq.symm.trans h'.run_eq), Option.some.inj (h.var_eq.symm.trans h'.var_eq)⟩

/-- The run at a position is one of the runs. -/
theorem mem_runs (h : RunAt uses i run v) : run ∈ SlotUse.runs uses := List.mem_of_getElem? h.run_eq

/-- The uses in a run are among the uses. -/
theorem mem_uses (h : RunAt uses i run v) (hu : u ∈ run) : u ∈ uses :=
  SlotUse.mem_inOrder.1 (mem_of_mem_splitBy h.mem_runs hu)

/-- The uses in a run have one storage class. -/
theorem storageClass_eq (h : RunAt uses i run v) {u' : SlotUse} (hu : u ∈ run) (hu' : u' ∈ run) :
    u.storageClass = u'.storageClass :=
  (SlotUse.sameRun_iff.1 (SlotUse.sameRun_of_mem_runs h.mem_runs u hu u' hu')).2

/-- The uses of an earlier run come first. -/
theorem before (h : RunAt uses i run v) (h' : RunAt uses j run' w) (hij : i < j) {u' : SlotUse}
    (hu : u ∈ run) (hu' : u' ∈ run') : u.Before u' := by
  have hsorted := SlotUse.pairwise_inOrder uses
  rw [← List.flatten_splitBy SlotUse.sameRun (SlotUse.inOrder uses), List.pairwise_flatten] at hsorted
  obtain ⟨hi, rfl⟩ := List.getElem?_eq_some_iff.1 h.run_eq
  obtain ⟨hj, rfl⟩ := List.getElem?_eq_some_iff.1 h'.run_eq
  exact List.pairwise_iff_getElem.1 hsorted.2 i j hi hj hij u hu u' hu'

/-- The uses of an earlier run of a slot come at no later addresses. -/
theorem pc_le (h : RunAt uses i run v) (h' : RunAt uses j run' w) (hij : i < j) (hslot : v.slot = w.slot)
    {u' : SlotUse} (hu : u ∈ run) (hu' : u' ∈ run') : u.pc ≤ u'.pc := by
  have hslots : u.slot = u'.slot := (h.isOfRun.slot u hu).trans (hslot.trans (h'.isOfRun.slot u' hu').symm)
  rcases h.before h' hij hu hu' with hlt | ⟨-, hle⟩
  · exact absurd (hslots ▸ hlt) (UInt16.lt_irrefl _)
  · exact hle

/-- The variables of the runs of a slot start in their order. -/
theorem start_le (h : RunAt uses i run v) (h' : RunAt uses j run' w) (hij : i ≤ j) (hslot : v.slot = w.slot) :
    v.start ≤ w.start := by
  rcases hij.eq_or_lt with rfl | hlt
  · rw [(h.unique h').2]
  · obtain ⟨u, hu, hstart⟩ := h.isOfRun.starts
    obtain ⟨u', hu', hstart'⟩ := h'.isOfRun.starts
    rw [← hstart, ← hstart']
    exact h.pc_le h' hlt hslot hu hu'

/-- A run that starts behind a use of another one is a later one. -/
theorem lt_of_lt_start (h : RunAt uses i run v) (h' : RunAt uses j run' w) (hslot : v.slot = w.slot)
    (hu : u ∈ run) (hlt : u.pc < w.start) : i < j := by
  by_contra hle
  have hstart := (h'.start_le h (not_lt.1 hle) hslot.symm).trans (h.isOfRun.range u hu).1
  exact lt_irrefl _ (hlt.trans_le hstart)

/-- A run that is not the last one of its slot has one of another storage class behind it. -/
theorem next (h : RunAt uses i run v) (h' : RunAt uses j run' w) (hij : i < j) (hslot : v.slot = w.slot) :
    ∃ next x, RunAt uses (i + 1) next x ∧ x.slot = v.slot ∧
      ∀ u ∈ run, ∀ u' ∈ next, u.storageClass ≠ u'.storageClass := by
  obtain ⟨hj, -⟩ := List.getElem?_eq_some_iff.1 h'.run_eq
  have hi : i + 1 < (SlotUse.runs uses).length := (Nat.succ_le_of_lt hij).trans_lt hj
  obtain ⟨x, hx⟩ := of_run (List.getElem?_eq_getElem hi)
  -- The slots of the uses do not fall, and they are the same in front of the run and behind it.
  have hxslot : x.slot = v.slot := by
    rcases (Nat.succ_le_of_lt hij).eq_or_lt with rfl | hlt
    · rw [(hx.unique h').2]
      exact hslot.symm
    · obtain ⟨u, hu, -⟩ := h.isOfRun.starts
      obtain ⟨n, hn, -⟩ := hx.isOfRun.starts
      obtain ⟨u', hu', -⟩ := h'.isOfRun.starts
      have hle := (h.before hx (Nat.lt_succ_self i) hu hn).slot_le
      have hle' := (hx.before h' hlt hn hu').slot_le
      rw [h.isOfRun.slot u hu, hx.isOfRun.slot n hn] at hle
      rw [hx.isOfRun.slot n hn, h'.isOfRun.slot u' hu', ← hslot] at hle'
      exact UInt16.le_antisymm hle' hle
  refine ⟨_, x, hx, hxslot, fun u hu u' hu' hclass => ?_⟩
  obtain ⟨hne, hne', hdiffer⟩ := List.isChain_iff_getElem.1
    (List.isChain_getLast_head_splitBy SlotUse.sameRun (SlotUse.inOrder uses)) i hi
  obtain rfl : run = (SlotUse.runs uses)[i] :=
    Option.some.inj (h.run_eq.symm.trans (List.getElem?_eq_getElem (Nat.lt_of_succ_lt hi)))
  have hlast := List.getLast_mem hne
  have hhead := List.head_mem hne'
  rw [Bool.eq_false_iff] at hdiffer
  refine hdiffer (SlotUse.sameRun_iff.2 ⟨?_, ?_⟩)
  · exact (h.isOfRun.slot _ hlast).trans (hxslot.symm.trans (hx.isOfRun.slot _ hhead).symm)
  · exact (h.storageClass_eq hlast hu).trans (hclass.trans (hx.storageClass_eq hu' hhead))

end RunAt

/-- The inferred variables are in the order in which variables are made disjoint. -/
theorem pairwise_inferredVariables (uses : List SlotUse) :
    (inferredVariables uses).Pairwise fun v w => (v.startOrder w).isLE := by
  rw [List.pairwise_iff_getElem]
  intro i j hi hj hij
  obtain ⟨run, h⟩ := RunAt.of_var (List.getElem?_eq_getElem hi)
  obtain ⟨run', h'⟩ := RunAt.of_var (List.getElem?_eq_getElem hj)
  obtain ⟨u, hu, hstart⟩ := h.isOfRun.starts
  obtain ⟨u', hu', hstart'⟩ := h'.isOfRun.starts
  have hbefore := h.before h' hij hu hu'
  rw [SlotUse.Before, h.isOfRun.slot u hu, h'.isOfRun.slot u' hu', hstart, hstart'] at hbefore
  rw [LocalVariable.startOrder, Ordering.isLE_then_iff_or, Ordering.isLE_then_iff_or, h.isOfRun.inferred,
    h'.isOfRun.inferred]
  rcases hbefore with hlt | ⟨heq, hle⟩
  · exact .inl (Std.compare_eq_lt.2 hlt)
  · refine .inr ⟨Std.LawfulEqCmp.compare_eq_iff_eq.2 heq, ?_⟩
    rcases hle.lt_or_eq with hlt | heq
    · exact .inl (Nat.compare_eq_lt.2 hlt)
    · exact .inr ⟨Nat.compare_eq_eq.2 heq, rfl⟩

end JvmDecompiler
