import JvmDecompiler.Proofs.Binding
import Mathlib.Data.List.Nodup
import Mathlib.Data.List.Perm.Subperm
import Mathlib.Data.List.SplitBy
import Mathlib.Order.Compare
import Std.Data.String.ToNat

/-!
# The table of variables

What `VariableSources.locals` collects for a method is a table in which a name has one type, in which
the ranges of one slot are disjoint, and which has a variable for every slot that the method uses.

Disjointness is the invariant of `separate` (`Separating`). Each step compares a variable with the last
settled one only; that this is enough rests on the order of their starts and on the fact that no
variable is empty. An inferred variable never has to give way to one that is known: it starts at a use
that none of the known ones covers, so that the variable that goes on behind another is always the later
of the two.
-/

namespace JvmDecompiler

namespace LocalVariable

variable {u v w : LocalVariable}

/-- A variable ends before another one of its slot starts, or is in a lower slot. -/
def Before (v w : LocalVariable) : Prop := v.slot < w.slot ∨ v.slot = w.slot ∧ v.stop ≤ w.start

/-- A variable starts no later than another one of its slot, or is in a lower slot. -/
def StartsBefore (v w : LocalVariable) : Prop := v.slot < w.slot ∨ v.slot = w.slot ∧ v.start ≤ w.start

/-- If two variables have one slot, then their ranges are disjoint. -/
def Apart (v w : LocalVariable) : Prop := v.slot = w.slot → v.stop ≤ w.start ∨ w.stop ≤ v.start

/-- Being apart is mutual. -/
theorem Apart.symm (h : v.Apart w) : w.Apart v := fun hslot => (h hslot.symm).symm

/-- A variable that ends before another one starts is apart from it. -/
theorem Before.apart (h : v.Before w) : v.Apart w := by
  intro hslot
  rcases h with hlt | ⟨-, hstop⟩
  · exact absurd (hslot ▸ hlt) (UInt16.lt_irrefl _)
  · exact .inl hstop

/-- It ends before all that start later, too. -/
theorem Before.trans_startsBefore (huv : u.Before v) (hvw : v.StartsBefore w) : u.Before w := by
  rcases huv with huv | ⟨huv, hstop⟩ <;> rcases hvw with hvw | ⟨hvw, hstart⟩
  · exact .inl (UInt16.lt_trans huv hvw)
  · exact .inl (hvw ▸ huv)
  · exact .inl (huv ▸ hvw)
  · exact .inr ⟨huv.trans hvw, hstop.trans hstart⟩

/-- A variable covers the addresses from its start to its end. -/
theorem covers_iff {pc : Address} : v.covers pc = true ↔ v.start ≤ pc ∧ pc < v.stop := by
  simp [covers]

/-- A variable that is not empty covers its start, unless there is no address behind it. -/
theorem covers_start (h : 0 < v.length) (hstart : v.start < lastAddress) : v.covers v.start = true := by
  rw [covers_iff, stop]
  exact ⟨le_rfl, Nat.lt_min.2 ⟨Nat.lt_add_of_pos_right h, hstart⟩⟩

/-- Of two variables that start in order, the second one is behind the first one or overlaps it. -/
theorem before_of_not_overlaps (hvw : v.StartsBefore w) (hpos : 0 < w.length)
    (h : v.overlaps w = false) : v.Before w := by
  rcases hvw with hvw | ⟨hslot, hstart⟩
  · exact .inl hvw
  · refine .inr ⟨hslot, ?_⟩
    -- Were the first one to end behind the start of the second, that start would be in both.
    by_contra hstop
    have hlt : w.start < v.stop := not_le.1 hstop
    have hlast : w.start < lastAddress := hlt.trans_le (min_le_right _ _)
    have hw : w.start < w.stop := (covers_iff.1 (covers_start hpos hlast)).2
    have hoverlap : v.overlaps w = true := by
      simp only [overlaps, Bool.and_eq_true, decide_eq_true_eq]
      exact ⟨⟨hslot, hstart.trans_lt hw⟩, hlt⟩
    exact absurd (h.symm.trans hoverlap) Bool.false_ne_true

/-- A variable that ends earlier covers no more. -/
theorem covers_of_shorter {length : Nat} (h : length ≤ v.length) {pc : Address}
    (hcovers : { v with length }.covers pc = true) : v.covers pc = true := by
  rw [covers_iff, stop, Nat.lt_min] at hcovers ⊢
  exact ⟨hcovers.1, hcovers.2.1.trans_le (Nat.add_le_add_left h _), hcovers.2.2⟩

end LocalVariable

open LocalVariable (Before StartsBefore Apart)

/-! ## Making variables disjoint -/

/-- The invariant of `separate`. The settled variables are given backwards. -/
structure Separating (settled rest : List LocalVariable) : Prop where
  disjoint : settled.Pairwise fun w v => v.Before w
  sorted : rest.Pairwise StartsBefore
  behind : ∀ v ∈ settled, ∀ w ∈ rest, v.StartsBefore w
  length_pos : ∀ v ∈ settled ++ rest, 0 < v.length
  /-- What is known covers no start of an inferred variable. -/
  uncovered : ∀ v ∈ settled ++ rest, v.origin ≠ .inferred → ∀ w ∈ rest, w.origin = .inferred →
    v.slot = w.slot → v.covers w.start = false

namespace Separating

variable {settled rest : List LocalVariable} {prev v : LocalVariable}

/-- The last settled variable may go away. -/
theorem drop (h : Separating (prev :: settled) rest) : Separating settled rest where
  disjoint := (List.pairwise_cons.1 h.disjoint).2
  sorted := h.sorted
  behind u hu := h.behind u (List.mem_cons_of_mem _ hu)
  length_pos u hu := h.length_pos u (List.mem_cons_of_mem _ hu)
  uncovered u hu := h.uncovered u (List.mem_cons_of_mem _ hu)

/-- The last settled variable may end earlier. -/
theorem shorten (h : Separating (prev :: settled) rest) {length : Nat} (hpos : 0 < length)
    (hlength : length ≤ prev.length) : Separating ({ prev with length } :: settled) rest where
  disjoint := List.pairwise_cons.2 (List.pairwise_cons.1 h.disjoint)
  sorted := h.sorted
  behind := by
    intro u hu
    rcases List.mem_cons.1 hu with rfl | hu
    · exact h.behind prev List.mem_cons_self
    · exact h.behind u (List.mem_cons_of_mem _ hu)
  length_pos := by
    intro u hu
    rcases List.mem_cons.1 hu with rfl | hu
    · exact hpos
    · exact h.length_pos u (List.mem_cons_of_mem _ hu)
  uncovered := by
    intro u hu horigin w hw hinferred hslot
    rcases List.mem_cons.1 hu with rfl | hu
    · have hprev := h.uncovered prev List.mem_cons_self horigin w hw hinferred hslot
      rw [Bool.eq_false_iff] at hprev ⊢
      exact fun hcovers => hprev (LocalVariable.covers_of_shorter hlength hcovers)
    · exact h.uncovered u (List.mem_cons_of_mem _ hu) horigin w hw hinferred hslot

/-- The next variable is settled if it is behind the last settled one. -/
theorem push (h : Separating settled (v :: rest)) (hlast : ∀ u ∈ settled.head?, u.Before v) :
    Separating (v :: settled) rest where
  disjoint := by
    refine List.pairwise_cons.2 ⟨fun u hu => ?_, h.disjoint⟩
    cases settled with
    -- the variable in front of `v` ends before it, and all others before that one
    | nil => cases hu
    | cons prev settled =>
      have hprev : prev.Before v := hlast prev rfl
      rcases List.mem_cons.1 hu with rfl | hu
      · exact hprev
      · have huprev : u.Before prev := (List.pairwise_cons.1 h.disjoint).1 u hu
        exact huprev.trans_startsBefore (h.behind prev List.mem_cons_self v List.mem_cons_self)
  sorted := (List.pairwise_cons.1 h.sorted).2
  behind := by
    intro u hu w hw
    rcases List.mem_cons.1 hu with rfl | hu
    · exact (List.pairwise_cons.1 h.sorted).1 w hw
    · exact h.behind u hu w (List.mem_cons_of_mem _ hw)
  length_pos u hu := h.length_pos u (by simp only [List.cons_append, List.mem_cons, List.mem_append] at hu ⊢; tauto)
  uncovered u hu horigin w hw := h.uncovered u
    (by simp only [List.cons_append, List.mem_cons, List.mem_append] at hu ⊢; tauto) horigin w
    (List.mem_cons_of_mem _ hw)

/-- The last settled variable of a slot starts no later than the next one. -/
theorem start_le (h : Separating (prev :: settled) (v :: rest)) (hslot : prev.slot = v.slot) :
    prev.start ≤ v.start := by
  rcases h.behind prev List.mem_cons_self v List.mem_cons_self with hlt | ⟨-, hstart⟩
  · exact absurd (hslot ▸ hlt) (UInt16.lt_irrefl _)
  · exact hstart

/-- A variable that does not overlap the last settled one is behind it. -/
theorem before_of_not_overlaps (h : Separating (prev :: settled) (v :: rest))
    (hdisjoint : prev.overlaps v = false) : prev.Before v := by
  refine LocalVariable.before_of_not_overlaps ?_ ?_ hdisjoint
  · exact h.behind prev List.mem_cons_self v List.mem_cons_self
  · exact h.length_pos v (List.mem_append_right _ List.mem_cons_self)

/-- An inferred variable does not overlap the last settled one if that is known: its start would be
covered. -/
theorem not_overlaps_inferred (h : Separating (prev :: settled) (v :: rest))
    (hoverlap : prev.overlaps v = true) : ¬(prev.origin ≠ .inferred && v.origin = .inferred) = true := by
  intro hlater
  obtain ⟨⟨hslot, -⟩, hstop⟩ : (prev.slot = v.slot ∧ prev.start < v.stop) ∧ v.start < prev.stop := by
    simpa [LocalVariable.overlaps] using hoverlap
  have hknown : prev.origin ≠ .inferred ∧ v.origin = .inferred := by simpa using hlater
  have hcovers : prev.covers v.start = true := LocalVariable.covers_iff.2 ⟨h.start_le hslot, hstop⟩
  have huncovered := h.uncovered prev List.mem_cons_self hknown.1 v List.mem_cons_self hknown.2 hslot
  exact Bool.false_ne_true (huncovered.symm.trans hcovers)

/-- The last settled variable may end where the next one starts, or go away. -/
theorem cut (h : Separating (prev :: settled) (v :: rest)) (hslot : prev.slot = v.slot)
    (hoverlap : v.start < prev.stop) :
    let length : Nat := v.start - prev.start
    Separating (if length = 0 then v :: settled else v :: { prev with length } :: settled) rest := by
  intro length
  split
  · refine h.drop.push fun u hu => ?_
    have hu : u ∈ settled := List.mem_of_mem_head? hu
    have huprev : u.Before prev := (List.pairwise_cons.1 h.disjoint).1 u hu
    exact huprev.trans_startsBefore (h.behind prev List.mem_cons_self v List.mem_cons_self)
  · rename_i hlength
    have hend : v.start < prev.start + prev.length := hoverlap.trans_le (min_le_left _ _)
    refine (h.shorten (Nat.pos_of_ne_zero hlength) (Nat.sub_le_iff_le_add'.2 hend.le)).push ?_
    rintro _ ⟨⟩
    refine .inr ⟨hslot, (min_le_left _ _).trans ?_⟩
    exact (Nat.add_sub_cancel' (h.start_le hslot)).le

end Separating

/-- Making variables disjoint leaves every slot a variable, and none of them is empty. -/
theorem Separating.separated {settled rest : List LocalVariable} (h : Separating settled rest) :
    (separate settled rest).Pairwise Before ∧ (∀ v ∈ separate settled rest, 0 < v.length) ∧
      ∀ v ∈ settled ++ rest, ∃ w ∈ separate settled rest, w.slot = v.slot := by
  -- along the recursion of `separate`: the last settled variable is compared with the next one
  induction settled, rest using separate.induct with
  | case1 settled =>
    rw [separate, List.pairwise_reverse]
    refine ⟨h.disjoint, fun v hv => h.length_pos v (by simpa using hv), fun v hv => ⟨v, ?_, rfl⟩⟩
    simpa using hv
  | case2 v rest ih =>
    rw [separate]
    exact ih (h.push (by simp))
  | case3 prev settled v rest hdisjoint ih =>
    rw [separate, if_pos hdisjoint]
    have hbefore : prev.Before v := h.before_of_not_overlaps (by simpa using hdisjoint)
    obtain ⟨hpairwise, hpos, hslots⟩ := ih (h.push (by rintro _ ⟨⟩; exact hbefore))
    refine ⟨hpairwise, hpos, fun u hu => hslots u ?_⟩
    simp only [List.cons_append, List.mem_cons, List.mem_append] at hu ⊢
    tauto
  | case4 prev settled v rest hoverlap hlater =>
    exact absurd hlater (h.not_overlaps_inferred (by simpa using hoverlap))
  | case5 prev settled v rest hoverlap hlater prev' ih =>
    rw [separate, if_neg hoverlap, if_neg hlater]
    obtain ⟨⟨hslot, -⟩, hstop⟩ : (prev.slot = v.slot ∧ prev.start < v.stop) ∧ v.start < prev.stop := by
      simpa [LocalVariable.overlaps] using hoverlap
    obtain ⟨hpairwise, hpos, hslots⟩ := ih (h.cut hslot hstop)
    refine ⟨hpairwise, hpos, fun u hu => ?_⟩
    rw [List.cons_append, List.mem_cons] at hu
    rcases hu with rfl | hu
    · obtain ⟨w, hw, hwslot⟩ := hslots v (by split <;> simp)
      exact ⟨w, hw, hwslot.trans hslot.symm⟩
    · refine hslots u ?_
      rw [List.mem_append, List.mem_cons] at hu
      split <;> simp only [List.cons_append, List.mem_cons, List.mem_append] <;> tauto

/-- A comparison puts any two elements in one order or the other. -/
theorem isLE_or_isLE {α : Type} (order : α → α → Ordering) [Std.OrientedCmp order] (a b : α) :
    ((order a b).isLE || (order b a).isLE) = true := by
  cases hab : order a b with
  | lt | eq => rfl
  | gt =>
    rw [Std.OrientedCmp.lt_of_gt hab]
    rfl

/-- Sorting by a comparison brings a list into its order. -/
theorem pairwise_mergeSort_isLE {α : Type} (order : α → α → Ordering) [Std.TransCmp order]
    (l : List α) : (l.mergeSort fun a b => (order a b).isLE).Pairwise fun a b => (order a b).isLE :=
  List.pairwise_mergeSort (fun _ _ _ => Std.TransCmp.isLE_trans) (isLE_or_isLE order) l

/-- The order in which variables are made disjoint: by slot and start, and what is known before what is
inferred. -/
def LocalVariable.startOrder (v w : LocalVariable) : Ordering :=
  (compare v.slot w.slot).then <| (compare v.start w.start).then (compare v.origin.rank w.origin.rank)

instance : Std.TransCmp LocalVariable.startOrder := inferInstanceAs (Std.TransCmp
  (compareLex (compareOn fun v : LocalVariable => v.slot) (compareLex (compareOn (·.start))
    (compareOn fun v : LocalVariable => v.origin.rank))))

/-- The order in which variables are made disjoint is that of their starts. -/
theorem LocalVariable.startsBefore_of_isLE {v w : LocalVariable} (h : (v.startOrder w).isLE = true) :
    v.StartsBefore w := by
  rw [startOrder, Ordering.isLE_then_iff_or, Ordering.isLE_then_iff_or] at h
  rcases h with hlt | ⟨heq, hlt | ⟨heq', -⟩⟩
  · exact .inl (Std.compare_eq_lt.1 hlt)
  · exact .inr ⟨Std.LawfulEqCmp.compare_eq_iff_eq.1 heq, (Nat.compare_eq_lt.1 hlt).le⟩
  · exact .inr ⟨Std.LawfulEqCmp.compare_eq_iff_eq.1 heq, (Nat.compare_eq_eq.1 heq').le⟩

/-- Variables in the order in which they are made disjoint. -/
def inStartOrder (vars : List LocalVariable) : List LocalVariable :=
  vars.mergeSort fun v w => (v.startOrder w).isLE

/-- Variables are made disjoint in the order of their starts. -/
theorem makeDisjoint_eq (vars : List LocalVariable) : makeDisjoint vars = separate [] (inStartOrder vars) := rfl

/-- The order leaves no variable out. -/
theorem mem_inStartOrder {vars : List LocalVariable} {v : LocalVariable} : v ∈ inStartOrder vars ↔ v ∈ vars :=
  List.mem_mergeSort

/-- Variables in the order of their starts start one after the other. -/
theorem pairwise_inStartOrder (vars : List LocalVariable) : (inStartOrder vars).Pairwise StartsBefore :=
  (pairwise_mergeSort_isLE LocalVariable.startOrder vars).imp LocalVariable.startsBefore_of_isLE

/-- Variables can be made disjoint if none of them is empty, and no inferred one starts where one that is
known covers. -/
theorem separating_inStartOrder {vars : List LocalVariable} (hpos : ∀ v ∈ vars, 0 < v.length)
    (huncovered : ∀ v ∈ vars, v.origin ≠ .inferred → ∀ w ∈ vars, w.origin = .inferred →
      v.slot = w.slot → v.covers w.start = false) : Separating [] (inStartOrder vars) where
  disjoint := .nil
  sorted := pairwise_inStartOrder vars
  behind := nofun
  length_pos v hv := hpos v (mem_inStartOrder.1 hv)
  uncovered v hv horigin w hw := huncovered v (mem_inStartOrder.1 hv) horigin w (mem_inStartOrder.1 hw)

/-! ## Where variables come from -/

namespace VariableSources

variable (src : VariableSources)

/-- Parameters have a range and are marked as parameters. -/
theorem of_mem_parameterVariables {v : LocalVariable} (h : v ∈ src.parameterVariables) :
    0 < v.length ∧ v.origin = .parameter := by
  obtain ⟨p, -, rfl⟩ := List.mem_map.1 h
  exact ⟨Nat.lt_of_lt_of_le Nat.one_pos (Nat.le_max_right _ _), rfl⟩

/-- Variables of the table have a range and are marked as such. -/
theorem of_mem_tableVariables {v : LocalVariable} (h : v ∈ src.tableVariables) :
    0 < v.length ∧ v.origin = .table := by
  obtain ⟨hpos, row, -, -, hsame⟩ := src.exists_row_of_mem_tableVariables h
  exact ⟨hpos, congrArg LocalVariable.origin hsame⟩

end VariableSources

/-- The variable of a run is in the slot of the run, starts at one of its uses and is not empty. -/
theorem of_runVariable {position : Nat} {run : List SlotUse} {v : LocalVariable}
    (h : runVariable position run = some v) (hslots : ∀ u ∈ run, ∀ w ∈ run, u.slot = w.slot) :
    0 < v.length ∧ v.origin = .inferred ∧ ∃ u ∈ run, u.slot = v.slot ∧ u.pc = v.start := by
  cases run with
  | nil => cases h
  | cons first rest =>
    obtain rfl := Option.some.inj h
    have hmin : ((first :: rest).map (·.pc)).min? =
        some (rest.foldl (fun pc u => min pc u.pc) first.pc) := by
      rw [List.map_cons, List.min?_cons', List.foldl_map]
    have hmax : ((first :: rest).map (·.pc)).max? =
        some (rest.foldl (fun pc u => max pc u.pc) first.pc) := by
      rw [List.map_cons, List.max?_cons', List.foldl_map]
    have hle := (List.max?_eq_some_iff.1 hmax).2 _ (List.min?_mem hmin)
    obtain ⟨u, hu, hpc⟩ := List.mem_map.1 (List.min?_mem hmin)
    exact ⟨Nat.sub_pos_of_lt (Nat.lt_succ_of_le hle), rfl, u, hu,
      hslots u hu first List.mem_cons_self, hpc⟩

/-- The uses in one part of a list that is split where the slot changes are of one slot. -/
theorem slot_eq_of_mem_splitBy {uses part : List SlotUse}
    (h : part ∈ uses.splitBy fun u v => u.slot == v.slot) : ∀ u ∈ part, ∀ w ∈ part, u.slot = w.slot := by
  have hchain : part.IsChain fun u v => u.slot = v.slot :=
    (List.isChain_of_mem_splitBy h).imp fun _ _ hslot => eq_of_beq hslot
  have : IsTrans SlotUse fun u v => u.slot = v.slot := ⟨fun _ _ _ huv hvw => huv.trans hvw⟩
  have : Std.Symm fun u v : SlotUse => u.slot = v.slot := ⟨fun _ _ h => h.symm⟩
  have hpairwise : part.Pairwise fun u v => u.slot = v.slot := hchain.pairwise
  intro u hu w hw
  exact List.Pairwise.forall_of_forall (R := fun u v : SlotUse => u.slot = v.slot) (fun _ _ => rfl)
    hpairwise hu hw

/-- The parts of a split list have the elements of the list. -/
theorem mem_of_mem_splitBy {α : Type} {r : α → α → Bool} {l part : List α} {a : α}
    (hpart : part ∈ l.splitBy r) (ha : a ∈ part) : a ∈ l := by
  rw [← List.flatten_splitBy r l]
  exact List.mem_flatten_of_mem hpart ha

/-- Every element of a list is in one of the parts that it is split into. -/
theorem exists_mem_splitBy {α : Type} {l : List α} {a : α} (r : α → α → Bool) (ha : a ∈ l) :
    ∃ part ∈ l.splitBy r, a ∈ part := by
  rw [← List.flatten_splitBy r l] at ha
  exact List.mem_flatten.1 ha

/-- An inferred variable is not empty and starts at a use of its slot. -/
theorem of_mem_inferredVariables {uses : List SlotUse} {v : LocalVariable}
    (h : v ∈ inferredVariables uses) :
    0 < v.length ∧ v.origin = .inferred ∧ ∃ u ∈ uses, u.slot = v.slot ∧ u.pc = v.start := by
  obtain ⟨part, hpart, h⟩ := List.mem_flatMap.1 h
  obtain ⟨⟨run, position⟩, hrun, hv⟩ := List.mem_filterMap.1 h
  have hrun : run ∈ part.splitBy _ := List.fst_mem_of_mem_zipIdx hrun
  have hslots := slot_eq_of_mem_splitBy hpart
  obtain ⟨hpos, horigin, u, hu, hat⟩ := of_runVariable hv fun u hu w hw =>
    hslots u (mem_of_mem_splitBy hrun hu) w (mem_of_mem_splitBy hrun hw)
  have hpart' : u ∈ uses.mergeSort _ := mem_of_mem_splitBy hpart (mem_of_mem_splitBy hrun hu)
  exact ⟨hpos, horigin, u, List.mem_mergeSort.1 hpart', hat⟩

/-- The slot of every use has an inferred variable. -/
theorem exists_mem_inferredVariables {uses : List SlotUse} {u : SlotUse} (hu : u ∈ uses) :
    ∃ v ∈ inferredVariables uses, v.slot = u.slot := by
  have husorted : u ∈ uses.mergeSort fun u v =>
      ((compare u.slot v.slot).then (compare u.pc v.pc)).isLE := List.mem_mergeSort.2 hu
  obtain ⟨part, hpart, hupart⟩ := exists_mem_splitBy (fun u v => u.slot == v.slot) husorted
  obtain ⟨run, hrun, hurun⟩ :=
    exists_mem_splitBy (fun u v => StorageClass.ofTy u.type == StorageClass.ofTy v.type) hupart
  obtain ⟨position, hposition⟩ := List.mem_iff_getElem?.1 hrun
  obtain ⟨v, hv, hslot⟩ : ∃ v, runVariable position run = some v ∧ v.slot = u.slot := by
    cases run with
    | nil => cases hurun
    | cons first rest =>
      refine ⟨_, rfl, slot_eq_of_mem_splitBy hpart first ?_ u hupart⟩
      exact mem_of_mem_splitBy hrun List.mem_cons_self
  refine ⟨v, List.mem_flatMap.2 ⟨part, hpart, List.mem_filterMap.2 ⟨(run, position), ?_, hv⟩⟩, hslot⟩
  exact List.mem_zipIdx_iff_getElem?.2 hposition

/-! ## One type for each name -/

/-- A name that several numbers are appended to is never the same. -/
theorem append_toString_injective (base : String) :
    Function.Injective fun k : Nat => s!"{base}{k}" := by
  intro a b h
  exact Nat.repr_injective ((String.append_right_inj base).1 h)

/-- The names that are tried are more than those that are taken, so one of them is found. -/
theorem exists_freshName (taken : List String) (base : String) :
    ∃ k, 2 ≤ k ∧ freshName taken base = s!"{base}{k}" ∧ freshName taken base ∉ taken := by
  let candidates := (List.range' 2 (taken.length + 1)).map fun k => s!"{base}{k}"
  have hnodup : candidates.Nodup :=
    List.Nodup.map (append_toString_injective base) List.nodup_range'
  -- there are more candidates than names that are taken
  have hfound : (candidates.find? (!taken.contains ·)).isSome = true := by
    rw [List.find?_isSome]
    by_contra hnone
    have hsubset : candidates ⊆ taken := by
      intro name hname
      by_contra htaken
      exact hnone ⟨name, hname, by simpa using htaken⟩
    have hlength : candidates.length ≤ taken.length := (List.subperm_of_subset hnodup hsubset).length_le
    rw [List.length_map, List.length_range'] at hlength
    exact absurd hlength (Nat.not_succ_le_self _)
  obtain ⟨name, hname⟩ := Option.isSome_iff_exists.1 hfound
  have heq : freshName taken base = name := by
    rw [freshName, hname, Option.getD_some]
  obtain ⟨k, hk, rfl⟩ := List.mem_map.1 (List.mem_of_find?_eq_some hname)
  rw [heq]
  exact ⟨k, (List.mem_range'_1.1 hk).1, rfl, by simpa using List.find?_some hname⟩

/-- A fresh name is not taken. -/
theorem freshName_not_mem (taken : List String) (base : String) : freshName taken base ∉ taken := by
  obtain ⟨-, -, -, hnot⟩ := exists_freshName taken base
  exact hnot

/-- No name has two types. -/
def OneType (named : List (String × Ty)) : Prop := ∀ p ∈ named, ∀ q ∈ named, p.1 = q.1 → p.2 = q.2

/-- A name may be added with the type that it has already. -/
theorem OneType.cons {named : List (String × Ty)} (h : OneType named) {name : String} {type : Ty}
    (hnew : ∀ p ∈ named, p.1 = name → p.2 = type) : OneType ((name, type) :: named) := by
  intro p hp q hq hname
  rcases List.mem_cons.1 hp with rfl | hp <;> rcases List.mem_cons.1 hq with rfl | hq
  · rfl
  · exact (hnew q hq hname.symm).symm
  · exact hnew p hp hname
  · exact h p hp q hq hname

/-- Fewer names have no more types. -/
theorem OneType.subset {named named' : List (String × Ty)} (h : OneType named) (hsub : named' ⊆ named) :
    OneType named' := fun p hp q hq => h p (hsub hp) q (hsub hq)

/-- The name and the type of a variable. -/
def LocalVariable.named (v : LocalVariable) : String × Ty := (v.name, v.type)

/-- Renaming gives every name one type, together with the names that were seen before. -/
theorem oneType_renameConflictsFrom {taken : List String} {seen : List (String × Ty)}
    {vars : List LocalVariable} (hseen : OneType seen) (hnames : ∀ p ∈ seen, p.1 ∈ taken)
    (hvars : ∀ v ∈ vars, v.name ∈ taken) :
    OneType (seen ++ (renameConflictsFrom taken seen vars).map LocalVariable.named) := by
  induction vars generalizing taken seen with
  | nil => simpa [renameConflictsFrom] using hseen
  | cons v vars ih =>
    have hseen' : v.name ∈ taken := hvars v List.mem_cons_self
    have hrest : ∀ w ∈ vars, w.name ∈ taken := fun w hw => hvars w (List.mem_cons_of_mem _ hw)
    rw [renameConflictsFrom]
    split
    · set name := freshName taken v.name with hname
      have hfresh : name ∉ taken := freshName_not_mem taken v.name
      have hone : OneType ((name, v.type) :: seen) := hseen.cons fun p hp hpname =>
        absurd (hpname ▸ hnames p hp) hfresh
      refine (@ih (name :: taken) _ hone ?_ fun w hw => List.mem_cons_of_mem _ (hrest w hw)).subset ?_
      · intro p hp
        rcases List.mem_cons.1 hp with rfl | hp
        · exact List.mem_cons_self
        · exact List.mem_cons_of_mem _ (hnames p hp)
      · rw [List.map_cons]
        exact List.perm_middle.subset
    · rename_i hkept
      have hone : OneType ((v.name, v.type) :: seen) := by
        refine hseen.cons fun p hp hpname => ?_
        -- The name was seen with the type of the variable, and with no other.
        have hsame : (v.name, v.type) ∈ seen := by
          by_contra hnew
          refine hkept ?_
          rw [Bool.and_eq_true, List.any_eq_true]
          exact ⟨⟨p, hp, decide_eq_true hpname⟩, by simpa using hnew⟩
        exact hseen p hp _ hsame hpname
      refine (ih hone ?_ hrest).subset ?_
      · intro p hp
        rcases List.mem_cons.1 hp with rfl | hp
        · exact hseen'
        · exact hnames p hp
      · rw [List.map_cons]
        exact List.perm_middle.subset

/-- Of the renamed variables, those of one name have one type. -/
theorem oneType_renameConflicts (vars : List LocalVariable) :
    OneType ((renameConflicts vars).map LocalVariable.named) := by
  have hvars : ∀ v ∈ vars, v.name ∈ vars.map (·.name) := fun v hv => List.mem_map_of_mem hv
  exact @oneType_renameConflictsFrom (vars.map (·.name)) [] vars nofun nofun hvars

/-! ## The table -/

namespace VariableSources

variable (src : VariableSources) (body : List Stmt)

/-- The variables that are known before the body is looked at. -/
def known : List LocalVariable := src.parameterVariables ++ src.tableVariables

/-- The uses that no variable that is known covers. -/
def uncovered : List SlotUse :=
  (SlotUse.ofBody body).filter fun u => !src.known.any fun v => v.slot = u.slot && v.covers u.pc

/-- The variables of a method before they are made disjoint. -/
def collected : List LocalVariable := src.known ++ inferredVariables (src.uncovered body)

/-- The variables of a method before they are put in order by their names. -/
def unordered : List LocalVariable := renameConflicts (makeDisjoint (src.collected body))

/-- The variables of a method are put in order by their names, and none is lost. -/
theorem locals_perm : (src.locals body).Perm (src.unordered body) := List.mergeSort_perm _ _

/-- The table is in the order of the names. -/
theorem sorted_locals : (src.locals body).Pairwise fun v w => (v.nameOrder w).isLE := by
  have : Std.TransCmp LocalVariable.nameOrder := inferInstanceAs (Std.TransCmp
    (compareLex (compareOn fun v : LocalVariable => v.name) (compareLex (compareOn (·.length))
      (compareLex (compareOn (·.start)) (compareOn (·.slot))))))
  exact pairwise_mergeSort_isLE LocalVariable.nameOrder _

/-- No name in the table has two types. -/
theorem oneType_locals : OneType ((src.locals body).map LocalVariable.named) :=
  (oneType_renameConflicts _).subset ((src.locals_perm body).map _).subset

variable {src body}

/-- Variables that are known have a range and are not inferred. -/
theorem of_mem_known {v : LocalVariable} (h : v ∈ src.known) : 0 < v.length ∧ v.origin ≠ .inferred := by
  rcases List.mem_append.1 h with h | h
  · obtain ⟨hpos, horigin⟩ := src.of_mem_parameterVariables h
    exact ⟨hpos, by rw [horigin]; nofun⟩
  · obtain ⟨hpos, horigin⟩ := src.of_mem_tableVariables h
    exact ⟨hpos, by rw [horigin]; nofun⟩

/-- A use is uncovered if no known variable of its slot covers it. -/
theorem mem_uncovered {u : SlotUse} : u ∈ src.uncovered body ↔
    u ∈ SlotUse.ofBody body ∧ ∀ v ∈ src.known, v.slot = u.slot → v.covers u.pc = false := by
  simp [uncovered, List.mem_filter]

/-- What is collected is known exactly if it is not inferred. -/
theorem mem_known_of_mem_collected {v : LocalVariable} (h : v ∈ src.collected body)
    (horigin : v.origin ≠ .inferred) : v ∈ src.known :=
  (List.mem_append.1 h).resolve_right fun h => horigin (of_mem_inferredVariables h).2.1

/-- The inferred variables are those of the uncovered uses. -/
theorem mem_inferredVariables_of_mem_collected {v : LocalVariable} (h : v ∈ src.collected body)
    (horigin : v.origin = .inferred) : v ∈ inferredVariables (src.uncovered body) :=
  (List.mem_append.1 h).resolve_left fun h => (of_mem_known h).2 horigin

variable (src body)

/-- The collected variables can be made disjoint: an inferred one starts at a use that nothing known
covers. -/
theorem separating_collected : Separating [] (inStartOrder (src.collected body)) := by
  apply separating_inStartOrder
  · intro v hv
    rcases List.mem_append.1 hv with hv | hv
    · exact (of_mem_known hv).1
    · exact (of_mem_inferredVariables hv).1
  · intro v hv hvorigin w hw hworigin hslot
    obtain ⟨-, -, u, hu, huslot, hupc⟩ :=
      of_mem_inferredVariables (mem_inferredVariables_of_mem_collected hw hworigin)
    have hnot := (mem_uncovered.1 hu).2 v (mem_known_of_mem_collected hv hvorigin) (hslot.trans huslot.symm)
    rwa [hupc] at hnot

/-- Renaming changes nothing but names. -/
theorem map_unordered {α : Type} {f : LocalVariable → α}
    (hf : ∀ (v : LocalVariable) (name : String), f { v with name } = f v) :
    (src.unordered body).map f = (makeDisjoint (src.collected body)).map f :=
  map_renameConflictsFrom hf _ _ _

/-- The variables of one slot are disjoint, none of them is empty, and every use of a slot has a variable
of that slot. -/
theorem table_locals :
    (src.locals body).Pairwise Apart ∧ (∀ v ∈ src.locals body, 0 < v.length) ∧
      ∀ u ∈ SlotUse.ofBody body, ∃ v ∈ src.locals body, v.slot = u.slot := by
  obtain ⟨hpairwise, hlength, hslots⟩ := (src.separating_collected body).separated
  rw [← makeDisjoint_eq] at hpairwise hlength hslots
  -- names are chosen in the end, and play no part in what variables cover
  have hbefore : (src.unordered body).Pairwise Before := by
    let unnamed (v : LocalVariable) : LocalVariable := { v with name := "" }
    have hmap : ((makeDisjoint (src.collected body)).map unnamed).Pairwise Before :=
      List.pairwise_map.2 hpairwise
    rw [← src.map_unordered body fun _ _ => rfl, List.pairwise_map] at hmap
    exact hmap
  refine ⟨?_, ?_, ?_⟩
  · exact (hbefore.imp Before.apart).perm (src.locals_perm body).symm Apart.symm
  · intro v hv
    have hv : v.length ∈ (src.unordered body).map (·.length) :=
      List.mem_map_of_mem ((src.locals_perm body).mem_iff.1 hv)
    rw [src.map_unordered body fun _ _ => rfl] at hv
    obtain ⟨w, hw, hwv⟩ := List.mem_map.1 hv
    exact hwv ▸ hlength w hw
  · intro u hu
    -- a use is covered by a row, or by the variable of its run
    have hcollected : ∃ v ∈ src.collected body, v.slot = u.slot := by
      by_cases hcovered : ∀ v ∈ src.known, v.slot = u.slot → v.covers u.pc = false
      · obtain ⟨v, hv, hslot⟩ := exists_mem_inferredVariables (mem_uncovered.2 ⟨hu, hcovered⟩)
        exact ⟨v, List.mem_append_right _ hv, hslot⟩
      · push Not at hcovered
        obtain ⟨v, hv, hslot, -⟩ := hcovered
        exact ⟨v, List.mem_append_left _ hv, hslot⟩
    obtain ⟨v, hv, hslot⟩ := hcollected
    obtain ⟨w, hw, hwslot⟩ := hslots v (by simpa [mem_inStartOrder] using hv)
    have hw : w.slot ∈ (makeDisjoint (src.collected body)).map (·.slot) := List.mem_map_of_mem hw
    rw [← src.map_unordered body fun _ _ => rfl] at hw
    obtain ⟨x, hx, hxw⟩ := List.mem_map.1 hw
    exact ⟨x, (src.locals_perm body).mem_iff.2 hx, hxw.trans (hwslot.trans hslot)⟩

end VariableSources

end JvmDecompiler
