import JvmDecompiler.Proofs.BoundUses
import JvmDecompiler.Proofs.LastStarted
import JvmDecompiler.Proofs.Runs

/-!
# Storage classes of bound uses

A use that no parameter and no row of a table covers belongs to a run, and the variable inferred for the run is
of the storage class of the use. Binding does not always find that variable. When variables are made disjoint, a
known one that starts inside a run cuts the variable of the run there, and nothing of it is left behind the
known one; the uses there are bound to the nearest variable of the slot.

`VariableSources.keepsClasses_iff` says exactly when all such uses keep their storage classes. That some use of a
body loses its class where a variable is cut takes an argument over the whole body: a use that is cut off may
happen to be near to a variable of its class, but then the first use of the next run is bound to that variable
too, and that use is of another class (`VariableSources.covers_of_keepsClassOf`).
-/

namespace JvmDecompiler

/-- Whether the variable comes from the uses of its slot. -/
def LocalVariable.isInferred (v : LocalVariable) : Bool := v.origin = .inferred

open LocalVariable (isInferred)

namespace VariableSources

variable {src : VariableSources} {body : List Stmt} {u : SlotUse} {v w x : LocalVariable} {slot : UInt16}
  {pc : Address}

/-! ## The last variable that has started at a use -/

theorem mem_of_lastCollected (h : src.lastCollected body slot pc = some v) :
    v ∈ src.collected body ∧ v.slot = slot ∧ v.start ≤ pc := by
  obtain ⟨hmem, h⟩ := mem_of_lastStarted h
  exact ⟨mem_inStartOrder.1 hmem, h⟩

theorem start_le_of_lastCollected (h : src.lastCollected body slot pc = some v) (hw : w ∈ src.collected body)
    (hslot : w.slot = slot) (hstart : w.start ≤ pc) : w.start ≤ v.start :=
  start_le_of_lastStarted (pairwise_inStartOrder _) h (mem_inStartOrder.2 hw)
    (LocalVariable.hasStarted_iff.2 ⟨hslot, hstart⟩)

theorem length_pos_of_mem_collected (h : v ∈ src.collected body) : 0 < v.length :=
  (src.separating_collected body).length_pos v (mem_inStartOrder.2 h)

/-- Of what was collected, only inferred variables cover an uncovered use. -/
theorem inferred_of_covers (hu : u ∈ src.uncovered body) (hv : v ∈ src.collected body) (hslot : v.slot = u.slot)
    (hcovers : v.covers u.pc = true) : v.origin = .inferred := by
  by_contra horigin
  have hnot := (mem_uncovered.1 hu).2 v (mem_known_of_mem_collected hv horigin) hslot
  exact Bool.false_ne_true (hnot.symm.trans hcovers)

/-- The inferred variables come in the order of the runs. -/
theorem filter_inferred : (inStartOrder (src.collected body)).filter isInferred =
    inferredVariables (src.uncovered body) := by
  have hinferred : ∀ v ∈ inferredVariables (src.uncovered body), v.isInferred = true :=
    fun v hv => decide_eq_true (of_mem_inferredVariables hv).2.1
  have hsublist : (inferredVariables (src.uncovered body)).Sublist (inStartOrder (src.collected body)) :=
    List.sublist_mergeSort (fun _ _ _ => Std.TransCmp.isLE_trans)
      (isLE_or_isLE LocalVariable.startOrder) (pairwise_inferredVariables _) (List.sublist_append_right _ _)
  have hfiltered := hsublist.filter isInferred
  rw [List.filter_eq_self.2 hinferred] at hfiltered
  refine (hfiltered.eq_of_length ?_).symm
  have hperm := (List.mergeSort_perm (src.collected body) fun v w => (v.startOrder w).isLE).filter
    isInferred
  have hknown : src.known.filter isInferred = [] :=
    List.filter_eq_nil_iff.2 fun v hv => by simpa [isInferred] using (of_mem_known hv).2
  rw [collected, List.filter_append, hknown, List.filter_eq_self.2 hinferred] at hperm
  exact hperm.length_eq.symm

variable {i : Nat} {run : List SlotUse} {r : LocalVariable}

/-- An inferred variable that is the last to have started is not of an earlier run than one that has
started. -/
theorem exists_runAt_of_lastCollected (h : src.lastCollected body slot pc = some v) (hv : v.origin = .inferred)
    (hrun : RunAt (src.uncovered body) i run r) (hslot : r.slot = slot) (hstart : r.start ≤ pc) :
    ∃ k run', i ≤ k ∧ RunAt (src.uncovered body) k run' v := by
  -- the variables of the runs are sorted, so that one that starts later stands later
  obtain ⟨-, before, after, hsplit, hafter⟩ := lastStarted_eq_some_iff.1 h
  have hinferred : v.isInferred = true := decide_eq_true hv
  have hvars : inferredVariables (src.uncovered body) =
      before.filter isInferred ++ v :: after.filter isInferred := by
    rw [← filter_inferred, hsplit, List.filter_append, List.filter_cons_of_pos hinferred]
  have hget : (inferredVariables (src.uncovered body))[(before.filter isInferred).length]? = some v := by
    rw [hvars, List.getElem?_append_right le_rfl, Nat.sub_self]
    rfl
  obtain ⟨run', hrun'⟩ := RunAt.of_var hget
  refine ⟨_, run', not_lt.1 fun hlt => ?_, hrun'⟩
  have hr := hrun.var_eq
  rw [hvars, List.getElem?_append_right hlt.le] at hr
  obtain ⟨d, hd⟩ := Nat.exists_eq_add_of_lt hlt
  rw [hd, Nat.add_assoc, Nat.add_sub_cancel_left, List.getElem?_cons_succ] at hr
  have hnot := hafter r (List.mem_of_mem_filter (List.mem_of_getElem? hr))
  rw [Bool.eq_false_iff, Ne, LocalVariable.hasStarted_iff] at hnot
  exact hnot ⟨hslot, hstart⟩

/-- Some collected variable has started at a use, and the last one not before the variable of the run of
the use. -/
theorem exists_lastCollected (hrun : RunAt (src.uncovered body) i run r) (hu : u ∈ run) :
    ∃ v, src.lastCollected body u.slot u.pc = some v ∧ r.start ≤ v.start := by
  have hr : r ∈ src.collected body := List.mem_append_right _ (List.mem_of_getElem? hrun.var_eq)
  have hslot : r.slot = u.slot := (hrun.isOfRun.slot u hu).symm
  have hstart : r.start ≤ u.pc := (hrun.isOfRun.range u hu).1
  obtain ⟨v, hv⟩ := exists_lastStarted (mem_inStartOrder.2 hr) (LocalVariable.hasStarted_iff.2 ⟨hslot, hstart⟩)
  exact ⟨v, hv, start_le_of_lastCollected hv hr hslot hstart⟩

/-- If the last variable that has started at a use is inferred, then its run has a use there. -/
theorem exists_use_of_lastCollected (hrun : RunAt (src.uncovered body) i run r) (hu : u ∈ run)
    (h : src.lastCollected body u.slot u.pc = some v) (hv : v.origin = .inferred) :
    ∃ k run', RunAt (src.uncovered body) k run' v ∧ ∃ z ∈ run', z.pc = u.pc := by
  have hslot : r.slot = u.slot := (hrun.isOfRun.slot u hu).symm
  obtain ⟨-, hvslot, hvstart⟩ := mem_of_lastCollected h
  obtain ⟨k, run', hik, hrun'⟩ :=
    exists_runAt_of_lastCollected h hv hrun hslot (hrun.isOfRun.range u hu).1
  refine ⟨k, run', hrun', ?_⟩
  rcases hik.eq_or_lt with rfl | hlt
  · exact ⟨u, (hrun.unique hrun').1 ▸ hu, rfl⟩
  · -- The start of a later run is neither in front of the use nor behind it.
    obtain ⟨z, hz, hzpc⟩ := hrun'.isOfRun.starts
    exact ⟨z, hz, (hzpc.trans_le hvstart).antisymm (hrun.pc_le hrun' hlt (hslot.trans hvslot.symm) hu hz)⟩

/-- An inferred variable that is the last to have started at a use covers it. -/
theorem covers_of_inferred (hu : u ∈ src.uncovered body) (hpc : u.pc < LocalVariable.lastAddress)
    (h : src.lastCollected body u.slot u.pc = some v) (hv : v.origin = .inferred) : v.covers u.pc = true := by
  obtain ⟨i, run, r, hrun, hurun⟩ := RunAt.exists_of_mem hu
  obtain ⟨k, run', hrun', z, hz, hzpc⟩ := exists_use_of_lastCollected hrun hurun h hv
  have hrange := hrun'.isOfRun.range z hz
  rw [hzpc] at hrange
  exact LocalVariable.covers_iff.2 ⟨hrange.1, Nat.lt_min.2 ⟨hrange.2, hpc⟩⟩

/-- The last variable that has started at an address is not cut where it ends in front of the address. -/
theorem exists_uncut (h : src.lastCollected body slot pc = some v) (hpc : pc < LocalVariable.lastAddress)
    (hstop : v.stop ≤ pc) :
    v.start < v.stop ∧ ∃ w ∈ src.locals body, w.slot = slot ∧ w.kept = v.kept ∧ v.stop ≤ w.stop := by
  obtain ⟨hmem, -, hstart⟩ := mem_of_lastCollected h
  have hne : v.start < v.stop := (LocalVariable.covers_iff.1
    (LocalVariable.covers_start (length_pos_of_mem_collected hmem) (hstart.trans_lt hpc))).2
  -- It is the last one to have started at its last address, too.
  have hlow : v.start ≤ v.stop - 1 := Nat.le_sub_one_of_lt hne
  have hhigh : v.stop - 1 < v.stop := Nat.sub_one_lt (Nat.ne_zero_of_lt hne)
  have hlast : src.lastCollected body slot (v.stop - 1) = some v :=
    lastStarted_of_le h hlow (hhigh.le.trans hstop)
  obtain ⟨w, hw, hslot, hcovers, hkept⟩ :=
    exists_mem_locals_of_lastCollected hlast (LocalVariable.covers_iff.2 ⟨hlow, hhigh⟩)
  exact ⟨hne, w, hw, hslot, hkept, Nat.le_of_pred_lt (LocalVariable.covers_iff.1 hcovers).2⟩

/-- If the last variable that has started at a use is known and ends in front of it, then no inferred variable
in front of the use is nearer. -/
theorem lt_start_of_isBoundTo (hpc : u.pc < LocalVariable.lastAddress)
    (h : src.lastCollected body u.slot u.pc = some v) (hv : v.origin ≠ .inferred)
    (hcovers : v.covers u.pc = false) (hbound : src.IsBoundTo body u x) (hx : x.origin = .inferred) :
    u.pc < x.start := by
  by_contra hle
  have hle : x.start ≤ u.pc := not_lt.1 hle
  obtain ⟨-, -, hvstart⟩ := mem_of_lastCollected h
  have hvstop : v.stop ≤ u.pc := by
    rw [Bool.eq_false_iff, Ne, LocalVariable.covers_iff] at hcovers
    exact not_lt.1 fun hlt => hcovers ⟨hvstart, hlt⟩
  obtain ⟨hne, w, hw, hwslot, hkept, hwstop⟩ := exists_uncut h hpc hvstop
  obtain ⟨-, hwstart, -, hworigin⟩ := LocalVariable.eq_of_kept hkept
  -- The inferred variable does not start behind the known one, so that it ends in front of it.
  have hxv : x.start ≤ v.start := by
    obtain ⟨y, hy, hkept⟩ := exists_mem_collected hbound.mem
    obtain ⟨hyslot, hystart, -⟩ := LocalVariable.eq_of_kept hkept
    rw [← hystart]
    exact start_le_of_lastCollected h hy (hyslot.trans hbound.slot) (hystart.trans_le hle)
  have hxw : x ≠ w := fun heq => hv (hworigin.symm.trans (heq ▸ hx))
  have : Std.Symm LocalVariable.Apart := ⟨fun _ _ h => h.symm⟩
  have hapart : x.Apart w := (src.table_locals body).1.forall hbound.mem hw hxw
  rcases hapart (hbound.slot.trans hwslot.symm) with hbefore | hafter
  · have hxne : x.start < x.stop := (LocalVariable.covers_iff.1 (LocalVariable.covers_start
      ((src.table_locals body).2.1 x hbound.mem) (hle.trans_lt hpc))).2
    have hnear := hbound.nearest w hw hwslot
    rw [LocalVariable.distance, LocalVariable.distance, if_neg (not_lt.2 hle),
      if_neg (not_lt.2 (hwstart.trans_le hvstart))] at hnear
    have hfarther : ∀ {p xs vs ws : Nat}, 0 < xs → xs < vs → vs ≤ ws → vs ≤ p →
        ¬p - (xs - 1) ≤ p - (ws - 1) := by omega
    exact hfarther (Nat.zero_lt_of_lt hxne) ((hbefore.trans_eq hwstart).trans_lt hne) hwstop hvstop hnear
  · exact lt_irrefl _ ((hwstop.trans hafter).trans_lt (hxv.trans_lt hne))

/-- An inferred variable behind a use to which the use is bound comes from a later run. -/
theorem exists_later_run (hrun : RunAt (src.uncovered body) i run r) (hu : u ∈ run)
    (hbound : src.IsBoundTo body u x) (hx : x.origin = .inferred) (hlt : u.pc < x.start) :
    ∃ j run' y, RunAt (src.uncovered body) j run' y ∧ i < j ∧ r.slot = y.slot ∧ y.start = x.start := by
  obtain ⟨y, hy, hkept⟩ := exists_mem_collected hbound.mem
  obtain ⟨hyslot, hystart, -, hyorigin⟩ := LocalVariable.eq_of_kept hkept
  obtain ⟨j, hj⟩ := List.mem_iff_getElem?.1 (mem_inferredVariables_of_mem_collected hy (hyorigin.trans hx))
  obtain ⟨run', hrun'⟩ := RunAt.of_var hj
  have hslot : r.slot = y.slot := (hrun.isOfRun.slot u hu).symm.trans (hyslot.trans hbound.slot).symm
  exact ⟨j, run', y, hrun', hrun.lt_of_lt_start hrun' hslot hu (hlt.trans_eq hystart.symm), hslot, hystart⟩

/-- At the first use of a run, the last variable that has started starts there. -/
theorem exists_start_of_first (hrun : RunAt (src.uncovered body) i run r) (hu : u ∈ run)
    (hfirst : u.pc = r.start) (hpc : u.pc < LocalVariable.lastAddress) :
    ∃ v, src.lastCollected body u.slot u.pc = some v ∧ v.start = u.pc ∧ v.covers u.pc = true := by
  obtain ⟨v, h, hstart⟩ := exists_lastCollected hrun hu
  obtain ⟨hvmem, -, hle⟩ := mem_of_lastCollected h
  have heq : v.start = u.pc := hle.antisymm (hfirst.trans_le hstart)
  refine ⟨v, h, heq, ?_⟩
  rw [← heq]
  exact LocalVariable.covers_start (length_pos_of_mem_collected hvmem) (heq.trans_lt hpc)

/-- If the last variable that has started at a use covers it, then the use is bound to what is left of that
variable. -/
theorem IsBoundTo.kept_eq (hbound : src.IsBoundTo body u x) (h : src.lastCollected body u.slot u.pc = some v)
    (hcovers : v.covers u.pc = true) : x.kept = v.kept := by
  obtain ⟨w, hw, hslot, hwcovers, hkept⟩ := exists_mem_locals_of_lastCollected h hcovers
  rwa [← hbound.covering w hw hslot hwcovers]

variable (src body) in
/-- A use is bound to an inferred variable of its storage class. -/
def KeepsClassOf (u : SlotUse) : Prop :=
  ∃ v, src.IsBoundTo body u v ∧ v.origin = .inferred ∧ StorageClass.ofTy v.type = u.storageClass

/-- If all uncovered uses are bound to inferred variables of their storage classes, then the last variable
that has started at one of them covers it. -/
theorem covers_of_keepsClassOf (hpcs : ∀ u ∈ src.uncovered body, u.pc < LocalVariable.lastAddress)
    (hkeeps : ∀ u ∈ src.uncovered body, src.KeepsClassOf body u) (hu : u ∈ src.uncovered body)
    (h : src.lastCollected body u.slot u.pc = some v) : v.covers u.pc = true := by
  by_contra hcovers
  obtain ⟨i, run, r, hrun, hurun⟩ := RunAt.exists_of_mem hu
  have hv : v.origin ≠ .inferred := fun hv => hcovers (covers_of_inferred hu (hpcs u hu) h hv)
  obtain ⟨x, hbound, hx, hclass⟩ := hkeeps u hu
  have hright : u.pc < x.start :=
    lt_start_of_isBoundTo (hpcs u hu) h hv (Bool.eq_false_iff.2 hcovers) hbound hx
  -- The use is bound to the variable of a later run. The run next to that of the use is of another class, and
  -- its first use is bound to a variable that starts there.
  obtain ⟨j, run', y, hrun', hij, hslot, hystart⟩ := exists_later_run hrun hurun hbound hx hright
  obtain ⟨next, y', hnext, hnextslot, hdiffer⟩ := hrun.next hrun' hij hslot
  obtain ⟨n, hn, hnpc⟩ := hnext.isOfRun.starts
  have hnmem : n ∈ src.uncovered body := hnext.mem_uses hn
  have hnslot : n.slot = u.slot :=
    (hnext.isOfRun.slot n hn).trans (hnextslot.trans (hrun.isOfRun.slot u hurun).symm)
  have hlow : u.pc ≤ n.pc := hrun.pc_le hnext (Nat.lt_succ_self i) hnextslot.symm hurun hn
  have hhigh : n.pc ≤ x.start := by
    rw [hnpc, ← hystart]
    exact hnext.start_le hrun' (Nat.succ_le_of_lt hij) (hnextslot.trans hslot)
  obtain ⟨v', h', hstart', hcovers'⟩ := exists_start_of_first hnext hn hnpc (hpcs n hnmem)
  obtain ⟨x', hbound', -, hclass'⟩ := hkeeps n hnmem
  have hx'start : x'.start = n.pc := (LocalVariable.eq_of_kept (hbound'.kept_eq h' hcovers')).2.1.trans hstart'
  have hlt : u.pc < n.pc := by
    refine hlow.lt_of_ne fun heq => hcovers ?_
    rw [← heq, hnslot, h] at h'
    obtain rfl := Option.some.inj h'
    rwa [heq]
  -- That variable is no farther from the use than the one that the use is bound to, so that they are the same.
  have hxstart : x.start = n.pc := by
    have hnear := hbound.nearest x' hbound'.mem (hbound'.slot.trans hnslot)
    rw [LocalVariable.distance, LocalVariable.distance, if_pos hright, if_pos (hlt.trans_eq hx'start.symm),
      hx'start] at hnear
    exact ((Nat.sub_le_sub_iff_right hlow).1 hnear).antisymm hhigh
  have hxcovers : x.covers n.pc = true := by
    rw [← hxstart]
    exact LocalVariable.covers_start ((src.table_locals body).2.1 x hbound.mem)
      (hxstart.trans_lt (hpcs n hnmem))
  obtain rfl : x = x' := hbound'.covering x hbound.mem (hbound.slot.trans hnslot.symm) hxcovers
  exact hdiffer u hurun n hn (hclass.symm.trans hclass')

/-- An uncovered use is bound to an inferred variable if the last variable that has started there covers it. -/
theorem IsBoundTo.inferred (hbound : src.IsBoundTo body u x) (hu : u ∈ src.uncovered body)
    (h : src.lastCollected body u.slot u.pc = some v) (hcovers : v.covers u.pc = true) :
    x.origin = .inferred := by
  obtain ⟨hvmem, hvslot, -⟩ := mem_of_lastCollected h
  rw [(LocalVariable.eq_of_kept (hbound.kept_eq h hcovers)).2.2.2]
  exact inferred_of_covers hu hvmem hvslot hcovers

/-- All uncovered uses are bound to inferred variables of their storage classes exactly if the last variable
that has started at each of them covers it and is of its class. -/
theorem forall_keepsClassOf_iff (hpcs : ∀ u ∈ src.uncovered body, u.pc < LocalVariable.lastAddress) :
    (∀ u ∈ src.uncovered body, src.KeepsClassOf body u) ↔
      ∀ u ∈ src.uncovered body, ∃ v, src.lastCollected body u.slot u.pc = some v ∧ v.covers u.pc = true ∧
        StorageClass.ofTy v.type = u.storageClass := by
  constructor
  · intro hkeeps u hu
    obtain ⟨i, run, r, hrun, hurun⟩ := RunAt.exists_of_mem hu
    obtain ⟨v, h, -⟩ := exists_lastCollected hrun hurun
    have hcovers := covers_of_keepsClassOf hpcs hkeeps hu h
    obtain ⟨x, hbound, -, hclass⟩ := hkeeps u hu
    refine ⟨v, h, hcovers, ?_⟩
    rwa [← (LocalVariable.eq_of_kept (hbound.kept_eq h hcovers)).2.2.1]
  · intro hlast u hu
    obtain ⟨v, h, hcovers, hclass⟩ := hlast u hu
    obtain ⟨x, hbound⟩ := exists_isBoundTo (mem_uncovered.1 hu).1
    refine ⟨x, hbound, hbound.inferred hu h hcovers, ?_⟩
    rwa [(LocalVariable.eq_of_kept (hbound.kept_eq h hcovers)).2.2.1]

end VariableSources

/-! ## Runs that a known variable interrupts -/

/-- A variable starts inside a run: behind one use of its slot and in front of another one or at it, where all
uses from the one to the other are of one storage class. -/
def LocalVariable.Interrupts (uses : List SlotUse) (w : LocalVariable) : Prop :=
  ∃ u ∈ uses, ∃ u' ∈ uses, u.slot = w.slot ∧ u'.slot = w.slot ∧ u.pc < w.start ∧ w.start ≤ u'.pc ∧
    ∀ z ∈ uses, z.slot = w.slot → u.pc ≤ z.pc → z.pc ≤ u'.pc → z.storageClass = u.storageClass

instance (uses : List SlotUse) (w : LocalVariable) : Decidable (w.Interrupts uses) :=
  inferInstanceAs (Decidable (∃ u ∈ uses, ∃ u' ∈ uses, u.slot = w.slot ∧ u'.slot = w.slot ∧ u.pc < w.start ∧
    w.start ≤ u'.pc ∧ ∀ z ∈ uses, z.slot = w.slot → u.pc ≤ z.pc → z.pc ≤ u'.pc →
      z.storageClass = u.storageClass))

/-- Uses have storage classes that fit to each other: a slot is not used in two ways at one address, and what
a use stores is of the class of the use, as far as it is known. -/
structure ClassesAgree (uses : List SlotUse) : Prop where
  known : ∀ u ∈ uses, u.type ≠ .unknown
  one : ∀ u ∈ uses, ∀ z ∈ uses, u.slot = z.slot → u.pc = z.pc → u.storageClass = z.storageClass
  stored : ∀ u ∈ uses, ∀ t ∈ u.stored, t = .null ∨ t = .unknown ∨ StorageClass.ofTy t = u.storageClass

theorem storageClass_runType {operand : Ty} {run : List SlotUse} (hknown : operand ≠ .unknown)
    (hstored : ∀ u ∈ run, ∀ t ∈ u.stored, t = .null ∨ t = .unknown ∨ StorageClass.ofTy t = .ofTy operand) :
    StorageClass.ofTy (runType operand run) = .ofTy operand := by
  have hmem : ∀ t ∈ ((run.filterMap (·.stored)).filter fun t => t ≠ .null && t ≠ .unknown).eraseDups,
      StorageClass.ofTy t = .ofTy operand := by
    intro t ht
    rw [List.mem_eraseDups, List.mem_filter, List.mem_filterMap] at ht
    obtain ⟨⟨u, hu, hut⟩, hne⟩ := ht
    rw [Bool.and_eq_true, decide_eq_true_eq, decide_eq_true_eq] at hne
    rcases hstored u hu t hut with hnull | hunknown | hclass
    · exact absurd hnull hne.1
    · exact absurd hunknown hne.2
    · exact hclass
  have hobject : operand.isReference = true → StorageClass.ofTy .object = .ofTy operand := by
    intro hreference
    cases operand <;> first | rfl | cases hreference
  have hint : operand.isIntLike = true → StorageClass.ofTy .int = .ofTy operand := by
    intro hint
    cases operand <;> first | rfl | cases hint
  rw [runType]
  split
  · rename_i hreference
    have hreference : operand.isReference = true := by simpa [hknown] using hreference
    split
    · rename_i t ht
      exact hmem t (ht ▸ List.mem_singleton_self t)
    · exact hobject hreference
  · split
    · rename_i hoperand
      split
      · rename_i t ht
        split
        · exact hmem t (ht ▸ List.mem_singleton_self t)
        · exact hint hoperand
      · exact hint hoperand
    · rfl

namespace RunAt

variable {uses run run' : List SlotUse} {i j : Nat} {v w : LocalVariable} {u u' : SlotUse}

/-- The variable of a run is of the storage class of the run. -/
theorem storageClass_type (h : RunAt uses i run v) (hagree : ClassesAgree uses) (hu : u ∈ run) :
    StorageClass.ofTy v.type = u.storageClass := by
  obtain ⟨first, hfirst, htype⟩ := h.isOfRun.type
  rw [htype, storageClass_runType (hagree.known first (h.mem_uses hfirst)) fun z hz t ht => ?_]
  · exact h.storageClass_eq hfirst hu
  · have hclass : z.storageClass = .ofTy first.type := h.storageClass_eq hz hfirst
    rw [← hclass]
    exact hagree.stored z (h.mem_uses hz) t ht

/-- Two uses of a slot are in one run if all uses between them are of one class. -/
theorem eq_of_between (h : RunAt uses i run v) (h' : RunAt uses j run' w) (hslot : v.slot = w.slot)
    (hu : u ∈ run) (hu' : u' ∈ run') (hlt : u.pc < u'.pc)
    (hbetween : ∀ z ∈ uses, z.slot = v.slot → u.pc ≤ z.pc → z.pc ≤ u'.pc → z.storageClass = u.storageClass) :
    i = j := by
  rcases lt_trichotomy i j with hij | heq | hji
  · obtain ⟨next, x, hnext, hxslot, hdiffer⟩ := h.next h' hij hslot
    obtain ⟨n, hn, hnpc⟩ := hnext.isOfRun.starts
    have hhigh : n.pc ≤ u'.pc := by
      rw [hnpc]
      exact (hnext.start_le h' (Nat.succ_le_of_lt hij) (hxslot.trans hslot)).trans (h'.isOfRun.range u' hu').1
    have hlow : u.pc ≤ n.pc := h.pc_le hnext (Nat.lt_succ_self i) hxslot.symm hu hn
    have hclass := hbetween n (hnext.mem_uses hn) ((hnext.isOfRun.slot n hn).trans hxslot) hlow hhigh
    exact absurd hclass.symm (hdiffer u hu n hn)
  · exact heq
  · exact absurd (h'.pc_le h hji hslot.symm hu' hu) (not_le.2 hlt)

/-- What is used between two uses of a run is of their class. -/
theorem storageClass_between (h : RunAt uses i run v) (hagree : ClassesAgree uses) (hu : u ∈ run)
    (hu' : u' ∈ run) {z : SlotUse} (hz : z ∈ uses) (hslot : z.slot = v.slot) (hlow : u.pc ≤ z.pc)
    (hhigh : z.pc ≤ u'.pc) : z.storageClass = u.storageClass := by
  obtain ⟨k, runOfZ, x, hk, hzk⟩ := exists_of_mem hz
  have hxslot : x.slot = v.slot := (hk.isOfRun.slot z hzk).symm.trans hslot
  rcases lt_trichotomy k i with hki | rfl | hik
  · have hpc : z.pc = u.pc := (hk.pc_le h hki hxslot hzk hu).antisymm hlow
    exact hagree.one z hz u (h.mem_uses hu) (hslot.trans (h.isOfRun.slot u hu).symm) hpc
  · exact h.storageClass_eq ((hk.unique h).1 ▸ hzk) hu
  · have hpc : z.pc = u'.pc := hhigh.antisymm (h.pc_le hk hik hxslot.symm hu' hzk)
    exact (hagree.one z hz u' (h.mem_uses hu') (hslot.trans (h.isOfRun.slot u' hu').symm) hpc).trans
      (h.storageClass_eq hu' hu)

end RunAt

namespace VariableSources

variable {src : VariableSources} {body : List Stmt}

/-- If storage classes agree, then the last variable that has started at each uncovered use covers it and is
of its class exactly if no known variable starts inside a run. -/
theorem forall_lastCollected_iff (hpcs : ∀ u ∈ src.uncovered body, u.pc < LocalVariable.lastAddress)
    (hagree : ClassesAgree (src.uncovered body)) :
    (∀ u ∈ src.uncovered body, ∃ v, src.lastCollected body u.slot u.pc = some v ∧ v.covers u.pc = true ∧
        StorageClass.ofTy v.type = u.storageClass) ↔
      ∀ w ∈ src.known, ¬w.Interrupts (src.uncovered body) := by
  constructor
  · rintro hlast w hw ⟨u, hu, u', hu', huslot, hu'slot, hlow, hhigh, hbetween⟩
    obtain ⟨i, run, r, hrun, hurun⟩ := RunAt.exists_of_mem hu
    obtain ⟨j, run', r', hrun', hurun'⟩ := RunAt.exists_of_mem hu'
    obtain ⟨v, h, hcovers, -⟩ := hlast u' hu'
    obtain ⟨hvmem, hvslot, -⟩ := mem_of_lastCollected h
    have hv : v.origin = .inferred := inferred_of_covers hu' hvmem hvslot hcovers
    -- The last variable to have started is that of the run which is interrupted, but that one has started
    -- in front of the one that interrupts it.
    obtain ⟨k, run'', hrun'', z, hz, hzpc⟩ := exists_use_of_lastCollected hrun' hurun' h hv
    have hrslot : r.slot = w.slot := (hrun.isOfRun.slot u hurun).symm.trans huslot
    have hslot : r.slot = v.slot := hrslot.trans (hvslot.trans hu'slot).symm
    have heq : i = k := by
      refine hrun.eq_of_between hrun'' hslot hurun hz (hzpc ▸ hlow.trans_le hhigh) fun n hn hnslot hle hge => ?_
      exact hbetween n hn (hnslot.trans hrslot) hle (hge.trans_eq hzpc)
    subst heq
    obtain rfl : r = v := (hrun.unique hrun'').2
    have hstart := start_le_of_lastCollected h (List.mem_append_left _ hw) hu'slot.symm hhigh
    exact lt_irrefl _ (hlow.trans_le (hstart.trans (hrun.isOfRun.range u hurun).1))
  · intro hnone u' hu'
    obtain ⟨i, run, r, hrun, hurun'⟩ := RunAt.exists_of_mem hu'
    obtain ⟨v, h, hstart⟩ := exists_lastCollected hrun hurun'
    obtain ⟨hvmem, hvslot, hvstart⟩ := mem_of_lastCollected h
    have hrslot : r.slot = v.slot := (hrun.isOfRun.slot u' hurun').symm.trans hvslot.symm
    have hv : v.origin = .inferred := by
      by_contra hv
      have hvknown : v ∈ src.known := mem_known_of_mem_collected hvmem hv
      obtain ⟨u, hurun, hupc⟩ := hrun.isOfRun.starts
      have hu := hrun.mem_uses hurun
      have huslot : u.slot = v.slot := (hrun.isOfRun.slot u hurun).trans hrslot
      have hlow : u.pc < v.start := by
        refine (hupc.trans_le hstart).lt_of_ne fun heq => ?_
        have hcovers := LocalVariable.covers_start (length_pos_of_mem_collected hvmem) (heq ▸ hpcs u hu)
        rw [← heq] at hcovers
        exact hv (inferred_of_covers hu hvmem huslot.symm hcovers)
      refine hnone v hvknown ⟨u, hu, u', hu', huslot, hvslot.symm, hlow, hvstart, fun z hz hzslot => ?_⟩
      exact hrun.storageClass_between hagree hurun hurun' hz (hzslot.trans hrslot.symm)
    obtain ⟨k, run', hrun', z, hz, hzpc⟩ := exists_use_of_lastCollected hrun hurun' h hv
    refine ⟨v, h, covers_of_inferred hu' (hpcs u' hu') h hv, ?_⟩
    exact (hrun'.storageClass_type hagree hz).trans (hagree.one z (hrun'.mem_uses hz) u' hu'
      ((hrun'.isOfRun.slot z hz).trans hvslot) hzpc)

end VariableSources

/-! ## Bodies that keep storage classes -/

/-- What became of a use is bound to an inferred variable of the slot and the storage class of the use. -/
def LocalRef.KeepsClass (vars : List LocalVariable) (ref bound : LocalRef) : Prop :=
  ∃ i v, bound.var = some i ∧ vars[i]? = some v ∧ v.origin = .inferred ∧ v.slot = ref.slot ∧
    StorageClass.ofTy v.type = StorageClass.ofTy ref.type

namespace VariableSources

variable (src : VariableSources) (body : List Stmt)

/-- A use is in the range of no parameter and of no row of a table. -/
def IsUncovered (ref : LocalRef) : Prop := ∀ v ∈ src.known, v.slot = ref.slot → v.covers ref.pc = false

/-- Every use in a body that is in no range of a parameter or a row is bound to an inferred variable of the
slot and the storage class that it had. -/
def KeepsClasses : Prop :=
  List.Forall₂ (fun ref bound => src.IsUncovered ref → ref.KeepsClass (src.bind body).locals bound)
    (Node.locals (Stmt.nodesOfList body)) (Node.locals (Stmt.nodesOfList (src.bind body).statements))

variable {src body}

theorem keepsClasses_iff_forall :
    src.KeepsClasses body ↔ ∀ u ∈ src.uncovered body, src.KeepsClassOf body u := by
  obtain ⟨hlength, hbind⟩ := List.forall₂_iff_get.1 (src.forall₂_bind body).2
  rw [KeepsClasses, List.forall₂_iff_get, (src.bind_locals body).1]
  constructor
  -- a reference that no row covers is a use, which is bound to the variable of its run
  · rintro ⟨-, hkeeps⟩ u hu
    obtain ⟨hu, huncovered⟩ := mem_uncovered.1 hu
    obtain ⟨ref, href, hslot, hpc, htype⟩ := Stmt.fromLocals_list body u hu
    obtain ⟨⟨k, hk⟩, rfl⟩ := List.mem_iff_get.1 href
    obtain ⟨-, i, v, hat, heq⟩ := hbind k hk (hlength ▸ hk)
    obtain ⟨i', v', hvar, hget, horigin, -, hclass⟩ := hkeeps k hk (hlength ▸ hk) fun w hw hwslot => by
      rw [← hpc]
      exact huncovered w hw (hwslot.trans hslot.symm)
    rw [heq] at hvar
    obtain rfl : i = i' := Option.some.inj hvar
    obtain rfl : v = v' := Option.some.inj (hat.2.symm.trans hget)
    obtain ⟨x, hbound⟩ := exists_isBoundTo hu
    rw [← hslot, ← hpc] at hat
    obtain rfl := hbound.eq_of_variableAt hat
    exact ⟨v, hbound, horigin, hclass.trans (congrArg StorageClass.ofTy htype.symm)⟩
  · refine fun hkeeps => ⟨hlength, fun k hk hk' huncovered => ?_⟩
    obtain ⟨u, hu, hslot, hpc, htype⟩ := SlotUse.exists_of_mem_locals (List.get_mem _ ⟨k, hk⟩)
    obtain ⟨x, hbound, horigin, hclass⟩ := hkeeps u (mem_uncovered.2 ⟨hu, fun w hw hwslot => by
      rw [hpc]
      exact huncovered w hw (hwslot.trans hslot)⟩)
    obtain ⟨-, i, v, hat, heq⟩ := hbind k hk hk'
    have hvar : VariableAt (src.locals body) u.slot u.pc i v := by rwa [hslot, hpc]
    obtain rfl := hbound.eq_of_variableAt hvar
    refine ⟨i, v, ?_, hat.2, horigin, hbound.slot.trans hslot, ?_⟩
    · rw [heq]
      rfl
    · exact hclass.trans (congrArg StorageClass.ofTy htype)

/-- All uncovered uses keep their storage classes exactly if the last variable of the slot that has started at
each of them covers it and is of its class. Where the classes of the uses fit to each other, that is the
case exactly if no parameter and no row starts inside a run. -/
theorem keepsClasses_iff (hpcs : ∀ u ∈ src.uncovered body, u.pc < LocalVariable.lastAddress) :
    (src.KeepsClasses body ↔
      ∀ u ∈ src.uncovered body, ∃ v, src.lastCollected body u.slot u.pc = some v ∧ v.covers u.pc = true ∧
        StorageClass.ofTy v.type = u.storageClass) ∧
    (ClassesAgree (src.uncovered body) →
      (src.KeepsClasses body ↔ ∀ w ∈ src.known, ¬w.Interrupts (src.uncovered body))) := by
  refine ⟨keepsClasses_iff_forall.trans (forall_keepsClassOf_iff hpcs), fun hagree => ?_⟩
  exact (keepsClasses_iff_forall.trans (forall_keepsClassOf_iff hpcs)).trans (forall_lastCollected_iff hpcs hagree)

/-- A static method with one row in its table of variables: an integer in slot 0, from address 4 to 8. -/
def rowOfX : VariableSources :=
  ⟨⟨#[none, some (.utf8 "x"), some (.utf8 "I")], ∅, ∅, ∅, false⟩, [⟨4, 4, 1, 2, 0⟩], [], [], [], true, 11, true⟩

/-- An object in slot 0, the integer `x`, and then a value of some type that is returned. -/
def reusedSlot (type : Ty) (value : Literal) : List Stmt :=
  let ref (pc : Address) (type : Ty) : Expr := .localVar none ⟨0, pc, "", type, none⟩
  let store (pc : Address) (type : Ty) (value : Literal) : Stmt :=
    .simple (.expr none (.assign none (ref pc type) (.literal none value)))
  [store 2 .object .null, store 4 .int (.int 0 none), store 10 type value,
    .simple (.return none (some (ref 10 type)))]

/-- Two variables of different classes are kept apart, whatever is between them. -/
theorem keepsClasses_iff_otherClass : rowOfX.KeepsClasses (reusedSlot .int (.int 1 none)) := by
  have huses : rowOfX.uncovered (reusedSlot .int (.int 1 none)) =
      [⟨0, 2, .object, some .null, false⟩, ⟨0, 10, .int, some .int, false⟩, ⟨0, 10, .int, none, false⟩] := by cbv
  have hknown : rowOfX.known = [⟨0, 4, 4, some 1, none, "x", .int, none, 0, .table⟩] := by cbv
  have hpcs : ∀ u ∈ rowOfX.uncovered (reusedSlot .int (.int 1 none)), u.pc < LocalVariable.lastAddress := by
    rw [huses]
    decide
  have hagree : ClassesAgree (rowOfX.uncovered (reusedSlot .int (.int 1 none))) := by
    rw [huses]
    exact ⟨by decide, by decide, by decide⟩
  refine ((keepsClasses_iff hpcs).2 hagree).2 ?_
  rw [huses, hknown]
  decide

/-- An object behind `x` is of the run that `x` interrupts, and is bound to `x`. -/
theorem not_keepsClasses_sameClass : ¬rowOfX.KeepsClasses (reusedSlot .object .null) := by
  intro h
  have hbefore : Node.locals (Stmt.nodesOfList (reusedSlot .object .null)) =
      [⟨0, 2, "", .object, none⟩, ⟨0, 4, "", .int, none⟩, ⟨0, 10, "", .object, none⟩,
        ⟨0, 10, "", .object, none⟩] := by rfl
  have hafter : Node.locals (Stmt.nodesOfList (rowOfX.bind (reusedSlot .object .null)).statements) =
      [⟨0, 2, "obj0", .object, some 0⟩, ⟨0, 4, "x", .int, some 1⟩, ⟨0, 10, "x", .int, some 1⟩,
        ⟨0, 10, "x", .int, some 1⟩] := by cbv
  have hvars : (rowOfX.bind (reusedSlot .object .null)).locals =
      [⟨0, 2, 2, none, none, "obj0", .object, none, 0, .inferred⟩,
        ⟨0, 4, 4, some 1, none, "x", .int, none, 0, .table⟩] := by cbv
  have hknown : rowOfX.known = [⟨0, 4, 4, some 1, none, "x", .int, none, 0, .table⟩] := by cbv
  rw [KeepsClasses, hbefore, hafter, hvars] at h
  have huncovered : rowOfX.IsUncovered ⟨0, 10, "", .object, none⟩ := by
    rw [IsUncovered, hknown]
    decide
  obtain _ | ⟨-, _ | ⟨-, _ | ⟨hkeeps, -⟩⟩⟩ := h
  obtain ⟨i, v, hi, hv, horigin, -⟩ := hkeeps huncovered
  obtain rfl : 1 = i := Option.some.inj hi
  obtain rfl := Option.some.inj hv
  exact absurd horigin (by decide)

end VariableSources

end JvmDecompiler
