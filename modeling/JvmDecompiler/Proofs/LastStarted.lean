import JvmDecompiler.Proofs.VariableTable

/-!
# The last variable that has started

Variables are made disjoint in the order of their starts, and one that goes on behind the start of the next
one of its slot is cut there. So what is at an address is left of the last variable that has started, or there
is nothing: a variable that another one has cut does not come back behind it, also where the other one has
ended (`VariableSources.find?_makeDisjoint`).
-/

namespace JvmDecompiler

open LocalVariable (StartsBefore)

/-! ## The last variable that has started -/

namespace LocalVariable

/-- Whether a variable is one of a slot that has started at an address. -/
def hasStarted (slot : UInt16) (pc : Address) (v : LocalVariable) : Bool := v.slot = slot && v.start ≤ pc

/-- What stays of a variable that is made disjoint with others and renamed. -/
def kept (v : LocalVariable) : LocalVariable := { v with name := "", length := 0 }

variable {v w : LocalVariable} {slot : UInt16} {pc : Address}

theorem hasStarted_iff : v.hasStarted slot pc = true ↔ v.slot = slot ∧ v.start ≤ pc := by
  simp [hasStarted]

/-- A variable of which the same stays is of the same slot, start, type and origin. -/
theorem eq_of_kept (h : v.kept = w.kept) :
    v.slot = w.slot ∧ v.start = w.start ∧ v.type = w.type ∧ v.origin = w.origin := by
  simp only [kept, mk.injEq] at h
  exact ⟨h.1, h.2.1, h.2.2.2.2.2.2.1, h.2.2.2.2.2.2.2.2.2⟩

end LocalVariable

open LocalVariable (hasStarted kept)

/-- The last of some variables that is one of a slot and has started at an address. -/
def lastStarted (vars : List LocalVariable) (slot : UInt16) (pc : Address) : Option LocalVariable :=
  vars.reverse.find? (hasStarted slot pc)

section LastStarted

variable {vars : List LocalVariable} {slot : UInt16} {pc : Address} {v : LocalVariable}

theorem lastStarted_eq_some_iff : lastStarted vars slot pc = some v ↔ v.hasStarted slot pc = true ∧
    ∃ before after, vars = before ++ v :: after ∧ ∀ w ∈ after, w.hasStarted slot pc = false := by
  rw [lastStarted, List.find?_eq_some_iff_append]
  refine and_congr_right fun _ => ⟨?_, ?_⟩
  · rintro ⟨after, before, hsplit, hafter⟩
    refine ⟨before.reverse, after.reverse, ?_, fun w hw => by simpa using hafter w (List.mem_reverse.1 hw)⟩
    rw [← List.reverse_reverse vars, hsplit, List.reverse_append, List.reverse_cons, List.append_assoc,
      List.singleton_append]
  · rintro ⟨before, after, rfl, hafter⟩
    refine ⟨after.reverse, before.reverse, ?_, fun w hw => by simpa using hafter w (List.mem_reverse.1 hw)⟩
    rw [List.reverse_append, List.reverse_cons, List.append_assoc, List.singleton_append]

theorem mem_of_lastStarted (h : lastStarted vars slot pc = some v) :
    v ∈ vars ∧ v.slot = slot ∧ v.start ≤ pc := by
  obtain ⟨hstarted, before, after, rfl, -⟩ := lastStarted_eq_some_iff.1 h
  exact ⟨List.mem_append_right _ List.mem_cons_self, LocalVariable.hasStarted_iff.1 hstarted⟩

/-- A variable that is the last one to have started is so since its start. -/
theorem lastStarted_of_le (h : lastStarted vars slot pc = some v) {pc' : Address} (hstart : v.start ≤ pc')
    (hle : pc' ≤ pc) : lastStarted vars slot pc' = some v := by
  rw [lastStarted_eq_some_iff] at h ⊢
  obtain ⟨hstarted, before, after, hvars, hafter⟩ := h
  refine ⟨LocalVariable.hasStarted_iff.2 ⟨(LocalVariable.hasStarted_iff.1 hstarted).1, hstart⟩, before, after,
    hvars, fun w hw => ?_⟩
  have hnot := hafter w hw
  rw [Bool.eq_false_iff, Ne, LocalVariable.hasStarted_iff] at hnot ⊢
  exact fun ⟨hslot, hle'⟩ => hnot ⟨hslot, hle'.trans hle⟩

/-- Of variables in the order of their starts, the last one of a slot that has started has started no
earlier than any other one. -/
theorem start_le_of_lastStarted (hsorted : vars.Pairwise StartsBefore) (h : lastStarted vars slot pc = some v)
    {w : LocalVariable} (hw : w ∈ vars) (hwstarted : w.hasStarted slot pc = true) : w.start ≤ v.start := by
  obtain ⟨hstarted, before, after, rfl, hafter⟩ := lastStarted_eq_some_iff.1 h
  rcases List.mem_append.1 hw with hw | hw
  · have hslot : w.slot = v.slot := (LocalVariable.hasStarted_iff.1 hwstarted).1.trans
      (LocalVariable.hasStarted_iff.1 hstarted).1.symm
    rcases (List.pairwise_append.1 hsorted).2.2 w hw v List.mem_cons_self with hlt | ⟨-, hle⟩
    · exact absurd (hslot ▸ hlt) (UInt16.lt_irrefl _)
    · exact hle
  · rcases List.mem_cons.1 hw with rfl | hw
    · exact le_rfl
    · exact absurd hwstarted (by rw [hafter w hw]; exact Bool.false_ne_true)

theorem exists_lastStarted {w : LocalVariable} (hw : w ∈ vars) (hwstarted : w.hasStarted slot pc = true) :
    ∃ v, lastStarted vars slot pc = some v :=
  Option.isSome_iff_exists.1 (List.find?_isSome.2 ⟨w, List.mem_reverse.2 hw, hwstarted⟩)

end LastStarted

/-! ## What is left of variables that are made disjoint -/

section Separate

variable {settled rest : List LocalVariable} {slot : UInt16} {pc : Address}

/-- Of variables that are disjoint, one that covers an address is the last one to have started there. -/
theorem find?_covers_of_disjoint (h : settled.Pairwise fun w v => LocalVariable.Before v w) :
    (settled.reverse.find? fun v => v.slot = slot && v.covers pc) =
      (settled.find? (hasStarted slot pc)).filter (·.covers pc) := by
  induction settled with
  | nil => rfl
  | cons v settled ih =>
    obtain ⟨hv, hdisjoint⟩ := List.pairwise_cons.1 h
    rw [List.reverse_cons, List.find?_append, List.find?_singleton, List.find?_cons]
    cases hstarted : v.hasStarted slot pc with
    | true =>
      obtain ⟨hslot, hstart⟩ := LocalVariable.hasStarted_iff.1 hstarted
      -- The earlier ones end before this one starts.
      have hnone : (settled.reverse.find? fun v => v.slot = slot && v.covers pc) = none := by
        rw [List.find?_eq_none]
        intro w hw hcovers
        rw [Bool.and_eq_true, decide_eq_true_eq, LocalVariable.covers_iff] at hcovers
        rcases hv w (List.mem_reverse.1 hw) with hlt | ⟨-, hle⟩
        · rw [hcovers.1, hslot] at hlt
          exact UInt16.lt_irrefl _ hlt
        · exact lt_irrefl _ (hcovers.2.2.trans_le (hle.trans hstart))
      rw [hnone, Option.none_or, decide_eq_true hslot, Bool.true_and]
      rfl
    | false =>
      have hcovers : ¬(decide (v.slot = slot) && v.covers pc) = true := by
        rw [Bool.eq_false_iff, Ne, LocalVariable.hasStarted_iff] at hstarted
        rw [Bool.and_eq_true, decide_eq_true_eq, LocalVariable.covers_iff]
        intro hcovers
        exact hstarted ⟨hcovers.1, hcovers.2.1⟩
      rw [if_neg hcovers, Option.or_none, ih hdisjoint]

/-- The settled variables go backwards. -/
theorem lastStarted_settled (settled rest : List LocalVariable) :
    lastStarted (settled.reverse ++ rest) slot pc =
      (rest.reverse.find? (hasStarted slot pc)).or (settled.find? (hasStarted slot pc)) := by
  rw [lastStarted, List.reverse_append, List.reverse_reverse, List.find?_append]

/-- Where a variable has not started, one of its slot that overlaps it may as well end at its start. -/
theorem find?_cut {prev v : LocalVariable} (hslot : prev.slot = v.slot) (hstart : prev.start ≤ v.start)
    (hstop : v.start < prev.stop) (settled : List LocalVariable) :
    let length : Nat := v.start - prev.start
    (((if length = 0 then v :: settled else v :: { prev with length } :: settled).find?
        (hasStarted slot pc)).filter (·.covers pc)).map kept =
      (((v :: prev :: settled).find? (hasStarted slot pc)).filter (·.covers pc)).map kept := by
  intro length
  cases hv : v.hasStarted slot pc with
  | true => split <;> rw [List.find?_cons_of_pos hv, List.find?_cons_of_pos hv]
  | false =>
    have hv : ¬v.hasStarted slot pc = true := Bool.eq_false_iff.1 hv
    rw [List.find?_cons_of_neg hv]
    by_cases hprev : prev.hasStarted slot pc = true
    · -- The next variable starts later, and both the whole and the rest of this one reach up to its start.
      obtain ⟨hprevslot, hprevstart⟩ := LocalVariable.hasStarted_iff.1 hprev
      have hlt : pc < v.start := by
        rw [LocalVariable.hasStarted_iff] at hv
        exact not_le.1 fun hle => hv ⟨hslot.symm.trans hprevslot, hle⟩
      have hlength : length ≠ 0 := (Nat.sub_pos_of_lt (hprevstart.trans_lt hlt)).ne'
      have hcut : ({ prev with length } : LocalVariable).covers pc = true := by
        refine LocalVariable.covers_iff.2 ⟨hprevstart, Nat.lt_min.2 ⟨?_, ?_⟩⟩
        · exact hlt.trans_eq (Nat.add_sub_cancel' hstart).symm
        · exact (hlt.trans hstop).trans_le (min_le_right _ _)
      have hwhole : prev.covers pc = true := LocalVariable.covers_iff.2 ⟨hprevstart, hlt.trans hstop⟩
      have hcutstarted : ({ prev with length } : LocalVariable).hasStarted slot pc = true := hprev
      rw [if_neg hlength, List.find?_cons_of_neg hv, List.find?_cons_of_pos hcutstarted,
        List.find?_cons_of_pos hprev, Option.filter_some, Option.filter_some, if_pos hcut, if_pos hwhole]
      rfl
    · have hcutstarted : ¬({ prev with length } : LocalVariable).hasStarted slot pc = true := hprev
      rw [List.find?_cons_of_neg hprev]
      split
      · rw [List.find?_cons_of_neg hv]
      · rw [List.find?_cons_of_neg hv, List.find?_cons_of_neg hcutstarted]

/-- The variable that covers an address when variables are made disjoint is what is left of the last one
that has started there, if that one covers the address. -/
theorem Separating.find?_separate (h : Separating settled rest) :
    ((separate settled rest).find? fun v => v.slot = slot && v.covers pc).map kept =
      ((lastStarted (settled.reverse ++ rest) slot pc).filter (·.covers pc)).map kept := by
  induction settled, rest using separate.induct with
  | case1 settled =>
    rw [separate, find?_covers_of_disjoint h.disjoint, lastStarted_settled]
    rfl
  | case2 v rest ih =>
    rw [separate, ih (h.push (by simp))]
    rfl
  | case3 prev settled v rest hdisjoint ih =>
    have hbefore : prev.Before v := h.before_of_not_overlaps (by simpa using hdisjoint)
    rw [separate, if_pos hdisjoint, ih (h.push (by rintro _ ⟨⟩; exact hbefore)), List.reverse_cons,
      List.append_assoc]
    rfl
  | case4 prev settled v rest hoverlap hlater =>
    exact absurd hlater (h.not_overlaps_inferred (by simpa using hoverlap))
  | case5 prev settled v rest hoverlap hlater prev' ih =>
    obtain ⟨⟨hslot, -⟩, hstop⟩ : (prev.slot = v.slot ∧ prev.start < v.stop) ∧ v.start < prev.stop := by
      simpa [LocalVariable.overlaps] using hoverlap
    have hmove : (prev :: settled).reverse ++ v :: rest = (v :: prev :: settled).reverse ++ rest := by
      rw [List.reverse_cons (a := v), List.append_assoc, List.singleton_append]
    rw [separate, if_neg hoverlap, if_neg hlater, ih (h.cut hslot hstop), hmove, lastStarted_settled,
      lastStarted_settled]
    -- Only the last settled variable is cut. It matters only where the next one has not started.
    cases rest.reverse.find? (hasStarted slot pc) with
    | some w => rfl
    | none =>
      rw [Option.none_or, Option.none_or]
      exact find?_cut hslot (h.start_le hslot) hstop settled

/-- What variables that are made disjoint leave comes from them, and at most ends earlier. -/
theorem Separating.exists_eq_of_mem (h : Separating settled rest) {w : LocalVariable}
    (hw : w ∈ separate settled rest) :
    ∃ v ∈ settled ++ rest, { v with length := 0 } = { w with length := 0 } := by
  induction settled, rest using separate.induct with
  | case1 settled =>
    rw [separate, List.mem_reverse] at hw
    exact ⟨w, List.mem_append_left _ hw, rfl⟩
  | case2 v rest ih =>
    rw [separate] at hw
    exact ih (h.push (by simp)) hw
  | case3 prev settled v rest hdisjoint ih =>
    have hbefore : prev.Before v := h.before_of_not_overlaps (by simpa using hdisjoint)
    rw [separate, if_pos hdisjoint] at hw
    obtain ⟨u, hu, hsame⟩ := ih (h.push (by rintro _ ⟨⟩; exact hbefore)) hw
    exact ⟨u, List.perm_middle.mem_iff.2 hu, hsame⟩
  | case4 prev settled v rest hoverlap hlater =>
    exact absurd hlater (h.not_overlaps_inferred (by simpa using hoverlap))
  | case5 prev settled v rest hoverlap hlater prev' ih =>
    obtain ⟨⟨hslot, -⟩, hstop⟩ : (prev.slot = v.slot ∧ prev.start < v.stop) ∧ v.start < prev.stop := by
      simpa [LocalVariable.overlaps] using hoverlap
    rw [separate, if_neg hoverlap, if_neg hlater] at hw
    obtain ⟨u, hu, hsame⟩ := ih (h.cut hslot hstop) hw
    have hu : u = prev' ∨ u ∈ prev :: settled ++ v :: rest := by
      split at hu <;> simp only [List.cons_append, List.mem_cons, List.mem_append] at hu ⊢ <;> tauto
    rcases hu with rfl | hu
    · exact ⟨prev, List.mem_append_left _ List.mem_cons_self, hsame⟩
    · exact ⟨u, hu, hsame⟩

end Separate

namespace VariableSources

variable {src : VariableSources} {body : List Stmt} {slot : UInt16} {pc : Address} {v w : LocalVariable}

/-- The variables of a method are those that were made disjoint, with other names. -/
theorem exists_mem_makeDisjoint (hw : w ∈ src.locals body) :
    ∃ v ∈ makeDisjoint (src.collected body), { v with name := "" } = { w with name := "" } := by
  have hmem := List.mem_map_of_mem (f := fun v : LocalVariable => { v with name := "" })
    ((src.locals_perm body).mem_iff.1 hw)
  rw [src.map_unordered body fun _ _ => rfl] at hmem
  exact List.mem_map.1 hmem

theorem exists_mem_locals (hv : v ∈ makeDisjoint (src.collected body)) :
    ∃ w ∈ src.locals body, { w with name := "" } = { v with name := "" } := by
  have hmem := List.mem_map_of_mem (f := fun v : LocalVariable => { v with name := "" }) hv
  rw [← src.map_unordered body fun _ _ => rfl] at hmem
  obtain ⟨w, hw, heq⟩ := List.mem_map.1 hmem
  exact ⟨w, (src.locals_perm body).mem_iff.2 hw, heq⟩

/-- Every variable of a method comes from one that was collected. -/
theorem exists_mem_collected (hw : w ∈ src.locals body) : ∃ v ∈ src.collected body, v.kept = w.kept := by
  obtain ⟨x, hx, hname⟩ := exists_mem_makeDisjoint hw
  obtain ⟨v, hv, hsame⟩ := (src.separating_collected body).exists_eq_of_mem hx
  have hkept : v.kept = x.kept := congrArg (fun x => { x with name := "" }) hsame
  exact ⟨v, mem_inStartOrder.1 hv, hkept.trans (congrArg (fun x => { x with length := 0 }) hname)⟩

variable (src body) in
/-- The last of the collected variables that is one of a slot and has started at an address. -/
def lastCollected (slot : UInt16) (pc : Address) : Option LocalVariable :=
  lastStarted (inStartOrder (src.collected body)) slot pc

theorem find?_makeDisjoint :
    ((makeDisjoint (src.collected body)).find? fun v => v.slot = slot && v.covers pc).map kept =
      ((src.lastCollected body slot pc).filter (·.covers pc)).map kept :=
  (src.separating_collected body).find?_separate

/-- If the last collected variable that has started covers an address, then what is left of it is the variable
there. -/
theorem exists_mem_locals_of_lastCollected (h : src.lastCollected body slot pc = some v)
    (hcovers : v.covers pc = true) :
    ∃ w ∈ src.locals body, w.slot = slot ∧ w.covers pc = true ∧ w.kept = v.kept := by
  have hfind := @find?_makeDisjoint src body slot pc
  rw [h, Option.filter_some, if_pos hcovers, Option.map_some, Option.map_eq_some_iff] at hfind
  obtain ⟨x, hx, hkept⟩ := hfind
  have hxcovers := List.find?_some hx
  rw [Bool.and_eq_true, decide_eq_true_eq] at hxcovers
  obtain ⟨w, hw, hname⟩ := exists_mem_locals (List.mem_of_find?_eq_some hx)
  refine ⟨w, hw, (congrArg LocalVariable.slot hname).trans hxcovers.1, ?_, ?_⟩
  · exact (congrArg (LocalVariable.covers · pc) hname).trans hxcovers.2
  · exact (congrArg (fun x : LocalVariable => { x with length := 0 }) hname).trans hkept

end VariableSources

end JvmDecompiler
