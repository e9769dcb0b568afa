import JvmDecompiler.Proofs.BoundUses
import JvmDecompiler.Proofs.LastStarted
import JvmDecompiler.Proofs.ParameterSlots

/-!
# Parameters in declarations and in bodies

The declaration of a method and the variables of its body agree on the parameters, up to their names. If the
slots of the parameters fit, then the slot of each one has exactly one variable that is a parameter, and that is
of the declared type (`ClassFile.parameter_of_body`).

* Of the variables that are collected, the one of a parameter is the only one of its slot that is there from the
  start (`eq_parameter_of_mem_collected`): the slots of parameters go upwards, rows that describe the start of
  one are left out, and an inferred variable starts where nothing known is. So it is not cut away when the
  variables are made disjoint.
* A variable loses its name only if an earlier one of another type has the name, and then has it with a number
  behind it (`exists_of_mem_renameConflictsFrom`). Earlier is a variable in a lower slot, whenever it starts, and
  parameters are no exception. So a variable that takes over the slot of a parameter can take the name of a later
  parameter, and the body then calls that one by a name that the declaration does not have
  (`not_parameter_of_body_named`).
-/

namespace JvmDecompiler

open LocalVariable (kept)

/-! ## The slots of parameters go upwards -/

namespace Ty

/-- Every type takes at least one slot. -/
theorem width_pos (t : Ty) : 0 < t.width.toNat := by
  rw [width]
  split <;> decide

/-- A later parameter has a higher slot. -/
theorem slotNumber_take_lt {first i j : Nat} {ts : List Ty} (hi : i < ts.length) (hij : i < j) :
    slotNumber first (ts.take i) < slotNumber first (ts.take j) := by
  have hnext : slotNumber first (ts.take (i + 1)) = slotNumber first (ts.take i) + ts[i].width.toNat := by
    rw [List.take_succ_eq_append_getElem hi, slotNumber_append, slotNumber_cons, slotNumber_nil]
  have hle : slotNumber first (ts.take (i + 1)) ≤ slotNumber first (ts.take j) := by
    have htake : (ts.take j).take (i + 1) = ts.take (i + 1) := by rw [List.take_take, Nat.min_eq_left hij]
    rw [← htake]
    exact slotNumber_take_le ..
  have hpos := width_pos ts[i]
  omega

end Ty

namespace VariableSources

variable (src : VariableSources) (body : List Stmt)

/-- The slot of the parameter at a position. -/
def parameterSlot (i : Nat) : UInt16 := Ty.slotsEnd src.firstSlot (src.parameters.take i)

/-- The number of the slot behind the parameters is in the range of slots. -/
def Fits : Prop := Ty.slotNumber src.firstSlot.toNat src.parameters < 2 ^ 16

variable {src body} {i j : Nat} {t : Ty} {v w : LocalVariable}

/-- If all slots fit, a parameter is in the slot that is counted for it. -/
theorem Fits.toNat_parameterSlot (h : src.Fits) (i : Nat) :
    (src.parameterSlot i).toNat = Ty.slotNumber src.firstSlot.toNat (src.parameters.take i) := by
  rw [parameterSlot, Ty.toNat_slotsEnd]
  exact Nat.mod_eq_of_lt (Nat.lt_of_le_of_lt (Ty.slotNumber_take_le ..) h)

/-- If all slots fit, a later parameter is in a higher slot. -/
theorem Fits.parameterSlot_lt (h : src.Fits) (hi : i < src.parameters.length) (hij : i < j) :
    src.parameterSlot i < src.parameterSlot j := by
  rw [UInt16.lt_iff_toNat_lt, h.toNat_parameterSlot, h.toNat_parameterSlot]
  exact Ty.slotNumber_take_lt hi hij

/-- If all slots fit, no two parameters share one. -/
theorem Fits.eq_of_parameterSlot_eq (h : src.Fits) (hi : i < src.parameters.length)
    (hj : j < src.parameters.length) (heq : src.parameterSlot i = src.parameterSlot j) : i = j := by
  rcases Nat.lt_trichotomy i j with hlt | hij | hlt
  · exact absurd (heq ▸ h.parameterSlot_lt hi hlt) (UInt16.lt_irrefl _)
  · exact hij
  · exact absurd (heq ▸ h.parameterSlot_lt hj hlt) (UInt16.lt_irrefl _)

/-! ## What is in the slot of a parameter at the start -/

/-- The variables of parameters are made of the parameters. -/
theorem exists_parameter_of_mem_parameterVariables (h : v ∈ src.parameterVariables) :
    ∃ i t, src.parameters[i]? = some t ∧ v = src.parameter i (src.parameterSlot i) t := by
  obtain ⟨i, hi⟩ := List.mem_iff_getElem?.1 h
  rw [getElem?_parameterVariables, Option.map_eq_some_iff] at hi
  obtain ⟨t, ht, rfl⟩ := hi
  exact ⟨i, t, ht, rfl⟩

/-- Every parameter has a variable. -/
theorem parameter_mem_parameterVariables (hi : src.parameters[i]? = some t) :
    src.parameter i (src.parameterSlot i) t ∈ src.parameterVariables := by
  refine List.mem_of_getElem? (i := i) ?_
  rw [getElem?_parameterVariables, hi]
  rfl

/-- It is among the variables that are collected. -/
theorem parameter_mem_collected (hi : src.parameters[i]? = some t) :
    src.parameter i (src.parameterSlot i) t ∈ src.collected body :=
  List.mem_append_left _ (List.mem_append_left _ (parameter_mem_parameterVariables hi))

/-- A parameter covers the start of the method. -/
theorem covers_parameter (position : Nat) (slot : UInt16) (type : Ty) :
    (src.parameter position slot type).covers 0 = true := by
  have hlength : 0 < (src.parameter position slot type).length :=
    Nat.lt_of_lt_of_le Nat.one_pos (Nat.le_max_right _ _)
  exact LocalVariable.covers_start hlength (show 0 < LocalVariable.lastAddress by decide)

/-- The variable of a parameter is the only one that is in its slot from the start. -/
theorem Fits.eq_parameter_of_mem_collected (h : src.Fits) (hi : src.parameters[i]? = some t)
    (hv : v ∈ src.collected body) (hslot : v.slot = src.parameterSlot i) (hstart : v.start = 0) :
    v = src.parameter i (src.parameterSlot i) t := by
  have hlt : i < src.parameters.length := (List.getElem?_eq_some_iff.1 hi).1
  rcases List.mem_append.1 hv with hknown | hinferred
  · rcases List.mem_append.1 hknown with hparameter | htable
    · obtain ⟨j, u, hj, rfl⟩ := exists_parameter_of_mem_parameterVariables hparameter
      obtain rfl := h.eq_of_parameterSlot_eq (List.getElem?_eq_some_iff.1 hj).1 hlt hslot
      rw [Option.some.inj (hj.symm.trans hi)]
    · obtain ⟨-, row, -, hkept, hsame⟩ := src.exists_row_of_mem_tableVariables htable
      have hrowslot : v.slot = row.slot := congrArg LocalVariable.slot hsame
      have hrowstart : v.start = row.start.toNat := congrArg LocalVariable.start hsame
      have hbelow := h.parameterSlot_lt hlt hlt
      rw [← hslot, hrowslot, parameterSlot, List.take_length] at hbelow
      exact absurd (UInt16.toNat_inj.1 (hrowstart.symm.trans hstart : _ = (0 : UInt16).toNat)) (hkept hbelow)
  · obtain ⟨-, -, u, hu, huslot, hupc⟩ := of_mem_inferredVariables hinferred
    have hnot := (mem_uncovered.1 hu).2 _ (List.mem_append_left _ (parameter_mem_parameterVariables hi))
      (hslot.symm.trans huslot.symm)
    rw [hupc, hstart, covers_parameter] at hnot
    cases hnot

/-- If all slots fit, the parameter is the variable of its slot at the start of the method. -/
theorem Fits.lastCollected_parameter (h : src.Fits) (hi : src.parameters[i]? = some t) :
    src.lastCollected body (src.parameterSlot i) 0 = some (src.parameter i (src.parameterSlot i) t) := by
  have hmem : src.parameter i (src.parameterSlot i) t ∈ inStartOrder (src.collected body) :=
    mem_inStartOrder.2 (parameter_mem_collected hi)
  obtain ⟨v, hv⟩ := exists_lastStarted hmem (LocalVariable.hasStarted_iff.2 ⟨rfl, le_rfl⟩)
  obtain ⟨hcollected, hslot, hstart⟩ := mem_of_lastStarted hv
  rw [← h.eq_parameter_of_mem_collected hi (mem_inStartOrder.1 hcollected) hslot (Nat.le_zero.1 hstart)]
  exact hv

/-- Every parameter is a variable of the body. -/
theorem Fits.exists_mem_locals (h : src.Fits) (hi : src.parameters[i]? = some t) :
    ∃ v ∈ src.locals body, v.kept = (src.parameter i (src.parameterSlot i) t).kept := by
  obtain ⟨v, hv, -, -, hkept⟩ :=
    exists_mem_locals_of_lastCollected (h.lastCollected_parameter hi) (covers_parameter ..)
  exact ⟨v, hv, hkept⟩

/-- A parameter is there from the start. -/
theorem covers_of_isParameter (hv : v ∈ src.locals body) (hparameter : v.isParameter = true) :
    v.covers 0 = true := by
  obtain ⟨u, hu, hkept⟩ := exists_mem_collected hv
  obtain ⟨-, hstart, -, horigin⟩ := LocalVariable.eq_of_kept hkept
  have hu' : u.origin = .parameter := horigin.trans (by simpa [LocalVariable.isParameter] using hparameter)
  have hknown : u ∈ src.known := mem_known_of_mem_collected hu (by rw [hu']; decide)
  have hustart : u.start = 0 := by
    rcases List.mem_append.1 hknown with hmem | hmem
    · obtain ⟨i, t, -, rfl⟩ := exists_parameter_of_mem_parameterVariables hmem
      rfl
    · exact absurd ((src.of_mem_tableVariables hmem).2.symm.trans hu') (by decide)
  have hvstart : v.start = 0 := hstart.symm.trans hustart
  have hcovers := LocalVariable.covers_start ((src.table_locals body).2.1 v hv) (by rw [hvstart]; decide)
  rwa [hvstart] at hcovers

end VariableSources

/-- Of variables with disjoint ranges, one is chosen if only such are that cover an address in one slot. -/
theorem filter_eq_singleton_of_covers {vars : List LocalVariable} {p : LocalVariable → Bool} {pc : Address}
    (hdisjoint : vars.Pairwise LocalVariable.Apart)
    (hp : ∀ v ∈ vars, ∀ w ∈ vars, p v → p w → v.slot = w.slot) (hcovers : ∀ v ∈ vars, p v → v.covers pc)
    {v : LocalVariable} (hv : v ∈ vars) (hpv : p v) : vars.filter p = [v] := by
  have hmem : v ∈ vars.filter p := List.mem_filter.2 ⟨hv, hpv⟩
  -- two chosen variables would be apart, and both cover the address
  rcases hchosen : vars.filter p with _ | ⟨a, _ | ⟨b, rest⟩⟩
  · rw [hchosen] at hmem
    cases hmem
  · rw [hchosen, List.mem_singleton] at hmem
    rw [hmem]
  · have hall : ∀ w ∈ a :: b :: rest, w ∈ vars ∧ p w := by
      intro w hw
      rw [← hchosen] at hw
      exact List.mem_filter.1 hw
    obtain ⟨ha, hpa⟩ := hall a List.mem_cons_self
    obtain ⟨hb, hpb⟩ := hall b (List.mem_cons_of_mem _ List.mem_cons_self)
    obtain ⟨hastart, hastop⟩ := LocalVariable.covers_iff.1 (hcovers a ha hpa)
    obtain ⟨hbstart, hbstop⟩ := LocalVariable.covers_iff.1 (hcovers b hb hpb)
    have hapart : a.Apart b := by
      have hpairwise := hdisjoint.filter p
      rw [hchosen] at hpairwise
      exact (List.pairwise_cons.1 hpairwise).1 b List.mem_cons_self
    rcases hapart (hp a ha b hb hpa hpb) with hle | hle
    · exact absurd (hle.trans hbstart) (not_le.2 hastop)
    · exact absurd (hle.trans hastart) (not_le.2 hbstop)

/-! ## Names that are kept -/

/-- A variable has its name, or has it with a number behind it because it is the name of another type. -/
def LocalVariable.IsNamed (named : List (String × Ty)) (name : String) (v : LocalVariable) : Prop :=
  v.name = name ∨ (∃ k, 2 ≤ k ∧ v.name = s!"{name}{k}") ∧ ∃ q ∈ named, q.1 = name ∧ q.2 ≠ v.type

/-- More names leave a variable named as it is. -/
theorem LocalVariable.IsNamed.subset {named named' : List (String × Ty)} {name : String} {v : LocalVariable}
    (h : v.IsNamed named name) (hsub : named ⊆ named') : v.IsNamed named' name :=
  h.imp_right fun ⟨hnumber, q, hq, hother⟩ => ⟨hnumber, q, hsub hq, hother⟩

/-- Renaming changes the name of a variable only if the name was seen before with another type. -/
theorem exists_of_mem_renameConflictsFrom {taken : List String} {seen : List (String × Ty)}
    {vars : List LocalVariable} {w : LocalVariable} (hw : w ∈ renameConflictsFrom taken seen vars) :
    ∃ v ∈ vars, { v with name := "" } = { w with name := "" } ∧
      w.IsNamed (seen ++ (renameConflictsFrom taken seen vars).map LocalVariable.named) v.name := by
  -- the names taken so far grow, so that what a variable is named by stays among them
  induction vars generalizing taken seen with
  | nil => cases hw
  | cons v vars ih =>
    rw [renameConflictsFrom] at hw ⊢
    split at hw
    -- the name is another type's: `v` gets it with a number behind it
    · rename_i hconflict
      rw [if_pos hconflict]
      rcases List.mem_cons.1 hw with rfl | hw
      · rw [Bool.and_eq_true, List.any_eq_true] at hconflict
        obtain ⟨⟨q, hq, hname⟩, hnew⟩ := hconflict
        rw [decide_eq_true_eq] at hname
        obtain ⟨k, hk, hfresh, -⟩ := exists_freshName taken v.name
        refine ⟨v, List.mem_cons_self, rfl, .inr ⟨⟨k, hk, hfresh⟩, q, List.mem_append_left _ hq, hname, ?_⟩⟩
        rintro (htype : q.2 = v.type)
        have hsame : q = (v.name, v.type) := Prod.ext hname htype
        simp [← hsame, hq] at hnew
      · obtain ⟨u, hu, hsame, hnamed⟩ := ih hw
        exact ⟨u, List.mem_cons_of_mem _ hu, hsame, hnamed.subset List.perm_middle.symm.subset⟩
    · rename_i hconflict
      rw [if_neg hconflict]
      rcases List.mem_cons.1 hw with rfl | hw
      · exact ⟨w, List.mem_cons_self, rfl, .inl rfl⟩
      · obtain ⟨u, hu, hsame, hnamed⟩ := ih hw
        exact ⟨u, List.mem_cons_of_mem _ hu, hsame, hnamed.subset List.perm_middle.symm.subset⟩

namespace VariableSources

variable {src : VariableSources} {body : List Stmt} {i : Nat} {t : Ty} {v w : LocalVariable}

/-- Every variable of a method comes from one that was collected, and has its name unless that is the name of a
variable of another type. -/
theorem exists_named_of_mem_locals (hw : w ∈ src.locals body) : ∃ v ∈ src.collected body,
    v.kept = w.kept ∧ w.IsNamed ((src.locals body).map LocalVariable.named) v.name := by
  obtain ⟨x, hx, hsame, hnamed⟩ := exists_of_mem_renameConflictsFrom ((src.locals_perm body).mem_iff.1 hw)
  obtain ⟨v, hv, hcut⟩ := (src.separating_collected body).exists_eq_of_mem hx
  have hname : v.name = x.name := (congrArg LocalVariable.name hcut :)
  have hkept : v.kept = x.kept := congrArg (fun x => { x with name := "" }) hcut
  refine ⟨v, mem_inStartOrder.1 hv, hkept.trans (congrArg (fun x => { x with length := 0 }) hsame), ?_⟩
  rw [hname]
  exact hnamed.subset ((src.locals_perm body).map _).symm.subset

end VariableSources

/-- Of some variables, `v` is the only parameter in a slot. It is of the given type. It has the given name if no
variable of another type has it, and else has it with a number behind it. -/
structure IsParameterOf (vars : List LocalVariable) (slot : UInt16) (name : String) (type : Ty)
    (v : LocalVariable) : Prop where
  only : vars.filter (fun w => w.isParameter && w.slot = slot) = [v]
  type_eq : v.type = type
  name_eq_iff : v.name = name ↔ ∀ w ∈ vars, w.name = name → w.type = type
  numbered : v.name ≠ name → ∃ k, 2 ≤ k ∧ v.name = s!"{name}{k}"

/-- What variables are marked with does not matter for the parameters among them. -/
theorem IsParameterOf.of_map_unmarked {vars vars' : List LocalVariable} {slot : UInt16} {name : String}
    {type : Ty} {v : LocalVariable} (h : IsParameterOf vars slot name type v)
    (hmarked : vars'.map LocalVariable.unmarked = vars.map LocalVariable.unmarked) :
    ∃ v', IsParameterOf vars' slot name type v' := by
  let isChosen (w : LocalVariable) : Bool := w.isParameter && w.slot = slot
  have hfilter : ∀ l : List LocalVariable,
      (l.map LocalVariable.unmarked).filter isChosen = (l.filter isChosen).map LocalVariable.unmarked :=
    fun l => List.filter_map
  obtain ⟨v', honly, hv'⟩ : ∃ v', vars'.filter isChosen = [v'] ∧ v'.unmarked = v.unmarked := by
    rw [← List.map_eq_singleton_iff, ← hfilter, hmarked, hfilter, h.only]
    rfl
  have hname : v'.name = v.name := (congrArg LocalVariable.name hv' :)
  have hnamed : vars'.map LocalVariable.named = vars.map LocalVariable.named := by
    have hcomp : LocalVariable.named = LocalVariable.named ∘ LocalVariable.unmarked := rfl
    rw [hcomp, ← List.map_map, ← List.map_map, hmarked]
  refine ⟨v', honly, (congrArg LocalVariable.type hv' :).trans h.type_eq, ?_, ?_⟩
  · have hforall : ∀ l : List LocalVariable, (∀ w ∈ l, w.name = name → w.type = type) ↔
        ∀ q ∈ l.map LocalVariable.named, q.1 = name → q.2 = type := fun l => by
      rw [List.forall_mem_map]
      rfl
    rw [hname, h.name_eq_iff, hforall, hforall, hnamed]
  · rw [hname]
    exact h.numbered

namespace VariableSources

variable {src : VariableSources} {body : List Stmt} {i : Nat} {t : Ty}

/-- The slot of a parameter has one variable that is a parameter. -/
theorem Fits.exists_isParameterOf (h : src.Fits) (hi : src.parameters[i]? = some t) :
    ∃ v, IsParameterOf (src.locals body) (src.parameterSlot i)
      (src.parameter i (src.parameterSlot i) t).name t v := by
  set u := src.parameter i (src.parameterSlot i) t
  obtain ⟨v, hv, hkept⟩ : ∃ v ∈ src.locals body, v.kept = u.kept := h.exists_mem_locals hi
  obtain ⟨hslot, hstart, htype, horigin⟩ := LocalVariable.eq_of_kept hkept
  have hchosen : (v.isParameter && v.slot = src.parameterSlot i) = true := by
    have hparameter : u.origin = .parameter ∧ u.slot = src.parameterSlot i := ⟨rfl, rfl⟩
    simp [LocalVariable.isParameter, horigin, hslot, hparameter]
  have hnamed : v.IsNamed ((src.locals body).map LocalVariable.named) u.name := by
    obtain ⟨w, hw, hwkept, hnamed⟩ := exists_named_of_mem_locals hv
    obtain ⟨hwslot, hwstart, -, -⟩ := LocalVariable.eq_of_kept hwkept
    rwa [h.eq_parameter_of_mem_collected hi hw (hwslot.trans hslot) (hwstart.trans hstart)] at hnamed
  refine ⟨v, ?_, htype, ⟨fun hname w hw hwname => ?_, fun hall => ?_⟩, fun hne => ?_⟩
  -- it is the only one: parameters of a slot all cover the start of the method
  · have hcovers : ∀ w ∈ src.locals body, (w.isParameter && w.slot = src.parameterSlot i) → w.covers 0 :=
      fun w hw hchosen => covers_of_isParameter hw (Bool.and_eq_true_iff.1 hchosen).1
    refine filter_eq_singleton_of_covers (src.table_locals body).1 (fun w _ x _ hw hx => ?_) hcovers hv hchosen
    simp only [Bool.and_eq_true, decide_eq_true_eq] at hw hx
    exact hw.2.trans hx.2.symm
  -- it has its name, if no other type has the name
  · exact (src.oneType_locals body w.named (List.mem_map_of_mem hw) v.named (List.mem_map_of_mem hv)
      (hwname.trans hname.symm)).trans htype
  · refine hnamed.resolve_right ?_
    rintro ⟨-, q, hq, hqname, hother⟩
    obtain ⟨w, hw, rfl⟩ := List.mem_map.1 hq
    exact hother ((hall w hw hqname).trans htype.symm)
  -- and a number behind it otherwise
  · exact (hnamed.resolve_left hne).1

end VariableSources

/-! ## Declarations and bodies -/

/-- What is decompiled are methods of the class. -/
theorem ClassFile.exists_eq_methodContext {c : ClassFile} {options : DecompileOptions} {ctx : MethodContext}
    (h : ctx ∈ c.methodContexts options) : ∃ m ∈ c.methods, ctx = c.methodContext m := by
  obtain ⟨m, hm, rfl⟩ := List.mem_map.1 (List.mem_filter.1 h).1
  exact ⟨m, hm, rfl⟩

/-- The name that the declaration of a method has for a parameter is the one with which its variable starts. -/
theorem MethodContext.name_parameter {ctx : MethodContext} {code : CodeAttribute} {length : Nat}
    {mergeRows : Bool} {i : Nat} {p : Parameter} (hp : ctx.header.parameters[i]? = some p)
    (slot : UInt16) (type : Ty) :
    ((ctx.variableSources code length mergeRows).parameter i slot type).name = p.name := by
  simp [VariableSources.parameter, variableSources, hp]

section

variable {c : ClassFile} {options : DecompileOptions} {ctx : MethodContext} {body : MethodBody}
  {warnings : List Warning}

/-- The variables of a body are those that are recovered from what its method says about them, up to marks. -/
theorem MethodContext.exists_locals_of_body (h : ctx.body options = .ok (body, warnings)) :
    ∃ (code : CodeAttribute) (length : Nat) (statements : List Stmt),
      let src := ctx.variableSources code length options.mergeLocalVariables
      body.locals.map LocalVariable.unmarked = (src.locals statements).map LocalVariable.unmarked := by
  obtain ⟨code, length, statements, types, hbody⟩ := exists_sources_of_body h
  refine ⟨code, length, statements, ?_⟩
  rw [hbody, BoundBody.map_unmarked_desugar, BoundBody.map_unmarked_declare, (VariableSources.bind_locals _ _).1]

/-- If the slots of the parameters of a method fit, then the slot of each parameter that its declaration has is
the one of exactly one variable of its body that is a parameter. The two have one type, and they have one name
unless a variable of another type has taken it. -/
theorem ClassFile.parameter_of_body (hctx : ctx ∈ c.methodContexts options)
    (hbody : ctx.body options = .ok (body, warnings)) :
    let number := fun ts => Ty.slotNumber (if ctx.method.isStatic then 0 else 1) ts
    let types := ctx.method.parameterTypes c.pool
    number types < 2 ^ 16 → ∀ i p, ctx.header.parameters[i]? = some p →
      ∃ (slot : UInt16) (v : LocalVariable), slot.toNat = number (types.take i) ∧
        IsParameterOf body.locals slot p.name p.type v := by
  intro number types hlt i p hp
  obtain ⟨m, -, rfl⟩ := exists_eq_methodContext hctx
  obtain ⟨code, length, statements, hlocals⟩ := MethodContext.exists_locals_of_body hbody
  set src := (c.methodContext m).variableSources code length options.mergeLocalVariables with hsrc
  have hparameters : src.parameters = types := MethodContext.parameters_variableSources ..
  have hfirst : src.firstSlot.toNat = if m.isStatic then 0 else 1 := m.toNat_firstSlot
  have hfits : src.Fits := by rwa [VariableSources.Fits, hparameters, hfirst]
  have htype : src.parameters[i]? = some p.type := by
    rw [hsrc, MethodContext.variableSources, List.getElem?_map, hp]
    rfl
  have hname : (src.parameter i (src.parameterSlot i) p.type).name = p.name := MethodContext.name_parameter hp ..
  obtain ⟨v, hv⟩ : ∃ v, IsParameterOf (src.locals statements) (src.parameterSlot i) _ p.type v :=
    hfits.exists_isParameterOf htype
  rw [hname] at hv
  obtain ⟨v', hv'⟩ := hv.of_map_unmarked hlocals
  refine ⟨src.parameterSlot i, v', ?_, hv'⟩
  rw [hfits.toNat_parameterSlot, hparameters, hfirst]
  rfl

end

/-! ## A parameter under another name -/

/-- The code `String x = null; return x;`, where the string `x` has slot 0 and is behind the parameter `a` there,
and the `x` that is returned is the parameter in slot 1. -/
def reusedNameCode : CodeAttribute :=
  ⟨1, 2, [0x01, 0x4B, 0x1B, 0xAC], [], [⟨6,
    [0, 3, 0, 0, 0, 2, 0, 7, 0, 9, 0, 0, 0, 0, 0, 4, 0, 8, 0, 9, 0, 1, 0, 2, 0, 2, 0, 8, 0, 10, 0, 0],
    some (.localVariableTable [⟨0, 2, 7, 9, 0⟩, ⟨0, 4, 8, 9, 1⟩, ⟨2, 2, 8, 10, 0⟩])⟩]⟩

/-- The method `static int m(int a, int x)`. -/
def reusedNameMethod : Member :=
  ⟨Access.publicBit ||| Access.staticBit, 3, 4, [⟨5,
    [0, 1, 0, 2, 0, 0, 0, 4, 0x01, 0x4B, 0x1B, 0xAC, 0, 0, 0, 1, 0, 6, 0, 0, 0, 32,
      0, 3, 0, 0, 0, 2, 0, 7, 0, 9, 0, 0, 0, 0, 0, 4, 0, 8, 0, 9, 0, 1, 0, 2, 0, 2, 0, 8, 0, 10, 0, 0],
    some (.code reusedNameCode)⟩]⟩

/-- The constants of a class with this method. -/
def reusedNamePool (index : Std.HashMap Constant UInt16) : ConstantPool :=
  ⟨#[none, some (.utf8 "A"), some (.classRef 1), some (.utf8 "m"), some (.utf8 "(II)I"), some (.utf8 "Code"),
    some (.utf8 "LocalVariableTable"), some (.utf8 "a"), some (.utf8 "x"), some (.utf8 "I"),
    some (.utf8 "Ljava/lang/String;")], index, ∅, ∅, false⟩

/-- A class with this method. -/
def reusedName (index : Std.HashMap Constant UInt16) : ClassFile where
  minor := 0
  major := 52
  poolCount := 11
  pool := reusedNamePool index
  access := Access.publicBit ||| 0x20
  thisClass := 2
  superClass := 0
  interfaces := []
  fields := []
  methods := [reusedNameMethod]
  attributes := []

/-- The file of the class. -/
def reusedNameBytes : Bytes :=
  [0xCA, 0xFE, 0xBA, 0xBE, 0, 0, 0, 52, 0, 11,
    1, 0, 1, 0x41, 7, 0, 1, 1, 0, 1, 0x6D, 1, 0, 5, 0x28, 0x49, 0x49, 0x29, 0x49,
    1, 0, 4, 0x43, 0x6F, 0x64, 0x65,
    1, 0, 18, 0x4C, 0x6F, 0x63, 0x61, 0x6C, 0x56, 0x61, 0x72, 0x69, 0x61, 0x62, 0x6C, 0x65, 0x54, 0x61, 0x62,
    0x6C, 0x65, 1, 0, 1, 0x61, 1, 0, 1, 0x78, 1, 0, 1, 0x49,
    1, 0, 18, 0x4C, 0x6A, 0x61, 0x76, 0x61, 0x2F, 0x6C, 0x61, 0x6E, 0x67, 0x2F, 0x53, 0x74, 0x72, 0x69, 0x6E,
    0x67, 0x3B,
    0, 0x21, 0, 2, 0, 0, 0, 0, 0, 0, 0, 1, 0, 9, 0, 3, 0, 4, 0, 1,
    0, 5, 0, 0, 0, 54, 0, 1, 0, 2, 0, 0, 0, 4, 0x01, 0x4B, 0x1B, 0xAC, 0, 0, 0, 1, 0, 6, 0, 0, 0, 32,
    0, 3, 0, 0, 0, 2, 0, 7, 0, 9, 0, 0, 0, 0, 0, 4, 0, 8, 0, 9, 0, 1, 0, 2, 0, 2, 0, 8, 0, 10, 0, 0, 0, 0]

set_option maxRecDepth 4000 in
/-- The file of the example is read as the class. -/
theorem exists_read_reusedNameBytes : ∃ index, ClassFile.read reusedNameBytes = .ok (reusedName index) :=
  ⟨_, rfl⟩

/-- The names and types of the variables of the body. The map from constants to their indices is never looked at,
so it may be any. -/
theorem exists_body_reusedName (index : Std.HashMap Constant UInt16) :
    ∃ body warnings, ((reusedName index).methodContext reusedNameMethod).body {} = .ok (body, warnings) ∧
      body.locals.map LocalVariable.named = [("a", .int), ("x", .reference "java/lang/String"), ("x2", .int)] := by
  have hnamed : (((reusedName index).methodContext reusedNameMethod).body {}).toOption.map
      (fun result => result.1.toBoundBody.locals.map LocalVariable.named) =
        some [("a", .int), ("x", .reference "java/lang/String"), ("x2", .int)] := by cbv
  rcases hresult : ((reusedName index).methodContext reusedNameMethod).body {} with e | ⟨body, warnings⟩
  · rw [hresult] at hnamed
    cases hnamed
  · rw [hresult] at hnamed
    exact ⟨body, warnings, rfl, Option.some.inj hnamed⟩

/-- The method is decompiled, and declares a second parameter `x`, in slot 1. Its body has an `x` too, which is the
string. -/
theorem exists_context_reusedName : ∃ c ctx body warnings p,
    let number := fun ts => Ty.slotNumber (if ctx.method.isStatic then 0 else 1) ts
    let types := ctx.method.parameterTypes c.pool
    ClassFile.read reusedNameBytes = .ok c ∧ ctx ∈ c.methodContexts {} ∧ ctx.body {} = .ok (body, warnings) ∧
      number types < 2 ^ 16 ∧ number (types.take 1) = 1 ∧
      ctx.header.parameters[1]? = some p ∧ p.name = "x" ∧ p.type = .int ∧ body.locals.map LocalVariable.named =
        [("a", .int), ("x", .reference "java/lang/String"), ("x2", .int)] := by
  obtain ⟨index, hread⟩ := exists_read_reusedNameBytes
  obtain ⟨body, warnings, hbody, hnamed⟩ := exists_body_reusedName index
  have hctx : (reusedName index).methodContext reusedNameMethod ∈ (reusedName index).methodContexts {} :=
    List.mem_filter.2 ⟨List.mem_cons_self, by cbv⟩
  have hstatic : ((reusedName index).methodContext reusedNameMethod).method.isStatic = true := by cbv
  have htypes : ((reusedName index).methodContext reusedNameMethod).method.parameterTypes (reusedName index).pool =
      [.int, .int] := by cbv
  have hsecond : ((reusedName index).methodContext reusedNameMethod).header.parameters[1]?.map
      (fun p => (p.name, p.type)) = some ("x", .int) := by cbv
  obtain ⟨p, hp, hpx⟩ := Option.map_eq_some_iff.1 hsecond
  obtain ⟨hname, htype⟩ := Prod.mk.inj hpx
  refine ⟨_, _, body, warnings, p, hread, hctx, hbody, ?_, ?_, hp, hname, htype, hnamed⟩
  · rw [hstatic, htypes]
    decide
  · rw [hstatic, htypes]
    rfl

/-- The second parameter is declared as `x`, and is a variable of the body with another name. -/
theorem parameter_of_body_reusedName : ∃ c ctx body warnings,
    ClassFile.read reusedNameBytes = .ok c ∧ ctx ∈ c.methodContexts {} ∧ ctx.body {} = .ok (body, warnings) ∧
      Ty.slotNumber (if ctx.method.isStatic then 0 else 1) (ctx.method.parameterTypes c.pool) < 2 ^ 16 ∧
      ∃ p v, ctx.header.parameters[1]? = some p ∧ p.name = "x" ∧
        IsParameterOf body.locals 1 p.name p.type v ∧ v.name ≠ p.name := by
  obtain ⟨c, ctx, body, warnings, p, hread, hctx, hbody, hfits, hone, hp, hname, htype, hnamed⟩ :=
    exists_context_reusedName
  obtain ⟨slot, v, hslot, hv⟩ := ClassFile.parameter_of_body hctx hbody hfits 1 p hp
  obtain rfl : slot = 1 := UInt16.toNat_inj.1 (hslot.trans hone)
  refine ⟨c, ctx, body, warnings, hread, hctx, hbody, hfits, p, v, hp, hname, hv, fun hkept => ?_⟩
  -- The string has the name, and is of another type.
  have hstring : ("x", Ty.reference "java/lang/String") ∈ body.locals.map LocalVariable.named := by
    rw [hnamed]
    exact List.mem_cons_of_mem _ List.mem_cons_self
  obtain ⟨w, hw, hwx⟩ := List.mem_map.1 hstring
  obtain ⟨hwname, hwtype⟩ := Prod.mk.inj hwx
  have hwint : w.type = p.type := hv.name_eq_iff.1 hkept w hw (hwname.trans hname.symm)
  rw [hwtype, htype] at hwint
  cases hwint

/-- So a body may have another name for a parameter than the declaration in front of it. -/
theorem not_parameter_of_body_named : ¬∀ bytes c options ctx body warnings,
    ClassFile.read bytes = .ok c → ctx ∈ c.methodContexts options → ctx.body options = .ok (body, warnings) →
    let number := fun ts => Ty.slotNumber (if ctx.method.isStatic then 0 else 1) ts
    let types := ctx.method.parameterTypes c.pool
    number types < 2 ^ 16 → ∀ i p, ctx.header.parameters[i]? = some p →
      ∃ (slot : UInt16) (v : LocalVariable), slot.toNat = number (types.take i) ∧
        body.locals.filter (fun w => w.isParameter && w.slot = slot) = [v] ∧ v.name = p.name ∧ v.type = p.type := by
  intro h
  obtain ⟨c, ctx, body, warnings, p, hread, hctx, hbody, hfits, -, hp, hname, htype, hnamed⟩ :=
    exists_context_reusedName
  obtain ⟨slot, v, -, honly, hvname, hvtype⟩ := h _ c {} ctx body warnings hread hctx hbody hfits 1 p hp
  have hv : v ∈ body.locals := (List.mem_filter.1 (honly ▸ List.mem_singleton_self v)).1
  have hmem : v.named ∈ body.locals.map LocalVariable.named := List.mem_map_of_mem hv
  rw [hnamed, LocalVariable.named, hvname, hvtype, hname, htype] at hmem
  simp at hmem

end JvmDecompiler
