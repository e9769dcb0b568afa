import JvmDecompiler.Proofs.StackMoves

/-!
# Values of two slots

The machine counts a `long` and a `double` on the stack as two slots, and `pop2`, `dup2` and their relatives
move slots. A run counts by the types that it reads off its expressions. This module compares the two: the
machine's side is a stack of kinds (`Instruction.kindsAfter?`), which is what verification says of the
values, and the moves of the machine's specification on such a stack (`StackOp.moved?`).

A run keeps to the kinds step by step (`Sim.Agrees`) as long as no instruction is `Sim.losesWidth`. There are
four that lose a width: a load from an array whose type the expression does not tell, an assignment to such an
array's element that is used as a value, a dynamically computed constant, and an addition to a slot while a
wide value that was loaded from it is on top of the stack. Each of them makes a width wrong
(`Block.widths_right_iff`).
-/

namespace JvmDecompiler

namespace Sim

/-! ## Where a width is lost -/

/-- Whether the type of the array tells something else than the load or the store about the width of its
elements. -/
def missesElement (array : Expr) (type : OperandType) : Bool :=
  (array.type.element?.getD .unknown).isWide != type.isWide

/-- Whether an instruction makes a run count a value wrongly. -/
def losesWidth (pool : ConstantPool) (i : Instruction) (stack : List StackValue) : Bool :=
  match i, stack with
  | .ldc index, _ => (pool.dynamicKind? index).any (·.isWide)
  | .arrayLoad type, _ :: array :: _ => missesElement array.expr type
  | .arrayStore type, value :: _ :: array :: rest =>
    -- the assignment is used as a value
    rest.any (areCopies value) && missesElement array.expr type
  | .iinc slot _, top :: _ => top.expr.isLocalSlot slot && top.expr.type.isWide
  | _, _ => false

/-- The type of the array tells the right width. -/
theorem missesElement_eq_false_iff {array : Expr} {type : OperandType} :
    missesElement array type = false ↔
      (array.type.element?.getD .unknown).isWide = type.isWide := by
  simp [missesElement]

/-! ## Stacks that agree with the kinds -/

/-- A stack whose values are as wide as the kinds say. Copies of one value are equally wide, and the marks
in use are below the next one. -/
structure Agrees (kinds : List ValueKind) (stack : List StackValue) (nextMark : Nat) : Prop where
  widths : stack.map (·.isWide) = kinds.map (·.isWide)
  copies : ∀ u ∈ stack, ∀ v ∈ stack, areCopies u v = true → u.isWide = v.isWide
  marks : ∀ v ∈ stack, ∀ m, v.mark = some m → m < nextMark

namespace Agrees

variable {kinds more : List ValueKind} {k : ValueKind} {stack rest above below : List StackValue}
  {nextMark : Nat}

/-- The values below the topmost agree with their kinds. -/
theorem tail {v : StackValue} (h : Agrees (k :: kinds) (v :: stack) nextMark) :
    Agrees kinds stack nextMark :=
  ⟨(List.cons.inj h.widths).2,
    fun u hu w hw => h.copies u (List.mem_cons_of_mem _ hu) w (List.mem_cons_of_mem _ hw),
    fun u hu => h.marks u (List.mem_cons_of_mem _ hu)⟩

/-- The topmost value, and what is below it. -/
theorem uncons (h : Agrees (k :: kinds) stack nextMark) :
    ∃ v rest, stack = v :: rest ∧ v.isWide = k.isWide ∧
      (∀ u ∈ rest, areCopies v u = true → u.isWide = k.isWide) ∧ Agrees kinds rest nextMark := by
  cases stack with
  | nil => cases h.widths
  | cons v rest =>
    have hv : v.isWide = k.isWide := (List.cons.inj h.widths).1
    refine ⟨v, rest, rfl, hv, fun u hu hcopy => ?_, h.tail⟩
    exact (h.copies v List.mem_cons_self u (List.mem_cons_of_mem _ hu) hcopy).symm.trans hv

/-- The values that some kinds belong to, and what is below them. -/
theorem unappend (h : Agrees (kinds ++ more) stack nextMark) :
    ∃ vs rest, stack = vs ++ rest ∧ vs.length = kinds.length ∧ Agrees more rest nextMark := by
  induction kinds generalizing stack with
  | nil => exact ⟨[], stack, rfl, rfl, h⟩
  | cons k kinds ih =>
    obtain ⟨v, rest, rfl, -, -, hrest⟩ := h.uncons
    obtain ⟨vs, rest, rfl, hlength, hmore⟩ := ih hrest
    exact ⟨v :: vs, rest, rfl, by simp [hlength], hmore⟩

/-- A value that is new on the stack has no mark. -/
theorem of_mem {stack' : List StackValue} {kinds' : List ValueKind} (h : Agrees kinds stack nextMark)
    (hwidths : stack'.map (·.isWide) = kinds'.map (·.isWide))
    (hmem : ∀ v ∈ stack', v.mark = none ∨ v ∈ stack) : Agrees kinds' stack' nextMark := by
  refine ⟨hwidths, fun u hu v hv hcopy => ?_, fun v hv m hm => ?_⟩
  · obtain ⟨m, hum, hvm⟩ := areCopies_iff.1 hcopy
    have hu' : u ∈ stack := (hmem u hu).resolve_left (by simp [hum])
    have hv' : v ∈ stack := (hmem v hv).resolve_left (by simp [hvm])
    exact h.copies u hu' v hv' hcopy
  · exact h.marks v ((hmem v hv).resolve_left (by simp [hm])) m hm

/-- An expression of the right width may be put on the stack. -/
theorem push {e : Expr} (h : Agrees kinds stack nextMark) (he : e.type.isWide = k.isWide) :
    Agrees (k :: kinds) (⟨e, none⟩ :: stack) nextMark := by
  refine h.of_mem ?_ fun v hv => ?_
  · rw [List.map_cons, List.map_cons, h.widths]
    exact congrArg (· :: _) he
  · exact (List.mem_cons.1 hv).imp (fun h => by rw [h]) id

/-- Another expression in the place of a value. -/
theorem replace {v : StackValue} {e : Expr} (h : Agrees kinds (above ++ v :: below) nextMark)
    (he : e.type.isWide = v.isWide) : Agrees kinds (above ++ ⟨e, none⟩ :: below) nextMark := by
  refine h.of_mem ?_ fun u hu => ?_
  · rw [← h.widths]
    simpa [StackValue.isWide] using he
  · simp only [List.mem_append, List.mem_cons] at hu ⊢
    rcases hu with hu | rfl | hu
    · exact .inr (.inl hu)
    · exact .inl rfl
    · exact .inr (.inr (.inr hu))

/-- Later marks are new as well. -/
theorem le {m : Nat} (h : Agrees kinds stack nextMark) (hm : nextMark ≤ m) : Agrees kinds stack m :=
  ⟨h.widths, h.copies, fun v hv k hk => Nat.lt_of_lt_of_le (h.marks v hv k hk) hm⟩

/-- The next mark is one that no value has. -/
theorem mark {v : StackValue} (h : Agrees kinds (above ++ v :: below) nextMark) :
    Agrees kinds (above ++ { v with mark := some nextMark } :: below) (nextMark + 1) := by
  -- the marked value keeps its width, and the mark is in use nowhere else, so that it joins no copies
  have hold : ∀ u ∈ above ++ below, u ∈ above ++ v :: below := by
    intro u hu
    simp only [List.mem_append, List.mem_cons] at hu ⊢
    exact hu.imp id .inr
  have hcases : ∀ u ∈ above ++ { v with mark := some nextMark } :: below,
      u = { v with mark := some nextMark } ∨ u ∈ above ++ below := by
    intro u hu
    simp only [List.mem_append, List.mem_cons] at hu ⊢
    tauto
  have hfresh : ∀ u ∈ above ++ below, u.mark ≠ some nextMark := fun u hu hu' =>
    Nat.lt_irrefl _ (h.marks u (hold u hu) _ hu')
  refine ⟨?_, fun u hu w hw hcopy => ?_, fun u hu m hm => ?_⟩
  · rw [← h.widths]
    simp [StackValue.isWide]
  · obtain ⟨m, hum, hwm⟩ := areCopies_iff.1 hcopy
    rcases hcases u hu with rfl | hu' <;> rcases hcases w hw with rfl | hw'
    · rfl
    · exact absurd (hwm.trans hum.symm) (hfresh w hw')
    · exact absurd (hum.trans hwm.symm) (hfresh u hu')
    · exact h.copies u (hold u hu') w (hold w hw') hcopy
  · rcases hcases u hu with rfl | hu'
    · obtain rfl := Option.some.inj hm
      exact Nat.lt_succ_self _
    · exact Nat.lt_succ_of_lt (h.marks u (hold u hu') m hm)

/-- Marking values for a copy leaves all of them as wide as their kinds say. -/
theorem markAll {vs : List StackValue} (h : Agrees kinds (above ++ vs ++ below) nextMark) :
    Agrees kinds (above ++ markAll nextMark vs ++ below) (nextMark + vs.length) := by
  induction vs generalizing above nextMark with
  | nil => exact h
  | cons v vs ih =>
    unfold Sim.markAll
    split
    · have hrest := @ih (above ++ [v]) nextMark (by simpa using h)
      exact le (by simpa using hrest) (by simp)
    · have hmarked : Agrees kinds (above ++ { v with mark := some nextMark } :: (vs ++ below))
          (nextMark + 1) := mark (by simpa using h)
      have hrest := @ih (above ++ [{ v with mark := some nextMark }]) (nextMark + 1)
        (by simpa using hmarked)
      exact le (by simpa using hrest) (by simp only [List.length_cons]; omega)

end Agrees

/-! ## Instructions -/

section Steps

variable {ctx : SimContext} {i : PlacedInstruction} {s : SimState} {kinds kinds' rest : List ValueKind}
  {effect : KindEffect}

/-- Moving values leaves the stack in agreement with the kinds. -/
theorem stackOp_agrees {line : SourceLine} {op : StackOp} {moved : List StackValue}
    (h : Agrees kinds s.stack s.nextMark) (hkinds : moved.map (·.isWide) = kinds'.map (·.isWide))
    (hmoved : op.moved? StackValue.isWide s.stack = some moved) :
    Agrees kinds' (after (stackOp line op) s).stack (after (stackOp line op) s).nextMark := by
  cases hop : copies? op with
  | some slots =>
    obtain ⟨copied, skipped⟩ := slots
    obtain ⟨vs, ws, rest, hstack, rfl, rfl, rfl⟩ := moved?_of_copies? hop hmoved
    rw [stackOp_of_copies? hop, after_duplicate line vs ws rest hstack]
    have hmarked : Agrees kinds ([] ++ markAll s.nextMark vs ++ (ws ++ rest)) (s.nextMark + vs.length) :=
      Agrees.markAll (by simpa [hstack] using h)
    refine hmarked.of_mem ?_ fun v hv => ?_
    · rw [← hkinds]
      simp only [List.map_append, map_isWide_markAll]
    · simp only [List.nil_append, List.mem_append] at hv ⊢
      tauto
  | none =>
    obtain ⟨hafter, hmem⟩ := after_stackOp_of_copies?_eq_none line hop hmoved
    rw [hafter]
    exact h.of_mem hkinds fun v hv => .inr (hmem v hv)

/-- Storing a value keeps to the kinds if the assignment is as wide as the copies of the value. -/
theorem Stored.agrees {value : StackValue} {e : Expr} {stmt : SimpleStmt} {t : SimState}
    (ht : Stored value e stmt s t) (h : Agrees kinds s.stack s.nextMark)
    (he : ∀ u ∈ s.stack, areCopies value u = true → e.type.isWide = u.isWide) :
    Agrees kinds t.stack t.nextMark := by
  cases ht with
  | copy hstack habove hcopy =>
    refine Agrees.replace (hstack ▸ h) (he _ ?_ hcopy)
    simp [hstack]
  | statement => exact h

/-- A constant is as wide as its kind, unless it is computed at run time and wide. -/
theorem isWide_constant {pool : ConstantPool} {index : UInt16} {kind : ValueKind}
    (hkind : pool.constantKind? index = some kind)
    (hl : (pool.dynamicKind? index).any (·.isWide) = false) (line : SourceLine) :
    (constant pool line index).type.isWide = kind.isWide := by
  unfold ConstantPool.constantKind? at hkind
  unfold constant
  cases hget : pool.get? index with
  | none => simp [hget, ConstantPool.dynamicKind?] at hkind
  | some c =>
    cases c with
    | integer | float | long | double | methodHandle | methodType =>
      simp only [hget, Option.some.injEq] at hkind
      subst hkind
      rfl
    | string text =>
      simp only [hget, Option.some.injEq] at hkind
      subst hkind
      cases htext : pool.utf8? text <;> simp only [htext] <;> rfl
    | classRef name =>
      simp only [hget, Option.some.injEq] at hkind
      subst hkind
      cases hname : pool.utf8? name <;> simp only [hname] <;> rfl
    | dynamic bootstrap nameAndType =>
      -- the constant is not recovered, which is right for a narrow one only
      simp only [hget] at hkind
      rw [hkind, Option.any_some] at hl
      exact hl.symm
    | utf8 | fieldref | methodref | interfaceMethodref | nameAndType | invokeDynamic | moduleRef
    | packageRef => simp [hget, ConstantPool.dynamicKind?] at hkind

/-- A wide constant that is computed dynamically is not recovered, and its type is not known. -/
theorem isWide_constant_of_dynamic {pool : ConstantPool} {index : UInt16}
    (hl : (pool.dynamicKind? index).any (·.isWide) = true) (line : SourceLine) :
    (∃ kind, pool.constantKind? index = some kind ∧ kind.isWide = true) ∧
      (constant pool line index).type.isWide = false := by
  cases hkind : pool.dynamicKind? index with
  | none => simp [hkind] at hl
  | some kind =>
    rw [hkind] at hl
    obtain ⟨bootstrap, nameAndType, hget⟩ : ∃ bootstrap nameAndType,
        pool.get? index = some (.dynamic bootstrap nameAndType) := by
      unfold ConstantPool.dynamicKind? at hkind
      split at hkind
      · exact ⟨_, _, ‹_›⟩
      · cases hkind
    have hconstant : pool.constantKind? index = pool.dynamicKind? index := by
      simp [ConstantPool.constantKind?, hget]
    refine ⟨⟨kind, hconstant.trans hkind, hl⟩, ?_⟩
    simp [constant, hget, Expr.type, Ty.isWide]

/-- A call puts on the stack what the type of its result says. -/
theorem pushOrEmit_agrees {line : SourceLine} {result : Ty} {call : Expr} {gives : List ValueKind}
    (hresult : result.resultKinds? = some gives) (hcall : call.type = result)
    (h : Agrees kinds s.stack s.nextMark) :
    Agrees (gives ++ kinds) (after (pushOrEmit line result call) s).stack
      (after (pushOrEmit line result call) s).nextMark := by
  unfold pushOrEmit
  by_cases hvoid : result = .void
  · subst hvoid
    obtain rfl := Option.some.inj hresult
    rw [if_pos rfl]
    exact h
  · rw [if_neg hvoid]
    obtain ⟨k, hk, rfl⟩ : ∃ k, result.kind? = some k ∧ [k] = gives := by
      cases result <;> simp_all [Ty.resultKinds?, Ty.kind?]
    exact h.push (hcall ▸ isWide_of_kind? hk)

/-- A field access keeps the widths right. -/
theorem field_agrees {line : SourceLine} {op : FieldOp} {index : UInt16}
    (he : (Instruction.field op index).kindEffect? ctx.pool = some effect)
    (h : Agrees (effect.takes ++ rest) s.stack s.nextMark) :
    Agrees (effect.gives ++ rest) (after (field ctx.pool line op index) s).stack
      (after (field ctx.pool line op index) s).nextMark := by
  simp only [Instruction.kindEffect?, Option.bind_eq_bind, Option.bind_eq_some_iff] at he
  obtain ⟨m, hm, type, htype, kind, hkind, heffect⟩ := he
  obtain ⟨stack, statements, condition, switchKey, diagnostics, nextMark, reported⟩ := s
  have hwide : type.isWide = kind.isWide := isWide_of_kind? hkind
  unfold field
  simp only [hm, htype, Option.getD_some]
  cases op with
  | getStatic =>
    obtain rfl := Option.some.inj heffect
    exact h.push hwide
  | getField =>
    obtain rfl := Option.some.inj heffect
    obtain ⟨object, stack, rfl, -, -, h⟩ := h.uncons
    exact h.push hwide
  | putStatic =>
    obtain rfl := Option.some.inj heffect
    obtain ⟨value, stack, rfl, -, hcopies, h⟩ := h.uncons
    refine (stored_assign line _ value _).agrees h fun u hu hcopy => ?_
    exact hwide.trans (hcopies u hu hcopy).symm
  | putField =>
    obtain rfl := Option.some.inj heffect
    obtain ⟨value, stack, rfl, -, hcopies, h⟩ := h.uncons
    obtain ⟨object, stack, rfl, -, -, h⟩ := h.uncons
    refine (stored_assign line _ value _).agrees h fun u hu hcopy => ?_
    exact hwide.trans (hcopies u (List.mem_cons_of_mem _ hu) hcopy).symm

/-- The arguments of a call come off the stack. -/
theorem popArgs_agrees (line : SourceLine) {parameters kinds : List ValueKind} {n : Nat}
    (hn : parameters.length = n) (h : Agrees (parameters.reverse ++ kinds) s.stack s.nextMark) :
    Agrees kinds (after (popArgs line n) s).stack (after (popArgs line n) s).nextMark := by
  obtain ⟨args, rest, hstack, hlength, hrest⟩ := h.unappend
  obtain rfl : args.length = n := by rw [hlength, List.length_reverse, hn]
  have hafter : after (popArgs line args.length) s = { s with stack := rest } :=
    congrArg Prod.snd (run_popArgs line args rest hstack)
  rw [hafter]
  exact hrest

/-- A new object is as wide as a reference to it. -/
theorem construct_agrees {line : SourceLine} {receiver : StackValue} {className descriptor : String}
    {args : List Expr} (h : Agrees kinds s.stack s.nextMark)
    (hcopies : ∀ u ∈ s.stack, areCopies receiver u = true → u.isWide = false) :
    Agrees kinds (after (construct line receiver className descriptor args) s).stack
      (after (construct line receiver className descriptor args) s).nextMark :=
  (stored_replaceCopy receiver _ _ s).agrees h fun u hu hcopy => (hcopies u hu hcopy).symm

/-- So does a call. -/
theorem invoke_agrees {line : SourceLine} {kind : InvokeKind} {index : UInt16}
    (he : (Instruction.invoke kind index).kindEffect? ctx.pool = some effect)
    (h : Agrees (effect.takes ++ rest) s.stack s.nextMark) :
    Agrees (effect.gives ++ rest) (after (invoke ctx.pool line kind index) s).stack
      (after (invoke ctx.pool line kind index) s).nextMark := by
  simp only [Instruction.kindEffect?, Option.bind_eq_bind, Option.bind_eq_some_iff] at he
  obtain ⟨m, hm, called, hcalled, heffect⟩ := he
  -- a call with a result is not one of a constructor
  obtain ⟨hinit, rfl⟩ : ¬ (m.name = "<init>" ∧ called.gives ≠ []) ∧ called = effect := by
    split at heffect
    · cases heffect
    · exact ⟨‹_›, Option.some.inj heffect⟩
  obtain ⟨type, parameters, htype, hparameters, htakes, hgives⟩ := KindEffect.ofCall?_eq_some hcalled
  have htype' : callType m.descriptor = type := by simp [callType, htype]
  have hresult : Expr.resultType m.descriptor = type.result := by simp [Expr.resultType, htype]
  rw [htakes, List.append_assoc] at h
  have hargs := popArgs_agrees line (length_of_mapM hparameters) h
  unfold invoke
  simp only [hm, htype', pure_bind]
  rw [after_bind]
  generalize hs : after (popArgs line type.parameters.length) s = s' at hargs ⊢
  generalize (StateT.run (popArgs line type.parameters.length) s).1 = args
  by_cases hstatic : kind = .static
  · rw [if_pos hstatic]
    rw [if_pos hstatic] at hargs
    exact pushOrEmit_agrees hgives hresult hargs
  · rw [if_neg hstatic]
    rw [if_neg hstatic] at hargs
    obtain ⟨stack, statements, condition, switchKey, diagnostics, nextMark, reported⟩ := s'
    obtain ⟨receiver, stack, rfl, -, hcopies, hrest⟩ := hargs.uncons
    let popped : SimState :=
      ⟨stack, statements, condition, switchKey, diagnostics, nextMark, reported⟩
    have hcall : Agrees (called.gives ++ rest)
        (after (pushOrEmit line type.result
          (.invoke line kind (some receiver.expr) m.className m.name m.descriptor args)) popped).stack
        (after (pushOrEmit line type.result
          (.invoke line kind (some receiver.expr) m.className m.name m.descriptor args)) popped).nextMark :=
      pushOrEmit_agrees hgives hresult hrest
    rw [after_bind]
    have hpopped : after (popValue line)
        ⟨receiver :: stack, statements, condition, switchKey, diagnostics, nextMark, reported⟩ =
        popped := rfl
    have hreceiver : (StateT.run (popValue line)
        ⟨receiver :: stack, statements, condition, switchKey, diagnostics, nextMark, reported⟩).1 =
        receiver := rfl
    rw [hpopped, hreceiver]
    split
    · by_cases hname : m.name = "<init>"
      · -- a constructor has no result, and the object takes its place
        rw [if_pos hname]
        have hnone : called.gives = [] := by
          by_contra hne
          exact hinit ⟨hname, hne⟩
        rw [hnone]
        exact construct_agrees hrest hcopies
      · rw [if_neg hname]
        exact hcall
    · exact hcall

/-- So does a dynamic call. -/
theorem invokeDynamic_agrees {line : SourceLine} {index : UInt16}
    (he : (Instruction.invokeDynamic index).kindEffect? ctx.pool = some effect)
    (h : Agrees (effect.takes ++ rest) s.stack s.nextMark) :
    Agrees (effect.gives ++ rest) (after (invokeDynamic ctx.pool line index) s).stack
      (after (invokeDynamic ctx.pool line index) s).nextMark := by
  simp only [Instruction.kindEffect?, Option.bind_eq_bind, Option.bind_eq_some_iff] at he
  obtain ⟨⟨name, descriptor⟩, hsite, hcalled⟩ := he
  obtain ⟨type, parameters, htype, hparameters, htakes, hgives⟩ := KindEffect.ofCall?_eq_some hcalled
  have htype' : callType descriptor = type := by
    simp only at htype
    simp [callType, htype]
  have hresult : Expr.resultType descriptor = type.result := by
    simp only at htype
    simp [Expr.resultType, htype]
  rw [htakes, List.append_nil] at h
  have hargs := popArgs_agrees line (length_of_mapM hparameters) h
  unfold invokeDynamic
  simp only [hsite, htype', pure_bind]
  exact pushOrEmit_agrees hgives hresult hargs

/-- An addition to a slot keeps to the kinds unless the value that it changes into the addition is a wide
one. -/
theorem increment_agrees {line : SourceLine} {slot : UInt16} {delta : Int32} {pc : Address}
    (h : Agrees kinds s.stack s.nextMark)
    (hl : ∀ top below, s.stack = top :: below → top.expr.isLocalSlot slot = true → top.isWide = false) :
    Agrees kinds (after (increment line slot delta pc) s).stack
      (after (increment line slot delta pc) s).nextMark := by
  obtain ⟨stack, statements, condition, switchKey, diagnostics, nextMark, reported⟩ := s
  obtain _ | ⟨top, stack⟩ := stack
  · exact h
  · show Agrees _ (after (if top.expr.isLocalSlot slot then _ else _) _).stack
      (after (if top.expr.isLocalSlot slot then _ else _) _).nextMark
    -- an increment of what is on top joins it, and has its mark; the local is then narrow by assumption
    by_cases hlocal : top.expr.isLocalSlot slot = true
    · rw [if_pos hlocal]
      have htop := hl top stack rfl hlocal
      have hcases : ∀ u, u ∈ (⟨.increment line (.localVar line (.ofSlot slot pc .int)) delta false,
          top.mark⟩ : StackValue) :: stack → ∃ v ∈ top :: stack, v.mark = u.mark ∧ v.isWide = u.isWide := by
        intro u hu
        rcases List.mem_cons.1 hu with rfl | hu
        · exact ⟨top, List.mem_cons_self, rfl, htop⟩
        · exact ⟨u, List.mem_cons_of_mem _ hu, rfl, rfl⟩
      refine ⟨?_, fun u hu v hv hcopy => ?_, fun v hv m hm => ?_⟩
      · rw [← h.widths, List.map_cons, htop]
        rfl
      · obtain ⟨u', hu', humark, huwide⟩ := hcases u hu
        obtain ⟨v', hv', hvmark, hvwide⟩ := hcases v hv
        rw [← huwide, ← hvwide]
        refine h.copies u' hu' v' hv' ?_
        rw [areCopies_iff] at hcopy ⊢
        rwa [humark, hvmark]
      · obtain ⟨v', hv', hvmark, -⟩ := hcases v hv
        exact h.marks v' hv' m (hvmark.trans hm)
    · rw [if_neg hlocal]
      exact h

/-- An instruction that does not lose a width keeps to the kinds. -/
theorem step_agrees (he : i.operation.kindEffect? ctx.pool = some effect)
    (h : Agrees (effect.takes ++ rest) s.stack s.nextMark)
    (hl : losesWidth ctx.pool i.operation s.stack = false) :
    Agrees (effect.gives ++ rest) (after (step ctx i) s).stack (after (step ctx i) s).nextMark := by
  obtain ⟨address, length, line, operation⟩ := i
  obtain ⟨stack, statements, condition, switchKey, diagnostics, nextMark, reported⟩ := s
  dsimp only at he hl h
  unfold step
  dsimp only
  -- each operation takes and gives what its effect says; those that look at a local or an element need `hl`
  cases operation with
  | field op index => exact field_agrees he h
  | invoke kind index => exact invoke_agrees he h
  | invokeDynamic index => exact invokeDynamic_agrees he h
  | stack op => cases he
  | ldc index =>
    simp only [Instruction.kindEffect?, Option.bind_eq_bind, Option.bind_eq_some_iff, Option.pure_def,
      Option.some.injEq] at he
    obtain ⟨kind, hkind, rfl⟩ := he
    exact h.push (isWide_constant hkind hl line)
  | nop | goto | ret =>
    obtain rfl := Option.some.inj he
    exact h
  | aconstNull | push | longConst | floatConst | doubleConst | new | jsr =>
    obtain rfl := Option.some.inj he
    exact h.push rfl
  | iinc slot delta =>
    obtain rfl := Option.some.inj he
    refine increment_agrees h fun top below hstack hlocal => ?_
    obtain rfl : stack = top :: below := hstack
    have htop : (top.expr.isLocalSlot slot && top.expr.type.isWide) = false := hl
    rw [hlocal, Bool.true_and] at htop
    exact htop
  | load type slot =>
    obtain rfl := Option.some.inj he
    dsimp only
    split
    · rename_i hthis
      obtain ⟨-, rfl⟩ : (ctx.isStatic = false ∧ slot = 0) ∧ type = .reference := by simpa using hthis
      exact h.push rfl
    · exact h.push (isWide_ofOperand type)
  | store type slot =>
    obtain rfl := Option.some.inj he
    obtain ⟨value, stack, rfl, -, hcopies, h⟩ := h.uncons
    refine (stored_assign line _ value _).agrees h fun u hu hcopy => ?_
    exact (isWide_ofOperand type).trans (hcopies u hu hcopy).symm
  | arrayLoad type =>
    obtain rfl := Option.some.inj he
    obtain ⟨index, stack, rfl, -, -, h⟩ := h.uncons
    obtain ⟨array, stack, rfl, -, -, h⟩ := h.uncons
    have helement : missesElement array.expr type = false := hl
    exact h.push ((missesElement_eq_false_iff.1 helement).trans (isWide_operandType type))
  -- only the store into an array has no width of its own to go by
  | arrayStore type =>
    obtain rfl := Option.some.inj he
    obtain ⟨value, stack, rfl, -, hcopies, h⟩ := h.uncons
    obtain ⟨index, stack, rfl, -, -, h⟩ := h.uncons
    obtain ⟨array, stack, rfl, -, -, h⟩ := h.uncons
    have hlost : (stack.any (areCopies value) && missesElement array.expr type) = false := hl
    refine (stored_assign line _ value _).agrees h fun u hu hcopy => ?_
    have hany : stack.any (areCopies value) = true := List.any_eq_true.2 ⟨u, hu, hcopy⟩
    rw [hany, Bool.true_and] at hlost
    have hu := hcopies u (List.mem_cons_of_mem _ (List.mem_cons_of_mem _ hu)) hcopy
    rw [hu, ← isWide_operandType]
    exact missesElement_eq_false_iff.1 hlost
  | arith op type =>
    obtain rfl := Option.some.inj he
    obtain ⟨right, stack, rfl, -, -, h⟩ := h.uncons
    obtain ⟨left, stack, rfl, hleft, -, h⟩ := h.uncons
    exact h.push ((isWide_binary line op left.expr right.expr).trans hleft)
  | neg type =>
    obtain rfl := Option.some.inj he
    obtain ⟨value, stack, rfl, hvalue, -, h⟩ := h.uncons
    exact h.push hvalue
  | convert source target =>
    obtain rfl := Option.some.inj he
    obtain ⟨value, stack, rfl, -, -, h⟩ := h.uncons
    exact h.push (isWide_ofOperand target)
  | compare comparison =>
    obtain rfl := Option.some.inj he
    obtain ⟨right, stack, rfl, -, -, h⟩ := h.uncons
    obtain ⟨left, stack, rfl, -, -, h⟩ := h.uncons
    exact h.push rfl
  | ifZero | ifNull | switch | throw | monitorEnter | monitorExit =>
    obtain rfl := Option.some.inj he
    obtain ⟨value, stack, rfl, -, -, h⟩ := h.uncons
    exact h
  | ifCompare op onReferences target =>
    obtain rfl := Option.some.inj he
    obtain ⟨right, stack, rfl, -, -, h⟩ := h.uncons
    obtain ⟨left, stack, rfl, -, -, h⟩ := h.uncons
    exact h
  | «return» type =>
    obtain rfl := Option.some.inj he
    cases type with
    | none => exact h
    | some type =>
      obtain ⟨value, stack, rfl, -, -, h⟩ := h.uncons
      exact h
  | newArray | anewArray | arrayLength | instanceOf =>
    obtain rfl := Option.some.inj he
    obtain ⟨value, stack, rfl, -, -, h⟩ := h.uncons
    exact h.push rfl
  | checkCast index =>
    obtain rfl := Option.some.inj he
    obtain ⟨value, stack, rfl, -, -, h⟩ := h.uncons
    exact h.push (isWide_ofClassConstant _)
  | multiNewArray index dimensions =>
    obtain rfl := Option.some.inj he
    let s : SimState := ⟨stack, statements, condition, switchKey, diagnostics, nextMark, reported⟩
    have hreverse : Agrees ((List.replicate dimensions.toNat .int).reverse ++ rest) s.stack s.nextMark := by
      rwa [List.reverse_replicate]
    have hcounts := popArgs_agrees line List.length_replicate hreverse
    exact hcounts.push (isWide_arrayOf _ _)

/-- Where a value takes the place of a copy, the widths stay right only if it is as wide. -/
theorem Stored.isWide_of_widths {value : StackValue} {e : Expr} {stmt : SimpleStmt} {t : SimState}
    (ht : Stored value e stmt s t) (h : Agrees kinds s.stack s.nextMark)
    (hwidths : t.stack.map (·.isWide) = kinds.map (·.isWide)) :
    ∀ u ∈ s.stack, areCopies value u = true → e.type.isWide = u.isWide := by
  intro u hu hcopy
  cases ht with
  | copy hstack habove hc =>
    rename_i above below copy
    have hsame := hwidths.trans h.widths.symm
    simp only [hstack, List.map_append, List.map_cons, List.append_cancel_left_eq,
      List.cons.injEq, and_true] at hsame
    have he : e.type.isWide = copy.isWide := hsame
    rw [areCopies_comm] at hc
    exact he.trans (h.copies copy (by simp [hstack]) u hu (areCopies_trans hc hcopy))
  | statement hnone =>
    rw [hnone u hu] at hcopy
    cases hcopy

/-- An instruction that loses a width makes one wrong. -/
theorem step_disagrees (he : i.operation.kindEffect? ctx.pool = some effect)
    (h : Agrees (effect.takes ++ rest) s.stack s.nextMark)
    (hl : losesWidth ctx.pool i.operation s.stack = true) :
    (after (step ctx i) s).stack.map (·.isWide) ≠ (effect.gives ++ rest).map (·.isWide) := by
  obtain ⟨address, length, line, operation⟩ := i
  obtain ⟨stack, statements, condition, switchKey, diagnostics, nextMark, reported⟩ := s
  dsimp only at he hl h
  unfold step
  dsimp only
  intro hwidths
  -- only four operations can lose a width, and each of them shows it at once
  cases operation with
  | ldc index =>
    simp only [Instruction.kindEffect?, Option.bind_eq_bind, Option.bind_eq_some_iff, Option.pure_def,
      Option.some.injEq] at he
    obtain ⟨kind, hkind, rfl⟩ := he
    obtain ⟨⟨dynamic, hdynamic, hwide⟩, hnarrow⟩ := isWide_constant_of_dynamic hl line
    obtain rfl : dynamic = kind := Option.some.inj (hdynamic.symm.trans hkind)
    have htop : (constant ctx.pool line index).type.isWide = dynamic.isWide := (List.cons.inj hwidths).1
    rw [hnarrow, hwide] at htop
    cases htop
  | arrayLoad type =>
    obtain rfl := Option.some.inj he
    obtain ⟨index, stack, rfl, -, -, h⟩ := h.uncons
    obtain ⟨array, stack, rfl, -, -, h⟩ := h.uncons
    have hmisses : missesElement array.expr type = true := hl
    have htop : (array.expr.type.element?.getD .unknown).isWide = type.kind.isWide :=
      (List.cons.inj hwidths).1
    rw [← isWide_operandType, ← missesElement_eq_false_iff, hmisses] at htop
    cases htop
  -- the store is a copy of the value, which the array does not know as one of its elements
  | arrayStore type =>
    obtain rfl := Option.some.inj he
    obtain ⟨value, stack, rfl, -, hcopies, h⟩ := h.uncons
    obtain ⟨index, stack, rfl, -, -, h⟩ := h.uncons
    obtain ⟨array, stack, rfl, -, -, h⟩ := h.uncons
    have hlost : (stack.any (areCopies value) && missesElement array.expr type) = true := hl
    obtain ⟨hany, hmisses⟩ := Bool.and_eq_true_iff.1 hlost
    let assignment := Expr.assign line (.arrayLoad line array.expr index.expr) value.expr
    have hstored : Stored value assignment (.expr line assignment)
        ⟨stack, statements, condition, switchKey, diagnostics, nextMark, reported⟩ _ :=
      stored_assign line (.arrayLoad line array.expr index.expr) value _
    have hcopy := hstored.isWide_of_widths h hwidths
    have hassignment : (array.expr.type.element?.getD .unknown).isWide = type.kind.isWide := by
      obtain ⟨u, hu, hvu⟩ := List.any_eq_true.1 hany
      exact (hcopy u hu hvu).trans
        (hcopies u (List.mem_cons_of_mem _ (List.mem_cons_of_mem _ hu)) hvu)
    rw [← isWide_operandType, ← missesElement_eq_false_iff, hmisses] at hassignment
    cases hassignment
  | iinc slot delta =>
    obtain rfl := Option.some.inj he
    obtain _ | ⟨top, stack⟩ := stack
    · cases hl
    have hlost : (top.expr.isLocalSlot slot && top.isWide) = true := hl
    obtain ⟨hlocal, hwide⟩ := Bool.and_eq_true_iff.1 hlost
    have hafter : (after (increment line slot delta.toInt32 (address + length))
        ⟨top :: stack, statements, condition, switchKey, diagnostics, nextMark, reported⟩).stack =
        ⟨.increment line (.localVar line (.ofSlot slot (address + length) .int)) delta.toInt32 false,
          top.mark⟩ :: stack := by
      show (after (if top.expr.isLocalSlot slot then _ else _) _).stack = _
      rw [if_pos hlocal]
      rfl
    have hsame : (_ : List StackValue).map (·.isWide) = (top :: stack).map (·.isWide) :=
      hwidths.trans h.widths.symm
    rw [PlacedInstruction.next, hafter] at hsame
    have htop : false = top.isWide := (List.cons.inj hsame).1
    rw [hwide] at htop
    cases htop
  | stack op => cases he
  | _ => cases hl

/-- Behind an instruction that is run on its own, the widths are right exactly if it loses none, and then
the stack agrees with the kinds. -/
theorem next_agrees (h : Agrees kinds s.stack s.nextMark)
    (hk : i.operation.kindsAfter? ctx.pool kinds = some kinds') :
    ((next ctx i s).stack.map (·.isWide) = kinds'.map (·.isWide) ↔
        losesWidth ctx.pool i.operation s.stack = false) ∧
      (losesWidth ctx.pool i.operation s.stack = false →
        Agrees kinds' (next ctx i s).stack (next ctx i s).nextMark) := by
  rw [stack_next, nextMark_next]
  by_cases hstack : ∃ op, i.operation = .stack op
  · obtain ⟨op, hop⟩ := hstack
    have hstep : step ctx i = stackOp i.line op := by rw [step, hop]
    rw [hop] at hk
    obtain ⟨moved, hmoved, hwidths⟩ := exists_moved? h.widths hk
    have hagrees : Agrees kinds' (after (step ctx i) s).stack (after (step ctx i) s).nextMark := by
      rw [hstep]
      exact stackOp_agrees h hwidths hmoved
    have hl : losesWidth ctx.pool i.operation s.stack = false := by rw [hop]; rfl
    exact ⟨iff_of_true hagrees.widths hl, fun _ => hagrees⟩
  · rw [not_exists] at hstack
    obtain ⟨effect, rest, he, rfl, rfl⟩ := (Instruction.kindsAfter?_eq_some_iff hstack).1 hk
    refine ⟨⟨fun hwidths => ?_, fun hl => (step_agrees he h hl).widths⟩, step_agrees he h⟩
    by_contra hl
    exact step_disagrees he h (Bool.not_eq_false _ ▸ hl) hwidths

end Steps

/-! ## Runs -/

/-- The kinds of the values that the machine has on its stack at a point of a run from an empty stack. -/
def Point.kinds? (pool : ConstantPool) (p : Point) : Option (List ValueKind) :=
  PlacedInstruction.kindsAfter? pool p.behind []

/-- An instruction that only moves values moves and drops those that the machine does, where the values of
the stack have the given kinds. -/
def MovesRight (ctx : SimContext) (kinds : List ValueKind) (i : PlacedInstruction) (s : SimState) : Prop :=
  ∀ op, i.operation = .stack op →
    let values := kinds.zip (s.stack.map (·.expr))
    ∃ moved, op.moved? (·.1.isWide) values = some moved ∧
      (next ctx i s).stack.map (·.expr) = moved.map (·.2) ∧
      (next ctx i s).statements = s.statements ++
        (((op.dropped (·.1.isWide) values).map (·.2)).filter hasEffect).map (.expr i.line)

/-- At a point of a run, exactly the values that the machine counts as two slots are counted so, and an
instruction behind the point that only moves values moves the right ones. -/
structure Point.IsRight (ctx : SimContext) (p : Point) : Prop where
  widths : ∃ kinds, p.kinds? ctx.pool = some kinds ∧
    p.state.stack.map (·.isWide) = kinds.map (·.isWide)
  moves : ∀ kinds i rest, p.kinds? ctx.pool = some kinds → p.ahead = i :: rest →
    MovesRight ctx kinds i p.state

/-- Whether the instruction behind a point loses no width. An addition that is taken together with a load
does not. -/
def Point.keepsWidths (ctx : SimContext) (p : Point) : Bool :=
  match p.ahead with
  | [] => true
  | i :: rest =>
    (preIncrement? p.state.stack i rest).isSome || !losesWidth ctx.pool i.operation p.state.stack

section Runs

variable {ctx : SimContext} {is : List PlacedInstruction}

/-- The machine has a stack of kinds at every point of a run that it can make. -/
theorem exists_kinds {final : List ValueKind}
    (htyped : PlacedInstruction.kindsAfter? ctx.pool is [] = some final) {s : SimState} {p : Point}
    (hp : p ∈ points ctx [] is s) : ∃ kinds, p.kinds? ctx.pool = some kinds ∧
      PlacedInstruction.kindsAfter? ctx.pool p.ahead kinds = some final := by
  rw [← List.nil_append is, ← behind_append_ahead hp, PlacedInstruction.kindsAfter?_append] at htyped
  exact Option.bind_eq_some_iff.1 htyped

/-- The kinds behind an instruction are those in front of it with the instruction run on them. -/
theorem kindsAfter?_of_kinds? {behind rest : List PlacedInstruction} {i : PlacedInstruction}
    {s t : SimState} {kinds kinds' : List ValueKind}
    (h : Point.kinds? ctx.pool ⟨behind, i :: rest, s⟩ = some kinds)
    (h' : Point.kinds? ctx.pool ⟨behind ++ [i], rest, t⟩ = some kinds') :
    i.operation.kindsAfter? ctx.pool kinds = some kinds' := by
  rw [Point.kinds?] at h h'
  rwa [PlacedInstruction.kindsAfter?_append, h, Option.bind_some,
    PlacedInstruction.kindsAfter?_singleton] at h'

/-- An instruction that only moves values moves the right ones wherever the widths are right. -/
theorem movesRight_of_widths {kinds kinds' : List ValueKind} {i : PlacedInstruction} {s : SimState}
    (hwidths : s.stack.map (·.isWide) = kinds.map (·.isWide))
    (hk : i.operation.kindsAfter? ctx.pool kinds = some kinds') : MovesRight ctx kinds i s := by
  intro op hop values
  rw [hop] at hk
  -- both stacks are read off the pairs of a kind and a value
  let pairs := kinds.zip s.stack
  have hlength : s.stack.length = kinds.length := by simpa using congrArg List.length hwidths
  have hkinds : pairs.map (·.1) = kinds := List.map_fst_zip (by omega)
  have hstack : pairs.map (·.2) = s.stack := List.map_snd_zip (by omega)
  have hvalues : pairs.map (Prod.map id (·.expr)) = values := by
    simp only [values, pairs, List.zip_map_right]
  have hsame : ∀ v ∈ pairs, v.2.isWide = v.1.isWide := by
    rw [← hkinds, ← hstack, List.map_map, List.map_map] at hwidths
    exact List.map_inj_left.1 hwidths
  obtain ⟨moved, hmoved, -⟩ : ∃ moved, op.moved? (·.1.isWide) pairs = some moved ∧ _ := by
    have hpairs : op.moved? ValueKind.isWide (pairs.map (·.1)) =
        (op.moved? (·.1.isWide) pairs).map (List.map (·.1)) := StackOp.moved?_map op fun _ _ => rfl
    rw [hkinds] at hpairs
    exact Option.map_eq_some_iff.1 (hpairs.symm.trans hk)
  have hrun : op.moved? StackValue.isWide (pairs.map (·.2)) = _ := StackOp.moved?_map op hsame
  have hdropped : op.dropped StackValue.isWide (pairs.map (·.2)) = _ := StackOp.dropped_map op hsame
  rw [hstack, hmoved] at hrun
  rw [hstack] at hdropped
  have hmoves := movesAs_stackOp i.line hrun
  rw [show stackOp i.line op = step ctx i by rw [step, hop]] at hmoves
  refine ⟨moved.map (Prod.map id (·.expr)), ?_, ?_, ?_⟩
  · rw [← hvalues, StackOp.moved?_map op fun _ _ => rfl]
    exact congrArg (Option.map _) hmoved
  · rw [stack_next, hmoves.moved, List.map_map, List.map_map]
    rfl
  · rw [statements_next, hmoves.statements, hdropped, ← hvalues, StackOp.dropped_map op fun _ _ => rfl,
      List.map_map, List.map_map]
    rfl

/-- Along a run whose instructions lose no width, or lose none because the widths turn out right, the stack
agrees with the kinds. -/
theorem agrees_of_mem_points {final : List ValueKind}
    (htyped : PlacedInstruction.kindsAfter? ctx.pool is [] = some final)
    (h : ∀ behind i rest t, ⟨behind, i :: rest, t⟩ ∈ points ctx [] is (start []) →
      preIncrement? t.stack i rest = none → losesWidth ctx.pool i.operation t.stack = false ∨
        Point.IsRight ctx ⟨behind ++ [i], rest, next ctx i t⟩) :
    ∀ p ∈ points ctx [] is (start []), ∃ kinds, p.kinds? ctx.pool = some kinds ∧
      Agrees kinds p.state.stack p.state.nextMark := by
  -- a step that keeps the widths, or is right all the same, keeps the agreement
  have hnext : ∀ behind i rest t kinds, ⟨behind, i :: rest, t⟩ ∈ points ctx [] is (start []) →
      preIncrement? t.stack i rest = none →
      Point.kinds? ctx.pool ⟨behind, i :: rest, t⟩ = some kinds → Agrees kinds t.stack t.nextMark →
      ∃ kinds', Point.kinds? ctx.pool ⟨behind ++ [i], rest, next ctx i t⟩ = some kinds' ∧
        Agrees kinds' (next ctx i t).stack (next ctx i t).nextMark := by
    intro behind i rest t kinds hmem hpre hkinds hagrees
    obtain ⟨kinds', hkinds', -⟩ := exists_kinds htyped (next_mem_points hmem hpre)
    have hk := kindsAfter?_of_kinds? hkinds hkinds'
    obtain ⟨hiff, hafter⟩ := next_agrees hagrees hk
    refine ⟨kinds', hkinds', ?_⟩
    rcases h behind i rest t hmem hpre with hl | hright
    · exact hafter hl
    · obtain ⟨kinds₁, hkinds₁, hwidths⟩ := hright.widths
      obtain rfl := Option.some.inj (hkinds'.symm.trans hkinds₁)
      exact hafter (hiff.1 hwidths)
  refine points_induction ⟨[], rfl, rfl, by simp [start], by simp [start]⟩ ?_ ?_
  · rintro behind i j rest t e ⟨kinds, hkinds, hagrees⟩ hpre
    obtain ⟨slot, delta, hi, hj, rfl⟩ := preIncrement?_eq_some hpre
    refine ⟨.int :: kinds, ?_, hagrees.push rfl⟩
    have hpair : PlacedInstruction.kindsAfter? ctx.pool [i, j] kinds = some (.int :: kinds) := by
      simp [PlacedInstruction.kindsAfter?, hi, hj, Instruction.kindsAfter?, Instruction.kindEffect?,
        OperandType.kind]
    rw [Point.kinds?] at hkinds ⊢
    rw [PlacedInstruction.kindsAfter?_append, hkinds]
    exact hpair
  · rintro behind i rest t hmem ⟨kinds, hkinds, hagrees⟩ hpre
    exact hnext behind i rest t kinds hmem hpre hkinds hagrees

end Runs

end Sim

/-- **The widths of values.** Along the run of a block that the machine can run, from an empty stack, the
values counted as two slots are exactly the `long` and `double` ones, and the instructions that move values
move and drop those that the machine does, if and only if no instruction loses a width. -/
theorem Block.widths_right_iff {ctx : SimContext} {b : Block} {final : List ValueKind}
    (htyped : PlacedInstruction.kindsAfter? ctx.pool b.instructions [] = some final) :
    (∀ p ∈ Sim.points ctx [] b.instructions (Sim.start []), p.IsRight ctx) ↔
      ∀ p ∈ Sim.points ctx [] b.instructions (Sim.start []), p.keepsWidths ctx = true := by
  constructor
  -- where all is right, the state agrees, so that a step that lost a width would be wrong
  · intro hright
    have hagrees := Sim.agrees_of_mem_points htyped fun behind i rest t hmem hpre =>
      .inr (hright _ (Sim.next_mem_points hmem hpre))
    rintro ⟨behind, _ | ⟨i, rest⟩, t⟩ hmem
    · rfl
    cases hpre : Sim.preIncrement? t.stack i rest with
    | some e => simp [Sim.Point.keepsWidths, hpre]
    | none =>
      obtain ⟨kinds, hkinds, hagrees⟩ := hagrees _ hmem
      obtain ⟨kinds', hkinds', hwidths⟩ := (hright _ (Sim.next_mem_points hmem hpre)).widths
      have hiff := (Sim.next_agrees hagrees (Sim.kindsAfter?_of_kinds? hkinds hkinds')).1
      simp [Sim.Point.keepsWidths, hpre, hiff.1 hwidths]
  · intro hkeeps
    have hagrees := Sim.agrees_of_mem_points htyped fun behind i rest t hmem hpre => .inl <| by
      simpa [Sim.Point.keepsWidths, hpre] using hkeeps _ hmem
    intro p hmem
    obtain ⟨kinds, hkinds, hagrees⟩ := hagrees p hmem
    refine ⟨⟨kinds, hkinds, hagrees.widths⟩, fun kinds₁ i rest hkinds₁ hahead => ?_⟩
    obtain rfl := Option.some.inj (hkinds.symm.trans hkinds₁)
    obtain ⟨kinds₁, hkinds₁, hrest⟩ := Sim.exists_kinds htyped hmem
    obtain rfl := Option.some.inj (hkinds.symm.trans hkinds₁)
    obtain ⟨kinds', hk, -⟩ : ∃ kinds', i.operation.kindsAfter? ctx.pool kinds = some kinds' ∧ _ := by
      rw [hahead] at hrest
      exact Option.bind_eq_some_iff.1 hrest
    exact Sim.movesRight_of_widths hagrees.widths hk

/-- A `long` that is copied, stored and converted. -/
theorem Block.widths_right_iff_copiedLong :
    let ctx : SimContext := ⟨.empty, true, 4⟩
    let b : Block := ⟨0, [⟨0, 1, none, .load .long 0⟩, ⟨1, 1, none, .stack .dup2⟩,
      ⟨2, 1, none, .store .long 2⟩, ⟨3, 1, none, .convert .long .int⟩, ⟨4, 1, none, .stack .pop⟩], .return⟩
    PlacedInstruction.kindsAfter? ctx.pool b.instructions [] = some [] ∧
      ∀ p ∈ Sim.points ctx [] b.instructions (Sim.start []), p.IsRight ctx :=
  ⟨by decide, (@Block.widths_right_iff _ _ [] (by decide)).2 (by decide)⟩

/-- Each of the four ways to lose a width occurs in code that the machine can run: a `long` taken from an
array in a local variable, one that is stored in such an array and used as well, one that is loaded from a
slot which is then given an `int` and counted up, and a dynamically computed constant are all counted as one
slot. -/
theorem Block.widths_lost :
    let ctx : SimContext :=
      ⟨.ofSlots [none, some (.utf8 "x"), some (.utf8 "J"), some (.nameAndType 1 2), some (.dynamic 0 3)],
        true, 6⟩
    let lost (operations : List Instruction) : Prop :=
      let is := operations.map fun operation => ⟨0, 1, none, operation⟩
      PlacedInstruction.kindsAfter? ctx.pool is [] = some [.long] ∧
        ((Block.simulate ctx ⟨0, is, .fallThrough 1⟩ []).exitStack.map (·.type.isWide)) = [false]
    lost [.load .reference 0, .push 0 .iconst, .arrayLoad .long] ∧
      lost [.load .reference 0, .push 0 .iconst, .longConst 1, .stack .dup2X2, .arrayStore .long] ∧
      lost [.load .long 1, .push 0 .iconst, .store .int 1, .iinc 1 1] ∧
      lost [.ldc 4] := by
  decide +kernel

end JvmDecompiler
