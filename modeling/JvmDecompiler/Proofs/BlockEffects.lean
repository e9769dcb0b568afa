import JvmDecompiler.Proofs.BlockEnds
import JvmDecompiler.Simulation

/-!
# What running a block leaves behind

A block leaves a condition or a key behind exactly as its terminator says (`Block.Sealed`), and a
statement that ends the method only at its end. A block that does nothing but compute a condition leaves
no statements behind.

For the latter the height of the stack is weighed against the statements. A statement takes the place of
a value that is not put on the stack, so a computation that ends as high as its instructions say has left
none behind.
-/

namespace JvmDecompiler

/-- Whether the method ends with the instruction. -/
def Instruction.leaves : Instruction → Bool
  | .return _ | .throw => true
  | _ => false

/-- Only an instruction that ends its block can end the method. -/
theorem Instruction.leaves_of_endsBlock {i : Instruction} (h : i.endsBlock = false) :
    i.leaves = false := by
  cases i <;> first | rfl | cases h

namespace Sim

/-- The state behind a computation. -/
def after {α : Type} (x : Sim α) (s : SimState) : SimState := (StateT.run x s).2

/-- A state with some more statements, behind each of which control goes on. -/
def Adds (s t : SimState) : Prop :=
  ∃ added, t.statements = s.statements ++ added ∧ ∀ stmt ∈ added, stmt.endsFlow = false

/-- No statement is added if the list is the same. -/
theorem Adds.of_eq {s t : SimState} (h : t.statements = s.statements) : Adds s t :=
  ⟨[], by rw [h, List.append_nil], by simp⟩

/-- What is added in two steps is added by both together. -/
theorem Adds.trans {s t u : SimState} (h₁ : Adds s t) (h₂ : Adds t u) : Adds s u := by
  obtain ⟨a, ha, haflow⟩ := h₁
  obtain ⟨b, hb, hbflow⟩ := h₂
  refine ⟨a ++ b, by rw [hb, ha, List.append_assoc], fun stmt hstmt => ?_⟩
  exact (List.mem_append.1 hstmt).elim (haflow stmt) (hbflow stmt)

/-- A computation that adds only statements behind which control goes on, and raises the stack by at most
`weight` unless it reports a problem; where it raises it by so much, it adds no statements. -/
structure Effect {α : Type} (weight : Int) (x : Sim α) : Prop where
  adds : ∀ s, Adds s (after x s)
  quiet : ∀ s, (after x s).diagnostics = [] → s.diagnostics = []
  height : ∀ s, (after x s).diagnostics = [] →
    ((after x s).stack.length : Int) ≤ s.stack.length + weight
  same : ∀ s, (after x s).diagnostics = [] →
    ((after x s).stack.length : Int) = s.stack.length + weight → (after x s).statements = s.statements

section Effect

variable {α β : Type} {x : Sim α} {f : α → Sim β} {v w : Int}

/-- The state behind two computations is that behind the second, started behind the first. -/
theorem after_bind (x : Sim α) (f : α → Sim β) (s : SimState) :
    after (x >>= f) s = after (f (StateT.run x s).1) (after x s) := rfl

/-- A value that is given leaves the state as it is. -/
@[simp] theorem after_pure (a : α) (s : SimState) : after (pure a) s = s := rfl

/-- A change of the state leads to the changed state. -/
@[simp] theorem after_modify (f : SimState → SimState) (s : SimState) : after (modify f) s = f s := rfl

/-- The weights of two computations in a row add up. -/
theorem Effect.bind (hx : Effect v x) (hf : ∀ a, Effect w (f a)) : Effect (v + w) (x >>= f) := by
  have hnext : ∀ s, Effect w (f (StateT.run x s).1) := fun s => hf (StateT.run x s).1
  have hquiet : ∀ s, (after (x >>= f) s).diagnostics = [] → (after x s).diagnostics = [] :=
    fun s => (hnext s).quiet (after x s)
  have hheight : ∀ s, (after (x >>= f) s).diagnostics = [] →
      ((after (x >>= f) s).stack.length : Int) ≤ (after x s).stack.length + w :=
    fun s => (hnext s).height (after x s)
  refine ⟨fun s => (hx.adds s).trans ((hnext s).adds (after x s)),
    fun s hd => hx.quiet s (hquiet s hd), fun s hd => ?_, fun s hd heq => ?_⟩
  · have h₁ := hx.height s (hquiet s hd)
    have h₂ := hheight s hd
    omega
  · have h₁ := hx.height s (hquiet s hd)
    have h₂ := hheight s hd
    have hsame : (after (x >>= f) s).statements = (after x s).statements :=
      (hnext s).same (after x s) hd (show ((after (x >>= f) s).stack.length : Int) = _ by omega)
    rw [hsame, hx.same s (hquiet s hd) (by omega)]

/-- A bound on the height may be raised. -/
theorem Effect.mono (hx : Effect v x) (h : v ≤ w) : Effect w x := by
  refine ⟨hx.adds, hx.quiet, fun s hd => ?_, fun s hd heq => ?_⟩
  · have := hx.height s hd
    omega
  · have := hx.height s hd
    exact hx.same s hd (by omega)

/-- A value that is given leaves the height as it is. -/
theorem Effect.pure (a : α) : Effect 0 (pure a : Sim α) :=
  ⟨fun _ => .of_eq rfl, fun _ h => h, fun _ _ => by simp, fun _ _ _ => rfl⟩

/-- A computation that changes the stack but adds no statements. -/
theorem Effect.of_statements (hs : ∀ s, (after x s).statements = s.statements)
    (hd : ∀ s, (after x s).diagnostics = [] →
      s.diagnostics = [] ∧ ((after x s).stack.length : Int) ≤ s.stack.length + w) : Effect w x :=
  ⟨fun s => .of_eq (hs s), fun s h => (hd s h).1, fun s h => (hd s h).2,
    fun s _ _ => hs s⟩

/-- Looking at the state leaves the height as it is. -/
theorem effect_get : Effect 0 (get : Sim SimState) :=
  .of_statements (fun _ => rfl) fun s h => ⟨h, show (s.stack.length : Int) ≤ _ by simp⟩

/-- A computation that reports a problem is bound to no height. -/
theorem effect_report (problem : String) : Effect w (report problem) :=
  .of_statements (fun _ => rfl) fun s h => by simp [report] at h

/-- A change of what is neither stack, statements nor diagnostics. -/
theorem effect_modify {f : SimState → SimState} (hstack : ∀ s, (f s).stack = s.stack)
    (hstatements : ∀ s, (f s).statements = s.statements)
    (hdiagnostics : ∀ s, (f s).diagnostics = s.diagnostics) : Effect 0 (modify f : Sim Unit) :=
  .of_statements hstatements fun s h => ⟨hdiagnostics s ▸ h, by simp [hstack]⟩

end Effect

variable (line : SourceLine)

/-! ## The stack -/

/-- To take a value from the stack removes the topmost, and reports a problem if there is none. -/
theorem after_popValue (s : SimState) :
    after (popValue line) s = match s.stack with
      | _ :: rest => { s with stack := rest }
      | [] => { s with diagnostics := s.diagnostics ++ ["operand stack underflow"] } := by
  obtain ⟨stack⟩ := s
  cases stack <;> rfl

/-- To take a value from the stack lowers it by one. -/
theorem effect_popValue : Effect (-1) (popValue line) := by
  refine .of_statements (fun s => ?_) fun s hd => ?_
  · rw [after_popValue]
    split <;> rfl
  · rw [after_popValue] at hd ⊢
    cases hs : s.stack with
    | nil => simp [hs] at hd
    | cons v rest =>
      simp only [hs, List.length_cons] at hd ⊢
      exact ⟨hd, by omega⟩

/-- To take an expression from the stack lowers it by one. -/
theorem effect_pop : Effect (-1) (pop line) := (effect_popValue line).bind fun _ => .pure _

/-- To put a value on the stack raises it by one. -/
theorem effect_pushValue (v : StackValue) : Effect 1 (pushValue v) :=
  .of_statements (fun _ => rfl) fun s h => ⟨h, show ((v :: s.stack).length : Int) ≤ _ by simp⟩

/-- To put an expression on the stack raises it by one. -/
theorem effect_push (e : Expr) : Effect 1 (push e) := effect_pushValue _

/-- A statement weighs as much as the value that it stands for. -/
theorem effect_emit {stmt : SimpleStmt} (h : stmt.endsFlow = false) : Effect 1 (emit stmt) := by
  have hstack : ∀ s, (after (emit stmt) s).stack = s.stack := fun _ => rfl
  refine ⟨fun _ => ⟨[stmt], rfl, by simpa using h⟩, fun _ hd => hd, fun s _ => ?_, fun s _ heq => ?_⟩
  · rw [hstack]
    omega
  · rw [hstack] at heq
    omega

/-- To take the arguments of a call lowers the stack by their number. -/
theorem effect_popArgs (n : Nat) : Effect (-n) (popArgs line n) := by
  induction n with
  | zero => exact .pure _
  | succ n ih =>
    have h := (effect_pop line).bind fun last => ih.bind fun others => .pure (others ++ [last])
    refine h.mono ?_
    push_cast
    omega

/-- Replacing a copy keeps the number of values. -/
theorem length_replaceIn {mark : Nat} {e : Expr} {vs vs' : List StackValue}
    (h : replaceIn mark e vs = some vs') : vs'.length = vs.length := by
  induction vs generalizing vs' with
  | nil => cases h
  | cons v vs ih =>
    unfold replaceIn at h
    split at h
    · obtain rfl := Option.some.inj h
      rfl
    · obtain ⟨rest, hrest, rfl⟩ := Option.map_eq_some_iff.1 h
      rw [List.length_cons, List.length_cons, ih hrest]

/-- Replacing a copy leaves the height as it is. -/
theorem effect_replaceCopy (mark : Option Nat) (e : Expr) : Effect 0 (replaceCopy mark e) := by
  have hrun : ∀ s : SimState, ∃ stack, stack.length = s.stack.length ∧
      after (replaceCopy mark e) s = { s with stack } := by
    intro s
    simp only [after, replaceCopy, StateT.run_bind, StateT.run_get, pure_bind]
    cases h : mark.bind fun m => replaceIn m e s.stack with
    | none => exact ⟨s.stack, rfl, rfl⟩
    | some stack =>
      obtain ⟨m, -, hm⟩ := Option.bind_eq_some_iff.1 h
      exact ⟨stack, length_replaceIn hm, rfl⟩
  refine .of_statements (fun s => ?_) fun s hd => ?_
  · obtain ⟨stack, -, heq⟩ := hrun s
    rw [heq]
  · obtain ⟨stack, hlength, heq⟩ := hrun s
    rw [heq] at hd ⊢
    exact ⟨hd, by simp [hlength]⟩

/-- Checking the depth leaves the height as it is. -/
theorem effect_checkDepth (maxStack : UInt16) : Effect 0 (checkDepth maxStack) := by
  have hreport : ∀ problem, Effect 0 (do
      report problem
      modify fun s => { s with depthReported := true }) := fun problem =>
    Effect.bind (v := 0) (w := 0) (effect_report problem) fun _ =>
      effect_modify (fun _ => rfl) (fun _ => rfl) fun _ => rfl
  refine (effect_get.bind (w := 0) fun s => ?_).mono (by omega)
  dsimp only
  split
  · exact hreport _
  · exact .pure _

/-! ## Copies -/

/-- A computation that counts at most `slots` values, and changes nothing unless it reports a problem. -/
structure CountsAt (slots : Nat) (x : Sim Nat) (s : SimState) : Prop where
  count : (StateT.run x s).1 ≤ slots
  statements : (after x s).statements = s.statements
  same : (after x s).diagnostics = [] → after x s = s

/-- One value before a count of others takes one more slot at most. -/
theorem CountsAt.succ {n slots : Nat} {x : Sim Nat} {s : SimState} (h : CountsAt n x s) (hn : n ≤ slots) :
    CountsAt (slots + 1) (do return 1 + (← x)) s := by
  refine ⟨?_, h.statements, h.same⟩
  have := h.count
  show 1 + (StateT.run x s).1 ≤ slots + 1
  omega

/-- A count that looks at the state first is one that is given the state. -/
theorem countsAt_get {slots : Nat} {f : SimState → Sim Nat} {s : SimState} (h : CountsAt slots (f s) s) :
    CountsAt slots (get >>= f) s := ⟨h.count, h.statements, h.same⟩

/-- Looking for values that make up some slots finds no more values than slots, and changes nothing but
where the stack ends too soon. -/
theorem countsAt_spanning (skipped slots : Nat) (s : SimState) :
    CountsAt slots (spanning line skipped slots) s := by
  induction slots using Nat.strongRecOn generalizing skipped s with
  | ind slots ih =>
    cases slots with
    | zero => exact ⟨Nat.le_refl 0, rfl, fun _ => rfl⟩
    | succ slots =>
      unfold spanning
      refine countsAt_get ?_
      cases hv : s.stack[skipped]? with
      | some v =>
        dsimp only
        split
        · cases slots with
          | zero => exact ⟨Nat.le_refl 1, rfl, fun _ => rfl⟩
          | succ slots => exact (ih slots (by omega) (skipped + 1) s).succ (by omega)
        · exact (ih slots (by omega) (skipped + 1) s).succ (by omega)
      | none =>
        -- a problem is reported in front of the rest
        let s' : SimState :=
          { s with diagnostics := s.diagnostics ++ ["operand stack underflow"]
                   stack := s.stack ++ [missing line] }
        have h := (ih slots (by omega) (skipped + 1) s').succ (Nat.le_refl slots)
        refine ⟨h.count, h.statements, fun hd => ?_⟩
        have hs' : s'.diagnostics = [] := h.same hd ▸ hd
        simp [s'] at hs'

/-- Marking the values for a copy keeps their number. -/
theorem length_markAll (next : Nat) (vs : List StackValue) : (markAll next vs).length = vs.length := by
  induction vs generalizing next with
  | nil => rfl
  | cons v vs ih =>
    unfold markAll
    split <;> rw [List.length_cons, List.length_cons, ih]

/-- A copy raises the stack by what it copies. -/
theorem effect_duplicate (copied skipped : Nat) : Effect copied (duplicate line copied skipped) := by
  -- what is copied is on the stack afterwards, and nothing else has changed unless a shortage was reported
  have key : ∀ s : SimState, ∃ c k t, c ≤ copied ∧ t.statements = s.statements ∧
      (t.diagnostics = [] → t = s) ∧
      after (duplicate line copied skipped) s =
        { t with
          stack := markAll t.nextMark (t.stack.take c) ++ (t.stack.drop c).take k ++
            markAll t.nextMark (t.stack.take c) ++ (t.stack.drop c).drop k
          nextMark := t.nextMark + c } := by
    intro s
    have h₁ := countsAt_spanning line 0 copied s
    have h₂ := countsAt_spanning line (StateT.run (spanning line 0 copied) s).1 skipped
      (after (spanning line 0 copied) s)
    refine ⟨_, _, _, h₁.count, h₂.statements.trans h₁.statements, fun hd => ?_, rfl⟩
    have hsame := h₂.same hd
    rw [hsame] at hd ⊢
    exact h₁.same hd
  refine .of_statements (fun s => ?_) fun s hd => ?_
  · obtain ⟨c, k, t, -, hstatements, -, hafter⟩ := key s
    rw [hafter]
    exact hstatements
  · obtain ⟨c, k, t, hc, -, hsame, hafter⟩ := key s
    rw [hafter] at hd ⊢
    obtain rfl := hsame hd
    refine ⟨hd, ?_⟩
    simp only [List.length_append, length_markAll, List.length_take, List.length_drop]
    omega

/-! ## Effects -/

/-- A value that is discarded is written as a statement if it does something, and dropped otherwise. -/
theorem effect_discard (e : Expr) : Effect 1 (discard line e) := by
  unfold discard
  split
  · exact effect_emit rfl
  · exact (Effect.pure ()).mono (by omega)

/-- An assignment takes the place of the copy of its value on the stack, or is written as a statement. -/
theorem effect_assign (target : Expr) (value : StackValue) : Effect 1 (assign line target value) := by
  refine (effect_replaceCopy _ _).bind (w := 1) fun replaced => ?_
  cases replaced with
  | true => exact (Effect.pure ()).mono (by omega)
  | false => exact effect_emit rfl

/-- A construction takes the place of the copy of what it constructs, or is written as a statement. -/
theorem effect_construct (receiver : StackValue) (className descriptor : String) (args : List Expr) :
    Effect 1 (construct line receiver className descriptor args) := by
  refine (effect_replaceCopy _ _).bind (w := 1) fun replaced => ?_
  cases replaced with
  | true => exact (Effect.pure ()).mono (by omega)
  | false => exact effect_emit rfl

/-- A call leaves its result on the stack, or is written as a statement. -/
theorem effect_pushOrEmit (result : Ty) (call : Expr) : Effect 1 (pushOrEmit line result call) := by
  unfold pushOrEmit
  split
  · exact effect_emit rfl
  · exact effect_push call

/-! ## Instructions -/

/-- A computation that fits an instruction: if this only computes a value, it raises the stack by no more
than the instruction is known to. -/
def Fits (pool : ConstantPool) (i : Instruction) (x : Sim Unit) : Prop :=
  ∃ w, Effect w x ∧ (i.isSideEffectFree pool = true →
    ∀ e, i.stackEffect? pool = some e → w ≤ (e.pushes : Int) - e.pops)

section Fits

variable {pool : ConstantPool} {i : Instruction} {x : Sim Unit} {w : Int}

/-- A computation fits an instruction whose effect on the stack it keeps to. -/
theorem Fits.of_effect {pops pushes : Nat} (hx : Effect w x)
    (hi : i.stackEffect? pool = some ⟨pops, pushes⟩) (hw : w ≤ pushes - pops) : Fits pool i x := by
  refine ⟨w, hx, fun _ e he => ?_⟩
  obtain rfl := Option.some.inj (hi.symm.trans he)
  exact hw

/-- Every computation fits an instruction that has no known effect on the stack. -/
theorem Fits.of_unknown (hx : Effect w x) (hi : i.stackEffect? pool = none) : Fits pool i x :=
  ⟨w, hx, fun _ e he => by rw [hi] at he; cases he⟩

/-- Every computation fits an instruction that does more than to compute a value. -/
theorem Fits.of_impure (hx : Effect w x) (hi : i.isSideEffectFree pool = false) : Fits pool i x :=
  ⟨w, hx, fun h => by rw [hi] at h; cases h⟩

end Fits

/-- The simulation of a stack operation fits it. -/
theorem fits_stackOp (pool : ConstantPool) (op : StackOp) :
    Fits pool (.stack op) (stackOp line op) := by
  have hpop : Effect 0 (do discard line (← pop line)) :=
    (effect_pop line).bind fun e => effect_discard line e
  cases op with
  | pop => exact .of_impure hpop rfl
  | pop2 =>
    refine .of_impure (w := 0) ((effect_pop line).bind (w := 1) fun value => ?_) rfl
    refine (effect_discard line value).bind (w := 0) fun _ => ?_
    split
    · exact hpop
    · exact .pure _
  | dup => exact .of_effect (effect_duplicate line 1 0) rfl (by decide)
  | dupX1 => exact .of_effect (effect_duplicate line 1 1) rfl (by decide)
  | dupX2 => exact .of_unknown (effect_duplicate line 1 2) rfl
  | dup2 => exact .of_unknown (effect_duplicate line 2 0) rfl
  | dup2X1 => exact .of_unknown (effect_duplicate line 2 1) rfl
  | dup2X2 => exact .of_unknown (effect_duplicate line 2 2) rfl
  | swap =>
    have h : Effect (-1 + (-1 + (1 + 1))) (stackOp line .swap) :=
      (effect_popValue line).bind fun a => (effect_popValue line).bind fun b =>
        (effect_pushValue a).bind fun _ => effect_pushValue b
    exact .of_effect h rfl (by decide)

/-- Looking a field up changes nothing. -/
theorem effect_ofField {pool : ConstantPool} {index : UInt16} {w : Int}
    {f : String × String × Ty → Sim Unit} (hf : ∀ m, Effect w (f m)) :
    Effect w (match pool.memberRef? index with
      | some m => pure (m.className, m.name, (Ty.ofDescriptor? m.descriptor).getD .unknown) >>= f
      | none => report s!"unresolvable field #{index}" >>= fun _ =>
        pure ("", s!"field#{index}", Ty.unknown) >>= f) := by
  split
  · exact hf _
  · exact (Effect.bind (v := 0) (effect_report _) fun _ => hf _).mono (by omega)

/-- The simulation of a field access fits it. -/
theorem fits_field (pool : ConstantPool) (op : FieldOp) (index : UInt16) :
    Fits pool (.field op index) (field pool line op index) := by
  cases op with
  | getStatic => exact .of_effect (w := 1) (effect_ofField fun m => effect_push _) rfl (by decide)
  | getField =>
    have h : ∀ m : String × String × Ty, Effect (-1 + 1)
        (do push (.field line (some (← pop line)) m.1 m.2.1 m.2.2)) :=
      fun m => (effect_pop line).bind fun e => effect_push _
    exact .of_effect (effect_ofField h) rfl (by decide)
  | putStatic =>
    have h : ∀ m : String × String × Ty, Effect (-1 + 1)
        (do let value ← popValue line; assign line (.field line none m.1 m.2.1 m.2.2) value) :=
      fun m => (effect_popValue line).bind fun v => effect_assign line _ v
    exact .of_impure (effect_ofField h) rfl
  | putField =>
    have h : ∀ m : String × String × Ty, Effect (-1 + (-1 + 1)) (do
        let value ← popValue line
        let object ← pop line
        assign line (.field line (some object) m.1 m.2.1 m.2.2) value) :=
      fun m => (effect_popValue line).bind fun v => (effect_pop line).bind fun e => effect_assign line _ v
    exact .of_impure (effect_ofField h) rfl

/-- The effect of a call by its descriptor, if the call has a result. -/
theorem of_ofCall? {descriptor : String} {receivers : Nat} {e : StackEffect}
    (h : StackEffect.ofCall? descriptor receivers = some e) (hpushes : 0 < e.pushes) :
    e.pushes = 1 ∧ e.pops = (callType descriptor).parameters.length + receivers := by
  unfold StackEffect.ofCall? at h
  obtain ⟨m, hm, h⟩ := Option.bind_eq_some_iff.1 h
  obtain rfl := Option.some.inj h
  dsimp only at hpushes ⊢
  split at hpushes
  · cases hpushes
  · rename_i hresult
    rw [if_neg hresult, callType, hm, Option.getD_some]
    exact ⟨rfl, rfl⟩

/-- A call takes its arguments, and the object it is made on, and leaves at most its result. -/
theorem effect_call (kind : InvokeKind) (owner name descriptor : String) :
    Effect (-(callType descriptor).parameters.length + (if kind = .static then 1 else 0)) (do
      let args ← popArgs line (callType descriptor).parameters.length
      if kind = .static then
        pushOrEmit line (callType descriptor).result (.invoke line kind none owner name descriptor args)
      else
        let receiver ← popValue line
        let call := Expr.invoke line kind (some receiver.expr) owner name descriptor args
        match receiver.expr with
        | .uninitNew _ className =>
          if name = "<init>" then construct line receiver className descriptor args
          else pushOrEmit line (callType descriptor).result call
        | _ => pushOrEmit line (callType descriptor).result call) := by
  refine (effect_popArgs line _).bind fun args => ?_
  split
  · exact effect_pushOrEmit line _ _
  · refine ((effect_popValue line).bind (w := 1) fun receiver => ?_).mono (by omega)
    dsimp only
    split
    · split
      · exact effect_construct line receiver _ descriptor args
      · exact effect_pushOrEmit line _ _
    · exact effect_pushOrEmit line _ _

/-- The simulation of a call fits it. -/
theorem fits_invoke (pool : ConstantPool) (kind : InvokeKind) (index : UInt16) :
    Fits pool (.invoke kind index) (invoke pool line kind index) := by
  have hcall := @effect_call line kind
  unfold invoke
  cases hm : pool.memberRef? index with
  | none =>
    refine .of_unknown (Effect.bind (v := 0) (effect_report _) fun _ => hcall _ _ _) ?_
    simp [Instruction.stackEffect?, hm]
  | some m =>
    refine ⟨_, hcall m.className m.name m.descriptor, fun hfree e he => ?_⟩
    have hpushes : 0 < e.pushes := by simpa [Instruction.isSideEffectFree, he] using hfree
    have heffect : StackEffect.ofCall? m.descriptor (if kind = .static then 0 else 1) = some e := by
      simpa [Instruction.stackEffect?, hm] using he
    obtain ⟨h₁, h₂⟩ := of_ofCall? heffect hpushes
    rw [h₁, h₂]
    split <;> push_cast <;> omega

/-- The simulation of a dynamic call fits it. -/
theorem fits_invokeDynamic (pool : ConstantPool) (index : UInt16) :
    Fits pool (.invokeDynamic index) (invokeDynamic pool line index) := by
  have hcall : ∀ name descriptor, Effect (-(callType descriptor).parameters.length + 1) (do
      let args ← popArgs line (callType descriptor).parameters.length
      pushOrEmit line (callType descriptor).result (.invokeDynamic line name descriptor args)) :=
    fun name descriptor => (effect_popArgs line _).bind fun args => effect_pushOrEmit line _ _
  unfold invokeDynamic
  cases hm : pool.callSite? index with
  | none =>
    refine .of_unknown (Effect.bind (v := 0) (effect_report _) fun _ => hcall _ _) ?_
    simp [Instruction.stackEffect?, hm]
  | some site =>
    refine ⟨_, hcall site.1 site.2, fun hfree e he => ?_⟩
    have hpushes : 0 < e.pushes := by simpa [Instruction.isSideEffectFree, he] using hfree
    have heffect : StackEffect.ofCall? site.2 0 = some e := by
      simpa [Instruction.stackEffect?, hm] using he
    obtain ⟨h₁, h₂⟩ := of_ofCall? heffect hpushes
    rw [h₁, h₂]
    push_cast
    omega

/-- The simulation of an increment fits it. -/
theorem fits_increment (pool : ConstantPool) (slot : UInt16) (delta : Int16) (pc : Address) :
    Fits pool (.iinc slot delta) (increment line slot delta.toInt32 pc) := by
  refine .of_impure (w := 1) ?_ rfl
  let stmt := SimpleStmt.expr line
    (.increment line (.localVar line (.ofSlot slot pc .int)) delta.toInt32 false)
  -- the topmost value changes, or a statement is added
  have key : ∀ s, (∃ stack, stack.length = s.stack.length ∧
      after (increment line slot delta.toInt32 pc) s = { s with stack }) ∨
      after (increment line slot delta.toInt32 pc) s = after (emit stmt) s := by
    rintro ⟨stack, statements, condition, switchKey, diagnostics, nextMark, depthReported⟩
    cases stack with
    | nil => exact .inr rfl
    | cons top rest =>
      by_cases htop : top.expr.isLocalSlot slot = true
      · refine .inl ⟨⟨.increment line (.localVar line (.ofSlot slot pc .int)) delta.toInt32 false,
          top.mark⟩ :: rest, rfl, ?_⟩
        unfold increment
        rw [after_bind]
        show after (if top.expr.isLocalSlot slot = true then _ else _) _ = _
        rw [if_pos htop]
        rfl
      · refine .inr ?_
        unfold increment
        rw [after_bind]
        show after (if top.expr.isLocalSlot slot = true then _ else _) _ = _
        rw [if_neg htop]
        rfl
  have hemit : Effect 1 (emit stmt) := effect_emit rfl
  refine ⟨fun s => ?_, fun s hd => ?_, fun s hd => ?_, fun s hd heq => ?_⟩ <;>
    rcases key s with ⟨stack, hlength, hs⟩ | hs
  · exact .of_eq (by rw [hs])
  · exact hs ▸ hemit.adds s
  · rwa [hs] at hd
  · exact hemit.quiet s (hs ▸ hd)
  · simp only [hs, hlength]
    omega
  · exact hs ▸ hemit.height s (hs ▸ hd)
  · simp only [hs, hlength] at heq
    omega
  · exact hs ▸ hemit.same s (hs ▸ hd) (hs ▸ heq)

/-- What running an instruction does fits it, unless the method ends with it. -/
theorem fits_step (ctx : SimContext) (i : PlacedInstruction) (h : i.operation.leaves = false) :
    Fits ctx.pool i.operation (step ctx i) := by
  -- what most instructions are made of: values taken, then one value put back, or a condition noted
  have hpush : ∀ e, Effect 1 (push e) := effect_push
  have hunary : ∀ f : Expr → Expr, Effect (-1 + 1) (do push (f (← pop i.line))) :=
    fun f => (effect_pop i.line).bind fun e => effect_push (f e)
  have hbinary : ∀ f : Expr → Expr → Expr, Effect (-1 + (-1 + 1))
      (do let right ← pop i.line; let left ← pop i.line; push (f left right)) :=
    fun f => (effect_pop i.line).bind fun right => (effect_pop i.line).bind fun left =>
      effect_push (f left right)
  have hcondition : ∀ e : Expr, Effect 0 (modify fun s => { s with condition := some e } : Sim Unit) :=
    fun e => effect_modify (fun _ => rfl) (fun _ => rfl) fun _ => rfl
  have hkey : ∀ e : Expr, Effect 0 (modify fun s => { s with switchKey := some e } : Sim Unit) :=
    fun e => effect_modify (fun _ => rfl) (fun _ => rfl) fun _ => rfl
  unfold step
  dsimp only
  cases hop : i.operation with
  | nop | goto | ret => exact .of_effect (.pure ()) rfl (by decide)
  | aconstNull | push | longConst | floatConst | doubleConst | ldc | new | jsr =>
    exact .of_effect (hpush _) rfl (by decide)
  | load type slot =>
    dsimp only
    split <;> exact .of_effect (hpush _) rfl (by decide)
  | store type slot =>
    exact .of_impure ((effect_popValue _).bind fun v => effect_assign _ _ v) rfl
  | iinc slot delta => exact fits_increment i.line ctx.pool slot delta i.next
  | arrayLoad type =>
    exact .of_effect (hbinary fun array index => .arrayLoad i.line array index) rfl (by decide)
  | arrayStore type =>
    exact .of_impure ((effect_popValue _).bind fun v => (effect_pop _).bind fun index =>
      (effect_pop _).bind fun array => effect_assign _ _ v) rfl
  | stack op => exact fits_stackOp i.line ctx.pool op
  | arith op type => exact .of_effect (hbinary fun l r => .binary i.line (.ofArith op) l r) rfl (by decide)
  | neg type => exact .of_effect (hunary fun e => .neg i.line e) rfl (by decide)
  | convert source target =>
    exact .of_effect (hunary fun e => .cast i.line (.ofOperand target) e) rfl (by decide)
  | compare kind => exact .of_effect (hbinary fun l r => .threeWay i.line kind l r) rfl (by decide)
  | ifZero op target => exact .of_effect ((effect_pop _).bind fun e => hcondition _) rfl (by decide)
  | ifCompare op onReferences target =>
    exact .of_effect ((effect_pop _).bind fun r => (effect_pop _).bind fun l => hcondition _) rfl
      (by decide)
  | ifNull null target => exact .of_effect ((effect_pop _).bind fun e => hcondition _) rfl (by decide)
  | switch default cases => exact .of_effect ((effect_pop _).bind fun e => hkey e) rfl (by decide)
  | «return» | throw => simp [hop, Instruction.leaves] at h
  | field op index => exact fits_field i.line ctx.pool op index
  | invoke kind index => exact fits_invoke i.line ctx.pool kind index
  | invokeDynamic index => exact fits_invokeDynamic i.line ctx.pool index
  | newArray element =>
    exact .of_effect (hunary fun e => .newArray i.line (.ofOperand element) [e]) rfl (by decide)
  | anewArray index =>
    exact .of_effect (hunary fun e => .newArray i.line _ [e]) rfl (by decide)
  | multiNewArray index dimensions =>
    refine .of_effect ((effect_popArgs i.line dimensions.toNat).bind fun counts => hpush _) rfl ?_
    push_cast
    omega
  | arrayLength => exact .of_effect (hunary fun e => .arrayLength i.line e) rfl (by decide)
  | checkCast index => exact .of_effect (hunary fun e => .cast i.line _ e) rfl (by decide)
  | instanceOf index => exact .of_effect (hunary fun e => .instanceOf i.line e _) rfl (by decide)
  | monitorEnter =>
    exact .of_impure ((effect_pop _).bind (w := 1) fun e => effect_emit rfl) rfl
  | monitorExit =>
    exact .of_impure ((effect_pop _).bind (w := 1) fun e => effect_emit rfl) rfl

/-! ## Blocks -/

/-- The method ends with none of the instructions. -/
def GoesOn (is : List PlacedInstruction) : Prop := ∀ i ∈ is, i.operation.leaves = false

/-- An increment in front of a load of the same variable is simulated with it, as one value. -/
theorem run_cons_of_preIncrement? {ctx : SimContext} {i j : PlacedInstruction}
    {rest : List PlacedInstruction} {s : SimState} {e : Expr}
    (h : preIncrement? s.stack i (j :: rest) = some e) :
    after (run ctx (i :: j :: rest)) s = after (run ctx rest) (after (push e) s) := by
  simp only [after, run, StateT.run_bind, StateT.run_get, pure_bind, h]
  rfl

/-- Every other instruction is simulated on its own. -/
theorem run_cons_of_preIncrement?_eq_none {ctx : SimContext} {i j : PlacedInstruction}
    {rest : List PlacedInstruction} {s : SimState} (h : preIncrement? s.stack i (j :: rest) = none) :
    after (run ctx (i :: j :: rest)) s =
      after (run ctx (j :: rest)) (after (checkDepth ctx.maxStack) (after (step ctx i) s)) := by
  simp only [after, run, StateT.run_bind, StateT.run_get, pure_bind, h]
  rfl

/-- Instructions behind which control goes on add only statements behind which it does. -/
theorem adds_run (ctx : SimContext) {is : List PlacedInstruction} (h : GoesOn is) (s : SimState) :
    Adds s (after (run ctx is) s) := by
  have hstep : ∀ i ∈ is, ∀ s, Adds s (after (checkDepth ctx.maxStack) (after (step ctx i) s)) := by
    intro i hi s
    obtain ⟨w, hw, -⟩ := fits_step ctx i (h i hi)
    exact (hw.adds s).trans ((effect_checkDepth ctx.maxStack).adds _)
  -- an increment in front of a load of its slot is run together with it, so that the recursion skips two
  induction is using run.induct generalizing s with
  | case1 => exact .of_eq rfl
  | case2 i => exact hstep i List.mem_cons_self s
  | case3 i j rest ihrest ih =>
    cases hpre : preIncrement? s.stack i (j :: rest) with
    | some e =>
      rw [run_cons_of_preIncrement? hpre]
      exact ((effect_push e).adds s).trans (ihrest (fun k hk => h k (by simp [hk])) _
        fun k hk => hstep k (by simp [hk]))
    | none =>
      rw [run_cons_of_preIncrement?_eq_none hpre]
      exact (hstep i List.mem_cons_self s).trans (ih (fun k hk => h k (List.mem_cons_of_mem _ hk)) _
        fun k hk => hstep k (List.mem_cons_of_mem _ hk))

/-- Unless the last instruction loads a value, it is run on its own. -/
theorem exists_after_run (ctx : SimContext) {is : List PlacedInstruction} {last : PlacedInstruction}
    (h : GoesOn is) (hlast : ∀ type slot, last.operation ≠ .load type slot) (s : SimState) :
    ∃ t, Adds s t ∧
      after (run ctx (is ++ [last])) s = after (checkDepth ctx.maxStack) (after (step ctx last) t) := by
  have hstep : ∀ i ∈ is, ∀ s, Adds s (after (checkDepth ctx.maxStack) (after (step ctx i) s)) := by
    intro i hi s
    obtain ⟨w, hw, -⟩ := fits_step ctx i (h i hi)
    exact (hw.adds s).trans ((effect_checkDepth ctx.maxStack).adds _)
  induction is using run.induct generalizing s with
  | case1 => exact ⟨s, .of_eq rfl, rfl⟩
  | case2 i =>
    have hpre : preIncrement? s.stack i [last] = none := by
      unfold preIncrement?
      split
      · rename_i hop
        simp only [List.map_cons, List.map_nil, List.cons.injEq] at hop
        exact absurd hop.1 (hlast _ _)
      · rfl
    exact ⟨_, hstep i List.mem_cons_self s, run_cons_of_preIncrement?_eq_none hpre⟩
  | case3 i j rest ihrest ih =>
    cases hpre : preIncrement? s.stack i (j :: (rest ++ [last])) with
    | some e =>
      obtain ⟨t, ht, heq⟩ := ihrest (fun k hk => h k (by simp [hk])) (after (push e) s)
        fun k hk => hstep k (by simp [hk])
      exact ⟨t, ((effect_push e).adds s).trans ht, (run_cons_of_preIncrement? hpre).trans heq⟩
    | none =>
      obtain ⟨t, ht, heq⟩ := ih (fun k hk => h k (List.mem_cons_of_mem _ hk))
        (after (checkDepth ctx.maxStack) (after (step ctx i) s))
        fun k hk => hstep k (List.mem_cons_of_mem _ hk)
      exact ⟨t, (hstep i List.mem_cons_self s).trans ht,
        (run_cons_of_preIncrement?_eq_none hpre).trans heq⟩

/-- An instruction that is no addition to a slot is run on its own. -/
theorem run_cons {ctx : SimContext} {i j : PlacedInstruction} {rest : List PlacedInstruction}
    (h : ∀ slot delta, i.operation ≠ .iinc slot delta) :
    run ctx (i :: j :: rest) = (do
      step ctx i
      checkDepth ctx.maxStack
      run ctx (j :: rest)) := by
  funext s
  have hpre : preIncrement? s.stack i (j :: rest) = none := by
    unfold preIncrement?
    split
    · rename_i hop _
      exact absurd hop (h _ _)
    · rfl
  show StateT.run _ s = StateT.run _ s
  simp only [StateT.run_bind, StateT.run_get, pure_bind, hpre]

/-- Instructions that only compute values raise the stack by no more than they are known to. -/
theorem effect_run_of_pureDepth? {ctx : SimContext} {is : List PlacedInstruction} (h : GoesOn is)
    {depth depth' : Nat} (hpure : PlacedInstruction.pureDepth? ctx.pool depth is = some depth') :
    ∃ w : Int, w ≤ depth' - depth ∧ Effect w (run ctx is) := by
  -- from the left: each instruction keeps to its effect, so the depth is never less than what is held
  induction is generalizing depth with
  | nil =>
    obtain rfl := Option.some.inj hpure
    exact ⟨0, by omega, .pure ()⟩
  | cons i rest ih =>
    unfold PlacedInstruction.pureDepth? at hpure
    split at hpure
    · cases hpure
    rename_i hfree
    rw [Bool.not_eq_true', Bool.not_eq_false] at hfree
    split at hpure
    · cases hpure
    rename_i e he
    split at hpure
    · cases hpure
    rename_i hpops
    obtain ⟨w, hw, hrest⟩ := ih (fun k hk => h k (List.mem_cons_of_mem _ hk)) hpure
    obtain ⟨v, hv, hle⟩ := fits_step ctx i (h i List.mem_cons_self)
    have hle := hle hfree e he
    cases rest with
    | nil =>
      obtain rfl := Option.some.inj hpure
      refine ⟨v + 0, by omega, ?_⟩
      exact hv.bind fun _ => effect_checkDepth _
    | cons j rest =>
      refine ⟨v + (0 + w), by omega, ?_⟩
      -- nothing pure is an increment, so that no two instructions are run as one
      have hnot : ∀ slot delta, i.operation ≠ .iinc slot delta := by
        intro slot delta hop
        rw [hop] at hfree
        cases hfree
      rw [run_cons hnot]
      exact hv.bind fun _ => (effect_checkDepth _).bind fun _ => hrest

/-- Checking the height of the stack changes nothing of what a block comes to. -/
theorem after_checkDepth (maxStack : UInt16) (s : SimState) :
    (after (checkDepth maxStack) s).statements = s.statements ∧
      (after (checkDepth maxStack) s).condition = s.condition ∧
      (after (checkDepth maxStack) s).switchKey = s.switchKey := by
  show (after (if _ then _ else _) s).statements = _ ∧ (after (if _ then _ else _) s).condition = _ ∧
    (after (if _ then _ else _) s).switchKey = _
  split <;> exact ⟨rfl, rfl, rfl⟩

end Sim

namespace Block.Sealed

variable {b : Block}

/-- A sealed block that does not just go on to the next one ends with an instruction, and the method ends
with none in front of it. -/
theorem exists_last (hb : b.Sealed) (hterm : ∀ t, b.terminator ≠ .fallThrough t) :
    ∃ is last, b.instructions = is ++ [last] ∧ Sim.GoesOn is ∧
      b.terminator.endsWith last.operation = true := by
  rcases List.eq_nil_or_concat b.instructions with hnil | ⟨is, last, hconcat⟩
  · obtain ⟨t, ht⟩ := hb.empty hnil
    exact absurd ht (hterm t)
  · rw [List.concat_eq_append] at hconcat
    refine ⟨is, last, hconcat, fun i hi => ?_, hb.last last (by simp [hconcat])⟩
    exact Instruction.leaves_of_endsBlock (hb.inner i (by simpa [hconcat] using hi))

/-- Running a block ends with running its last instruction. -/
theorem exists_final (hb : b.Sealed) (hterm : ∀ t, b.terminator ≠ .fallThrough t) (ctx : SimContext)
    (stack : List Expr) : ∃ last t, b.terminator.endsWith last.operation = true ∧
      (∀ stmt ∈ t.statements, stmt.endsFlow = false) ∧
      (b.simulate ctx stack).statements = (Sim.after (Sim.step ctx last) t).statements ∧
      (b.simulate ctx stack).condition = (Sim.after (Sim.step ctx last) t).condition ∧
      (b.simulate ctx stack).switchKey = (Sim.after (Sim.step ctx last) t).switchKey := by
  obtain ⟨is, last, his, hgoes, hends⟩ := hb.exists_last hterm
  have hload : ∀ type slot, last.operation ≠ .load type slot := by
    intro type slot hop
    rw [hop] at hends
    cases hb' : b.terminator <;> simp [hb', Terminator.endsWith, Instruction.isConditionalBranch] at hends
    exact hterm _ hb'
  obtain ⟨t, ⟨added, hadded, hflow⟩, heq⟩ := Sim.exists_after_run ctx hgoes hload
    ⟨stack.reverse.map (⟨·, none⟩), [], none, none, [], 0, false⟩
  obtain ⟨h₁, h₂, h₃⟩ := Sim.after_checkDepth ctx.maxStack (Sim.after (Sim.step ctx last) t)
  rw [← heq, ← his] at h₁ h₂ h₃
  refine ⟨last, t, hends, fun stmt hstmt => hflow stmt ?_, h₁, h₂, h₃⟩
  rwa [hadded, List.nil_append] at hstmt

/-- A block that ends with a branch leaves a condition behind. -/
theorem condition_isSome (hb : b.Sealed) {k : BranchCondition} {x y : BlockId}
    (hterm : b.terminator = .branch k x y) (ctx : SimContext) (stack : List Expr) :
    (b.simulate ctx stack).condition.isSome = true := by
  obtain ⟨last, t, hends, -, -, hcondition, -⟩ := hb.exists_final (by simp [hterm]) ctx stack
  rw [hcondition]
  rw [hterm] at hends
  unfold Sim.step
  cases hop : last.operation <;>
    first | rfl | simp [hop, Terminator.endsWith, Instruction.isConditionalBranch] at hends

/-- The statements of a block that ends the method: one of them does, the last one. -/
theorem exists_statements (hb : b.Sealed) (hterm : b.terminator = .return ∨ b.terminator = .throw)
    (ctx : SimContext) (stack : List Expr) : ∃ front stmt,
      (b.simulate ctx stack).statements = front ++ [stmt] ∧ (∀ s ∈ front, s.endsFlow = false) ∧
        stmt.endsFlow = true := by
  have hnot : ∀ t, b.terminator ≠ .fallThrough t := by rcases hterm with h | h <;> simp [h]
  obtain ⟨last, t, hends, hflow, hstatements, -, -⟩ := hb.exists_final hnot ctx stack
  have hpop : (Sim.after (Sim.pop last.line) t).statements = t.statements := by
    show (Sim.after (Sim.popValue last.line) t).statements = t.statements
    rw [Sim.after_popValue]
    split <;> rfl
  have hemit : ∀ stmt u, u.statements = t.statements →
      (Sim.after (Sim.emit stmt) u).statements = t.statements ++ [stmt] := fun stmt u hu => hu ▸ rfl
  have hlast : (∃ type, last.operation = .return type) ∨ last.operation = .throw := by
    rcases hterm with h | h <;> rw [h] at hends <;>
      cases hop : last.operation <;> simp [hop, Terminator.endsWith] at hends ⊢
  rw [hstatements]
  refine ⟨t.statements, ?_⟩
  unfold Sim.step
  obtain ⟨_ | type, hop⟩ | hop := hlast <;> rw [hop]
  · exact ⟨_, hemit _ t rfl, hflow, rfl⟩
  · exact ⟨_, hemit _ _ hpop, hflow, rfl⟩
  · exact ⟨_, hemit _ _ hpop, hflow, rfl⟩

/-- Control goes on behind all statements of a block that does not end the method. -/
theorem endsFlow_of_mem_statements (hb : b.Sealed) (hreturn : b.terminator ≠ .return)
    (hthrow : b.terminator ≠ .throw) (ctx : SimContext) (stack : List Expr) :
    ∀ s ∈ (b.simulate ctx stack).statements, s.endsFlow = false := by
  have hgoes : Sim.GoesOn b.instructions := by
    rcases List.eq_nil_or_concat b.instructions with hnil | ⟨is, last, hconcat⟩
    · rw [hnil]
      exact fun i hi => nomatch hi
    · rw [List.concat_eq_append] at hconcat
      rw [hconcat]
      -- the last instruction does not leave the method, since the terminator would say so
      refine List.forall_mem_append.2 ⟨fun i hi => ?_, List.forall_mem_singleton.2 ?_⟩
      · exact Instruction.leaves_of_endsBlock (hb.inner i (by simpa [hconcat] using hi))
      · have hends := hb.last last (by simp [hconcat])
        cases hop : last.operation <;> first
          | rfl
          | (rw [hop] at hends
             cases hterm : b.terminator <;> simp_all [Terminator.endsWith, Instruction.endsBlock,
               Instruction.isConditionalBranch, Instruction.isUnconditionalTransfer])
  obtain ⟨added, hadded, hflow⟩ := Sim.adds_run ctx hgoes
    ⟨stack.reverse.map (⟨·, none⟩), [], none, none, [], 0, false⟩
  intro s hs
  have hstatements : (b.simulate ctx stack).statements = [] ++ added := hadded
  exact hflow s (by simpa [hstatements] using hs)

/-- A block that does nothing but compute a condition leaves no statements behind, unless there is a
problem. -/
theorem statements_eq_nil (hb : b.Sealed) {k : BranchCondition} {x y : BlockId}
    (hterm : b.terminator = .branch k x y) {ctx : SimContext}
    (hpure : PlacedInstruction.isPureCondition ctx.pool b.instructions = true)
    (hquiet : (b.simulate ctx []).diagnostics = []) : (b.simulate ctx []).statements = [] := by
  obtain ⟨is, last, his, hgoes, hends⟩ := hb.exists_last (by simp [hterm])
  have hgoes : Sim.GoesOn b.instructions := by
    rw [his]
    refine List.forall_mem_append.2 ⟨hgoes, List.forall_mem_singleton.2 ?_⟩
    rw [hterm] at hends
    cases hop : last.operation <;>
      first | rfl | simp [hop, Terminator.endsWith, Instruction.isConditionalBranch] at hends
  obtain ⟨w, hw, heffect⟩ := Sim.effect_run_of_pureDepth? hgoes
    (show PlacedInstruction.pureDepth? ctx.pool 0 b.instructions = some 0 by
      simpa [PlacedInstruction.isPureCondition] using hpure)
  -- the stack ends as high as it starts, so it is raised by all that it may be
  have hheight := heffect.height ⟨[], [], none, none, [], 0, false⟩ hquiet
  simp only [List.length_nil] at hheight
  refine heffect.same ⟨[], [], none, none, [], 0, false⟩ hquiet ?_
  simp only [List.length_nil]
  omega

end Block.Sealed

end JvmDecompiler
