import JvmDecompiler.Proofs.Decoding
import JvmDecompiler.Proofs.SimulatedRun

/-!
# The height of the stack in a run

What instructions take from the stack and put there is known twice: by the table of effects
(`Instruction.stackEffect?`), which the recognition of loops goes by, and by the run of a block on
expressions, which its statements come from. The two agree. Each instruction that has an effect in the
table takes and puts exactly as many values in a run (`Sim.exchanges_step`), whatever the values are, and so
do all instructions of a block (`Sim.exchanges_run`), the additions that are taken together with a load
included.

Of the pool it is asked that constructors have no result (`ConstantPool.ConstructorsReturnNothing`). A
constructor that had one would put it on the stack by the table, while in a run the new object takes the
place of its copy.
-/

namespace JvmDecompiler

/-- Methods with the name of constructors have no result. -/
def ConstantPool.ConstructorsReturnNothing (pool : ConstantPool) : Prop :=
  ∀ index m t, pool.memberRef? index = some m → m.name = "<init>" →
    MethodTy.ofDescriptor? m.descriptor = some t → t.result = .void

namespace StackEffect

/-- The number of values that some instructions take from the stack. -/
def totalPops : List StackEffect → Nat
  | [] => 0
  | e :: es => e.pops + totalPops es

/-- The number of values that some instructions put on the stack. -/
def totalPushes : List StackEffect → Nat
  | [] => 0
  | e :: es => e.pushes + totalPushes es

/-- On a stack of the height, no instruction takes more than is there. -/
def Sustained (height : Nat) (effects : List StackEffect) : Prop :=
  ∀ front e back, effects = front ++ e :: back →
    totalPops (front ++ [e]) ≤ height + totalPushes front

@[simp] theorem totalPops_nil : totalPops [] = 0 := rfl

@[simp] theorem totalPushes_nil : totalPushes [] = 0 := rfl

/-- The first instruction takes its values before the others. -/
@[simp] theorem totalPops_cons (e : StackEffect) (es : List StackEffect) :
    totalPops (e :: es) = e.pops + totalPops es := rfl

/-- The first instruction puts its values before the others. -/
@[simp] theorem totalPushes_cons (e : StackEffect) (es : List StackEffect) :
    totalPushes (e :: es) = e.pushes + totalPushes es := rfl

theorem sustained_nil (height : Nat) : Sustained height [] := by
  intro front e back h
  simp at h

/-- The first instruction finds what it takes, and the others do on the stack that it leaves. -/
theorem sustained_cons {height : Nat} {e : StackEffect} {es : List StackEffect} :
    Sustained height (e :: es) ↔ e.pops ≤ height ∧ Sustained (height - e.pops + e.pushes) es := by
  constructor
  · intro h
    have hfirst : e.pops ≤ height := by simpa using h [] e es rfl
    refine ⟨hfirst, fun front e' back heq => ?_⟩
    have hlater := h (e :: front) e' back (by rw [heq, List.cons_append])
    rw [List.cons_append, totalPops_cons, totalPushes_cons] at hlater
    omega
  · rintro ⟨hfirst, hrest⟩ front e' back heq
    cases front with
    | nil =>
      obtain ⟨rfl, -⟩ := List.cons.inj heq
      simpa using hfirst
    | cons e₀ front =>
      rw [List.cons_append] at heq
      obtain ⟨rfl, htail⟩ := List.cons.inj heq
      have hlater := hrest front e' back htail
      rw [List.cons_append, totalPops_cons, totalPushes_cons]
      omega

/-- The instructions take no more than is there and what they put. -/
theorem Sustained.totalPops_le {height : Nat} {es : List StackEffect} (h : Sustained height es) :
    totalPops es ≤ height + totalPushes es := by
  induction es generalizing height with
  | nil => exact Nat.zero_le _
  | cons e es ih =>
    obtain ⟨hfirst, hrest⟩ := sustained_cons.1 h
    have hlater := ih hrest
    rw [totalPops_cons, totalPushes_cons]
    omega

end StackEffect

namespace Sim

/-- A value was missing from the stack. -/
def Underflows (s : SimState) : Prop := "operand stack underflow" ∈ s.diagnostics

/-- A computation that takes `pops` values from the stack and puts `pushes` there, whatever is below them,
and adds no statements if it is a silent one. -/
structure Exchanges {α : Type} (silent : Prop) (pops pushes : Nat) (x : Sim α) : Prop where
  height : ∀ below s, s.stack.length = below + pops → (after x s).stack.length = below + pushes
  enough : ∀ s, pops ≤ s.stack.length → Underflows (after x s) → Underflows s
  quiet : silent → ∀ s, (after x s).statements = s.statements

namespace Exchanges

variable {α β : Type} {p q : Prop} {n m l : Nat} {x : Sim α} {f : α → Sim β}

/-- What the first computation puts on the stack the second takes. -/
theorem bind (hx : Exchanges p n m x) (hf : ∀ a, Exchanges p m l (f a)) : Exchanges p n l (x >>= f) := by
  have hnext : ∀ s, Exchanges p m l (f (StateT.run x s).1) := fun s => hf _
  refine ⟨fun below s h => (hnext s).height below (after x s) (hx.height below s h),
    fun s h hu => ?_, fun hp s => ((hnext s).quiet hp (after x s)).trans (hx.quiet hp s)⟩
  have hlength : (after x s).stack.length = s.stack.length - n + m := hx.height _ s (by omega)
  exact hx.enough s h ((hnext s).enough (after x s) (by omega) hu)

/-- A computation leaves alone what is below the values that it takes. -/
theorem frame (h : Exchanges p n m x) (k : Nat) : Exchanges p (n + k) (m + k) x := by
  refine ⟨fun below s hs => ?_, fun s hs => h.enough s (by omega), h.quiet⟩
  have := h.height (below + k) s (by omega)
  omega

/-- The condition under which a computation is silent may be narrowed. -/
theorem imp (h : Exchanges p n m x) (hq : q → p) : Exchanges q n m x :=
  ⟨h.height, h.enough, fun hp => h.quiet (hq hp)⟩

/-- A value that is given changes no height. -/
theorem pure (a : α) : Exchanges p n n (pure a : Sim α) :=
  ⟨fun _ _ h => h, fun _ _ h => h, fun _ _ => rfl⟩

/-- What is done may depend on the state. -/
theorem get_bind {f : SimState → Sim β} (h : ∀ s, Exchanges p n m (f s)) :
    Exchanges p n m (get >>= f) :=
  ⟨fun below s => (h s).height below s, fun s => (h s).enough s, fun hp s => (h s).quiet hp s⟩

/-- A change of what is neither stack, statements nor diagnostics. -/
theorem modify {f : SimState → SimState} (hstack : ∀ s, (f s).stack = s.stack)
    (hstatements : ∀ s, (f s).statements = s.statements)
    (hdiagnostics : ∀ s, (f s).diagnostics = s.diagnostics) :
    Exchanges p n n (modify f : Sim Unit) :=
  ⟨fun _ s h => by simpa [hstack] using h, fun s _ h => by simpa [Underflows, hdiagnostics] using h,
    fun _ s => hstatements s⟩

end Exchanges

variable (line : SourceLine) {p : Prop} {n : Nat}

/-! ## The stack -/

/-- A value is taken from the stack. -/
theorem exchanges_popValue : Exchanges p 1 0 (popValue line) := by
  refine ⟨fun below s h => ?_, fun s h hu => ?_, fun _ _ => ?_⟩
  · rw [after_popValue]
    cases hs : s.stack with
    | nil => simp [hs] at h
    | cons v rest => simpa [hs] using h
  · rw [after_popValue] at hu
    cases hs : s.stack with
    | nil => simp [hs] at h
    | cons v rest =>
      rw [hs] at hu
      exact hu
  · rw [after_popValue]
    split <;> rfl

/-- An expression is taken from the stack. -/
theorem exchanges_pop : Exchanges p 1 0 (pop line) := (exchanges_popValue line).bind fun _ => .pure _

/-- A value is put on the stack. -/
theorem exchanges_pushValue (v : StackValue) : Exchanges p 0 1 (pushValue v) :=
  ⟨fun _ _ h => congrArg (· + 1) h, fun _ _ h => h, fun _ _ => rfl⟩

/-- An expression is put on the stack. -/
theorem exchanges_push (e : Expr) : Exchanges p 0 1 (push e) := exchanges_pushValue _

/-- A statement changes no height, and is not silent. -/
theorem exchanges_emit (stmt : SimpleStmt) : Exchanges False n n (emit stmt) :=
  ⟨fun _ _ h => h, fun _ _ h => h, False.elim⟩

/-- A problem other than a missing value changes no height. -/
theorem exchanges_report {problem : String} (h : problem ≠ "operand stack underflow") :
    Exchanges p n n (report problem) := by
  refine ⟨fun _ _ h => h, fun s _ hu => ?_, fun _ _ => rfl⟩
  have hmem : "operand stack underflow" ∈ s.diagnostics ++ [problem] := hu
  exact (List.mem_append.1 hmem).resolve_right fun hlast => h (List.mem_singleton.1 hlast).symm

/-- The arguments of a call are taken from the stack. -/
theorem exchanges_popArgs (k : Nat) : Exchanges p k 0 (popArgs line k) := by
  induction k with
  | zero => exact .pure _
  | succ k ih =>
    have hpop : Exchanges p (k + 1) k (pop line) := by
      simpa only [Nat.add_comm 1, Nat.zero_add] using (exchanges_pop line).frame k
    exact hpop.bind fun last => ih.bind fun others => .pure _

/-- Replacing a copy changes no height. -/
theorem exchanges_replaceCopy (mark : Option Nat) (e : Expr) : Exchanges p n n (replaceCopy mark e) := by
  have hrun : ∀ s : SimState, ∃ stack, stack.length = s.stack.length ∧
      after (replaceCopy mark e) s = { s with stack } := by
    intro s
    simp only [after, replaceCopy, StateT.run_bind, StateT.run_get, pure_bind]
    cases h : mark.bind fun m => replaceIn m e s.stack with
    | none => exact ⟨s.stack, rfl, rfl⟩
    | some stack =>
      obtain ⟨m, -, hm⟩ := Option.bind_eq_some_iff.1 h
      exact ⟨stack, length_replaceIn hm, rfl⟩
  refine ⟨fun below s h => ?_, fun s _ hu => ?_, fun _ s => ?_⟩
  · obtain ⟨stack, hlength, heq⟩ := hrun s
    rw [heq]
    exact hlength.trans h
  · obtain ⟨stack, -, heq⟩ := hrun s
    rw [heq] at hu
    exact hu
  · obtain ⟨stack, -, heq⟩ := hrun s
    rw [heq]

/-- Checking the depth changes no height. -/
theorem exchanges_checkDepth (maxStack : UInt16) : Exchanges p n n (checkDepth maxStack) := by
  have hproblem : ∀ height : Nat, s!"operand stack depth {height} exceeds max_stack {maxStack}" ≠
      "operand stack underflow" := by
    intro height h
    have hletters := congrArg String.toList h
    simp [toString] at hletters
  refine .get_bind fun s => ?_
  dsimp only
  split
  · exact (exchanges_report (hproblem _)).bind fun _ => .modify (fun _ => rfl) (fun _ => rfl) fun _ => rfl
  · exact .pure _

/-! ## Copies -/

/-- One slot is one value to copy or to skip, also if the value is a wide one. -/
theorem run_spanning_of_le_one {s : SimState} {above k : Nat} (hk : k ≤ 1)
    (h : above + k ≤ s.stack.length) : StateT.run (spanning line above k) s = (k, s) := by
  obtain rfl | rfl : k = 0 ∨ k = 1 := by omega
  · rfl
  · have hget : s.stack[above]? = some s.stack[above] := List.getElem?_eq_getElem h
    simp only [spanning, StateT.run_bind, StateT.run_get, pure_bind, hget]
    split <;> rfl

/-- A copy of one value, put in below at most one other, raises the stack by one. -/
theorem exchanges_duplicate {skipped : Nat} (hskipped : skipped ≤ 1) :
    Exchanges p (1 + skipped) (2 + skipped) (duplicate line 1 skipped) := by
  -- with enough on the stack nothing is reported, and one value is counted as one
  have hafter : ∀ s : SimState, 1 + skipped ≤ s.stack.length →
      after (duplicate line 1 skipped) s =
        { s with
          stack := markAll s.nextMark (s.stack.take 1) ++ (s.stack.drop 1).take skipped ++
            markAll s.nextMark (s.stack.take 1) ++ (s.stack.drop 1).drop skipped
          nextMark := s.nextMark + 1 } := by
    intro s h
    have hcopied : StateT.run (spanning line 0 1) s = (1, s) :=
      run_spanning_of_le_one line (Nat.le_refl 1) (by omega)
    have hbelow := run_spanning_of_le_one line hskipped h
    have hsame : ∀ {x : Sim Nat} {k : Nat}, StateT.run x s = (k, s) → after x s = s :=
      fun hx => congrArg Prod.snd hx
    rw [duplicate, after_bind, hcopied, hsame hcopied, after_bind, hbelow, hsame hbelow]
    rfl
  refine ⟨fun below s h => ?_, fun s h hu => ?_, fun _ s => ?_⟩
  · rw [hafter s (by omega)]
    simp only [List.length_append, length_markAll, List.length_take, List.length_drop]
    omega
  · rw [hafter s h] at hu
    exact hu
  · exact (countsAt_spanning line _ skipped _).statements.trans (countsAt_spanning line 0 1 s).statements

/-! ## Effects -/

/-- A value that is discarded changes no height behind its removal. -/
theorem exchanges_discard (e : Expr) : Exchanges False n n (discard line e) := by
  unfold discard
  split
  · exact exchanges_emit _
  · exact .pure ()

/-- What takes the place of a copy, or becomes a statement. -/
theorem exchanges_replaceCopy_or_emit (mark : Option Nat) (e : Expr) (stmt : SimpleStmt) :
    Exchanges False n n (do if !(← replaceCopy mark e) then emit stmt) := by
  refine (exchanges_replaceCopy _ _).bind fun replaced => ?_
  cases replaced with
  | true => exact .pure ()
  | false => exact exchanges_emit _

/-- An assignment changes no height behind the removal of its value. -/
theorem exchanges_assign (target : Expr) (value : StackValue) :
    Exchanges False n n (assign line target value) :=
  exchanges_replaceCopy_or_emit _ _ _

/-- A construction changes no height behind the removal of its arguments. -/
theorem exchanges_construct (receiver : StackValue) (className descriptor : String) (args : List Expr) :
    Exchanges False n n (construct line receiver className descriptor args) :=
  exchanges_replaceCopy_or_emit _ _ _

/-- A call leaves its result, and no statement if it has one. -/
theorem exchanges_pushOrEmit (result : Ty) (call : Expr) :
    Exchanges (result ≠ .void) 0 (if result = .void then 0 else 1) (pushOrEmit line result call) := by
  unfold pushOrEmit
  split
  · rename_i h
    exact (exchanges_emit _).imp fun hne => hne h
  · exact exchanges_push call

/-- Where the topmost value is a read of the slot, it changes; elsewhere a statement is added. -/
theorem after_increment (slot : UInt16) (delta : Int32) (pc : Address) (s : SimState) :
    (∃ stack, stack.length = s.stack.length ∧ after (increment line slot delta pc) s = { s with stack }) ∨
      ∃ stmt, after (increment line slot delta pc) s = after (emit stmt) s := by
  obtain ⟨stack, _, _, _, _, _, _⟩ := s
  cases stack with
  | nil => exact .inr ⟨_, rfl⟩
  | cons top rest =>
    by_cases htop : top.expr.isLocalSlot slot = true
    · refine .inl ⟨⟨.increment line (.localVar line (.ofSlot slot pc .int)) delta false, top.mark⟩ :: rest,
        rfl, ?_⟩
      show after (if top.expr.isLocalSlot slot then _ else _) _ = _
      rw [if_pos htop]
      rfl
    · refine .inr ⟨.expr line (.increment line (.localVar line (.ofSlot slot pc .int)) delta false), ?_⟩
      show after (if top.expr.isLocalSlot slot then _ else _) _ = _
      rw [if_neg htop]

/-- An increment changes no height. -/
theorem exchanges_increment (slot : UInt16) (delta : Int32) (pc : Address) :
    Exchanges False n n (increment line slot delta pc) := by
  refine ⟨fun below s h => ?_, fun s _ hu => ?_, False.elim⟩
  · obtain ⟨stack, hlength, heq⟩ | ⟨stmt, heq⟩ := after_increment line slot delta pc s
    · rw [heq]
      exact hlength.trans h
    · rw [heq]
      exact h
  · obtain ⟨stack, -, heq⟩ | ⟨stmt, heq⟩ := after_increment line slot delta pc s
    · rw [heq] at hu
      exact hu
    · rw [heq] at hu
      exact hu

/-! ## Instructions -/

section Instructions

variable {pool : ConstantPool} {e : StackEffect}

/-- A stack operation with a known effect has this effect in the simulation. -/
theorem exchanges_stackOp {op : StackOp} (h : (Instruction.stack op).stackEffect? pool = some e) :
    Exchanges ((Instruction.stack op).isSideEffectFree pool = true) e.pops e.pushes (stackOp line op) := by
  cases op with
  | pop =>
    obtain rfl := Option.some.inj h
    have hpop : Exchanges False 1 0 (stackOp line .pop) :=
      ((exchanges_popValue line).bind fun _ => .pure _).bind fun e => exchanges_discard line e
    exact hpop.imp (by simp [Instruction.isSideEffectFree])
  | pop2 | dupX2 | dup2 | dup2X1 | dup2X2 => cases h
  | dup =>
    obtain rfl := Option.some.inj h
    exact exchanges_duplicate line (Nat.zero_le 1)
  | dupX1 =>
    obtain rfl := Option.some.inj h
    exact exchanges_duplicate line (Nat.le_refl 1)
  | swap =>
    obtain rfl := Option.some.inj h
    exact ((exchanges_popValue line).frame 1).bind fun a => (exchanges_popValue line).bind fun b =>
      (exchanges_pushValue a).bind fun _ => (exchanges_pushValue b).frame 1

/-- Looking a field up changes nothing. -/
theorem exchanges_ofField {index : UInt16} {pops pushes : Nat} {f : String × String × Ty → Sim Unit}
    (hf : ∀ m, Exchanges p pops pushes (f m)) :
    Exchanges p pops pushes (match pool.memberRef? index with
      | some m => pure (m.className, m.name, (Ty.ofDescriptor? m.descriptor).getD .unknown) >>= f
      | none => report s!"unresolvable field #{index}" >>= fun _ =>
        pure ("", s!"field#{index}", Ty.unknown) >>= f) := by
  have hproblem : s!"unresolvable field #{index}" ≠ "operand stack underflow" := by
    intro h
    have hletters := congrArg String.toList h
    simp [toString] at hletters
  split
  · exact hf _
  · exact (exchanges_report hproblem).bind fun _ => hf _

/-- A field access with a known effect has this effect in the simulation. -/
theorem exchanges_field {op : FieldOp} {index : UInt16}
    (h : (Instruction.field op index).stackEffect? pool = some e) :
    Exchanges ((Instruction.field op index).isSideEffectFree pool = true) e.pops e.pushes
      (field pool line op index) := by
  cases op with
  | getStatic =>
    obtain rfl := Option.some.inj h
    exact exchanges_ofField fun m => exchanges_push _
  | getField =>
    obtain rfl := Option.some.inj h
    have haccess : ∀ m : String × String × Ty, Exchanges True 1 1
        (do push (.field line (some (← pop line)) m.1 m.2.1 m.2.2)) :=
      fun m => (exchanges_pop line).bind fun e => exchanges_push _
    exact (exchanges_ofField haccess).imp fun _ => trivial
  | putStatic =>
    obtain rfl := Option.some.inj h
    have haccess : ∀ m : String × String × Ty, Exchanges False 1 0
        (do let value ← popValue line; assign line (.field line none m.1 m.2.1 m.2.2) value) :=
      fun m => (exchanges_popValue line).bind fun v => exchanges_assign line _ v
    exact (exchanges_ofField haccess).imp nofun
  | putField =>
    obtain rfl := Option.some.inj h
    have haccess : ∀ m : String × String × Ty, Exchanges False 2 0 (do
        let value ← popValue line
        let object ← pop line
        assign line (.field line (some object) m.1 m.2.1 m.2.2) value) :=
      fun m => ((exchanges_popValue line).frame 1).bind fun v => (exchanges_pop line).bind fun e =>
        exchanges_assign line _ v
    exact (exchanges_ofField haccess).imp nofun

/-- The effect of a call is that of the method type of its descriptor. -/
theorem eq_of_ofCall? {descriptor : String} {receivers : Nat}
    (h : StackEffect.ofCall? descriptor receivers = some e) :
    MethodTy.ofDescriptor? descriptor = some (callType descriptor) ∧
      e = ⟨(callType descriptor).parameters.length + receivers,
        if (callType descriptor).result = .void then 0 else 1⟩ := by
  unfold StackEffect.ofCall? at h
  obtain ⟨m, hm, h⟩ := Option.bind_eq_some_iff.1 h
  have htype : callType descriptor = m := by rw [callType, hm, Option.getD_some]
  obtain rfl := Option.some.inj h
  rw [htype]
  exact ⟨hm, rfl⟩

/-- A call takes its arguments, and the object that it is made on. The object that a constructor is called
on gives way to the new one in another place, so the constructor must have no result. -/
theorem exchanges_invoke (hpool : pool.ConstructorsReturnNothing) {kind : InvokeKind} {index : UInt16}
    (h : (Instruction.invoke kind index).stackEffect? pool = some e) :
    Exchanges ((Instruction.invoke kind index).isSideEffectFree pool = true) e.pops e.pushes
      (invoke pool line kind index) := by
  have hfree : (Instruction.invoke kind index).isSideEffectFree pool = decide (0 < e.pushes) := by
    simp [Instruction.isSideEffectFree, h]
  unfold Instruction.stackEffect? at h
  obtain ⟨m, hm, hcall⟩ := Option.bind_eq_some_iff.1 h
  obtain ⟨hdescriptor, rfl⟩ := eq_of_ofCall? hcall
  have hresult : ∀ call, Exchanges
      ((Instruction.invoke kind index).isSideEffectFree pool = true) 0
      (if (callType m.descriptor).result = .void then 0 else 1)
      (pushOrEmit line (callType m.descriptor).result call) :=
    fun call => (exchanges_pushOrEmit line _ call).imp fun hf hvoid => by simp [hfree, hvoid] at hf
  simp only [invoke, hm, pure_bind]
  refine ((exchanges_popArgs line _).frame (if kind = .static then 0 else 1)).bind fun args => ?_
  rw [Nat.zero_add]
  by_cases hkind : kind = .static
  · rw [if_pos hkind, if_pos hkind]
    exact hresult _
  · rw [if_neg hkind, if_neg hkind]
    refine (exchanges_popValue line).bind fun receiver => ?_
    generalize hpushes : (if (callType m.descriptor).result = Ty.void then 0 else 1) = pushes
      at hfree hresult ⊢
    split
    -- a constructor of a new object leaves nothing behind, so its descriptor must not
    · split
      · rename_i hname
        rw [if_pos (hpool index m _ hm hname hdescriptor)] at hpushes
        subst hpushes
        exact (exchanges_construct line receiver _ _ args).imp fun hf => by simp [hfree] at hf
      · exact hresult _
    · exact hresult _

/-- A dynamic call with a known effect has this effect in the simulation. -/
theorem exchanges_invokeDynamic {index : UInt16}
    (h : (Instruction.invokeDynamic index).stackEffect? pool = some e) :
    Exchanges ((Instruction.invokeDynamic index).isSideEffectFree pool = true) e.pops e.pushes
      (invokeDynamic pool line index) := by
  have hfree : (Instruction.invokeDynamic index).isSideEffectFree pool = decide (0 < e.pushes) := by
    simp [Instruction.isSideEffectFree, h]
  unfold Instruction.stackEffect? at h
  obtain ⟨site, hsite, hcall⟩ := Option.bind_eq_some_iff.1 h
  obtain ⟨-, rfl⟩ := eq_of_ofCall? hcall
  simp only [invokeDynamic, hsite, pure_bind]
  refine (exchanges_popArgs line _).bind fun args => ?_
  exact (exchanges_pushOrEmit line _ _).imp fun hf hvoid => by simp [hfree, hvoid] at hf

/-- An instruction takes and puts as many values as the table says, and adds no statement if it only
computes a value. -/
theorem exchanges_step {ctx : SimContext} (hpool : ctx.pool.ConstructorsReturnNothing)
    {i : PlacedInstruction} (h : i.operation.stackEffect? ctx.pool = some e) :
    Exchanges (i.operation.isSideEffectFree ctx.pool = true ∧ i.operation.leaves = false) e.pops e.pushes
      (step ctx i) := by
  -- what the instructions have in common: operands taken from the top, a value put there, or a statement
  have hpop : ∀ k, Exchanges True (1 + k) (0 + k) (pop i.line) := fun k => (exchanges_pop i.line).frame k
  have hunary : ∀ f : Expr → Expr, Exchanges True 1 1 (do push (f (← pop i.line))) :=
    fun f => (hpop 0).bind fun e => exchanges_push (f e)
  have hbinary : ∀ f : Expr → Expr → Expr, Exchanges True 2 1
      (do let right ← pop i.line; let left ← pop i.line; push (f left right)) :=
    fun f => (hpop 1).bind fun right => (hpop 0).bind fun left => exchanges_push (f left right)
  have hcondition : ∀ e : Expr,
      Exchanges True 0 0 (modify fun s => { s with condition := some e } : Sim Unit) :=
    fun e => .modify (fun _ => rfl) (fun _ => rfl) fun _ => rfl
  have hkey : ∀ e : Expr,
      Exchanges True 0 0 (modify fun s => { s with switchKey := some e } : Sim Unit) :=
    fun e => .modify (fun _ => rfl) (fun _ => rfl) fun _ => rfl
  have hemit : ∀ f : Expr → SimpleStmt, Exchanges False 1 0 (do emit (f (← pop i.line))) :=
    fun f => ((hpop 0).imp False.elim).bind fun e => exchanges_emit (f e)
  unfold step
  dsimp only
  -- those with lemmas of their own come first, since their effect depends on more than the operation
  cases hop : i.operation <;> rw [hop] at h
  case stack op => exact (exchanges_stackOp i.line h).imp And.left
  case field op index => exact (exchanges_field i.line h).imp And.left
  case invoke kind index => exact (exchanges_invoke i.line hpool h).imp And.left
  case invokeDynamic index => exact (exchanges_invokeDynamic i.line h).imp And.left
  case «return» type =>
    cases type with
    | none =>
      obtain rfl := Option.some.inj h
      exact (exchanges_emit _).imp nofun
    | some type =>
      obtain rfl := Option.some.inj h
      exact (hemit _).imp nofun
  all_goals obtain rfl := Option.some.inj h
  case nop | goto | ret => exact .pure ()
  case aconstNull | push | longConst | floatConst | doubleConst | ldc | new | jsr => exact exchanges_push _
  case load type slot =>
    dsimp only
    split <;> exact exchanges_push _
  case store type slot =>
    exact Exchanges.imp ((exchanges_popValue _).bind fun v => exchanges_assign _ _ v) nofun
  case iinc slot delta => exact (exchanges_increment i.line slot _ _).imp nofun
  case arrayLoad type => exact (hbinary fun array index => .arrayLoad i.line array index).imp fun _ => trivial
  case arrayStore type =>
    exact Exchanges.imp (((exchanges_popValue _).frame 2).bind fun v =>
      ((exchanges_pop _).frame 1).bind fun index => (exchanges_pop _).bind fun array =>
        exchanges_assign _ _ v) nofun
  case arith op type =>
    exact (hbinary fun l r => .binary i.line (.ofArith op) l r).imp fun _ => trivial
  case neg type => exact (hunary fun e => .neg i.line e).imp fun _ => trivial
  case convert source target => exact (hunary fun e => .cast i.line (.ofOperand target) e).imp fun _ => trivial
  case compare kind => exact (hbinary fun l r => .threeWay i.line kind l r).imp fun _ => trivial
  case ifZero op target => exact ((hpop 0).bind fun e => hcondition _).imp fun _ => trivial
  case ifCompare op onReferences target =>
    exact ((hpop 1).bind fun r => (hpop 0).bind fun l => hcondition _).imp fun _ => trivial
  case ifNull null target => exact ((hpop 0).bind fun e => hcondition _).imp fun _ => trivial
  case «switch» default cases => exact ((hpop 0).bind fun e => hkey e).imp fun _ => trivial
  case throw => exact (hemit _).imp nofun
  case newArray element =>
    exact (hunary fun e => .newArray i.line (.ofOperand element) [e]).imp fun _ => trivial
  case anewArray index => exact (hunary fun e => .newArray i.line _ [e]).imp fun _ => trivial
  case multiNewArray index dimensions =>
    exact (exchanges_popArgs i.line dimensions.toNat).bind fun counts => exchanges_push _
  case arrayLength => exact (hunary fun e => .arrayLength i.line e).imp fun _ => trivial
  case checkCast index => exact (hunary fun e => .cast i.line _ e).imp fun _ => trivial
  case instanceOf index => exact (hunary fun e => .instanceOf i.line e _).imp fun _ => trivial
  case monitorEnter => exact (hemit _).imp nofun
  case monitorExit => exact (hemit _).imp nofun

end Instructions

/-! ## Blocks -/

/-- The instructions have these effects. -/
def HaveEffects (pool : ConstantPool) (is : List PlacedInstruction) (effects : List StackEffect) : Prop :=
  List.Forall₂ (fun i e => i.operation.stackEffect? pool = some e) is effects

open StackEffect in
/-- A run takes and puts as many values as its instructions. An addition that is taken together with a load
puts one, as the two do on their own. -/
theorem exchanges_run {ctx : SimContext} (hpool : ctx.pool.ConstructorsReturnNothing)
    {is : List PlacedInstruction} {effects : List StackEffect} (heffects : HaveEffects ctx.pool is effects)
    {n m : Nat} (hsustained : Sustained n effects) (hm : m + totalPops effects = n + totalPushes effects) :
    Exchanges (∀ i ∈ is, i.operation.isSideEffectFree ctx.pool = true ∧ i.operation.leaves = false) n m
      (run ctx is) := by
  have hstep : ∀ {i : PlacedInstruction} {e : StackEffect} {n : Nat},
      i.operation.stackEffect? ctx.pool = some e → e.pops ≤ n →
      Exchanges (i.operation.isSideEffectFree ctx.pool = true ∧ i.operation.leaves = false) n
        (n - e.pops + e.pushes) (step ctx i) := by
    intro i e n he hpops
    have hframe := (exchanges_step hpool he).frame (n - e.pops)
    rwa [Nat.add_sub_cancel' hpops, Nat.add_comm e.pushes] at hframe
  -- an increment in front of a load is run with it, so that the recursion skips one or two instructions
  induction is using run.induct generalizing effects n with
  | case1 =>
    cases heffects
    obtain rfl : m = n := by simpa using hm
    exact .pure ()
  | case2 i =>
    obtain _ | @⟨_, e, _, _, he, hrest⟩ := heffects
    cases hrest
    obtain ⟨hpops, -⟩ := sustained_cons.1 hsustained
    obtain rfl : m = n - e.pops + e.pushes := by
      simp only [totalPops_cons, totalPushes_cons, totalPops_nil, totalPushes_nil] at hm
      omega
    exact ((hstep he hpops).imp fun h => h i List.mem_cons_self).bind fun _ => exchanges_checkDepth _
  | case3 i j rest ihrest ih =>
    obtain _ | @⟨_, e, _, es, he, htail⟩ := heffects
    obtain ⟨hpops, hsustained⟩ := sustained_cons.1 hsustained
    simp only [totalPops_cons, totalPushes_cons] at hm
    refine .get_bind fun s => ?_
    cases hpre : preIncrement? s.stack i (j :: rest) with
    -- the two together put one value on the stack, as their effects do one after the other
    | some x =>
      obtain ⟨slot, delta, hi, hj, rfl⟩ := preIncrement?_eq_some hpre
      obtain _ | @⟨_, _, _, es, he', hrest⟩ := htail
      rw [hi] at he
      rw [hj] at he'
      obtain rfl := Option.some.inj he
      obtain rfl := Option.some.inj he'
      obtain ⟨-, hsustained⟩ := sustained_cons.1 hsustained
      have hsustained : Sustained (n + 1) es := hsustained
      have hm : m + totalPops es = n + 1 + totalPushes es := by
        simp only [totalPops_cons, totalPushes_cons] at hm
        omega
      have hpush := (exchanges_push (p := True)
        (.increment i.line (.localVar i.line (.ofSlot slot i.next .int)) delta.toInt32 true)).frame n
      rw [Nat.zero_add, Nat.add_comm] at hpush
      refine (hpush.imp fun _ => trivial).bind fun _ => ?_
      exact (ihrest hrest hsustained hm).imp fun h k hk => h k (by simp [hk])
    | none =>
      refine ((hstep he hpops).imp fun h => h i List.mem_cons_self).bind fun _ => ?_
      refine (exchanges_checkDepth _).bind fun _ => ?_
      exact (ih htail hsustained (by omega)).imp fun h k hk => h k (List.mem_cons_of_mem _ hk)

open StackEffect in
/-- Instructions that compute a value and do nothing else have effects by which none of them lacks a
value. -/
theorem exists_effects_of_pureDepth? {pool : ConstantPool} {is : List PlacedInstruction} {depth depth' : Nat}
    (h : PlacedInstruction.pureDepth? pool depth is = some depth') :
    (∀ i ∈ is, i.operation.isSideEffectFree pool = true) ∧
      ∃ effects, HaveEffects pool is effects ∧ Sustained depth effects ∧
        depth' + totalPops effects = depth + totalPushes effects := by
  induction is generalizing depth with
  | nil =>
    obtain rfl := Option.some.inj h
    exact ⟨nofun, [], .nil, sustained_nil _, rfl⟩
  | cons i rest ih =>
    unfold PlacedInstruction.pureDepth? at h
    split at h
    · cases h
    rename_i hfree
    rw [Bool.not_eq_true', Bool.not_eq_false] at hfree
    split at h
    · cases h
    rename_i e he
    split at h
    · cases h
    rename_i hpops
    obtain ⟨hrest, effects, heffects, hsustained, hdepth⟩ := ih h
    refine ⟨List.forall_mem_cons.2 ⟨hfree, hrest⟩, e :: effects, .cons he heffects,
      sustained_cons.2 ⟨by omega, hsustained⟩, ?_⟩
    simp only [totalPops_cons, totalPushes_cons]
    omega

end Sim

/-- A block that ends with a branch holds none of the instructions that end the method. -/
theorem Block.Sealed.goesOn_of_branch {b : Block} (hb : b.Sealed) {k : BranchCondition} {x y : BlockId}
    (hterm : b.terminator = .branch k x y) : Sim.GoesOn b.instructions := by
  obtain ⟨is, last, his, hgoes, hends⟩ := hb.exists_last (by simp [hterm])
  rw [his]
  refine List.forall_mem_append.2 ⟨hgoes, List.forall_mem_singleton.2 ?_⟩
  rw [hterm] at hends
  cases hop : last.operation <;>
    first | rfl | simp [hop, Terminator.endsWith, Instruction.isConditionalBranch] at hends

open StackEffect in
/-- A run agrees with the table of effects. On a stack that is high enough for the instructions of a block,
a run lacks no value and ends as high as the table says; and a block of a flow graph that computes a
condition and does nothing else by the table leaves a condition behind, and neither statements nor values. -/
theorem Block.simulate_agrees_stackEffects {ctx : SimContext}
    (hpool : ctx.pool.ConstructorsReturnNothing) :
    (∀ (b : Block) (entryStack : List Expr) (effects : List StackEffect),
      Sim.HaveEffects ctx.pool b.instructions effects → Sustained entryStack.length effects →
      "operand stack underflow" ∉ (b.simulate ctx entryStack).diagnostics ∧
        (b.simulate ctx entryStack).exitStack.length + totalPops effects =
          entryStack.length + totalPushes effects) ∧
    ∀ (attr : CodeAttribute) (code : MethodCode) (b : Block) (k : BranchCondition) (x y : BlockId),
      MethodCode.decode ctx.pool attr = .ok code → b ∈ (FlowGraph.ofCode code).blocks →
      b.terminator = .branch k x y → PlacedInstruction.isPureCondition ctx.pool b.instructions = true →
      (b.simulate ctx []).condition.isSome = true ∧ (b.simulate ctx []).statements = [] ∧
        (b.simulate ctx []).exitStack = [] := by
  refine ⟨fun b entryStack effects heffects hsustained => ?_,
    fun attr code b k x y hdecode hb hterm hpure => ?_⟩
  · obtain ⟨m, hm⟩ : ∃ m, m + totalPops effects = entryStack.length + totalPushes effects :=
      ⟨_, Nat.sub_add_cancel (hsustained.totalPops_le)⟩
    have hrun := Sim.exchanges_run hpool heffects hsustained hm
    have hstart : (Sim.start entryStack).stack.length = entryStack.length := by simp [Sim.start]
    rw [Block.simulate_eq]
    refine ⟨fun hu => ?_, ?_⟩
    · have hnone := hrun.enough (Sim.start entryStack) (Nat.le_of_eq hstart.symm) hu
      exact absurd hnone List.not_mem_nil
    · have hheight := hrun.height 0 (Sim.start entryStack) (by omega)
      simp only [List.length_reverse, List.length_map]
      omega
  -- a pure condition takes nothing from below and leaves nothing but the condition
  · have hsealed : b.Sealed := FlowGraph.sealed_ofCode (MethodCode.wellFormed_of_decode hdecode) b hb
    have hgoes := hsealed.goesOn_of_branch hterm
    obtain ⟨hfree, effects, heffects, hsustained, hdepth⟩ := Sim.exists_effects_of_pureDepth?
      (show PlacedInstruction.pureDepth? ctx.pool 0 b.instructions = some 0 by
        simpa [PlacedInstruction.isPureCondition] using hpure)
    have hrun := Sim.exchanges_run hpool heffects hsustained hdepth
    refine ⟨hsealed.condition_isSome hterm ctx [], ?_, ?_⟩
    · exact hrun.quiet (fun i hi => ⟨hfree i hi, hgoes i hi⟩) (Sim.start [])
    · have hheight := hrun.height 0 (Sim.start []) rfl
      rw [Block.simulate_eq]
      simp [List.eq_nil_of_length_eq_zero hheight]

/-- The constants of a class `T` with a constructor that takes an `int` and a static method `f` from `int` to
`int`. -/
def constructingPool : ConstantPool :=
  .ofSlots [none, some (.utf8 "T"), some (.classRef 1), some (.utf8 "<init>"), some (.utf8 "(I)V"),
    some (.nameAndType 3 4), some (.methodref 2 5), some (.utf8 "f"), some (.utf8 "(I)I"),
    some (.nameAndType 7 8), some (.methodref 2 9)]

/-- The constructor of the example has no result. -/
theorem constructorsReturnNothing_constructingPool : constructingPool.ConstructorsReturnNothing := by
  have hslots : ∀ slot : Fin 11, (constructingPool.memberRef? (.ofNat slot)).all (fun m =>
      m.name ≠ "<init>" || (MethodTy.ofDescriptor? m.descriptor).all (·.result = .void)) = true := by
    decide +kernel
  intro index m t hm hname ht
  have hlt : index.toNat < 11 := by
    by_contra hge
    have hget : constructingPool.get? index = none := by
      rw [ConstantPool.get?, Array.getElem?_eq_none (show constructingPool.slots.size ≤ _ by
        rw [show constructingPool.slots.size = 11 from rfl]
        omega)]
      rfl
    simp [ConstantPool.memberRef?, hget] at hm
  have hslot := hslots ⟨index.toNat, hlt⟩
  simp only [UInt16.ofNat_toNat, hm] at hslot
  simpa [hname, ht] using hslot

/-- A loop that goes on while `f` of a slot is not zero. -/
def callingLoop : CodeAttribute :=
  ⟨1, 1, [0x1A, 0xB8, 0x00, 0x0A, 0x99, 0x00, 0x09, 0x84, 0x00, 0x01, 0xA7, 0xFF, 0xF6, 0xB1], [], []⟩

/-- A new object and a value below it, with an addition to a slot in front of its load in between; and the
condition of a loop. -/
theorem Block.simulate_agrees_stackEffects_constructingPool :
    let ctx : SimContext := ⟨constructingPool, true, 4⟩
    let b : Block := ⟨0, [.new 2, .stack .dup, .iinc 0 1, .load .int 0, .invoke .special 6, .stack .swap].map
      fun operation => ⟨0, 1, none, operation⟩, .fallThrough 1⟩
    let entry : List Expr := [.localVar none (.ofSlot 1 0 .int)]
    let effects : List StackEffect := [⟨0, 1⟩, ⟨1, 2⟩, ⟨0, 0⟩, ⟨0, 1⟩, ⟨2, 0⟩, ⟨2, 2⟩]
    constructingPool.ConstructorsReturnNothing ∧
      Sim.HaveEffects constructingPool b.instructions effects ∧
      StackEffect.Sustained entry.length effects ∧ (b.simulate ctx entry).exitStack.length + 5 = 1 + 6 ∧
      ∃ code header, MethodCode.decode constructingPool callingLoop = .ok code ∧
        header ∈ (FlowGraph.ofCode code).blocks ∧ header.instructions.length = 3 ∧
        header.terminator = .branch (.intZero .eq) 13 7 ∧
        PlacedInstruction.isPureCondition constructingPool header.instructions = true ∧
        (header.simulate ctx []).statements = [] ∧ (header.simulate ctx []).exitStack = [] := by
  intro ctx b entry effects
  have hpool := constructorsReturnNothing_constructingPool
  have heffects : Sim.HaveEffects constructingPool b.instructions effects := by
    unfold Sim.HaveEffects
    decide +kernel
  have hsustained : StackEffect.Sustained entry.length effects := by
    simp [effects, entry, StackEffect.sustained_cons, StackEffect.sustained_nil]
  have hheader : (match MethodCode.decode constructingPool callingLoop with
      | .ok code => (FlowGraph.ofCode code).blocks.any fun header => header.instructions.length = 3 ∧
        header.terminator = .branch (.intZero .eq) 13 7 ∧
        PlacedInstruction.isPureCondition constructingPool header.instructions = true
      | .error _ => false) = true := by
    decide +kernel
  split at hheader
  case h_2 => cases hheader
  rename_i code hdecode
  obtain ⟨header, hmem, hheader⟩ := List.any_eq_true.1 hheader
  obtain ⟨hlength, hterm, hpure⟩ := of_decide_eq_true hheader
  have hagrees := @Block.simulate_agrees_stackEffects ctx hpool
  have hblock := hagrees.1 b entry effects heffects hsustained
  have hcondition := hagrees.2 callingLoop code header _ _ _ hdecode hmem hterm hpure
  exact ⟨hpool, heffects, hsustained, hblock.2, code, header, hdecode, hmem, hlength, hterm, hpure,
    hcondition.2⟩

end JvmDecompiler
