import JvmDecompiler.Proofs.SimulatedRun
import JvmDecompiler.Proofs.ValueKinds

/-!
# Moving values in a run

A run counts the slots of a value by the type that it reads off the expression. Where these counts are right,
it copies, swaps and drops exactly the values that the machine does (`Sim.movesAs_stackOp`): the values that
a copying instruction copies and skips are found in every form of the instruction, copies get marks, and
what is dropped stays as a statement if evaluating it has an effect.
-/

namespace JvmDecompiler

/-- Whether a run counts a value as two slots. -/
def StackValue.isWide (v : StackValue) : Bool := v.expr.type.isWide

namespace Sim

section Moves

variable {line : SourceLine} {s : SimState}

/-- The topmost value takes one slot or two above the others. -/
theorem depth_cons (v : StackValue) (vs : List StackValue) :
    depth (v :: vs) = (if v.isWide then 2 else 1) + depth vs := by
  show v.expr.type.width.toNat + depth vs = _
  unfold Ty.width StackValue.isWide
  split <;> rfl

/-- The values that exactly make up some slots are counted as they are. -/
theorem run_spanning (line : SourceLine) (above vs below : List StackValue)
    (h : s.stack = above ++ vs ++ below) :
    StateT.run (spanning line above.length (depth vs)) s = (vs.length, s) := by
  induction vs generalizing above with
  | nil => rfl
  | cons v vs ih =>
    have hv : s.stack[above.length]? = some v := by simp [h]
    have hrest := ih (above ++ [v]) (by simpa using h)
    rw [List.length_append, List.length_singleton] at hrest
    rw [depth_cons]
    by_cases hwide : v.isWide = true
    · rw [if_pos hwide, show 2 + depth vs = depth vs + 1 + 1 by omega]
      have hwide : v.expr.type.isWide = true := hwide
      simp only [spanning, StateT.run_bind, StateT.run_get, pure_bind, hv, hwide, if_true, hrest,
        StateT.run_pure, List.length_cons, Nat.add_comm 1]
      rfl
    · rw [if_neg hwide, Nat.add_comm 1]
      have hwide : v.expr.type.isWide = false := Bool.eq_false_iff.2 hwide
      unfold spanning
      simp only [StateT.run_bind, StateT.run_get, pure_bind, hv, hwide, Bool.false_eq_true, if_false,
        hrest, StateT.run_pure, List.length_cons, Nat.add_comm 1]
      rfl

/-- A copy of some values is put in below the values that are skipped. -/
theorem after_duplicate (line : SourceLine) (vs ws rest : List StackValue)
    (h : s.stack = vs ++ ws ++ rest) :
    after (duplicate line (depth vs) (depth ws)) s =
      { s with
        stack := markAll s.nextMark vs ++ ws ++ markAll s.nextMark vs ++ rest
        nextMark := s.nextMark + vs.length } := by
  have hcopied := run_spanning line [] vs (ws ++ rest) (s := s) (by simpa using h)
  have hskipped := run_spanning line vs ws rest (s := s) h
  have htake : s.stack.take vs.length = vs := by simp [h]
  have hdrop : s.stack.drop vs.length = ws ++ rest := by simp [h]
  rw [List.length_nil] at hcopied
  have hsame : ∀ {x : Sim Nat} {n : Nat}, StateT.run x s = (n, s) → after x s = s :=
    fun hx => congrArg Prod.snd hx
  rw [duplicate, after_bind, hcopied, hsame hcopied, after_bind, hskipped, hsame hskipped]
  simp only [after_modify, htake, hdrop, List.take_left, List.drop_left]

/-- A narrow value takes one slot. -/
theorem depth_narrow {v : StackValue} (h : v.isWide = false) (vs : List StackValue) :
    depth (v :: vs) = 1 + depth vs := by
  simp [depth_cons, h]

/-- A wide value takes two. -/
theorem depth_wide {v : StackValue} (h : v.isWide = true) (vs : List StackValue) :
    depth (v :: vs) = 2 + depth vs := by
  simp [depth_cons, h]

/-- The instructions that copy values, by the slots that they copy and those that they skip. -/
def copies? : StackOp → Option (Nat × Nat)
  | .dup => some (1, 0)
  | .dupX1 => some (1, 1)
  | .dupX2 => some (1, 2)
  | .dup2 => some (2, 0)
  | .dup2X1 => some (2, 1)
  | .dup2X2 => some (2, 2)
  | _ => none

/-- Each of the six instructions that copy is a copy below some values. -/
theorem stackOp_of_copies? {op : StackOp} {copied skipped : Nat} (h : copies? op = some (copied, skipped)) :
    stackOp line op = duplicate line copied skipped := by
  cases op <;> cases h <;> rfl

/-- In every form of a copying instruction, the values copied and those skipped make up the slots. -/
theorem moved?_of_copies? {op : StackOp} {copied skipped : Nat} {stack moved : List StackValue}
    (hop : copies? op = some (copied, skipped)) (h : op.moved? StackValue.isWide stack = some moved) :
    ∃ vs ws rest, stack = vs ++ ws ++ rest ∧ moved = vs ++ ws ++ vs ++ rest ∧ depth vs = copied ∧
      depth ws = skipped := by
  have hone : ∀ {v : StackValue}, v.isWide = false → depth [v] = 1 := fun hv => depth_narrow hv []
  have hwide : ∀ {v : StackValue}, v.isWide = true → depth [v] = 2 := fun hv => depth_wide hv []
  have htwo : ∀ {v w : StackValue}, v.isWide = false → w.isWide = false → depth [v, w] = 2 :=
    fun hv hw => by rw [depth_narrow hv, hone hw]
  obtain _ | ⟨v, stack⟩ := stack
  · cases op <;> cases h
  cases op with
  | pop | pop2 | swap => cases hop
  | dup =>
    cases hop
    obtain ⟨hv, rfl⟩ : v.isWide = false ∧ v :: v :: stack = moved := by simpa [StackOp.moved?] using h
    exact ⟨[v], [], stack, rfl, rfl, hone hv, rfl⟩
  | dupX1 =>
    cases hop
    obtain _ | ⟨w, stack⟩ := stack
    · cases h
    obtain ⟨⟨hv, hw⟩, rfl⟩ : (v.isWide = false ∧ w.isWide = false) ∧ v :: w :: v :: stack = moved := by
      simpa [StackOp.moved?] using h
    exact ⟨[v], [w], stack, rfl, rfl, hone hv, hone hw⟩
  | dupX2 =>
    cases hop
    obtain _ | ⟨w, stack⟩ := stack
    · cases h
    cases hw : w.isWide with
    | true =>
      obtain ⟨hv, rfl⟩ : v.isWide = false ∧ v :: w :: v :: stack = moved := by
        simpa [StackOp.moved?, hw] using h
      exact ⟨[v], [w], stack, rfl, rfl, hone hv, hwide hw⟩
    | false =>
      obtain _ | ⟨x, stack⟩ := stack
      · simp [StackOp.moved?, hw] at h
      obtain ⟨hv, hx, rfl⟩ : v.isWide = false ∧ x.isWide = false ∧ v :: w :: x :: v :: stack = moved := by
        simpa [StackOp.moved?, hw] using h
      exact ⟨[v], [w, x], stack, rfl, rfl, hone hv, htwo hw hx⟩
  | dup2 =>
    cases hop
    cases hv : v.isWide with
    | true =>
      obtain rfl : v :: v :: stack = moved := by simpa [StackOp.moved?, hv] using h
      exact ⟨[v], [], stack, rfl, rfl, hwide hv, rfl⟩
    | false =>
      obtain _ | ⟨w, stack⟩ := stack
      · simp [StackOp.moved?, hv] at h
      obtain ⟨hw, rfl⟩ : w.isWide = false ∧ v :: w :: v :: w :: stack = moved := by
        simpa [StackOp.moved?, hv] using h
      exact ⟨[v, w], [], stack, rfl, rfl, htwo hv hw, rfl⟩
  | dup2X1 =>
    cases hop
    obtain _ | ⟨w, stack⟩ := stack
    · cases h
    cases hv : v.isWide with
    | true =>
      obtain ⟨hw, rfl⟩ : w.isWide = false ∧ v :: w :: v :: stack = moved := by
        simpa [StackOp.moved?, hv] using h
      exact ⟨[v], [w], stack, rfl, rfl, hwide hv, hone hw⟩
    | false =>
      obtain _ | ⟨x, stack⟩ := stack
      · simp [StackOp.moved?, hv] at h
      obtain ⟨hw, hx, rfl⟩ :
          w.isWide = false ∧ x.isWide = false ∧ v :: w :: x :: v :: w :: stack = moved := by
        simpa [StackOp.moved?, hv] using h
      exact ⟨[v, w], [x], stack, rfl, rfl, htwo hv hw, hone hx⟩
  | dup2X2 =>
    cases hop
    obtain _ | ⟨w, stack⟩ := stack
    · cases h
    cases hv : v.isWide <;> cases hw : w.isWide
    case true.true =>
      obtain rfl : v :: w :: v :: stack = moved := by simpa [StackOp.moved?, hv, hw] using h
      exact ⟨[v], [w], stack, rfl, rfl, hwide hv, hwide hw⟩
    case false.true => simp [StackOp.moved?, hv, hw] at h
    case true.false =>
      obtain _ | ⟨x, stack⟩ := stack
      · simp [StackOp.moved?, hv, hw] at h
      obtain ⟨hx, rfl⟩ : x.isWide = false ∧ v :: w :: x :: v :: stack = moved := by
        simpa [StackOp.moved?, hv, hw] using h
      exact ⟨[v], [w, x], stack, rfl, rfl, hwide hv, htwo hw hx⟩
    case false.false =>
      obtain _ | ⟨x, stack⟩ := stack
      · simp [StackOp.moved?, hv, hw] at h
      cases hx : x.isWide with
      | true =>
        obtain rfl : v :: w :: x :: v :: w :: stack = moved := by
          simpa [StackOp.moved?, hv, hw, hx] using h
        exact ⟨[v, w], [x], stack, rfl, rfl, htwo hv hw, hwide hx⟩
      | false =>
        obtain _ | ⟨y, stack⟩ := stack
        · simp [StackOp.moved?, hv, hw, hx] at h
        obtain ⟨hy, rfl⟩ : y.isWide = false ∧ v :: w :: x :: y :: v :: w :: stack = moved := by
          simpa [StackOp.moved?, hv, hw, hx] using h
        exact ⟨[v, w], [x, y], stack, rfl, rfl, htwo hv hw, htwo hx hy⟩

/-- Stacks of the same widths are moved in the same way. -/
theorem exists_moved? {op : StackOp} {kinds kinds' : List ValueKind} {stack : List StackValue}
    (hwidths : stack.map (·.isWide) = kinds.map (·.isWide))
    (h : op.moved? ValueKind.isWide kinds = some kinds') :
    ∃ moved, op.moved? StackValue.isWide stack = some moved ∧
      moved.map (·.isWide) = kinds'.map (·.isWide) := by
  have hkinds : op.moved? id (kinds.map (·.isWide)) =
      (op.moved? ValueKind.isWide kinds).map (List.map (·.isWide)) :=
    StackOp.moved?_map op fun _ _ => rfl
  have hstack : op.moved? id (stack.map (·.isWide)) =
      (op.moved? StackValue.isWide stack).map (List.map (·.isWide)) :=
    StackOp.moved?_map op fun _ _ => rfl
  rw [hwidths, hkinds, h] at hstack
  exact Option.map_eq_some_iff.1 hstack.symm

/-- Marks do not change the expressions. -/
theorem map_expr_markAll (next : Nat) (vs : List StackValue) :
    (markAll next vs).map (·.expr) = vs.map (·.expr) := by
  induction vs generalizing next with
  | nil => rfl
  | cons v vs ih =>
    unfold markAll
    split <;> simp [ih]

/-- Nor how wide the values are. -/
theorem map_isWide_markAll (next : Nat) (vs : List StackValue) :
    (markAll next vs).map (·.isWide) = vs.map (·.isWide) := by
  have h := congrArg (List.map fun e => e.type.isWide) (map_expr_markAll next vs)
  rwa [List.map_map, List.map_map] at h

/-- What an instruction that only moves values comes to: the expressions are moved as the machine moves its
values, and those that are dropped stay as statements where evaluating them has an effect. -/
structure MovesAs (line : SourceLine) (op : StackOp) (moved : List StackValue) (s t : SimState) : Prop where
  moved : t.stack.map (·.expr) = moved.map (·.expr)
  statements : t.statements = s.statements ++
    (((op.dropped StackValue.isWide s.stack).map (·.expr)).filter hasEffect).map (.expr line)

/-- A value that is discarded is written as a statement if it does something. -/
theorem after_discard (line : SourceLine) (e : Expr) (s : SimState) :
    after (discard line e) s =
      { s with statements := s.statements ++ ([e].filter hasEffect).map (.expr line) } := by
  unfold discard
  cases h : hasEffect e with
  | true => simp [h]; rfl
  | false => simp [h]

/-- The instructions that copy nothing leave some of the values on the stack and drop the others. -/
theorem after_stackOp_of_copies?_eq_none (line : SourceLine) {op : StackOp} {moved : List StackValue}
    (hop : copies? op = none) (h : op.moved? StackValue.isWide s.stack = some moved) :
    after (stackOp line op) s =
      { s with
        stack := moved
        statements := s.statements ++
          (((op.dropped StackValue.isWide s.stack).map (·.expr)).filter hasEffect).map (.expr line) } ∧
    ∀ v ∈ moved, v ∈ s.stack := by
  obtain ⟨stack, statements, condition, switchKey, diagnostics, nextMark, reported⟩ := s
  have hdiscard : ∀ e stack statements, after (discard line e)
      ⟨stack, statements, condition, switchKey, diagnostics, nextMark, reported⟩ =
      ⟨stack, statements ++ ([e].filter hasEffect).map (.expr line), condition, switchKey, diagnostics,
        nextMark, reported⟩ := fun e _ _ => after_discard line e _
  obtain _ | ⟨v, stack⟩ := stack
  · cases op <;> cases h
  cases op with
  | dup | dupX1 | dupX2 | dup2 | dup2X1 | dup2X2 => cases hop
  | pop =>
    obtain ⟨-, rfl⟩ : v.isWide = false ∧ stack = moved := by simpa [StackOp.moved?] using h
    exact ⟨hdiscard v.expr _ _, fun u hu => List.mem_cons_of_mem _ hu⟩
  | pop2 =>
    have hpop2 : after (stackOp line .pop2)
        ⟨v :: stack, statements, condition, switchKey, diagnostics, nextMark, reported⟩ =
        after (if !v.isWide then do discard line (← pop line) else pure ()) (after (discard line v.expr)
          ⟨stack, statements, condition, switchKey, diagnostics, nextMark, reported⟩) := rfl
    rw [hpop2, hdiscard]
    -- a wide value is dropped alone, a narrow one with the next
    cases hv : v.isWide with
    | true =>
      obtain rfl : stack = moved := by cases stack <;> simpa [StackOp.moved?, hv] using h
      exact ⟨by simp [StackOp.dropped, hv], fun u hu => List.mem_cons_of_mem _ hu⟩
    | false =>
      obtain _ | ⟨w, stack⟩ := stack
      · simp [StackOp.moved?, hv] at h
      obtain ⟨-, rfl⟩ : w.isWide = false ∧ stack = moved := by simpa [StackOp.moved?, hv] using h
      refine ⟨(hdiscard w.expr _ _).trans ?_, fun u hu => by simp [hu]⟩
      rw [List.append_assoc, ← List.map_append, ← List.filter_append]
      simp [StackOp.dropped, hv]
  | swap =>
    obtain _ | ⟨w, stack⟩ := stack
    · cases h
    obtain ⟨-, rfl⟩ : (v.isWide = false ∧ w.isWide = false) ∧ w :: v :: stack = moved := by
      simpa [StackOp.moved?] using h
    refine ⟨?_, fun u hu => ?_⟩
    · show (⟨w :: v :: stack, statements, _, _, _, _, _⟩ : SimState) = _
      simp [StackOp.dropped]
    · simp only [List.mem_cons] at hu ⊢
      tauto

/-- A run moves values as the machine does if it knows how wide they are. -/
theorem movesAs_stackOp (line : SourceLine) {op : StackOp} {moved : List StackValue}
    (h : op.moved? StackValue.isWide s.stack = some moved) :
    MovesAs line op moved s (after (stackOp line op) s) := by
  cases hop : copies? op with
  | some slots =>
    obtain ⟨copied, skipped⟩ := slots
    obtain ⟨vs, ws, rest, hstack, rfl, rfl, rfl⟩ := moved?_of_copies? hop h
    have hdropped : op.dropped StackValue.isWide s.stack = [] := by
      cases op <;> first | rfl | cases hop
    rw [stackOp_of_copies? hop, after_duplicate line vs ws rest hstack]
    exact ⟨by simp [map_expr_markAll], by simp [hdropped]⟩
  | none =>
    rw [(after_stackOp_of_copies?_eq_none line hop h).1]
    exact ⟨rfl, rfl⟩

end Moves

end Sim

end JvmDecompiler
