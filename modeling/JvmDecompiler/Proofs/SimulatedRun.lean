import JvmDecompiler.Proofs.BlockEffects

/-!
# The points of a run

A block is run instruction by instruction, except that an addition to a slot is taken together with the
load behind it. The points of the run are the states that it comes to in between (`Sim.points`); what holds
at the start and is kept by a step and by such a pair holds at all of them (`Sim.points_induction`).

The equations of the run's parts on a stack that is high enough are here as well: arguments come off the
stack in order, and an assignment takes the place of the topmost copy of its value.
-/

namespace JvmDecompiler

namespace Sim

/-- A point of a run: the instructions behind it, those ahead of it, and the state there. -/
structure Point where
  behind : List PlacedInstruction
  ahead : List PlacedInstruction
  state : SimState

/-- The state that a run starts in. The values of the stack are given from the bottom. -/
def start (entryStack : List Expr) : SimState :=
  ⟨entryStack.reverse.map (⟨·, none⟩), [], none, none, [], 0, false⟩

/-- The state behind one instruction. -/
def next (ctx : SimContext) (i : PlacedInstruction) (s : SimState) : SimState :=
  after (checkDepth ctx.maxStack) (after (step ctx i) s)

/-- The points of a run, in order. -/
def points (ctx : SimContext) (behind : List PlacedInstruction) :
    List PlacedInstruction → SimState → List Point
  | [], s => [⟨behind, [], s⟩]
  | [i], s => [⟨behind, [i], s⟩, ⟨behind ++ [i], [], next ctx i s⟩]
  | i :: j :: rest, s =>
    ⟨behind, i :: j :: rest, s⟩ ::
      match preIncrement? s.stack i (j :: rest) with
      | some e => points ctx (behind ++ [i, j]) rest (after (push e) s)
      | none => points ctx (behind ++ [i]) (j :: rest) (next ctx i s)

/-! ## Induction along a run -/

section Points

variable {ctx : SimContext} {behind is : List PlacedInstruction} {s : SimState}

/-- The last instruction is no increment in front of a load. -/
theorem preIncrement?_nil (stack : List StackValue) (i : PlacedInstruction) :
    preIncrement? stack i [] = none := by
  unfold preIncrement?
  split
  · rename_i h
    simp at h
  · rfl

/-- An addition is taken together with a load of the same slot. -/
theorem preIncrement?_eq_some {stack : List StackValue} {i j : PlacedInstruction}
    {rest : List PlacedInstruction} {e : Expr} (h : preIncrement? stack i (j :: rest) = some e) :
    ∃ slot delta, i.operation = .iinc slot delta ∧ j.operation = .load .int slot ∧
      e = .increment i.line (.localVar i.line (.ofSlot slot i.next .int)) delta.toInt32 true := by
  unfold preIncrement? at h
  split at h
  · rename_i slot delta s _ hi hj
    obtain ⟨hj, -⟩ := List.cons.inj hj
    obtain ⟨hused, he⟩ := Option.ite_none_right_eq_some.1 h
    obtain rfl := Option.some.inj he
    obtain rfl : s = slot := of_decide_eq_true (Bool.and_eq_true_iff.1 hused).1
    exact ⟨s, delta, hi, hj, rfl⟩
  · cases h

/-- The start of a run is one of its points. -/
theorem start_mem_points : ⟨behind, is, s⟩ ∈ points ctx behind is s := by
  unfold points
  split <;> exact List.mem_cons_self

/-- What holds at the start of a run, and is kept by every instruction that is run on its own and by every
addition that is taken together with its load, holds at all points. -/
theorem points_induction {P : Point → Prop} (start : P ⟨behind, is, s⟩)
    (fold : ∀ behind' i j rest t e, P ⟨behind', i :: j :: rest, t⟩ →
      preIncrement? t.stack i (j :: rest) = some e → P ⟨behind' ++ [i, j], rest, after (push e) t⟩)
    (step : ∀ behind' i rest t, ⟨behind', i :: rest, t⟩ ∈ points ctx behind is s →
      P ⟨behind', i :: rest, t⟩ → preIncrement? t.stack i rest = none →
      P ⟨behind' ++ [i], rest, next ctx i t⟩) :
    ∀ p ∈ points ctx behind is s, P p := by
  -- the points of the rest of the run are points of the whole run
  suffices key : ∀ behind' is' t, (∀ p ∈ points ctx behind' is' t, p ∈ points ctx behind is s) →
      P ⟨behind', is', t⟩ → ∀ p ∈ points ctx behind' is' t, P p from
    key behind is s (fun _ h => h) start
  intro behind' is' t hsub hstart
  induction behind', is', t using points.induct ctx with
  | case1 behind' t =>
    intro p hp
    obtain rfl := List.mem_singleton.1 hp
    exact hstart
  | case2 behind' i t =>
    have hlast := step behind' i [] t (hsub _ start_mem_points) hstart (preIncrement?_nil _ _)
    intro p hp
    rcases List.mem_pair.1 hp with rfl | rfl
    · exact hstart
    · exact hlast
  | case3 behind' i j rest t ihfold ihstep =>
    have hmem := hsub _ start_mem_points
    intro p hp
    cases hpre : preIncrement? t.stack i (j :: rest) with
    | some e =>
      simp only [points, hpre] at hsub hp
      rcases List.mem_cons.1 hp with rfl | hp
      · exact hstart
      · exact ihfold e (fun q hq => hsub q (List.mem_cons_of_mem _ hq))
          (fold _ _ _ _ _ _ hstart hpre) p hp
    | none =>
      simp only [points, hpre] at hsub hp
      rcases List.mem_cons.1 hp with rfl | hp
      · exact hstart
      · exact ihstep (fun q hq => hsub q (List.mem_cons_of_mem _ hq))
          (step _ _ _ _ hmem hstart hpre) p hp

/-- Behind a point comes the state behind its next instruction, if this is run on its own. -/
theorem next_mem_points {b : List PlacedInstruction} {i : PlacedInstruction}
    {rest : List PlacedInstruction} {t : SimState} (h : ⟨b, i :: rest, t⟩ ∈ points ctx behind is s)
    (hpre : preIncrement? t.stack i rest = none) :
    ⟨b ++ [i], rest, next ctx i t⟩ ∈ points ctx behind is s := by
  -- along the points: the one in question is the first, or one of the rest
  induction behind, is, s using points.induct ctx with
  | case1 behind s => simp [points] at h
  | case2 behind k s =>
    simp only [points, List.mem_cons, Point.mk.injEq, List.not_mem_nil, or_false] at h
    rcases h with ⟨rfl, hk, rfl⟩ | ⟨-, hnil, -⟩
    · obtain ⟨rfl, rfl⟩ := List.cons.inj hk
      simp [points]
    · cases hnil
  | case3 behind k j rest' s ihfold ihstep =>
    cases hk : preIncrement? s.stack k (j :: rest') with
    | some e =>
      simp only [points, hk, List.mem_cons, Point.mk.injEq] at h ⊢
      rcases h with ⟨rfl, heq, rfl⟩ | h
      · obtain ⟨rfl, rfl⟩ := List.cons.inj heq
        rw [hk] at hpre
        cases hpre
      · exact .inr (ihfold e h)
    | none =>
      simp only [points, hk, List.mem_cons, Point.mk.injEq] at h ⊢
      rcases h with ⟨rfl, heq, rfl⟩ | h
      · obtain ⟨rfl, rfl⟩ := List.cons.inj heq
        exact .inr start_mem_points
      · exact .inr (ihstep h)

/-- The last point is the end of the run. -/
theorem end_mem_points : ⟨behind ++ is, [], after (run ctx is) s⟩ ∈ points ctx behind is s := by
  induction behind, is, s using points.induct ctx with
  | case1 behind s => simp [points, run]
  | case2 behind i s => exact List.mem_cons_of_mem _ (List.mem_singleton.2 rfl)
  | case3 behind i j rest s ihfold ihstep =>
    cases hpre : preIncrement? s.stack i (j :: rest) with
    | some e =>
      simp only [points, hpre]
      rw [run_cons_of_preIncrement? hpre]
      exact List.mem_cons_of_mem _ (by simpa using ihfold e)
    | none =>
      have hrun : after (run ctx (i :: j :: rest)) s = after (run ctx (j :: rest)) (next ctx i s) :=
        run_cons_of_preIncrement?_eq_none hpre
      simp only [points, hpre]
      rw [hrun]
      exact List.mem_cons_of_mem _ (by simpa using ihstep)

/-- The instructions behind a point and those ahead of it are those of the run. -/
theorem behind_append_ahead {p : Point} (h : p ∈ points ctx behind is s) :
    p.behind ++ p.ahead = behind ++ is :=
  points_induction (P := fun p => p.behind ++ p.ahead = behind ++ is) rfl
    (fun _ _ _ _ _ _ h _ => by simpa using h) (fun _ _ _ _ _ h _ => by simpa using h) p h

end Points

/-! ## The parts of a run -/

section Parts

variable {ctx : SimContext} {i : PlacedInstruction} {s : SimState} {line : SourceLine}

/-- Checking the depth leaves the stack and the marks as they are. -/
theorem stack_checkDepth (maxStack : UInt16) (s : SimState) :
    (after (checkDepth maxStack) s).stack = s.stack ∧
      (after (checkDepth maxStack) s).nextMark = s.nextMark := by
  show (after (if _ then _ else _) s).stack = _ ∧ (after (if _ then _ else _) s).nextMark = _
  split <;> exact ⟨rfl, rfl⟩

/-- The stack behind an instruction is that behind its simulation. -/
@[simp] theorem stack_next : (next ctx i s).stack = (after (step ctx i) s).stack :=
  (stack_checkDepth _ _).1

/-- So is the next mark. -/
@[simp] theorem nextMark_next : (next ctx i s).nextMark = (after (step ctx i) s).nextMark :=
  (stack_checkDepth _ _).2

/-- So are the statements. -/
@[simp] theorem statements_next : (next ctx i s).statements = (after (step ctx i) s).statements :=
  (after_checkDepth _ _).1

/-- Arguments are taken from the top of the stack, the last one first. -/
theorem run_popArgs (line : SourceLine) (args rest : List StackValue) (h : s.stack = args ++ rest) :
    StateT.run (popArgs line args.length) s =
      ((args.map (·.expr)).reverse, { s with stack := rest }) := by
  induction args generalizing s with
  | nil =>
    obtain rfl : s.stack = rest := h
    rfl
  | cons v args ih =>
    obtain ⟨stack, statements, condition, switchKey, diagnostics, nextMark, reported⟩ := s
    obtain rfl : stack = v :: (args ++ rest) := h
    have hrest := ih
      (s := ⟨args ++ rest, statements, condition, switchKey, diagnostics, nextMark, reported⟩) rfl
    simp only [List.length_cons, popArgs, StateT.run_bind, List.map_cons, List.reverse_cons]
    exact congrArg (fun r => (r.1 ++ [v.expr], r.2)) hrest

/-- The topmost value with a mark gives way to the expression. -/
theorem replaceIn_eq_some_iff {mark : Nat} {e : Expr} {vs vs' : List StackValue} :
    replaceIn mark e vs = some vs' ↔ ∃ above copy below, vs = above ++ copy :: below ∧
      (∀ v ∈ above, v.mark ≠ some mark) ∧ copy.mark = some mark ∧
        vs' = above ++ ⟨e, none⟩ :: below := by
  constructor
  · intro h
    induction vs generalizing vs' with
    | nil => cases h
    | cons v vs ih =>
      unfold replaceIn at h
      split at h
      · rename_i hv
        obtain rfl := Option.some.inj h
        exact ⟨[], v, vs, rfl, by simp, hv, rfl⟩
      · rename_i hv
        obtain ⟨rest, hrest, rfl⟩ := Option.map_eq_some_iff.1 h
        obtain ⟨above, copy, below, rfl, habove, hcopy, rfl⟩ := ih hrest
        exact ⟨v :: above, copy, below, rfl, by simpa using ⟨hv, habove⟩, hcopy, rfl⟩
  · rintro ⟨above, copy, below, rfl, habove, hcopy, rfl⟩
    induction above with
    | nil => simp [replaceIn, hcopy]
    | cons v above ih =>
      have hrest := ih fun u hu => habove u (List.mem_cons_of_mem _ hu)
      simp [replaceIn, habove v List.mem_cons_self, hrest]

/-- Nothing is replaced if no value has the mark. -/
theorem replaceIn_eq_none_iff {mark : Nat} {e : Expr} {vs : List StackValue} :
    replaceIn mark e vs = none ↔ ∀ v ∈ vs, v.mark ≠ some mark := by
  induction vs with
  | nil => simp [replaceIn]
  | cons v vs ih =>
    unfold replaceIn
    split <;> simp_all

/-- Whether a value and another one are copies of one value. -/
def areCopies (u v : StackValue) : Bool := u.mark.isSome && u.mark = v.mark

/-- Copies of one value have the same mark. -/
theorem areCopies_iff {u v : StackValue} :
    areCopies u v = true ↔ ∃ mark, u.mark = some mark ∧ v.mark = some mark := by
  cases hu : u.mark with
  | none => simp [areCopies, hu]
  | some mark => simp [areCopies, hu, eq_comm]

/-- Being copies is mutual. -/
theorem areCopies_comm (u v : StackValue) : areCopies u v = areCopies v u := by
  rw [Bool.eq_iff_iff, areCopies_iff, areCopies_iff]
  exact exists_congr fun _ => and_comm

/-- Copies of a copy are copies. -/
theorem areCopies_trans {u v w : StackValue} (h : areCopies u v = true) (h' : areCopies v w = true) :
    areCopies u w = true := by
  obtain ⟨m, hu, hv⟩ := areCopies_iff.1 h
  obtain ⟨m', hv', hw⟩ := areCopies_iff.1 h'
  exact areCopies_iff.2 ⟨m, hu, hw.trans (hv'.symm.trans hv)⟩

/-- What storing a value may do: take the place of the topmost copy of the value, or become a statement
where there is none. -/
inductive Stored (value : StackValue) (e : Expr) (stmt : SimpleStmt) (s : SimState) : SimState → Prop
  | copy {above below : List StackValue} {copy : StackValue} (hstack : s.stack = above ++ copy :: below)
      (habove : ∀ v ∈ above, areCopies value v = false) (hcopy : areCopies value copy = true) :
      Stored value e stmt s { s with stack := above ++ ⟨e, none⟩ :: below }
  | statement (hnone : ∀ v ∈ s.stack, areCopies value v = false) :
      Stored value e stmt s { s with statements := s.statements ++ [stmt] }

/-- An expression takes the place of a copy, or becomes a statement. -/
theorem stored_replaceCopy (value : StackValue) (e : Expr) (stmt : SimpleStmt) (s : SimState) :
    Stored value e stmt s (after (do if !(← replaceCopy value.mark e) then emit stmt) s) := by
  simp only [after, replaceCopy, StateT.run_bind, StateT.run_get, pure_bind]
  cases hmark : value.mark with
  | none => exact .statement fun v _ => by simp [areCopies, hmark]
  | some mark =>
    dsimp only [Option.bind_some]
    cases hr : replaceIn mark e s.stack with
    | none =>
      refine .statement fun v hv => ?_
      simpa [areCopies, hmark] using (replaceIn_eq_none_iff.1 hr v hv).symm
    | some stack =>
      obtain ⟨above, copy, below, hstack, habove, hcopy, rfl⟩ := replaceIn_eq_some_iff.1 hr
      refine .copy hstack (fun v hv => ?_) ?_
      · simpa [areCopies, hmark] using (habove v hv).symm
      · simp [areCopies, hmark, hcopy]

/-- An assignment takes the place of a copy or becomes a statement. -/
theorem stored_assign (line : SourceLine) (target : Expr) (value : StackValue) (s : SimState) :
    Stored value (.assign line target value.expr) (.expr line (.assign line target value.expr)) s
      (after (assign line target value) s) :=
  stored_replaceCopy _ _ _ s

end Parts

end Sim

/-- The result of a block is read off the state at the end of its run. -/
theorem Block.simulate_eq (ctx : SimContext) (b : Block) (entryStack : List Expr) :
    b.simulate ctx entryStack =
      let final := Sim.after (Sim.run ctx b.instructions) (Sim.start entryStack)
      { statements := final.statements, exitStack := (final.stack.map (·.expr)).reverse,
        condition := final.condition, switchKey := final.switchKey, diagnostics := final.diagnostics } :=
  rfl

end JvmDecompiler
