import JvmDecompiler.Proofs.BlockEffects
import JvmDecompiler.Proofs.Execution
import JvmDecompiler.Proofs.Progress
import JvmDecompiler.Proofs.Steps

/-!
# Executing a flow graph

An execution of a flow graph goes from block to block. It shows the statements that the blocks come to
and the conditions and keys on which control branches, and takes the values of these from the same
sequence as an execution of statements does.

`Tracks` compares the two: what an execution of statements shows is what some number of steps through
the graph show, and where it ends the graph is at a block to which this end leads. An unfinished
execution has to show what a given number of steps show, or more, so that an execution that is never
finished still shows all that the graph does.
-/

namespace JvmDecompiler

/-! ## The execution of a graph -/

/-- Where an execution of a graph is: in front of a block, with the values that are left, or nowhere any
more. -/
abbrev GraphPosition := Option (BlockId × Values)

/-- What is seen of the statements of a block that is run on an empty stack. -/
def Block.runs (ctx : SimContext) (b : Block) : List Event := (b.simulate ctx []).statements.map .run

/-- Execute a block on an empty stack: what is seen, and where the execution is then. Subroutines have
no meaning here. -/
def Block.execute (ctx : SimContext) (b : Block) (vs : Values) : List Event × GraphPosition :=
  let sim := b.simulate ctx []
  match b.terminator with
  | .fallThrough target | .goto target => (b.runs ctx, some (target, vs))
  | .branch _ ifTrue ifFalse =>
    let t := (sim.condition.getD (Structurer.absent "condition")).test vs
    (b.runs ctx ++ t.seen, some (if t.holds then ifTrue else ifFalse, t.rest))
  | .switch default cases =>
    (b.runs ctx ++ [.key (sim.switchKey.getD (Structurer.absent "switch key"))],
      some ((cases.lookup vs.head).getD default, vs.tail))
  | .return | .throw => (b.runs ctx ++ [.over], none)
  | .jsr .. | .ret => (b.runs ctx, none)

namespace FlowGraph

/-- Execute one block of a graph. An execution that leaves the graph is over. -/
def advance (g : FlowGraph) (ctx : SimContext) : GraphPosition → List Event × GraphPosition
  | none => ([], none)
  | some (id, vs) =>
    match g.block? id with
    | none => ([.over], none)
    | some b => b.execute ctx vs

/-- Executing the statements shows what executing the graph shows, for all values of the conditions and
keys: the same events in the same places, the end included. -/
def SameExecutions (g : FlowGraph) (ctx : SimContext) (body : List Stmt) : Prop :=
  ∀ (vs : Values) (i : Nat) (e : Event), (∃ fuel, (Stmt.execAll fuel body vs).trace[i]? = some e) ↔
    ∃ n, (runSteps (g.advance ctx) n (some (g.entry, vs))).1[i]? = some e

end FlowGraph

theorem runSteps_trans {σ ε : Type} {step : σ → List ε × σ} {m n : Nat} {s t u : σ} {a b : List ε}
    (h₁ : runSteps step m s = (a, t)) (h₂ : runSteps step n t = (b, u)) :
    runSteps step (m + n) s = (a ++ b, u) := by rw [runSteps_add, h₁, h₂]

namespace Structurer

variable (st : Structurer)

/-- Execute one block of the graph that is structured. -/
def advance : GraphPosition → List Event × GraphPosition := st.graph.advance st.ctx

/-- Some steps through the graph show `seen`. -/
def Passes (n : Nat) (s : GraphPosition) (seen : List Event) (t : GraphPosition) : Prop :=
  runSteps st.advance n s = (seen, t)

/-! ## Executions that track the graph -/

/-- An execution of statements shows what the graph shows from a position on. Where it ends, the graph
has come to a block to which this end leads, in at least `low` steps; where it is unfinished, it shows
what at least `least` steps show. -/
inductive Tracks (leads : Exit → BlockId → Prop) (low least : Nat) (s : GraphPosition) :
    Execution → Prop
  | leaves {n : Nat} {seen : List Event} {e : Exit} {t : BlockId} {vs : Values} (hn : low ≤ n)
      (hrun : st.Passes n s seen (some (t, vs))) (ht : t ∈ st.graph.ids) (he : leads e t) :
      Tracks leads low least s ⟨seen, .leaves e vs⟩
  | «over» {n : Nat} {seen : List Event} (hrun : st.Passes n s (seen ++ [.over]) none) :
      Tracks leads low least s ⟨seen, .over⟩
  | unfinished {n : Nat} {seen : List Event} {t : GraphPosition} (hn : least ≤ n)
      (hrun : st.Passes n s seen t) : Tracks leads low least s ⟨seen, .unfinished⟩

variable {st : Structurer} {leads leads' : Exit → BlockId → Prop} {low low' least least' n : Nat}
  {s s' : GraphPosition} {seen : List Event} {x : Execution}

namespace Tracks

theorem mono (h : st.Tracks leads low least s x) (hleads : ∀ e t, leads e t → leads' e t) :
    st.Tracks leads' low least s x := by
  cases h with
  | leaves hn hrun ht he => exact .leaves hn hrun ht (hleads _ _ he)
  | «over» hrun => exact .over hrun
  | unfinished hn hrun => exact .unfinished hn hrun

theorem weaken (h : st.Tracks leads low least s x) (hlow : low' ≤ low) (hleast : least' ≤ least) :
    st.Tracks leads low' least' s x := by
  cases h with
  | leaves hn hrun ht he => exact .leaves (Nat.le_trans hlow hn) hrun ht he
  | «over» hrun => exact .over hrun
  | unfinished hn hrun => exact .unfinished (Nat.le_trans hleast hn) hrun

/-- Nothing is done, and control is where it should be. -/
theorem done {t : BlockId} {vs : Values} (ht : t ∈ st.graph.ids) (he : leads .behind t) :
    st.Tracks leads 0 least (some (t, vs)) (Execution.done vs) :=
  .leaves (Nat.le_refl 0) rfl ht he

/-- Some steps come first. -/
theorem after (h : st.Tracks leads low least s' x) (hrun : st.Passes n s seen s') :
    st.Tracks leads (n + low) (n + least) s (x.after seen) := by
  cases h with
  | leaves hn hrun' ht he => exact .leaves (Nat.add_le_add_left hn n) (runSteps_trans hrun hrun') ht he
  | «over» hrun' =>
    have hboth := runSteps_trans hrun hrun'
    rw [← List.append_assoc] at hboth
    exact .over hboth
  | unfinished hn hrun' => exact .unfinished (Nat.add_le_add_left hn n) (runSteps_trans hrun hrun')

/-- Two parts one after the other. Control goes on with the second part where it comes behind the
first. -/
theorem andThen {f : Values → Execution} (h : st.Tracks leads low least s x)
    (hf : ∀ t vs, t ∈ st.graph.ids → leads .behind t → st.Tracks leads' 0 least (some (t, vs)) (f vs))
    (hleads : ∀ e t, e ≠ .behind → leads e t → leads' e t) :
    st.Tracks leads' low least s (x.andThen f) := by
  cases h with
  | @leaves n seen e t vs hn hrun ht he =>
    by_cases hb : e = .behind
    · subst hb
      exact ((hf t vs ht he).after hrun).weaken hn (Nat.le_add_left least n)
    · have hx : (⟨seen, .leaves e vs⟩ : Execution).andThen f = ⟨seen, .leaves e vs⟩ := by
        cases e <;> first | rfl | exact absurd rfl hb
      rw [hx]
      exact .leaves hn hrun ht (hleads e t hb he)
  | «over» hrun => exact .over hrun
  | unfinished hn hrun => exact .unfinished hn hrun

/-- Some jumps lead behind a statement. -/
theorem catching {p : Exit → Bool} (h : st.Tracks leads low least s x)
    (hcaught : ∀ e t, p e = true → leads e t → leads' .behind t)
    (hleads : ∀ e t, p e = false → leads e t → leads' e t) :
    st.Tracks leads' low least s (x.catching p) := by
  cases h with
  | @leaves n seen e t vs hn hrun ht he =>
    unfold Execution.catching
    cases hp : p e with
    | true =>
      simp only [hp, if_true]
      exact .leaves hn hrun ht (hcaught e t hp he)
    | false =>
      simp only [hp, Bool.false_eq_true, if_false]
      exact .leaves hn hrun ht (hleads e t hp he)
  | «over» hrun => exact .over hrun
  | unfinished hn hrun => exact .unfinished hn hrun

/-- Going through a loop, if every round comes back to where it starts and takes a step. -/
theorem iterate {round : Values → Execution} {header : BlockId}
    (hround : ∀ vs, st.Tracks leads 1 least (some (header, vs)) (round vs))
    (hback : ∀ t, leads .behind t → t = header) {k : Nat} (hk : k ≤ least) (vs : Values) :
    st.Tracks (fun e t => e ≠ .behind ∧ leads e t) 1 k (some (header, vs))
      (Execution.iterate round k vs) := by
  induction k generalizing vs with
  | zero => exact .unfinished (Nat.le_refl 0) rfl
  | succ k ih =>
    unfold Execution.iterate
    generalize hx : round vs = x
    cases hx ▸ hround vs with
    | @leaves n seen e t rest hn hrun ht he =>
      by_cases hb : e = .behind
      · subst hb
        obtain rfl := hback t he
        -- the round takes a step, so one step less is left for the others
        exact ((ih (Nat.le_of_succ_le hk) rest).after hrun).weaken (by omega) (by omega)
      · have hx : (⟨seen, .leaves e rest⟩ : Execution).andThen (Execution.iterate round k) =
            ⟨seen, .leaves e rest⟩ := by
          cases e <;> first | rfl | exact absurd rfl hb
        rw [hx]
        exact .leaves hn hrun ht ⟨hb, he⟩
    | «over» hrun => exact .over hrun
    | unfinished hn hrun => exact .unfinished (Nat.le_trans hk hn) hrun

/-- A loop whose rounds come back to where they start, left by `break`. -/
theorem loop {round : Values → Execution} {header : BlockId} {fuel : Nat}
    (hround : ∀ vs, st.Tracks leads 1 fuel (some (header, vs)) (round vs))
    (hback : ∀ t, leads .behind t → t = header)
    (hbreak : ∀ t, leads (.breakTo none) t → leads' .behind t)
    (hleads : ∀ e t, e ≠ .behind → e ≠ .breakTo none → leads e t → leads' e t) (vs : Values) :
    st.Tracks leads' 1 fuel (some (header, vs)) (Execution.loop fuel round vs) := by
  refine (iterate hround hback (Nat.le_refl fuel) vs).catching (fun e t he hl => ?_) fun e t he hl => ?_
  · obtain rfl : e = .breakTo none := by simpa [Exit.isBreak] using he
    exact hbreak t hl.2
  · exact hleads e t hl.1 (by simpa [Exit.isBreak] using he) hl.2

end Tracks

/-! ## Steps through a block -/

variable {id : BlockId} {b : Block} {vs : Values}

theorem passes_one (hb : st.graph.block? id = some b) (vs : Values) :
    st.Passes 1 (some (id, vs)) (b.execute st.ctx vs).1 (b.execute st.ctx vs).2 := by
  show runSteps st.advance 1 _ = _
  rw [runSteps_one, advance, FlowGraph.advance, hb]

theorem passes_goesOn {target : BlockId} (hb : st.graph.block? id = some b)
    (hterm : b.terminator = .fallThrough target ∨ b.terminator = .goto target) (vs : Values) :
    st.Passes 1 (some (id, vs)) (b.runs st.ctx) (some (target, vs)) := by
  have hrun := passes_one hb vs
  rcases hterm with hterm | hterm <;> simpa only [Block.execute, hterm] using hrun

theorem passes_over (hb : st.graph.block? id = some b)
    (hterm : b.terminator = .return ∨ b.terminator = .throw) (vs : Values) :
    st.Passes 1 (some (id, vs)) (b.runs st.ctx ++ [.over]) none := by
  have hrun := passes_one hb vs
  rcases hterm with hterm | hterm <;> simpa only [Block.execute, hterm] using hrun

theorem passes_switch {default : BlockId} {cases : List (Int32 × BlockId)}
    (hb : st.graph.block? id = some b) (hterm : b.terminator = .switch default cases) (vs : Values) :
    st.Passes 1 (some (id, vs))
      (b.runs st.ctx ++ [.key ((b.simulate st.ctx []).switchKey.getD (absent "switch key"))])
      (some ((cases.lookup vs.head).getD default, vs.tail)) := by
  have hrun := passes_one hb vs
  simpa only [Block.execute, hterm] using hrun

/-- A block that decides between two blocks by its condition, or by the opposite of that. -/
theorem passes_decides {condition c : Expr} {ifHolds ifNot : BlockId}
    (hb : st.graph.block? id = some b) (hcondition : (b.simulate st.ctx []).condition = some condition)
    (hc : Decides b condition c ifHolds ifNot) (vs : Values) :
    st.Passes 1 (some (id, vs)) (b.runs st.ctx ++ (c.test vs).seen)
      (some (if (c.test vs).holds then ifHolds else ifNot, (c.test vs).rest)) := by
  have hrun := passes_one hb vs
  obtain ⟨k, ⟨hterm, rfl⟩ | ⟨hterm, rfl⟩⟩ := hc
  · simpa only [Block.execute, hterm, hcondition, Option.getD_some] using hrun
  · simp only [Block.execute, hterm, hcondition, Option.getD_some] at hrun
    cases hholds : (condition.test vs).holds <;> simpa [hholds] using hrun

/-- Where a block leads is one of its ways out. -/
theorem mem_successors_of_execute {t : BlockId} {rest : Values}
    (h : (b.execute st.ctx vs).2 = some (t, rest)) : t ∈ b.terminator.successors := by
  unfold Block.execute at h
  cases hterm : b.terminator with
  | fallThrough target | goto target =>
    simp only [hterm, Option.some.injEq, Prod.mk.injEq] at h
    simp [Terminator.successors, h.1]
  | branch k ifTrue ifFalse =>
    simp only [hterm, Option.some.injEq, Prod.mk.injEq] at h
    rw [Terminator.successors, List.mem_eraseDups, ← h.1]
    split <;> simp
  | switch default cases =>
    simp only [hterm, Option.some.injEq, Prod.mk.injEq] at h
    rw [Terminator.successors, List.mem_eraseDups, ← h.1]
    cases hlookup : cases.lookup vs.head with
    | none => simp
    | some target =>
      obtain ⟨front, back, rfl, -⟩ := List.lookup_eq_some_iff.1 hlookup
      simp
  | «return» | throw | jsr | ret => simp [hterm] at h

/-- Where all ways out of blocks lead to blocks, so do all executions. -/
theorem mem_ids_of_passes (hedges : ∀ b s, s ∈ st.graph.successors b → s ∈ st.graph.ids) {n : Nat}
    {t : BlockId} {rest : Values} (hid : id ∈ st.graph.ids)
    (h : st.Passes n (some (id, vs)) seen (some (t, rest))) : t ∈ st.graph.ids := by
  induction n generalizing id vs seen with
  | zero =>
    obtain ⟨-, hsame⟩ := Prod.mk.inj h
    cases hsame
    exact hid
  | succ n ih =>
    obtain ⟨b, hb⟩ := FlowGraph.mem_ids_iff.1 hid
    have hstep : st.advance (some (id, vs)) = b.execute st.ctx vs := by
      rw [advance, FlowGraph.advance, hb]
    obtain ⟨-, hrest⟩ := Prod.mk.inj h
    rw [hstep] at hrest
    cases hnext : (b.execute st.ctx vs).2 with
    | none =>
      have hrests : st.advance none = ([], none) := rfl
      have hend := runSteps_of_rest hrests n
      rw [hnext, hend] at hrest
      cases hrest
    | some next =>
      obtain ⟨u, us⟩ := next
      have hu : u ∈ st.graph.ids := by
        refine hedges id u ?_
        rw [FlowGraph.successors, hb]
        exact mem_successors_of_execute hnext
      rw [hnext] at hrest
      exact ih hu (Prod.ext rfl hrest)

/-! ## Whole executions -/

/-- Statements that track the graph from its entry on, and are left by no jump, show the same. -/
theorem sameExecutions_of_tracks {body : List Stmt}
    (h : ∀ fuel vs, st.Tracks (fun _ _ => False) 0 fuel (some (st.graph.entry, vs))
      (Stmt.execAll fuel body vs)) : st.graph.SameExecutions st.ctx body := by
  intro vs i e
  constructor
  · rintro ⟨fuel, he⟩
    generalize hx : Stmt.execAll fuel body vs = x at he
    cases hx ▸ h fuel vs with
    | leaves _ _ _ hfalse => exact hfalse.elim
    | «over» hrun => exact ⟨_, (congrArg (·.1[i]?) hrun).trans he⟩
    | unfinished _ hrun => exact ⟨_, (congrArg (·.1[i]?) hrun).trans he⟩
  -- with as much fuel as steps, the tree shows all that the graph has shown
  · rintro ⟨n, he⟩
    refine ⟨n, ?_⟩
    generalize hx : Stmt.execAll n body vs = x
    cases hx ▸ h n vs with
    | leaves _ _ _ hfalse => exact hfalse.elim
    | @«over» m seen hrun =>
      have hshows : (runSteps st.advance m (some (st.graph.entry, vs))).1[i]? = some e := by
        rcases Nat.le_total n m with hnm | hmn
        · exact getElem?_runSteps_of_le hnm he
        · -- the graph has come to its end, so more steps show nothing more
          obtain ⟨d, rfl⟩ := Nat.exists_eq_add_of_le hmn
          have hrests : st.advance none = ([], none) := rfl
          have hlonger := runSteps_trans hrun (runSteps_of_rest hrests d)
          have hsame : (runSteps st.advance (m + d) (some (st.graph.entry, vs))).1 =
              (runSteps st.advance m (some (st.graph.entry, vs))).1 := by
            rw [hlonger, show runSteps st.advance m _ = _ from hrun, List.append_nil]
          exact hsame ▸ he
      exact (congrArg (·.1[i]?) hrun).symm.trans hshows
    -- the tree has used up its fuel, and the graph has made at least as many steps
    | @unfinished m seen t hm hrun =>
      exact (congrArg (·.1[i]?) hrun).symm.trans (getElem?_runSteps_of_le hm he)

end Structurer

end JvmDecompiler
