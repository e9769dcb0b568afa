import JvmDecompiler.FlowGraph.Jumps
import JvmDecompiler.Proofs.GraphShape
import JvmDecompiler.Proofs.Steps
import Mathlib.Data.Stream.Init

/-!
# Walks through a flow graph

A walk starts at the entry of a graph and goes from block to block without exceptions. Where a block
has several ways on, an infinite sequence of decisions says which one is taken. What can be seen of a
walk are the instructions that it goes through and its end; jumps and the addresses that instructions
branch to are not seen.

## Comparing walks

Walks do not go in lockstep when blocks are merged or passed by. `Condenses` relates a graph to one in
which every step does what one or more steps do in the first graph, one after the other. Steps are
functions, so this is enough for both directions: the walk with the longer steps shows nothing else,
and the other walk is never ahead of it by more than a part of a step.
-/

namespace JvmDecompiler

/-- An infinite sequence of decisions, each the number of the way on that is taken. -/
abbrev Decisions := Stream' Nat

/-- What can be seen of a walk. -/
inductive WalkEvent where
  /-- The walk goes through an instruction. -/
  | run (i : Instruction)
  /-- The walk is over. -/
  | over

/-- What can be seen of an instruction: what it does, but not where it branches to. A jump does nothing
else. -/
def Instruction.seen : Instruction → Option Instruction
  | .goto _ => none
  | i => some (i.mapTargets fun _ => 0)

/-- What can be seen of the instructions of a block. -/
def Block.seen (b : Block) : List WalkEvent :=
  b.instructions.filterMap fun i => i.operation.seen.map .run

/-- Where control goes at the end of a block, and the decisions that are left. The ways on from a
branch are its target and the next block; from a switch its cases in their order and then the default;
from a subroutine call the subroutine and the return address. -/
def Terminator.next : Terminator → Decisions → Option (BlockId × Decisions)
  | .fallThrough target, ds | .goto target, ds => some (target, ds)
  | .branch _ ifTrue ifFalse, ds => some (if ds.head = 0 then ifTrue else ifFalse, ds.tail)
  | .switch default cases, ds => some ((cases.map (·.2))[ds.head]?.getD default, ds.tail)
  | .jsr target returnTo, ds => some (if ds.head = 0 then target else returnTo, ds.tail)
  | .return, _ | .throw, _ | .ret, _ => none

/-- Where a walk is: in front of a block, with the decisions that are left, or nowhere any more. -/
abbrev Walker := Option (BlockId × Decisions)

namespace FlowGraph

/-- Go through one block: what is seen, and where the walk is then. A walk that leaves the graph is
over. -/
def step (g : FlowGraph) : Walker → List WalkEvent × Walker
  | none => ([], none)
  | some (id, ds) =>
    match g.block? id with
    | none => ([.over], none)
    | some b =>
      match b.terminator.next ds with
      | some w => (b.seen, some w)
      | none => (b.seen ++ [.over], none)

/-- The event at position `k` of the walk that takes the given decisions is `e`. -/
def Shows (g : FlowGraph) (ds : Decisions) (k : Nat) (e : WalkEvent) : Prop :=
  ∃ n, (runSteps g.step n (some (g.entry, ds))).1[k]? = some e

variable {g h : FlowGraph}

/-- Both graphs show the same walk for every sequence of decisions. -/
def SameWalks (g h : FlowGraph) : Prop := ∀ ds k e, g.Shows ds k e ↔ h.Shows ds k e

theorem SameWalks.refl (g : FlowGraph) : SameWalks g g := fun _ _ _ => Iff.rfl

theorem SameWalks.trans {k : FlowGraph} (h₁ : SameWalks g h) (h₂ : SameWalks h k) : SameWalks g k :=
  fun ds i e => (h₁ ds i e).trans (h₂ ds i e)

/-! ## Longer steps -/

/-- A block that is in the second graph if it is in the first. -/
def Kept (g h : FlowGraph) (id : BlockId) : Prop := id ∈ g.ids → id ∈ h.ids

/-- A walker in front of a block that is kept. -/
def Walker.Kept (g h : FlowGraph) : Walker → Prop
  | none => True
  | some (id, _) => FlowGraph.Kept g h id

/-- Every step through the second graph from a block that is kept is one or more steps through the
first, and leads to a block that is kept. -/
structure Condenses (g h : FlowGraph) : Prop where
  entry : h.entry = g.entry
  kept_entry : Kept g h g.entry
  step : ∀ w, Walker.Kept g h w → (∃ n, runSteps g.step (n + 1) w = h.step w) ∧ Walker.Kept g h (h.step w).2

/-- Any number of steps through the second graph are at least as many steps through the first. -/
theorem Condenses.run (c : Condenses g h) (n : Nat) {w : Walker} (hw : Walker.Kept g h w) :
    ∃ m, n ≤ m ∧ runSteps g.step m w = runSteps h.step n w := by
  induction n generalizing w with
  | zero => exact ⟨0, Nat.le_refl _, rfl⟩
  | succ n ih =>
    obtain ⟨⟨k, hk⟩, hkept⟩ := c.step w hw
    obtain ⟨m, hm, hrun⟩ := ih hkept
    refine ⟨k + 1 + m, by omega, ?_⟩
    rw [runSteps_add, hk, hrun, runSteps]

theorem Condenses.sameWalks (c : Condenses g h) : SameWalks g h := by
  intro ds k e
  have hkept : Walker.Kept g h (some (g.entry, ds)) := c.kept_entry
  unfold Shows
  rw [c.entry]
  constructor
  · rintro ⟨n, hn⟩
    obtain ⟨m, hm, hrun⟩ := c.run n hkept
    exact ⟨n, hrun ▸ getElem?_runSteps_of_le hm hn⟩
  · rintro ⟨n, hn⟩
    obtain ⟨m, -, hrun⟩ := c.run n hkept
    exact ⟨m, hrun ▸ hn⟩

/-! ## Blocks passed by -/

/-- A walk goes from `a` to `b` without anything to see or to decide. -/
def Passes (g : FlowGraph) (a b : BlockId) : Prop :=
  ∃ n, ∀ ds, runSteps g.step n (some (a, ds)) = ([], some (b, ds))

theorem Passes.refl (a : BlockId) : Passes g a a := ⟨0, fun _ => rfl⟩

theorem Passes.trans {a b c : BlockId} (h₁ : Passes g a b) (h₂ : Passes g b c) : Passes g a c := by
  obtain ⟨m, hm⟩ := h₁
  obtain ⟨n, hn⟩ := h₂
  exact ⟨m + n, fun ds => by rw [runSteps_add, hm, hn, List.append_nil]⟩

/-- A walk passes a block in which nothing is seen. -/
theorem passes_of_seen_eq_nil {a t : BlockId} {b : Block} (hb : g.block? a = some b)
    (hs : b.seen = []) (ht : b.terminator = .goto t ∨ b.terminator = .fallThrough t) :
    Passes g a t := by
  refine ⟨1, fun ds => ?_⟩
  have hn : b.terminator.next ds = some (t, ds) := by rcases ht with h | h <;> simp [h, Terminator.next]
  rw [runSteps_one]
  simp only [step, hb, hn, hs]

/-- A block of the second graph that shows what its counterpart shows and goes on where that goes on,
or to a block that a walk comes to from there without anything to see. -/
def Follows (g h : FlowGraph) (b c : Block) : Prop :=
  c.seen = b.seen ∧ ∀ ds,
    match b.terminator.next ds, c.terminator.next ds with
    | some (t, ds₁), some (u, ds₂) => ds₁ = ds₂ ∧ Passes g t u ∧ Kept g h u
    | none, none => True
    | _, _ => False

theorem Follows.step {b c : Block} {id : BlockId} (f : Follows g h b c) (hb : g.block? id = some b)
    (hc : h.block? id = some c) (ds : Decisions) :
    (∃ n, runSteps g.step (n + 1) (some (id, ds)) = h.step (some (id, ds))) ∧
      Walker.Kept g h (h.step (some (id, ds))).2 := by
  have hnext := f.2 ds
  -- both blocks choose their ways from the same decisions
  cases hbt : b.terminator.next ds with
  | none =>
    cases hct : c.terminator.next ds with
    | none =>
      simp only [FlowGraph.step, hc, hct, f.1]
      exact ⟨⟨0, by rw [runSteps_one]; simp only [FlowGraph.step, hb, hbt]⟩, trivial⟩
    | some w => simp [hbt, hct] at hnext
  | some w =>
    cases hct : c.terminator.next ds with
    | none => simp [hbt, hct] at hnext
    | some w' =>
      obtain ⟨t, ds₁⟩ := w
      obtain ⟨u, ds₂⟩ := w'
      simp only [hbt, hct] at hnext
      obtain ⟨rfl, ⟨n, hn⟩, hkept⟩ := hnext
      simp only [FlowGraph.step, hc, hct, f.1]
      refine ⟨⟨n, ?_⟩, hkept⟩
      rw [Nat.add_comm, runSteps_add, runSteps_one]
      simp only [FlowGraph.step, hb, hbt, hn, List.append_nil]

/-- Graphs whose blocks correspond to each other show the same walks. -/
theorem condenses_of_follows (he : h.entry = g.entry) (hk : Kept g h g.entry)
    (hstep : ∀ id c, h.block? id = some c → ∀ ds,
      (∃ n, runSteps g.step (n + 1) (some (id, ds)) = h.step (some (id, ds))) ∧
        Walker.Kept g h (h.step (some (id, ds))).2) :
    Condenses g h where
  entry := he
  kept_entry := hk
  step w hw := by
    -- a walk that has ended stays there; one that is outside of both graphs ends
    match w with
    | none => exact ⟨⟨0, runSteps_one none⟩, trivial⟩
    | some (id, ds) =>
      cases hc : h.block? id with
      | some c => exact hstep id c hc ds
      | none =>
        have hid : id ∉ g.ids := fun hid => by
          obtain ⟨c, hc'⟩ := mem_ids_iff.1 (hw hid)
          simp [hc] at hc'
        have hg : g.block? id = none := by
          cases hb : g.block? id with
          | none => rfl
          | some b => exact absurd (mem_ids_iff.2 ⟨b, hb⟩) hid
        refine ⟨⟨0, ?_⟩, ?_⟩
        · rw [runSteps_one]
          simp only [FlowGraph.step, hg, hc]
        · simp only [FlowGraph.step, hc, Walker.Kept]

end FlowGraph

end JvmDecompiler
