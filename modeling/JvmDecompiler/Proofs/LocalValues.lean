import JvmDecompiler.FlowGraph
import JvmDecompiler.Proofs.Search
import Mathlib.Logic.Relation

/-!
# Where the value of a local goes

A value that is stored in a slot stays there until an instruction writes the slot. `FlowGraph.Keeps` says how
control goes on meanwhile: to the next instruction, along an edge to another block, or to a handler.
`FlowGraph.ReadsValue` are the instructions that read the value.

`FlowGraph.readers` computes them. Inside a block they are those up to the first one that writes the slot;
which blocks the value is carried on to is found by a search. Nothing is missed and nothing is added
(`FlowGraph.mem_readers_iff`): what is computed for a place does not grow as control goes on from there, and
everything that is found comes with a way to it.
-/

namespace JvmDecompiler

open Relation (ReflTransGen)

namespace Instruction

/-- Whether a value of a type in slot `s` takes the given slot. -/
def takesSlot (type : OperandType) (s slot : UInt16) : Bool :=
  s = slot || (type.isWide && s.toNat + 1 = slot.toNat)

/-- Whether the instruction reads a slot. -/
def reads (slot : UInt16) : Instruction → Bool
  | .load type s => takesSlot type s slot
  | .iinc s _ | .ret s => s = slot
  | _ => false

/-- Whether the instruction writes a slot. -/
def writes (slot : UInt16) : Instruction → Bool
  | .store type s => takesSlot type s slot
  | .iinc s _ => s = slot
  | _ => false

end Instruction

namespace PlacedInstruction

/-- The instructions of a row that control comes to while the value of a slot is kept. -/
def untilWrite (slot : UInt16) : List PlacedInstruction → List PlacedInstruction
  | [] => []
  | i :: rest => i :: if i.operation.writes slot then [] else untilWrite slot rest

/-- The instructions of a row that read the value that a slot has in front of it. -/
def readersOf (slot : UInt16) (row : List PlacedInstruction) : List PlacedInstruction :=
  (untilWrite slot row).filter (·.operation.reads slot)

end PlacedInstruction

open PlacedInstruction (untilWrite readersOf)

/-- A place in the code of a method: a block, and those of its instructions that are still to be run. -/
abbrev Place := BlockId × List PlacedInstruction

namespace FlowGraph

variable {g : FlowGraph} {slot : UInt16} {p q : Place} {id t : BlockId} {i : PlacedInstruction}
  {row : List PlacedInstruction}

/-- The instructions of the block with a name. -/
def instructionsOf (g : FlowGraph) (id : BlockId) : List PlacedInstruction :=
  ((g.block? id).map Block.instructions).getD []

/-- Control goes on from one place to another, and the slot keeps its value. An instruction that throws an
exception has not written the slot yet. -/
inductive Keeps (g : FlowGraph) (slot : UInt16) : Place → Place → Prop
  | next {id : BlockId} {i : PlacedInstruction} {rest : List PlacedInstruction}
    (hi : i.operation.writes slot = false) : Keeps g slot (id, i :: rest) (id, rest)
  | edge {id t : BlockId} (ht : t ∈ g.successors id) (hmem : t ∈ g.ids) :
      Keeps g slot (id, []) (t, g.instructionsOf t)
  | throw {id : BlockId} {i : PlacedInstruction} {rest : List PlacedInstruction} {r : ProtectedRange}
    (hr : r ∈ g.ranges) (hcovers : r.covers i.address = true) (hmem : r.handler ∈ g.ids) :
    Keeps g slot (id, i :: rest) (r.handler, g.instructionsOf r.handler)

/-- An instruction reads the value that the slot has at a place. -/
def ReadsValue (g : FlowGraph) (slot : UInt16) (p : Place) (i : PlacedInstruction) : Prop :=
  ∃ id rest, ReflTransGen (g.Keeps slot) p (id, i :: rest) ∧ i.operation.reads slot = true

/-! ## The search -/

/-- The blocks to which control may go on from a place with the value that the slot has there. -/
def carriedTo (g : FlowGraph) (slot : UInt16) (p : Place) : List BlockId :=
  (if p.2.any (·.operation.writes slot) then [] else g.successors p.1) ++
    (g.ranges.filter fun r => (untilWrite slot p.2).any (r.covers ·.address)).map (·.handler)

/-- The graph of the blocks that pass the value of a slot on. -/
def carryDigraph (g : FlowGraph) (slot : UInt16) : Digraph :=
  ⟨g.ids, fun id => g.carriedTo slot (id, g.instructionsOf id)⟩

/-- The instructions that read the value that the slot has at a place. -/
def readers (g : FlowGraph) (slot : UInt16) (p : Place) : List PlacedInstruction :=
  readersOf slot p.2 ++ (g.carriedTo slot p).flatMap fun t =>
    ((g.carryDigraph slot).reversePostorder t).flatMap fun id => readersOf slot (g.instructionsOf id)

/-- A value is read in the rest of its block, or in a block that it is carried to. -/
theorem mem_readers : i ∈ g.readers slot p ↔ i ∈ readersOf slot p.2 ∨
    ∃ t ∈ g.carriedTo slot p, ∃ id, (g.carryDigraph slot).Reaches t id ∧
      i ∈ readersOf slot (g.instructionsOf id) := by
  simp only [readers, List.mem_append, List.mem_flatMap, Digraph.mem_reversePostorder_iff]

/-- A value is carried to the successors if the block keeps it, and to the handlers of what is run before it
is overwritten. -/
theorem mem_carriedTo : t ∈ g.carriedTo slot p ↔
    ((∀ i ∈ p.2, i.operation.writes slot = false) ∧ t ∈ g.successors p.1) ∨
      ∃ r ∈ g.ranges, (∃ i ∈ untilWrite slot p.2, r.covers i.address = true) ∧ r.handler = t := by
  simp [carriedTo, and_assoc]

/-! ### Everything is found -/

/-- What the search finds from a place it finds from the places in front of it. -/
theorem readers_subset_of_keeps (h : g.Keeps slot p q) : g.readers slot q ⊆ g.readers slot p := by
  intro i hi
  rw [mem_readers] at hi ⊢
  -- behind an edge or an exception there is a block that the search comes to
  have block : ∀ t ∈ g.ids, t ∈ g.carriedTo slot p → q = (t, g.instructionsOf t) →
      ∃ t ∈ g.carriedTo slot p, ∃ id, (g.carryDigraph slot).Reaches t id ∧
        i ∈ readersOf slot (g.instructionsOf id) := by
    rintro t hmem ht rfl
    rcases hi with hi | ⟨u, hu, id, hreach, hi⟩
    · exact ⟨t, ht, t, .refl hmem, hi⟩
    · obtain ⟨path, hpath⟩ := hreach
      exact ⟨t, ht, id, ⟨t :: path, .cons hmem hu hpath⟩, hi⟩
  cases h with
  | @next id j rest hj =>
    refine hi.imp (fun hi => ?_) fun ⟨t, ht, hfound⟩ => ⟨t, ?_, hfound⟩
    · simp only [readersOf, List.mem_filter] at hi ⊢
      exact ⟨by simp [untilWrite, hj, hi.1], hi.2⟩
    · rw [mem_carriedTo] at ht ⊢
      refine ht.imp (fun ⟨hkept, ht⟩ => ⟨List.forall_mem_cons.2 ⟨hj, hkept⟩, ht⟩) ?_
      rintro ⟨r, hr, ⟨c, hc, hcovers⟩, rfl⟩
      exact ⟨r, hr, ⟨c, by simp [untilWrite, hj, hc], hcovers⟩, rfl⟩
  | @edge id t ht hmem => exact .inr (block t hmem (mem_carriedTo.2 (.inl ⟨nofun, ht⟩)) rfl)
  | @throw id j rest r hr hcovers hmem =>
    exact .inr (block r.handler hmem
      (mem_carriedTo.2 (.inr ⟨r, hr, ⟨j, by simp [untilWrite], hcovers⟩, rfl⟩)) rfl)

/-- The search finds every instruction that reads the value. -/
theorem mem_readers_of_readsValue (h : g.ReadsValue slot p i) : i ∈ g.readers slot p := by
  obtain ⟨id, rest, hway, hreads⟩ := h
  induction hway using ReflTransGen.head_induction_on with
  | refl => exact mem_readers.2 (.inl (by simp [readersOf, untilWrite, hreads]))
  | head hstep _ ih => exact readers_subset_of_keeps hstep ih

/-! ### Nothing else is found -/

/-- Up to the next write, control comes to each instruction with the value. -/
theorem exists_way_of_mem_untilWrite (hi : i ∈ untilWrite slot row) :
    ∃ rest, ReflTransGen (g.Keeps slot) (id, row) (id, i :: rest) := by
  induction row with
  | nil => cases hi
  | cons j row ih =>
    rcases List.mem_cons.1 hi with rfl | hi
    · exact ⟨row, .refl⟩
    · cases hj : j.operation.writes slot with
      | true => simp [hj] at hi
      | false =>
        obtain ⟨rest, hway⟩ := ih (by simpa [hj] using hi)
        exact ⟨rest, .head (.next hj) hway⟩

/-- Where nothing is written, it comes to the end of the block. -/
theorem way_to_end (hkept : ∀ i ∈ row, i.operation.writes slot = false) :
    ReflTransGen (g.Keeps slot) (id, row) (id, []) := by
  induction row with
  | nil => exact .refl
  | cons i row ih =>
    obtain ⟨hi, hrow⟩ := List.forall_mem_cons.1 hkept
    exact .head (.next hi) (ih hrow)

/-- It comes to every block that the value is carried to. -/
theorem way_of_mem_carriedTo (ht : t ∈ g.carriedTo slot p) (hmem : t ∈ g.ids) :
    ReflTransGen (g.Keeps slot) p (t, g.instructionsOf t) := by
  obtain ⟨id, row⟩ := p
  rcases mem_carriedTo.1 ht with ⟨hkept, ht⟩ | ⟨r, hr, ⟨i, hi, hcovers⟩, rfl⟩
  · exact (way_to_end hkept).tail (.edge ht hmem)
  · obtain ⟨rest, hway⟩ := exists_way_of_mem_untilWrite hi
    exact hway.tail (.throw hr hcovers hmem)

/-- It comes along to all blocks behind that. -/
theorem way_of_reaches (h : (g.carryDigraph slot).Reaches t id) :
    ReflTransGen (g.Keeps slot) (t, g.instructionsOf t) (id, g.instructionsOf id) :=
  h.induction (P := fun id => ReflTransGen (g.Keeps slot) (t, g.instructionsOf t) (id, g.instructionsOf id))
    .refl fun _ _ _ hway hnext hmem => hway.trans (way_of_mem_carriedTo hnext hmem)

/-- What is read on such a way is the value. -/
theorem readsValue_of_way (hway : ReflTransGen (g.Keeps slot) p (id, row)) (hi : i ∈ readersOf slot row) :
    g.ReadsValue slot p i := by
  obtain ⟨hi, hreads⟩ := List.mem_filter.1 hi
  obtain ⟨rest, hrest⟩ := exists_way_of_mem_untilWrite hi
  exact ⟨id, rest, hway.trans hrest, hreads⟩

/-- The instructions that read the value of a slot are those that the search finds. -/
theorem mem_readers_iff : i ∈ g.readers slot p ↔ g.ReadsValue slot p i := by
  refine ⟨fun hi => ?_, mem_readers_of_readsValue⟩
  rcases mem_readers.1 hi with hi | ⟨t, ht, id, hreach, hi⟩
  · exact readsValue_of_way .refl hi
  · have hmem : t ∈ g.ids := hreach.elim fun _ hpath => hpath.source_mem
    exact readsValue_of_way ((way_of_mem_carriedTo ht hmem).trans (way_of_reaches hreach)) hi

end FlowGraph

end JvmDecompiler
