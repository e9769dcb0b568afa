/-!
# Finite directed graphs

A graph on natural numbers: a list of nodes and the successors of each. Successors that are not among
the nodes are edges that lead out of the graph; no path follows them.

`Digraph.Path` says what a path is. The depth-first search `reversePostorder` lists the nodes that
paths from a start lead to, and `immediateDominators` says through which last node all paths from the
start to a node have to go. Dominance is found by rounds over the nodes in reverse postorder: a node's
immediate dominator is where the ways from its predecessors up the tree of the dominators found so far
come together, until a round changes nothing.
-/

namespace JvmDecompiler

/-- A directed graph. -/
structure Digraph where
  nodes : List Nat
  next : Nat → List Nat

namespace Digraph

/-- A path from `a` to `b`: a sequence of nodes of the graph along its edges. -/
inductive Path (G : Digraph) : Nat → Nat → List Nat → Prop where
  | single {a : Nat} : a ∈ G.nodes → Path G a a [a]
  | cons {a b c : Nat} {p : List Nat} : a ∈ G.nodes → b ∈ G.next a → Path G b c p → Path G a c (a :: p)

/-- The graph without some of its nodes. -/
def without (G : Digraph) (removed : List Nat) : Digraph :=
  { G with nodes := G.nodes.filter (!removed.contains ·) }

/-- The nodes that a search has not seen yet. -/
def unseen (G : Digraph) (seen : List Nat) : List Nat := G.nodes.filter (!seen.contains ·)

/-- Seeing one more node leaves fewer of them. -/
theorem length_unseen_cons_lt {G : Digraph} {seen : List Nat} {a : Nat} (ha : a ∈ G.nodes)
    (hs : a ∉ seen) : (G.unseen (a :: seen)).length < (G.unseen seen).length := by
  have key : G.unseen (a :: seen) = (G.unseen seen).filter (· != a) := by
    simp only [unseen, List.filter_filter]
    refine List.filter_congr fun x _ => ?_
    by_cases hx : x = a <;> simp [hx, bne]
  have ham : a ∈ G.unseen seen := by simp [unseen, ha, hs]
  rw [key]
  refine Nat.lt_of_le_of_ne (List.length_filter_le ..) fun h => ?_
  have := List.length_filter_eq_length_iff.1 h a ham
  simp at this

/-- What a depth-first search still has to do. -/
inductive Task where
  /-- Go to a node, if it is new. -/
  | enter (a : Nat)
  /-- All that can be reached through the node is done. -/
  | leave (a : Nat)

/-- A depth-first search. Nodes go to the front of `done` as they are left, so `done` ends in reverse
postorder. -/
def search (G : Digraph) : List Task → (seen done : List Nat) → List Nat
  | [], _, done => done
  | .leave a :: tasks, seen, done => search G tasks seen (a :: done)
  | .enter a :: tasks, seen, done =>
    if h : a ∈ G.nodes ∧ a ∉ seen then
      have := length_unseen_cons_lt h.1 h.2
      -- the node is left when all that is reached through its successors has been
      search G ((G.next a).map .enter ++ .leave a :: tasks) (a :: seen) done
    else search G tasks seen done
  termination_by tasks seen => ((G.unseen seen).length, tasks.length)

/-- The nodes that paths from `start` lead to, in reverse postorder of a depth-first search that takes
the successors of a node in their order. -/
def reversePostorder (G : Digraph) (start : Nat) : List Nat := G.search [.enter start] [] []

/-! ## Immediate dominators

The nodes stand for their positions in reverse postorder, so a smaller number is closer to the start. A
table has a row for every position: the immediate dominator found so far, or `none` for a node that was
not come to yet. -/

/-- The row of a position. -/
def row (table : List (Option Nat)) (i : Nat) : Option Nat := table[i]?.join

/-- Where two ways up the table come together. The later of the two nodes goes up; `steps` bounds how
often. -/
def meet (table : List (Option Nat)) : (steps : Nat) → (a b : Nat) → Nat
  | 0, a, _ => a
  | steps + 1, a, b =>
    if a = b then a
    -- the later node is the one farther from the start
    else if b < a then meet table steps ((row table a).getD a) b
    else meet table steps a ((row table b).getD b)

/-- Where the ways up from all predecessors come together that have a row already. -/
def meetAll (table : List (Option Nat)) (predecessors : List Nat) : Option Nat :=
  (predecessors.filter fun p => (row table p).isSome).foldl (fun found p =>
    some (match found with
      | none => p
      | some q => meet table (q + p) q p)) none

/-- The table with a new row for one position. -/
def refineRow (predecessors : List (List Nat)) (table : List (Option Nat)) (b : Nat) :
    List (Option Nat) :=
  match meetAll table (predecessors.getD b []) with
  | none => table
  | some a => table.set b (some a)

/-- One round: a new row for every position but that of the start, each from the rows before it. -/
def refineRows (predecessors : List (List Nat)) (table : List (Option Nat)) : List (Option Nat) :=
  (List.range' 1 (table.length - 1)).foldl (refineRow predecessors) table

/-- Rounds until one changes nothing, at most `rounds` of them. -/
def settle (predecessors : List (List Nat)) : (rounds : Nat) → List (Option Nat) → List (Option Nat)
  | 0, table => table
  | rounds + 1, table =>
    let refined := refineRows predecessors table
    if refined = table then table else settle predecessors rounds refined

/-- The positions of the predecessors of every node in `order`. -/
def predecessorRows (G : Digraph) (order : List Nat) : List (List Nat) :=
  let successors := order.map G.next
  order.map fun b => (List.range order.length).filter fun p => (successors.getD p []).contains b

/-- The table that is left when no round changes it any more. Before the first round only the start has
a row. Every round but the last makes some row smaller, so there are no more rounds than the table has
rows times positions. -/
def dominatorTable (G : Digraph) (order : List Nat) : List (Option Nat) :=
  settle (G.predecessorRows order) (order.length * order.length)
    ((List.replicate order.length none).set 0 (some 0))

/-- For every node that paths from `start` lead to, in increasing order, the closest other node through
which all of these paths go; for `start` itself, `start`. -/
def immediateDominators (G : Digraph) (start : Nat) : List (Nat × Nat) :=
  let order := G.reversePostorder start
  let rows := order.zip (G.dominatorTable order)
  (rows.filterMap fun (b, a?) => do return (b, ← order[← a?]?)).mergeSort (·.1 ≤ ·.1)

/-- Whether `a` is met on the way from `b` up a table of immediate dominators, in at most `steps`
steps. -/
def climbs (idoms : List (Nat × Nat)) (a : Nat) : (steps : Nat) → (b : Nat) → Bool
  | 0, b => a = b
  | steps + 1, b =>
    if a = b then true
    else
      match idoms.lookup b with
      -- the row of the start leads to itself
      | some c => if c = b then false else climbs idoms a steps c
      | none => false

/-- Whether `a` dominates `b` according to a table of immediate dominators. The way up has no more steps
than the table has rows. -/
def dominates (idoms : List (Nat × Nat)) (a b : Nat) : Bool := climbs idoms a idoms.length b

end Digraph

end JvmDecompiler
