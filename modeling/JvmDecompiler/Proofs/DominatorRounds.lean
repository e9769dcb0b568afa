import JvmDecompiler.Digraph
import Mathlib

/-!
# The rounds that find dominators

`Digraph.dominatorTable` runs two loops with a bound on how often they go round: the way up from two
nodes until it comes together (`meet`), and the rounds over all nodes until one changes nothing
(`settle`). Here the same loops are relations without a bound (`Meets`, `MeetsAll`, `Round`, `Rounds`),
and the table is shown to be what they end with (`Refining.rounds_settle`), so no bound is ever reached.

The rows that a round writes are read again in the same round, so a row may go up before those below it
follow. What still holds in the middle of a round is `Refining`. Two of its parts carry the argument
that rows only ever go up, which is why the rounds come to an end:

* `meets`: what is above all predecessors of a node is above the node;
* `forward`: the row of a node leads to what is above each predecessor that comes earlier in the order.
  A row that goes up may break this for the nodes behind it, but only where the row of such a node leads
  to an earlier position, and then it is the node's own turn before that matters.

The third part, `sound`, keeps every node that all paths go through above the node they lead to. When a
round changes nothing, what is above a node is above its predecessors.
-/

namespace JvmDecompiler

namespace Digraph

variable {table : List (Option Nat)} {a b c d e n : Nat}

/-! ## Ways up a table -/

/-- A new row is found at its position, and the others as they were. -/
theorem row_set {x : Nat} : row (table.set b (some e)) x =
    if x = b ∧ b < table.length then some e else row table x := by
  rw [row, row, List.getElem?_set]
  by_cases hx : b = x
  · subst hx
    by_cases hb : b < table.length
    · simp [hb]
    · simp [hb]
  · rw [if_neg hx, if_neg fun h => hx h.1.symm]

/-- Only positions in the table have rows. -/
theorem lt_length_of_row (h : row table b = some e) : b < table.length := by
  by_contra hb
  rw [row, List.getElem?_eq_none (by omega)] at h
  cases h

/-- The way up the table from `b` leads to `a`. -/
inductive Above (table : List (Option Nat)) (a : Nat) : Nat → Prop where
  | refl : Above table a a
  | up {b c : Nat} : row table b = some c → Above table a c → Above table a b

/-- A way up can be followed by another. -/
theorem Above.trans (hab : Above table a b) (hbc : Above table b c) : Above table a c := by
  induction hbc with
  | refl => exact hab
  | up hrow _ ih => exact .up hrow ih

/-- The rows of a table lead up to the start. -/
structure Rooted (table : List (Option Nat)) : Prop where
  start : row table 0 = some 0
  lt : ∀ b c, 0 < b → row table b = some c → c < b
  closed : ∀ b c, row table b = some c → (row table c).isSome

namespace Rooted

/-- Rows lead down in position, or stay where they are. -/
theorem row_le (h : Rooted table) (hrow : row table b = some c) : c ≤ b := by
  by_cases hb : b = 0
  · subst hb
    rw [h.start] at hrow
    exact Option.some.inj hrow ▸ Nat.le_refl _
  · exact Nat.le_of_lt (h.lt b c (by omega) hrow)

/-- So do ways up. -/
theorem le_of_above (h : Rooted table) (hab : Above table a b) : a ≤ b := by
  induction hab with
  | refl => exact Nat.le_refl _
  | up hrow _ ih => exact ih.trans (h.row_le hrow)

/-- Above the start there is only the start. -/
theorem eq_zero_of_above (h : Rooted table) (ha : Above table a 0) : a = 0 := by
  have := h.le_of_above ha
  omega

/-- Every node on a way up has a row. -/
theorem isSome_of_above (h : Rooted table) (hab : Above table a b) (hb : (row table b).isSome) :
    (row table a).isSome := by
  induction hab with
  | refl => exact hb
  | up hrow _ ih => exact ih (h.closed _ _ hrow)

/-- Of two nodes above the same one, the earlier is above the later. -/
theorem above_of_le (h : Rooted table) (ha : Above table a c) (hb : Above table b c) (hab : a ≤ b) :
    Above table a b := by
  induction hb with
  | refl => exact ha
  | @up c c' hrow hb ih =>
    cases ha with
    | refl =>
      -- the way up from the node that is already the earliest goes nowhere
      have hle := h.le_of_above hb
      have hrow' := h.row_le hrow
      obtain rfl : b = a := by omega
      exact .refl
    | up hrow' ha' =>
      rw [hrow] at hrow'
      cases hrow'
      exact ih ha'

end Rooted

/-- A way up to another node leads through the row. -/
theorem Above.of_ne (hab : Above table a b) (hne : a ≠ b) (hrow : row table b = some c) :
    Above table a c := by
  cases hab with
  | refl => exact absurd rfl hne
  | up hrow' h =>
    rw [hrow] at hrow'
    cases hrow'
    exact h

/-! ## Where ways up come together -/

/-- `e` is where the ways up from some nodes come together. -/
structure IsMeet (table : List (Option Nat)) (nodes : List Nat) (e : Nat) : Prop where
  above : ∀ p ∈ nodes, Above table e p
  greatest : ∀ d, (∀ p ∈ nodes, Above table d p) → Above table d e

/-- Two ways up come together at `e`: the later of the two nodes goes up, until they are the same. -/
inductive Meets (table : List (Option Nat)) : (a b e : Nat) → Prop where
  | same (a : Nat) : Meets table a a a
  | left {a b c e : Nat} : b < a → row table a = some c → Meets table c b e → Meets table a b e
  | right {a b c e : Nat} : a < b → row table b = some c → Meets table a c e → Meets table a b e

/-- The ways up from the nodes that have a row come together, those from one node after the other.
`found` is where the ways up from the nodes before come together. -/
inductive MeetsAll (table : List (Option Nat)) : (found : Option Nat) → (nodes : List Nat) →
    (result : Option Nat) → Prop where
  | nil (found : Option Nat) : MeetsAll table found [] found
  | skip {found result : Option Nat} {p : Nat} {nodes : List Nat} : row table p = none →
      MeetsAll table found nodes result → MeetsAll table found (p :: nodes) result
  | first {result : Option Nat} {p : Nat} {nodes : List Nat} : (row table p).isSome →
      MeetsAll table (some p) nodes result → MeetsAll table none (p :: nodes) result
  | next {result : Option Nat} {p q e : Nat} {nodes : List Nat} : (row table p).isSome →
      Meets table q p e → MeetsAll table (some e) nodes result →
      MeetsAll table (some q) (p :: nodes) result

/-- The bound on the steps of `meet` is never reached: the ways up from two nodes with rows come
together before. -/
theorem meets_meet (h : Rooted table) {steps : Nat} (ha : (row table a).isSome)
    (hb : (row table b).isSome) (hsteps : a + b ≤ steps) :
    Meets table a b (meet table steps a b) := by
  induction steps generalizing a b with
  | zero =>
    obtain ⟨rfl, rfl⟩ : a = 0 ∧ b = 0 := by omega
    exact .same 0
  | succ steps ih =>
    rw [meet]
    by_cases hab : a = b
    · subst hab
      rw [if_pos rfl]
      exact .same a
    rw [if_neg hab]
    -- a row leads to an earlier position, so each step makes `a + b` smaller
    by_cases hlt : b < a
    · rw [if_pos hlt]
      obtain ⟨c, hc⟩ := Option.isSome_iff_exists.1 ha
      have hca := h.lt a c (by omega) hc
      rw [hc, Option.getD_some]
      exact .left hlt hc (ih (h.closed a c hc) hb (by omega))
    · rw [if_neg hlt]
      obtain ⟨c, hc⟩ := Option.isSome_iff_exists.1 hb
      have hcb := h.lt b c (by omega) hc
      rw [hc, Option.getD_some]
      exact .right (by omega) hc (ih ha (h.closed b c hc) (by omega))

/-- The later of two nodes may go up without losing what is above both. -/
theorem Meets.isMeet (h : Rooted table) (hmeets : Meets table a b e) : IsMeet table [a, b] e := by
  -- along the climb: whatever is above both is above the next pair as well
  induction hmeets with
  | same a => exact ⟨by simpa using Above.refl, fun d hd => hd a List.mem_cons_self⟩
  -- the node on the left is the later one, and goes up
  | @left a b c e hlt hc _ ih =>
    refine ⟨fun p hp => ?_, fun d hd => ih.greatest d fun p hp => ?_⟩
    · rcases List.mem_cons.1 hp with rfl | hp
      · exact .up hc (ih.above c List.mem_cons_self)
      · exact ih.above p (List.mem_cons_of_mem _ hp)
    · rcases List.mem_cons.1 hp with rfl | hp
      · have hdb := h.le_of_above (hd b (by simp))
        exact (hd a List.mem_cons_self).of_ne (by omega) hc
      · exact hd p (List.mem_cons_of_mem _ hp)
  | @right a b c e hlt hc _ ih =>
    refine ⟨fun p hp => ?_, fun d hd => ih.greatest d fun p hp => ?_⟩
    · rcases List.mem_pair.1 hp with rfl | rfl
      · exact ih.above p List.mem_cons_self
      · exact .up hc (ih.above c (by simp))
    · rcases List.mem_pair.1 hp with rfl | rfl
      · exact hd p List.mem_cons_self
      · have hda := h.le_of_above (hd a List.mem_cons_self)
        exact (hd b (by simp)).of_ne (by omega) hc

/-- Two nodes may be replaced by where the ways up from them come together. -/
theorem IsMeet.cons_cons {q p c : Nat} {nodes : List Nat} (hpair : IsMeet table [q, p] c)
    (hrest : IsMeet table (c :: nodes) e) : IsMeet table (q :: p :: nodes) e := by
  have hec := hrest.above c List.mem_cons_self
  refine ⟨fun r hr => ?_, fun d hd => hrest.greatest d fun r hr => ?_⟩
  · rcases List.mem_cons.1 hr with rfl | hr
    · exact hec.trans (hpair.above r List.mem_cons_self)
    · rcases List.mem_cons.1 hr with rfl | hr
      · exact hec.trans (hpair.above r (by simp))
      · exact hrest.above r (List.mem_cons_of_mem _ hr)
  · rcases List.mem_cons.1 hr with rfl | hr
    · refine hpair.greatest d fun r hr => hd r ?_
      rcases List.mem_pair.1 hr with rfl | rfl <;> simp
    · exact hd r (by simp [hr])

/-- Going through the nodes, no bound is reached either: `meetAll` is what the loop ends with. -/
theorem meetsAll_foldl (h : Rooted table) (nodes : List Nat) {found : Option Nat}
    (hfound : ∀ q, found = some q → (row table q).isSome) :
    MeetsAll table found nodes ((nodes.filter fun p => (row table p).isSome).foldl
      (fun found p => some (match found with
        | none => p
        | some q => meet table (q + p) q p)) found) := by
  -- from the left: nodes without a row are left out, the first one with a row starts the climb
  induction nodes generalizing found with
  | nil => exact .nil found
  | cons p nodes ih =>
    cases hp : row table p with
    | none =>
      rw [List.filter_cons_of_neg (by simp [hp])]
      exact .skip hp (ih hfound)
    | some c =>
      have hsome : (row table p).isSome := by simp [hp]
      rw [List.filter_cons_of_pos (by exact hsome), List.foldl_cons]
      cases found with
      | none => exact .first hsome (ih fun q hq => Option.some.inj hq ▸ hsome)
      | some q =>
        have hq := hfound q rfl
        have hmeets := meets_meet h hq hsome (Nat.le_refl (q + p))
        have habove := (hmeets.isMeet h).above q List.mem_cons_self
        refine .next hsome hmeets (ih fun e he => ?_)
        exact Option.some.inj he ▸ h.isSome_of_above habove hq

/-- The ways up from some nodes come together where the computation says. -/
theorem meetsAll_meetAll (h : Rooted table) (nodes : List Nat) :
    MeetsAll table none nodes (meetAll table nodes) :=
  meetsAll_foldl h nodes nofun

/-- What is found is where all ways up come together. -/
theorem MeetsAll.isMeet (h : Rooted table) {found result : Option Nat} {nodes : List Nat}
    (hmeets : MeetsAll table found nodes result) (he : result = some e) :
    IsMeet table (found.toList ++ nodes.filter fun p => (row table p).isSome) e := by
  induction hmeets with
  | nil found =>
    subst he
    exact ⟨by simpa using Above.refl, fun d hd => hd e (by simp)⟩
  | skip hnone _ ih =>
    rw [List.filter_cons_of_neg (by simp [hnone])]
    exact ih he
  | first hsome _ ih =>
    rw [List.filter_cons_of_pos (by exact hsome)]
    exact ih he
  | next hsome hpair _ ih =>
    rw [List.filter_cons_of_pos (by exact hsome)]
    exact (hpair.isMeet h).cons_cons (ih he)

/-- Something is found if one of the nodes has a row. -/
theorem MeetsAll.isSome {found result : Option Nat} {nodes : List Nat}
    (hmeets : MeetsAll table found nodes result)
    (h : found.isSome ∨ ∃ p ∈ nodes, (row table p).isSome) : result.isSome := by
  induction hmeets with
  | nil found => exact h.resolve_right (by simp)
  | skip hnone _ ih =>
    refine ih (h.imp_right fun ⟨p, hp, hsome⟩ => ⟨p, ?_, hsome⟩)
    refine (List.mem_cons.1 hp).resolve_left fun heq => ?_
    rw [heq, hnone] at hsome
    cases hsome
  | first _ _ ih => exact ih (.inl rfl)
  | next _ _ _ ih => exact ih (.inl rfl)

/-! ## A new row -/

/-- What has to hold for a new row `e` of the position `b`. -/
structure NewRow (table : List (Option Nat)) (b e : Nat) : Prop where
  rooted : Rooted table
  lt : e < b
  bound : b < table.length
  known : (row table e).isSome

namespace NewRow

variable {x : Nat}

/-- The new row is found at its position. -/
theorem row_self (h : NewRow table b e) : row (table.set b (some e)) b = some e := by
  rw [row_set, if_pos ⟨rfl, h.bound⟩]

/-- Every other row is found as it was. -/
theorem row_of_ne (hx : x ≠ b) : row (table.set b (some e)) x = row table x := by
  rw [row_set, if_neg fun h => hx h.1]

/-- A position has a row if it is the new one or had one before. -/
theorem isSome_row (h : NewRow table b e) :
    (row (table.set b (some e)) x).isSome ↔ x = b ∨ (row table x).isSome := by
  by_cases hx : x = b
  · subst hx
    simp [h.row_self]
  · rw [row_of_ne hx]
    simp [hx]

/-- With the new row the table still leads up to the start. -/
theorem rooted_set (h : NewRow table b e) : Rooted (table.set b (some e)) where
  start := by
    have hlt := h.lt
    rw [row_of_ne (by omega)]
    exact h.rooted.start
  -- the new row leads to an earlier node that has a row, and no other row changes
  lt x c hx hrow := by
    by_cases hxb : x = b
    · subst hxb
      rw [h.row_self] at hrow
      exact Option.some.inj hrow ▸ h.lt
    · rw [row_of_ne hxb] at hrow
      exact h.rooted.lt x c hx hrow
  closed x c hrow := by
    rw [h.isSome_row]
    by_cases hxb : x = b
    · subst hxb
      rw [h.row_self] at hrow
      exact .inr (Option.some.inj hrow ▸ h.known)
    · rw [row_of_ne hxb] at hrow
      exact .inr (h.rooted.closed x c hrow)

/-- The way up from a node that is not below `b` stays as it is. -/
theorem above_iff_of_not (hx : ¬Above table b x) :
    Above (table.set b (some e)) d x ↔ Above table d x := by
  constructor
  · intro hd
    induction hd with
    | refl => exact .refl
    | @up y c hrow _ ih =>
      have hy : y ≠ b := fun hy => hx (hy ▸ .refl)
      rw [row_of_ne hy] at hrow
      exact .up hrow (ih fun hc => hx (.up hrow hc))
  · intro hd
    induction hd with
    | refl => exact .refl
    | @up y c hrow _ ih =>
      have hy : y ≠ b := fun hy => hx (hy ▸ .refl)
      refine .up ?_ (ih fun hc => hx (.up hrow hc))
      rw [row_of_ne hy, hrow]

/-- The way up from a node as far as `b` stays as it is. -/
theorem above_iff_of_le (h : NewRow table b e) (hd : b ≤ d) :
    Above (table.set b (some e)) d x ↔ Above table d x := by
  have hlt := h.lt
  constructor
  -- along the climb: a step from `b` itself would have led below `d`
  · intro habove
    induction habove with
    | refl => exact .refl
    | @up y c hrow hrest ih =>
      by_cases hy : y = b
      · subst hy
        rw [h.row_self] at hrow
        have hle := h.rooted_set.le_of_above hrest
        have := Option.some.inj hrow
        omega
      · rw [row_of_ne hy] at hrow
        exact .up hrow ih
  -- and back: the old climb never gets to `b` either, since rows lead down
  · intro habove
    induction habove with
    | refl => exact .refl
    | @up y c hrow hrest ih =>
      by_cases hy : y = b
      · subst hy
        have hle := h.rooted.le_of_above hrest
        have hlt' := h.rooted.lt y c (by omega) hrow
        omega
      · exact .up (by rw [row_of_ne hy, hrow]) ih

/-- Beyond `b` the way up goes on at the new row. -/
theorem above_iff_of_lt (h : NewRow table b e) (hx : Above table b x) (hd : d < b) :
    Above (table.set b (some e)) d x ↔ Above table d e := by
  have hlt := h.lt
  have hbx := (h.above_iff_of_le (Nat.le_refl b)).2 hx
  have hbe : ¬Above table b e := fun hb => by
    have := h.rooted.le_of_above hb
    omega
  rw [← above_iff_of_not (e := e) hbe]
  constructor
  · intro hdx
    have hdb := h.rooted_set.above_of_le hdx hbx (by omega)
    exact hdb.of_ne (by omega) h.row_self
  · intro hde
    exact Above.trans (.up h.row_self hde) hbx

end NewRow

/-! ## One row -/

/-- What has to hold of the predecessors of positions below `n`. A relation `Dom` that is passed on to
predecessors stands for "all paths go through". -/
structure Flows (predecessors : List (List Nat)) (Dom : Nat → Nat → Prop) (n : Nat) : Prop where
  earlier : ∀ b, 0 < b → b < n → ∃ p ∈ predecessors.getD b [], p < b
  start : ∀ d, Dom d 0 → d = 0
  back : ∀ d b, Dom d b → d ≠ b → ∀ p ∈ predecessors.getD b [], Dom d p

/-- What holds of a table when it is the turn of position `b` in a round. -/
structure Refining (predecessors : List (List Nat)) (Dom : Nat → Nat → Prop) (n : Nat)
    (table : List (Option Nat)) (b : Nat) : Prop where
  length : table.length = n
  rooted : Rooted table
  ready : ∀ c, c < b → (row table c).isSome
  meets : ∀ c d, 0 < c → (row table c).isSome →
    (∀ p ∈ predecessors.getD c [], (row table p).isSome → Above table d p) → Above table d c
  forward : ∀ c q p, row table c = some q → p ∈ predecessors.getD c [] → p < c → c < b ∨ b ≤ q →
    Above table q p
  sound : ∀ c q d, 0 < c → row table c = some q → Dom d c → d ≠ c → Dom d q

namespace Refining

variable {predecessors : List (List Nat)} {Dom : Nat → Nat → Prop}

/-- What all paths go through is above the node that they lead to. -/
theorem above_of_dom (h : Refining predecessors Dom n table b) (hflow : Flows predecessors Dom n)
    {x : Nat} (hx : (row table x).isSome) (hd : Dom d x) : Above table d x := by
  induction x using Nat.strongRecOn with
  | ind x ih =>
    by_cases hx0 : x = 0
    · subst hx0
      exact hflow.start d hd ▸ .refl
    by_cases hdx : d = x
    · exact hdx ▸ .refl
    obtain ⟨q, hq⟩ := Option.isSome_iff_exists.1 hx
    refine .up hq (ih q (h.rooted.lt x q (by omega) hq) (h.rooted.closed x q hq) ?_)
    exact h.sound x q d (by omega) hq hd hdx

/-- What all paths to a node go through, they go through on the way to a node above it, down to which the
way up has not met it yet. -/
theorem dom_of_above (h : Refining predecessors Dom n table b) {x : Nat} (hd : Dom d x)
    (hex : Above table e x) (hde : Above table d e) : Dom d e := by
  have hle := h.rooted.le_of_above hde
  induction hex with
  | refl => exact hd
  | @up y c hrow hec ih =>
    by_cases hy : y = 0
    · subst hy
      rw [h.rooted.start] at hrow
      cases hrow
      exact ih hd
    · have hec' := h.rooted.le_of_above hec
      have hcy := h.rooted.lt y c (by omega) hrow
      exact ih (h.sound y c d (by omega) hrow hd (by omega))

/-- The new row for the position whose turn it is, and what it says. -/
theorem exists_newRow (h : Refining predecessors Dom n table b) (hflow : Flows predecessors Dom n)
    (hb : 0 < b) (hbn : b < n) : ∃ e, meetAll table (predecessors.getD b []) = some e ∧
      IsMeet table ((predecessors.getD b []).filter fun p => (row table p).isSome) e ∧
      NewRow table b e := by
  obtain ⟨p, hp, hpb⟩ := hflow.earlier b hb hbn
  have hmeets := meetsAll_meetAll h.rooted (predecessors.getD b [])
  obtain ⟨e, he⟩ := Option.isSome_iff_exists.1 (hmeets.isSome (.inr ⟨p, hp, h.ready p hpb⟩))
  have hmeet := hmeets.isMeet h.rooted he
  have hep := hmeet.above p (List.mem_filter.2 ⟨hp, h.ready p hpb⟩)
  have hle := h.rooted.le_of_above hep
  exact ⟨e, he, hmeet, h.rooted, by omega, h.length ▸ hbn, h.rooted.isSome_of_above hep (h.ready p hpb)⟩

variable (hflow : Flows predecessors Dom n) (hnew : NewRow table b e)
  (hmeet : IsMeet table ((predecessors.getD b []).filter fun p => (row table p).isSome) e)

include hmeet

/-- The new row is above every predecessor that has a row. -/
theorem above_newRow {p : Nat} (hp : p ∈ predecessors.getD b []) (hrow : (row table p).isSome) :
    Above table e p :=
  hmeet.above p (List.mem_filter.2 ⟨hp, hrow⟩)

/-- The new row is above the old one. -/
theorem newRow_above (h : Refining predecessors Dom n table b) (hb : 0 < b)
    (hrow : (row table b).isSome) : Above table e b :=
  h.meets b e hb hrow fun _ hp hrow => above_newRow hmeet hp hrow

include hnew

/-- With the new row, ways up from nodes that had a row before meet no node that they did not meet
before. -/
theorem above_of_above_set (h : Refining predecessors Dom n table b) (hb : 0 < b) {x : Nat}
    (hx : (row table x).isSome) (hdx : Above (table.set b (some e)) d x) : Above table d x := by
  by_cases hbx : Above table b x
  · by_cases hbd : b ≤ d
    · exact (hnew.above_iff_of_le hbd).1 hdx
    · have hde := (hnew.above_iff_of_lt hbx (by omega)).1 hdx
      have heb := newRow_above hmeet h hb (h.rooted.isSome_of_above hbx hx)
      exact (hde.trans heb).trans hbx
  · exact (NewRow.above_iff_of_not hbx).1 hdx

/-- In the table with the new row, the rows that have had their turn are above the predecessors in front of them. -/
theorem forward_set (h : Refining predecessors Dom n table b) (c q p : Nat)
    (hrow : row (table.set b (some e)) c = some q) (hp : p ∈ predecessors.getD c []) (hpc : p < c)
    (hcase : c < b + 1 ∨ b + 1 ≤ q) : Above (table.set b (some e)) q p := by
  have hnot : ∀ {x}, x < b → ¬Above table b x := fun hx hbx => by
    have := h.rooted.le_of_above hbx
    omega
  by_cases hcb : c = b
  · subst hcb
    rw [hnew.row_self] at hrow
    cases hrow
    exact (NewRow.above_iff_of_not (hnot hpc)).2 (above_newRow hmeet hp (h.ready p hpc))
  · rw [NewRow.row_of_ne hcb] at hrow
    by_cases hlt : c < b
    · exact (NewRow.above_iff_of_not (hnot (by omega))).2 (h.forward c q p hrow hp hpc (.inl hlt))
    · have hbq : b ≤ q := by omega
      exact (hnew.above_iff_of_le hbq).2 (h.forward c q p hrow hp hpc (.inr hbq))

include hflow

/-- What is above all predecessors of a position is above the position, with the new row as without it. -/
theorem meets_set (h : Refining predecessors Dom n table b) (hb : 0 < b) (c d : Nat) (hc : 0 < c)
    (hrow : (row (table.set b (some e)) c).isSome)
    (hd : ∀ p ∈ predecessors.getD c [], (row (table.set b (some e)) p).isSome →
      Above (table.set b (some e)) d p) : Above (table.set b (some e)) d c := by
  have hlen := h.length
  have hbound := hnew.bound
  -- nearest common dominators of the old rows above the new one
  have hold : ∀ p ∈ predecessors.getD c [], (row table p).isSome → Above table d p := fun p hp hp' =>
    above_of_above_set hnew hmeet h hb hp' (hd p hp (hnew.isSome_row.2 (.inr hp')))
  -- at `b` itself the new row is the nearest common dominator of its predecessors
  by_cases hcb : c = b
  · subst hcb
    have hde : Above table d e := hmeet.greatest d fun p hp => by
      rw [List.mem_filter] at hp
      exact hold p hp.1 hp.2
    have hle := h.rooted.le_of_above hde
    exact (hnew.above_iff_of_lt .refl (by have := hnew.lt; omega)).2 hde
  have hc' : (row table c).isSome := (hnew.isSome_row.1 hrow).resolve_left hcb
  have hdc := h.meets c d hc hc' hold
  -- any other node: its way up passes `b`, or the new row makes no difference to it
  by_cases hbc : Above table b c
  · by_cases hbd : b ≤ d
    · exact (hnew.above_iff_of_le hbd).2 hdc
    · -- an earlier predecessor of `c` is below `b` as well, so the way up from it meets `d` beyond `b`
      obtain ⟨q, hq⟩ := Option.isSome_iff_exists.1 hc'
      obtain ⟨p, hp, hpc⟩ := hflow.earlier c hc (hlen ▸ lt_length_of_row hq)
      have hbq : Above table b q := hbc.of_ne (Ne.symm hcb) hq
      have hqp := h.forward c q p hq hp hpc (.inr (h.rooted.le_of_above hbq))
      have hbp := hbq.trans hqp
      have hp' : (row table p).isSome := by
        cases hqp with
        | refl => exact h.rooted.closed c q hq
        | up hrow _ => simp [hrow]
      have hdp := hd p hp (hnew.isSome_row.2 (.inr hp'))
      rw [hnew.above_iff_of_lt hbp (by omega)] at hdp
      exact (hnew.above_iff_of_lt hbc (by omega)).2 hdp
  · exact (NewRow.above_iff_of_not hbc).2 hdc

/-- What all paths go through is above the new row as well. -/
theorem sound_set (h : Refining predecessors Dom n table b) (hb : 0 < b) (c q d : Nat) (hc : 0 < c)
    (hrow : row (table.set b (some e)) c = some q) (hd : Dom d c) (hdc : d ≠ c) : Dom d q := by
  by_cases hcb : c = b
  · subst hcb
    rw [hnew.row_self] at hrow
    cases hrow
    have hback := hflow.back d c hd hdc
    have hde : Above table d e := hmeet.greatest d fun p hp => by
      rw [List.mem_filter] at hp
      exact h.above_of_dom hflow hp.2 (hback p hp.1)
    obtain ⟨p, hp, hpc⟩ := hflow.earlier c hb (h.length ▸ hnew.bound)
    exact h.dom_of_above (hback p hp) (above_newRow hmeet hp (h.ready p hpc)) hde
  · rw [NewRow.row_of_ne hcb] at hrow
    exact h.sound c q d hc hrow hd hdc

/-- The turn of one position. -/
theorem set (h : Refining predecessors Dom n table b) (hb : 0 < b) :
    Refining predecessors Dom n (table.set b (some e)) (b + 1) where
  length := by rw [List.length_set, h.length]
  rooted := hnew.rooted_set
  ready c hc := by
    rw [hnew.isSome_row]
    by_cases hcb : c = b
    · exact .inl hcb
    · exact .inr (h.ready c (by omega))
  meets := h.meets_set hflow hnew hmeet hb
  forward := h.forward_set hnew hmeet
  sound := h.sound_set hflow hnew hmeet hb

end Refining

/-! ## Rounds -/

/-- One round over some positions. Each gets a new row in its turn, from the rows as they are then. -/
inductive Round (predecessors : List (List Nat)) : (table : List (Option Nat)) → (positions : List Nat) →
    (result : List (Option Nat)) → Prop where
  | nil (table : List (Option Nat)) : Round predecessors table [] table
  | keep {table result : List (Option Nat)} {b : Nat} {positions : List Nat} :
      MeetsAll table none (predecessors.getD b []) none →
      Round predecessors table positions result → Round predecessors table (b :: positions) result
  | set {table result : List (Option Nat)} {b e : Nat} {positions : List Nat} :
      MeetsAll table none (predecessors.getD b []) (some e) →
      Round predecessors (table.set b (some e)) positions result →
      Round predecessors table (b :: positions) result

/-- Rounds over all positions but that of the start, until one changes nothing. -/
inductive Rounds (predecessors : List (List Nat)) : (table result : List (Option Nat)) → Prop where
  | last {table : List (Option Nat)} :
      Round predecessors table (List.range' 1 (table.length - 1)) table →
      Rounds predecessors table table
  | again {table next result : List (Option Nat)} :
      Round predecessors table (List.range' 1 (table.length - 1)) next → next ≠ table →
      Rounds predecessors next result → Rounds predecessors table result

/-- How far the rows of a table lead away from the start, all together. A node without a row counts as
the farthest. -/
def weight (n : Nat) (table : List (Option Nat)) : Nat :=
  ∑ i ∈ Finset.range n, (row table i).getD n

/-- A table of `n` rows is no farther from the start than this. -/
theorem weight_le (h : ∀ i q, row table i = some q → q ≤ n) : weight n table ≤ n * n := by
  have hle : ∀ i ∈ Finset.range n, (row table i).getD n ≤ n := by
    intro i _
    cases hi : row table i with
    | none => exact Nat.le_refl n
    | some q => exact h i q hi
  have hsum := Finset.sum_le_card_nsmul (Finset.range n) _ n hle
  rwa [Finset.card_range, smul_eq_mul] at hsum

/-- A row that goes up makes the table lighter. -/
theorem weight_set_lt (h : NewRow table b e) (hbn : b < n) (hlt : e < (row table b).getD n) :
    weight n (table.set b (some e)) < weight n table := by
  have hle : ∀ i ∈ Finset.range n, (row (table.set b (some e)) i).getD n ≤ (row table i).getD n := by
    intro i _
    by_cases hi : i = b
    · subst hi
      rw [h.row_self]
      exact Nat.le_of_lt hlt
    · rw [NewRow.row_of_ne hi]
  refine Finset.sum_lt_sum hle ⟨b, Finset.mem_range.2 hbn, ?_⟩
  rw [h.row_self]
  exact hlt

section Rounds

variable {predecessors : List (List Nat)} {Dom : Nat → Nat → Prop}
  (hflow : Flows predecessors Dom n)

/-- What holds at the end of a round holds at every turn of the next one, should no row change. -/
theorem Refining.turn (h : Refining predecessors Dom n table n) (hbn : b ≤ n) :
    Refining predecessors Dom n table b where
  length := h.length
  rooted := h.rooted
  ready c hc := h.ready c (by omega)
  meets := h.meets
  forward c q p hrow hp hpc _ :=
    h.forward c q p hrow hp hpc (.inl (h.length ▸ lt_length_of_row hrow))
  sound := h.sound

include hflow

/-- The turn of one position changes nothing, or makes the table lighter. -/
theorem Refining.refineRow (h : Refining predecessors Dom n table b) (hb : 0 < b) (hbn : b < n) :
    Refining predecessors Dom n (refineRow predecessors table b) (b + 1) ∧
    (Digraph.refineRow predecessors table b = table ∨
      weight n (Digraph.refineRow predecessors table b) < weight n table) := by
  obtain ⟨e, he, hmeet, hnew⟩ := h.exists_newRow hflow hb hbn
  have hrefine : Digraph.refineRow predecessors table b = table.set b (some e) := by
    rw [Digraph.refineRow, he]
  rw [hrefine]
  refine ⟨h.set hflow hnew hmeet hb, ?_⟩
  -- a first row, a row that has moved up, or the row that was there
  cases hrow : row table b with
  | none =>
    refine .inr (weight_set_lt hnew hbn ?_)
    rw [hrow]
    exact hnew.lt.trans hbn
  | some q =>
    have hlt := hnew.lt
    have heb := Refining.newRow_above hmeet h hb (by simp [hrow])
    have heq := h.rooted.le_of_above (heb.of_ne (by omega) hrow)
    by_cases hqe : q = e
    · subst hqe
      left
      have hget : table[b]? = some (some q) := Option.join_eq_some_iff.1 hrow
      refine List.ext_getElem? fun i => ?_
      rw [List.getElem?_set]
      by_cases hi : b = i
      · subst hi
        rw [if_pos rfl, if_pos hnew.bound, hget]
      · rw [if_neg hi]
    · refine .inr (weight_set_lt hnew hbn ?_)
      rw [hrow, Option.getD_some]
      omega

/-- The turns of some positions change nothing, or make the table lighter. -/
theorem Refining.foldl_refineRow {k : Nat} (h : Refining predecessors Dom n table b) (hb : 0 < b)
    (hbn : b + k ≤ n) :
    Refining predecessors Dom n
        ((List.range' b k).foldl (Digraph.refineRow predecessors) table) (b + k) ∧
    ((List.range' b k).foldl (Digraph.refineRow predecessors) table = table ∧
        (∀ i, b ≤ i → i < b + k → Digraph.refineRow predecessors table i = table) ∨
      weight n ((List.range' b k).foldl (Digraph.refineRow predecessors) table) < weight n table) := by
  -- along the nodes of a round: either no row has changed so far, or the weight is less
  induction k generalizing b table with
  | zero => exact ⟨h, .inl ⟨rfl, fun i _ _ => by omega⟩⟩
  | succ k ih =>
    rw [List.range'_succ, List.foldl_cons]
    obtain ⟨hfirst, hsame⟩ := h.refineRow hflow hb (by omega)
    obtain ⟨hrest, hsame'⟩ := ih hfirst (by omega) (by omega)
    refine ⟨by rwa [Nat.add_right_comm, Nat.add_assoc] at hrest, ?_⟩
    rcases hsame' with ⟨hrest', hall⟩ | hlt
    · rcases hsame with hfirst' | hlt
      · rw [hfirst'] at hrest' hall ⊢
        refine .inl ⟨hrest', fun i hi hik => ?_⟩
        by_cases hib : i = b
        · rw [hib, hfirst']
        · exact hall i (by omega) (by omega)
      · rw [hrest']
        exact .inr hlt
    · rcases hsame with hfirst' | hlt'
      · rw [hfirst'] at hlt ⊢
        exact .inr hlt
      · exact .inr (hlt.trans hlt')

/-- A round changes nothing, or makes the table lighter. -/
theorem Refining.refineRows (h : Refining predecessors Dom n table 1) (hn : 0 < n) :
    Refining predecessors Dom n (refineRows predecessors table) n ∧
    (Digraph.refineRows predecessors table = table ∧
        (∀ i, 0 < i → i < n → Digraph.refineRow predecessors table i = table) ∨
      weight n (Digraph.refineRows predecessors table) < weight n table) := by
  have hround := h.foldl_refineRow hflow (k := n - 1) Nat.one_pos (by omega)
  rw [show 1 + (n - 1) = n by omega] at hround
  rw [Digraph.refineRows, h.length]
  exact hround

/-- The turns of some positions are a round without a bound. -/
theorem Refining.round {k : Nat} (h : Refining predecessors Dom n table b) (hb : 0 < b)
    (hbn : b + k ≤ n) : Round predecessors table (List.range' b k)
      ((List.range' b k).foldl (Digraph.refineRow predecessors) table) := by
  induction k generalizing b table with
  | zero => exact .nil table
  | succ k ih =>
    rw [List.range'_succ, List.foldl_cons]
    obtain ⟨e, he, hmeet, hnew⟩ := h.exists_newRow hflow hb (by omega)
    have hmeets := meetsAll_meetAll h.rooted (predecessors.getD b [])
    rw [he] at hmeets
    rw [Digraph.refineRow, he]
    exact .set hmeets (ih (h.set hflow hnew hmeet hb) (by omega) (by omega))

/-- One pass over the table is a round. -/
theorem Refining.round_refineRows (h : Refining predecessors Dom n table 1) (hn : 0 < n) :
    Round predecessors table (List.range' 1 (table.length - 1))
      (Digraph.refineRows predecessors table) :=
  h.round hflow Nat.one_pos (by rw [h.length]; omega)

/-- The bound on the rounds is never reached: they come to an end with the table of `settle`. -/
theorem Refining.rounds_settle {rounds : Nat} (h : Refining predecessors Dom n table 1) (hn : 0 < n)
    (hweight : weight n table ≤ rounds) :
    Rounds predecessors table (Digraph.settle predecessors rounds table) := by
  have hround := h.round_refineRows hflow hn
  -- on the rounds: one that changes the table makes its weight less, and there is no weight below zero
  induction rounds generalizing table with
  | zero =>
    obtain ⟨-, ⟨hsame, -⟩ | hlt⟩ := h.refineRows hflow hn
    · rw [hsame] at hround
      exact .last hround
    · omega
  | succ rounds ih =>
    rw [Digraph.settle]
    by_cases hsame : Digraph.refineRows predecessors table = table
    · rw [if_pos hsame]
      rw [hsame] at hround
      exact .last hround
    · rw [if_neg hsame]
      obtain ⟨hnext, ⟨hsame', -⟩ | hlt⟩ := h.refineRows hflow hn
      · exact absurd hsame' hsame
      · have hturn := hnext.turn hn
        exact .again hround hsame (ih hturn (by omega) (hturn.round_refineRows hflow hn))

/-- There are rounds enough: another one would change nothing. -/
theorem Refining.settle {rounds : Nat} (h : Refining predecessors Dom n table 1) (hn : 0 < n)
    (hweight : weight n table ≤ rounds) :
    Refining predecessors Dom n (settle predecessors rounds table) n ∧
    Digraph.refineRows predecessors (Digraph.settle predecessors rounds table) =
      Digraph.settle predecessors rounds table := by
  induction rounds generalizing table with
  | zero =>
    obtain ⟨hround, ⟨hsame, -⟩ | hlt⟩ := h.refineRows hflow hn
    · rw [hsame] at hround
      exact ⟨hround, hsame⟩
    · omega
  | succ rounds ih =>
    obtain ⟨hround, hcase⟩ := h.refineRows hflow hn
    rw [Digraph.settle]
    by_cases hsame : Digraph.refineRows predecessors table = table
    · rw [if_pos hsame]
      rw [hsame] at hround
      exact ⟨hround, hsame⟩
    · rw [if_neg hsame]
      rcases hcase with ⟨hsame', -⟩ | hlt
      · exact absurd hsame' hsame
      · exact ih (hround.turn hn) (by omega)

/-- In a table that a round does not change, what is above a node is above its predecessors. -/
theorem Refining.above_predecessor (h : Refining predecessors Dom n table n)
    (hsettled : Digraph.refineRows predecessors table = table) (hb : 0 < b) (hbn : b < n)
    (hd : Above table d b) (hdb : d ≠ b) {p : Nat} (hp : p ∈ predecessors.getD b []) (hpn : p < n) :
    Above table d p := by
  have hn : 0 < n := by omega
  obtain ⟨-, ⟨-, hall⟩ | hlt⟩ := (h.turn hn).refineRows hflow hn
  · obtain ⟨e, he, hmeet, hnew⟩ := (h.turn hbn.le).exists_newRow hflow hb hbn
    have hrow := hnew.row_self
    have hsame := hall b hb hbn
    rw [Digraph.refineRow, he] at hsame
    dsimp only at hsame
    rw [hsame] at hrow
    exact (hd.of_ne hdb hrow).trans (Refining.above_newRow hmeet hp (h.ready p hpn))
  · rw [hsettled] at hlt
    omega

end Rounds

end Digraph

end JvmDecompiler
