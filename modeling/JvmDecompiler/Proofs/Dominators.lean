import JvmDecompiler.FlowGraph.Dominance
import JvmDecompiler.Proofs.DominatorRounds
import JvmDecompiler.Proofs.Search

/-!
# Immediate dominators are exact

`Digraph.dominates` on the table of `Digraph.immediateDominators` answers what it should for every
graph: whether all paths from the start to a node go through another one.

The rounds are over positions in reverse postorder, and what they end with is known for every relation
that is passed on to predecessors (`Digraph.Refining`). Here that relation is "all paths go through"
(`DominatesAt`), and positions are nodes again. When a round changes nothing, what is above a node is
above its predecessors, hence on every path.
-/

namespace JvmDecompiler

namespace Digraph

variable {table : List (Option Nat)} {a b c d e n : Nat}

/-! ## Positions in reverse postorder -/

section Order

variable {G : Digraph} {start : Nat}

/-- The predecessors of a position are those of its node that are in the order. -/
theorem mem_predecessorRows {order : List Nat} {p b : Nat} :
    p ∈ (G.predecessorRows order).getD b [] ↔
      ∃ x y, order[b]? = some x ∧ order[p]? = some y ∧ x ∈ G.next y := by
  unfold predecessorRows
  rw [List.getD_eq_getElem?_getD, List.getElem?_map]
  cases hb : order[b]? with
  | none => simp
  | some x =>
    simp only [Option.map_some, Option.getD_some, List.mem_filter, List.mem_range,
      List.contains_iff_mem, List.getD_eq_getElem?_getD, List.getElem?_map]
    constructor
    · rintro ⟨hp, hx⟩
      rw [List.getElem?_eq_getElem hp] at hx
      exact ⟨x, order[p], rfl, List.getElem?_eq_getElem hp, hx⟩
    · rintro ⟨w, y, hw, hy, hx⟩
      cases hw
      refine ⟨(List.getElem?_eq_some_iff.1 hy).1, ?_⟩
      rw [hy]
      exact hx

/-- Reverse postorder begins with the start. -/
theorem getElem?_zero_reversePostorder (h : start ∈ G.nodes) :
    (G.reversePostorder start)[0]? = some start := by
  have hmem := start_mem_reversePostorder h
  cases horder : G.reversePostorder start with
  | nil =>
    rw [horder] at hmem
    cases hmem
  | cons x rest =>
    by_contra hne
    have hx : x ≠ start := fun hx => hne (by rw [List.getElem?_cons_zero, hx])
    have hfirst : G.reversePostorder start = [] ++ x :: rest := horder
    obtain ⟨p, hp, -⟩ := exists_next_before hfirst hx
    cases hp

/-- The positions of a node in reverse postorder. -/
theorem position_inj {i j x : Nat} (hi : (G.reversePostorder start)[i]? = some x)
    (hj : (G.reversePostorder start)[j]? = some x) : i = j := by
  have hlt := (List.getElem?_eq_some_iff.1 hi).1
  exact (List.getElem?_inj hlt (nodup_reversePostorder G start)).1 (hi.trans hj.symm)

/-- All paths to the node at position `b` go through the one at position `d`. -/
def DominatesAt (G : Digraph) (start d b : Nat) : Prop :=
  ∃ a, (G.reversePostorder start)[d]? = some a ∧
    ∀ x, (G.reversePostorder start)[b]? = some x → ∀ path, G.Path start x path → a ∈ path

/-- In a reverse postorder every position but the start has a predecessor in front of it. -/
theorem flows_predecessorRows (h : start ∈ G.nodes) :
    Flows (G.predecessorRows (G.reversePostorder start)) (DominatesAt G start)
      (G.reversePostorder start).length where
  earlier b hb hbn := by
    -- the search has found a node through another one, which it lists in front of it
    have hsplit := List.take_append_drop b (G.reversePostorder start)
    rw [List.drop_eq_getElem_cons hbn] at hsplit
    have hne : (G.reversePostorder start)[b] ≠ start := by
      intro hx
      have hget := List.getElem?_eq_getElem hbn
      rw [hx] at hget
      have := position_inj hget (getElem?_zero_reversePostorder h)
      omega
    obtain ⟨y, hy, hnext⟩ := exists_next_before hsplit.symm hne
    obtain ⟨p, hp, hpy⟩ := List.mem_take_iff_getElem.1 hy
    refine ⟨p, mem_predecessorRows.2 ⟨_, y, List.getElem?_eq_getElem hbn, ?_, hnext⟩, by omega⟩
    rw [← hpy]
    exact List.getElem?_eq_getElem (by omega)
  start d hd := by
    obtain ⟨a, ha, hall⟩ := hd
    have hzero := getElem?_zero_reversePostorder h
    have hmem := hall start hzero [start] (.single h)
    rw [List.mem_singleton] at hmem
    exact position_inj (hmem ▸ ha) hzero
  -- a dominator of a node is on the way through each of its predecessors, unless it is the node itself
  back d b hd hdb p hp := by
    obtain ⟨a, ha, hall⟩ := hd
    obtain ⟨x, y, hx, hy, hnext⟩ := mem_predecessorRows.1 hp
    refine ⟨a, ha, fun y' hy' path hpath => ?_⟩
    rw [hy] at hy'
    cases hy'
    obtain ⟨path', hpath'⟩ := mem_reversePostorder_iff.1 (List.mem_of_getElem? hx)
    have hmem := hall x hx _ (hpath.snoc hnext hpath'.target_mem)
    rw [List.mem_append, List.mem_singleton] at hmem
    rcases hmem with hmem | hmem
    · exact hmem
    · exact absurd (position_inj (hmem ▸ ha) hx) hdb

/-- At first only the start has a row. -/
theorem row_initial {i : Nat} (hn : 0 < n) :
    row ((List.replicate n none).set 0 (some 0)) i = if i = 0 then some 0 else none := by
  rw [row_set, List.length_replicate]
  by_cases hi : i = 0
  · rw [if_pos ⟨hi, hn⟩, if_pos hi]
  · rw [if_neg fun h => hi h.1, if_neg hi, row, List.getElem?_replicate]
    by_cases hin : i < n
    · rw [if_pos hin]
      rfl
    · rw [if_neg hin]
      rfl

/-- Before the first round only the start has a row. -/
theorem refining_initial {predecessors : List (List Nat)} {Dom : Nat → Nat → Prop} (hn : 0 < n) :
    Refining predecessors Dom n ((List.replicate n none).set 0 (some 0)) 1 := by
  -- in the first table only the start has a row, which leads to itself
  have hrow : ∀ {i q}, row ((List.replicate n none).set 0 (some 0)) i = some q → i = 0 ∧ q = 0 := by
    intro i q h
    rw [row_initial hn] at h
    by_cases hi : i = 0
    · rw [if_pos hi] at h
      exact ⟨hi, (Option.some.inj h).symm⟩
    · rw [if_neg hi] at h
      cases h
  have hzero : row ((List.replicate n none).set 0 (some 0)) 0 = some 0 := by
    rw [row_initial hn, if_pos rfl]
  refine ⟨by simp, ⟨hzero, fun b c hb h => ?_, fun b c h => ?_⟩, fun c hc => ?_,
    fun c d hc h => ?_, fun c q p h hp hpc => ?_, fun c q d hc h => ?_⟩
  · have := hrow h
    omega
  · rw [(hrow h).2, hzero]
    rfl
  · obtain rfl : c = 0 := by omega
    rw [hzero]
    rfl
  · obtain ⟨q, hq⟩ := Option.isSome_iff_exists.1 h
    have := hrow hq
    omega
  · have := hrow h
    omega
  · have := hrow h
    omega

/-- The first table is no farther from the start than any other. -/
theorem weight_initial (hn : 0 < n) :
    weight n ((List.replicate n none).set 0 (some 0)) ≤ n * n := by
  refine weight_le fun i q hq => ?_
  rw [row_initial hn] at hq
  by_cases hi : i = 0
  · rw [if_pos hi] at hq
    cases hq
    omega
  · rw [if_neg hi] at hq
    cases hq

/-- The order has the start in it. -/
theorem length_reversePostorder_pos (h : start ∈ G.nodes) : 0 < (G.reversePostorder start).length :=
  List.length_pos_of_mem (start_mem_reversePostorder h)

/-- What holds of the table when the rounds have come to an end: one more would change nothing. -/
theorem refining_dominatorTable (h : start ∈ G.nodes) :
    Refining (G.predecessorRows (G.reversePostorder start)) (DominatesAt G start)
      (G.reversePostorder start).length (G.dominatorTable (G.reversePostorder start))
      (G.reversePostorder start).length ∧
    refineRows (G.predecessorRows (G.reversePostorder start))
        (G.dominatorTable (G.reversePostorder start)) =
      G.dominatorTable (G.reversePostorder start) :=
  have hn := length_reversePostorder_pos h
  (refining_initial hn).settle (flows_predecessorRows h) hn (weight_initial hn)

/-- The loops that find the table come to an end, those over two ways up and the rounds. -/
theorem rounds_dominatorTable (h : start ∈ G.nodes) :
    Rounds (G.predecessorRows (G.reversePostorder start))
      ((List.replicate (G.reversePostorder start).length none).set 0 (some 0))
      (G.dominatorTable (G.reversePostorder start)) :=
  have hn := length_reversePostorder_pos h
  (refining_initial hn).rounds_settle (flows_predecessorRows h) hn (weight_initial hn)

/-- What is above the end of a path is on the path or above its beginning. -/
theorem mem_path_or_above (h : start ∈ G.nodes) {u v i j : Nat} {path : List Nat}
    (hpath : G.Path u v path) (hi : (G.reversePostorder start)[i]? = some u)
    (hj : (G.reversePostorder start)[j]? = some v) (hd : (G.reversePostorder start)[d]? = some a)
    (habove : Above (G.dominatorTable (G.reversePostorder start)) d j) :
    a ∈ path ∨ Above (G.dominatorTable (G.reversePostorder start)) d i := by
  obtain ⟨hrefining, hsettled⟩ := refining_dominatorTable h
  -- along the way to `v`, from its end: a node that is above the target is above the source, or is on the way
  induction hpath generalizing i with
  | single _ => exact .inr (position_inj hi hj ▸ habove)
  | @cons u w v path hu hnext hrest ih =>
    have hw : w ∈ G.reversePostorder start :=
      next_mem_reversePostorder (List.mem_of_getElem? hi) hnext hrest.source_mem
    obtain ⟨k, hk⟩ := List.mem_iff_getElem?.1 hw
    have hkn := (List.getElem?_eq_some_iff.1 hk).1
    have hin := (List.getElem?_eq_some_iff.1 hi).1
    rcases ih hk hj with hmem | hdk
    · exact .inl (List.mem_cons_of_mem _ hmem)
    by_cases hne : d = k
    · rw [hne, hk] at hd
      cases hd
      refine .inl (List.mem_cons_of_mem _ ?_)
      cases hrest <;> exact List.mem_cons_self
    · have hle := hrefining.rooted.le_of_above hdk
      exact .inr (hrefining.above_predecessor (flows_predecessorRows h) hsettled (by omega) hkn hdk hne
        (mem_predecessorRows.2 ⟨w, u, hk, hi, hnext⟩) hin)

/-- The ways up the table tell what all paths go through. -/
theorem above_iff_dominatesAt (h : start ∈ G.nodes) {x : Nat}
    (hb : (G.reversePostorder start)[b]? = some x) (hd : (G.reversePostorder start)[d]? = some a) :
    Above (G.dominatorTable (G.reversePostorder start)) d b ↔
      ∀ path, G.Path start x path → a ∈ path := by
  obtain ⟨hrefining, hsettled⟩ := refining_dominatorTable h
  constructor
  · intro habove path hpath
    have hzero := getElem?_zero_reversePostorder h
    rcases mem_path_or_above h hpath hzero hb hd habove with hmem | hd0
    · exact hmem
    · have hle := hrefining.rooted.le_of_above hd0
      obtain rfl : d = 0 := by omega
      rw [hzero] at hd
      cases hd
      cases hpath <;> exact List.mem_cons_self
  -- a node on all ways is never lost, since the rows are nearest common dominators
  · intro hall
    refine hrefining.above_of_dom (flows_predecessorRows h)
      (hrefining.ready b (List.getElem?_eq_some_iff.1 hb).1) ⟨a, hd, fun y hy path hpath => ?_⟩
    rw [hb] at hy
    cases hy
    exact hall path hpath

end Order

/-! ## The table by nodes -/

/-- In a list of pairs without two of the same key, looking up a key finds its pair. -/
theorem lookup_eq_some_iff {pairs : List (Nat × Nat)} (h : (pairs.map (·.1)).Nodup) {x y : Nat} :
    pairs.lookup x = some y ↔ (x, y) ∈ pairs := by
  induction pairs with
  | nil => simp
  | cons pair pairs ih =>
    obtain ⟨k, v⟩ := pair
    rw [List.map_cons, List.nodup_cons] at h
    by_cases hx : x = k
    · subst hx
      have hnot : (x, y) ∉ pairs := fun hmem => h.1 (List.mem_map_of_mem (f := (·.1)) hmem)
      rw [List.lookup_cons_self]
      simp [hnot, eq_comm]
    · have hbeq : (x == k) = false := beq_eq_false_iff_ne.2 hx
      rw [List.lookup_cons, hbeq]
      simp only
      rw [ih h.2]
      simp [hx]

section Table

variable {G : Digraph} {start : Nat}

/-- The table of immediate dominators is that of positions, with nodes in their places. -/
theorem mem_immediateDominators {x y : Nat} : (x, y) ∈ G.immediateDominators start ↔
    ∃ i j, (G.reversePostorder start)[i]? = some x ∧
      row (G.dominatorTable (G.reversePostorder start)) i = some j ∧
      (G.reversePostorder start)[j]? = some y := by
  unfold immediateDominators
  rw [List.mem_mergeSort, List.mem_filterMap]
  constructor
  · rintro ⟨⟨b, r⟩, hmem, hpair⟩
    obtain ⟨i, hi⟩ := List.mem_iff_getElem?.1 hmem
    rw [List.getElem?_zip_eq_some] at hi
    cases r with
    | none => cases hpair
    | some j =>
      cases hj : (G.reversePostorder start)[j]? with
      | none => simp [hj] at hpair
      | some z =>
        simp only [hj, Option.bind_eq_bind, Option.bind_some, Option.pure_def, Option.some.injEq,
          Prod.mk.injEq] at hpair
        obtain ⟨rfl, rfl⟩ := hpair
        exact ⟨i, j, hi.1, by rw [row, hi.2]; rfl, hj⟩
  · rintro ⟨i, j, hx, hrow, hy⟩
    refine ⟨(x, some j), List.mem_iff_getElem?.2 ⟨i, ?_⟩, by simp [hy]⟩
    rw [List.getElem?_zip_eq_some]
    exact ⟨hx, Option.join_eq_some_iff.1 hrow⟩

/-- The table has one row for each node that paths from the start lead to. -/
theorem keys_immediateDominators (h : start ∈ G.nodes) :
    ((G.immediateDominators start).map (·.1)).Perm (G.reversePostorder start) := by
  obtain ⟨hrefining, -⟩ := refining_dominatorTable h
  unfold immediateDominators
  refine ((List.mergeSort_perm _ _).map _).trans (List.Perm.of_eq ?_)
  rw [List.map_filterMap]
  have hfst : ((G.reversePostorder start).zip
      (G.dominatorTable (G.reversePostorder start))).map (·.1) = G.reversePostorder start :=
    List.map_fst_zip (Nat.le_of_eq hrefining.length.symm)
  refine Eq.trans ?_ hfst
  rw [← List.filterMap_eq_map]
  refine List.filterMap_congr fun pair hpair => ?_
  -- every row leads to a position in the order
  obtain ⟨i, hi⟩ := List.mem_iff_getElem?.1 hpair
  obtain ⟨b, r⟩ := pair
  rw [List.getElem?_zip_eq_some] at hi
  obtain ⟨j, hj⟩ := Option.isSome_iff_exists.1
    (hrefining.ready i (List.getElem?_eq_some_iff.1 hi.1).1)
  have hr : r = some j := by
    rw [row, hi.2] at hj
    exact hj
  have hji := hrefining.rooted.row_le hj
  have hin := (List.getElem?_eq_some_iff.1 hi.1).1
  have hy := List.getElem?_eq_getElem (l := G.reversePostorder start) (i := j) (by omega)
  simp [hr, hy]

/-- It goes up in its nodes. -/
theorem pairwise_immediateDominators (h : start ∈ G.nodes) :
    ((G.immediateDominators start).map (·.1)).Pairwise (· < ·) := by
  have hsorted : ((G.immediateDominators start).map (·.1)).Pairwise (· ≤ ·) := by
    unfold immediateDominators
    rw [List.pairwise_map]
    refine (List.pairwise_mergeSort (fun a b c hab hbc => ?_) (fun a b => ?_) _).imp fun hle => ?_
    · simp only [decide_eq_true_eq] at *
      omega
    · simp only [Bool.or_eq_true, decide_eq_true_eq]
      omega
    · simpa using hle
  have hnodup := (keys_immediateDominators h).nodup_iff.2 (nodup_reversePostorder G start)
  exact hsorted.imp₂ (fun a b hle hne => Nat.lt_of_le_of_ne hle hne) hnodup

/-- What it has for a node is the row at the node's position. -/
theorem lookup_immediateDominators (h : start ∈ G.nodes) {x y : Nat} :
    (G.immediateDominators start).lookup x = some y ↔
      ∃ i j, (G.reversePostorder start)[i]? = some x ∧
        row (G.dominatorTable (G.reversePostorder start)) i = some j ∧
        (G.reversePostorder start)[j]? = some y := by
  have hnodup := (keys_immediateDominators h).nodup_iff.2 (nodup_reversePostorder G start)
  rw [lookup_eq_some_iff hnodup, mem_immediateDominators]

/-- The search for `a` on the way from a node up a table of immediate dominators ends with an answer. -/
inductive Climb (idoms : List (Nat × Nat)) (a : Nat) : (b : Nat) → (answer : Bool) → Prop where
  | found : Climb idoms a a true
  | up {b c : Nat} {answer : Bool} : a ≠ b → idoms.lookup b = some c → c ≠ b →
      Climb idoms a c answer → Climb idoms a b answer
  | root {b : Nat} : a ≠ b → idoms.lookup b = some b → Climb idoms a b false
  | missing {b : Nat} : a ≠ b → idoms.lookup b = none → Climb idoms a b false

/-- The row of a node by its position. -/
theorem exists_lookup_of_position (h : start ∈ G.nodes) {i x : Nat}
    (hx : (G.reversePostorder start)[i]? = some x) :
    ∃ j y, row (G.dominatorTable (G.reversePostorder start)) i = some j ∧
      (G.reversePostorder start)[j]? = some y ∧
      (G.immediateDominators start).lookup x = some y := by
  obtain ⟨hrefining, -⟩ := refining_dominatorTable h
  have hin := (List.getElem?_eq_some_iff.1 hx).1
  obtain ⟨j, hj⟩ := Option.isSome_iff_exists.1 (hrefining.ready i hin)
  have hji := hrefining.rooted.row_le hj
  have hy := List.getElem?_eq_getElem (l := G.reversePostorder start) (i := j) (by omega)
  exact ⟨j, _, hj, hy, (lookup_immediateDominators h).2 ⟨i, j, hx, hj, hy⟩⟩

/-- The way up from a position has no more steps than there are positions before it. -/
theorem climb_climbs (h : start ∈ G.nodes) {steps i x : Nat}
    (hx : (G.reversePostorder start)[i]? = some x) (hi : i ≤ steps) :
    Climb (G.immediateDominators start) a x (climbs (G.immediateDominators start) a steps x) := by
  obtain ⟨hrefining, -⟩ := refining_dominatorTable h
  -- on the steps: a position is left for a smaller one until the start is reached
  induction steps generalizing i x with
  | zero =>
    obtain rfl : i = 0 := by omega
    obtain ⟨j, y, hj, hy, hlookup⟩ := exists_lookup_of_position h hx
    rw [climbs]
    by_cases hax : a = x
    · subst hax
      rw [decide_eq_true rfl]
      exact .found
    · rw [decide_eq_false hax]
      obtain rfl : j = 0 := Nat.le_zero.1 (hrefining.rooted.row_le hj)
      rw [hx] at hy
      exact .root hax (Option.some.inj hy ▸ hlookup)
  | succ steps ih =>
    obtain ⟨j, y, hj, hy, hlookup⟩ := exists_lookup_of_position h hx
    rw [climbs]
    by_cases hax : a = x
    · subst hax
      rw [if_pos rfl]
      exact .found
    rw [if_neg hax, hlookup]
    dsimp only
    by_cases hyx : y = x
    · rw [if_pos hyx]
      exact .root hax (hyx ▸ hlookup)
    · rw [if_neg hyx]
      have hne : j ≠ i := by
        intro hji
        rw [hji, hx] at hy
        exact hyx (Option.some.inj hy).symm
      have hji := hrefining.rooted.row_le hj
      exact .up hax hlookup hyx (ih hy (by omega))

/-- The bound on the way up is never reached, from whatever node it starts. -/
theorem climb_dominates (h : start ∈ G.nodes) (a b : Nat) :
    Climb (G.immediateDominators start) a b (dominates (G.immediateDominators start) a b) := by
  have hlength : (G.immediateDominators start).length = (G.reversePostorder start).length := by
    rw [← List.length_map, (keys_immediateDominators h).length_eq]
  by_cases hb : b ∈ G.reversePostorder start
  · obtain ⟨i, hi⟩ := List.mem_iff_getElem?.1 hb
    have hin := (List.getElem?_eq_some_iff.1 hi).1
    exact climb_climbs h hi (by omega)
  · -- no row of its own
    have hnone : (G.immediateDominators start).lookup b = none := by
      rw [Option.eq_none_iff_forall_ne_some]
      intro c hc
      obtain ⟨i, j, hi, -, -⟩ := (lookup_immediateDominators h).1 hc
      exact hb (List.mem_of_getElem? hi)
    have hpos := length_reversePostorder_pos h
    obtain ⟨steps, hsteps⟩ := Nat.exists_eq_add_one_of_ne_zero
      (show (G.immediateDominators start).length ≠ 0 by omega)
    rw [dominates, hsteps, climbs]
    by_cases hab : a = b
    · subst hab
      rw [if_pos rfl]
      exact .found
    · rw [if_neg hab, hnone]
      exact .missing hab hnone

/-- Going up the table by nodes is going up the table by positions. -/
theorem Climb.eq_true_iff (h : start ∈ G.nodes) {x : Nat} {answer : Bool}
    (hclimb : Climb (G.immediateDominators start) a x answer) {i : Nat}
    (hx : (G.reversePostorder start)[i]? = some x) :
    answer = true ↔ ∃ d, (G.reversePostorder start)[d]? = some a ∧
      Above (G.dominatorTable (G.reversePostorder start)) d i := by
  obtain ⟨hrefining, -⟩ := refining_dominatorTable h
  have hne : ∀ {x i d : Nat}, a ≠ x → (G.reversePostorder start)[i]? = some x →
      (G.reversePostorder start)[d]? = some a → d ≠ i := by
    intro x i d hax hx hd hdi
    rw [hdi, hx] at hd
    exact hax (Option.some.inj hd).symm
  induction hclimb generalizing i with
  | found => exact ⟨fun _ => ⟨i, hx, .refl⟩, fun _ => rfl⟩
  | up hax hlookup _ _ ih =>
    obtain ⟨i', j, hi', hrow, hj⟩ := (lookup_immediateDominators h).1 hlookup
    obtain rfl : i' = i := position_inj hi' hx
    refine (ih hj).trans ?_
    refine exists_congr fun d => and_congr_right fun hd => ⟨.up hrow, fun habove => ?_⟩
    exact habove.of_ne (hne hax hx hd) hrow
  | root hax hlookup =>
    -- a row that leads nowhere is that of the start, and only the start is above it
    obtain ⟨i', j, hi', hrow, hj⟩ := (lookup_immediateDominators h).1 hlookup
    obtain rfl : i' = i := position_inj hi' hx
    obtain rfl : j = i' := position_inj hj hx
    refine ⟨nofun, fun ⟨d, hd, habove⟩ => ?_⟩
    have hj0 : j = 0 := by
      by_contra hj0
      exact absurd (hrefining.rooted.lt j j (by omega) hrow) (Nat.lt_irrefl j)
    subst hj0
    exact absurd (hrefining.rooted.eq_zero_of_above habove) (hne hax hx hd)
  | missing _ hlookup =>
    obtain ⟨j, y, -, -, hsome⟩ := exists_lookup_of_position h hx
    rw [hlookup] at hsome
    cases hsome

/-- The table says exactly what all paths from the start to a node go through. -/
theorem dominates_iff (h : start ∈ G.nodes) {b : Nat} (hb : G.Reaches start b) :
    dominates (G.immediateDominators start) a b = true ↔ ∀ path, G.Path start b path → a ∈ path := by
  obtain ⟨i, hi⟩ := List.mem_iff_getElem?.1 (mem_reversePostorder_iff.2 hb)
  rw [(climb_dominates h a b).eq_true_iff h hi]
  constructor
  · rintro ⟨d, hd, habove⟩
    exact (above_iff_dominatesAt h hi hd).1 habove
  · intro hall
    obtain ⟨path, hpath⟩ := hb
    -- what is on a path from the start is one of the positions
    obtain ⟨d, hd⟩ := List.mem_iff_getElem?.1
      (mem_reversePostorder_iff.2 (hpath.reaches_of_mem (hall path hpath)))
    exact ⟨d, hd, (above_iff_dominatesAt h hi hd).2 hall⟩

end Table

end Digraph

namespace FlowGraph

/-- Dominators are exact. The loops of the algorithm come to an end: the ways up from two blocks come
together every time, and so do the rounds (`Digraph.Rounds`, which knows no bound). The table has a row
for exactly the blocks that can be reached over edges of any kind. Going up the table comes to an end, from
whatever block, and finds a block exactly when every path to the block it started at goes through it. -/
theorem dominators_exact (g : FlowGraph) (h : g.entry ∈ g.ids) :
    let order := g.reversePostorder
    Digraph.Rounds (g.digraph.predecessorRows order)
      ((List.replicate order.length none).set 0 (some 0)) (g.digraph.dominatorTable order) ∧
    (g.dominators.map (·.1)).Pairwise (· < ·) ∧
    (∀ b, b ∈ g.dominators.map (·.1) ↔ g.digraph.Reaches g.entry b) ∧
    (∀ a b, Digraph.Climb g.dominators a b (Digraph.dominates g.dominators a b)) ∧
    ∀ a b, g.digraph.Reaches g.entry b → (Digraph.dominates g.dominators a b = true ↔
      ∀ path, g.digraph.Path g.entry b path → a ∈ path) := by
  intro order
  refine ⟨Digraph.rounds_dominatorTable h, Digraph.pairwise_immediateDominators h, fun b => ?_,
    Digraph.climb_dominates h, fun a b hb => Digraph.dominates_iff h hb⟩
  rw [dominators, (Digraph.keys_immediateDominators h).mem_iff, Digraph.mem_reversePostorder_iff]

/-- A loop that is entered at both of its blocks, so neither of them dominates the other. -/
def crossing : FlowGraph where
  blocks := [⟨0, [], .branch (.refNull true) 1 2⟩, ⟨1, [], .goto 2⟩,
    ⟨2, [], .branch (.refNull true) 1 3⟩, ⟨3, [], .return⟩]
  entry := 0
  ranges := []
  jumps := []
  loops := []

/-- In a loop with two entries, neither of its blocks dominates the other. -/
theorem dominators_exact_crossing :
    crossing.entry ∈ crossing.ids ∧ crossing.dominators = [(0, 0), (1, 0), (2, 0), (3, 2)] ∧
      crossing.digraph.Reaches crossing.entry 3 ∧
      ∀ path, crossing.digraph.Path crossing.entry 3 path → 2 ∈ path := by
  have hentry : crossing.entry ∈ crossing.ids := by decide
  have hidoms : crossing.dominators = [(0, 0), (1, 0), (2, 0), (3, 2)] := by cbv
  obtain ⟨-, -, hkeys, -, hdominates⟩ := dominators_exact crossing hentry
  have hreach : crossing.digraph.Reaches crossing.entry 3 := by
    rw [← hkeys, hidoms]
    decide
  refine ⟨hentry, hidoms, hreach, (hdominates 2 3 hreach).1 ?_⟩
  rw [hidoms]
  decide

end FlowGraph

end JvmDecompiler
