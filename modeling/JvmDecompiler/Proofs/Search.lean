import JvmDecompiler.Digraph
import Mathlib.Tactic.Tauto

/-!
# What a depth-first search finds

`Digraph.reversePostorder` lists exactly the nodes that paths from the start lead to, each once, and
every node but the start behind one of its predecessors.

The search keeps a list of tasks, so what it still has to do is not the argument of a recursive call
but part of its state. `SearchInv` says what a state in the middle of a search looks like: a seen node
is done or waits to be left, and a successor of a seen node is seen or waits to be entered.
`SearchOrder` is about the order: what waits, waits in front of the leaving of a node that leads to it.
-/

namespace JvmDecompiler

namespace Digraph

variable {G : Digraph} {start a b : Nat}

/-- Some path leads from `a` to `b`. -/
def Reaches (G : Digraph) (a b : Nat) : Prop := ∃ p, G.Path a b p

/-- A path starts at a node. -/
theorem Path.source_mem {p : List Nat} (h : G.Path a b p) : a ∈ G.nodes := by
  cases h with
  | single ha => exact ha
  | cons ha _ _ => exact ha

/-- A path ends at a node. -/
theorem Path.target_mem {p : List Nat} (h : G.Path a b p) : b ∈ G.nodes := by
  induction h with
  | single ha => exact ha
  | cons _ _ _ ih => exact ih

/-- A path leads through nodes only. -/
theorem Path.mem_nodes {p : List Nat} (h : G.Path a b p) : ∀ x ∈ p, x ∈ G.nodes := by
  induction h with
  | single ha => exact List.forall_mem_singleton.2 ha
  | cons ha _ _ ih => exact List.forall_mem_cons.2 ⟨ha, ih⟩

/-- The start of a path is on it. -/
theorem Path.source_mem_path {p : List Nat} (h : G.Path a b p) : a ∈ p := by
  cases h <;> exact List.mem_cons_self

/-- The end of a path is on it. -/
theorem Path.target_mem_path {p : List Nat} (h : G.Path a b p) : b ∈ p := by
  induction h with
  | single => exact List.mem_cons_self
  | cons _ _ _ ih => exact List.mem_cons_of_mem _ ih

/-- A path can be continued by an edge. -/
theorem Path.snoc {c : Nat} {p : List Nat} (h : G.Path a b p) (hb : c ∈ G.next b) (hc : c ∈ G.nodes) :
    G.Path a c (p ++ [c]) := by
  induction h with
  | single ha => exact .cons ha hb (.single hc)
  | cons ha hn _ ih => exact .cons ha hn (ih hb)

/-- A path goes only through nodes that its beginning reaches. -/
theorem Path.reaches_of_mem {c : Nat} {p : List Nat} (h : G.Path a b p) (hc : c ∈ p) :
    G.Reaches a c := by
  induction h with
  | single ha =>
    obtain rfl := List.mem_singleton.1 hc
    exact ⟨_, .single ha⟩
  | cons ha hn _ ih =>
    rcases List.mem_cons.1 hc with rfl | hc
    · exact ⟨_, .single ha⟩
    · obtain ⟨q, hq⟩ := ih hc
      exact ⟨_, .cons ha hn hq⟩

/-- Every node reaches itself. -/
theorem Reaches.refl (ha : a ∈ G.nodes) : G.Reaches a a := ⟨[a], .single ha⟩

/-- What a node reaches can be followed by an edge. -/
theorem Reaches.tail {c : Nat} (h : G.Reaches a b) (hb : c ∈ G.next b) (hc : c ∈ G.nodes) :
    G.Reaches a c := by
  obtain ⟨p, hp⟩ := h
  exact ⟨p ++ [c], hp.snoc hb hc⟩

/-- What holds of the start of a path, and is passed on by every edge from a node that the start reaches,
holds of its end. -/
theorem Reaches.induction {P : Nat → Prop} (h : G.Reaches a b) (ha : P a)
    (hP : ∀ x y, G.Reaches a x → P x → y ∈ G.next x → y ∈ G.nodes → P y) : P b := by
  obtain ⟨path, hpath⟩ := h
  have key : ∀ {x y : Nat} {path : List Nat}, G.Path x y path → G.Reaches a x → P x → P y := by
    intro x y path hpath
    induction hpath with
    | single _ => exact fun _ hx => hx
    | cons _ hn hrest ih =>
      intro hreach hx
      exact ih (hreach.tail hn hrest.source_mem) (hP _ _ hreach hx hn hrest.source_mem)
  exact key hpath (.refl hpath.source_mem) ha

/-- A set that is closed under edges and holds the start of a path holds its end. -/
theorem Reaches.mem_of_closed {S : List Nat} (h : G.Reaches a b) (ha : a ∈ S)
    (hS : ∀ x ∈ S, ∀ y ∈ G.next x, y ∈ G.nodes → y ∈ S) : b ∈ S :=
  h.induction ha fun x y _ hx => hS x hx y

/-- A state in the middle of a search. -/
structure SearchInv (G : Digraph) (tasks : List Task) (seen done : List Nat) : Prop where
  seen_iff : ∀ x, x ∈ seen ↔ x ∈ done ∨ Task.leave x ∈ tasks
  next_seen : ∀ x ∈ seen, ∀ y ∈ G.next x, y ∈ G.nodes → y ∈ seen ∨ Task.enter y ∈ tasks

/-- Leaving a node finishes it. -/
theorem SearchInv.leave {tasks : List Task} {seen done : List Nat}
    (h : SearchInv G (.leave a :: tasks) seen done) : SearchInv G tasks seen (a :: done) where
  seen_iff x := by
    rw [h.seen_iff x]
    simp only [List.mem_cons, Task.leave.injEq]
    tauto
  next_seen x hx y hy hn := by
    have := h.next_seen x hx y hy hn
    simpa using this

/-- Entering a new node puts its neighbours in front of what is left to do, and its leaving behind them. -/
theorem SearchInv.enter_new {tasks : List Task} {seen done : List Nat}
    (h : SearchInv G (.enter a :: tasks) seen done) :
    SearchInv G ((G.next a).map .enter ++ .leave a :: tasks) (a :: seen) done where
  seen_iff x := by
    have := h.seen_iff x
    simp only [List.mem_cons, reduceCtorEq, false_or] at this
    simp only [List.mem_cons, List.mem_append, List.mem_map, Task.leave.injEq, reduceCtorEq,
      and_false, exists_const, false_or, this]
    tauto
  next_seen x hx y hy hn := by
    rcases List.mem_cons.1 hx with rfl | hx
    · exact .inr (List.mem_append_left _ (List.mem_map_of_mem hy))
    · rcases h.next_seen x hx y hy hn with hs | ht
      · exact .inl (List.mem_cons_of_mem _ hs)
      · rcases List.mem_cons.1 ht with he | ht
        · cases he
          exact .inl List.mem_cons_self
        · exact .inr (List.mem_append_right _ (List.mem_cons_of_mem _ ht))

/-- A node that has been seen is passed over. -/
theorem SearchInv.enter_old {tasks : List Task} {seen done : List Nat}
    (h : SearchInv G (.enter a :: tasks) seen done) (ha : ¬(a ∈ G.nodes ∧ a ∉ seen)) :
    SearchInv G tasks seen done where
  seen_iff x := by simpa using h.seen_iff x
  next_seen x hx y hy hn := by
    rcases h.next_seen x hx y hy hn with hs | ht
    · exact .inl hs
    · rcases List.mem_cons.1 ht with he | ht
      · cases he
        exact .inl (not_not.1 fun hs => ha ⟨hn, hs⟩)
      · exact .inr ht

/-- The successors of a new node are entered before the node is left. -/
theorem search_enter_new {tasks : List Task} {seen done : List Nat}
    (ha : a ∈ G.nodes ∧ a ∉ seen) : G.search (.enter a :: tasks) seen done =
      G.search ((G.next a).map .enter ++ .leave a :: tasks) (a :: seen) done := by
  rw [search, dif_pos ha]

/-- Induction on the steps of a search. -/
theorem search_induction {motive : List Task → List Nat → List Nat → Prop}
    (finished : ∀ seen done, motive [] seen done)
    (leave : ∀ a tasks seen done, motive tasks seen (a :: done) →
      motive (.leave a :: tasks) seen done)
    (enterNew : ∀ a tasks seen done, a ∈ G.nodes ∧ a ∉ seen →
      motive ((G.next a).map .enter ++ .leave a :: tasks) (a :: seen) done →
      motive (.enter a :: tasks) seen done)
    (enterOld : ∀ a tasks seen done, ¬(a ∈ G.nodes ∧ a ∉ seen) → motive tasks seen done →
      motive (.enter a :: tasks) seen done)
    (tasks : List Task) (seen done : List Nat) : motive tasks seen done := by
  induction tasks, seen, done using search.induct G with
  | case1 seen done => exact finished seen done
  | case2 a tasks seen done ih => exact leave a tasks seen done ih
  | case3 a tasks seen done ha _ ih =>
    exact enterNew a tasks seen done ha (List.attach_map_val (l := G.next a) (f := Task.enter) ▸ ih)
  | case4 a tasks seen done ha ih => exact enterOld a tasks seen done ha ih

/-- What a search finds holds what was done before, the nodes to be entered and, with a node, its
successors. -/
theorem SearchInv.search_closed {tasks : List Task} {seen done : List Nat}
    (h : SearchInv G tasks seen done) :
    (∀ x ∈ seen, x ∈ G.search tasks seen done) ∧
    (∀ x, Task.enter x ∈ tasks → x ∈ G.nodes → x ∈ G.search tasks seen done) ∧
    ∀ x ∈ G.search tasks seen done, ∀ y ∈ G.next x, y ∈ G.nodes → y ∈ G.search tasks seen done := by
  -- along the search: what is seen or to be entered is found in the end, and what is found has its neighbours
  -- found
  induction tasks, seen, done using search_induction (G := G) with
  | finished seen done =>
    rw [search]
    have hsd : ∀ x, x ∈ seen ↔ x ∈ done := by simpa using h.seen_iff
    refine ⟨fun x hx => (hsd x).1 hx, by simp, fun x hx y hy hn => ?_⟩
    rcases h.next_seen x ((hsd x).2 hx) y hy hn with hs | ht
    · exact (hsd y).1 hs
    · cases ht
  | leave a tasks seen done ih =>
    rw [search]
    obtain ⟨h1, h2, h3⟩ := ih h.leave
    refine ⟨h1, fun x hx => h2 x (by simpa using hx), h3⟩
  | enterNew a tasks seen done ha ih =>
    rw [search_enter_new ha]
    obtain ⟨h1, h2, h3⟩ := ih h.enter_new
    refine ⟨fun x hx => h1 x (List.mem_cons_of_mem _ hx), fun x hx hn => ?_, h3⟩
    rcases List.mem_cons.1 hx with he | hx
    · cases he
      exact h1 a List.mem_cons_self
    · exact h2 x (List.mem_append_right _ (List.mem_cons_of_mem _ hx)) hn
  | enterOld a tasks seen done ha ih =>
    rw [search, dif_neg ha]
    obtain ⟨h1, h2, h3⟩ := ih (h.enter_old ha)
    refine ⟨h1, fun x hx hn => ?_, h3⟩
    rcases List.mem_cons.1 hx with he | hx
    · cases he
      exact h1 a (not_not.1 fun hs => ha ⟨hn, hs⟩)
    · exact h2 x hx hn

/-- A search finds only what its tasks lead to. -/
theorem reaches_of_mem_search {tasks : List Task} {seen done : List Nat}
    (hd : ∀ x ∈ done, G.Reaches start x) (hl : ∀ x, Task.leave x ∈ tasks → G.Reaches start x)
    (he : ∀ x, Task.enter x ∈ tasks → x ∈ G.nodes → G.Reaches start x) :
    ∀ x ∈ G.search tasks seen done, G.Reaches start x := by
  -- along the search: the start reaches all that is finished, and all that any task is about
  induction tasks, seen, done using search_induction (G := G) with
  | finished seen done =>
    rw [search]
    exact hd
  | leave a tasks seen done ih =>
    rw [search]
    refine ih (fun x hx => ?_) (fun x hx => hl x (List.mem_cons_of_mem _ hx))
      fun x hx => he x (List.mem_cons_of_mem _ hx)
    rcases List.mem_cons.1 hx with rfl | hx
    · exact hl x List.mem_cons_self
    · exact hd x hx
  | enterNew a tasks seen done ha ih =>
    rw [search_enter_new ha]
    have hr : G.Reaches start a := he a List.mem_cons_self ha.1
    refine ih hd (fun x hx => ?_) fun x hx hn => ?_
    · simp only [List.mem_append, List.mem_map, reduceCtorEq, and_false, exists_const, false_or,
        List.mem_cons, Task.leave.injEq] at hx
      rcases hx with rfl | hx
      · exact hr
      · exact hl x (List.mem_cons_of_mem _ hx)
    · simp only [List.mem_append, List.mem_map, Task.enter.injEq, exists_eq_right, List.mem_cons,
        reduceCtorEq, false_or] at hx
      rcases hx with hx | hx
      · exact hr.tail hx hn
      · exact he x (List.mem_cons_of_mem _ hx) hn
  | enterOld a tasks seen done ha ih =>
    rw [search, dif_neg ha]
    exact ih hd (fun x hx => hl x (List.mem_cons_of_mem _ hx))
      fun x hx => he x (List.mem_cons_of_mem _ hx)

/-- A search that starts with one node to enter. -/
theorem searchInv_start (G : Digraph) (start : Nat) : SearchInv G [.enter start] [] [] where
  seen_iff x := by simp
  next_seen x hx := by cases hx

/-- The start is found. -/
theorem start_mem_reversePostorder (h : start ∈ G.nodes) : start ∈ G.reversePostorder start :=
  (searchInv_start G start).search_closed.2.1 start List.mem_cons_self h

/-- What a search finds is closed under the edges of the graph. -/
theorem next_mem_reversePostorder (ha : a ∈ G.reversePostorder start) (hb : b ∈ G.next a)
    (hn : b ∈ G.nodes) : b ∈ G.reversePostorder start :=
  (searchInv_start G start).search_closed.2.2 a ha b hb hn

/-- A search finds exactly the nodes that paths from its start lead to. -/
theorem mem_reversePostorder_iff : b ∈ G.reversePostorder start ↔ G.Reaches start b := by
  constructor
  · refine reaches_of_mem_search (by simp) (by simp) (fun x hx hn => ?_) b
    simp only [List.mem_cons, Task.enter.injEq, List.not_mem_nil, or_false] at hx
    exact hx ▸ .refl hn
  · intro h
    obtain ⟨p, hp⟩ := h
    exact Reaches.mem_of_closed ⟨p, hp⟩ (start_mem_reversePostorder hp.source_mem)
      fun x hx y hy hn => next_mem_reversePostorder hx hy hn


/-! ## The order of what is found -/

/-- The node that a task is about. -/
def Task.node : Task → Nat
  | .enter a => a
  | .leave a => a

/-- The node that a task leaves. -/
def Task.left? : Task → Option Nat
  | .enter _ => none
  | .leave a => some a

/-- A node is to be left if the task to leave it is there. -/
theorem Task.mem_filterMap_left? {tasks : List Task} :
    a ∈ tasks.filterMap Task.left? ↔ Task.leave a ∈ tasks := by
  rw [List.mem_filterMap]
  constructor
  · rintro ⟨task, ht, h⟩
    cases task with
    | enter b => cases h
    | leave b =>
      cases h
      exact ht
  · intro h
    exact ⟨.leave a, h, rfl⟩

/-- Every task but those for the start comes before the leaving of a node that leads to its node. -/
def Awaits (G : Digraph) (start : Nat) : List Task → Prop
  | [] => True
  | task :: tasks =>
    (task.node = start ∨ ∃ p, task.node ∈ G.next p ∧ Task.leave p ∈ tasks) ∧ Awaits G start tasks

/-- A state in the middle of a search, as to the order of what is found. -/
structure SearchOrder (G : Digraph) (start : Nat) (tasks : List Task) (done : List Nat) : Prop where
  nodup : (tasks.filterMap Task.left? ++ done).Nodup
  awaits : Awaits G start tasks
  behind : ∀ before x after, done = before ++ x :: after →
    x = start ∨ ∃ p, x ∈ G.next p ∧ (Task.leave p ∈ tasks ∨ p ∈ before)

/-- A node that is left comes before those that have been left. -/
theorem SearchOrder.leave {tasks : List Task} {done : List Nat}
    (h : SearchOrder G start (.leave a :: tasks) done) : SearchOrder G start tasks (a :: done) where
  nodup := by
    have := h.nodup
    simp only [List.filterMap_cons, Task.left?, List.cons_append] at this
    exact (List.perm_middle.nodup_iff).2 this
  awaits := h.awaits.2
  behind before x after hdone := by
    cases before with
    -- `a` itself: its task was waiting for a node that is still to be left
    | nil =>
      obtain ⟨rfl, -⟩ := List.cons.inj hdone
      obtain hs | ⟨p, hp, ht⟩ := h.awaits.1
      · exact .inl hs
      · exact .inr ⟨p, hp, .inl ht⟩
    | cons y before =>
      -- an earlier node: what it was waiting for may have been `a`
      obtain ⟨rfl, htail⟩ := List.cons.inj hdone
      obtain hs | ⟨p, hp, ht | hb⟩ := h.behind before x after htail
      · exact .inl hs
      · rcases List.mem_cons.1 ht with he | ht
        · cases he
          exact .inr ⟨a, hp, .inr List.mem_cons_self⟩
        · exact .inr ⟨p, hp, .inl ht⟩
      · exact .inr ⟨p, hp, .inr (List.mem_cons_of_mem _ hb)⟩

/-- The tasks that enter the successors of a node come before the one that leaves it. -/
private theorem awaits_enter_successors {tasks : List Task} (h : Awaits G start tasks)
    (ha : a = start ∨ ∃ p, a ∈ G.next p ∧ Task.leave p ∈ tasks) :
    ∀ successors : List Nat, (∀ b ∈ successors, b ∈ G.next a) →
      Awaits G start (successors.map .enter ++ .leave a :: tasks) := by
  intro successors
  induction successors with
  | nil => exact fun _ => ⟨ha, h⟩
  | cons b successors ih =>
    intro hb
    refine ⟨.inr ⟨a, hb b List.mem_cons_self, ?_⟩, ih fun c hc => hb c (List.mem_cons_of_mem _ hc)⟩
    exact List.mem_append_right _ List.mem_cons_self

/-- Entering a new node keeps the order of what is found. -/
theorem SearchOrder.enter_new {tasks : List Task} {seen done : List Nat}
    (h : SearchOrder G start (.enter a :: tasks) done)
    (hinv : SearchInv G (.enter a :: tasks) seen done) (ha : a ∉ seen) :
    SearchOrder G start ((G.next a).map .enter ++ .leave a :: tasks) done where
  nodup := by
    -- `a` is new, so it is neither to be left nor finished
    have hfresh : a ∉ tasks.filterMap Task.left? ++ done := by
      rw [List.mem_append, Task.mem_filterMap_left?]
      intro hmem
      refine ha ((hinv.seen_iff a).2 ?_)
      rcases hmem with ht | hd
      · exact .inr (List.mem_cons_of_mem _ ht)
      · exact .inl hd
    have hnone : ((G.next a).map Task.enter).filterMap Task.left? = [] := by
      rw [List.filterMap_map]
      exact List.filterMap_eq_nil_iff.2 fun _ _ => rfl
    rw [List.filterMap_append, hnone]
    exact List.nodup_cons.2 ⟨hfresh, h.nodup⟩
  awaits := awaits_enter_successors h.awaits.2 h.awaits.1 _ fun _ hb => hb
  behind before x after hdone := by
    obtain hs | ⟨p, hp, ht | hb⟩ := h.behind before x after hdone
    · exact .inl hs
    · have ht : Task.leave p ∈ tasks := by simpa using ht
      exact .inr ⟨p, hp, .inl (List.mem_append_right _ (List.mem_cons_of_mem _ ht))⟩
    · exact .inr ⟨p, hp, .inr hb⟩

/-- Passing over a node keeps the order of what is found. -/
theorem SearchOrder.enter_old {tasks : List Task} {done : List Nat}
    (h : SearchOrder G start (.enter a :: tasks) done) : SearchOrder G start tasks done where
  nodup := h.nodup
  awaits := h.awaits.2
  behind before x after hdone := by
    obtain hs | ⟨p, hp, ht | hb⟩ := h.behind before x after hdone
    · exact .inl hs
    · exact .inr ⟨p, hp, .inl (by simpa using ht)⟩
    · exact .inr ⟨p, hp, .inr hb⟩

/-- At the end of a search nothing waits any more. -/
theorem SearchOrder.search {tasks : List Task} {seen done : List Nat}
    (h : SearchOrder G start tasks done) (hinv : SearchInv G tasks seen done) :
    SearchOrder G start [] (G.search tasks seen done) := by
  induction tasks, seen, done using search_induction (G := G) with
  | finished seen done =>
    rw [Digraph.search]
    exact h
  | leave a tasks seen done ih =>
    rw [Digraph.search]
    exact ih h.leave hinv.leave
  | enterNew a tasks seen done ha ih =>
    rw [search_enter_new ha]
    exact ih (h.enter_new hinv ha.2) hinv.enter_new
  | enterOld a tasks seen done ha ih =>
    rw [Digraph.search, dif_neg ha]
    exact ih h.enter_old (hinv.enter_old ha)

/-- At the start nothing has been found. -/
theorem searchOrder_start (G : Digraph) (start : Nat) : SearchOrder G start [.enter start] [] where
  nodup := List.nodup_nil
  awaits := ⟨.inl rfl, trivial⟩
  behind before x after h := by simp at h

/-- At the end nothing is left to do, and what has been found is in order. -/
private theorem searchOrder_reversePostorder (G : Digraph) (start : Nat) :
    SearchOrder G start [] (G.reversePostorder start) :=
  (searchOrder_start G start).search (searchInv_start G start)

/-- A search finds no node twice. -/
theorem nodup_reversePostorder (G : Digraph) (start : Nat) : (G.reversePostorder start).Nodup :=
  (searchOrder_reversePostorder G start).nodup

/-- In reverse postorder every node but the start is behind one of its predecessors. -/
theorem exists_next_before {before after : List Nat}
    (h : G.reversePostorder start = before ++ a :: after) (ha : a ≠ start) :
    ∃ p ∈ before, a ∈ G.next p := by
  obtain hs | ⟨p, hp, ht | hb⟩ := (searchOrder_reversePostorder G start).behind before a after h
  · exact absurd hs ha
  · cases ht
  · exact ⟨p, hb, hp⟩

end Digraph

end JvmDecompiler
