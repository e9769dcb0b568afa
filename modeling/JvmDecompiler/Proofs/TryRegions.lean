import JvmDecompiler.Proofs.NaturalLoops
import JvmDecompiler.Structuring.TryRegion
import Mathlib.Data.Finset.Dedup
import Mathlib.Data.List.Perm.Basic

/-!
# The rows of an exception table in try statements

An exception table is grouped twice: its rows by their handlers, and the handlers by the widest of the ranges
that start first. `TryRegion.handlerRows` takes a statement apart again into its handlers, each with the range
of the statement. What comes out of all statements is what the first grouping has made of the rows
(`TryRegion.handlerRows_ofRanges`), so no handler is lost and none is there twice.

What a clause catches is what its rows catch, with one exception: a row for all exceptions adds no class, so it
is forgotten where another row of the same handler names one (`TryRegion.grouping_exact`).
-/

namespace JvmDecompiler

namespace TryRegion

variable {ranges rows : List ProtectedRange} {regions : List TryRegion} {r s : TryRegion} {h : HandlerRows}

/-- The rows of an exception table that lead to a handler. -/
def rowsOf (ranges : List ProtectedRange) (handler : Address) : List ProtectedRange :=
  ranges.filter (·.handler = handler)

/-- The handlers of a statement with the classes that they catch, and the handler of the `finally` part, which
names no class. -/
def clauses (r : TryRegion) : List (BlockId × List String) := r.catches ++ r.finally?.toList.map (·, [])

/-- A statement starts first, or at the same place and ends later. -/
def Outside (r s : TryRegion) : Prop := r.start < s.start ∨ r.start = s.start ∧ s.stop < r.stop

/-- The widest of the ranges that start first among those of some rows. -/
structure Widest (rows : List ProtectedRange) (start stop : Address) : Prop where
  row : ∃ row ∈ rows, row.start = start ∧ row.stop = stop
  first : ∀ row ∈ rows, start < row.start ∨ start = row.start ∧ row.stop ≤ stop

/-- The exceptions that are caught: those of some classes, or all of them. -/
inductive Caught where
  | classes (names : Finset String)
  | everything
  deriving DecidableEq

/-- What rows of an exception table catch together. -/
def Caught.ofRows (rows : List ProtectedRange) : Caught :=
  if rows.any (·.catchesAll) then .everything else .classes (rows.filterMap (·.catchType)).toFinset

/-- What a clause catches. Without classes it takes every exception. -/
def Caught.ofClasses (names : List String) : Caught :=
  if names.isEmpty then .everything else .classes names.toFinset

/-! ## The rows of one handler -/

/-- What the rows of one handler come to. -/
structure HandlerRows.Sums (h : HandlerRows) (rows : List ProtectedRange) : Prop where
  widest : Widest rows h.start h.stop
  nodup : h.classes.Nodup
  named : ∀ c, c ∈ h.classes ↔ ∃ row ∈ rows, row.catchType = some c

/-- A range comes first if it starts first, or at the same place and ends later. -/
theorem precedes_iff {a b : BlockId × BlockId} : precedes a b = true ↔ a.1 < b.1 ∨ a.1 = b.1 ∧ b.2 < a.2 := by
  simp [precedes]

/-- A row more gives the widest range of all, be it that of the row or that of the others. -/
theorem Widest.add {start stop : Address} (hw : Widest rows start stop) (row : ProtectedRange) :
    if precedes (row.start, row.stop) (start, stop) then Widest (rows ++ [row]) row.start row.stop
    else Widest (rows ++ [row]) start stop := by
  obtain ⟨⟨first, hfirst, rfl, rfl⟩, hall⟩ := hw
  split <;> rename_i hprecedes <;> rw [precedes_iff] at hprecedes <;> dsimp only at hprecedes
  · refine ⟨⟨row, by simp, rfl, rfl⟩, fun other hother => ?_⟩
    rcases List.mem_append.1 hother with hother | hother
    · have hother := hall other hother
      grind
    · obtain rfl := List.mem_singleton.1 hother
      exact .inr ⟨rfl, Nat.le_refl _⟩
  · refine ⟨⟨first, List.mem_append_left _ hfirst, rfl, rfl⟩, fun other hother => ?_⟩
    rcases List.mem_append.1 hother with hother | hother
    · exact hall other hother
    · obtain rfl := List.mem_singleton.1 hother
      grind

/-- One more row is taken into account. -/
theorem HandlerRows.Sums.add (hs : h.Sums rows) (row : ProtectedRange) : (h.add row).Sums (rows ++ [row]) := by
  -- a class more, or the one that has no class
  have hnamed : ∀ {names : List String}, (∀ c, c ∈ names ↔ c ∈ h.classes ∨ row.catchType = some c) →
      ∀ c, c ∈ names ↔ ∃ r ∈ rows ++ [row], r.catchType = some c := fun hnames c => by
    rw [hnames, hs.named]
    simp [or_and_right, exists_or]
  refine ⟨?_, ?_, ?_⟩
  · have hadd := hs.widest.add row
    unfold HandlerRows.add
    dsimp only
    split at hadd <;> rename_i hprecedes
    · rwa [if_pos hprecedes]
    · rwa [if_neg hprecedes]
  · unfold HandlerRows.add
    dsimp only
    split
    · split
      · exact hs.nodup
      · rename_i c _ hc
        exact List.nodup_append.2 ⟨hs.nodup, List.nodup_singleton c, fun a ha b hb heq => hc (by simp_all)⟩
    · exact hs.nodup
  · unfold HandlerRows.add
    dsimp only
    split
    · rename_i c hc
      split
      · rename_i hmem
        exact hnamed fun d => by grind
      · exact hnamed fun d => by grind
    · rename_i hnone
      exact hnamed fun d => by simp [hnone]

/-- Rows that are added one after the other sum up. -/
theorem HandlerRows.sums_foldl (hs : h.Sums rows) (more : List ProtectedRange) :
    (more.foldl HandlerRows.add h).Sums (rows ++ more) ∧ (more.foldl HandlerRows.add h).handler = h.handler := by
  induction more generalizing h rows with
  | nil => simpa using hs
  | cons row more ih =>
    obtain ⟨hsums, hhandler⟩ := ih (hs.add row)
    rw [List.append_cons]
    exact ⟨hsums, hhandler⟩

/-- The first row on its own. -/
theorem HandlerRows.sums_singleton (handler : Address) (row : ProtectedRange) :
    (⟨handler, row.start, row.stop, row.catchType.toList⟩ : HandlerRows).Sums [row] := by
  refine ⟨⟨⟨row, List.mem_singleton_self row, rfl, rfl⟩, fun other hother => ?_⟩, ?_, fun c => ?_⟩
  · obtain rfl := List.mem_singleton.1 hother
    exact .inr ⟨rfl, Nat.le_refl _⟩
  · cases row.catchType <;> simp
  · simp

/-- The rows of a table that lead to a handler, taken together. -/
def group? (ranges : List ProtectedRange) (handler : Address) : Option HandlerRows :=
  match rowsOf ranges handler with
  | first :: rest => some (rest.foldl HandlerRows.add ⟨handler, first.start, first.stop, first.catchType.toList⟩)
  | [] => none

/-- Every handler has its rows taken together. -/
theorem exists_group {handler : Address} (hmem : handler ∈ ranges.map (·.handler)) :
    ∃ h, group? ranges handler = some h ∧ h.handler = handler ∧ h.Sums (rowsOf ranges handler) := by
  obtain ⟨row, hrow, rfl⟩ := List.mem_map.1 hmem
  have hrow : row ∈ rowsOf ranges row.handler := List.mem_filter.2 ⟨hrow, decide_eq_true rfl⟩
  obtain ⟨first, rest, hrows⟩ := List.exists_cons_of_ne_nil (List.ne_nil_of_mem hrow)
  obtain ⟨hsums, hhandler⟩ := HandlerRows.sums_foldl (HandlerRows.sums_singleton row.handler first) rest
  exact ⟨_, by rw [group?, hrows], hhandler, hrows ▸ hsums⟩

/-- The handlers of a table are those of its rows, in increasing order, and each has all its rows. -/
theorem groupRows_spec (ranges : List ProtectedRange) :
    (groupRows ranges).map (·.handler) = sortedSet (ranges.map (·.handler)) ∧
      ∀ h ∈ groupRows ranges, h.Sums (rowsOf ranges h.handler) := by
  have hgroups : groupRows ranges = (sortedSet (ranges.map (·.handler))).filterMap (group? ranges) := rfl
  have hgroup := fun handler (hmem : handler ∈ sortedSet (ranges.map (·.handler))) =>
    exists_group (mem_sortedSet.1 hmem)
  rw [hgroups]
  generalize sortedSet (ranges.map (·.handler)) = handlers at hgroup
  induction handlers with
  | nil => exact ⟨rfl, nofun⟩
  | cons handler handlers ih =>
    obtain ⟨⟨h, hh, hhandler, hsums⟩, hrest⟩ := List.forall_mem_cons.1 hgroup
    obtain ⟨hmap, hall⟩ := ih hrest
    rw [List.filterMap_cons_some hh]
    exact ⟨by rw [List.map_cons, hhandler, hmap], List.forall_mem_cons.2 ⟨hhandler ▸ hsums, hall⟩⟩

/-! ## The handlers of one range -/

/-- The handlers of a statement, each with the range of the statement. -/
def handlerRows (r : TryRegion) : List HandlerRows := r.clauses.map fun (handler, classes) =>
  ⟨handler, r.start, r.stop, classes⟩

/-- A statement that takes a handler in has one handler more. -/
theorem handlerRows_add (hstart : r.start = h.start) (hstop : r.stop = h.stop) :
    (r.add h).handlerRows.Perm (h :: r.handlerRows) := by
  unfold handlerRows add
  split
  · rename_i hfinal
    simp only [Bool.and_eq_true, List.isEmpty_iff, Option.isNone_iff_eq_none] at hfinal
    obtain ⟨hclasses, hnone⟩ := hfinal
    have hh : (⟨h.handler, r.start, r.stop, []⟩ : HandlerRows) = h := by rw [hstart, hstop, ← hclasses]
    simp [clauses, hnone, hh, List.perm_append_singleton]
  · have hh : (⟨h.handler, r.start, r.stop, h.classes⟩ : HandlerRows) = h := by rw [hstart, hstop]
    simp only [clauses, List.map_append, List.append_assoc, List.map_cons, List.map_nil, hh]
    exact List.perm_middle

/-- To insert a handler among statements adds it to their handlers. -/
theorem handlerRows_insert (h : HandlerRows) (regions : List TryRegion) :
    ((insert h regions).flatMap handlerRows).Perm (h :: regions.flatMap handlerRows) := by
  have hnew : ((⟨h.start, h.stop, [], none⟩ : TryRegion).add h).handlerRows.Perm [h] := handlerRows_add rfl rfl
  induction regions with
  | nil => simpa [insert] using hnew
  | cons r rest ih =>
    unfold insert
    split
    · rename_i hsame
      simp only [Bool.and_eq_true, decide_eq_true_eq] at hsame
      exact (handlerRows_add hsame.1 hsame.2).append_right _
    · split
      · exact hnew.append_right _
      · rw [List.flatMap_cons, List.flatMap_cons]
        exact (ih.append_left _).trans List.perm_middle

/-- Taken apart, the statements of a table are the handlers with their rows. -/
theorem handlerRows_ofRanges (ranges : List ProtectedRange) :
    ((ofRanges ranges).flatMap handlerRows).Perm (groupRows ranges) := by
  suffices hfold : ∀ (groups : List HandlerRows) (regions : List TryRegion),
      ((groups.foldl (fun regions h => insert h regions) regions).flatMap handlerRows).Perm
        (regions.flatMap handlerRows ++ groups) from hfold (groupRows ranges) []
  intro groups
  induction groups with
  | nil => intro regions; simp
  | cons h groups ih =>
    intro regions
    exact (ih (insert h regions)).trans (((handlerRows_insert h regions).append_right _).trans List.perm_middle.symm)

/-! ## The order of statements -/

/-- A statement that takes a handler in keeps its range. -/
theorem range_add (r : TryRegion) (h : HandlerRows) : (r.add h).start = r.start ∧ (r.add h).stop = r.stop := by
  unfold add
  split <;> exact ⟨rfl, rfl⟩

/-- A statement with a new range is put behind those outside it and in front of those inside it. -/
theorem range_of_mem_insert (hr : r ∈ insert h regions) :
    (r.start = h.start ∧ r.stop = h.stop) ∨ ∃ s ∈ regions, r.start = s.start ∧ r.stop = s.stop := by
  -- the handler joins the first statement of its range, or becomes a statement in front of all that it contains
  induction regions with
  | nil =>
    obtain rfl := List.mem_singleton.1 hr
    exact .inl (range_add _ _)
  | cons s rest ih =>
    have hrest : r ∈ rest → ∃ s' ∈ s :: rest, r.start = s'.start ∧ r.stop = s'.stop := fun hr =>
      ⟨r, List.mem_cons_of_mem _ hr, rfl, rfl⟩
    unfold insert at hr
    split at hr
    · rcases List.mem_cons.1 hr with rfl | hr
      · exact .inr ⟨s, List.mem_cons_self, range_add s h⟩
      · exact .inr (hrest hr)
    · split at hr
      · rcases List.mem_cons.1 hr with rfl | hr
        · exact .inl (range_add _ _)
        · exact .inr ⟨r, hr, rfl, rfl⟩
      · rcases List.mem_cons.1 hr with rfl | hr
        · exact .inr ⟨r, List.mem_cons_self, rfl, rfl⟩
        · exact (ih hr).imp_right fun ⟨s', hs', heq⟩ => ⟨s', List.mem_cons_of_mem _ hs', heq⟩

/-- Statements stay in order, the outer ones first, when a handler is inserted. -/
theorem pairwise_insert (h : HandlerRows) (hp : regions.Pairwise Outside) : (insert h regions).Pairwise Outside := by
  induction regions with
  | nil => exact List.pairwise_singleton _ _
  | cons r rest ih =>
    obtain ⟨hr, hrest⟩ := List.pairwise_cons.1 hp
    unfold insert
    split
    -- it joins `r`, which keeps its range
    · refine List.pairwise_cons.2 ⟨fun s hs => ?_, hrest⟩
      have hout := hr s hs
      rwa [Outside, (range_add r h).1, (range_add r h).2]
    · rename_i hother
      simp only [Bool.and_eq_true, decide_eq_true_eq, not_and] at hother
      split <;> rename_i hprecedes <;> rw [precedes_iff] at hprecedes <;> dsimp only at hprecedes
      · obtain ⟨hstart, hstop⟩ := range_add (⟨h.start, h.stop, [], none⟩ : TryRegion) h
        refine List.pairwise_cons.2 ⟨List.forall_mem_cons.2 ⟨?_, fun s hs => ?_⟩, hp⟩
        · rw [Outside, hstart, hstop]
          exact hprecedes
        · have hout := hr s hs
          rw [Outside] at hout ⊢
          rw [hstart, hstop]
          grind
      · refine List.pairwise_cons.2 ⟨fun s hs => ?_, ih hrest⟩
        rcases range_of_mem_insert hs with ⟨hstart, hstop⟩ | ⟨s', hs', hstart, hstop⟩
        · rw [Outside, hstart, hstop]
          grind
        · have hout := hr s' hs'
          rwa [Outside, hstart, hstop]

/-- The statements of an exception table are in order, the outer ones first. -/
theorem pairwise_ofRanges (ranges : List ProtectedRange) : (ofRanges ranges).Pairwise Outside :=
  List.foldlRecOn (motive := fun regions : List TryRegion => regions.Pairwise Outside) (groupRows ranges) _ .nil
    fun _ hp h _ => pairwise_insert h hp

/-! ## What clauses catch -/

/-- A clause catches what its rows catch, unless one of them takes all exceptions and another one names a
class. -/
theorem HandlerRows.Sums.caught_iff (hs : h.Sums rows) : Caught.ofClasses h.classes = Caught.ofRows rows ↔
    ((∃ row ∈ rows, row.catchesAll = true) → ∀ row ∈ rows, row.catchesAll = true) := by
  -- without classes a clause takes every exception
  have hunnamed : h.classes = [] ↔ ∀ row ∈ rows, row.catchesAll = true := by
    simp only [List.eq_nil_iff_forall_not_mem, hs.named, ProtectedRange.catchesAll, Option.isNone_iff_eq_none,
      Option.eq_none_iff_forall_ne_some]
    grind
  have hfinset : h.classes.toFinset = (rows.filterMap (·.catchType)).toFinset := by
    ext c
    simp [hs.named]
  obtain ⟨first, hfirst, -⟩ := hs.widest.row
  rw [Caught.ofClasses, Caught.ofRows]
  by_cases hall : ∀ row ∈ rows, row.catchesAll = true
  · rw [hunnamed.2 hall, if_pos (List.any_eq_true.2 ⟨first, hfirst, hall first hfirst⟩)]
    exact iff_of_true rfl fun _ => hall
  have hsome : h.classes.isEmpty = false := by
    rw [← Bool.not_eq_true, List.isEmpty_iff, hunnamed]
    exact hall
  rw [hsome, if_neg Bool.false_ne_true, hfinset]
  -- a catch-all row among rows with classes is what makes the difference
  by_cases hany : ∃ row ∈ rows, row.catchesAll = true
  · rw [if_pos (List.any_eq_true.2 hany)]
    exact iff_of_false nofun fun hboth => hall (hboth hany)
  · rw [if_neg (mt List.any_eq_true.1 hany)]
    exact iff_of_true rfl fun hrow => absurd hrow hany

/-- Every handler of an exception table is in one try statement, once; the statement has the widest of the ranges
that start first among those of the handler, and outer statements come first. The clause of the handler names
the classes of its rows, each once. It catches what the rows catch exactly if they all take every exception or
none of them does. -/
theorem grouping_exact (ranges : List ProtectedRange) :
    (ofRanges ranges).Pairwise Outside ∧
    (((ofRanges ranges).flatMap clauses).map (·.1)).Nodup ∧
    (∀ handler, handler ∈ ((ofRanges ranges).flatMap clauses).map (·.1) ↔
      ∃ row ∈ ranges, row.handler = handler) ∧
    ∀ r ∈ ofRanges ranges, ∀ handler classes, (handler, classes) ∈ r.clauses →
      Widest (rowsOf ranges handler) r.start r.stop ∧
      classes.Nodup ∧
      (∀ c, c ∈ classes ↔ ∃ row ∈ rowsOf ranges handler, row.catchType = some c) ∧
      (Caught.ofClasses classes = Caught.ofRows (rowsOf ranges handler) ↔
        ((∃ row ∈ rowsOf ranges handler, row.catchesAll = true) →
          ∀ row ∈ rowsOf ranges handler, row.catchesAll = true)) := by
  obtain ⟨hhandlers, hsums⟩ := groupRows_spec ranges
  have hperm := handlerRows_ofRanges ranges
  have hfirst : (((ofRanges ranges).flatMap clauses).map (·.1)).Perm (sortedSet (ranges.map (·.handler))) := by
    have hmap : ((ofRanges ranges).flatMap clauses).map (·.1) =
        ((ofRanges ranges).flatMap handlerRows).map (·.handler) := by
      simp [List.map_flatMap, handlerRows, Function.comp_def]
    rw [hmap, ← hhandlers]
    exact hperm.map _
  refine ⟨pairwise_ofRanges ranges, ?_, fun handler => ?_, fun r hr handler classes hclause => ?_⟩
  · exact hfirst.nodup_iff.2 ((pairwise_sortedSet _).imp Nat.ne_of_lt)
  · rw [hfirst.mem_iff, mem_sortedSet, List.mem_map]
  · have hmem : (⟨handler, r.start, r.stop, classes⟩ : HandlerRows) ∈ groupRows ranges :=
      hperm.mem_iff.1 (List.mem_flatMap.2 ⟨r, hr, List.mem_map_of_mem hclause⟩)
    have hsum := hsums _ hmem
    exact ⟨hsum.widest, hsum.nodup, hsum.named, hsum.caught_iff⟩

/-- A handler for the exceptions of one class and, by a second row, for all others. -/
def mixedRows : List ProtectedRange := [⟨0, 3, 6, some "E"⟩, ⟨0, 3, 6, none⟩]

/-- Its clause names the class and does not catch what the second row catches. -/
theorem not_caught_by_clause :
    (ofRanges mixedRows).flatMap clauses = [(6, ["E"])] ∧
      Caught.ofRows (rowsOf mixedRows 6) = .everything ∧ Caught.ofClasses ["E"] ≠ .everything := by
  exact ⟨by cbv, by decide, by decide⟩

end TryRegion

end JvmDecompiler
