import JvmDecompiler.Proofs.JumpScope
import JvmDecompiler.Proofs.SameCode

/-!
# Removing copies of `finally` code

A copy of `finally` code is a group of statements that stand one behind the other in a list, labels aside,
and are equal to the code once positions are forgotten (`IsCopy`), which is to say that they are the same code
(`isCopy_normalize_iff`). What goes from a list are groups in front
of exits that stay, and one at the end of the list where control leaves it there; all else stays in its
order, labels among it (`CopiesDeleted`, `Stripped`). Which groups go is settled from the end of a list to
its front, and by this alone, so that the relations leave no choice.

The groups can be found by the positions of statements in the list from which they are removed
(`stripInPlace?`): the positions are computed once, and each removal moves what stands behind it. As the
positions that are still to come are all in front of it, they stay right, and no position is ever out of
range. That is what the lemmas on `front ++ group ++ back` say, where `front` is the part of the list that has
not been looked at.
-/

namespace JvmDecompiler

open Stmt

variable {pattern front group body kept : List Stmt} {s : Stmt}

/-! ## Lists inside statements -/

/-- Change the statement lists inside a statement. A label is looked through. -/
def Stmt.mapLists (f : List Stmt → List Stmt) : Stmt → Stmt
  | block body => block (f body)
  | ifElse condition a b => ifElse condition (f a) (f b)
  | whileLoop condition body => whileLoop condition (f body)
  | doWhile body condition => doWhile (f body) condition
  | forLoop init condition update body => forLoop (f init) condition (f update) (f body)
  | forEach var iterable body => forEach var iterable (f body)
  | switch key cases => switch key (cases.map fun c => { c with body := f c.body })
  | tryCatch body catches finallyBody =>
    tryCatch (f body) (catches.map fun c => { c with body := f c.body }) (finallyBody.map f)
  | synchronized object body => synchronized object (f body)
  | labeled name body => labeled name (body.mapLists f)
  | s => s

/-- Inside a statement, copies are removed from each list on its own. -/
theorem stripInside_eq (pattern : List Stmt) (s : Stmt) :
    stripInside pattern s = s.mapLists (stripCopies pattern false) := by
  match s with
  | .labeled name s => rw [stripInside, mapLists, stripInside_eq pattern s]
  | .switch key cases => simp [stripInside, mapLists, stripCases_eq_map, stripCopies]
  | .tryCatch body catches finallyBody =>
    cases finallyBody <;> simp [stripInside, mapLists, stripCatches_eq_map, stripFinally, stripCopies]
  | .simple _ | .block _ | .declaration .. | .ifElse .. | .whileLoop .. | .doWhile .. | .forLoop ..
  | .forEach .. | .synchronized .. | .label _ | .breakTo _ | .continueTo _ | .gotoLabel _
  | .comment _ => simp [stripInside, mapLists, stripCopies]

/-! ## Copies -/

/-- A part of a list, labels in it aside, is a copy of the pattern. -/
structure IsCopy (pattern group : List Stmt) : Prop where
  length : (codeOf group).length = pattern.length
  same : equalList (normalize (codeOf group)) pattern = true

/-- The copies of some code are what is the same code. -/
theorem isCopy_normalize_iff {code : List Stmt} : IsCopy (normalize code) group ↔ SameBody group code := by
  have hgroup : normalize (codeOf group) = normalize group := by
    simp [normalize_eq_map, codeOf, List.filter_filter]
  constructor
  · intro h
    rw [← equalList_normalize_iff, ← hgroup]
    exact h.same
  · intro h
    have hcode := (upToLabels_iff fun _ _ h => h.isLabel_eq).1 h
    refine ⟨?_, ?_⟩
    · rw [normalize_eq_map, List.length_map, hcode.length_eq]
    · rw [hgroup]
      exact (equalList_normalize_iff group code).2 h

/-- The list ends with a copy of the pattern. -/
def EndsWithCopy (pattern body : List Stmt) : Prop :=
  ∃ front group, body = front ++ group ∧ IsCopy pattern group

/-- What two lists do is what the one does and then the other. -/
theorem codeOf_append (a b : List Stmt) : codeOf (a ++ b) = codeOf a ++ codeOf b := List.filter_append a b

/-- Labels can be left out before a list is read backwards, or after. -/
theorem codeOf_reverse (body : List Stmt) : codeOf body.reverse = (codeOf body).reverse := List.filter_reverse

/-- A statement that is no label adds none. -/
theorem labels_cons_code (hs : s.isLabel = false) : (s :: body).filter isLabel = body.filter isLabel :=
  List.filter_cons_of_neg (by simp [hs])

/-- The last statements that are no labels, as many as there are, are in a part of their own at the end. -/
theorem exists_suffix_of_le {n : Nat} (h : n ≤ (codeOf body).length) :
    ∃ front group, body = front ++ group ∧ (codeOf group).length = n := by
  induction body with
  | nil => exact ⟨[], [], rfl, (Nat.le_zero.1 h).symm⟩
  | cons s rest ih =>
    rcases Nat.lt_or_ge (codeOf rest).length n with hlt | hle
    · refine ⟨[], s :: rest, rfl, ?_⟩
      cases hs : s.isLabel with
      | true => rw [codeOf_cons_label hs] at h ⊢; omega
      | false => rw [codeOf_cons_code hs, List.length_cons] at h ⊢; omega
    · obtain ⟨front, group, rfl, hgroup⟩ := ih hle
      exact ⟨s :: front, group, rfl, hgroup⟩

/-- How a list is cut in front of its last statements that are no labels does not matter. -/
theorem endsWithCopy_append (front : List Stmt) (hlength : (codeOf group).length = pattern.length) :
    EndsWithCopy pattern (front ++ group) ↔ equalList (normalize (codeOf group)) pattern = true := by
  constructor
  · rintro ⟨front', group', heq, hcopy⟩
    have hcode := congrArg codeOf heq
    rw [codeOf_append, codeOf_append] at hcode
    rw [(List.append_inj' hcode (hlength.trans hcopy.length.symm)).2]
    exact hcopy.same
  · exact fun hsame => ⟨front, group, rfl, hlength, hsame⟩

/-- The test on the list that is given backwards. -/
theorem endsWithCopy_reverse : endsWithCopy pattern body.reverse = true ↔ EndsWithCopy pattern body := by
  have hlast : ∀ front group : List Stmt, (codeOf group).length = pattern.length →
      ((codeOf (front ++ group).reverse).take pattern.length).reverse = codeOf group := by
    intro front group hlength
    rw [codeOf_reverse, List.take_reverse, List.reverse_reverse, codeOf_append, List.length_append, hlength,
      Nat.add_sub_cancel, List.drop_left]
  rw [endsWithCopy, Bool.and_eq_true, decide_eq_true_iff]
  constructor
  · rintro ⟨hle, hsame⟩
    rw [codeOf_reverse, List.length_reverse] at hle
    obtain ⟨front, group, rfl, hlength⟩ := exists_suffix_of_le hle
    rw [hlast front group hlength] at hsame
    exact (endsWithCopy_append front hlength).2 hsame
  · rintro ⟨front, group, rfl, hlength, hsame⟩
    rw [hlast front group hlength, codeOf_reverse, List.length_reverse, codeOf_append, List.length_append]
    exact ⟨by omega, hsame⟩

/-! ## What is deleted from a list -/

/-- Copies of the pattern are deleted from a list. Read from the end of the list: an exit that stays takes
the copy with it that stands directly in front of it, if there is one; everything else stays, the labels
among the statements of a copy included. -/
inductive CopiesDeleted (pattern : List Stmt) : List Stmt → List Stmt → Prop
  | nil : CopiesDeleted pattern [] []
  | keep {body kept : List Stmt} {s : Stmt} (h : exitsTry s = true → ¬EndsWithCopy pattern body)
      (front : CopiesDeleted pattern body kept) : CopiesDeleted pattern (body ++ [s]) (kept ++ [s])
  | delete {body kept group : List Stmt} {exit : Stmt} (h : exitsTry exit = true)
      (copy : IsCopy pattern group) (front : CopiesDeleted pattern body kept) :
      CopiesDeleted pattern (body ++ group ++ [exit]) (kept ++ group.filter isLabel ++ [exit])

/-- Whether the last statement of a list is a jump. -/
def endsInJump (body : List Stmt) : Bool := (codeOf body).getLast?.any isJump

/-- Copies of the pattern are deleted from a list, the one at its end included if that is asked for and
control gets there. -/
inductive Stripped (pattern : List Stmt) (atEnd : Bool) : List Stmt → List Stmt → Prop
  | tail {body kept group : List Stmt} (h : atEnd = true) (hjump : endsInJump (body ++ group) = false)
      (copy : IsCopy pattern group) (front : CopiesDeleted pattern body kept) :
      Stripped pattern atEnd (body ++ group) (kept ++ group.filter isLabel)
  | noTail {body kept : List Stmt}
      (h : atEnd = true → endsInJump body = false → ¬EndsWithCopy pattern body)
      (front : CopiesDeleted pattern body kept) : Stripped pattern atEnd body kept

/-- A list is built from its front as copies are deleted from it. -/
theorem exitInduction (pattern : List Stmt) {motive : List Stmt → Prop} (nil : motive [])
    (keep : ∀ body s, (exitsTry s = true → ¬EndsWithCopy pattern body) → motive body →
      motive (body ++ [s]))
    (delete : ∀ body group s, exitsTry s = true → IsCopy pattern group → motive body →
      motive (body ++ group ++ [s]))
    (body : List Stmt) : motive body := by
  induction hn : body.length using Nat.strongRecOn generalizing body with
  | ind n ih =>
    rcases List.eq_nil_or_concat' body with rfl | ⟨front, s, rfl⟩
    · exact nil
    rw [List.length_append, List.length_singleton] at hn
    by_cases h : exitsTry s = true ∧ EndsWithCopy pattern front
    · obtain ⟨hexit, front, group, rfl, hcopy⟩ := h
      refine delete front group s hexit hcopy (ih front.length ?_ front rfl)
      rw [List.length_append] at hn
      omega
    · exact keep front s (fun hexit hcopy => h ⟨hexit, hcopy⟩) (ih front.length (by omega) front rfl)

/-! ## Deleting from the end of a list -/

section Reversed

variable {skip : Nat} {stays : Stmt} {rest : List (Stmt × Stmt)}

/-- A label is no exit. -/
theorem exitsTry_of_isLabel (hs : s.isLabel = true) : exitsTry s = false := by
  cases s <;> first | rfl | cases hs

/-- A label stays, and is not counted among what is skipped. -/
theorem removeCopies_label (hs : s.isLabel = true) :
    removeCopies pattern skip ((s, stays) :: rest) = stays :: removeCopies pattern skip rest := by
  cases skip <;> simp only [removeCopies, hs, if_true]

/-- While statements are skipped, one that is no label goes. -/
theorem removeCopies_succ (hs : s.isLabel = false) :
    removeCopies pattern (skip + 1) ((s, stays) :: rest) = removeCopies pattern skip rest := by
  rw [removeCopies, if_neg (by simp [hs])]

/-- When nothing is skipped a statement stays, and in front of an exit a copy is skipped next. -/
theorem removeCopies_zero : removeCopies pattern 0 ((s, stays) :: rest) = stays :: removeCopies pattern
    (if exitsTry s && endsWithCopy pattern (rest.map (·.1)) then pattern.length else 0) rest := by
  cases hs : s.isLabel with
  | true => rw [removeCopies_label hs, exitsTry_of_isLabel hs, Bool.false_and, if_neg Bool.false_ne_true]
  | false => rw [removeCopies, if_neg (by simp [hs])]

/-- A list backwards, each statement staying as it is. -/
def unchanged (reversed : List Stmt) : List (Stmt × Stmt) := reversed.map fun s => (s, s)

/-- The statements that stay as they are, are those of the list. -/
theorem map_fst_unchanged (reversed : List Stmt) : (unchanged reversed).map (·.1) = reversed := by
  rw [unchanged, List.map_map]
  exact List.map_id reversed

/-- Which statements stay does not depend on what becomes of them. -/
theorem removeCopies_map (pattern : List Stmt) (f : Stmt → Stmt) (skip : Nat) (reversed : List Stmt) :
    removeCopies pattern skip (reversed.map fun s => (s, f s)) =
      (removeCopies pattern skip (unchanged reversed)).map f := by
  have hfst : ∀ l : List Stmt, (l.map fun s => (s, f s)).map (·.1) = (unchanged l).map (·.1) := by
    intro l
    rw [unchanged, List.map_map, List.map_map]
    rfl
  induction reversed generalizing skip with
  | nil => rfl
  | cons s rest ih =>
    rw [List.map_cons, unchanged, List.map_cons, ← unchanged]
    cases hs : s.isLabel with
    | true => rw [removeCopies_label hs, removeCopies_label hs, ih, List.map_cons]
    | false =>
      cases skip with
      | zero => rw [removeCopies_zero, removeCopies_zero, hfst, ih, List.map_cons]
      | succ skip => rw [removeCopies_succ hs, removeCopies_succ hs, ih]

/-- Skipping as many statements as there are in a part of the list leaves the labels of this part. -/
theorem removeCopies_skip (pattern reversed rest : List Stmt) :
    removeCopies pattern (codeOf reversed).length (unchanged (reversed ++ rest)) =
      reversed.filter isLabel ++ removeCopies pattern 0 (unchanged rest) := by
  induction reversed with
  | nil => rfl
  | cons s reversed ih =>
    rw [List.cons_append, unchanged, List.map_cons, ← unchanged]
    cases hs : s.isLabel with
    | true =>
      rw [codeOf_cons_label hs, List.filter_cons_of_pos hs, removeCopies_label hs, ih, List.cons_append]
    | false => rw [codeOf_cons_code hs, labels_cons_code hs, List.length_cons, removeCopies_succ hs, ih]

end Reversed

/-- What stays of a list when nothing is skipped at its end. -/
def withoutCopies (pattern body : List Stmt) : List Stmt :=
  (removeCopies pattern 0 (unchanged body.reverse)).reverse

/-- What stays of a list with a copy at its end when that is skipped. -/
theorem reverse_removeCopies_copy (hcopy : IsCopy pattern group) :
    (removeCopies pattern pattern.length (unchanged (body ++ group).reverse)).reverse =
      withoutCopies pattern body ++ group.filter isLabel := by
  have hlength : pattern.length = (codeOf group.reverse).length := by
    rw [codeOf_reverse, List.length_reverse, hcopy.length]
  rw [List.reverse_append, hlength, removeCopies_skip, List.reverse_append, List.filter_reverse,
    List.reverse_reverse, withoutCopies]

/-- A statement without a copy in front of it stays, and the list is read on. -/
theorem withoutCopies_keep (h : exitsTry s = true → ¬EndsWithCopy pattern body) :
    withoutCopies pattern (body ++ [s]) = withoutCopies pattern body ++ [s] := by
  have hnone : (exitsTry s && endsWithCopy pattern body.reverse) = false := by
    rw [Bool.and_eq_false_imp]
    exact fun hexit => Bool.eq_false_iff.2 (mt endsWithCopy_reverse.1 (h hexit))
  rw [withoutCopies, List.reverse_concat, unchanged, List.map_cons, ← unchanged, removeCopies_zero,
    map_fst_unchanged, hnone, if_neg Bool.false_ne_true, List.reverse_cons, withoutCopies]

/-- An exit with a copy in front of it stays, and of the copy only the labels. -/
theorem withoutCopies_delete (hexit : exitsTry s = true) (hcopy : IsCopy pattern group) :
    withoutCopies pattern (body ++ group ++ [s]) =
      withoutCopies pattern body ++ group.filter isLabel ++ [s] := by
  have hfound : (exitsTry s && endsWithCopy pattern (body ++ group).reverse) = true :=
    Bool.and_eq_true_iff.2 ⟨hexit, endsWithCopy_reverse.2 ⟨body, group, rfl, hcopy⟩⟩
  rw [withoutCopies, List.reverse_concat, unchanged, List.map_cons, ← unchanged, removeCopies_zero,
    map_fst_unchanged, hfound, if_pos rfl, List.reverse_cons, reverse_removeCopies_copy hcopy]

/-- What is left when nothing is skipped at the end is the list without its copies. -/
theorem copiesDeleted_withoutCopies (pattern body : List Stmt) :
    CopiesDeleted pattern body (withoutCopies pattern body) := by
  induction body using exitInduction pattern with
  | nil => exact .nil
  | keep body s h ih => exact withoutCopies_keep h ▸ .keep h ih
  | delete body group s hexit hcopy ih => exact withoutCopies_delete hexit hcopy ▸ .delete hexit hcopy ih

/-! ## Deleting by positions -/

/-- The positions of the statements in a list that are no labels. -/
def codeIndices (body : List Stmt) : List Nat :=
  (List.range body.length).filter fun i => !body[i]?.any isLabel

/-- Delete the statement at a position; `none` if that is out of range. -/
def removeAt? (body : List Stmt) (i : Nat) : Option (List Stmt) :=
  if i < body.length then some (body.eraseIdx i) else none

/-- Delete the statements at some positions, from the last position on. -/
def removeAll? (body : List Stmt) (indices : List Nat) : Option (List Stmt) :=
  indices.reverse.foldlM removeAt? body

/-- Part of a list of positions; `none` if it is out of range. -/
def slice? (indices : List Nat) (start stop : Nat) : Option (List Nat) :=
  if start ≤ stop ∧ stop ≤ indices.length then some ((indices.take stop).drop start) else none

/-- Whether the statements at some positions are equal to the pattern once positions in the source are
forgotten; `none` if one of them is out of range. -/
def isCopyAt? (pattern body : List Stmt) (indices : List Nat) : Option Bool := do
  let code ← indices.mapM (body[·]?)
  return equalList (normalize code) pattern

/-- Whether the statement at the last of some positions is a jump; `none` if it is out of range. -/
def isJumpAtLast? (body : List Stmt) (indices : List Nat) : Option Bool :=
  match indices.getLast? with
  | some i => body[i]?.map isJump
  | none => some false

/-- Go through the first `pos` of the positions `code` from the last one on, and delete the statements in
front of exits that are a copy of the pattern. `none` if a position is out of range. -/
def scan? (pattern : List Stmt) (code : List Nat) : (pos : Nat) → List Stmt → Option (List Stmt)
  | 0, body => some body
  | pos + 1, body => do
    let s ← body[← code[pos]?]?
    if pattern.length ≤ pos ∧ exitsTry s then
      let group ← slice? code (pos - pattern.length) pos
      if ← isCopyAt? pattern body group then
        scan? pattern code (pos - pattern.length) (← removeAll? body group)
      else scan? pattern code pos body
    else scan? pattern code pos body
termination_by pos => pos

/-- Delete copies of the pattern from a list by the positions that its statements have at the start.
`none` if a position is out of range. -/
def stripInPlace? (pattern : List Stmt) (atEnd : Bool) (body : List Stmt) : Option (List Stmt) := do
  let code := codeIndices body
  if atEnd ∧ pattern.length ≤ code.length then
    let jumps ← isJumpAtLast? body code
    let tail ← slice? code (code.length - pattern.length) code.length
    if !jumps && (← isCopyAt? pattern body tail) then
      let code := code.take (code.length - pattern.length)
      scan? pattern code code.length (← removeAll? body tail)
    else scan? pattern code code.length body
  else scan? pattern code code.length body

/-- In an empty list nothing has a position. -/
@[simp] theorem codeIndices_nil : codeIndices [] = [] := rfl

/-- The positions in a list of the statements of a part of it, where `front` is in front of the part. -/
def indicesBehind (front group : List Stmt) : List Nat := (codeIndices group).map (front.length + ·)

/-- The positions in two lists are those in the first, and those in the second moved behind it. -/
theorem codeIndices_append (front group : List Stmt) :
    codeIndices (front ++ group) = codeIndices front ++ indicesBehind front group := by
  rw [indicesBehind, codeIndices, List.length_append, List.range_add, List.filter_append, List.filter_map]
  congr 1
  · refine List.filter_congr fun i hi => ?_
    rw [List.getElem?_append_left (List.mem_range.1 hi)]
  · refine congrArg (List.map _) (List.filter_congr fun i _ => ?_)
    rw [Function.comp_apply, List.getElem?_append_right (Nat.le_add_right _ _), Nat.add_sub_cancel_left]

/-- A single statement is at the start, if it is no label. -/
theorem codeIndices_singleton (s : Stmt) : codeIndices [s] = if s.isLabel then [] else [0] := by
  cases hs : s.isLabel <;> simp [codeIndices, hs, List.range_succ]

/-- The first statement moves the positions of the others by one. -/
theorem codeIndices_cons (s : Stmt) (rest : List Stmt) : codeIndices (s :: rest) =
    (if s.isLabel then [] else [0]) ++ (codeIndices rest).map (1 + ·) := by
  rw [← List.singleton_append, codeIndices_append, codeIndices_singleton]
  rfl

/-- There are as many positions as statements that are no labels. -/
@[simp] theorem length_codeIndices (body : List Stmt) : (codeIndices body).length = (codeOf body).length := by
  induction body with
  | nil => rfl
  | cons s rest ih =>
    rw [codeIndices_cons, List.length_append, List.length_map, ih]
    cases hs : s.isLabel with
    | true => rw [codeOf_cons_label hs, if_pos rfl, List.length_nil, Nat.zero_add]
    | false => rw [codeOf_cons_code hs, if_neg Bool.false_ne_true, List.length_cons, Nat.add_comm]; rfl

section Middle

variable (front group back : List Stmt)

/-- The first statement of a part has the position behind the front. -/
theorem indicesBehind_cons (s : Stmt) : indicesBehind front (s :: group) =
    (if s.isLabel then [] else [front.length]) ++ indicesBehind (front ++ [s]) group := by
  rw [indicesBehind, codeIndices_cons, List.map_append, List.map_map, indicesBehind, List.length_append,
    List.length_singleton]
  congr 1
  · cases s.isLabel <;> rfl
  · exact List.map_congr_left fun i _ => (Nat.add_assoc _ _ _).symm

/-- The statement behind the front is found by the length of the front. -/
theorem getElem?_length_append (s : Stmt) : (front ++ s :: back)[front.length]? = some s := by
  rw [List.getElem?_append_right (Nat.le_refl _), Nat.sub_self]
  rfl

/-- It is deleted by the same position. -/
theorem removeAt?_length_append (s : Stmt) :
    removeAt? (front ++ s :: back) front.length = some (front ++ back) := by
  rw [removeAt?, if_pos (by simp), List.eraseIdx_append_of_length_le (Nat.le_refl _), Nat.sub_self]
  rfl

/-- The statements at the positions of a part of the list are those of the part. -/
theorem mapM_indicesBehind :
    (indicesBehind front group).mapM ((front ++ (group ++ back))[·]?) = some (codeOf group) := by
  induction group generalizing front with
  | nil => rfl
  | cons s group ih =>
    have hrest := ih (front ++ [s])
    rw [List.append_assoc, List.singleton_append, ← List.cons_append] at hrest
    rw [indicesBehind_cons]
    cases hs : s.isLabel with
    | true => rw [if_pos rfl, List.nil_append, hrest, codeOf_cons_label hs]
    | false =>
      rw [if_neg Bool.false_ne_true, List.singleton_append, List.mapM_cons, hrest, codeOf_cons_code hs,
        List.cons_append, getElem?_length_append]
      rfl

/-- Deleting the statements at the positions of a part of the list leaves the labels of the part, and what
is in front of it and behind it. -/
theorem removeAll?_indicesBehind :
    removeAll? (front ++ (group ++ back)) (indicesBehind front group) =
      some (front ++ (group.filter isLabel ++ back)) := by
  induction group generalizing front with
  | nil => rfl
  | cons s group ih =>
    have hrest := ih (front ++ [s])
    rw [removeAll?, List.append_assoc, List.singleton_append, ← List.cons_append] at hrest
    rw [removeAll?, indicesBehind_cons, List.reverse_append, List.foldlM_append, hrest]
    cases hs : s.isLabel with
    | true => rw [List.filter_cons_of_pos hs, List.append_assoc]; rfl
    | false =>
      rw [labels_cons_code hs, List.append_assoc, List.singleton_append, if_neg Bool.false_ne_true,
        List.reverse_singleton]
      exact congrArg (· >>= pure) (removeAt?_length_append front (group.filter isLabel ++ back) s)

end Middle

/-- The positions in front of a part as long as the pattern are those of the front. -/
theorem length_codeIndices_sub (front : List Stmt) (hlength : (codeOf group).length = pattern.length) :
    (codeIndices (front ++ group)).length - pattern.length = (codeIndices front).length := by
  rw [length_codeIndices, length_codeIndices, codeOf_append, List.length_append, hlength,
    Nat.add_sub_cancel]

/-- The last positions of a list that are as many as the pattern has statements, whatever follows them. -/
theorem slice?_codeIndices (front : List Stmt) (more : List Nat)
    (hlength : (codeOf group).length = pattern.length) :
    slice? (codeIndices (front ++ group) ++ more)
        ((codeIndices (front ++ group)).length - pattern.length) (codeIndices (front ++ group)).length =
      some (indicesBehind front group) := by
  rw [slice?, if_pos ⟨Nat.sub_le _ _, by simp⟩, List.take_left, length_codeIndices_sub front hlength,
    codeIndices_append, List.drop_left]

/-- The comparison at some positions compares the part that stands there. -/
theorem isCopyAt?_indicesBehind (pattern front group back : List Stmt) :
    isCopyAt? pattern (front ++ (group ++ back)) (indicesBehind front group) =
      some (equalList (normalize (codeOf group)) pattern) := by
  rw [isCopyAt?, mapM_indicesBehind]
  rfl

/-- A label at the end has no position. -/
theorem codeIndices_concat_label (hs : s.isLabel = true) : codeIndices (body ++ [s]) = codeIndices body := by
  rw [codeIndices_append, indicesBehind_cons, if_pos hs]
  exact List.append_nil _

/-- Another statement at the end has the last one. -/
theorem codeIndices_concat_code (hs : s.isLabel = false) :
    codeIndices (body ++ [s]) = codeIndices body ++ [body.length] := by
  rw [codeIndices_append, indicesBehind_cons, if_neg (by simp [hs])]
  rfl

/-- One step of the run, where `body` is still to come in front of the statement that it looks at. -/
theorem scan?_concat (hs : s.isLabel = false) (more : List Nat) (back : List Stmt) :
    scan? pattern (codeIndices (body ++ [s]) ++ more) (codeIndices (body ++ [s])).length
        (body ++ [s] ++ back) =
      let code := codeIndices body ++ (body.length :: more)
      let pos := (codeIndices body).length
      let list := body ++ (s :: back)
      if pattern.length ≤ pos ∧ exitsTry s then do
        let group ← slice? code (pos - pattern.length) pos
        if ← isCopyAt? pattern list group then
          scan? pattern code (pos - pattern.length) (← removeAll? list group)
        else scan? pattern code pos list
      else scan? pattern code pos list := by
  have hposition : (codeIndices body ++ body.length :: more)[(codeIndices body).length]? =
      some body.length := by
    rw [List.getElem?_append_right (Nat.le_refl _), Nat.sub_self]
    rfl
  rw [codeIndices_concat_code hs, List.append_assoc, List.singleton_append, List.length_append,
    List.length_singleton, scan?, hposition, List.append_assoc, List.singleton_append]
  dsimp only [Option.bind_eq_bind, Option.bind_some]
  rw [getElem?_length_append]
  rfl

/-- The run over the positions of a list, in front of anything that has been dealt with already. -/
theorem scan?_codeIndices (pattern body : List Stmt) (more : List Nat) (back : List Stmt) :
    scan? pattern (codeIndices body ++ more) (codeIndices body).length (body ++ back) =
      some (withoutCopies pattern body ++ back) := by
  -- from the end of the list: what comes next stays, or is deleted with the copy in front of it
  induction body using exitInduction pattern generalizing more back with
  | nil => rw [codeIndices_nil, List.length_nil, scan?]; rfl
  | keep body s h ih =>
    rw [withoutCopies_keep h]
    cases hs : s.isLabel with
    | true =>
      rw [codeIndices_concat_label hs, List.append_assoc, List.append_assoc]
      exact ih more _
    | false =>
      rw [scan?_concat hs, List.append_assoc]
      dsimp only
      split
      -- an exit with enough in front of it, which is no copy
      · rename_i hexit
        rw [length_codeIndices] at hexit
        obtain ⟨front, group, rfl, hlength⟩ := exists_suffix_of_le hexit.1
        have hnot : equalList (normalize (codeOf group)) pattern = false :=
          Bool.eq_false_iff.2 (mt (endsWithCopy_append front hlength).2 (h hexit.2))
        rw [slice?_codeIndices _ _ hlength]
        dsimp only [Option.bind_eq_bind, Option.bind_some]
        rw [List.append_assoc front, isCopyAt?_indicesBehind, hnot, ← List.append_assoc front]
        exact ih _ _
      · exact ih _ _
  -- an exit with a copy in front of it, which is deleted position by position
  | delete body group s hexit hcopy ih =>
    have hs : s.isLabel = false := by
      cases hs : s.isLabel with
      | true => rw [exitsTry_of_isLabel hs] at hexit; cases hexit
      | false => rfl
    have hle : pattern.length ≤ (codeIndices (body ++ group)).length := by
      rw [length_codeIndices, codeOf_append, List.length_append, hcopy.length]
      omega
    rw [scan?_concat hs, withoutCopies_delete hexit hcopy]
    dsimp only
    rw [if_pos ⟨hle, hexit⟩, slice?_codeIndices _ _ hcopy.length]
    dsimp only [Option.bind_eq_bind, Option.bind_some]
    rw [List.append_assoc body, isCopyAt?_indicesBehind, hcopy.same]
    dsimp only [Option.bind_some, if_true]
    rw [removeAll?_indicesBehind, length_codeIndices_sub body hcopy.length, codeIndices_append,
      List.append_assoc]
    refine (ih _ _).trans ?_
    rw [List.append_assoc, List.append_assoc, List.singleton_append]

/-- The test at the last position is a test of the last statement that is no label. -/
theorem isJumpAtLast?_codeIndices (body back : List Stmt) :
    isJumpAtLast? (body ++ back) (codeIndices body) = some (endsInJump body) := by
  induction body using List.reverseRecOn generalizing back with
  | nil => rfl
  | append_singleton body s ih =>
    rw [endsInJump, codeOf_append]
    cases hs : s.isLabel with
    | true =>
      rw [codeIndices_concat_label hs, codeOf_cons_label hs, List.append_assoc]
      refine (ih _).trans ?_
      rw [endsInJump]
      simp [codeOf]
    | false =>
      rw [codeIndices_concat_code hs, codeOf_cons_code hs, isJumpAtLast?, List.getLast?_concat,
        List.append_assoc]
      dsimp only
      rw [List.singleton_append, getElem?_length_append]
      simp [codeOf]

/-! ## Whole lists -/

section Whole

variable {atEnd : Bool}

/-- A list backwards, each statement with what it becomes. -/
theorem zip_reverse_map (body : List Stmt) (f : Stmt → Stmt) :
    body.reverse.zip (body.map f).reverse = body.reverse.map fun s => (s, f s) := by
  rw [← List.map_reverse]
  induction body.reverse with
  | nil => rfl
  | cons s rest ih => rw [List.map_cons, List.zip_cons_cons, ih, List.map_cons]

/-- What becomes of the statements that stay does not change which ones stay. -/
theorem stripList_map (pattern : List Stmt) (atEnd : Bool) (body : List Stmt) (f : Stmt → Stmt) :
    stripList pattern atEnd body (body.map f) = (stripList pattern atEnd body body).map f := by
  have hself := zip_reverse_map body fun s => s
  rw [List.map_id'] at hself
  rw [stripList, stripList, zip_reverse_map, hself, removeCopies_map, List.map_reverse]
  rfl

/-- Stripping a list of statements that stay as they are is deleting copies from its end on. -/
theorem stripList_self (pattern : List Stmt) (atEnd : Bool) (body : List Stmt) :
    stripList pattern atEnd body body =
      (removeCopies pattern
        (if atEnd && !endsInJump body && endsWithCopy pattern body.reverse then pattern.length else 0)
        (unchanged body.reverse)).reverse := by
  have hself := zip_reverse_map body fun s => s
  rw [List.map_id'] at hself
  rw [stripList, hself, endsInJump, ← List.head?_reverse, ← codeOf_reverse]
  rfl

/-- A copy at the end of a list is deleted if control gets there. -/
theorem stripList_tail (hend : atEnd = true) (hjump : endsInJump (body ++ group) = false)
    (hcopy : IsCopy pattern group) :
    stripList pattern atEnd (body ++ group) (body ++ group) =
      withoutCopies pattern body ++ group.filter isLabel := by
  have hends : endsWithCopy pattern (body ++ group).reverse = true :=
    endsWithCopy_reverse.2 ⟨body, group, rfl, hcopy⟩
  rw [stripList_self, hend, hjump, hends]
  exact reverse_removeCopies_copy hcopy

/-- Otherwise only the copies in front of exits are deleted. -/
theorem stripList_noTail (h : atEnd = true → endsInJump body = false → ¬EndsWithCopy pattern body) :
    stripList pattern atEnd body body = withoutCopies pattern body := by
  have hskip : (atEnd && !endsInJump body && endsWithCopy pattern body.reverse) = false := by
    by_contra htail
    rw [Bool.not_eq_false, Bool.and_eq_true, Bool.and_eq_true, Bool.not_eq_true'] at htail
    exact h htail.1.1 htail.1.2 (endsWithCopy_reverse.1 htail.2)
  rw [stripList_self, hskip]
  rfl

/-- Stripping deletes copies and nothing else. -/
theorem stripped_stripList (pattern : List Stmt) (atEnd : Bool) (body : List Stmt) :
    Stripped pattern atEnd body (stripList pattern atEnd body body) := by
  by_cases h : atEnd = true ∧ endsInJump body = false ∧ EndsWithCopy pattern body
  · obtain ⟨hend, hjump, front, group, rfl, hcopy⟩ := h
    rw [stripList_tail hend hjump hcopy]
    exact .tail hend hjump hcopy (copiesDeleted_withoutCopies pattern front)
  · have hnot : atEnd = true → endsInJump body = false → ¬EndsWithCopy pattern body :=
      fun hend hjump hcopy => h ⟨hend, hjump, hcopy⟩
    rw [stripList_noTail hnot]
    exact .noTail hnot (copiesDeleted_withoutCopies pattern body)

/-- Stripping by positions never leaves the list, and comes to the same. -/
theorem stripInPlace?_eq (pattern : List Stmt) (atEnd : Bool) (body : List Stmt) :
    stripInPlace? pattern atEnd body = some (stripList pattern atEnd body body) := by
  have hscan : ∀ list, scan? pattern (codeIndices list) (codeIndices list).length list =
      some (withoutCopies pattern list) := by
    intro list
    have := scan?_codeIndices pattern list [] []
    rwa [List.append_nil, List.append_nil, List.append_nil] at this
  rw [stripInPlace?]
  dsimp only
  split
  -- there is enough at the end for a copy: it is one, or the scan starts there
  · rename_i htail
    obtain ⟨hend, hle⟩ := htail
    rw [length_codeIndices] at hle
    obtain ⟨front, group, rfl, hlength⟩ := exists_suffix_of_le hle
    have hjumps := isJumpAtLast?_codeIndices (front ++ group) []
    have hslice := slice?_codeIndices front [] hlength
    have hcopy := isCopyAt?_indicesBehind pattern front group []
    have hremove := removeAll?_indicesBehind front group []
    rw [List.append_nil] at hjumps hslice hcopy
    rw [List.append_nil, List.append_nil] at hremove
    rw [hjumps, hslice]
    dsimp only [Option.bind_eq_bind, Option.bind_some]
    rw [hcopy, hremove]
    dsimp only [Option.bind_some]
    split
    · rename_i hdeleted
      rw [Bool.and_eq_true, Bool.not_eq_true'] at hdeleted
      rw [stripList_tail hend hdeleted.1 ⟨hlength, hdeleted.2⟩, length_codeIndices_sub front hlength,
        codeIndices_append, List.take_left]
      have := scan?_codeIndices pattern front [] (group.filter isLabel)
      rwa [List.append_nil] at this
    · rename_i hkept
      rw [hscan, stripList_noTail]
      intro _ hjump hends
      exact hkept (by rw [hjump, (endsWithCopy_append front hlength).1 hends]; rfl)
  · rename_i htail
    rw [hscan, stripList_noTail]
    rintro hend - ⟨front, group, rfl, hcopy⟩
    refine htail ⟨hend, ?_⟩
    rw [length_codeIndices, codeOf_append, List.length_append, hcopy.length]
    omega

end Whole

/-- What becomes of a list when copies of a pattern are removed. The run by positions succeeds, so that no
position is out of range; what it leaves is the list with copies in front of exits and at its end deleted,
each a group of its own, and nothing else changed; and in what stays, the same is done in every list inside a
statement, but not at the end of these lists. -/
theorem stripCopies_exact (pattern : List Stmt) (atEnd : Bool) (body : List Stmt) :
    ∃ kept, stripInPlace? pattern atEnd body = some kept ∧ Stripped pattern atEnd body kept ∧
      stripCopies pattern atEnd body = kept.map (Stmt.mapLists (stripCopies pattern false)) := by
  refine ⟨_, stripInPlace?_eq pattern atEnd body, stripped_stripList pattern atEnd body, ?_⟩
  rw [stripCopies, stripEach_eq_map, stripList_map]
  exact List.map_congr_left fun s _ => stripInside_eq pattern s

end JvmDecompiler
