import JvmDecompiler.Proofs.JumpScope
import JvmDecompiler.Proofs.StructureRun
import Std.Data.String.ToNat

/-!
# Structured jumps hit their targets

While structuring writes a loop or a switch, it does not know yet whether a label will stand in front of
it: a jump that needs one marks the label as used, and the mark is looked at when the statement is left.
So a jump is judged by the marks in the end of a run (`Covers`). What is known of the enclosing
statements at any point is the stack of those that are being written, each with a label of its own
(`Progress.Framed`), because a loop is started once and a switch belongs to a block that is rendered
once.

`Runs.placed` goes through a run by these two; `FlowGraph.structured_allPlaced` says it of methods.
-/

namespace JvmDecompiler

open Stmt

/-! ## The statements around, known by their marks -/

/-- The statements around, as they are in the end, are those that structuring knows of at some point:
a label that is marked as used stands in front of its statement. -/
def Covers (around : List Enclosing) (bs : List Breakable) : Prop :=
  List.Forall₂ (fun e b => e.frame = b.unmarked ∧ (b.labelUsed = true → e.labeled = true)) around bs

namespace Covers

variable {around : List Enclosing} {bs cs : List Breakable}

/-- The statements around are the same, up to marks. -/
theorem frames (h : Covers around bs) : around.map (·.frame) = bs.map Breakable.unmarked := by
  induction h with
  | nil => rfl
  | cons hb _ ih => rw [List.map_cons, List.map_cons, hb.1, ih]

/-- Marks are never taken back, so what covers the later statements covers the earlier ones. -/
theorem of_marks (hm : List.Forall₂ Breakable.Marks bs cs) (h : Covers around cs) :
    Covers around bs := by
  induction hm generalizing around with
  | nil => exact h
  | cons hb _ ih =>
    obtain ⟨e, rest, ⟨hframe, hlabel⟩, hrest, rfl⟩ := List.forall₂_cons_right_iff.1 h
    refine .cons ⟨hframe.trans hb.unmarked_eq, fun hused => hlabel ?_⟩ (ih hrest)
    obtain ⟨used, rfl⟩ := hb
    simp [hused]

/-- The statements around cover what structuring knew of at any earlier point as well. -/
theorem of_extends {p q : Progress} (hext : p.Extends q) (h : Covers around q.breakables) :
    Covers around p.breakables := of_marks hext.breakables h

/-- A statement among those that structuring knows of has its counterpart among those around. -/
theorem split {inner post : List Breakable} {b : Breakable}
    (h : Covers around (inner ++ b :: post)) : ∃ einner e epost, around = einner ++ e :: epost ∧
      Covers einner inner ∧ e.frame = b.unmarked ∧ (b.labelUsed = true → e.labeled = true) := by
  induction inner generalizing around with
  | nil =>
    obtain ⟨e, rest, ⟨hframe, hlabel⟩, -, rfl⟩ := List.forall₂_cons_right_iff.1 h
    exact ⟨[], e, rest, rfl, .nil, hframe, hlabel⟩
  | cons c inner ih =>
    obtain ⟨d, rest, hd, hrest, rfl⟩ := List.forall₂_cons_right_iff.1 h
    obtain ⟨einner, e, epost, rfl, hinner, he⟩ := ih hrest
    exact ⟨d :: einner, e, epost, rfl, .cons hd hinner, he⟩

/-- What covers the statements behind a loop or a switch covers those inside it, with the loop or switch
as it is marked in the end. -/
theorem enter {p q : Progress} {b : Breakable} (hunmarked : b.labelUsed = false) (hext : (p.entered b).Extends q)
    (hcov : Covers around q.left.breakables) :
    Covers (⟨b, q.breakables.head?.any (·.labelUsed)⟩ :: around) q.breakables := by
  obtain ⟨c, rest, hc, -, hq⟩ := List.forall₂_cons_left_iff.1 hext.breakables
  have hframe : b = c.unmarked := by
    rw [hc.unmarked_eq, Breakable.unmarked, ← hunmarked]
  rw [Progress.breakables_left, hq] at hcov
  rw [hq]
  exact .cons ⟨hframe, id⟩ hcov

end Covers

/-- In statements with different labels, a label that stands in front of one means that one. -/
theorem Enclosing.named?_eq_some {around : List Enclosing}
    (hnodup : (around.map (·.frame.label)).Nodup) {e : Enclosing} (he : e ∈ around)
    (hlabeled : e.labeled = true) : Enclosing.named? around e.frame.label = some e := by
  have key : around.filter (·.isNamed e.frame.label) = [e] := by
    induction around with
    | nil => cases he
    | cons a rest ih =>
      rw [List.map_cons, List.nodup_cons] at hnodup
      rcases List.mem_cons.1 he with rfl | he
      · have hrest : rest.filter (·.isNamed e.frame.label) = [] := by
          refine List.filter_eq_nil_iff.2 fun d hd hnamed => hnodup.1 ?_
          have hlabel : d.frame.label = e.frame.label := by
            simpa [isNamed] using (Bool.and_eq_true_iff.1 hnamed).2
          exact hlabel ▸ List.mem_map_of_mem hd
        rw [List.filter_cons_of_pos (by simp [isNamed, hlabeled]), hrest]
      · have hne : a.frame.label ≠ e.frame.label := fun heq =>
          hnodup.1 (heq ▸ List.mem_map_of_mem he)
        rw [List.filter_cons_of_neg (by simp [isNamed, hne]), ih hnodup.2 he]
  rw [named?, key]

namespace Structurer

variable {st : Structurer} {p q : Progress} {ns notes : List Note} {around : List Enclosing}

/-! ## The jump to a block -/

/-- The `break` or `continue` that leads to a block is for one of the enclosing statements, and names
its label exactly if another one would catch it. -/
theorem of_jumpWithin {t : BlockId} {inner outer bs : List Breakable} {stmt : Stmt}
    (h : jumpWithin t inner outer = some (stmt, bs)) :
    ∃ pre b post labeled, outer = pre ++ b :: post ∧
      bs = inner.reverse ++ (pre ++ { b with labelUsed := b.labelUsed || labeled } :: post) ∧
      (b.continueTarget = some t ∧ stmt = .continueTo (if labeled then some b.label else none) ∧
          labeled = (pre ++ inner).any (·.continueTarget.isSome) ∨
        b.breakTarget = some t ∧ stmt = .breakTo (if labeled then some b.label else none) ∧
          labeled = !(pre ++ inner).isEmpty) := by
  -- along the enclosing statements, from the innermost
  induction outer generalizing inner with
  | nil => cases h
  | cons b outer ih =>
    unfold jumpWithin at h
    dsimp only at h
    have hmark : ∀ labeled : Bool, (if labeled then { b with labelUsed := true } else b) =
        { b with labelUsed := b.labelUsed || labeled } := by
      intro labeled
      cases labeled <;> simp
    split at h
    -- this one is the target, of a `continue` if it has a head there, else of a `break`
    · rename_i hto
      obtain ⟨rfl, rfl⟩ := Prod.mk.inj (Option.some.inj h)
      rw [hmark]
      refine ⟨[], b, outer, _, rfl, rfl, ?_⟩
      by_cases hc : b.continueTarget = some t
      · exact .inl ⟨hc, by simp [hc], by simp [hc]⟩
      · have hb : b.breakTarget = some t := by simpa [hc] using hto
        exact .inr ⟨hb, by simp [hc], by simp [hc]⟩
    · obtain ⟨pre, c, post, labeled, rfl, rfl, hjump⟩ := ih h
      refine ⟨b :: pre, c, post, labeled, rfl, by simp, ?_⟩
      -- a label is needed by what lies between, in whatever order that is listed
      have hany : (pre ++ b :: inner).any (·.continueTarget.isSome) =
          (b :: pre ++ inner).any (·.continueTarget.isSome) :=
        (List.perm_middle).any_eq
      have hempty : (pre ++ b :: inner).isEmpty = (b :: pre ++ inner).isEmpty := by simp
      rwa [hany, hempty] at hjump

/-- What is written for a jump to a block is a jump. -/
theorem jumpRole_of_jumpWithin {t : BlockId} {inner outer bs : List Breakable} {stmt : Stmt}
    (h : jumpWithin t inner outer = some (stmt, bs)) : stmt.jumpRole = .jump := by
  obtain ⟨pre, b, post, labeled, -, -, ⟨-, rfl, -⟩ | ⟨-, rfl, -⟩⟩ := of_jumpWithin h <;> rfl

/-- A jump that structuring writes means a statement that leads to the block, if each enclosing statement
has a label of its own and only loops can be started over. -/
theorem exists_meant?_of_jumpWithin {t : BlockId} {bs after : List Breakable} {stmt : Stmt}
    (hj : jumpWithin t [] bs = some (stmt, after)) (hcov : Covers around after)
    (hloops : ∀ b ∈ bs, b.header.isSome = b.continueTarget.isSome) (hnodup : (bs.map (·.label)).Nodup) :
    around.map (·.frame) = bs.map Breakable.unmarked ∧
      ∃ e, stmt.meant? around = some e ∧ stmt.leadsTo? e.frame = some t := by
  obtain ⟨pre, b, post, labeled, rfl, rfl, hjump⟩ := of_jumpWithin hj
  rw [List.reverse_nil, List.nil_append] at hcov
  have hframes : around.map (·.frame) = (pre ++ b :: post).map Breakable.unmarked := by
    simpa [Breakable.unmarked] using hcov.frames
  have hlabels : (around.map (·.frame.label)).Nodup := by
    have heq := congrArg (List.map Breakable.label) hframes
    rw [List.map_map, List.map_map] at heq
    rw [show around.map (·.frame.label) = _ from heq]
    exact hnodup
  refine ⟨hframes, ?_⟩
  obtain ⟨einner, e, epost, rfl, hinner, he, hmarked⟩ := hcov.split
  have hmem : e ∈ einner ++ e :: epost := List.mem_append_right _ List.mem_cons_self
  have hlabel : e.frame.label = b.label := by rw [he]; rfl
  have hnamed : labeled = true → Enclosing.named? (einner ++ e :: epost) b.label = some e := by
    intro hl
    rw [← hlabel]
    exact Enclosing.named?_eq_some hlabels hmem (hmarked (by simp [hl]))
  refine ⟨e, ?_⟩
  rcases hjump with ⟨hc, rfl, hl⟩ | ⟨hb, rfl, hl⟩
  · have hloop : e.isLoop = true := by
      rw [Enclosing.isLoop, he]
      exact (hloops b (List.mem_append_right _ List.mem_cons_self)).trans (by simp [hc])
    refine ⟨?_, by rw [leadsTo?, he]; exact hc⟩
    cases hlab : labeled with
    | true => simp [meant?, hnamed hlab, hloop]
    | false =>
      -- no statement inside can be started over, so none of them is a loop
      have hnone : einner.find? (·.isLoop) = none := by
        rw [List.find?_eq_none]
        intro d hd hdloop
        have hframe : d.frame ∈ pre.map Breakable.unmarked := hinner.frames ▸ List.mem_map_of_mem hd
        obtain ⟨c, hcmem, hcd⟩ := List.mem_map.1 hframe
        have hcloop : c.continueTarget.isSome = true := by
          rw [← hloops c (List.mem_append_left _ hcmem)]
          rw [Enclosing.isLoop, ← hcd] at hdloop
          exact hdloop
        have hany : pre.any (·.continueTarget.isSome) = true := List.any_eq_true.2 ⟨c, hcmem, hcloop⟩
        rw [List.append_nil, hany, hlab] at hl
        cases hl
      simp [meant?, List.find?_append, hnone, hloop]
  · refine ⟨?_, by rw [leadsTo?, he]; exact hb⟩
    cases hlab : labeled with
    | true => simp [meant?, hnamed hlab]
    | false =>
      have hpre : pre = [] := by simpa [hlab] using hl
      subst hpre
      have heinner : einner = [] := List.forall₂_nil_right_iff.1 hinner
      simp [meant?, heinner]

/-! ## Labels -/

/-- The label of a loop or switch is a word and the number of a block. -/
theorem label_injective (word : String) {m n : BlockId} (h : word ++ toString m = word ++ toString n) :
    m = n :=
  Nat.repr_injective ((String.append_right_inj word).1 h)

/-- Loops at different headers have different labels. -/
theorem label_loopBreakable_injective {k l : Loop}
    (h : (loopBreakable k).label = (loopBreakable l).label) : k.header = l.header :=
  label_injective "loop" h

/-- Switches at different blocks have different labels. -/
theorem label_switchBreakable_injective {a b : BlockId} {join meet : Option BlockId}
    (h : (switchBreakable a join).label = (switchBreakable b meet).label) : a = b :=
  label_injective "switch" h

/-- No loop has the label of a switch. -/
theorem label_loopBreakable_ne (l : Loop) (head : BlockId) (join : Option BlockId) :
    (loopBreakable l).label ≠ (switchBreakable head join).label := by
  intro h
  have hwords : "loop" ++ toString l.header = "switch" ++ toString head := h
  have hfirst := congrArg (fun s : String => s.toList.head?) hwords
  simp [String.toList_append] at hfirst

end Structurer

open Structurer

namespace Progress

/-- The statements that are being written, without their marks. -/
def frames (p : Progress) : List Breakable := p.breakables.map Breakable.unmarked

variable {p q : Progress}

/-- Progress leaves the statements around as they are, up to marks. -/
theorem Extends.frames_eq (h : p.Extends q) : q.frames = p.frames := by
  unfold frames
  have hmarks := h.breakables
  generalize p.breakables = bs at hmarks ⊢
  generalize q.breakables = cs at hmarks ⊢
  induction hmarks with
  | nil => rfl
  | cons hb _ ih => rw [List.map_cons, List.map_cons, hb.unmarked_eq, ih]

/-- What is known of the statements that are being written: each is a loop that has been started or a
switch that belongs to a rendered block, and has a label of its own. -/
structure Framed (p : Progress) : Prop where
  frames : ∀ b ∈ p.frames, (∃ l, b = loopBreakable l ∧ l.header ∈ p.loopsDone) ∨
    ∃ head join, b = switchBreakable head join ∧ head ∈ p.visited
  nodup : (p.frames.map (·.label)).Nodup

/-- What is known of the statements around stays known. -/
theorem Framed.extends (h : p.Framed) (hext : p.Extends q) : q.Framed where
  frames b hb := by
    rw [hext.frames_eq] at hb
    rcases h.frames b hb with ⟨l, hl, hdone⟩ | ⟨head, join, hswitch, hv⟩
    · exact .inl ⟨l, hl, hext.loopsDone.subset hdone⟩
    · exact .inr ⟨head, join, hswitch, hext.visited.subset hv⟩
  nodup := by rw [hext.frames_eq]; exact h.nodup

/-- Only loops can be started over. -/
theorem Framed.header_isSome (h : p.Framed) {b : Breakable} (hb : b ∈ p.breakables) :
    b.header.isSome = b.continueTarget.isSome := by
  have hsame : b.unmarked.header.isSome = b.unmarked.continueTarget.isSome := by
    rcases h.frames b.unmarked (List.mem_map_of_mem hb) with ⟨l, hl, -⟩ | ⟨head, join, hswitch, -⟩
    · rw [hl]
      rfl
    · rw [hswitch]
      rfl
  exact hsame

/-- No two of the statements around have the same label. -/
theorem Framed.nodup_labels (h : p.Framed) : (p.breakables.map (·.label)).Nodup := by
  have hlabels := h.nodup
  rw [Progress.frames, List.map_map] at hlabels
  exact hlabels

/-- A pending loop may be entered: no statement around has its label. -/
theorem Framed.enterLoop {st : Structurer} {id : BlockId} {l : Loop} (h : p.Framed)
    (hl : st.pendingLoop? p id = some l) : ((p.started l.header).entered (loopBreakable l)).Framed where
  frames b hb := by
    rcases List.mem_cons.1 hb with rfl | hb
    · exact .inl ⟨l, rfl, List.mem_cons_self⟩
    · exact (h.extends (p.extends_started l.header)).frames b hb
  nodup := by
    refine List.nodup_cons.2 ⟨fun hmem => ?_, h.nodup⟩
    obtain ⟨b, hb, hlabel⟩ := List.mem_map.1 hmem
    rcases h.frames b hb with ⟨k, rfl, hk⟩ | ⟨head, join, rfl, -⟩
    · have hdone : l.header ∉ p.loopsDone := by
        simpa using (Option.filter_eq_some_iff.1 hl).2
      exact hdone (label_loopBreakable_injective hlabel ▸ hk)
    · exact label_loopBreakable_ne l head join hlabel.symm

/-- The label of the switch at a block that has not been rendered is not that of a statement around. -/
theorem Framed.switch_label_not_mem (h : p.Framed) {id : BlockId} (hv : id ∉ p.visited)
    (join : Option BlockId) : (switchBreakable id join).label ∉ p.frames.map (·.label) := by
  intro hmem
  obtain ⟨b, hb, hlabel⟩ := List.mem_map.1 hmem
  rcases h.frames b hb with ⟨l, rfl, -⟩ | ⟨head, meet, rfl, hhead⟩
  · exact label_loopBreakable_ne l id join hlabel
  · exact hv (label_switchBreakable_injective hlabel ▸ hhead)

/-- A switch at a rendered block may be entered, if no statement around has its label. -/
theorem Framed.enterSwitch (h : p.Framed) {id : BlockId} {join : Option BlockId} (hv : id ∈ p.visited)
    (hlabel : (switchBreakable id join).label ∉ p.frames.map (·.label)) :
    (p.entered (switchBreakable id join)).Framed where
  frames b hb := by
    rcases List.mem_cons.1 hb with rfl | hb
    · exact .inr ⟨id, join, rfl, hv⟩
    · exact h.frames b hb
  nodup := List.nodup_cons.2 ⟨hlabel, h.nodup⟩

end Progress

namespace Structurer

variable {st : Structurer} {p q : Progress} {ns notes : List Note} {around : List Enclosing}

/-! ## Parts of statements -/

/-- The jump that is written for going somewhere hits its target. -/
theorem Goes.placed {stops : List BlockId} {target : Option BlockId} {jump : List Stmt}
    {next : Option BlockId} (h : st.Goes p stops target jump next q ns) (hns : ns ⊆ notes)
    (hp : p.Framed) (hcov : Covers around q.breakables) : AllPlaced notes around jump := by
  cases h with
  | nowhere | stop | next => exact allPlaced_nil
  | goto => exact allPlaced_cons.2 ⟨.leaf rfl rfl, allPlaced_nil⟩
  | @jump t stmt bs _ hj =>
    obtain ⟨hframes, e, hmeant, hleads⟩ :=
      exists_meant?_of_jumpWithin hj hcov (fun b hb => hp.header_isSome hb) hp.nodup_labels
    have hhits : stmt.Hits notes around := ⟨t, e, hframes ▸ hns List.mem_cons_self, hmeant, hleads⟩
    exact allPlaced_cons.2 ⟨.jump (jumpRole_of_jumpWithin hj) hhits, allPlaced_nil⟩

/-- A loop or a switch hits its targets if what is inside it does, with the label in front of it that
its jumps have marked. -/
theorem placed_labelIf {b : Breakable} {stmt : Stmt} (hunmarked : b.labelUsed = false)
    (hext : (p.entered b).Extends q) (hnote : .enclosing b stmt ∈ notes)
    (hinside : ∀ inner, Covers inner q.breakables →
      stmt.jumpRole = (if b.header.isSome then .loop else .switch) ∧
        ∀ body ∈ stmt.childLists, AllPlaced notes inner body)
    (hcov : Covers around q.left.breakables) :
    (labelIf (q.breakables.head?.any (·.labelUsed)) b.label stmt).Placed notes around none := by
  obtain ⟨hrole, hbody⟩ := hinside _ (hcov.enter hunmarked hext)
  cases hused : q.breakables.head?.any (·.labelUsed) with
  | true =>
    rw [hused] at hbody
    exact .labeled (.enclosing ⟨hrole, by simp, stmt, _, hnote, .id, rfl⟩ hbody)
  | false =>
    rw [hused] at hbody
    exact .enclosing ⟨hrole, nofun, stmt, _, hnote, .id, rfl⟩ hbody

/-- Jumps in a branch are placed if they are in its arms. -/
theorem placed_ifOf (condition : Expr) {thenBody elseBody : List Stmt}
    (hthen : AllPlaced notes around thenBody) (helse : AllPlaced notes around elseBody) :
    (ifOf condition thenBody elseBody).Placed notes around none := by
  unfold ifOf
  split
  · exact .plain rfl (by simpa [childLists] using ⟨helse, hthen⟩)
  · exact .plain rfl (by simpa [childLists] using ⟨hthen, helse⟩)

/-- Jumps in a try statement are placed if they are in its parts. -/
theorem placed_tryCatch {body : List Stmt} {catches : List CatchClause}
    {finallyBody : Option (List Stmt)} (hbody : AllPlaced notes around body)
    (hcatches : ∀ c ∈ catches, AllPlaced notes around c.body)
    (hfinally : ∀ code ∈ finallyBody, AllPlaced notes around code) :
    (Stmt.tryCatch body catches finallyBody).Placed notes around none := by
  refine .plain rfl fun list hlist => ?_
  simp only [childLists, List.mem_append, List.mem_cons, List.mem_map, Option.mem_toList] at hlist
  rcases hlist with (rfl | ⟨c, hc, rfl⟩) | hcode
  · exact hbody
  · exact hcatches c hc
  · exact hfinally list hcode

/-- So are those in what becomes of it, with statements in front. -/
theorem allPlaced_tryStatement {out body : List Stmt} {catches : List CatchClause}
    {finallyBody : Option (List Stmt)} (hout : AllPlaced notes around out)
    (hbody : AllPlaced notes around body) (hcatches : ∀ c ∈ catches, AllPlaced notes around c.body)
    (hfinally : ∀ code ∈ finallyBody, AllPlaced notes around code) :
    AllPlaced notes around (st.tryStatement out body catches finallyBody) := by
  have hplain : AllPlaced notes around (out ++ [.tryCatch body catches finallyBody]) := by
    simpa using ⟨hout, placed_tryCatch hbody hcatches hfinally⟩
  unfold tryStatement
  split
  · rename_i first rest
    split
    · dsimp only
      have hstripped := hbody.stripCopies (normalize (first :: rest)) true
      split
      · rename_i object kept _ htake
        have hkept : AllPlaced notes around kept := hout.subset (subset_of_takeMonitorEnter? htake)
        refine allPlaced_append.2 ⟨hkept, allPlaced_cons.2 ⟨.plain rfl ?_, allPlaced_nil⟩⟩
        exact List.forall_mem_singleton.2 hstripped
      · refine allPlaced_append.2 ⟨hout, allPlaced_cons.2 ⟨?_, allPlaced_nil⟩⟩
        refine placed_tryCatch hstripped (fun c hc => ?_) hfinally
        obtain ⟨d, hd, rfl⟩ := List.mem_map.1 hc
        exact (hcatches d hd).stripCopies _ true
    · exact hplain
  · exact hplain

/-- An initialisation or an update holds no jumps. -/
theorem allPlaced_of_run_headBlock {id : Option BlockId} {stmts : List Stmt}
    (h : (st.headBlock id).run p = some (stmts, q)) : AllPlaced notes around stmts := by
  cases hb : id.bind st.graph.block? with
  | none =>
    unfold headBlock at h
    rw [hb] at h
    cases h
    exact allPlaced_nil
  | some b =>
    obtain ⟨id, rfl, hb⟩ := Option.bind_eq_some_iff.1 hb
    cases (st.run_headBlock hb).symm.trans h
    exact allPlaced_simple _

/-- The statements of a latch add no jumps to the body in front of them. -/
theorem allPlaced_of_run_latchCondition {l : Loop} {first body : List Stmt} {condition : Expr}
    (h : (st.latchCondition l first).run p = some ((body, condition), q))
    (hfirst : AllPlaced notes around first) : AllPlaced notes around body := by
  unfold latchCondition at h
  split at h
  · cases h
    exact hfirst
  · rename_i b hb
    rw [run_bind (run_visit l.latch), run_bind (st.run_simulate b [])] at h
    have hall : AllPlaced notes around
        (first ++ labelOf l.latch :: (b.simulate st.ctx []).statements.map .simple) :=
      allPlaced_append.2 ⟨hfirst, allPlaced_cons.2 ⟨.leaf rfl rfl, allPlaced_simple _⟩⟩
    dsimp only at h
    split at h <;> (cases h; exact hall)

/-- Jumps in a `for` loop are placed if they are in its head and its body. -/
theorem allPlaced_forLoop {init update body : List Stmt} {condition : Expr}
    (hinit : AllPlaced notes around init) (hupdate : AllPlaced notes around update)
    (hbody : AllPlaced notes around body) :
    ∀ list ∈ (Stmt.forLoop init condition update body).childLists, AllPlaced notes around list := by
  simp [childLists, hinit, hupdate, hbody]

/-- A loop through elements is written as one, or as the `for` loop it stands for. -/
theorem of_run_forEachLoop {l : Loop} {init update body : List Stmt} {condition : Expr} {stmt : Stmt}
    (h : (st.forEachLoop l init condition update body).run p = some (stmt, q)) :
    (∃ var iterable rest, stmt = .forEach var iterable rest ∧ rest ⊆ body) ∨
      stmt = .forLoop init condition update body := by
  unfold forEachLoop at h
  dsimp only at h
  split at h
  · rename_i iterable var rest _ htake
    cases h
    exact .inl ⟨var, iterable, rest, rfl, subset_of_takeElement? htake⟩
  · cases h
    exact .inr rfl

/-! ## Runs -/

/-- What has to hold at the start of a piece of work: a block is about to be rendered for the first time,
and while it is, no statement around has the label of a switch at it. -/
def Work.Ready (p : Progress) : Work → Prop
  | .element _ id .. => id ∉ p.visited
  | .block _ b .. =>
    b.id ∈ p.visited ∧ ∀ join, (switchBreakable b.id join).label ∉ p.frames.map (·.label)
  | _ => True

/-- All jumps in what a piece of work has written hit their targets. -/
def Work.Placed (notes : List Note) (around : List Enclosing) : Work → Prop
  | .list out _ _ result => AllPlaced notes around out → AllPlaced notes around result
  | .element out _ _ _ result | .block out _ _ _ result | .ifElse out _ _ _ result =>
    AllPlaced notes around out → AllPlaced notes around result.1
  | .branch _ _ result => AllPlaced notes around result
  | .arms _ _ _ result => ∀ c ∈ result, AllPlaced notes around c.body
  | .loop _ result =>
    result.jumpRole = .loop ∧ ∀ body ∈ result.childLists, AllPlaced notes around body
  | .catches _ _ result => ∀ c ∈ result, AllPlaced notes around c.body
  | .final _ _ result =>
    (∀ c ∈ result.1, AllPlaced notes around c.body) ∧ ∀ code ∈ result.2, AllPlaced notes around code

/-- All jumps that a run writes hit their targets, whatever statements are around that have the labels
marked in the end. -/
theorem Runs.placed {w : Work} (h : st.Runs w p q ns) (hns : ns ⊆ notes) (hp : p.Framed)
    (hw : w.Ready p) (hcov : Covers around q.breakables) : w.Placed notes around := by
  -- one case for each piece of work: what it writes is placed if its parts are
  induction h generalizing around with
  | done => exact id
  | again => exact fun hout => allPlaced_append.2 ⟨hout, allPlaced_cons.2 ⟨.leaf rfl rfl, allPlaced_nil⟩⟩
  | step hv hfirst hrest ihfirst ihrest =>
    obtain ⟨hns₁, hns₂⟩ := List.append_subset.1 hns
    exact fun hout => ihrest hns₂ (hp.extends hfirst.extends) trivial hcov
      (ihfirst hns₁ hp hv (hcov.of_extends hrest.extends) hout)
  | branch hgo hrest ih =>
    obtain ⟨hns₁, hns₂⟩ := List.append_subset.1 hns
    exact ih hns₂ (hp.extends hgo.extends) trivial hcov
      (hgo.placed hns₁ hp (hcov.of_extends hrest.extends))
  | missing => exact id
  | @run p q out id stack stops b result ns ht hl hb hrest ih =>
    have hid : b.id = id := FlowGraph.id_of_block? hb
    have hext : p.Extends (st.ran b stack p) := st.extends_ran b stack
    refine fun hout => ih hns (hp.extends hext) ⟨List.mem_cons_self, fun join => ?_⟩ hcov ?_
    · rw [hext.frames_eq, hid]
      exact hp.switch_label_not_mem hw join
    · exact allPlaced_append.2 ⟨hout, allPlaced_cons.2 ⟨.leaf rfl rfl, allPlaced_simple _⟩⟩
  -- a loop: its body is placed inside, its label and what follows are placed around
  | @loop p q r out id stack stops l stmt jump next _ _ ht hl hbody hgo ih =>
    obtain ⟨hns₁, hrest⟩ := List.append_subset.1 hns
    obtain ⟨hnote, hns₂⟩ := List.cons_subset.1 hrest
    have hleft : p.Extends q.left := (p.extends_started l.header).trans hbody.extends.left
    have hstmt := placed_labelIf rfl hbody.extends hnote
      (fun inner hinner => ih hns₁ (hp.enterLoop hl) trivial hinner) (hcov.of_extends hgo.extends)
    have hlabels : AllPlaced notes around (loopLabels l) := by
      unfold loopLabels
      refine allPlaced_cons.2 ⟨.leaf rfl rfl, ?_⟩
      split
      · exact allPlaced_cons.2 ⟨.leaf rfl rfl, allPlaced_nil⟩
      · exact allPlaced_nil
    have hjump := hgo.placed hns₂ (hp.extends hleft) hcov
    exact fun hout => by simpa only [allPlaced_append, allPlaced_cons, allPlaced_nil, and_true] using
      ⟨⟨⟨hout, hlabels⟩, hstmt⟩, hjump⟩
  | @tryCatch p _ _ _ _ _ _ _ _ i _ _ _ _ _ _ _ _ _ _ hi hr hbody hcatches hfinal hgo ihbody ihcatches
      ihfinal =>
    obtain ⟨hns₁₂₃, hns₄⟩ := List.append_subset.1 hns
    obtain ⟨hns₁₂, hns₃⟩ := List.append_subset.1 hns₁₂₃
    obtain ⟨hns₁, hns₂⟩ := List.append_subset.1 hns₁₂
    have hstart := hp.extends (p.extends_tried i)
    have hframed₁ := hstart.extends hbody.extends
    have hframed₂ := hframed₁.extends hcatches.extends
    have hcov₃ := hcov.of_extends hgo.extends
    have hcov₂ := hcov₃.of_extends hfinal.extends
    have hlast := ihfinal hns₃ hframed₂ trivial hcov₃
    have hclauses := ihcatches hns₂ hframed₁ trivial hcov₂
    have hinside := ihbody hns₁ hstart trivial (hcov₂.of_extends hcatches.extends) allPlaced_nil
    refine fun hout => allPlaced_append.2 ⟨allPlaced_tryStatement hout hinside ?_ hlast.2,
      hgo.placed hns₄ (hframed₂.extends hfinal.extends) hcov⟩
    exact List.forall_mem_append.2 ⟨hclauses, hlast.1⟩
  | leaves => exact id
  | goes _ hgo => exact fun hout => allPlaced_append.2 ⟨hout, hgo.placed hns hp hcov⟩
  | @value _ q _ _ _ _ _ _ _ _ _ t _ _ _ _ _ _ hm _ hgo =>
    have hframed : (q.rendered [t.fallthrough, t.taken]).Framed :=
      hp.extends (hm.extends.trans (q.extends_rendered _))
    exact fun hout => allPlaced_append.2 ⟨hout, hgo.placed hns hframed hcov⟩
  | test _ hm _ _ ih => exact ih hns (hp.extends (hm.extends.trans (extends_dropped _ _))) trivial hcov
  -- a switch: `break` means it in all of its arms
  | @switch p _ _ _ b _ _ _ _ _ _ _ _ _ hb harms hgo ih =>
    obtain ⟨hns₁, hrest⟩ := List.append_subset.1 hns
    obtain ⟨hnote, hns₂⟩ := List.cons_subset.1 hrest
    have hentered := hp.enterSwitch hw.1 (hw.2 (st.postDominator? p b.id))
    have hstmt := placed_labelIf rfl harms.extends hnote
      (fun inner hinner => ⟨rfl, List.forall_mem_map.2 (ih hns₁ hentered trivial hinner)⟩)
      (hcov.of_extends hgo.extends)
    have hjump := hgo.placed hns₂ (hp.extends harms.extends.left) hcov
    exact fun hout => by simpa only [allPlaced_append, allPlaced_cons, allPlaced_nil, and_true] using
      ⟨⟨hout, hstmt⟩, hjump⟩
  | jsr _ hgo =>
    have hjump := hgo.placed hns (hp.extends (Progress.extends_warned _ _)) hcov
    exact fun hout => by simpa only [allPlaced_append, allPlaced_cons, allPlaced_nil, and_true] using
      ⟨⟨hout, .leaf rfl rfl⟩, hjump⟩
  | ret => exact fun hout => allPlaced_append.2 ⟨hout, allPlaced_cons.2 ⟨.leaf rfl rfl, allPlaced_nil⟩⟩
  | @ifElse _ _ _ _ _ _ t _ join _ _ _ _ _ _ _ _ hthen helse hgo ihthen ihelse =>
    obtain ⟨hns₁₂, hns₃⟩ := List.append_subset.1 hns
    obtain ⟨hns₁, hns₂⟩ := List.append_subset.1 hns₁₂
    have hframed := hp.extends hthen.extends
    have hcov₂ := hcov.of_extends hgo.extends
    have hstmt := placed_ifOf (armsOf t join).1 (ihthen hns₁ hp trivial (hcov₂.of_extends helse.extends))
      (ihelse hns₂ hframed trivial hcov₂)
    have hjump := hgo.placed hns₃ (hframed.extends helse.extends) hcov
    exact fun hout => by simpa only [allPlaced_append, allPlaced_cons, allPlaced_nil, and_true] using
      ⟨⟨hout, hstmt⟩, hjump⟩
  | noArms => exact List.forall_mem_nil _
  | arm hbody hrest ihbody ihrest =>
    obtain ⟨hns₁, hns₂⟩ := List.append_subset.1 hns
    exact List.forall_mem_cons.2 ⟨ihbody hns₁ hp trivial (hcov.of_extends hrest.extends),
      ihrest hns₂ (hp.extends hbody.extends) trivial hcov⟩
  | whileLoop _ hc hbody ih =>
    have hframed := hp.extends (extends_of_run_loopCondition hc)
    exact ⟨rfl, List.forall_mem_singleton.2 (ih hns hframed trivial hcov)⟩
  | forLoop _ hi hc hbody hu ih =>
    have hframed := hp.extends ((extends_of_run_headBlock hi).trans (extends_of_run_loopCondition hc))
    have hinside := ih hns hframed trivial (hcov.of_extends (extends_of_run_headBlock hu))
    exact ⟨rfl, allPlaced_forLoop (allPlaced_of_run_headBlock hi) (allPlaced_of_run_headBlock hu) hinside⟩
  | forEach _ hi hc hbody hu hs ih =>
    have hframed := hp.extends ((extends_of_run_headBlock hi).trans (extends_of_run_loopCondition hc))
    have hinside := ih hns hframed trivial
      (hcov.of_extends ((extends_of_run_headBlock hu).trans (extends_of_run_forEachLoop hs)))
    rcases of_run_forEachLoop hs with ⟨var, iterable, rest, rfl, hrest⟩ | rfl
    · exact ⟨rfl, List.forall_mem_singleton.2 (hinside.subset hrest)⟩
    · exact ⟨rfl,
        allPlaced_forLoop (allPlaced_of_run_headBlock hi) (allPlaced_of_run_headBlock hu) hinside⟩
  | doWhileSelf _ _ hc =>
    exact ⟨rfl, List.forall_mem_singleton.2 (allPlaced_of_run_latchCondition hc allPlaced_nil)⟩
  | doWhile _ _ hbody hc ih =>
    have hfirst := ih hns hp trivial (hcov.of_extends (extends_of_run_latchCondition hc)) allPlaced_nil
    exact ⟨rfl, List.forall_mem_singleton.2 (allPlaced_of_run_latchCondition hc hfirst)⟩
  | endless _ hbody ih =>
    exact ⟨rfl, List.forall_mem_singleton.2 (ih hns hp trivial hcov allPlaced_nil)⟩
  | noCatches => exact List.forall_mem_nil _
  | skipCatch _ _ ih => exact ih hns hp trivial hcov
  | catchClause _ hbody hrest ihbody ihrest =>
    obtain ⟨hns₁, hns₂⟩ := List.append_subset.1 hns
    have hinside := ihbody hns₁ hp trivial (hcov.of_extends hrest.extends) allPlaced_nil
    exact List.forall_mem_cons.2 ⟨hinside.subset (takeCatchVar_subset _),
      ihrest hns₂ (hp.extends hbody.extends) trivial hcov⟩
  | noFinally => exact ⟨List.forall_mem_nil _, by simp⟩
  -- a `finally` part is written as such, or as a clause for every exception
  | @«finally» p q inner handler body ns hv hbody ih =>
    have hinside := ih hns hp trivial hcov allPlaced_nil
    show (∀ c ∈ (finallyOf body).1, _) ∧ ∀ code ∈ (finallyOf body).2, _
    unfold finallyOf
    cases hcode : finallyCode? body with
    | some code =>
      have hsub := (sublist_of_finallyCode? hcode).subset
      exact ⟨List.forall_mem_nil _, by simpa using hinside.subset hsub⟩
    | none => exact ⟨List.forall_mem_singleton.2 (hinside.subset (takeCatchVar_subset _)), by simp⟩

end Structurer

/-- Nothing is being written at the start. -/
theorem Progress.framed_start : Progress.start.Framed where
  frames := nofun
  nodup := List.nodup_nil

/-- Every `break` and `continue` in the statements of a method means one loop or switch, and that leads
to the block that the jump has been written for. -/
theorem FlowGraph.structured_allPlaced (g : FlowGraph) (ctx : SimContext) (method : String)
    (strip : Bool) :
    ∃ statements p notes, g.structuring? ctx method strip = some (statements, p) ∧
      (Structurer.ofGraph g ctx method strip).Runs (.list [] (some (g.entry, [])) [] statements) .start p
        notes ∧
      AllPlaced notes [] (g.structured ctx method strip).statements := by
  obtain ⟨statements, p, notes, hrun, hruns⟩ := g.exists_runs_structuring ctx method strip
  refine ⟨statements, p, notes, hrun, hruns, ?_⟩
  -- behind the last statement nothing is around any more
  have hnone : Covers [] p.breakables := by
    have hframes := hruns.extends.breakables
    rw [List.forall₂_nil_left_iff.1 hframes]
    exact .nil
  have hall : AllPlaced notes [] statements :=
    hruns.placed (List.Subset.refl _) Progress.framed_start trivial hnone allPlaced_nil
  by_cases hne : g.blocks = []
  · have hempty : (g.structured ctx method strip).statements = [] := by
      simp [structured, structured?, hne]
    rw [hempty]
    exact allPlaced_nil
  · rw [(warnings_structured_of_structuring? hne hrun).1]
    exact hall.retainLabels _

end JvmDecompiler
