import JvmDecompiler.Proofs.BlockEnds
import Mathlib.Logic.Relation

/-!
# Blocks that hand control on

A block without instructions of its own hands control on to one other block. From any block the ways
through such blocks either end at a block that keeps control, or run into a ring. `FlowGraph.follow`
finds the end if there is one; on the way into a ring it finds the block of the ring before the one
where it came in.
-/

namespace JvmDecompiler

open Relation (ReflTransGen TransGen)

/-- The block does nothing but hand control on to `t`. -/
def Block.HandsTo (b : Block) (t : BlockId) : Prop :=
  b.terminator = .goto t ∧ b.instructions.length = 1 ∨ b.terminator = .fallThrough t ∧ b.instructions = []

/-- A block hands control on to one block only. -/
theorem Block.HandsTo.unique {b : Block} {t u : BlockId} (ht : b.HandsTo t) (hu : b.HandsTo u) : t = u := by
  rcases ht with ⟨ht, -⟩ | ⟨ht, -⟩ <;> rcases hu with ⟨hu, -⟩ | ⟨hu, -⟩ <;>
    · rw [ht] at hu
      cases hu
      try rfl

/-- A sealed block that does nothing but hand control on is what the search for the end of a jump passes
through. -/
theorem Block.Sealed.exists_handsTo {b : Block} (hb : b.Sealed) :
    b.isGotoOnly = true ↔ ∃ t, b.HandsTo t := by
  unfold isGotoOnly body HandsTo
  cases hterm : b.terminator with
  | fallThrough t => simp
  | goto t =>
    cases hlast : b.instructions.getLast? with
    | none =>
      obtain ⟨u, hu⟩ := hb.empty (List.getLast?_eq_none_iff.1 hlast)
      rw [hterm] at hu
      cases hu
    | some last =>
      have hends := hb.last last hlast
      obtain ⟨rest, hrest⟩ := List.getLast?_eq_some_iff.1 hlast
      have hop : last.operation.endsBlock = true := by
        cases hop : last.operation <;> simp [hterm, hop, Terminator.endsWith] at hends
        rfl
      simp [hop, hrest]
  | branch | switch | «return» | throw | jsr | ret => simp

namespace FlowGraph

variable {g h : FlowGraph} {a b e r t u x y : BlockId}

/-- A block that keeps no place of its own and does nothing but hand control on. -/
def HandsOn (g : FlowGraph) (a t : BlockId) : Prop :=
  a ∉ g.boundaries ∧ ∃ b, g.block? a = some b ∧ b.HandsTo t

/-- In a graph, too, a block hands control on to one block only. -/
theorem HandsOn.unique (ht : g.HandsOn a t) (hu : g.HandsOn a u) : t = u := by
  obtain ⟨-, b, hb, hbt⟩ := ht
  obtain ⟨-, c, hc, hcu⟩ := hu
  rw [hb] at hc
  cases hc
  exact hbt.unique hcu

/-- What hands control on is a block of the graph. -/
theorem HandsOn.mem_ids (ht : g.HandsOn a t) : a ∈ g.ids := by
  obtain ⟨-, b, hb, -⟩ := ht
  exact mem_ids_iff.2 ⟨b, hb⟩

/-- Control stays at the block, or leaves it in a way of the block's own. -/
def Rests (g : FlowGraph) (a : BlockId) : Prop := ∀ t, ¬g.HandsOn a t

/-- The way through blocks that hand control on comes back to the block. -/
def OnRing (g : FlowGraph) (a : BlockId) : Prop := TransGen g.HandsOn a a

/-- The way from `a` through blocks that hand control on ends at `e`. -/
structure EndsAt (g : FlowGraph) (a e : BlockId) : Prop where
  way : ReflTransGen g.HandsOn a e
  rests : g.Rests e

/-! ## Ways and rings -/

/-- Every block on a ring hands control on. -/
theorem OnRing.exists_handsOn (ha : g.OnRing a) : ∃ t, g.HandsOn a t := by
  obtain ⟨t, ht, -⟩ := TransGen.head'_iff.1 ha
  exact ⟨t, ht⟩

/-- Control does not rest on a ring. -/
theorem OnRing.not_rests (ha : g.OnRing a) : ¬g.Rests a := fun hk => by
  obtain ⟨t, ht⟩ := ha.exists_handsOn
  exact hk t ht

/-- From a block of a ring the way leads back to it, also from further on. -/
theorem OnRing.back (ha : g.OnRing a) (hx : ReflTransGen g.HandsOn a x) : TransGen g.HandsOn x a := by
  induction hx with
  | refl => exact ha
  | @tail y z _ hyz ih =>
    obtain ⟨w, hyw, hwa⟩ := TransGen.head'_iff.1 ih
    obtain rfl := hyz.unique hyw
    rcases ReflTransGen.cases_head_iff.1 hwa with heq | ⟨v, hv, hva⟩
    · exact heq ▸ ha
    · exact TransGen.head' hv hva

/-- From a ring control comes only to the ring. -/
theorem OnRing.of_way (ha : g.OnRing a) (hx : ReflTransGen g.HandsOn a x) : g.OnRing x := by
  have hback := ha.back hx
  exact TransGen.trans_left hback hx

/-- From a ring control is handed on to the ring. -/
theorem OnRing.step (ha : g.OnRing a) (ht : g.HandsOn a t) : g.OnRing t := ha.of_way (.single ht)

/-- A set that is left by no block handing control on is left by no way. -/
theorem mem_of_closed {S : List BlockId} (hS : ∀ x ∈ S, ∀ y, g.HandsOn x y → y ∈ S) (ha : a ∈ S)
    (hx : ReflTransGen g.HandsOn a x) : x ∈ S := by
  induction hx with
  | refl => exact ha
  | tail _ hyz ih => exact hS _ ih _ hyz

/-- A way ends where it ends behind its first step. -/
theorem EndsAt.head (ht : g.HandsOn a t) (he : g.EndsAt t e) : g.EndsAt a e :=
  ⟨.head ht he.way, he.rests⟩

/-- A way ends where it starts if control rests there. -/
theorem Rests.endsAt (ha : g.Rests a) : g.EndsAt a a := ⟨.refl, ha⟩

/-- A way ends at one block only. -/
theorem EndsAt.of_handsOn (he : g.EndsAt a e) (ht : g.HandsOn a t) : g.EndsAt t e := by
  rcases ReflTransGen.cases_head_iff.1 he.way with heq | ⟨u, hu, hue⟩
  · exact absurd ht (heq ▸ he.rests t)
  · obtain rfl := ht.unique hu
    exact ⟨hue, he.rests⟩

/-- Behind any part of it a way ends at the same place. -/
theorem EndsAt.of_way (he : g.EndsAt a e) (hx : ReflTransGen g.HandsOn a x) : g.EndsAt x e := by
  induction hx with
  | refl => exact he
  | tail _ hyz ih => exact ih.of_handsOn hyz

/-- A way ends at one place only. -/
theorem EndsAt.unique (he : g.EndsAt a e) (hx : g.EndsAt a x) : x = e := by
  rcases ReflTransGen.cases_head_iff.1 (he.of_way hx.way).way with heq | ⟨u, hu, -⟩
  · exact heq
  · exact absurd hu (hx.rests u)

/-- A way that ends does not start on a ring. -/
theorem EndsAt.not_onRing (he : g.EndsAt a e) : ¬g.OnRing a := fun ha =>
  (ha.of_way he.way).not_rests he.rests

/-! ## Following a jump -/

/-- Following stops where control rests. -/
theorem followFrom_of_rests (hs : g.Sealed) (ha : g.Rests a) (steps : Nat) (seen : List BlockId) :
    g.followFrom g.boundaries steps seen a = a := by
  cases steps with
  | zero => rfl
  | succ steps =>
    unfold followFrom
    by_cases hbound : a ∈ g.boundaries
    · rw [if_pos (by simpa using hbound)]
    rw [if_neg (by simpa using hbound)]
    cases hb : g.block? a with
    | none => rfl
    | some b =>
      dsimp only
      have hnot : ¬b.isGotoOnly = true := by
        rw [(hs b (mem_of_block? hb)).exists_handsTo]
        rintro ⟨t, ht⟩
        exact ha t ⟨hbound, b, hb, ht⟩
      rw [if_neg hnot]

/-- Following goes on where control is handed on to, unless it has been there. -/
theorem followFrom_of_handsOn (hs : g.Sealed) (ha : g.HandsOn a t) (steps : Nat) (seen : List BlockId) :
    g.followFrom g.boundaries (steps + 1) seen a =
      if t = a ∨ t ∈ seen then a else g.followFrom g.boundaries steps (a :: seen) t := by
  obtain ⟨hbound, b, hb, ht⟩ := ha
  have hgoto : b.isGotoOnly = true := (hs b (mem_of_block? hb)).exists_handsTo.2 ⟨t, ht⟩
  rw [followFrom, if_neg (by simpa using hbound), hb]
  dsimp only
  rw [if_pos hgoto]
  rcases ht with ⟨hterm, -⟩ | ⟨hterm, -⟩ <;>
  · rw [hterm]
    simp

/-- A way without repetition through blocks that hand control on, the last block first. -/
structure Trail (g : FlowGraph) (way : List BlockId) : Prop where
  chain : way.IsChain fun later earlier => g.HandsOn earlier later
  nodup : way.Nodup

namespace Trail

variable {way : List BlockId}

/-- Without its last block a trail is a trail. -/
theorem tail (ht : g.Trail (x :: y :: way)) : g.HandsOn y x ∧ g.Trail (y :: way) := by
  obtain ⟨hyx, hrest⟩ := List.isChain_cons_cons.1 ht.chain
  exact ⟨hyx, hrest, (List.nodup_cons.1 ht.nodup).2⟩

/-- A trail may go on to a block that it has not come through. -/
theorem cons (ht : g.Trail (y :: way)) (hyx : g.HandsOn y x) (hx : x ∉ y :: way) :
    g.Trail (x :: y :: way) :=
  ⟨List.isChain_cons_cons.2 ⟨hyx, ht.chain⟩, List.nodup_cons.2 ⟨hx, ht.nodup⟩⟩

/-- Every block of the way but the last hands on to a block of the way. -/
theorem exists_handsOn (ht : g.Trail (r :: way)) (hx : x ∈ way) : ∃ y ∈ r :: way, g.HandsOn x y := by
  induction way generalizing r with
  | nil => cases hx
  | cons z way ih =>
    obtain ⟨hzr, hrest⟩ := ht.tail
    rcases List.mem_cons.1 hx with rfl | hx
    · exact ⟨r, List.mem_cons_self, hzr⟩
    · obtain ⟨y, hy, hxy⟩ := ih hrest hx
      exact ⟨y, List.mem_cons_of_mem _ hy, hxy⟩

/-- The last block of the way is reached from every other. -/
theorem way_to (ht : g.Trail (r :: way)) (hx : x ∈ r :: way) : ReflTransGen g.HandsOn x r := by
  induction way generalizing r with
  | nil =>
    obtain rfl := List.mem_singleton.1 hx
    exact .refl
  | cons z way ih =>
    obtain ⟨hzr, hrest⟩ := ht.tail
    rcases List.mem_cons.1 hx with rfl | hx
    · exact .refl
    · exact (ih hrest hx).tail hzr

/-- A way without repetition has no more blocks than the graph, the last one apart. -/
theorem length_le (ht : g.Trail (r :: way)) : way.length ≤ g.ids.length := by
  refine (List.nodup_cons.1 ht.nodup).2.length_le_of_subset fun x hx => ?_
  obtain ⟨y, -, hxy⟩ := ht.exists_handsOn hx
  exact hxy.mem_ids

end Trail

/-- Where the search for the end of a jump stops: where control rests, or before it goes round. -/
theorem exists_trail_followFrom (hs : g.Sealed) {steps : Nat} {seen : List BlockId}
    (ht : g.Trail (a :: seen)) (hsteps : g.ids.length < seen.length + steps) :
    ∃ way, g.Trail (g.followFrom g.boundaries steps seen a :: way) ∧
      a :: seen <:+ g.followFrom g.boundaries steps seen a :: way ∧
      (g.Rests (g.followFrom g.boundaries steps seen a) ∨
        ∃ u ∈ g.followFrom g.boundaries steps seen a :: way,
          g.HandsOn (g.followFrom g.boundaries steps seen a) u) := by
  induction steps generalizing a seen with
  | zero =>
    have := ht.length_le
    omega
  | succ steps ih =>
    by_cases hrests : g.Rests a
    · rw [followFrom_of_rests hs hrests]
      exact ⟨seen, ht, List.suffix_refl _, .inl hrests⟩
    simp only [Rests, not_forall, not_not] at hrests
    obtain ⟨t, hat⟩ := hrests
    rw [followFrom_of_handsOn hs hat]
    by_cases hstop : t = a ∨ t ∈ seen
    · rw [if_pos hstop]
      exact ⟨seen, ht, List.suffix_refl _, .inr ⟨t, List.mem_cons.2 hstop, hat⟩⟩
    · rw [if_neg hstop]
      have hnew : t ∉ a :: seen := fun hmem => hstop (List.mem_cons.1 hmem)
      obtain ⟨way, hway, hsuffix, hend⟩ := ih (ht.cons hat hnew) (by
        rw [List.length_cons]
        omega)
      exact ⟨way, hway, (List.suffix_cons t _).trans hsuffix, hend⟩

/-- Following a way leaves a trail, and stops where control rests or where the trail would come back to
itself. -/
theorem exists_trail_follow (hs : g.Sealed) (t : BlockId) : ∃ way,
    g.Trail (g.follow t :: way) ∧ (g.follow t :: way).getLast? = some t ∧
      (g.Rests (g.follow t) ∨ ∃ u ∈ g.follow t :: way, g.HandsOn (g.follow t) u) := by
  have hlength : g.ids.length < ([] : List BlockId).length + (g.blocks.length + 1) := by
    simp [ids]
  obtain ⟨way, hway, hsuffix, hend⟩ := exists_trail_followFrom (a := t) hs
    ⟨.singleton t, List.nodup_singleton t⟩ hlength
  obtain ⟨front, hfront⟩ := hsuffix
  refine ⟨way, hway, ?_, hend⟩
  unfold follow
  rw [← hfront]
  simp

/-- The jump ends where the way ends, or on a ring. -/
theorem endsAt_or_onRing_follow (hs : g.Sealed) (t : BlockId) :
    g.EndsAt t (g.follow t) ∨ ReflTransGen g.HandsOn t (g.follow t) ∧ g.OnRing (g.follow t) := by
  obtain ⟨way, hway, hlast, hend⟩ := exists_trail_follow hs t
  have hreach := hway.way_to (List.mem_of_getLast? hlast)
  rcases hend with hrests | ⟨u, hu, hru⟩
  · exact .inl ⟨hreach, hrests⟩
  · exact .inr ⟨hreach, TransGen.head' hru (hway.way_to hu)⟩

/-- A jump ends where the way ends. -/
theorem EndsAt.follow_eq (hs : g.Sealed) (he : g.EndsAt t e) : g.follow t = e := by
  rcases endsAt_or_onRing_follow hs t with hend | ⟨hway, hring⟩
  · exact he.unique hend
  · exact absurd hring (he.of_way hway).not_onRing

/-- Where control rests there is nothing to follow. -/
theorem Rests.follow_eq (hs : g.Sealed) (ht : g.Rests t) : g.follow t = t := ht.endsAt.follow_eq hs

/-- In a way without repetition no block hands on to the first block. -/
theorem Trail.not_handsOn_first {way : List BlockId} (ht : g.Trail (r :: way))
    (hlast : (r :: way).getLast? = some t) (hx : x ∈ way) : ¬g.HandsOn x t := by
  induction way generalizing r with
  | nil => cases hx
  | cons z way ih =>
    obtain ⟨hzr, hrest⟩ := ht.tail
    rw [List.getLast?_cons_cons] at hlast
    rcases List.mem_cons.1 hx with rfl | hx
    · intro hxt
      obtain rfl := hzr.unique hxt
      exact (List.nodup_cons.1 ht.nodup).1 (List.mem_of_getLast? hlast)
    · exact ih hrest hlast hx

/-- On a ring a jump ends at the block before the one that it leads to. -/
theorem OnRing.follow_eq (hs : g.Sealed) (hp : g.OnRing a) (ht : g.HandsOn a t) : g.follow t = a := by
  obtain ⟨way, hway, hlast, hend⟩ := exists_trail_follow hs t
  have hring := (hp.step ht).of_way (hway.way_to (List.mem_of_getLast? hlast))
  obtain ⟨u, hu, hru⟩ := hend.resolve_left hring.not_rests
  -- the blocks of the way are the blocks of the ring, so `a` is among them
  have hclosed : ∀ x ∈ g.follow t :: way, ∀ y, g.HandsOn x y → y ∈ g.follow t :: way := by
    intro x hx y hxy
    rcases List.mem_cons.1 hx with rfl | hx
    · exact hxy.unique hru ▸ hu
    · obtain ⟨z, hz, hxz⟩ := hway.exists_handsOn hx
      exact hxy.unique hxz ▸ hz
  obtain ⟨v, hav, hva⟩ := TransGen.head'_iff.1 hp
  obtain rfl := ht.unique hav
  have hmem := mem_of_closed hclosed (List.mem_of_getLast? hlast) hva
  rcases List.mem_cons.1 hmem with heq | hmem
  · exact heq.symm
  · exact absurd ht (hway.not_handsOn_first hlast hmem)

/-! ## Rings in changed graphs -/

/-- A ring stays if its blocks do. -/
theorem OnRing.mono (ha : g.OnRing a)
    (hstep : ∀ x y, g.OnRing x → g.HandsOn x y → h.HandsOn x y) : h.OnRing a := by
  have key : ∀ x, TransGen g.HandsOn x a → g.OnRing x → TransGen h.HandsOn x a := by
    intro x hx
    induction hx using TransGen.head_induction_on with
    | single hxy => exact fun hring => .single (hstep _ _ hring hxy)
    | head hxy _ ih => exact fun hring => .head (hstep _ _ hring hxy) (ih (hring.step hxy))
  exact key a ha ha

end FlowGraph

end JvmDecompiler
