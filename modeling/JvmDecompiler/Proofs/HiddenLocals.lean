import JvmDecompiler.Proofs.LocalValues
import JvmDecompiler.Proofs.LoopInitialisation

/-!
# Hidden locals of loops through elements

A loop through the elements of an iterable object or of an array is written without its iterator, or without
the copy of the array, its length and the index. The locals that hold these are gone afterwards. So nothing
but the instructions of the pattern may read the values that the pattern stores in them
(`ForEachForm.Unused`), and the loop through an array has to end when the index comes to the length
(`Loop.LeavesAtLength`).

Recognising such a loop makes sure of the blocks and the instructions of the pattern (`Loop.HasForm`), of no
more: it neither looks for other instructions that read a hidden local, nor at how the header compares index
and length. `FlowGraph.forEach_safe_iff` gives the check that is missing: a search for the instructions that
read the hidden locals, and a look at the comparison. `FlowGraph.forEach_unsafe` is a loop that fails both.
-/

namespace JvmDecompiler

/-! ## The test in the header -/

/-- What a comparison says of two `int`s. -/
def CompareOp.holds : CompareOp → Int32 → Int32 → Bool
  | .eq, a, b => a = b
  | .ne, a, b => a ≠ b
  | .lt, a, b => a < b
  | .ge, a, b => b ≤ a
  | .gt, a, b => b < a
  | .le, a, b => a ≤ b

/-- Where a branch on a comparison of two `int`s leads. -/
def Terminator.onInts? : Terminator → Int32 → Int32 → Option BlockId
  | .branch (.intCompare op) ifTrue ifFalse, a, b => some (if op.holds a b then ifTrue else ifFalse)
  | _, _, _ => none

/-- The header leaves the loop exactly when the index is not below the length. -/
def Loop.LeavesAtLength (l : Loop) (g : FlowGraph) : Prop :=
  ∃ b, g.block? l.header = some b ∧ ∀ index length : Int32,
    ∃ t, b.terminator.onInts? index length = some t ∧ (t ∉ l.body ↔ ¬index < length)

/-- Whether the header compares index and length in the way that ends the loop at the length. -/
def Loop.comparesLength (l : Loop) (g : FlowGraph) : Bool :=
  match (g.block? l.header).map Block.terminator with
  | some (.branch (.intCompare .ge) outside inside) | some (.branch (.intCompare .lt) inside outside) =>
    l.body.contains inside && !l.body.contains outside
  | _ => false

/-- Whether a loop is left at the length can be computed. -/
theorem Loop.leavesAtLength_iff {l : Loop} {g : FlowGraph} :
    l.LeavesAtLength g ↔ l.comparesLength g = true := by
  unfold LeavesAtLength comparesLength
  cases hb : g.block? l.header with
  | none => simp
  | some b =>
    simp only [Option.some.injEq, exists_eq_left', Option.map_some]
    cases hterm : b.terminator with
    | branch c ifTrue ifFalse =>
      cases c with
      | intCompare op =>
        simp only [Terminator.onInts?, Option.some.injEq, exists_eq_left']
        constructor
        · intro hleaves
          -- three pairs of numbers tell the comparisons apart
          have hequal := hleaves 0 0
          have hbelow := hleaves 0 1
          have habove := hleaves 1 0
          cases op <;> simp_all [CompareOp.holds]
        · intro hcompares index length
          cases op with
          | lt =>
            obtain ⟨hin, hout⟩ : ifTrue ∈ l.body ∧ ifFalse ∉ l.body := by simpa using hcompares
            by_cases hlt : index < length <;> simp [CompareOp.holds, hlt, hin, hout]
          | ge =>
            obtain ⟨hin, hout⟩ : ifFalse ∈ l.body ∧ ifTrue ∉ l.body := by simpa using hcompares
            by_cases hle : length ≤ index <;> simp [CompareOp.holds, hle, hin, hout]
          | _ => simp at hcompares
      | _ => simp [Terminator.onInts?]
    | _ => simp [Terminator.onInts?]

/-! ## The pattern -/

/-- What the instructions of a row do. -/
abbrev operations (row : List PlacedInstruction) : List Instruction := row.map PlacedInstruction.operation

/-- The place in a block in front of the last instructions of its body, as many as `count`. -/
def Block.placeBefore (b : Block) (count : Nat) : Place := (b.id, b.instructions.drop (b.body.length - count))

/-- What the pattern of a loop through elements does with its hidden locals. -/
structure ForEachForm where
  /-- The slots it stores values in, with the places behind the instructions that do. -/
  stored : List (UInt16 × Place)
  /-- The instructions that read a hidden local. -/
  uses : List PlacedInstruction

namespace ForEachForm

/-- The iterator is stored at the end of the initialisation, and read where the header and the body start. -/
def ofIterator (slot : UInt16) (init header first : Block) : ForEachForm where
  stored := [(slot, init.placeBefore 0)]
  uses := header.instructions.take 1 ++ first.instructions.take 1

/-- The array is stored and read for its length, then the length and the index are stored. The header reads
these two, the body starts with reading the array and the index, and the update adds to the index. -/
def ofArray (array length index : UInt16) (init header first update : Block) : ForEachForm where
  stored := [(array, init.placeBefore 5), (length, init.placeBefore 2), (index, init.placeBefore 0),
    (index, update.placeBefore 0)]
  uses := (init.placeBefore 5).2.take 1 ++ header.instructions.take 2 ++ first.instructions.take 2 ++
    (update.placeBefore 1).2.take 1

/-- Nothing but the pattern reads the values that it stores. -/
def Unused (f : ForEachForm) (g : FlowGraph) : Prop :=
  ∀ value ∈ f.stored, ∀ i, g.ReadsValue value.1 value.2 i → i ∈ f.uses

/-- Whether the search finds nothing but the pattern. -/
def isUnused (f : ForEachForm) (g : FlowGraph) : Bool :=
  f.stored.all fun value => (g.readers value.1 value.2).all f.uses.contains

/-- Whether nothing else reads the hidden locals can be computed. -/
theorem unused_iff {f : ForEachForm} {g : FlowGraph} : f.Unused g ↔ f.isUnused g = true := by
  simp only [Unused, isUnused, List.all_eq_true, List.contains_iff_mem, FlowGraph.mem_readers_iff]

end ForEachForm

/-- The blocks of a loop with an initialisation: that one, the header, and the block where the body starts. -/
structure Loop.HasBlocks (l : Loop) (g : FlowGraph) (init header first : Block) : Prop where
  init : l.init = some init.id ∧ g.block? init.id = some init
  header : g.block? l.header = some header
  first : first.id ∈ g.successors l.header ∧ first.id ∈ l.body ∧ g.block? first.id = some first

/-- There is one such row of blocks, if the header goes on to one block of the loop. -/
theorem Loop.HasBlocks.unique {l : Loop} {g : FlowGraph} {init header first init' header' first' : Block}
    (hone : ∀ a ∈ g.successors l.header, ∀ b ∈ g.successors l.header, a ∈ l.body → b ∈ l.body → a = b)
    (h : l.HasBlocks g init header first) (h' : l.HasBlocks g init' header' first') :
    init = init' ∧ header = header' ∧ first = first' := by
  have hinit : init.id = init'.id := Option.some.inj (h.init.1.symm.trans h'.init.1)
  have hfirst : first.id = first'.id := hone _ h.first.1 _ h'.first.1 h.first.2.1 h'.first.2.1
  exact ⟨Option.some.inj ((hinit ▸ h.init.2).symm.trans h'.init.2),
    Option.some.inj (h.header.symm.trans h'.header),
    Option.some.inj ((hfirst ▸ h.first.2.2).symm.trans h'.first.2.2)⟩

/-- An iterator is made and stored, asked for more, and an element is taken from it and stored. -/
structure IteratorShape (pool : ConstantPool) (slot : UInt16) (init header first : Block) : Prop where
  init : ∃ before kind index type,
    operations init.body = before ++ [Instruction.invoke kind index, .store type slot] ∧
      FlowGraph.isMethod pool index "iterator" none = true
  header : ∃ kind index test,
    operations header.instructions = [Instruction.load .reference slot, .invoke kind index, test] ∧
      FlowGraph.isMethod pool index "hasNext" (some "()Z") = true
  first : ∃ type kind index rest,
    operations first.instructions = Instruction.load type slot :: .invoke kind index :: rest ∧
      FlowGraph.isMethod pool index "next" (some "()Ljava/lang/Object;") = true ∧
      ∃ casts stored element more, rest = casts ++ Instruction.store stored element :: more ∧
        ∀ i ∈ casts, ∃ c, i = .checkCast c

/-- An array, its length and the index zero are stored, the last two are compared, an element is loaded and
stored, and the index is counted up. -/
structure ArrayShape (array length index : UInt16) (init header first update : Block) : Prop where
  init : ∃ before form, operations init.body = before ++
    [Instruction.store .reference array, .load .reference array, .arrayLength, .store .int length,
      .push 0 form, .store .int index]
  header : ∃ op target, operations header.instructions =
    [Instruction.load .int index, .load .int length, .ifCompare op false target]
  first : ∃ type elements stored slot rest, operations first.instructions =
    Instruction.load .reference array :: .load type index :: .arrayLoad elements :: .store stored slot :: rest
  update : ∃ before, operations update.body = before ++ [Instruction.iinc index 1]

/-- The pattern of a loop through elements. -/
inductive Loop.HasForm (l : Loop) (g : FlowGraph) (pool : ConstantPool) : ForEachForm → Prop
  | iterator {slot : UInt16} {init header first : Block} (hkind : l.kind = .forEachIterator)
    (hblocks : l.HasBlocks g init header first) (hshape : IteratorShape pool slot init header first) :
    HasForm l g pool (.ofIterator slot init header first)
  | array {array length index : UInt16} {init header first update : Block} (hkind : l.kind = .forEachArray)
    (hblocks : l.HasBlocks g init header first)
    (hupdate : l.update = some update.id ∧ g.block? update.id = some update)
    (hshape : ArrayShape array length index init header first update) :
    HasForm l g pool (.ofArray array length index init header first update)

/-- There is one such pattern, if the header goes on to one block of the loop. -/
theorem Loop.HasForm.unique {l : Loop} {g : FlowGraph} {pool : ConstantPool} {f f' : ForEachForm}
    (hone : ∀ a ∈ g.successors l.header, ∀ b ∈ g.successors l.header, a ∈ l.body → b ∈ l.body → a = b)
    (h : l.HasForm g pool f) (h' : l.HasForm g pool f') : f = f' := by
  -- the slots can be read off the blocks, which the loop determines
  cases h with
  | iterator hkind hblocks hshape =>
    cases h' with
    | iterator _ hblocks' hshape' =>
      obtain ⟨rfl, rfl, rfl⟩ := hblocks.unique hone hblocks'
      obtain ⟨_, _, _, hops, -⟩ := hshape.header
      obtain ⟨_, _, _, hops', -⟩ := hshape'.header
      have hslots := hops.symm.trans hops'
      simp only [List.cons.injEq, Instruction.load.injEq] at hslots
      rw [hslots.1.2]
    | array hkind' => exact absurd (hkind.symm.trans hkind') nofun
  | array hkind hblocks hupdate hshape =>
    cases h' with
    | iterator hkind' => exact absurd (hkind.symm.trans hkind') nofun
    | array _ hblocks' hupdate' hshape' =>
      obtain ⟨rfl, rfl, rfl⟩ := hblocks.unique hone hblocks'
      have hid := Option.some.inj (hupdate.1.symm.trans hupdate'.1)
      obtain rfl := Option.some.inj ((hid ▸ hupdate.2).symm.trans hupdate'.2)
      obtain ⟨_, _, hops⟩ := hshape.header
      obtain ⟨_, _, hops'⟩ := hshape'.header
      obtain ⟨_, _, _, _, _, hfirst⟩ := hshape.first
      obtain ⟨_, _, _, _, _, hfirst'⟩ := hshape'.first
      have hslots := hops.symm.trans hops'
      have harray := hfirst.symm.trans hfirst'
      simp only [List.cons.injEq, Instruction.load.injEq] at hslots harray
      rw [hslots.1.2, hslots.2.1.2, harray.1.2]

namespace FlowGraph

variable {g : FlowGraph} {pool : ConstantPool} {n : NaturalLoop} {l : Loop} {b : Block} {slot : UInt16}

/-- A header that asks an iterator for more consists of this. -/
theorem exists_of_iteratorSlot? (h : iteratorSlot? pool b = some slot) : ∃ kind index test,
    operations b.instructions = [Instruction.load .reference slot, .invoke kind index, test] ∧
      isMethod pool index "hasNext" (some "()Z") = true := by
  unfold iteratorSlot? at h
  split at h
  · rename_i s kind index test hops
    obtain ⟨hmethod, hs⟩ := Option.ite_some_none_eq_some.1 h
    exact ⟨kind, index, test, hs ▸ hops, hmethod⟩
  · cases h

/-- A block that takes an element stores it behind casts. -/
theorem exists_of_takesElement (h : takesElement pool slot b = true) : ∃ type kind index rest,
    operations b.instructions = Instruction.load type slot :: .invoke kind index :: rest ∧
      isMethod pool index "next" (some "()Ljava/lang/Object;") = true ∧
      ∃ casts stored element more, rest = casts ++ Instruction.store stored element :: more ∧
        ∀ i ∈ casts, ∃ c, i = .checkCast c := by
  unfold takesElement at h
  split at h
  · rename_i type s kind index rest hops
    -- the store is the first instruction behind the call that is no cast
    simp only [Bool.and_eq_true, decide_eq_true_eq] at h
    obtain ⟨⟨rfl, hmethod⟩, hstores⟩ := h
    refine ⟨type, kind, index, rest, hops, hmethod, ?_⟩
    split at hstores
    · rename_i stored element hfind
      obtain ⟨-, casts, more, rfl, hcasts⟩ := List.find?_eq_some_iff_append.1 hfind
      refine ⟨casts, stored, element, more, rfl, fun i hi => ?_⟩
      have hcast := hcasts i hi
      split at hcast
      · exact ⟨_, rfl⟩
      · cases hcast
    · cases hstores
  · cases h

/-- A block that makes an iterator stores it at its end. -/
theorem exists_of_makesIterator (h : makesIterator pool slot b = true) : ∃ before kind index type,
    operations b.body = before ++ [Instruction.invoke kind index, .store type slot] ∧
      isMethod pool index "iterator" none = true := by
  unfold makesIterator at h
  split at h
  · rename_i type s kind index rest hops
    rw [Bool.and_eq_true, decide_eq_true_eq] at h
    obtain ⟨rfl, hmethod⟩ := h
    exact ⟨rest.reverse, kind, index, type, by simpa using congrArg List.reverse hops, hmethod⟩
  · cases h

/-- A header that compares index and length consists of this. -/
theorem exists_of_indexSlots? {index length : UInt16} (h : indexSlots? b = some (index, length)) :
    ∃ op target, operations b.instructions =
      [Instruction.load .int index, .load .int length, .ifCompare op false target] := by
  unfold indexSlots? at h
  split at h
  · rename_i i n op target hops
    obtain ⟨rfl, rfl⟩ := Prod.mk.inj (Option.some.inj h)
    exact ⟨op, target, hops⟩
  · cases h

/-- A block that loads an element stores it. -/
theorem exists_of_arraySlot? {array index : UInt16} (h : arraySlot? index b = some array) :
    ∃ type elements stored slot rest, operations b.instructions =
      Instruction.load .reference array :: .load type index :: .arrayLoad elements :: .store stored slot ::
        rest := by
  unfold arraySlot? at h
  split at h
  · rename_i a type i elements stored slot rest hops
    obtain ⟨rfl, rfl⟩ := Option.ite_some_none_eq_some.1 h
    exact ⟨type, elements, stored, slot, rest, hops⟩
  · cases h

/-- A block that sets up an array stores array, length and index at its end. -/
theorem exists_of_setsUpArray {array length index : UInt16} {body : List PlacedInstruction}
    (h : setsUpArray array length index body = true) : ∃ before form, operations body = before ++
      [Instruction.store .reference array, .load .reference array, .arrayLength, .store .int length,
        .push 0 form, .store .int index] := by
  unfold setsUpArray at h
  split at h
  · rename_i i form n a2 a1 rest hops
    simp only [Bool.and_eq_true, decide_eq_true_eq] at h
    obtain ⟨⟨⟨rfl, rfl⟩, rfl⟩, rfl⟩ := h
    have hops : (operations body).reverse = Instruction.store .int i :: .push 0 form :: .store .int n ::
      .arrayLength :: .load .reference a2 :: .store .reference a2 :: rest := hops
    exact ⟨rest.reverse, form, by simpa using congrArg List.reverse hops⟩
  · cases h

/-- An update that counts up does so at its end. -/
theorem exists_of_trailingCount? {address : Address} (h : trailingCount? slot b = some address) :
    ∃ before, operations b.body = before ++ [Instruction.iinc slot 1] := by
  simp only [trailingCount?, Option.bind_eq_bind, Option.bind_eq_some_iff] at h
  obtain ⟨last, hlast, h⟩ := h
  obtain ⟨before, hbody⟩ := List.getLast?_eq_some_iff.1 hlast
  split at h
  · rename_i s hop
    have hop : last.operation = .iinc s 1 := hop
    obtain ⟨rfl, -⟩ := Option.ite_some_none_eq_some.1 h
    exact ⟨operations before, by simp [hbody, hop]⟩
  · cases h

/-- The block where the body starts is a block of the loop behind the header. -/
theorem of_bodyEntry? {id : BlockId} (h : g.bodyEntry? n = some id) :
    id ∈ g.successors n.header ∧ id ∈ n.body := by
  unfold bodyEntry? at h
  simp only [Option.bind_eq_bind, Option.bind_eq_some_iff] at h
  obtain ⟨⟨ifTrue, ifFalse⟩, hbranches, hfind⟩ := h
  obtain ⟨b, c, hb, hterm⟩ := exists_branch_of_branches? hbranches
  have hmem := List.mem_of_find?_eq_some hfind
  refine ⟨?_, List.contains_iff_mem.1 (List.find?_some hfind)⟩
  simpa [successors, hb, hterm, Terminator.successors] using hmem

/-- The blocks of a recognised loop are those of the natural loop. -/
theorem hasBlocks {init header first : Block} {id pre : BlockId} (hbody : l.body = n.body)
    (hheader : l.header = n.header) (hl : l.init = some pre) (hinit : g.block? pre = some init)
    (hblock : g.block? n.header = some header) (hentry : g.bodyEntry? n = some id)
    (hfirst : g.block? id = some first) : l.HasBlocks g init header first := by
  obtain rfl := id_of_block? hinit
  obtain rfl := id_of_block? hfirst
  obtain ⟨hsucc, hmem⟩ := of_bodyEntry? hentry
  exact ⟨⟨hl, hinit⟩, hheader ▸ hblock, hheader ▸ hsucc, hbody ▸ hmem, hfirst⟩

/-- The header of a loop that tests in it goes on to one block of the loop. -/
theorem Recognised.eq_of_inside (h : g.Recognised pool n l) (hkind : l.kind.isForEach = true) :
    ∀ a ∈ g.successors l.header, ∀ b ∈ g.successors l.header, a ∈ l.body → b ∈ l.body → a = b := by
  have htest : g.hasHeaderTest pool n = true := by
    cases h with
    | iterator _ htest | array _ htest => exact htest
    | «for» | «while» | doWhile | endless => cases hkind
  obtain ⟨s, t, -, hout, hsucc⟩ := exists_of_hasHeaderTest htest
  rw [h.header_eq, h.body_eq]
  have hinside : ∀ a ∈ g.successors n.header, a ∈ n.body → a = s := by
    intro a ha hin
    have hne : a ≠ t := fun heq => hout (heq ▸ hin)
    rcases hsucc with hsucc | hsucc <;> simpa [hsucc, hne] using ha
  intro a ha b hb hain hbin
  rw [hinside a ha hain, hinside b hb hbin]

/-- A loop through elements has the pattern of one. -/
theorem Recognised.exists_hasForm (h : g.Recognised pool n l) (hkind : l.kind.isForEach = true) :
    ∃ f, l.HasForm g pool f := by
  cases h with
  | @iterator slot pre _ _ hpattern _ =>
    obtain ⟨header, hheader, hslot⟩ := hpattern.header
    obtain ⟨id, first, hentry, hfirst, htakes⟩ := hpattern.element
    obtain ⟨init, hinit, hmakes⟩ := hpattern.made
    exact ⟨_, .iterator rfl (hasBlocks rfl rfl rfl hinit hheader hentry hfirst)
      ⟨exists_of_makesIterator hmakes, exists_of_iteratorSlot? hslot, exists_of_takesElement htakes⟩⟩
  | @array array length index pre _ _ hpattern _ =>
    obtain ⟨header, hheader, hslots⟩ := hpattern.header
    obtain ⟨id, first, hentry, hfirst, harray⟩ := hpattern.element
    obtain ⟨update, hupdate, hcount⟩ := hpattern.latch
    obtain ⟨init, hinit, hsets, -⟩ := hpattern.setUp
    have hid := id_of_block? hupdate
    exact ⟨_, .array rfl (hasBlocks rfl rfl rfl hinit hheader hentry hfirst)
      ⟨congrArg some hid.symm, hid ▸ hupdate⟩
      ⟨exists_of_setsUpArray hsets, exists_of_indexSlots? hslots, exists_of_arraySlot? harray,
        exists_of_trailingCount? hcount⟩⟩
  | «for» | «while» | doWhile | endless => cases hkind

/-- The pattern is a matter of the blocks. -/
theorem hasForm_of_blocks {h : FlowGraph} (hblocks : h.blocks = g.blocks) {f : ForEachForm}
    (hl : l.HasForm g pool f) : l.HasForm h pool f := by
  have hblock : h.block? = g.block? := by
    funext id
    rw [block?, hblocks, block?]
  have hsuccessors : h.successors = g.successors := by
    funext id
    rw [successors, hblock, successors]
  have key : ∀ {init header first : Block}, l.HasBlocks g init header first →
      l.HasBlocks h init header first := fun hl =>
    ⟨hblock ▸ hl.init, hblock ▸ hl.header, hblock ▸ hsuccessors ▸ hl.first⟩
  cases hl with
  | iterator hkind hl hshape => exact .iterator hkind (key hl) hshape
  | array hkind hl hupdate hshape => exact .array hkind (key hl) (hblock ▸ hupdate) hshape

/-- A loop that is recorded as a loop through elements has the pattern of one. That its hidden locals are not
used otherwise, and that a loop through an array ends at its length, comes down to two checks: whether a
search finds other instructions that read their values, and how the header compares. -/
theorem forEach_safe_iff (hs : g.ids.Pairwise (· < ·)) (hl : l ∈ (g.reduceLoops pool).loops)
    (hkind : l.kind.isForEach = true) :
    ∃ f, (∀ f', l.HasForm (g.reduceLoops pool) pool f' ↔ f' = f) ∧
      (f.Unused (g.reduceLoops pool) ∧ (l.kind = .forEachArray → l.LeavesAtLength (g.reduceLoops pool)) ↔
        f.isUnused (g.reduceLoops pool) = true ∧
          (l.kind = .forEachArray → l.comparesLength (g.reduceLoops pool) = true)) := by
  obtain ⟨h, found, hsettles⟩ := exists_settles pool hs
  have hstructured : l.kind ≠ .unstructured := fun heq => by rw [heq] at hkind; cases hkind
  obtain ⟨n, -, hrecord⟩ := (hsettles.exists_recognised hl).resolve_left hstructured
  obtain ⟨f, hf⟩ := hrecord.exists_hasForm hkind
  -- what is recorded has no influence on blocks
  have hblocks : (g.reduceLoops pool).blocks = h.blocks := by
    rw [hsettles.result]
    rfl
  refine ⟨f, fun f' => ⟨fun hf' => ?_, fun heq => heq ▸ hasForm_of_blocks hblocks hf⟩, ?_⟩
  · exact (hasForm_of_blocks hblocks.symm hf').unique (hrecord.eq_of_inside hkind) hf
  · rw [ForEachForm.unused_iff, Loop.leavesAtLength_iff]

/-! ## Loops through an array -/

/-- The code of `a = x; n = a.length; for (i = 0; i < n; i++) { y = a[i]; }` with some comparison for the one
that ends the loop and some code behind it. -/
def arrayLoopCode (comparison : UInt8) (behind : List UInt8) : CodeAttribute :=
  ⟨4, 6, [0x2a, 0x4c, 0x2b, 0xbe, 0x3d, 0x03, 0x3e, 0x1d, 0x1c, comparison, 0x00, 0x0e, 0x2b, 0x1d, 0x2e,
    0x36, 0x04, 0x84, 0x03, 0x01, 0xa7, 0xff, 0xf3] ++ behind, [], []⟩

/-- The block in front of the loop. -/
def arrayLoopInit : Block :=
  ⟨0, [⟨0, 1, none, .load .reference 0⟩, ⟨1, 1, none, .store .reference 1⟩, ⟨2, 1, none, .load .reference 1⟩,
    ⟨3, 1, none, .arrayLength⟩, ⟨4, 1, none, .store .int 2⟩, ⟨5, 1, none, .push 0 .iconst⟩,
    ⟨6, 1, none, .store .int 3⟩], .fallThrough 7⟩

def arrayLoopHeader (op : CompareOp) : Block :=
  ⟨7, [⟨7, 1, none, .load .int 3⟩, ⟨8, 1, none, .load .int 2⟩, ⟨9, 3, none, .ifCompare op false 23⟩],
    .branch (.intCompare op) 23 12⟩

def arrayLoopFirst : Block :=
  ⟨12, [⟨12, 1, none, .load .reference 1⟩, ⟨13, 1, none, .load .int 3⟩, ⟨14, 1, none, .arrayLoad .int⟩,
    ⟨15, 2, none, .store .int 4⟩], .fallThrough 17⟩

def arrayLoopUpdate : Block := ⟨17, [⟨17, 3, none, .iinc 3 1⟩, ⟨20, 3, none, .goto 7⟩], .goto 7⟩

/-- The loop as it is recorded, whatever the comparison. -/
def recordedArrayLoop : Loop :=
  { header := 7, kind := .forEachArray, body := [7, 12, 17], exit := some 23, latch := 17, init := some 0,
    update := some 17 }

/-- The graph of this code with the loop recorded. -/
def arrayLoopGraph (op : CompareOp) (behind : Block) : FlowGraph where
  blocks := [arrayLoopInit, arrayLoopHeader op, arrayLoopFirst, arrayLoopUpdate, behind]
  entry := 0
  ranges := []
  jumps := [(17, .backEdge 7)]
  loops := [recordedArrayLoop]

/-- What the pattern does with its hidden locals. -/
def arrayLoopForm (op : CompareOp) : ForEachForm :=
  .ofArray 1 2 3 arrayLoopInit (arrayLoopHeader op) arrayLoopFirst arrayLoopUpdate

/-- The example has the form of a loop through an array. -/
theorem hasForm_arrayLoop (op : CompareOp) (behind : Block) :
    recordedArrayLoop.HasForm (arrayLoopGraph op behind) pool (arrayLoopForm op) :=
  .array rfl ⟨⟨rfl, rfl⟩, rfl, (by decide : 12 ∈ [12, 23].eraseDups), by decide, rfl⟩ ⟨rfl, rfl⟩
    ⟨⟨[.load .reference 0], .iconst, rfl⟩, ⟨op, 23, rfl⟩, ⟨.int, .int, .int, 4, [], rfl⟩, ⟨[], rfl⟩⟩

/-- The condition says of the example whether its loop may become one through elements. -/
theorem forEach_safe_iff_arrayLoop :
    ∃ code, MethodCode.decode .empty (arrayLoopCode 0xa2 [0xb1]) = .ok code ∧
      recordedArrayLoop ∈ (code.reduced .empty true).loops ∧
      recordedArrayLoop.HasForm (code.reduced .empty true) .empty (arrayLoopForm .ge) ∧
      (arrayLoopForm .ge).Unused (code.reduced .empty true) ∧
      recordedArrayLoop.LeavesAtLength (code.reduced .empty true) := by
  have hdecode : ∃ code, MethodCode.decode .empty (arrayLoopCode 0xa2 [0xb1]) = .ok code ∧
      ((ofCode code).reduceJumps true).ids = [0, 7, 12, 23] ∧
      code.reduced .empty true = arrayLoopGraph .ge ⟨23, [⟨23, 1, none, .return none⟩], .return⟩ :=
    ⟨_, rfl, by cbv, by cbv⟩
  obtain ⟨code, hcode, hids, hgraph⟩ := hdecode
  have hsorted : ((ofCode code).reduceJumps true).ids.Pairwise (· < ·) := by
    rw [hids]
    decide
  have hmem : recordedArrayLoop ∈ (code.reduced .empty true).loops := hgraph ▸ List.mem_singleton_self _
  have hform : recordedArrayLoop.HasForm (code.reduced .empty true) .empty (arrayLoopForm .ge) :=
    hgraph ▸ hasForm_arrayLoop _ _
  have hunused : (arrayLoopForm .ge).isUnused (code.reduced .empty true) = true := by
    rw [hgraph]
    cbv
  have hcompares : recordedArrayLoop.comparesLength (code.reduced .empty true) = true := by
    rw [hgraph]
    rfl
  obtain ⟨f, hunique, hsafe⟩ := forEach_safe_iff hsorted hmem rfl
  obtain rfl := (hunique _).1 hform
  obtain ⟨hno, hleaves⟩ := hsafe.2 ⟨hunused, fun _ => hcompares⟩
  exact ⟨code, hcode, hmem, hform, hno, hleaves rfl⟩

/-- A block behind the loop that reads the slot of the length. -/
def lengthReadBehind : Block :=
  ⟨23, [⟨23, 1, none, .load .int 2⟩, ⟨24, 2, none, .store .int 5⟩, ⟨26, 1, none, .return none⟩], .return⟩

/-- A loop that goes on at the length, with its length read behind it, is taken for a loop through elements
too. -/
theorem forEach_unsafe :
    ∃ code, MethodCode.decode .empty (arrayLoopCode 0xa3 [0x1c, 0x36, 0x05, 0xb1]) = .ok code ∧
      recordedArrayLoop ∈ (code.reduced .empty true).loops ∧
      recordedArrayLoop.HasForm (code.reduced .empty true) .empty (arrayLoopForm .gt) ∧
      (code.reduced .empty true).ReadsValue 2 (arrayLoopInit.placeBefore 2) ⟨23, 1, none, .load .int 2⟩ ∧
      ¬(arrayLoopForm .gt).Unused (code.reduced .empty true) ∧
      ¬recordedArrayLoop.LeavesAtLength (code.reduced .empty true) := by
  have hdecode : ∃ code, MethodCode.decode .empty (arrayLoopCode 0xa3 [0x1c, 0x36, 0x05, 0xb1]) = .ok code ∧
      code.reduced .empty true = arrayLoopGraph .gt lengthReadBehind := ⟨_, rfl, by cbv⟩
  obtain ⟨code, hcode, hgraph⟩ := hdecode
  refine ⟨code, hcode, ?_⟩
  rw [hgraph]
  have hfound : ((arrayLoopGraph .gt lengthReadBehind).readers 2 (arrayLoopInit.placeBefore 2)).contains
      ⟨23, 1, none, .load .int 2⟩ = true := by cbv
  have hreads := mem_readers_iff.1 (List.contains_iff_mem.1 hfound)
  refine ⟨List.mem_singleton_self _, hasForm_arrayLoop _ _, hreads, fun hunused => ?_, ?_⟩
  · exact absurd (hunused (2, arrayLoopInit.placeBefore 2) (by decide) _ hreads) (by decide)
  · rw [Loop.leavesAtLength_iff]
    decide

end FlowGraph

end JvmDecompiler
