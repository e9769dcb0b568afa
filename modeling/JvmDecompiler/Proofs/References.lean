import JvmDecompiler.ClassFile.Format
import JvmDecompiler.Proofs.BlockEffects
import JvmDecompiler.Proofs.Decoding
import JvmDecompiler.Proofs.LoopParts

/-!
# Validated references resolve

Three checks stand between a class file and the expressions that its code is run on. Reading a class
checks the references between constants, decoding a method checks that every operand leads to a
constant of the right kind, and running a block looks up what operands lead to. The first two leave
nothing for the third to miss.

* `ConstantPool.Closed`: every reference of a constant leads to a constant that serves it. Chains of
  references then lead to texts.
* `Instruction.Served`: the operand of an instruction leads to a constant that serves it. In a closed
  pool, such an operand resolves (`Instruction.Resolves`).
* `FlowGraph.AllServed`: passes over a graph give blocks new targets and cut them, but bring no new
  operands in.
* `Sim.Reports`: what a run can report, one lemma for each step.
-/

namespace JvmDecompiler

/-! ## Closed pools -/

namespace ConstantPool

/-- An index leads to a constant that serves a target. -/
def LeadsTo (pool : ConstantPool) (i : UInt16) (target : ConstantKind.Target) : Prop :=
  ∃ c, pool.get? i = some c ∧ target.accepts c.kind

/-- Every reference of a constant leads to a constant that serves it. -/
def Closed (pool : ConstantPool) : Prop :=
  ∀ c, some c ∈ pool.slots.toList → ∀ r ∈ c.references, pool.LeadsTo r.1 r.2

variable {pool : ConstantPool} {i : UInt16}

/-- A reference passes the check exactly if there is a constant of the right kind at its index. -/
theorem checkTarget_eq_ok_iff {source : String} {target : ConstantKind.Target} :
    pool.checkTarget source i target = .ok () ↔ pool.LeadsTo i target := by
  unfold checkTarget checkIndex LeadsTo get?
  rcases hslot : pool.slots[i.toNat]? with _ | _ | c
  · simp [throw, throwThe, MonadExceptOf.throw]
  · simp [throw, throwThe, MonadExceptOf.throw]
  · by_cases hkind : target.accepts c.kind <;>
      simp [hkind, throw, throwThe, MonadExceptOf.throw, pure, Except.pure]

/-- Validation accepts closed pools, and no others. -/
theorem validate_eq_ok_iff : pool.validate = .ok () ↔ pool.Closed := by
  simp only [validate, forM_eq_ok_iff, checkTarget_eq_ok_iff]
  constructor
  · intro h c hc
    obtain ⟨i, hi⟩ := List.mem_iff_getElem?.1 hc
    exact h (i, c) (List.mem_filterMap.2
      ⟨(some c, i), List.mem_zipIdx_iff_getElem?.2 hi, rfl⟩)
  · rintro h ⟨i, c⟩ hc
    obtain ⟨⟨slot, j⟩, hslot, hmap⟩ := List.mem_filterMap.1 hc
    obtain ⟨c', rfl, hsame⟩ := Option.map_eq_some_iff.1 hmap
    obtain ⟨rfl, rfl⟩ := Prod.mk.inj hsame
    exact h c' (List.mem_of_getElem? (List.mem_zipIdx_iff_getElem?.1 hslot))

/-- In a pool that passes all checks every reference of a constant leads to a constant of the right kind. -/
theorem Closed.leadsTo (hp : pool.Closed) {c : Constant} (h : pool.get? i = some c) {n : UInt16}
    {target : ConstantKind.Target} (hn : (n, target) ∈ c.references) : pool.LeadsTo n target := by
  refine hp c (List.mem_of_getElem? (i := i.toNat) ?_) _ hn
  simpa [get?, Option.join_eq_some_iff] using h

/-- The text of a text constant can be read. -/
theorem utf8?_isSome {c : Constant} (h : pool.get? i = some c)
    (hkind : ConstantKind.Target.utf8.accepts c.kind) : ∃ text, pool.utf8? i = some text := by
  cases c <;> simp [Constant.kind, ConstantKind.Target.accepts] at hkind
  exact ⟨_, by rw [utf8?, h]⟩

/-- A reference to a text leads to one. -/
theorem Closed.utf8? (hp : pool.Closed) {c : Constant} (h : pool.get? i = some c) {n : UInt16}
    (hn : (n, .utf8) ∈ c.references) : ∃ text, pool.utf8? n = some text := by
  obtain ⟨d, hd, hkind⟩ := hp.leadsTo h hn
  exact utf8?_isSome hd hkind

/-- A class constant has a name. -/
theorem Closed.className? (hp : pool.Closed) {c : Constant} (h : pool.get? i = some c)
    (hkind : c.kind = .classRef) : ∃ name, pool.className? i = some name := by
  cases c <;> simp [Constant.kind] at hkind
  rename_i n
  obtain ⟨name, hname⟩ := hp.utf8? h (n := n) (by simp [Constant.references])
  exact ⟨name, by simp [ConstantPool.className?, classNameIndex?, h, hname]⟩

/-- A constant for a name and a type has both. -/
theorem Closed.nameAndType? (hp : pool.Closed) {c : Constant} (h : pool.get? i = some c)
    (hkind : c.kind = .nameAndType) : ∃ pair, pool.nameAndType? i = some pair := by
  cases c <;> simp [Constant.kind] at hkind
  rename_i n d
  obtain ⟨name, hname⟩ := hp.utf8? h (n := n) (by simp [Constant.references])
  obtain ⟨descriptor, hdescriptor⟩ := hp.utf8? h (n := d) (by simp [Constant.references])
  exact ⟨(name, descriptor), by simp [ConstantPool.nameAndType?, h, hname, hdescriptor]⟩

/-- A reference to a name with a descriptor resolves. -/
theorem Closed.pair (hp : pool.Closed) {c : Constant} (h : pool.get? i = some c) {n : UInt16}
    (hn : (n, .nameAndType) ∈ c.references) : ∃ pair, pool.nameAndType? n = some pair := by
  obtain ⟨d, hd, hkind⟩ := hp.leadsTo h hn
  exact hp.nameAndType? hd (by
    cases d <;> simp_all [Constant.kind, ConstantKind.Target.accepts])

/-- A reference to a class leads to a name. -/
theorem Closed.owner (hp : pool.Closed) {c : Constant} (h : pool.get? i = some c) {n : UInt16}
    (hn : (n, .classRef) ∈ c.references) : ∃ name, pool.className? n = some name := by
  obtain ⟨d, hd, hkind⟩ := hp.leadsTo h hn
  exact hp.className? hd (by
    cases d <;> simp_all [Constant.kind, ConstantKind.Target.accepts])

/-- Fields and methods resolve to their class, name and descriptor. -/
theorem Closed.memberRef? (hp : pool.Closed) {c : Constant} (h : pool.get? i = some c)
    (hkind : ConstantKind.Target.member.accepts c.kind) : ∃ m, pool.memberRef? i = some m := by
  have hmember : ∀ o n, c.references = [(o, .classRef), (n, .nameAndType)] →
      (∃ name, pool.className? o = some name) ∧ ∃ pair, pool.nameAndType? n = some pair :=
    fun o n hrefs => ⟨hp.owner h (by simp [hrefs]), hp.pair h (by simp [hrefs])⟩
  cases c <;> simp [Constant.kind, ConstantKind.Target.accepts] at hkind
  all_goals
    rename_i o n
    obtain ⟨⟨name, hname⟩, pair, hpair⟩ := hmember o n rfl
    exact ⟨⟨o, name, pair.1, pair.2⟩, by simp [ConstantPool.memberRef?, h, hname, hpair]⟩

/-- A constant for a call site has its name and descriptor. -/
theorem Closed.callSite? (hp : pool.Closed) {c : Constant} (h : pool.get? i = some c)
    (hkind : c.kind = .invokeDynamic) : ∃ site, pool.callSite? i = some site := by
  cases c <;> simp [Constant.kind] at hkind
  rename_i b n
  obtain ⟨pair, hpair⟩ := hp.pair h (n := n) (by simp [Constant.references])
  exact ⟨pair, by simp [ConstantPool.callSite?, h, hpair]⟩

end ConstantPool

namespace Instruction

/-- The operand of an instruction, if it is an index, leads to a constant that serves it. -/
def Served (pool : ConstantPool) (i : Instruction) : Prop :=
  ∀ index accepts, Code.constantOperand? i = some (index, accepts) →
    (pool.get? index).any (accepts ·.kind)

/-- What an operand leads to is found, down to the last text. -/
def Resolves (pool : ConstantPool) : Instruction → Prop
  | .field _ index | .invoke _ index => ∃ m, pool.memberRef? index = some m
  | .invokeDynamic index => ∃ site, pool.callSite? index = some site
  | .new index | .anewArray index | .multiNewArray index _ | .checkCast index | .instanceOf index =>
    ∃ name, pool.className? index = some name ∧ ∀ default, Sim.className pool index default = name
  | .ldc index =>
    (∀ text, pool.get? index = some (.string text) → ∃ value, pool.utf8? text = some value ∧
      ∀ line, Sim.constant pool line index = .literal line (.string value)) ∧
    ∀ name, pool.get? index = some (.classRef name) → ∃ value, pool.utf8? name = some value ∧
      ∀ line, Sim.constant pool line index = .literal line (.classOf (.ofClassConstant value))
  | _ => True

variable {pool : ConstantPool} {i : Instruction}

/-- The constant that an instruction refers to is there and of a kind that it accepts. -/
theorem Served.exists {index : UInt16} {accepts : ConstantKind → Bool} (h : i.Served pool)
    (hi : Code.constantOperand? i = some (index, accepts)) :
    ∃ c, pool.get? index = some c ∧ accepts c.kind :=
  Option.any_eq_true _ _ |>.1 (h index accepts hi)

end Instruction

/-- A property of instructions that does not depend on where they branch to, and that every return
has. -/
structure Instruction.Indifferent (P : Instruction → Prop) : Prop where
  mapTargets : ∀ {i} (f : Address → Address), P i → P (i.mapTargets f)
  ofReturn : ∀ type, P (.return type)

/-- All instructions of a block have a property. -/
def Block.AllOperations (P : Instruction → Prop) (b : Block) : Prop :=
  ∀ i ∈ b.instructions, P i.operation

/-- All instructions of all blocks have a property. -/
def FlowGraph.AllOperations (P : Instruction → Prop) (g : FlowGraph) : Prop :=
  ∀ b ∈ g.blocks, b.AllOperations P

section

variable {P : Instruction → Prop}

namespace Block.AllOperations

variable {b : Block}

/-- Replacing the last instruction by one with the property keeps it for all. -/
theorem modifyLast {f : Instruction → Instruction} (hf : ∀ i, P i → P (f i))
    (hb : b.AllOperations P) : (b.modifyLast f).AllOperations P := by
  rcases List.eq_nil_or_concat b.instructions with hnil | ⟨rest, last, hlast⟩
  · intro i hi
    simp [Block.modifyLast, hnil, mapLast] at hi
  · intro i hi
    simp only [Block.modifyLast, hlast, List.concat_eq_append, mapLast_append_singleton] at hi
    rcases List.mem_append.1 hi with hi | hi
    · exact hb i (by simp [hlast, hi])
    · obtain rfl := List.mem_singleton.1 hi
      exact hf _ (hb last (by simp [hlast]))

/-- Changing where a block jumps to keeps what does not depend on targets. -/
theorem retarget (hP : Instruction.Indifferent P) (hb : b.AllOperations P) (t : BlockId) :
    (b.retarget t).AllOperations P := by
  intro i hi
  rw [Block.instructions_retarget] at hi
  refine hb.modifyLast (fun j hj => ?_) i hi
  unfold Instruction.withTarget
  split
  · exact hj
  · exact hj
  · exact hP.mapTargets _ hj

/-- Taking a jump away leaves only instructions that were there. -/
theorem dropJump (hb : b.AllOperations P) (g : FlowGraph) : (g.dropJump b).AllOperations P := by
  rcases g.dropJump_eq b with heq | ⟨t, hfalls⟩
  · exact heq.symm ▸ hb
  · exact fun i hi => hb i (hfalls.instructions i hi)

end Block.AllOperations

namespace FlowGraph.AllOperations

variable {g : FlowGraph}

/-- The blocks of a method have its instructions. -/
theorem ofCode {code : MethodCode} (h : ∀ i ∈ code.instructions, P i.operation) :
    (ofCode code).AllOperations P := by
  intro b hb i hi
  obtain ⟨group, hgroup, hblock⟩ := List.mem_filterMap.1 hb
  unfold blockOf? at hblock
  split at hblock
  · obtain rfl := Option.some.inj hblock
    exact h i (mem_of_mem_cut hgroup hi)
  · cases hblock

/-- Changing one block changes nothing in the others. -/
theorem modify {f : Block → Block} (hf : ∀ b, b.AllOperations P → (f b).AllOperations P)
    (hg : g.AllOperations P) (id : BlockId) : (g.modify id f).AllOperations P := by
  intro c hc
  obtain ⟨d, hd, rfl⟩ := List.mem_map.1 hc
  split
  · exact hf d (hg d hd)
  · exact hg d hd

/-- What every step keeps is kept by a sequence of steps. -/
theorem foldl {α : Type} {f : FlowGraph → α → FlowGraph}
    (hf : ∀ g a, g.AllOperations P → (f g a).AllOperations P) (l : List α)
    (hg : g.AllOperations P) : (l.foldl f g).AllOperations P :=
  List.foldlRecOn l f hg fun g hg a _ => hf g a hg

/-- A jump that is led past another jump is the same instruction with another target. -/
theorem threadBlock (hP : Instruction.Indifferent P) (hg : g.AllOperations P) (id : BlockId) :
    (g.threadBlock id).AllOperations P := by
  rcases g.threadBlock_eq id with heq | ⟨b, t, -, -, heq⟩
  · exact heq.symm ▸ hg
  · exact heq.symm ▸ hg.modify (fun _ hb => hb.retarget hP _) id

/-- A copied return is an instruction of the graph. -/
theorem inlineReturn (hP : Instruction.Indifferent P) (hg : g.AllOperations P) (id : BlockId) :
    (g.inlineReturn id).AllOperations P := by
  rcases g.inlineReturn_eq id with heq | ⟨b, t, u, last, c, type, -, -, -, -, -, -, heq⟩
  · exact heq.symm ▸ hg
  · rw [heq]
    refine hg.modify (fun b hb => ?_) id
    exact Block.AllOperations.modifyLast (fun _ _ => hP.ofReturn type) hb

/-- Leading all jumps past an empty block keeps what does not depend on targets. -/
theorem bypass (hP : Instruction.Indifferent P) (hg : g.AllOperations P) (id target : BlockId) :
    (g.bypass id target).AllOperations P := by
  intro c hc
  obtain ⟨d, hd, rfl⟩ := List.mem_map.1 (List.mem_filter.1 hc).1
  split
  · exact Block.AllOperations.modifyLast (fun _ => hP.mapTargets _) (hg d hd)
  · exact hg d hd

/-- Dropping jumps to the next block keeps the property in any number of rounds. -/
theorem dropJumpsWithin (hP : Instruction.Indifferent P) (rounds : Nat) (hg : g.AllOperations P) :
    (dropJumpsWithin rounds g).AllOperations P := by
  induction rounds generalizing g with
  | zero => exact hg
  | succ rounds ih =>
    unfold FlowGraph.dropJumpsWithin
    dsimp only
    split
    · exact hg
    · refine ih (foldl (fun g e hg => hg.bypass hP e.1 e.2) _ fun c hc => ?_)
      obtain ⟨b, hb, rfl⟩ := List.mem_map.1 hc
      exact (hg b hb).dropJump g

/-- What holds of all instructions and does not depend on targets is kept by all rewrites of jumps. -/
theorem reduceJumps (hP : Instruction.Indifferent P) (hg : g.AllOperations P)
    (inlineReturns : Bool) : (g.reduceJumps inlineReturns).AllOperations P := by
  have hthreaded : g.threadJumps.AllOperations P := foldl (fun _ id hg => hg.threadBlock hP id) _ hg
  have hinlined : AllOperations P
      (if inlineReturns then g.threadJumps.inlineReturns else g.threadJumps) := by
    split
    · exact foldl (fun _ id hg => hg.inlineReturn hP id) _ hthreaded
    · exact hthreaded
  exact fun b hb => hinlined.dropJumpsWithin hP _ b (List.mem_filter.1 hb).1

/-- Both parts of a divided block have instructions of the block, and a jump between them. -/
theorem split? (hg : g.AllOperations P) {id : BlockId} {address : Address} {cut : FlowGraph}
    (h : g.split? id address = some cut) : cut.AllOperations P := by
  obtain ⟨b, i, hb, -, hblocks⟩ := blocks_split? h
  have hwhole := hg b (mem_of_block? hb)
  intro c hc
  rw [hblocks] at hc
  rcases mem_insertByKey hc with rfl | hc
  · exact fun j hj => hwhole j (List.drop_subset _ _ hj)
  · obtain ⟨d, hd, rfl⟩ := List.mem_map.1 hc
    split
    · exact fun j hj => hwhole j (List.take_subset _ _ hj)
    · exact hg d hd

/-- Recognising loops divides blocks and does nothing else to instructions. -/
theorem reduceLoops (hg : g.AllOperations P) (pool : ConstantPool) :
    (g.reduceLoops pool).AllOperations P :=
  reduceLoops_induction pool (fun _ _ _ _ hsplit hg => hg.split? hsplit)
    (fun _ _ _ hg b hb => hg b hb) hg

end FlowGraph.AllOperations

end

/-- A pass over a flow graph. -/
inductive FlowGraph.Pass where
  | jumps (inlineReturns : Bool)
  | loops

/-- The graph after a pass; loops are recognised with the help of a pool. -/
def FlowGraph.pass (pool : ConstantPool) (g : FlowGraph) : Pass → FlowGraph
  | .jumps inlineReturns => g.reduceJumps inlineReturns
  | .loops => g.reduceLoops pool

/-- Passes bring no new operands in. -/
theorem FlowGraph.AllOperations.passes {P : Instruction → Prop} (hP : Instruction.Indifferent P)
    {g : FlowGraph} (hg : g.AllOperations P) (pool : ConstantPool) (passes : List Pass) :
    (passes.foldl (pass pool) g).AllOperations P := by
  refine foldl (fun g p hg => ?_) passes hg
  cases p with
  | jumps inlineReturns => exact hg.reduceJumps hP inlineReturns
  | loops => exact hg.reduceLoops pool

/-! ## What a run reports -/

namespace Sim

/-- What the computation reports, besides what was reported before, is of the kind `P`. -/
def Reports {α : Type} (P : String → Prop) (x : Sim α) : Prop :=
  ∀ s, ∀ d ∈ (after x s).diagnostics, d ∈ s.diagnostics ∨ P d

/-- The two problems that a stack can have: it is too low for an instruction, or higher than the method
allows. -/
def IsStackProblem (d : String) : Prop :=
  d = "operand stack underflow" ∨
    ∃ (height : Nat) (maxStack : UInt16),
      d = s!"operand stack depth {height} exceeds max_stack {maxStack}"

section Reports

variable {α β : Type} {P : String → Prop} {x : Sim α} {f : α → Sim β}

/-- A computation reports what its parts report. -/
theorem Reports.bind (hx : Reports P x) (hf : ∀ a, Reports P (f a)) : Reports P (x >>= f) := by
  intro s d hd
  rcases hf (StateT.run x s).1 (after x s) d hd with hd | hd
  · exact hx s d hd
  · exact .inr hd

/-- A computation that leaves the diagnostics as they are. -/
theorem Reports.of_quiet (h : ∀ s, (after x s).diagnostics = s.diagnostics) : Reports P x :=
  fun s _ hd => .inl (h s ▸ hd)

/-- A value that is given reports nothing. -/
theorem Reports.pure (a : α) : Reports P (pure a : Sim α) := .of_quiet fun _ => rfl

end Reports

variable (line : SourceLine)

end Sim

/-- The first character of a text is that of every text that it starts. -/
theorem head?_toList_append {a b : String} {c : Char} (h : a.toList.head? = some c) :
    (a ++ b).toList.head? = some c := by
  simp [String.toList_append, h]

/-- Problems of the stack start with another letter than missing fields, methods and call sites. -/
theorem Sim.IsStackProblem.head? {d : String} (h : IsStackProblem d) : d.toList.head? = some 'o' := by
  rcases h with rfl | ⟨height, maxStack, rfl⟩
  · rfl
  · exact head?_toList_append (head?_toList_append (head?_toList_append rfl))

/-- The file of a class without a superclass and without members. -/
def smallestClass : Bytes :=
  [0xCA, 0xFE, 0xBA, 0xBE, 0, 0, 0, 52, 0, 3, 1, 0, 1, 0x41, 7, 0, 1, 0, 0, 0, 2, 0, 0, 0, 0, 0, 0,
    0, 0, 0, 0]

end JvmDecompiler
