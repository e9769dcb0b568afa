import JvmDecompiler.Code.Decoding
import JvmDecompiler.Proofs.Reader
import Mathlib.Tactic.ByContra

/-!
# The shape of decoded code

Decoded instructions lie one behind the other from address 0 up to the end of the code, and branches
and handlers lead to instructions. `MethodCode.WellFormed` says so of any code; `decode` gives nothing
else.
-/

namespace JvmDecompiler

/-- The instructions lie one behind the other from `start` up to `stop`, and none of them is empty. -/
def Tiles : (start : Address) → List PlacedInstruction → (stop : Address) → Prop
  | start, [], stop => start = stop
  | start, i :: rest, stop => i.address = start ∧ 0 < i.length ∧ Tiles i.next rest stop

/-- The addresses at which instructions start. -/
def MethodCode.starts (code : MethodCode) : List Address := code.instructions.map (·.address)

/-- A range is not empty, its start and its handler are the starts of instructions, and it ends where an
instruction starts or at the end of the code. -/
structure ProtectedRange.Fits (r : ProtectedRange) (starts : List Address) (length : Nat) : Prop where
  nonempty : r.start < r.stop
  start : r.start ∈ starts
  handler : r.handler ∈ starts
  stop : r.stop ∈ starts ∨ r.stop = length

/-- Code whose instructions lie one behind the other, and whose branches and handlers lead to
instructions. -/
structure MethodCode.WellFormed (code : MethodCode) : Prop where
  tiles : Tiles 0 code.instructions code.length
  targets : ∀ i ∈ code.instructions, ∀ t ∈ i.operation.branchTargets, t ∈ code.starts
  handlers : ∀ r ∈ code.ranges, r.handler ∈ code.starts

namespace Code

/-- A sweep that meets no fault cuts all of its bytes into instructions. -/
theorem tiles_sweepFrom (lineOf : Address → Option Nat) {count : Nat} {address : Address}
    {input : Bytes} (hc : input.length ≤ count) (hf : (sweepFrom count address input).fault = none) :
    Tiles address ((sweepFrom count address input).instructions.map fun (a, length, i) =>
      ⟨a, length, lineOf a, i⟩) (address + input.length) := by
  -- on the budget: an instruction takes at least one byte, and the next one starts where it ends
  induction count generalizing address input with
  | zero =>
    obtain rfl : input = [] := List.length_eq_zero_iff.1 (by omega)
    rfl
  | succ count ih =>
    cases input with
    | nil => rfl
    | cons b input =>
      simp only [sweepFrom] at hf ⊢
      cases hr : Instruction.read address (b :: input) with
      | error fault => simp [hr] at hf
      | ok result =>
        obtain ⟨i, rest⟩ := result
        have hlt : rest.length < (b :: input).length := Instruction.length_lt_of_read hr
        simp only [hr, List.map_cons] at hf ⊢
        refine ⟨rfl, Nat.sub_pos_of_lt hlt, ?_⟩
        have hrest := @ih (address + ((b :: input).length - rest.length)) rest
          (Nat.le_of_lt_succ (Nat.lt_of_lt_of_le hlt hc)) hf
        rw [Nat.add_assoc, Nat.sub_add_cancel (Nat.le_of_lt hlt)] at hrest
        exact hrest

/-- An instruction that passes the check branches to starts of instructions only. -/
theorem targets_of_checkInstruction {pool : ConstantPool} {starts : List Address} {address : Address}
    {i : Instruction} (h : checkInstruction pool starts address i = .ok ()) :
    ∀ t ∈ i.branchTargets, t ∈ starts := by
  intro t ht
  by_contra hn
  have hsome : (i.branchTargets.find? (!starts.contains ·)).isSome := by
    rw [List.find?_isSome]
    exact ⟨t, ht, by simpa using hn⟩
  obtain ⟨u, hu⟩ := Option.isSome_iff_exists.1 hsome
  rw [checkInstruction, hu] at h
  cases h

/-- A row of an exception table stands for a range only if that fits into the code. -/
theorem fits_of_protectedRange {pool : ConstantPool} {starts : List Address} {length : Nat}
    {row : ExceptionRow} {r : ProtectedRange} (h : protectedRange pool starts length row = .ok r) :
    r.Fits starts length := by
  simp only [protectedRange, bind, Except.bind, pure, Except.pure, throw, throwThe,
    MonadExceptOf.throw] at h
  split at h
  · cases h
  · rename_i hc
    simp only [Bool.not_eq_true, Bool.not_eq_false', Bool.and_eq_true, Bool.or_eq_true,
      decide_eq_true_eq, List.contains_iff_mem, beq_iff_eq] at hc
    obtain ⟨⟨⟨hlt, hstart⟩, hhandler⟩, hstop⟩ := hc
    split at h
    · cases h
      exact ⟨hlt, hstart, hhandler, hstop.symm⟩
    · split at h <;> cases h
      exact ⟨hlt, hstart, hhandler, hstop.symm⟩

end Code

/-- A check passes over a list without an error if every element passes it. -/
theorem forM_eq_ok_iff {ε α : Type} {f : α → Except ε Unit} {l : List α} :
    l.forM f = .ok () ↔ ∀ a ∈ l, f a = .ok () := by
  induction l with
  | nil => exact ⟨fun _ => nofun, fun _ => rfl⟩
  | cons b l ih =>
    rw [List.forall_mem_cons, ← ih, List.forM_eq_forM, List.forM_cons]
    rcases hb : f b with e | u
    · exact ⟨nofun, fun h => nomatch h.1⟩
    · exact ⟨fun h => ⟨rfl, h⟩, fun h => h.2⟩

/-- What a list is mapped to without an error comes from one of its elements. -/
theorem exists_of_mem_mapM_ok {ε α β : Type} {f : α → Except ε β} {l : List α} {m : List β}
    (h : l.mapM f = .ok m) : ∀ b ∈ m, ∃ a ∈ l, f a = .ok b := by
  induction l generalizing m with
  | nil =>
    cases h
    intro b hb
    cases hb
  | cons a l ih =>
    simp only [List.mapM_cons, bind, Except.bind, pure, Except.pure] at h
    split at h
    · cases h
    · rename_i b hb
      split at h
      · cases h
      · rename_i m' hm
        cases h
        intro c hc
        rcases List.mem_cons.1 hc with rfl | hc
        · exact ⟨a, List.mem_cons_self, hb⟩
        · obtain ⟨a', ha', hfa⟩ := ih hm c hc
          exact ⟨a', List.mem_cons_of_mem _ ha', hfa⟩

/-- Decoding goes over all bytes, checks every instruction and every row of the exception table, and
puts together what it has found. -/
theorem MethodCode.checked_of_decode {pool : ConstantPool} {attr : CodeAttribute} {code : MethodCode}
    (h : MethodCode.decode pool attr = .ok code) :
    (Code.sweep attr.bytecode).fault = none ∧
    (∀ i ∈ (Code.sweep attr.bytecode).instructions, Code.checkInstruction pool
      ((Code.sweep attr.bytecode).instructions.map (·.1)) i.1 i.2.2 = .ok ()) ∧
    attr.exceptionTable.mapM (Code.protectedRange pool
      ((Code.sweep attr.bytecode).instructions.map (·.1)) attr.bytecode.length) = .ok code.ranges ∧
    code =
      { instructions := (Code.sweep attr.bytecode).instructions.map fun (a, length, i) =>
          ⟨a, length, Code.lineAt (Attributes.lineRows attr.attributes) a, i⟩
        ranges := code.ranges
        maxStack := attr.maxStack
        maxLocals := attr.maxLocals
        length := attr.bytecode.length } := by
  simp only [MethodCode.decode, bind, Except.bind, pure, Except.pure, throw, throwThe,
    MonadExceptOf.throw] at h
  split at h
  · cases h
  split at h
  · cases h
  rename_i hfault
  split at h
  · cases h
  rename_i hcheck
  split at h
  · cases h
  rename_i ranges hranges
  cases h
  exact ⟨hfault, forM_eq_ok_iff.1 hcheck, hranges, rfl⟩

/-- The protected ranges of decoded code fit into it. -/
theorem MethodCode.fits_of_decode {pool : ConstantPool} {attr : CodeAttribute} {code : MethodCode}
    (h : MethodCode.decode pool attr = .ok code) : ∀ r ∈ code.ranges, r.Fits code.starts code.length := by
  obtain ⟨-, -, hranges, hcode⟩ := MethodCode.checked_of_decode h
  intro r hr
  obtain ⟨row, -, hrow⟩ := exists_of_mem_mapM_ok hranges r hr
  rw [hcode]
  simpa [MethodCode.starts, Function.comp_def] using Code.fits_of_protectedRange hrow

/-- Decoding gives well-formed code. -/
theorem MethodCode.wellFormed_of_decode {pool : ConstantPool} {attr : CodeAttribute}
    {code : MethodCode} (h : MethodCode.decode pool attr = .ok code) : code.WellFormed := by
  refine ⟨?_, ?_, fun r hr => (MethodCode.fits_of_decode h r hr).handler⟩
  all_goals
    obtain ⟨hfault, hcheck, -, hcode⟩ := MethodCode.checked_of_decode h
    rw [hcode]
  · have htiles := Code.tiles_sweepFrom (Code.lineAt (Attributes.lineRows attr.attributes))
      (Nat.le_refl _) hfault
    rw [Nat.zero_add] at htiles
    exact htiles
  · intro i hi t ht
    obtain ⟨⟨a, length, op⟩, hmem, rfl⟩ := List.mem_map.1 hi
    have := Code.targets_of_checkInstruction (hcheck _ hmem) t ht
    simpa [MethodCode.starts] using this

end JvmDecompiler
