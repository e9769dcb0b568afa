import JvmDecompiler.Proofs.Decoding
import JvmDecompiler.Proofs.StableSort
import Mathlib.Data.Nat.Basic

/-!
# What decoding finds in code

Code is gone through in two ways: `Code.parse` lists the instructions at the front of a byte string and
leaves the rest, and `MethodCode.decode` sweeps over all of it, then checks where its instructions and its
exception table lead to. Both find the same instructions at the same addresses, and decoding reports an
instruction that cannot be decoded exactly if parsing leaves bytes, at the address of the first of them
(`MethodCode.decode_iff_parse`).

Parsing takes the address of an instruction from the number of bytes that are left, and the sweep from the
lengths of the instructions in front of it; that both are the same is the invariant of
`Code.parseFrom_eq_sweepFrom`. The checks behind the sweep report other errors.
-/

namespace JvmDecompiler

/-- Where the instruction starts that cannot be decoded, if that is the error. -/
def CodeError.undecoded? : CodeError → Option Address
  | .unknownOpcode address _ | .truncated address | .malformedInstruction address => some address
  | _ => none

/-- Decoded code is cut into the instructions that parsing finds, its branches and its protected ranges
lead to instructions, and its lines are those of the line table. -/
structure MethodCode.DecodedFrom (code : MethodCode) (attr : CodeAttribute) : Prop where
  instructions : code.instructions.map (fun i => (i.address, i.operation)) =
    (Code.parse attr.bytecode).instructions
  length : code.length = attr.bytecode.length
  /-- The first instruction starts at 0, each of the others where the one in front of it ends, and the
  last one ends with the code. -/
  tiles : Tiles 0 code.instructions code.length
  targets : ∀ i ∈ code.instructions, ∀ t ∈ i.operation.branchTargets, t ∈ code.starts
  ranges : ∀ r ∈ code.ranges, r.Fits code.starts code.length
  /-- The line of an instruction is that of the last row that does not start behind it. -/
  lines : ∃ sorted, StablySorted (·.start.toNat) (Attributes.lineRows attr.attributes) sorted ∧
    ∀ i ∈ code.instructions,
      i.line = ((sorted.filter (·.start.toNat ≤ i.address)).getLast?).map (·.line.toNat)

namespace Code

variable {pool : ConstantPool}

/-! ## Two ways through code -/

/-- A sweep meets a fault if it leaves bytes. -/
theorem fault_sweepFrom_eq_none_iff {count : Nat} {address : Address} {input : Bytes}
    (hc : input.length ≤ count) :
    (sweepFrom count address input).fault = none ↔ (sweepFrom count address input).rest = [] := by
  induction count generalizing address input with
  | zero =>
    obtain rfl : input = [] := List.length_eq_zero_iff.1 (by omega)
    exact ⟨fun _ => rfl, fun _ => rfl⟩
  | succ count ih =>
    cases input with
    | nil => exact ⟨fun _ => rfl, fun _ => rfl⟩
    | cons b input =>
      simp only [sweepFrom]
      cases hr : Instruction.read address (b :: input) with
      | error fault => simp
      | ok result =>
        have hlt : result.2.length < (b :: input).length := Instruction.length_lt_of_read hr
        exact ih (Nat.le_of_lt_succ (Nat.lt_of_lt_of_le hlt hc))

/-- Both ways come to the same instructions at the same addresses, and stop at the same byte: the number
of bytes in front of an instruction is the sum of the lengths of the instructions in front of it. -/
theorem parseFrom_eq_sweepFrom {total count : Nat} {address : Address} {input : Bytes}
    (ha : address + input.length = total) :
    parseFrom total count input =
      ⟨(sweepFrom count address input).instructions.map fun (a, _, i) => (a, i),
        (sweepFrom count address input).rest⟩ := by
  induction count generalizing address input with
  | zero => rfl
  | succ count ih =>
    cases input with
    | nil => rfl
    | cons b input =>
      have haddress : total - (b :: input).length = address := Nat.sub_eq_of_eq_add ha.symm
      simp only [parseFrom, sweepFrom, haddress]
      cases hr : Instruction.read address (b :: input) with
      | error fault => rfl
      | ok result =>
        obtain ⟨i, rest⟩ := result
        have hlt : rest.length < (b :: input).length := Instruction.length_lt_of_read hr
        have hrest : address + ((b :: input).length - rest.length) + rest.length = total := by
          rw [Nat.add_assoc, Nat.sub_add_cancel (Nat.le_of_lt hlt), ha]
        simp only [ih hrest, List.map_cons]

theorem parse_eq_sweep (bytecode : Bytes) :
    parse bytecode = ⟨(sweep bytecode).instructions.map fun (a, _, i) => (a, i),
      (sweep bytecode).rest⟩ :=
  parseFrom_eq_sweepFrom (Nat.zero_add _)

/-! ## Errors -/

theorem undecoded?_sweepError (address : Address) (rest : Bytes) (fault : ReadFault) :
    (sweepError address rest fault).undecoded? = some address := by
  cases fault <;> rfl

/-- Checks of decoded instructions find other faults. -/
theorem undecoded?_of_checkInstruction {starts : List Address} {address : Address} {i : Instruction}
    {e : CodeError} (h : checkInstruction pool starts address i = .error e) : e.undecoded? = none := by
  simp only [checkInstruction, bind, Except.bind, pure, Except.pure, throw, throwThe,
    MonadExceptOf.throw] at h
  cases hfind : i.branchTargets.find? (!starts.contains ·) with
  | some target =>
    rw [hfind] at h
    cases h
    rfl
  | none =>
    simp only [hfind] at h
    split at h
    · split at h
      · cases h
        rfl
      · cases h
    · cases h

theorem undecoded?_of_protectedRange {starts : List Address} {length : Nat} {row : ExceptionRow}
    {e : CodeError} (h : protectedRange pool starts length row = .error e) : e.undecoded? = none := by
  simp only [protectedRange, bind, Except.bind, pure, Except.pure, throw, throwThe,
    MonadExceptOf.throw] at h
  split at h
  · cases h
    rfl
  · split at h
    · cases h
    · split at h
      · cases h
      · cases h
        rfl

end Code

/-- The error of a check that passes over a list is that of one of the elements. -/
theorem exists_of_forM_error {ε α : Type} {f : α → Except ε Unit} {l : List α} {e : ε}
    (h : l.forM f = .error e) : ∃ a ∈ l, f a = .error e := by
  induction l with
  | nil => cases h
  | cons b l ih =>
    rw [List.forM_eq_forM, List.forM_cons] at h
    rcases hb : f b with e' | u
    · rw [hb] at h
      cases h
      exact ⟨b, List.mem_cons_self, hb⟩
    · rw [hb] at h
      obtain ⟨a, ha, hfa⟩ := ih h
      exact ⟨a, List.mem_cons_of_mem _ ha, hfa⟩

theorem exists_of_mapM_error {ε α β : Type} {f : α → Except ε β} {l : List α} {e : ε}
    (h : l.mapM f = .error e) : ∃ a ∈ l, f a = .error e := by
  induction l with
  | nil => cases h
  | cons b l ih =>
    simp only [List.mapM_cons, bind, Except.bind, pure, Except.pure] at h
    split at h
    · rename_i e' hb
      cases h
      exact ⟨b, List.mem_cons_self, hb⟩
    · split at h
      · rename_i e' hl
        cases h
        obtain ⟨a, ha, hfa⟩ := ih hl
        exact ⟨a, List.mem_cons_of_mem _ ha, hfa⟩
      · cases h

namespace MethodCode

variable {pool : ConstantPool} {attr : CodeAttribute} {code : MethodCode}

/-- Decoding stops at a fault of the sweep. -/
theorem decode_of_fault (h : Attributes.malformed? attr.attributes = none) {fault : ReadFault}
    (hf : (Code.sweep attr.bytecode).fault = some fault) :
    decode pool attr = .error (Code.sweepError
      (attr.bytecode.length - (Code.sweep attr.bytecode).rest.length)
      (Code.sweep attr.bytecode).rest fault) := by
  simp only [decode, h, hf, bind, Except.bind, throw, throwThe, MonadExceptOf.throw]

/-- Where the sweep meets no fault, an error has to do with an operand or with a protected range. -/
theorem undecoded?_of_decode (h : Attributes.malformed? attr.attributes = none)
    (hf : (Code.sweep attr.bytecode).fault = none) {e : CodeError}
    (he : decode pool attr = .error e) : e.undecoded? = none := by
  simp only [decode, h, hf, bind, Except.bind, pure, Except.pure] at he
  split at he
  · rename_i e' hcheck
    cases he
    obtain ⟨i, -, hi⟩ := exists_of_forM_error hcheck
    exact Code.undecoded?_of_checkInstruction hi
  · split at he
    · rename_i e' hranges
      cases he
      obtain ⟨row, -, hrow⟩ := exists_of_mapM_error hranges
      exact Code.undecoded?_of_protectedRange hrow
    · cases he

/-- Decoding reports that an instruction cannot be decoded exactly if bytes are left, at the address of
the first of them. -/
theorem exists_undecoded_iff (h : Attributes.malformed? attr.attributes = none) (a : Address) :
    (∃ e, decode pool attr = .error e ∧ e.undecoded? = some a) ↔
      (Code.sweep attr.bytecode).rest ≠ [] ∧
        a = attr.bytecode.length - (Code.sweep attr.bytecode).rest.length := by
  have hrest : (Code.sweep attr.bytecode).fault = none ↔ (Code.sweep attr.bytecode).rest = [] :=
    Code.fault_sweepFrom_eq_none_iff (Nat.le_refl _)
  rw [ne_eq, ← hrest]
  cases hf : (Code.sweep attr.bytecode).fault with
  | none =>
    -- the checks behind the sweep report other errors, and no bytes are left
    constructor
    · rintro ⟨e, he, ha⟩
      rw [undecoded?_of_decode h hf he] at ha
      cases ha
    · rintro ⟨hnot, -⟩
      exact absurd rfl hnot
  | some fault =>
    have hdecode := @decode_of_fault pool attr h fault hf
    constructor
    · rintro ⟨e, he, ha⟩
      obtain rfl := Except.error.inj (hdecode.symm.trans he)
      rw [Code.undecoded?_sweepError] at ha
      exact ⟨nofun, (Option.some.inj ha).symm⟩
    · rintro ⟨-, rfl⟩
      exact ⟨_, hdecode, Code.undecoded?_sweepError _ _ _⟩

end MethodCode

/-! ## Lines -/

/-- The line of an address is that of the last row in a stable sort that does not start behind it. -/
theorem Code.exists_stablySorted_lineAt (rows : List LineRow) :
    ∃ sorted, StablySorted (·.start.toNat) rows sorted ∧ ∀ a,
      lineAt rows a = ((sorted.filter (·.start.toNat ≤ a)).getLast?).map (·.line.toNat) := by
  have hsorted : StablySorted (·.start.toNat) rows (rows.mergeSort fun r s => r.start ≤ s.start) :=
    stablySorted_mergeSort (fun r s => by simp [UInt16.le_iff_toNat_le]) rows
  refine ⟨_, hsorted, fun a => ?_⟩
  have hfront := takeWhile_eq_filter (p := fun r : LineRow => decide (r.start.toNat ≤ a))
    (hsorted.pairwise.imp fun hle hs => ?_)
  · rw [lineAt, hfront]
  · simp only [decide_eq_true_eq] at hs ⊢
    exact Nat.le_trans hle hs

namespace MethodCode

variable {pool : ConstantPool} {attr : CodeAttribute} {code : MethodCode}

theorem decodedFrom_of_decode (h : decode pool attr = .ok code) : code.DecodedFrom attr := by
  have hwell := wellFormed_of_decode h
  obtain ⟨-, -, -, hcode⟩ := checked_of_decode h
  obtain ⟨sorted, hsorted, hlines⟩ :=
    Code.exists_stablySorted_lineAt (Attributes.lineRows attr.attributes)
  refine
    { instructions := ?_
      length := by rw [hcode]
      tiles := hwell.tiles
      targets := hwell.targets
      ranges := fits_of_decode h
      lines := ⟨sorted, hsorted, fun i hi => ?_⟩ }
  · rw [Code.parse_eq_sweep, hcode]
    simp
  · rw [hcode] at hi
    obtain ⟨⟨a, length, op⟩, -, rfl⟩ := List.mem_map.1 hi
    exact hlines a

/-- Decoding reports an instruction that cannot be decoded exactly if parsing leaves bytes, and at the
first of them. Otherwise both find the same instructions, and decoded code is what its bytes and tables say. -/
theorem decode_iff_parse (pool : ConstantPool) (attr : CodeAttribute)
    (h : Attributes.malformed? attr.attributes = none) :
    let parsed := Code.parse attr.bytecode
    (∀ a, (∃ e, decode pool attr = .error e ∧ e.undecoded? = some a) ↔
      parsed.rest ≠ [] ∧ a = attr.bytecode.length - parsed.rest.length) ∧
    (Code.sweep attr.bytecode).instructions.map (fun (a, _, i) => (a, i)) = parsed.instructions ∧
    ∀ code, decode pool attr = .ok code → code.DecodedFrom attr := by
  intro parsed
  have hparsed : parsed = _ := Code.parse_eq_sweep attr.bytecode
  rw [hparsed]
  exact ⟨exists_undecoded_iff h, rfl, fun code => decodedFrom_of_decode⟩

/-- Two instructions with their lines, and an opcode that no instruction has behind them. -/
def unknownBehind : CodeAttribute :=
  ⟨1, 1, [0x1A, 0xAC, 0xCB], [], [⟨0, [], some (.lineNumberTable [⟨1, 8⟩, ⟨0, 7⟩])⟩]⟩

theorem decode_iff_parse_unknownBehind :
    Attributes.malformed? unknownBehind.attributes = none ∧
      ∃ e, decode .empty unknownBehind = .error e ∧ e.undecoded? = some 2 := by
  have hnamed : Attributes.malformed? unknownBehind.attributes = none := rfl
  exact ⟨hnamed, ((decode_iff_parse .empty unknownBehind hnamed).1 2).2 ⟨by decide, by decide⟩⟩

end MethodCode

end JvmDecompiler
