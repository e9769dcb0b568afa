import JvmDecompiler.Proofs.InstructionEncoding
import JvmDecompiler.Proofs.Sweep
import JvmDecompiler.Proofs.Truncation

/-!
# Instructions that are cut off

No encoding of an instruction is the beginning of another one. The reader takes the bytes of an instruction
whatever is behind them, and of a part of them it reports that the input ends, and nothing else: a check that
an operand fails is made on bytes that an uncut instruction has as well, and a table of which the size is
read must lie ahead as a whole (`Instruction.framed_read`).

A sweep over code comes to the same instructions whatever stands behind them, so it stops in front of an
instruction of which only a part is there, and decoding reports that the code is cut off at its address
(`Instruction.cut_off`).
-/

namespace JvmDecompiler

open Reader

namespace Reader

variable {α : Type} {L : Grammar α} {fault : ReadFault}

/-- Of two framed readers either may be chosen. -/
theorem framed_ite {r s : Reader α} (c : Prop) [Decidable c] (hr : Framed fault r) (hs : Framed fault s) :
    Framed fault (if c then r else s) := by
  by_cases hc : c
  · rwa [if_pos hc]
  · rwa [if_neg hc]

/-- A reader of a fixed number of bytes that looks whether so many are ahead. -/
theorem Reads.framed_guarded {r : Reader α} (hr : Reads r L) {n : Nat}
    (hn : ∀ a bytes, L a bytes → bytes.length = n) :
    Framed fault (do if (← get).length < n then fail fault else r) := by
  refine (hr.guarded (fun a bytes h => (hn a bytes h).ge) fault).framed hn fun input hlt => ?_
  show (if input.length < n then fail fault else r : Reader α) input = _
  rw [if_pos hlt]
  rfl

/-- A signed byte cannot be cut. -/
theorem framed_s1 : Framed .endOfInput s1 := framed_u1.bind fun _ => framed_pure _

/-- The two bytes of a signed number that are cut end the input. -/
theorem framed_s2 : Framed .endOfInput s2 := framed_u2.bind fun _ => framed_pure _

end Reader

/-! ## Instructions -/

namespace Instruction

variable {address : Address}

/-- A near target that is cut ends the input. -/
theorem framed_branch2 : Framed .endOfInput (branch2 address) := framed_s2.bind fun _ => framed_pure _

/-- So does a far one. -/
theorem framed_branch4 : Framed .endOfInput (branch4 address) := framed_s4.bind fun _ => framed_pure _

/-- So does a switch over a range. -/
theorem framed_readTableSwitch : Framed .endOfInput (readTableSwitch address) := by
  refine (framed_take _).bind fun _ => framed_branch4.bind fun default => framed_s4.bind fun low =>
    framed_s4.bind fun high => framed_ite _ (framed_fail _) ?_
  refine Reads.framed_guarded ((reads_branch4.times _).map _) fun i bytes h => ?_
  obtain ⟨targets, -, hlength, hrows⟩ := h
  rw [length_rows_far hrows, hlength]

/-- So does a switch over listed keys. -/
theorem framed_readLookupSwitch : Framed .endOfInput (readLookupSwitch address) := by
  refine (framed_take _).bind fun _ => framed_branch4.bind fun default => framed_s4.bind fun count =>
    framed_ite _ (framed_fail _) ?_
  refine Reads.framed_guarded ((reads_switchPair.times _).map _) fun i bytes h => ?_
  obtain ⟨pairs, -, hlength, hrows⟩ := h
  rw [length_rows_switchPair hrows, hlength]

/-- So does an instruction in its wide form. -/
theorem framed_readWide : Framed .endOfInput readWide := by
  have hslot : ∀ f : UInt16 → Instruction, Framed .endOfInput (do return f (← u2)) := fun f =>
    framed_u2.bind fun _ => framed_pure _
  refine framed_u1.bind fun op => framed_ite _ (hslot _) (framed_ite _ (hslot _) (framed_ite _ (hslot _)
    (framed_ite _ ?_ (framed_fail _))))
  exact framed_u2.bind fun _ => framed_s2.bind fun _ => framed_pure _

/-- So does the creation of an array. -/
theorem framed_readNewArray : Framed .endOfInput (readOperands address 0xBC) := by
  refine framed_u1.bind fun code => ?_
  split
  · exact framed_pure _
  · exact framed_fail _

/-- So do the operands behind every opcode. -/
theorem framed_readOperands (op : UInt8) : Framed .endOfInput (readOperands address op.toNat) := by
  rcases opcode_cases op with ⟨j, hrow⟩ | ⟨f, hrow⟩ | ⟨f, hrow⟩ | ⟨f, hrow⟩ | ⟨f, hrow⟩ | hother | hop
  · rw [readOperands_plain _ hrow]
    exact framed_pure _
  · rw [readOperands_index _ hrow]
    exact framed_u2.bind fun _ => framed_pure _
  · rw [readOperands_slot _ hrow]
    exact framed_u1.bind fun _ => framed_pure _
  · rw [readOperands_near _ hrow]
    exact framed_branch2.bind fun _ => framed_pure _
  · rw [readOperands_far _ hrow]
    exact framed_branch4.bind fun _ => framed_pure _
  · -- the opcodes beside the tables, in their order
    simp only [otherOpcodes, List.mem_cons, List.not_mem_nil, or_false] at hother
    rcases hother with rfl | rfl | rfl | rfl | rfl | rfl | rfl | rfl | rfl | rfl | rfl
    · exact framed_s1.bind fun _ => framed_pure _
    · exact framed_s2.bind fun _ => framed_pure _
    · exact framed_u1.bind fun _ => framed_pure _
    · exact framed_u1.bind fun _ => framed_s1.bind fun _ => framed_pure _
    · exact framed_readTableSwitch
    · exact framed_readLookupSwitch
    · exact framed_u2.bind fun _ => (framed_take _).bind fun _ => framed_pure _
    · exact framed_u2.bind fun _ => (framed_take _).bind fun _ => framed_pure _
    · exact framed_readNewArray
    · exact framed_readWide
    · exact framed_u2.bind fun _ => framed_u1.bind fun _ => framed_pure _
  · rw [readOperands_unknown hop]
    exact framed_fail _

/-- The instruction is found whatever is behind it, and a part of its bytes ends too early. -/
theorem framed_read (address : Address) : Framed .endOfInput (read address) :=
  framed_u1.bind framed_readOperands

end Instruction

/-! ## Code -/

namespace Code

variable {count count' : Nat} {address : Address} {before part : Bytes} {fault : ReadFault}

/-- The sweep stops at an instruction that cannot be read. -/
theorem sweepFrom_of_error (hc : part.length ≤ count) (hpart : part ≠ [])
    (hread : Instruction.read address part = .error fault) :
    sweepFrom count address part = ⟨[], part, some fault⟩ := by
  match count, part with
  | _, [] => exact absurd rfl hpart
  | 0, _ :: _ => exact absurd hc (Nat.not_succ_le_zero _)
  | _ + 1, _ :: _ => simp only [sweepFrom, hread]

/-- A sweep over code stops in front of what cannot be read behind it. -/
theorem sweepFrom_append (hc : before.length ≤ count) (hf : (sweepFrom count address before).fault = none)
    (hc' : (before ++ part).length ≤ count') (hpart : part ≠ [])
    (hread : Instruction.read (address + before.length) part = .error fault) :
    sweepFrom count' address (before ++ part) =
      ⟨(sweepFrom count address before).instructions, part, some fault⟩ := by
  induction count generalizing count' address before with
  | zero =>
    obtain rfl : before = [] := List.length_eq_zero_iff.1 (Nat.le_zero.1 hc)
    exact sweepFrom_of_error hc' hpart hread
  | succ count ih =>
    rcases before with _ | ⟨op, operands⟩
    · exact sweepFrom_of_error hc' hpart hread
    obtain ⟨count', rfl⟩ : ∃ k, count' = k + 1 := Nat.exists_eq_succ_of_ne_zero (by
      rintro rfl
      exact absurd hc' (Nat.not_succ_le_zero _))
    cases hfirst : Instruction.read address (op :: operands) with
    | error e => simp [sweepFrom, hfirst] at hf
    | ok result =>
      obtain ⟨i, rest⟩ := result
      obtain ⟨front, hfront, hmore, -⟩ := Instruction.framed_read address _ _ _ hfirst
      have hlonger : Instruction.read address (op :: operands ++ part) = .ok (i, rest ++ part) := by
        rw [hfront, List.append_assoc, hmore]
      have hlt : rest.length < (op :: operands).length := Instruction.length_lt_of_read hfirst
      -- the instruction is as long as without what stands behind the code
      have hlength : (op :: operands ++ part).length - (rest ++ part).length =
          (op :: operands).length - rest.length := by
        rw [List.length_append, List.length_append, Nat.add_sub_add_right]
      have hrest := @ih count' (address + ((op :: operands).length - rest.length)) rest (by omega)
        (by simpa only [sweepFrom, hfirst] using hf)
        (by rw [List.length_append] at hc' ⊢; omega)
        (by rwa [Nat.add_assoc, Nat.sub_add_cancel hlt.le])
      rw [List.cons_append] at hlonger hlength ⊢
      simp only [sweepFrom, hfirst, hlonger, hlength, hrest]

/-- It goes through what is in front of such an instruction, and reports the fault. -/
theorem sweep_append (hf : (sweep before).fault = none) (hpart : part ≠ [])
    (hread : Instruction.read before.length part = .error fault) :
    sweep (before ++ part) = ⟨(sweep before).instructions, part, some fault⟩ := by
  refine sweepFrom_append le_rfl hf le_rfl hpart ?_
  rwa [Nat.zero_add]

end Code

/-- Code with a malformed attribute is not decoded. -/
theorem MethodCode.decode_of_malformed {pool : ConstantPool} {attr : CodeAttribute} {name : String}
    (h : Attributes.malformed? attr.attributes = some name) :
    decode pool attr = .error (.malformedAttribute name) := by
  simp only [decode, h, bind, Except.bind, throw, throwThe, MonadExceptOf.throw]

/-- Code that ends inside an instruction is reported as cut off where that instruction starts, unless one of
its attributes is malformed. -/
theorem MethodCode.decode_of_cut {pool : ConstantPool} {attr : CodeAttribute} {before part : Bytes}
    (hbytes : attr.bytecode = before ++ part) (hf : (Code.sweep before).fault = none) (hpart : part ≠ [])
    (hread : Instruction.read before.length part = .error .endOfInput) :
    decode pool attr = .error (match Attributes.malformed? attr.attributes with
      | some name => .malformedAttribute name
      | none => .truncated before.length) := by
  cases hattributes : Attributes.malformed? attr.attributes with
  | some name => exact decode_of_malformed hattributes
  | none =>
    have hsweep : Code.sweep attr.bytecode = _ := hbytes ▸ Code.sweep_append hf hpart hread
    rw [decode_of_fault hattributes (congrArg Sweep.fault hsweep), hsweep, hbytes, List.length_append,
      Nat.add_sub_cancel]
    rfl

/-- An instruction has at least one byte, it is the same whatever stands behind its bytes, and a part of its
bytes is nothing but an input that ends too early. Code that ends with such a part is cut into the
instructions in front of it, and decoding reports where it is cut off. -/
theorem Instruction.self_delimiting {address : Address} {input rest : Bytes} {i : Instruction}
    (h : read address input = .ok (i, rest)) :
    ∃ taken, input = taken ++ rest ∧ 1 ≤ taken.length ∧
      (∀ more, read address (input ++ more) = .ok (i, rest ++ more)) ∧
      ∀ part, part <+: taken → part ≠ taken → read address part = .error .endOfInput ∧
        ∀ before, before.length = address → (Code.sweep before).fault = none → part ≠ [] →
          Code.sweep (before ++ part) = ⟨(Code.sweep before).instructions, part, some .endOfInput⟩ ∧
          ∀ pool attr, attr.bytecode = before ++ part →
            MethodCode.decode pool attr = .error (match Attributes.malformed? attr.attributes with
              | some name => .malformedAttribute name
              | none => .truncated address) := by
  have hlt : rest.length < input.length := length_lt_of_read h
  obtain ⟨taken, rfl, hmore, hcut⟩ := framed_read address _ _ _ h
  rw [List.length_append] at hlt
  refine ⟨taken, rfl, by omega, fun more => ?_, fun part hpart hne => ?_⟩
  · rw [List.append_assoc, hmore]
  have hread : read address part = .error .endOfInput := hcut part hpart hne
  refine ⟨hread, ?_⟩
  rintro before rfl hf hnil
  exact ⟨Code.sweep_append hf hnil hread, fun pool attr hbytes =>
    MethodCode.decode_of_cut hbytes hf hnil hread⟩

/-- A switch with the only key 1, for an address behind which two bytes are skipped. -/
def Instruction.oneKeySwitch : Bytes :=
  [0xAA, 0, 0, 0, 0, 0, 19, 0, 0, 0, 1, 0, 0, 0, 1, 0, 0, 0, 19]

/-- Behind an instruction of one byte, the switch is cut off inside its highest key. -/
theorem Instruction.self_delimiting_oneKeySwitch :
    read 1 (oneKeySwitch ++ [0xB1]) = .ok (.switch 20 [(1, 20)], [0xB1]) ∧
      MethodCode.decode .empty ⟨1, 1, 0x1A :: oneKeySwitch.take 13, [], []⟩ = .error (.truncated 1) := by
  have hread : read 1 (oneKeySwitch ++ [0xB1]) = .ok (.switch 20 [(1, 20)], [0xB1]) := by decide
  obtain ⟨taken, htaken, -, -, hcut⟩ := self_delimiting hread
  obtain rfl := List.append_cancel_right htaken
  obtain ⟨-, hcode⟩ := hcut (oneKeySwitch.take 13) (List.take_prefix _ _) (by decide)
  exact ⟨hread, (hcode [0x1A] rfl rfl (by decide)).2 .empty _ rfl⟩

end JvmDecompiler
