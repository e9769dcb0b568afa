import JvmDecompiler.Instruction.Format

/-!
# What readers leave

A reader takes bytes off the front of its input, so what it leaves is the end of the input. Every
instruction has an opcode, so reading one leaves less than there was.
-/

namespace JvmDecompiler

namespace Reader

variable {α β : Type}

/-- The reader leaves the end of its input. -/
def LeavesSuffix (r : Reader α) : Prop :=
  ∀ input a rest, r input = .ok (a, rest) → rest <:+ input

/-- A value that is given leaves the whole input. -/
theorem leavesSuffix_pure (a : α) : LeavesSuffix (pure a) := by
  intro input b rest h
  cases h
  exact List.suffix_refl _

/-- A reader that fails leaves nothing to be wrong about. -/
theorem leavesSuffix_fail (fault : ReadFault) : LeavesSuffix (fail fault : Reader α) := by
  intro input a rest h
  cases h

/-- One reader after the other. -/
theorem LeavesSuffix.bind {r : Reader α} {f : α → Reader β} (hr : LeavesSuffix r)
    (hf : ∀ a, LeavesSuffix (f a)) : LeavesSuffix (r >>= f) := by
  intro input b rest h
  simp only [Bind.bind, StateT.bind, Except.bind] at h
  split at h
  · cases h
  · rename_i ra hra
    exact (hf ra.1 ra.2 b rest h).trans (hr input ra.1 ra.2 hra)

/-- Of two readers either may be chosen. -/
theorem leavesSuffix_ite {p : Prop} [Decidable p] {r s : Reader α} (hr : LeavesSuffix r)
    (hs : LeavesSuffix s) : LeavesSuffix (if p then r else s) := by
  split
  · exact hr
  · exact hs

/-- Looking at the input leaves all of it. -/
theorem leavesSuffix_get : LeavesSuffix (get : Reader Bytes) := by
  intro input a rest h
  cases h
  exact List.suffix_refl _

/-- A byte is taken off the front. -/
theorem leavesSuffix_u1 : LeavesSuffix u1 := by
  intro input a rest h
  unfold u1 at h
  split at h
  · cases h
    exact List.suffix_cons _ _
  · cases h

/-- Two bytes are taken off the front. -/
theorem leavesSuffix_u2 : LeavesSuffix u2 := by
  intro input a rest h
  unfold u2 at h
  split at h
  · cases h
    exact List.suffix_append [_, _] _
  · cases h

/-- Four bytes are taken off the front. -/
theorem leavesSuffix_u4 : LeavesSuffix u4 := by
  intro input a rest h
  unfold u4 at h
  split at h
  · cases h
    exact List.suffix_append [_, _, _, _] _
  · cases h

/-- So is a signed byte. -/
theorem leavesSuffix_s1 : LeavesSuffix s1 := leavesSuffix_u1.bind fun _ => leavesSuffix_pure _

/-- So are the two bytes of a signed number. -/
theorem leavesSuffix_s2 : LeavesSuffix s2 := leavesSuffix_u2.bind fun _ => leavesSuffix_pure _

/-- So are its four bytes. -/
theorem leavesSuffix_s4 : LeavesSuffix s4 := leavesSuffix_u4.bind fun _ => leavesSuffix_pure _

/-- So is any number of bytes. -/
theorem leavesSuffix_take (n : Nat) : LeavesSuffix (take n) := by
  intro input a rest h
  unfold take at h
  split at h
  · simp only [List.splitAt_eq, Except.ok.injEq, Prod.mk.injEq] at h
    exact h.2 ▸ List.drop_suffix n input
  · cases h

/-- Values read one after the other leave the end of the input. -/
theorem LeavesSuffix.times {item : Reader α} (h : LeavesSuffix item) (n : Nat) :
    LeavesSuffix (times item n) := by
  induction n with
  | zero => exact leavesSuffix_pure _
  | succ n ih => exact h.bind fun _ => ih.bind fun _ => leavesSuffix_pure _

end Reader

namespace Instruction

open Reader

/-- A near target is taken off the front. -/
theorem leavesSuffix_branch2 (address : Address) : LeavesSuffix (branch2 address) :=
  leavesSuffix_s2.bind fun _ => leavesSuffix_pure _

/-- So is a far one. -/
theorem leavesSuffix_branch4 (address : Address) : LeavesSuffix (branch4 address) :=
  leavesSuffix_s4.bind fun _ => leavesSuffix_pure _

/-- So is a switch over a range. -/
theorem leavesSuffix_readTableSwitch (address : Address) :
    LeavesSuffix (readTableSwitch address) := by
  refine (leavesSuffix_take _).bind fun _ => (leavesSuffix_branch4 _).bind fun _ => ?_
  refine leavesSuffix_s4.bind fun low => leavesSuffix_s4.bind fun high => ?_
  refine leavesSuffix_ite (leavesSuffix_fail _) (leavesSuffix_get.bind fun _ => ?_)
  refine leavesSuffix_ite (leavesSuffix_fail _) ?_
  exact ((leavesSuffix_branch4 _).times _).bind fun _ => leavesSuffix_pure _

/-- So is a key with its target. -/
theorem leavesSuffix_readSwitchCase (address : Address) : LeavesSuffix (readSwitchCase address) :=
  leavesSuffix_s4.bind fun _ => (leavesSuffix_branch4 _).bind fun _ => leavesSuffix_pure _

/-- So is a switch over listed keys. -/
theorem leavesSuffix_readLookupSwitch (address : Address) :
    LeavesSuffix (readLookupSwitch address) := by
  refine (leavesSuffix_take _).bind fun _ => (leavesSuffix_branch4 _).bind fun _ => ?_
  refine leavesSuffix_s4.bind fun count => ?_
  refine leavesSuffix_ite (leavesSuffix_fail _) (leavesSuffix_get.bind fun _ => ?_)
  refine leavesSuffix_ite (leavesSuffix_fail _) ?_
  exact ((leavesSuffix_readSwitchCase _).times _).bind fun _ => leavesSuffix_pure _

/-- So is an instruction in its wide form. -/
theorem leavesSuffix_readWide : LeavesSuffix readWide := by
  refine leavesSuffix_u1.bind fun opcode => ?_
  refine leavesSuffix_ite (leavesSuffix_u2.bind fun _ => leavesSuffix_pure _) ?_
  refine leavesSuffix_ite (leavesSuffix_u2.bind fun _ => leavesSuffix_pure _) ?_
  refine leavesSuffix_ite (leavesSuffix_u2.bind fun _ => leavesSuffix_pure _) ?_
  refine leavesSuffix_ite ?_ (leavesSuffix_fail _)
  exact leavesSuffix_u2.bind fun _ => leavesSuffix_s2.bind fun _ => leavesSuffix_pure _

/-- The operands are at the front of the input, whatever the opcode. -/
theorem leavesSuffix_readOperands (address : Address) (opcode : Nat) :
    LeavesSuffix (readOperands address opcode) := by
  unfold readOperands
  repeat' first
    | with_reducible refine leavesSuffix_ite ?_ ?_
    | with_reducible exact leavesSuffix_pure _
    | with_reducible exact leavesSuffix_fail _
    | with_reducible exact leavesSuffix_readTableSwitch _
    | with_reducible exact leavesSuffix_readLookupSwitch _
    | with_reducible exact leavesSuffix_readWide
    | with_reducible refine leavesSuffix_u1.bind fun _ => ?_
    | with_reducible refine leavesSuffix_u2.bind fun _ => ?_
    | with_reducible refine leavesSuffix_s1.bind fun _ => ?_
    | with_reducible refine leavesSuffix_s2.bind fun _ => ?_
    | with_reducible refine (leavesSuffix_branch2 _).bind fun _ => ?_
    | with_reducible refine (leavesSuffix_branch4 _).bind fun _ => ?_
    | with_reducible refine (leavesSuffix_take _).bind fun _ => ?_
    | split

/-- Reading an instruction takes at least its opcode. -/
theorem length_lt_of_read {address : Address} {input rest : Bytes} {i : Instruction}
    (h : read address input = .ok (i, rest)) : rest.length < input.length := by
  cases input with
  | nil => cases h
  | cons opcode operands =>
    have hs : rest <:+ operands := leavesSuffix_readOperands address opcode.toNat operands i rest h
    have hle : rest.length ≤ operands.length := hs.length_le
    simp only [List.length_cons]
    omega

end Instruction

end JvmDecompiler
