import JvmDecompiler.FlowGraph

/-!
# The flow graph of a method's code

Code is cut into blocks before every instruction that control may come to from elsewhere and behind
every instruction that ends a block: at the start of the code, at branch targets, behind branches and
other transfers, at handlers and at both ends of protected ranges.
-/

namespace JvmDecompiler

/-- The terminator that the last instruction of a block makes. -/
def Terminator.ofInstruction (last : PlacedInstruction) : Terminator :=
  match last.operation with
  | .goto target => .goto target
  | .ifZero op target => .branch (.intZero op) target last.next
  | .ifCompare op true target => .branch (.refCompare op) target last.next
  | .ifCompare op false target => .branch (.intCompare op) target last.next
  | .ifNull null target => .branch (.refNull null) target last.next
  | .switch default cases => .switch default cases
  | .return _ => .return
  | .throw => .throw
  | .jsr target => .jsr target last.next
  | .ret _ => .ret
  | _ => .fallThrough last.next

namespace FlowGraph

/-- The addresses before which code is cut. -/
def leaders (code : MethodCode) : List Address :=
  0 :: code.ranges.flatMap (fun r => [r.handler, r.start, r.stop])
    ++ code.instructions.flatMap fun i =>
      i.operation.branchTargets ++ if i.operation.endsBlock then [i.next] else []

/-- Instructions cut before each leader. -/
def cut (leaders : List Address) : List PlacedInstruction → List (List PlacedInstruction)
  | [] => []
  | i :: rest =>
    match rest, cut leaders rest with
    | [], _ | _, [] => [[i]]
    | j :: _, group :: groups =>
      if leaders.contains j.address then [i] :: group :: groups else (i :: group) :: groups

/-- The block of a nonempty row of instructions. -/
def blockOf? (instructions : List PlacedInstruction) : Option Block :=
  match instructions.head?, instructions.getLast? with
  | some first, some last => some ⟨first.address, instructions, .ofInstruction last⟩
  | _, _ => none

/-- The flow graph of the code of a method. -/
def ofCode (code : MethodCode) : FlowGraph :=
  ⟨(cut (leaders code) code.instructions).filterMap blockOf?, 0, code.ranges, [], []⟩

end FlowGraph

end JvmDecompiler
