import JvmDecompiler.ConstantPool.Known
import JvmDecompiler.ConstantPool.Validation
import JvmDecompiler.Decompilation
import JvmDecompiler.FlowGraph.Dot
import JvmDecompiler.Proofs.BlockEffects
import JvmDecompiler.Proofs.BoundUses
import JvmDecompiler.Proofs.Declaring
import JvmDecompiler.Proofs.Dominators
import JvmDecompiler.Proofs.JumpFixpoint
import JvmDecompiler.Proofs.JumpTargets
import JvmDecompiler.Proofs.Rendering
import JvmDecompiler.Text.ModifiedUtf8
import JvmDecompiler.Proofs.GraphExecution
import JvmDecompiler.Proofs.PoolGrowth
import JvmDecompiler.Proofs.ByteGrammar
import JvmDecompiler.Proofs.References
import JvmDecompiler.Proofs.ClassGrammar
import JvmDecompiler.Proofs.JumpMarks
import JvmDecompiler.Proofs.ResidualJumps
import JvmDecompiler.Proofs.Pieces
import JvmDecompiler.Proofs.StructuredExecution
import JvmDecompiler.Proofs.InstructionFlow
import JvmDecompiler.Proofs.Sweep
import JvmDecompiler.Proofs.InstructionEncoding
import JvmDecompiler.Proofs.AttributeEncoding
import JvmDecompiler.Proofs.LoopRounds
import JvmDecompiler.Proofs.LoopExits
import JvmDecompiler.Proofs.Truncation
import JvmDecompiler.Proofs.BlockOrder
import JvmDecompiler.Proofs.LoopCover
import JvmDecompiler.Proofs.LoopCuts
import JvmDecompiler.Proofs.HiddenLocals
import JvmDecompiler.Proofs.Negation
import JvmDecompiler.Proofs.ShortCircuit
import JvmDecompiler.Proofs.ValueWidths
import JvmDecompiler.Proofs.BlockMeaning
import JvmDecompiler.Proofs.PostDominators
import JvmDecompiler.Proofs.Irreducibility
import JvmDecompiler.Proofs.AddedDeclarations
import JvmDecompiler.Proofs.StorageClasses
import JvmDecompiler.Proofs.StructuringEnds
import JvmDecompiler.Proofs.StackHeight
import JvmDecompiler.Proofs.Concatenation
import JvmDecompiler.Proofs.RefinedValues
import JvmDecompiler.Proofs.MethodDescriptors
import JvmDecompiler.Proofs.ModifiedUtf8
import JvmDecompiler.Proofs.Deduplication
import JvmDecompiler.Proofs.InstructionCuts
import JvmDecompiler.Proofs.WideSlots
import JvmDecompiler.Proofs.ParameterSlots
import JvmDecompiler.Proofs.ParameterNames
import JvmDecompiler.Proofs.ExpressionStart
import JvmDecompiler.Proofs.LayoutOrder
import JvmDecompiler.Proofs.FinallyCopies
import JvmDecompiler.Proofs.TryRegions
import JvmDecompiler.Proofs.JumpClasses
