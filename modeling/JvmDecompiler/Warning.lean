/-!
# Warnings

What may be wrong with the recovered source of a method although there is one.
-/

namespace JvmDecompiler

/-- Kinds of warnings. -/
inductive WarningKind where
  /-- The code of the method cannot be used; a comment stands for the body. -/
  | unsupportedBytecode
  /-- Some control flow has no structured form. -/
  | reductionAmbiguity
  /-- A value keeps a wider type than its use asks for. -/
  | typeInferenceUncertain
  deriving DecidableEq, Repr, Inhabited

/-- The name of a kind of warning. -/
def WarningKind.name : WarningKind → String
  | .unsupportedBytecode => "UnsupportedBytecode"
  | .reductionAmbiguity => "ReductionAmbiguity"
  | .typeInferenceUncertain => "TypeInferenceUncertain"

/-- A warning about a method, which is given by its name and descriptor. -/
structure Warning where
  kind : WarningKind
  method : String
  message : String
  deriving DecidableEq, Repr, Inhabited

/-- The warning in words. -/
def Warning.text (w : Warning) : String := s!"{w.kind.name} in {w.method}: {w.message}"

end JvmDecompiler
