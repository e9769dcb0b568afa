/-!
# Names with a fixed meaning

Names and descriptors that the format of class files or the standard library fixes, and that reading
or decompiling a class has to recognise.
-/

namespace JvmDecompiler

/-- A name or descriptor with a fixed meaning. -/
inductive KnownName where
  | instanceConstructor
  | classConstructor
  | toString
  | valueOf
  | append
  | javaLangObject
  | objectDescriptor
  | javaLangString
  | stringBuffer
  | stringBuilder
  | this
  | code
  | constantValue
  | deprecated
  | exceptions
  | lineNumberTable
  | localVariableTable
  | localVariableTypeTable
  | signature
  | sourceFile
  | synthetic
  | runtimeVisibleAnnotations
  | runtimeInvisibleAnnotations
  | methodParameters
  deriving DecidableEq, Hashable, Repr, Inhabited

/-- The text of a known name. -/
def KnownName.text : KnownName → String
  | .instanceConstructor => "<init>"
  | .classConstructor => "<clinit>"
  | .toString => "toString"
  | .valueOf => "valueOf"
  | .append => "append"
  | .javaLangObject => "java/lang/Object"
  | .objectDescriptor => "Ljava/lang/Object;"
  | .javaLangString => "java/lang/String"
  | .stringBuffer => "java/lang/StringBuffer"
  | .stringBuilder => "java/lang/StringBuilder"
  | .this => "this"
  | .code => "Code"
  | .constantValue => "ConstantValue"
  | .deprecated => "Deprecated"
  | .exceptions => "Exceptions"
  | .lineNumberTable => "LineNumberTable"
  | .localVariableTable => "LocalVariableTable"
  | .localVariableTypeTable => "LocalVariableTypeTable"
  | .signature => "Signature"
  | .sourceFile => "SourceFile"
  | .synthetic => "Synthetic"
  | .runtimeVisibleAnnotations => "RuntimeVisibleAnnotations"
  | .runtimeInvisibleAnnotations => "RuntimeInvisibleAnnotations"
  | .methodParameters => "MethodParameters"

end JvmDecompiler
