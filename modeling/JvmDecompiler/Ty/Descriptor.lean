import JvmDecompiler.Ty

/-!
# Descriptors

The spelling of types in a class file. A primitive type is one letter, a class is its internal name
between `L` and `;`, an array is `[` before its element, and a method is its parameters in
parentheses before its result.

`Ty.descriptor` writes a type and `Ty.read?` takes one off the front of a text. A position in a
descriptor counts the bytes of its UTF-8 form; `dropBytes?` moves to such a position.

The spelling of class names follows: the internal form separates packages by slashes, the source form
by dots.
-/

namespace JvmDecompiler

namespace Ty

/-- The descriptor of a type. The type of the null literal and an unknown type are written as the root
class. -/
def descriptor : Ty → String
  | .int => "I"
  | .long => "J"
  | .float => "F"
  | .double => "D"
  | .byte => "B"
  | .char => "C"
  | .short => "S"
  | .boolean => "Z"
  | .void => "V"
  | .reference name => "L" ++ name ++ ";"
  | .array element => "[" ++ element.descriptor
  | .null | .unknown => "Ljava/lang/Object;"

/-- The type whose descriptor a text starts with, and the rest of the text. A class name ends at the
first semicolon and is not empty. -/
def read? : List Char → Option (Ty × List Char)
  | 'B' :: rest => some (.byte, rest)
  | 'C' :: rest => some (.char, rest)
  | 'D' :: rest => some (.double, rest)
  | 'F' :: rest => some (.float, rest)
  | 'I' :: rest => some (.int, rest)
  | 'J' :: rest => some (.long, rest)
  | 'S' :: rest => some (.short, rest)
  | 'Z' :: rest => some (.boolean, rest)
  | 'V' :: rest => some (.void, rest)
  | 'L' :: rest =>
    match rest.takeWhile (· ≠ ';'), rest.dropWhile (· ≠ ';') with
    | c :: name, ';' :: rest => some (.reference (String.ofList (c :: name)), rest)
    | _, _ => none
  | '[' :: rest => (read? rest).map fun (t, rest) => (.array t, rest)
  | _ => none

/-- Reading a type takes at least one character. -/
theorem length_lt_of_read? {text rest : List Char} {t : Ty} (h : read? text = some (t, rest)) :
    rest.length < text.length := by
  fun_induction read? text generalizing t rest with
  | case1 | case2 | case3 | case4 | case5 | case6 | case7 | case8 | case9 => simp_all
  | case10 tail c name tail' hd =>
    have hle := congrArg List.length (List.takeWhile_append_dropWhile (p := (· ≠ ';')) (l := tail))
    simp_all
    omega
  | case11 => simp_all
  | case12 tail ih =>
    obtain ⟨⟨t', rest'⟩, hr, he⟩ := Option.map_eq_some_iff.1 h
    have := ih hr
    simp_all
    omega
  | case13 => simp_all

/-- The type that a text spells in full. -/
def ofDescriptor? (text : String) : Option Ty :=
  match read? text.toList with
  | some (t, []) => some t
  | _ => none

end Ty

namespace Descriptor

/-- How many bytes a sequence of characters takes in UTF-8. -/
def byteLength : List Char → Nat
  | [] => 0
  | c :: cs => c.utf8Size + byteLength cs

/-- What is left after the first `n` bytes, if a character starts there. -/
def dropBytes? : Nat → List Char → Option (List Char)
  | 0, cs => some cs
  | _ + 1, [] => none
  | n + 1, c :: cs => if c.utf8Size ≤ n + 1 then dropBytes? (n + 1 - c.utf8Size) cs else none

/-- The type spelled from byte position `position` of `text` on, and the position after it. -/
def typeAt? (text : String) (position : Nat) : Option (Ty × Nat) := do
  let (t, rest) ← Ty.read? (← dropBytes? position text.toList)
  return (t, byteLength text.toList - byteLength rest)

/-- The types spelled one after the other from the start of `text` until at least `left` characters
are used up. -/
def readParameters? (left : Nat) (text : List Char) : Option (List Ty) :=
  if left = 0 then some []
  else
    match h : Ty.read? text with
    | some (t, rest) =>
      have : rest.length < text.length := Ty.length_lt_of_read? h
      (readParameters? (left - t.descriptor.length) rest).map (t :: ·)
    | none => none
  termination_by text.length

end Descriptor

/-- The types of the parameters of a method and the type of its result. -/
structure MethodTy where
  parameters : List Ty
  result : Ty
  deriving DecidableEq, Repr, Inhabited

/-- The method type that a text spells. The parameters end with the type that reaches the first
closing parenthesis; the result is what stands behind that parenthesis. -/
def MethodTy.ofDescriptor? (text : String) : Option MethodTy :=
  match text.toList with
  | '(' :: body =>
    match body.dropWhile (· ≠ ')') with
    | [] => none
    | _ :: afterParameters => do
      let parameters ← Descriptor.readParameters? (body.takeWhile (· ≠ ')')).length body
      match ← Ty.read? afterParameters with
      | (result, []) => some ⟨parameters, result⟩
      | _ => none
  | _ => none

/-- The descriptor of a method. -/
def MethodTy.descriptor (m : MethodTy) : String :=
  "(" ++ String.join (m.parameters.map Ty.descriptor) ++ ")" ++ m.result.descriptor

/-! ## Class names -/

namespace ClassName

/-- The source form of an internal name: dots for slashes. -/
def toSource (name : String) : String := name.map fun c => if c = '/' then '.' else c

/-- Where the last slash splits a name into package and simple name. -/
def split (cs : List Char) : Option (List Char) × List Char :=
  let simple := (cs.reverse.takeWhile (· ≠ '/')).reverse
  if cs.contains '/' then (some (cs.take (cs.length - simple.length - 1)), simple) else (none, simple)

/-- The name without its package. -/
def simple (name : String) : String := String.ofList (split name.toList).2

/-- The package of an internal name, in source form. -/
def package? (name : String) : Option String :=
  (split name.toList).1.map fun cs => toSource (String.ofList cs)

end ClassName

namespace Ty

/-- The type that a class constant names: an array type by its descriptor, any other class by its
name. -/
def ofClassConstant (name : String) : Ty :=
  if name.toList.head? = some '[' then (ofDescriptor? name).getD .unknown else .reference name

/-- The source form of a type, packages included. -/
def sourceName : Ty → String
  | .int => "int"
  | .long => "long"
  | .float => "float"
  | .double => "double"
  | .byte => "byte"
  | .char => "char"
  | .short => "short"
  | .boolean => "boolean"
  | .void => "void"
  | .reference name => ClassName.toSource name
  | .array element => element.sourceName ++ "[]"
  | .null => "null"
  | .unknown => "java.lang.Object"

end Ty

end JvmDecompiler
