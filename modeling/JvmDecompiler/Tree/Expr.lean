import JvmDecompiler.Ieee
import JvmDecompiler.Instruction
import JvmDecompiler.Ty.Descriptor

/-!
# Expressions

The expressions of the recovered source, as trees. Every node carries the source line of the
instruction that it came from, where the method has a line table.

Besides what source code can say, expressions have a few forms for values on the way to it: an object
before its constructor has run, the result of a three-way comparison before a branch uses it, the
exception that a handler starts with, and a value that could not be recovered.
-/

namespace JvmDecompiler

/-- The source line of a node, if it is known. -/
abbrev SourceLine := Option Nat

/-- Literals. Floating-point numbers are kept as their bits, characters as code units. An `int` literal
remembers the kind of instruction that pushed it. -/
inductive Literal where
  | int (value : Int32) (form : Option PushForm)
  | long (value : Int64)
  | float (bits : UInt32)
  | double (bits : UInt64)
  | char (unit : UInt16)
  | boolean (value : Bool)
  | string (text : String)
  | classOf (type : Ty)
  | null
  deriving DecidableEq, Repr, Inhabited

/-- The type of a literal. -/
def Literal.type : Literal → Ty
  | .int .. => .int
  | .long _ => .long
  | .float _ => .float
  | .double _ => .double
  | .char _ => .char
  | .boolean _ => .boolean
  | .string _ => .string
  | .classOf _ => .reference "java/lang/Class"
  | .null => .null

/-- Whether two literals are equal, floating-point ones as numbers. -/
def Literal.equal : Literal → Literal → Bool
  | .float a, .float b => Ieee.equal32 a b
  | .double a, .double b => Ieee.equal64 a b
  | a, b => a = b

/-- Operators on two operands: those of arithmetic, and the two logical ones. -/
inductive BinaryOp where
  | add
  | sub
  | mul
  | div
  | rem
  | shl
  | shr
  | ushr
  | bitAnd
  | bitOr
  | bitXor
  | and
  | or
  deriving DecidableEq, Repr, Inhabited

namespace BinaryOp

/-- The operator of an arithmetic instruction. -/
def ofArith : ArithOp → BinaryOp
  | .add => .add
  | .sub => .sub
  | .mul => .mul
  | .div => .div
  | .rem => .rem
  | .shl => .shl
  | .shr => .shr
  | .ushr => .ushr
  | .and => .bitAnd
  | .or => .bitOr
  | .xor => .bitXor

/-- The operator as it is written in source code. -/
def symbol : BinaryOp → String
  | .add => "+"
  | .sub => "-"
  | .mul => "*"
  | .div => "/"
  | .rem => "%"
  | .shl => "<<"
  | .shr => ">>"
  | .ushr => ">>>"
  | .bitAnd => "&"
  | .bitOr => "|"
  | .bitXor => "^"
  | .and => "&&"
  | .or => "||"

/-- Whether the operator evaluates its right operand only when the left one calls for it. -/
def isLogical : BinaryOp → Bool
  | .and | .or => true
  | _ => false

end BinaryOp

/-- A use of a local variable. `pc` is the address of the instruction for a load and the address behind
it for a store, which is where a variable's range starts. Until variables are recovered, the name is
empty and `var` is absent; then `var` is a position in the list of variables. -/
structure LocalRef where
  slot : UInt16
  pc : Address
  name : String
  type : Ty
  var : Option Nat
  deriving DecidableEq, Repr, Inhabited

/-- A use of a slot that belongs to no variable yet. -/
def LocalRef.ofSlot (slot : UInt16) (pc : Address) (type : Ty) : LocalRef := ⟨slot, pc, "", type, none⟩

/-- Expressions. The first field of every form is its source line. -/
inductive Expr where
  | literal (line : SourceLine) (value : Literal)
  | localVar (line : SourceLine) (ref : LocalRef)
  | this (line : SourceLine)
  /-- The exception that a handler starts with, of a class if the handler names one. -/
  | caught (line : SourceLine) (className : Option String)
  | binary (line : SourceLine) (op : BinaryOp) (left right : Expr)
  | compare (line : SourceLine) (op : CompareOp) (left right : Expr)
  | not (line : SourceLine) (operand : Expr)
  | neg (line : SourceLine) (operand : Expr)
  | cast (line : SourceLine) (type : Ty) (operand : Expr)
  | instanceOf (line : SourceLine) (operand : Expr) (className : String)
  | field (line : SourceLine) (object : Option Expr) (className name : String) (type : Ty)
  | invoke (line : SourceLine) (kind : InvokeKind) (object : Option Expr)
      (className name descriptor : String) (args : List Expr)
  | invokeDynamic (line : SourceLine) (name descriptor : String) (args : List Expr)
  | new (line : SourceLine) (className descriptor : String) (args : List Expr)
  | newArray (line : SourceLine) (element : Ty) (dimensions : List Expr)
  | arrayLength (line : SourceLine) (array : Expr)
  | arrayLoad (line : SourceLine) (array index : Expr)
  | assign (line : SourceLine) (target value : Expr)
  /-- Adds `delta` to the target; the value is that of the target after the addition if `before`
  holds, and that before it otherwise. -/
  | increment (line : SourceLine) (target : Expr) (delta : Int32) (before : Bool)
  | ternary (line : SourceLine) (condition thenExpr elseExpr : Expr)
  | concat (line : SourceLine) (parts : List Expr)
  /-- The result of a three-way comparison that no branch has used yet. -/
  | threeWay (line : SourceLine) (kind : ThreeWay) (left right : Expr)
  /-- An object whose constructor has not run yet. -/
  | uninitNew (line : SourceLine) (className : String)
  /-- A value that could not be recovered. -/
  | unresolved (line : SourceLine) (text : String)
  deriving Inhabited

namespace Expr

/-- The source line of the node itself. -/
def line : Expr → SourceLine
  | literal l _ | localVar l _ | this l | caught l _ | binary l .. | compare l .. | not l _ | neg l _
  | cast l .. | instanceOf l .. | field l .. | invoke l .. | invokeDynamic l .. | new l ..
  | newArray l .. | arrayLength l _ | arrayLoad l .. | assign l .. | increment l .. | ternary l ..
  | concat l _ | threeWay l .. | uninitNew l _ | unresolved l _ => l

/-- The same node on another source line. -/
def withLine (l : SourceLine) : Expr → Expr
  | literal _ value => literal l value
  | localVar _ ref => localVar l ref
  | this _ => this l
  | caught _ className => caught l className
  | binary _ op left right => binary l op left right
  | compare _ op left right => compare l op left right
  | not _ operand => not l operand
  | neg _ operand => neg l operand
  | cast _ type operand => cast l type operand
  | instanceOf _ operand className => instanceOf l operand className
  | field _ object className name type => field l object className name type
  | invoke _ kind object className name descriptor args =>
    invoke l kind object className name descriptor args
  | invokeDynamic _ name descriptor args => invokeDynamic l name descriptor args
  | new _ className descriptor args => new l className descriptor args
  | newArray _ element dimensions => newArray l element dimensions
  | arrayLength _ array => arrayLength l array
  | arrayLoad _ array index => arrayLoad l array index
  | assign _ target value => assign l target value
  | increment _ target delta before => increment l target delta before
  | ternary _ condition thenExpr elseExpr => ternary l condition thenExpr elseExpr
  | concat _ parts => concat l parts
  | threeWay _ kind left right => threeWay l kind left right
  | uninitNew _ className => uninitNew l className
  | unresolved _ text => unresolved l text

/-- The node on its own line if it has one, and on `l` otherwise. -/
def orLine (e : Expr) (l : SourceLine) : Expr := if e.line.isNone then e.withLine l else e

/-- The local variable that the expression is. -/
def asLocal? : Expr → Option LocalRef
  | localVar _ ref => some ref
  | _ => none

/-- Whether the expression is the local variable in a slot. -/
def isLocalSlot (e : Expr) (slot : UInt16) : Bool := e.asLocal?.any (·.slot = slot)

/-- The value of an `int` literal. -/
def intValue? : Expr → Option Int32
  | literal _ (.int value _) => some value
  | _ => none

/-- The type of the result of a method with a descriptor. -/
def resultType (descriptor : String) : Ty :=
  ((MethodTy.ofDescriptor? descriptor).map (·.result)).getD .unknown

/-- The type of an expression, as far as it can be read off the tree. -/
def type : Expr → Ty
  | literal _ value => value.type
  | localVar _ ref => ref.type
  | this _ | unresolved .. => .unknown
  | caught _ className => (className.map .reference).getD .throwable
  | binary _ op left _ =>
    if op.isLogical then .boolean
    else
      let t := left.type
      if t.isIntLike then .int else t
  | compare .. | not .. | instanceOf .. => .boolean
  | neg _ operand => operand.type
  | cast _ type _ => type
  | field _ _ _ _ type => type
  | invoke _ _ _ _ _ descriptor _ | invokeDynamic _ _ descriptor _ => resultType descriptor
  | new _ className _ _ => .reference className
  | newArray _ element dimensions => element.arrayOf (max dimensions.length 1)
  | arrayLength .. | threeWay .. => .int
  | arrayLoad _ array _ => array.type.element?.getD .unknown
  | assign _ target _ => target.type
  | increment _ target _ _ => target.type
  | ternary _ _ thenExpr _ => thenExpr.type
  | concat .. => .string
  | uninitNew _ className => .reference className

/-- Whether the expression is a truth value. -/
def isBoolean (e : Expr) : Bool := e.type = .boolean

/-- Whether the expression may be evaluated any number of times: it calls nothing and changes
nothing. -/
def isPure : Expr → Bool
  | literal .. | localVar .. | this _ => true
  | field _ none _ _ _ => true
  | field _ (some object) _ _ _ => object.isPure
  | arrayLength _ e | not _ e | neg _ e | cast _ _ e | instanceOf _ e _ => e.isPure
  | binary _ _ a b | compare _ _ a b | arrayLoad _ a b => a.isPure && b.isPure
  | _ => false

/-- The negation of a truth value. It is moved into comparisons and through the logical operators, and
a double negation goes away. -/
def negate : Expr → Expr
  | compare l op left right => compare l op.negate left right
  | not _ operand => operand
  | literal l (.boolean b) => literal l (.boolean !b)
  | binary l .and left right => binary l .or left.negate right.negate
  | binary l .or left right => binary l .and left.negate right.negate
  | e => not e.line e

end Expr

/-! ## Equality

Two expressions are equal if they are the same tree, lines and variables included, where
floating-point literals are compared as numbers: NaN differs from itself, and the two zeros are
equal. -/

mutual

/-- Whether two expressions are equal. -/
def Expr.equal : Expr → Expr → Bool
  | .literal l a, .literal m b => l = m && a.equal b
  | .localVar l a, .localVar m b => l = m && a = b
  | .this l, .this m => l = m
  | .caught l a, .caught m b => l = m && a = b
  | .binary l o a b, .binary m p c d => l = m && o = p && a.equal c && b.equal d
  | .compare l o a b, .compare m p c d => l = m && o = p && a.equal c && b.equal d
  | .not l a, .not m b => l = m && a.equal b
  | .neg l a, .neg m b => l = m && a.equal b
  | .cast l t a, .cast m u b => l = m && t = u && a.equal b
  | .instanceOf l a c, .instanceOf m b d => l = m && a.equal b && c = d
  | .field l o c n t, .field m p d k u => l = m && Expr.equalOption o p && c = d && n = k && t = u
  | .invoke l k o c n d as, .invoke m k' p c' n' d' bs =>
    l = m && k = k' && Expr.equalOption o p && c = c' && n = n' && d = d' && Expr.equalList as bs
  | .invokeDynamic l n d as, .invokeDynamic m n' d' bs =>
    l = m && n = n' && d = d' && Expr.equalList as bs
  | .new l c d as, .new m c' d' bs => l = m && c = c' && d = d' && Expr.equalList as bs
  | .newArray l t as, .newArray m u bs => l = m && t = u && Expr.equalList as bs
  | .arrayLength l a, .arrayLength m b => l = m && a.equal b
  | .arrayLoad l a b, .arrayLoad m c d => l = m && a.equal c && b.equal d
  | .assign l a b, .assign m c d => l = m && a.equal c && b.equal d
  | .increment l a n p, .increment m b k q => l = m && a.equal b && n = k && p = q
  | .ternary l a b c, .ternary m d e f => l = m && a.equal d && b.equal e && c.equal f
  | .concat l as, .concat m bs => l = m && Expr.equalList as bs
  | .threeWay l k a b, .threeWay m k' c d => l = m && k = k' && a.equal c && b.equal d
  | .uninitNew l c, .uninitNew m d => l = m && c = d
  | .unresolved l s, .unresolved m t => l = m && s = t
  | _, _ => false

/-- Whether two expressions that may be absent are equal. -/
def Expr.equalOption : Option Expr → Option Expr → Bool
  | none, none => true
  | some a, some b => a.equal b
  | _, _ => false

/-- Whether two lists of expressions are equal. -/
def Expr.equalList : List Expr → List Expr → Bool
  | [], [] => true
  | a :: as, b :: bs => a.equal b && Expr.equalList as bs
  | _, _ => false

end

end JvmDecompiler
