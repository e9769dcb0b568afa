import JvmDecompiler.FlowGraph

/-!
# Try statements in an exception table

An exception table lists ranges of code with their handlers. Compilers cut a range around copies of
`finally` code and protect catch handlers by the `finally` handler as well, so one try statement makes
several rows. Rows are grouped by their handler, and handlers by the range that starts first, or the
longest of those.
-/

namespace JvmDecompiler

/-- One try statement: where the protected code starts, its handlers with the classes that they catch,
and the handler of its `finally` part. -/
structure TryRegion where
  start : BlockId
  stop : BlockId
  catches : List (BlockId × List String)
  finally? : Option BlockId
  deriving DecidableEq, Repr, Inhabited

namespace TryRegion

/-- The handlers of the statement, in increasing order. -/
def handlers (r : TryRegion) : List BlockId := sortedSet (r.catches.map (·.1) ++ r.finally?.toList)

/-- The rows of one handler taken together: the widest of the ranges that start first, and the classes
that the rows name. -/
structure HandlerRows where
  handler : BlockId
  start : BlockId
  stop : BlockId
  classes : List String
  deriving DecidableEq, Repr, Inhabited

/-- Whether a range comes before another: it starts first, or at the same place and ends later. -/
def precedes (a b : BlockId × BlockId) : Bool := a.1 < b.1 || (a.1 = b.1 && b.2 < a.2)

/-- Take another row of the same handler into account. -/
def HandlerRows.add (h : HandlerRows) (row : ProtectedRange) : HandlerRows :=
  let (start, stop) :=
    if precedes (row.start, row.stop) (h.start, h.stop) then (row.start, row.stop)
    else (h.start, h.stop)
  let classes :=
    match row.catchType with
    | some c => if h.classes.contains c then h.classes else h.classes ++ [c]
    | none => h.classes
  ⟨h.handler, start, stop, classes⟩

/-- The rows of a table, grouped by handler, in increasing order of the handlers. -/
def groupRows (ranges : List ProtectedRange) : List HandlerRows :=
  (sortedSet (ranges.map (·.handler))).filterMap fun handler =>
    match ranges.filter (·.handler = handler) with
    | first :: rest =>
      some (rest.foldl HandlerRows.add
        ⟨handler, first.start, first.stop, first.catchType.toList⟩)
    | [] => none

/-- Give the statement another handler. The first one that names no class is that of its `finally`
part. -/
def add (r : TryRegion) (h : HandlerRows) : TryRegion :=
  if h.classes.isEmpty && r.finally?.isNone then { r with finally? := some h.handler }
  else { r with catches := r.catches ++ [(h.handler, h.classes)] }

/-- Put a handler into the statement with its range, in a list where outer statements come first. -/
def insert (h : HandlerRows) : List TryRegion → List TryRegion
  | [] => [(⟨h.start, h.stop, [], none⟩ : TryRegion).add h]
  | r :: rest =>
    if r.start = h.start && r.stop = h.stop then r.add h :: rest
    else if precedes (h.start, h.stop) (r.start, r.stop) then
      (⟨h.start, h.stop, [], none⟩ : TryRegion).add h :: r :: rest
    else r :: insert h rest

/-- The try statements of an exception table, outer ones first. -/
def ofRanges (ranges : List ProtectedRange) : List TryRegion :=
  (groupRows ranges).foldl (fun regions h => insert h regions) []

end TryRegion

end JvmDecompiler
