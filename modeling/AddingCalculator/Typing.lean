import AddingCalculator.Store
import AddingCalculator.SymbolTable

/-!
# Finding types

Every node below the program gets the type of its value, children before parents. A computation has the general type
of its operands and an assignment the type of its target; an operand of a lesser type is converted on the spot.
Converting widens a constant, goes into both operands of a computation, and puts a conversion above a variable.
-/

namespace AddingCalculator

/-- A computation that goes on with the nodes as they stand when it fails. -/
abbrev Typing := ExceptT Diagnostic (StateM Store)

namespace Typing

variable {m : Type → Type} [Monad m] [NodeAccess m]

def node (id : NodeId) : ExceptT Diagnostic m Node := do
  match ← NodeAccess.node? id with
  | some n => return n
  | none => throw .malformedTree

-- Converts a typed value to a type, in at most `fuel` steps down.
def widenTo : Nat → NodeId → DataType → ExceptT Diagnostic m Unit
  | 0, _, _ => throw .malformedTree
  | fuel + 1, id, target => do
    let n ← node id
    match n.type with
    | none => throw (.nodeExpected .typed)
    | some source =>
      if source = target then return
      else if !source.convertsTo target then throw (.illegalConversion source target)
      else match n.construct with
        | .constant _ => NodeAccess.widen id
        | .compute _ left right => do
          widenTo fuel left target
          widenTo fuel right target
          NodeAccess.setType id target
        | .reference _ | .convert _ => NodeAccess.insertConversion id
        | _ => throw (.nodeExpected .value)

def value (type : Option DataType) : ExceptT Diagnostic m DataType :=
  match type with
  | some type => return type
  | none => throw (.nodeExpected .value)

def typed (id : NodeId) (type : DataType) : ExceptT Diagnostic m (Option DataType) := do
  NodeAccess.setType id type
  return some type

-- A program has no value and no type.
def infer (table : SymbolTable) : Nat → NodeId → ExceptT Diagnostic m (Option DataType)
  | 0, _ => throw .malformedTree
  | fuel + 1, id => do
    let n ← node id
    match n.construct with
    | .program items => do
      items.forM fun item => discard (infer table fuel item)
      return none
    | .declaration type target => do
      discard (value (← infer table fuel target))
      typed id type
    | .assign target right => do
      let type ← value (← infer table fuel target)
      discard (value (← infer table fuel right))
      widenTo fuel right type
      typed id type
    | .compute _ left right => do
      let leftType ← value (← infer table fuel left)
      let rightType ← value (← infer table fuel right)
      let type := leftType.general rightType
      widenTo fuel left type
      widenTo fuel right type
      typed id type
    | .reference name => do typed id (← table.typeOf name)
    | .print name => do typed id (← table.typeOf name)
    | .constant literal => typed id literal.type
    | .convert operand => do
      discard (value (← infer table fuel operand))
      typed id .float

/-- A bound on the depth of a store while its types are found. No path repeats a node, so a path is no longer than
the nodes of the store and the conversions added to it, and memory does not hold as many conversions as are allowed
for. -/
def depthBound (s : Store) : Nat :=
  s.size + (1 <<< 62)

def findTypes (table : SymbolTable) : ExceptT Diagnostic m Unit := do
  let s ← NodeAccess.store
  if s.tree?.isNone then throw .malformedTree
  else discard (infer table (depthBound s) Store.root)

end Typing

def Store.findTypes (table : SymbolTable) : Typing Unit :=
  Typing.findTypes table

end AddingCalculator
