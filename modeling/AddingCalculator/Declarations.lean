import AddingCalculator.Store
import AddingCalculator.SymbolTable

/-!
# Collecting declarations

The nodes of a program are taken level by level. A declaration enters its name into the table, and every other
mention of a name has to be of one that is entered by then. Declarations are items of the program and stand before
its statements, so in a program read from tokens all of them are entered before the first name is looked up.
-/

namespace AddingCalculator

abbrev Collecting := ExceptT Diagnostic (StateM SymbolTable)

def Tree.referenceName (t : TypedTree) : Except Diagnostic Char :=
  match t.construct with
  | .reference name => .ok name
  | _ => .error (.nodeExpected .reference)

namespace Collecting

def declare (name : Char) (type : DataType) : Collecting Unit := do
  let table ← get
  set (← table.declare name type)

def require (name : Char) : Collecting Unit := do
  let table ← get
  discard (table.typeOf name)

def contribute (t : TypedTree) : Collecting Unit :=
  match t.construct with
  | .declaration type target => do
    let name ← target.referenceName
    if isVariable name then declare name type else throw (.invalidName name)
  | .reference name => require name
  | .print name => require name
  | _ => return

def levels : Nat → List TypedTree → Collecting Unit
  | 0, _ => return
  | n + 1, ts => do
    ts.forM contribute
    levels n (ts.flatMap Tree.children)

end Collecting

def Store.collect (s : Store) : Collecting Unit :=
  match s.tree? with
  | none => throw .malformedTree
  -- A tree has no more levels than its store has nodes.
  | some t => Collecting.levels s.size [t]

end AddingCalculator
