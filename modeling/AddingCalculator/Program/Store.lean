import AddingCalculator.Program
import AddingCalculator.Store

namespace AddingCalculator

def Atom.construct : Atom → Construct NodeId
  | name letter => .reference letter
  | literal value => .constant value

namespace NodeAccess

variable {m : Type → Type} [Monad m] [NodeAccess m]

def addOperand (x : Operand) : m Unit :=
  add x.atom.construct x.span

-- The node of the whole value is the last one made.
def addChain : Chain → m Unit
  | .operand first => addOperand first
  | .extend left o span right => do
    addChain left
    let id := (← store).size
    addOperand right
    add (.compute o (id - 1) id) span

def addDeclaration (d : Declaration) : m Unit := do
  let target := (← store).size
  add (.reference d.target.letter) d.target.span
  let id := (← store).size
  add (.declaration d.type target) d.span
  appendItem id

def addStatement : Statement → m Unit
  | .assign target value => do
    let name := (← store).size
    add (.reference target.letter) target.span
    addChain value
    let id := (← store).size
    add (.assign name (id - 1)) target.span
    appendItem id
  | .print name span => do
    let id := (← store).size
    add (.print name) span
    appendItem id

def addProgram (p : Program) : m Unit := do
  p.declarations.forM addDeclaration
  p.statements.forM addStatement

end NodeAccess

def Program.store (p : Program) : Store :=
  ((NodeAccess.addProgram p : StateM Store Unit).run .empty).2

end AddingCalculator
