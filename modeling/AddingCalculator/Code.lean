import AddingCalculator.Declarations

namespace AddingCalculator

inductive Instruction where
  | push (value : Literal)
  | load (register : Char)
  | store (register : Char)
  | compute (operator : Operator)
  | print
  | precision (digits : Nat)
  deriving DecidableEq

namespace Instruction

def text : Instruction → String
  | push value => value.text
  | load register => "l" ++ String.singleton register
  | store register => "s" ++ String.singleton register
  | compute .add => "+"
  | compute .subtract => "-"
  | print => "p"
  | precision digits => toString digits ++ " k"

end Instruction

abbrev Code := List Instruction

/-- Printing leaves the value on the stack. It is moved to this register, which no variable uses. -/
def scratchRegister : Char := 'i'

def floatPrecision : Nat := 5

mutual

/-- The code of a tree, with `rest` behind it. The code of a value leaves that value on the stack, and the code of a
statement leaves the stack as it was. -/
def Tree.codeBefore (rest : Code) : TypedTree → Except Diagnostic Code
  | .node _ (.program items) => Tree.codeAllBefore rest items
  | .node _ (.declaration _ _) => .ok rest
  | .node _ (.assign target value) => do
    let name ← target.referenceName
    value.codeBefore (.store name :: .precision 0 :: rest)
  | .node _ (.compute o left right) => do
    let rest ← right.codeBefore (.compute o :: rest)
    left.codeBefore rest
  | .node _ (.reference name) => .ok (.load name :: rest)
  | .node _ (.constant value) => .ok (.push value :: rest)
  | .node _ (.print name) => .ok (.load name :: .print :: .store scratchRegister :: rest)
  | .node _ (.convert operand) => operand.codeBefore (.precision floatPrecision :: rest)

def Tree.codeAllBefore (rest : Code) : List TypedTree → Except Diagnostic Code
  | [] => .ok rest
  | t :: ts => do
    let rest ← Tree.codeAllBefore rest ts
    t.codeBefore rest

end

def Tree.code (t : TypedTree) : Except Diagnostic Code :=
  t.codeBefore []

def Store.code (s : Store) : Except Diagnostic Code :=
  match s.tree? with
  | none => .error .malformedTree
  | some t => t.code

end AddingCalculator
