import AddingCalculator.Program

/-!
# The constructs of the language

A construct is one node of a program without what stands below it: its children are of any type `α`. In a store they are
node numbers, in a tree they are trees.
-/

namespace AddingCalculator

inductive Construct (α : Type) where
  | program (items : List α)
  | declaration (type : DataType) (target : α)
  | assign (target value : α)
  | compute (operator : Operator) (left right : α)
  | reference (name : Char)
  | constant (value : Literal)
  | print (name : Char)
  | convert (operand : α)
  deriving DecidableEq

namespace Construct

def children {α : Type} : Construct α → List α
  | program items => items
  | declaration _ target => [target]
  | assign target value => [target, value]
  | compute _ left right => [left, right]
  | reference _ => []
  | constant _ => []
  | print _ => []
  | convert operand => [operand]

def map {α β : Type} (f : α → β) : Construct α → Construct β
  | program items => program (items.map f)
  | declaration type target => declaration type (f target)
  | assign target value => assign (f target) (f value)
  | compute o left right => compute o (f left) (f right)
  | reference name => reference name
  | constant value => constant value
  | print name => print name
  | convert operand => convert (f operand)

def map? {α β : Type} (f : α → Option β) : Construct α → Option (Construct β)
  | program items => return program (← items.mapM f)
  | declaration type target => return declaration type (← f target)
  | assign target value => return assign (← f target) (← f value)
  | compute o left right => return compute o (← f left) (← f right)
  | reference name => some (reference name)
  | constant value => some (constant value)
  | print name => some (print name)
  | convert operand => return convert (← f operand)

theorem children_map {α β : Type} (f : α → β) (c : Construct α) : (c.map f).children = c.children.map f := by
  cases c <;> rfl

end Construct

def Operator.text : Operator → String
  | add => "Add"
  | subtract => "Subtract"

def Construct.label {α : Type} : Construct α → String
  | program _ => "Program"
  | declaration type _ => "Declaration " ++ type.text
  | assign _ _ => "Assign"
  | compute o _ _ => "Compute " ++ o.text
  | reference name => "Reference " ++ String.singleton name
  | constant value => "Constant " ++ value.text
  | print name => "Print " ++ String.singleton name
  | convert _ => "Convert"

end AddingCalculator
