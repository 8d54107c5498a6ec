import AddingCalculator.SortedMap

namespace AddingCalculator

abbrev Registers (α : Type) := SortedMap Char α

structure Outcome (α : Type) where
  registers : Registers α
  printed : List α

inductive Fault where
  | emptyStack
  | unsetRegister (name : Char)
  | unreadableWord (word : String)
  | notAValue
  | notAReference
  | malformedTree
  deriving DecidableEq

namespace Outcome

def empty {α : Type} : Outcome α := ⟨.empty, []⟩

def read {α : Type} (o : Outcome α) (name : Char) : Except Fault α :=
  match o.registers.find? name with
  | some x => .ok x
  | none => .error (.unsetRegister name)

def assign {α : Type} (o : Outcome α) (name : Char) (x : α) : Outcome α :=
  { o with registers := o.registers.insert name x }

def print {α : Type} (o : Outcome α) (x : α) : Outcome α :=
  { o with printed := o.printed ++ [x] }

end Outcome

end AddingCalculator
