import AddingCalculator.Literal
import AddingCalculator.Text.Span

/-!
# Programs

A program declares variables and then assigns and prints them. The right side of an assignment is a chain of
operands joined by additions and subtractions, taken from the left. Each part keeps the place of the token that it
is named after.
-/

namespace AddingCalculator

inductive Operator where
  | add
  | subtract
  deriving DecidableEq

structure Identifier where
  letter : Char
  span : Span
  deriving DecidableEq

inductive Atom where
  | name (letter : Char)
  | literal (value : Literal)
  deriving DecidableEq

structure Operand where
  atom : Atom
  span : Span
  deriving DecidableEq

inductive Chain where
  | operand (first : Operand)
  | extend (left : Chain) (operator : Operator) (span : Span) (right : Operand)
  deriving DecidableEq

structure Declaration where
  type : DataType
  target : Identifier
  span : Span
  deriving DecidableEq

inductive Statement where
  | assign (target : Identifier) (value : Chain)
  | print (name : Char) (span : Span)
  deriving DecidableEq

structure Program where
  declarations : List Declaration
  statements : List Statement
  deriving DecidableEq

end AddingCalculator
