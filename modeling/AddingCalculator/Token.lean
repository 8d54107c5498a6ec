import AddingCalculator.Literal
import AddingCalculator.Text.Span

namespace AddingCalculator

namespace Token

inductive Kind where
  | floatDeclaration
  | integerDeclaration
  | print
  | name
  | assign
  | plus
  | minus
  | integer
  | decimal
  | close
  deriving DecidableEq

def Kind.text : Kind → String
  | floatDeclaration => "FLOATDCL"
  | integerDeclaration => "INTDCL"
  | print => "PRINT"
  | name => "ID"
  | assign => "ASSIGN"
  | plus => "PLUS"
  | minus => "MINUS"
  | integer => "INUM"
  | decimal => "FNUM"
  | close => "END"

inductive Value where
  | name (letter : Char)
  | integer (value : Int)
  | decimal (value : Decimal)
  deriving DecidableEq

def Value.text : Value → String
  | name c => String.singleton c
  | integer n => toString n
  | decimal d => d.text

end Token

/-- A token stream need not come from a text, so kind and value are kept apart. -/
structure Token where
  kind : Token.Kind
  value : Option Token.Value
  span : Span
  deriving DecidableEq

def isVariable (c : Char) : Bool :=
  c.isLower && c != 'f' && c != 'i' && c != 'p'

namespace Token

def text (t : Token) : String :=
  match t.value with
  | some v => "<" ++ t.kind.text ++ ": " ++ v.text ++ ">"
  | none => "<" ++ t.kind.text ++ ">"

def name? (t : Token) : Option Char :=
  match t.value with
  | some (.name c) => some c
  | _ => none

def closing (span : Span) : Token :=
  ⟨.close, none, span⟩

end Token

end AddingCalculator
