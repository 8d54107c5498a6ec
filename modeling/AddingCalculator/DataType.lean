namespace AddingCalculator

inductive DataType where
  | integer
  | float
  deriving DecidableEq

namespace DataType

def text : DataType → String
  | integer => "INT"
  | float => "FLOAT"

def general : DataType → DataType → DataType
  | integer, integer => integer
  | _, _ => float

def convertsTo : DataType → DataType → Bool
  | float, integer => false
  | _, _ => true

instance : LT DataType where
  lt s t := s = integer ∧ t = float

instance : DecidableLT DataType := fun s t => inferInstanceAs (Decidable (s = integer ∧ t = float))

end DataType

end AddingCalculator
