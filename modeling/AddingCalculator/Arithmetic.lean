import AddingCalculator.Binary64
import AddingCalculator.Program

namespace AddingCalculator

class Arithmetic (α : Type) where
  ofScientific : Scientific → α
  infinity? : Bool → Option α
  nan? : Option α
  add : α → α → α
  subtract : α → α → α

namespace Arithmetic

def ofNumeral? {α : Type} [Arithmetic α] : Numeral → Option α
  | .finite x => some (ofScientific x)
  | .infinity negative => infinity? negative
  | .nan => nan?

end Arithmetic

def Operator.apply {α : Type} [Arithmetic α] : Operator → α → α → α
  | add => Arithmetic.add
  | subtract => Arithmetic.subtract

instance : Arithmetic Binary64 where
  ofScientific := .nearest
  infinity? negative := some (.ofNumeral (.infinity negative))
  nan? := some .nan
  add := .add
  subtract := .sub

end AddingCalculator
