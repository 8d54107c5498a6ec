import AddingCalculator.Binary64
import AddingCalculator.DataType

namespace AddingCalculator

/-- A number with the spelling under which it is written, so that code that repeats the spelling never rounds. -/
structure Decimal where
  text : String
  exact : Scientific
  read : Numeral.read? text.toList = some (.finite exact)
  deriving DecidableEq

namespace Decimal

def value (d : Decimal) : Binary64 :=
  .nearest d.exact

def spelling (cs : List Char) : String :=
  .ofList (if cs.getLast? = some '.' then cs ++ ['0'] else cs)

def read? (cs : List Char) : Option Decimal :=
  -- A point alone is no numeral, though the spelling kept for it would be.
  if (Numeral.read? cs).isNone then none
  else match h : Numeral.read? (spelling cs).toList with
    | some (.finite x) => if (Binary64.nearest x).isFinite then some ⟨spelling cs, x, h⟩ else none
    | _ => none

def parse? (text : String) : Option Decimal :=
  read? text.toList

theorem read_int (n : Int) :
    Numeral.read? (toString n ++ ".0").toList = some (.finite ⟨n < 0, n.natAbs * 10, -1⟩) := by
  have hvalue (m : Nat) : digitsValue (Nat.toDigits 10 m ++ ['0']) = m * 10 := by
    rw [digitsValue, Nat.ofDigitChars_append, Nat.ofDigitChars_toDigits (by decide) (by decide)]
    simp [Nat.ofDigitChars, Nat.mul_comm]
  have hread (m : Nat) (negative : Bool) :
      Numeral.read? ((if negative then ['-'] else []) ++ (Nat.toDigits 10 m ++ '.' :: ['0'])) =
        some (.finite ⟨negative, m * 10, -1⟩) := by
    have hzero : ∀ c ∈ ['0'], c.isDigit = true := fun c hc => by rw [List.mem_singleton.mp hc]; rfl
    rw [Numeral.read?_point negative Nat.toDigits_ne_nil
      (fun c hc => Nat.isDigit_of_mem_toDigits (by decide) (by decide) hc) hzero, hvalue]
    rfl
  cases n with
  | ofNat m =>
    have hsign : decide ((m : Int) < 0) = false := decide_eq_false (by omega)
    simpa [Int.toString_eq_repr, Int.repr, Nat.repr, hsign] using hread m false
  | negSucc m => simpa [Int.toString_eq_repr, Int.repr, Nat.repr] using hread (m + 1) true

def ofInt (n : Int) : Decimal :=
  ⟨toString n ++ ".0", ⟨n < 0, n.natAbs * 10, -1⟩, read_int n⟩

end Decimal

inductive Literal where
  | integer (value : Int)
  | decimal (value : Decimal)
  deriving DecidableEq

namespace Literal

def type : Literal → DataType
  | integer _ => .integer
  | decimal _ => .float

def text : Literal → String
  | integer n => toString n
  | decimal d => d.text

def exact : Literal → Scientific
  | integer n => .ofInt n
  | decimal d => d.exact

def widen : Literal → Literal
  | integer n => decimal (.ofInt n)
  | decimal d => decimal d

end Literal

end AddingCalculator
