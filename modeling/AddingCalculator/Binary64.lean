import AddingCalculator.Numeral

/-!
# Double precision numbers

A `Binary64` is the bit pattern of an IEEE 754 double. A written number becomes the nearest double, and of two
equally near the one with an even last bit.
-/

namespace AddingCalculator

structure Binary64 where
  bits : UInt64
  deriving DecidableEq

def roundQuotient (num den : Nat) : Nat :=
  let floor := num / den
  let rest := num % den
  if 2 * rest < den then floor
  else if den < 2 * rest then floor + 1
  else floor + floor % 2

namespace Binary64

def infinityPattern : Nat := 2047 <<< 52

/-- The bit pattern of the double nearest to `num / den`.

The number is measured in units of `2 ^ -1074`, the least positive double. Its last place, counted from there,
leaves fifty-three binary digits, or fewer next to zero, and a carry out of these digits moves to the next exponent
by itself. -/
def magnitudePattern (num den : Nat) : Nat :=
  let units := num <<< 1074
  let place := (units / den).log2 - 52
  min infinityPattern ((place <<< 52) + roundQuotient units (den <<< place))

def scientificPattern (digits : Nat) (exponent : Int) : Nat :=
  if digits = 0 then 0
  -- An exponent too large or too small for its digits decides the result without the power of ten.
  else match exponent with
    | .ofNat e => if 400 < e then infinityPattern else magnitudePattern (digits * Nat.pow 10 e) 1
    | .negSucc e => if digits.log2 + 400 < e then 0 else magnitudePattern digits (Nat.pow 10 (e + 1))

def ofPattern (negative : Bool) (magnitude : Nat) : Binary64 :=
  ⟨.ofNat (if negative then (1 <<< 63) + magnitude else magnitude)⟩

def nearest (x : Scientific) : Binary64 :=
  ofPattern x.negative (scientificPattern x.digits x.exponent)

def nan : Binary64 := ofPattern false (4095 <<< 51)

def ofNumeral : Numeral → Binary64
  | .finite x => nearest x
  | .infinity negative => ofPattern negative infinityPattern
  | .nan => nan

def magnitude (x : Binary64) : Nat :=
  x.bits.toNat % (1 <<< 63)

def isFinite (x : Binary64) : Bool :=
  x.magnitude < infinityPattern

def isNaN (x : Binary64) : Bool :=
  infinityPattern < x.magnitude

def add (x y : Binary64) : Binary64 :=
  ⟨(Float.ofBits x.bits + Float.ofBits y.bits).toBits⟩

def sub (x y : Binary64) : Binary64 :=
  ⟨(Float.ofBits x.bits - Float.ofBits y.bits).toBits⟩

end Binary64

end AddingCalculator
