/-!
# Written numbers

A numeral is a sign, then digits with at most one point and at least one digit, then an exponent if any; or a sign
and one of the words `inf`, `infinity` and `nan` in any case. Reading keeps the exact value and the sign of zero.
-/

namespace AddingCalculator

/-- The number `digits * 10 ^ exponent`, negated if `negative`. -/
structure Scientific where
  negative : Bool
  digits : Nat
  exponent : Int
  deriving DecidableEq

inductive Numeral where
  | finite (value : Scientific)
  | infinity (negative : Bool)
  | nan
  deriving DecidableEq

def digitsValue (digits : List Char) : Nat :=
  Nat.ofDigitChars 10 digits 0

namespace Scientific

def ofInt (n : Int) : Scientific :=
  ⟨n < 0, n.natAbs, 0⟩

def takeSign : List Char → Bool × List Char
  | '+' :: cs => (false, cs)
  | '-' :: cs => (true, cs)
  | cs => (false, cs)

def takeFraction : List Char → List Char × List Char
  | '.' :: cs => (cs.takeWhile Char.isDigit, cs.dropWhile Char.isDigit)
  | cs => ([], cs)

def readNatural? (cs : List Char) : Option Nat :=
  if cs.isEmpty || !cs.all Char.isDigit then none else some (digitsValue cs)

def readExponent? : List Char → Option Int
  | [] => some 0
  | c :: cs =>
    if c = 'e' ∨ c = 'E' then
      let (negative, digits) := takeSign cs
      (readNatural? digits).map fun n => if negative then -(n : Int) else n
    else none

def readUnsigned? (negative : Bool) (cs : List Char) : Option Scientific :=
  let whole := cs.takeWhile Char.isDigit
  let (fraction, rest) := takeFraction (cs.dropWhile Char.isDigit)
  if whole.isEmpty && fraction.isEmpty then none
  else (readExponent? rest).map fun e => ⟨negative, digitsValue (whole ++ fraction), e - fraction.length⟩

end Scientific

namespace Numeral

def read? (cs : List Char) : Option Numeral :=
  let (negative, rest) := Scientific.takeSign cs
  let word := rest.map Char.toLower
  if word = "inf".toList ∨ word = "infinity".toList then some (infinity negative)
  else if word = "nan".toList then some nan
  else (Scientific.readUnsigned? negative rest).map finite

end Numeral

theorem Scientific.readUnsigned?_point (negative : Bool) {whole fraction : List Char} (hne : whole ≠ [])
    (hw : ∀ c ∈ whole, c.isDigit = true) (hf : ∀ c ∈ fraction, c.isDigit = true) :
    readUnsigned? negative (whole ++ '.' :: fraction) =
      some ⟨negative, digitsValue (whole ++ fraction), -(fraction.length : Int)⟩ := by
  have hpoint : ('.' : Char).isDigit = false := rfl
  have hwhole : (whole ++ '.' :: fraction).takeWhile Char.isDigit = whole := by
    rw [List.takeWhile_append_of_pos hw, List.takeWhile_cons, hpoint]
    simp
  have hrest : (whole ++ '.' :: fraction).dropWhile Char.isDigit = '.' :: fraction := by
    rw [List.dropWhile_append_of_pos hw, List.dropWhile_cons, hpoint]
    simp
  have htake : fraction.takeWhile Char.isDigit = fraction := by
    simpa using @List.takeWhile_append_of_pos _ _ fraction [] hf
  have hdrop : fraction.dropWhile Char.isDigit = [] := by
    simpa using @List.dropWhile_append_of_pos _ _ fraction [] hf
  simp [readUnsigned?, hwhole, hrest, takeFraction, htake, hdrop, readExponent?, hne]

theorem Numeral.read?_of_takeSign {negative : Bool} {cs whole fraction : List Char}
    (hsign : Scientific.takeSign cs = (negative, whole ++ '.' :: fraction)) (hne : whole ≠ [])
    (hw : ∀ c ∈ whole, c.isDigit = true) (hf : ∀ c ∈ fraction, c.isDigit = true) :
    read? cs = some (finite ⟨negative, digitsValue (whole ++ fraction), -(fraction.length : Int)⟩) := by
  have hword (word : List Char) (h : '.' ∉ word) : (whole ++ '.' :: fraction).map Char.toLower ≠ word := by
    rintro rfl
    exact h (List.mem_map.mpr ⟨'.', by simp, rfl⟩)
  simp only [read?, hsign]
  rw [if_neg (not_or.mpr ⟨hword _ (by decide), hword _ (by decide)⟩), if_neg (hword _ (by decide)),
    Scientific.readUnsigned?_point negative hne hw hf, Option.map_some]

theorem Numeral.read?_point (negative : Bool) {whole fraction : List Char} (hne : whole ≠ [])
    (hw : ∀ c ∈ whole, c.isDigit = true) (hf : ∀ c ∈ fraction, c.isDigit = true) :
    read? ((if negative then ['-'] else []) ++ (whole ++ '.' :: fraction)) =
      some (finite ⟨negative, digitsValue (whole ++ fraction), -(fraction.length : Int)⟩) := by
  refine read?_of_takeSign ?_ hne hw hf
  obtain ⟨c, cs, rfl⟩ := List.exists_cons_of_ne_nil hne
  have hc : c.isDigit = true := hw c (by simp)
  have hplus : c ≠ '+' := by rintro rfl; exact absurd hc (by decide)
  have hminus : c ≠ '-' := by rintro rfl; exact absurd hc (by decide)
  cases negative <;> simp [Scientific.takeSign, hplus, hminus]

end AddingCalculator
