import AddingCalculator.Proofs.ExactArithmetic

/-!
# The range of doubles

The double nearest to a number is finite exactly if the number lies below the middle between the greatest double and
the power of two behind it. The middle itself goes to the even neighbour, which is no double.
-/

namespace AddingCalculator

theorem roundQuotient_cases (num den : ℕ) :
    roundQuotient num den = num / den ∧ 2 * (num % den) ≤ den ∨
      roundQuotient num den = num / den + 1 ∧ den ≤ 2 * (num % den) := by
  unfold roundQuotient
  dsimp only
  split_ifs <;> omega

theorem roundQuotient_le {num den m : ℕ} (h : num < m * den) : roundQuotient num den ≤ m := by
  have hfloor : num / den < m := Nat.div_lt_of_lt_mul (by rwa [Nat.mul_comm])
  have := roundQuotient_cases num den
  omega

theorem le_roundQuotient {num den m : ℕ} (hden : 0 < den) (h : m * den ≤ num) : m ≤ roundQuotient num den := by
  have hfloor : m ≤ num / den := (Nat.le_div_iff_mul_le hden).mpr h
  have := roundQuotient_cases num den
  omega

theorem roundQuotient_lt_iff (num : ℕ) {den m : ℕ} (hden : 0 < den) (hm : m % 2 = 0) :
    roundQuotient num den < m ↔ 2 * num + den < 2 * (m * den) := by
  have hdiv := Nat.div_add_mod num den
  have hmod := Nat.mod_lt num hden
  have hcases := roundQuotient_cases num den
  rw [Nat.mul_comm] at hdiv
  by_cases hlow : num / den + 2 ≤ m
  · have hmul := Nat.mul_le_mul_right den hlow
    rw [Nat.add_mul] at hmul
    omega
  · by_cases hhigh : m ≤ num / den
    · have hmul := Nat.mul_le_mul_right den hhigh
      omega
    · obtain rfl : m = num / den + 1 := by omega
      rw [Nat.add_mul, Nat.one_mul]
      unfold roundQuotient
      dsimp only
      split_ifs <;> omega

namespace Binary64

theorem units_bounds (units : ℕ) {den : ℕ} (hden : 0 < den) :
    units < 2 ^ 53 * (den * 2 ^ ((units / den).log2 - 52)) ∧
      (0 < (units / den).log2 - 52 → 2 ^ 52 * (den * 2 ^ ((units / den).log2 - 52)) ≤ units) := by
  constructor
  · have hpow : 2 ^ ((units / den).log2 + 1) ≤ 2 ^ (53 + ((units / den).log2 - 52)) :=
      Nat.pow_le_pow_right (by decide) (by omega)
    have hfloor : units / den < 2 ^ (53 + ((units / den).log2 - 52)) := Nat.lt_log2_self.trans_le hpow
    have hmul := (Nat.div_lt_iff_lt_mul hden).mp hfloor
    rwa [Nat.pow_add, Nat.mul_assoc, Nat.mul_comm _ den] at hmul
  · intro hplace
    have hne : units / den ≠ 0 := by
      intro hzero
      rw [hzero] at hplace
      exact absurd hplace (by decide)
    have hexp : 52 + ((units / den).log2 - 52) = (units / den).log2 := by omega
    have hfloor : 2 ^ (52 + ((units / den).log2 - 52)) ≤ units / den := by
      rw [hexp]
      exact Nat.log2_self_le hne
    have hmul := (Nat.le_div_iff_mul_le hden).mp hfloor
    rwa [Nat.pow_add, Nat.mul_assoc, Nat.mul_comm _ den] at hmul

theorem rounded_lt_iff (units : ℕ) {den : ℕ} (hden : 0 < den) :
    (((units / den).log2 - 52) <<< 52) + roundQuotient units (den <<< ((units / den).log2 - 52)) < infinityPattern ↔
      2 * units + den * 2 ^ 2045 < 2 * (2 ^ 53 * (den * 2 ^ 2045)) := by
  obtain ⟨hlt, hle⟩ := units_bounds units hden
  generalize (units / den).log2 - 52 = place at *
  simp only [infinityPattern, Nat.shiftLeft_eq]
  have hpos (k : ℕ) : 0 < den * 2 ^ k := Nat.mul_pos hden (Nat.two_pow_pos k)
  have hmono {j k : ℕ} (h : j ≤ k) : den * 2 ^ j ≤ den * 2 ^ k :=
    Nat.mul_le_mul_left den (Nat.pow_le_pow_right (by decide) h)
  have hdouble (k : ℕ) : den * 2 ^ (k + 1) = 2 * (den * 2 ^ k) := by
    rw [Nat.pow_succ, Nat.mul_comm (2 ^ k), Nat.mul_left_comm]
  have hgreatest := hdouble 2044
  have hbehind := hdouble 2045
  -- Below the last place of the greatest double every quotient is rounded to a double, and above it none is.
  rcases lt_trichotomy place 2045 with hplace | rfl | hplace
  · have hround := roundQuotient_le hlt
    have hunits := hmono (j := place) (k := 2044) (by omega)
    omega
  · have hround := roundQuotient_lt_iff units (m := 2 ^ 53) (hpos 2045) (by decide)
    rw [← hround]
    omega
  · have hround := le_roundQuotient (hpos place) (hle (by omega))
    have hunits := hmono (j := 2046) (k := place) (by omega)
    have := hle (by omega)
    omega

theorem magnitudePattern_le (num den : ℕ) : magnitudePattern num den ≤ infinityPattern :=
  Nat.min_le_left _ _

theorem magnitudePattern_lt_iff (num : ℕ) {den : ℕ} (hden : 0 < den) :
    magnitudePattern num den < infinityPattern ↔ num + den * 2 ^ 970 < den * 2 ^ 1024 := by
  have hpattern : magnitudePattern num den < infinityPattern ↔
      ((((num <<< 1074) / den).log2 - 52) <<< 52) +
        roundQuotient (num <<< 1074) (den <<< (((num <<< 1074) / den).log2 - 52)) < infinityPattern := by
    unfold magnitudePattern
    dsimp only
    rw [min_lt_iff]
    exact ⟨fun h => h.resolve_left (lt_irrefl _), Or.inr⟩
  rw [hpattern, rounded_lt_iff _ hden, Nat.shiftLeft_eq]
  clear hpattern
  have hm : 2045 = 970 + (1074 + 1) := rfl
  have hn : 1024 = 54 + 970 := rfl
  generalize 1074 = j at *
  generalize 970 = k at *
  generalize 2045 = m at *
  generalize 1024 = n at *
  have hleft : 2 * (num * 2 ^ j) + den * 2 ^ m = (num + den * 2 ^ k) * 2 ^ (j + 1) := by
    rw [hm, Nat.pow_add _ k, Nat.pow_succ]
    ring
  have hright : 2 * (2 ^ 53 * (den * 2 ^ m)) = den * 2 ^ n * 2 ^ (j + 1) := by
    rw [hm, hn, Nat.pow_add, Nat.pow_add]
    ring
  rw [hleft, hright, Nat.mul_lt_mul_right (Nat.two_pow_pos (j + 1))]

theorem isFinite_ofPattern (negative : Bool) {pattern : ℕ} (h : pattern ≤ infinityPattern) :
    (ofPattern negative pattern).isFinite = true ↔ pattern < infinityPattern := by
  have hinfinity : infinityPattern < 1 <<< 63 := by decide
  have hmagnitude : (ofPattern negative pattern).magnitude = pattern := by
    simp only [magnitude, ofPattern, UInt64.toNat_ofNat']
    cases negative <;> simp <;> omega
  rw [isFinite, hmagnitude, decide_eq_true_eq]

theorem scientificPattern_le (digits : ℕ) (exponent : ℤ) : scientificPattern digits exponent ≤ infinityPattern := by
  unfold scientificPattern
  split_ifs
  · exact Nat.zero_le _
  · split
    · split_ifs
      · exact le_refl _
      · exact magnitudePattern_le _ _
    · split_ifs
      · exact Nat.zero_le _
      · exact magnitudePattern_le _ _

theorem magnitudePattern_lt_iff_div (num : ℕ) {den : ℕ} (hden : 0 < den) :
    magnitudePattern num den < infinityPattern ↔ (num : ℚ) / den < 2 ^ 1024 - 2 ^ 970 := by
  rw [magnitudePattern_lt_iff num hden, div_lt_iff₀ (by positivity), sub_mul, lt_sub_iff_add_lt]
  generalize 1024 = j
  generalize 970 = k
  rw [mul_comm _ (den : ℚ), mul_comm _ (den : ℚ)]
  exact_mod_cast Iff.rfl

theorem pow_le_pow_sub_pow {j k : ℕ} (h : k < j) : (2 : ℚ) ^ k ≤ 2 ^ j - 2 ^ k := by
  have hdouble : (2 : ℚ) ^ k * 2 ≤ 2 ^ j := by
    rw [← pow_succ]
    exact pow_le_pow_right₀ (by norm_num) h
  linarith

theorem two_pow_le_ten_pow {e : ℕ} (h : 400 < e) : (2 : ℚ) ^ 1024 ≤ 10 ^ e := by
  calc (2 : ℚ) ^ 1024 ≤ 2 ^ (3 * e) := pow_le_pow_right₀ (by norm_num) (by omega)
    _ = 8 ^ e := by rw [pow_mul]; norm_num
    _ ≤ 10 ^ e := pow_le_pow_left₀ (by norm_num) (by norm_num) e

theorem lt_ten_pow {digits e : ℕ} (h : digits.log2 + 400 < e) : digits < 10 ^ (e + 1) := by
  calc digits < 2 ^ (digits.log2 + 1) := Nat.lt_log2_self
    _ ≤ 2 ^ (e + 1) := Nat.pow_le_pow_right (by decide) (by omega)
    _ ≤ 10 ^ (e + 1) := Nat.pow_le_pow_left (by decide) (e + 1)

theorem scientificPattern_lt_iff (digits : ℕ) (exponent : ℤ) :
    scientificPattern digits exponent < infinityPattern ↔ (digits : ℚ) * 10 ^ exponent < 2 ^ 1024 - 2 ^ 970 := by
  have hend : (1 : ℚ) ≤ 2 ^ 1024 - 2 ^ 970 := (one_le_pow₀ (by norm_num)).trans (pow_le_pow_sub_pow (by decide))
  have hbehind : (2 : ℚ) ^ 1024 - 2 ^ 970 < 2 ^ 1024 := sub_lt_self _ (pow_pos (by norm_num) _)
  unfold scientificPattern
  by_cases hzero : digits = 0
  · rw [if_pos hzero, hzero, Nat.cast_zero, zero_mul]
    exact iff_of_true (by decide) (zero_lt_one.trans_le hend)
  rw [if_neg hzero]
  cases exponent with
  | ofNat e =>
    rw [Int.ofNat_eq_natCast, zpow_natCast]
    dsimp only
    by_cases he : 400 < e
    · have hdigits : (1 : ℚ) ≤ digits := by exact_mod_cast Nat.pos_of_ne_zero hzero
      have hlarge : (2 : ℚ) ^ 1024 ≤ digits * 10 ^ e :=
        (two_pow_le_ten_pow he).trans (le_mul_of_one_le_left (by positivity) hdigits)
      rw [if_pos he]
      exact iff_of_false (lt_irrefl _) (not_lt.mpr (hbehind.le.trans hlarge))
    · have hvalue : (digits : ℚ) * 10 ^ e = ((digits * 10 ^ e : ℕ) : ℚ) / (1 : ℕ) := by
        push_cast
        rw [div_one]
      rw [if_neg he, hvalue]
      exact magnitudePattern_lt_iff_div _ Nat.one_pos
  | negSucc e =>
    have hvalue : (digits : ℚ) * 10 ^ Int.negSucc e = (digits : ℚ) / (10 ^ (e + 1) : ℕ) := by
      rw [zpow_negSucc, div_eq_mul_inv]
      push_cast
      rfl
    rw [hvalue]
    dsimp only
    by_cases he : digits.log2 + 400 < e
    · have hsmall : (digits : ℚ) / (10 ^ (e + 1) : ℕ) < 1 := by
        rw [div_lt_one (by positivity)]
        exact_mod_cast lt_ten_pow he
      rw [if_pos he]
      exact iff_of_true (by decide) (hsmall.trans_le hend)
    · rw [if_neg he]
      exact magnitudePattern_lt_iff_div digits (Nat.pow_pos (by decide))

theorem isFinite_nearest (x : Scientific) : (nearest x).isFinite = true ↔ |x.value| < 2 ^ 1024 - 2 ^ 970 := by
  have hvalue : |x.value| = x.digits * 10 ^ x.exponent := by
    have hpos : (0 : ℚ) ≤ x.digits * 10 ^ x.exponent := by positivity
    rw [Scientific.value, mul_assoc, abs_mul, abs_of_nonneg hpos]
    cases x.negative <;> simp
  rw [nearest, isFinite_ofPattern _ (scientificPattern_le _ _), scientificPattern_lt_iff, hvalue]

end Binary64

namespace Decimal

theorem eq_of_text {d d' : Decimal} (h : d.text = d'.text) : d = d' := by
  have hread := d.read
  have hread' := d'.read
  rw [h, hread'] at hread
  rcases d with ⟨text, x, read⟩
  rcases d' with ⟨text', x', read'⟩
  cases h
  cases hread
  rfl

theorem read?_of_numeral {cs : List Char} {x : Scientific} (hcs : Numeral.read? cs ≠ none)
    (hx : Numeral.read? (spelling cs).toList = some (.finite x)) :
    read? cs = if (Binary64.nearest x).isFinite then some ⟨spelling cs, x, hx⟩ else none := by
  unfold read?
  rw [if_neg (by simpa [Option.isNone_iff_eq_none] using hcs)]
  split
  · rename_i y hy
    obtain rfl : x = y := by
      rw [hx] at hy
      cases hy
      rfl
    rfl
  · rename_i hy
    exact absurd hx (hy x)

theorem read?_eq_none_iff {whole fraction : List Char} (hne : whole ≠ []) (hw : ∀ c ∈ whole, c.isDigit = true)
    (hf : ∀ c ∈ fraction, c.isDigit = true) :
    read? (whole ++ '.' :: fraction) = none ↔ 2 ^ 1024 - 2 ^ 970 ≤ writtenValue (whole ++ '.' :: fraction) := by
  obtain ⟨x, hx, hvalue⟩ := exists_exact hne hw hf
  have hcs : Numeral.read? (whole ++ '.' :: fraction) ≠ none := by
    have hread := Numeral.read?_point false hne hw hf
    rw [if_neg Bool.false_ne_true, List.nil_append] at hread
    rw [hread]
    exact Option.some_ne_none _
  have hpos : 0 ≤ writtenValue (whole ++ '.' :: fraction) := by
    rw [writtenValue_point hw]
    positivity
  have hfinite := Binary64.isFinite_nearest x
  rw [hvalue, abs_of_nonneg hpos] at hfinite
  rw [read?_of_numeral hcs hx, ← not_lt, ← hfinite]
  simp

end Decimal

end AddingCalculator
