import Mathlib
import AddingCalculator.Machine
import AddingCalculator.Proofs.Decoration

namespace AddingCalculator

def isNumeric (c : Char) : Bool :=
  c.isDigit || c = '+' || c = '-' || c = '.' || c = 'e' || c = 'E'

theorem isBlank_of_visible {c : Char} (h : 32 < c.toNat) (h' : c.toNat < 127) : isBlank c = false := by
  simp only [isBlank, blankRanges, List.any_cons, List.any_nil, Bool.or_false, Bool.or_eq_false_iff,
    Bool.and_eq_false_iff, decide_eq_false_iff_not]
  omega

theorem toNat_of_isDigit {c : Char} (h : c.isDigit = true) : 48 ≤ c.toNat ∧ c.toNat ≤ 57 := by
  simp only [Char.isDigit, ge_iff_le, Bool.and_eq_true, decide_eq_true_eq, UInt32.le_iff_toNat_le] at h
  exact h

theorem toNat_of_isVariable {c : Char} (h : isVariable c = true) : 97 ≤ c.toNat ∧ c.toNat ≤ 122 := by
  simp only [isVariable, Char.isLower, Bool.and_eq_true, decide_eq_true_eq, ge_iff_le, UInt32.le_iff_toNat_le] at h
  exact h.1.1.1

theorem isBlank_of_isNumeric {c : Char} (h : isNumeric c = true) : isBlank c = false := by
  simp only [isNumeric, Bool.or_eq_true, decide_eq_true_eq] at h
  rcases h with ((((h | rfl) | rfl) | rfl) | rfl) | rfl
  · have := toNat_of_isDigit h
    exact isBlank_of_visible (by omega) (by omega)
  all_goals rfl

theorem isNumeric_of_isDigit {c : Char} (h : c.isDigit = true) : isNumeric c = true := by
  simp [isNumeric, h]

namespace Scientific

theorem exists_sign (cs : List Char) : ∃ sign, cs = sign ++ (takeSign cs).2 ∧ ∀ c ∈ sign, isNumeric c = true := by
  unfold takeSign
  split
  · exact ⟨['+'], rfl, by simp [isNumeric]⟩
  · exact ⟨['-'], rfl, by simp [isNumeric]⟩
  · exact ⟨[], rfl, by simp⟩

theorem isDigit_of_readNatural {cs : List Char} {n : ℕ} (h : readNatural? cs = some n) : ∀ c ∈ cs, c.isDigit = true := by
  unfold readNatural? at h
  split at h
  · cases h
  · rename_i hdigits
    simp only [Bool.or_eq_true, Bool.not_eq_true', not_or, Bool.not_eq_false, List.all_eq_true] at hdigits
    exact hdigits.2

theorem isNumeric_of_readNatural {cs : List Char} {n : ℕ} (h : readNatural? cs = some n) :
    ∀ c ∈ cs, isNumeric c = true :=
  fun c hc => isNumeric_of_isDigit (isDigit_of_readNatural h c hc)

theorem isNumeric_of_readExponent {cs : List Char} {e : ℤ} (h : readExponent? cs = some e) :
    ∀ c ∈ cs, isNumeric c = true := by
  cases cs with
  | nil => simp
  | cons c cs =>
    rw [readExponent?] at h
    split at h
    · rename_i hc
      obtain ⟨z, hz, -⟩ := Option.map_eq_some_iff.mp h
      obtain ⟨n, hn, -⟩ := Option.bind_eq_some_iff.mp hz
      obtain ⟨sign, hcs, hsign⟩ := exists_sign cs
      have hletter : isNumeric c = true := by rcases hc with rfl | rfl <;> rfl
      intro d hd
      rcases List.mem_cons.mp hd with rfl | hd
      · exact hletter
      · rw [hcs] at hd
        rcases List.mem_append.mp hd with hd | hd
        · exact hsign d hd
        · exact isNumeric_of_readNatural hn d hd
    · cases h

theorem isNumeric_of_readUnsigned {negative : Bool} {cs : List Char} {x : Scientific}
    (h : readUnsigned? negative cs = some x) : cs ≠ [] ∧ ∀ c ∈ cs, isNumeric c = true := by
  have hdigit (ds : List Char) : ∀ c ∈ ds.takeWhile Char.isDigit, isNumeric c = true :=
    fun c hc => isNumeric_of_isDigit (List.mem_takeWhile_imp hc)
  refine ⟨?_, ?_⟩
  · rintro rfl
    cases h
  · unfold readUnsigned? at h
    dsimp only at h
    split at h
    · cases h
    · obtain ⟨e, he, -⟩ := Option.map_eq_some_iff.mp h
      have hexponent := isNumeric_of_readExponent he
      have hfraction : ∀ c ∈ cs.dropWhile Char.isDigit, isNumeric c = true := by
        unfold takeFraction at hexponent
        split at hexponent
        · rename_i ds hds
          rw [hds]
          intro c hc
          rcases List.mem_cons.mp hc with rfl | hc
          · rfl
          · rw [← List.takeWhile_append_dropWhile (p := Char.isDigit) (l := ds)] at hc
            rcases List.mem_append.mp hc with hc | hc
            · exact hdigit ds c hc
            · exact hexponent c hc
        · exact hexponent
      intro c hc
      rw [← List.takeWhile_append_dropWhile (p := Char.isDigit) (l := cs)] at hc
      rcases List.mem_append.mp hc with hc | hc
      · exact hdigit cs c hc
      · exact hfraction c hc

end Scientific

namespace Numeral

theorem readUnsigned_of_read {cs : List Char} {x : Scientific} (h : read? cs = some (.finite x)) :
    Scientific.readUnsigned? (Scientific.takeSign cs).1 (Scientific.takeSign cs).2 = some x := by
  unfold read? at h
  dsimp only at h
  split_ifs at h
  · cases h
  · cases h
  · obtain ⟨y, hy, hxy⟩ := Option.map_eq_some_iff.mp h
    cases hxy
    exact hy

theorem isNumeric_of_read {cs : List Char} {x : Scientific} (h : read? cs = some (.finite x)) :
    cs ≠ [] ∧ ∀ c ∈ cs, isNumeric c = true := by
  obtain ⟨hne, hrest⟩ := Scientific.isNumeric_of_readUnsigned (readUnsigned_of_read h)
  obtain ⟨sign, hcs, hsign⟩ := Scientific.exists_sign cs
  constructor
  · rintro rfl
    exact hne rfl
  · intro c hc
    rw [hcs] at hc
    rcases List.mem_append.mp hc with hc | hc
    · exact hsign c hc
    · exact hrest c hc

end Numeral

theorem words_of_solid {cs : List Char} (hne : cs ≠ []) (h : ∀ c ∈ cs, isBlank c = false) : words cs = [cs] := by
  simp [words, List.splitOnP_eq_singleton h, hne]

theorem words_append (cs ds : List Char) {c : Char} (hc : isBlank c = true) :
    words (cs ++ c :: ds) = words cs ++ words ds := by
  rw [words, List.splitOnP_append_cons cs ds hc, List.filter_append, ← words, ← words]

theorem words_numeral {cs : List Char} {x : Scientific} (h : Numeral.read? cs = some (.finite x)) : words cs = [cs] := by
  obtain ⟨hne, hnumeric⟩ := Numeral.isNumeric_of_read h
  exact words_of_solid hne fun c hc => isBlank_of_isNumeric (hnumeric c hc)

theorem Command.ofWord?_numeral {α : Type} [Arithmetic α] {cs : List Char} {x : Scientific}
    (h : Numeral.read? cs = some (.finite x)) :
    (ofWord? cs : Option (Command α)) = some (.push (Arithmetic.ofScientific x)) := by
  have hnumeric := (Numeral.isNumeric_of_read h).2
  have hsign (c : Char) (hc : Numeral.read? [c] = none) : cs ≠ [c] := by
    rintro rfl
    rw [hc] at h
    cases h
  have hletter (c : Char) (hc : isNumeric c = false) : c ∉ cs := fun hmem => by
    rw [hnumeric c hmem] at hc
    cases hc
  unfold ofWord?
  split
  · exact absurd rfl (hsign '+' (by decide))
  · exact absurd rfl (hsign '-' (by decide))
  · exact absurd (by simp) (hletter 'p' (by decide))
  · exact absurd (by simp) (hletter 'k' (by decide))
  · exact absurd (by simp) (hletter 's' (by decide))
  · exact absurd (by simp) (hletter 'l' (by decide))
  · rw [h]
    rfl

theorem Scientific.readUnsigned?_digits (negative : Bool) {ds : List Char} (hne : ds ≠ [])
    (hd : ∀ c ∈ ds, c.isDigit = true) : readUnsigned? negative ds = some ⟨negative, digitsValue ds, 0⟩ := by
  have htake : ds.takeWhile Char.isDigit = ds := by simpa using @List.takeWhile_append_of_pos _ _ ds [] hd
  have hdrop : ds.dropWhile Char.isDigit = [] := by simpa using @List.dropWhile_append_of_pos _ _ ds [] hd
  simp [readUnsigned?, htake, hdrop, takeFraction, readExponent?, hne]

theorem Numeral.read?_digits (negative : Bool) {ds : List Char} (hne : ds ≠ []) (hd : ∀ c ∈ ds, c.isDigit = true) :
    read? ((if negative then ['-'] else []) ++ ds) = some (finite ⟨negative, digitsValue ds, 0⟩) := by
  obtain ⟨c, cs, rfl⟩ := List.exists_cons_of_ne_nil hne
  have hc := toNat_of_isDigit (hd c (by simp))
  have hlower : c.toLower = c := by
    have hupper : ¬ (65 ≤ c.toNat ∧ c.toNat ≤ 90) := by omega
    rw [Char.toLower, dif_neg]
    exact hupper
  have hsign : Scientific.takeSign ((if negative then ['-'] else []) ++ c :: cs) = (negative, c :: cs) := by
    have hplus : c ≠ '+' := by rintro rfl; exact absurd hc.1 (by decide)
    have hminus : c ≠ '-' := by rintro rfl; exact absurd hc.1 (by decide)
    cases negative <;> simp [Scientific.takeSign, hplus, hminus]
  have hword (word : List Char) (h : ∀ d ∈ word, 57 < d.toNat) : (c :: cs).map Char.toLower ≠ word := by
    rintro rfl
    have := h c.toLower (by simp)
    rw [hlower] at this
    omega
  simp only [read?, hsign]
  rw [if_neg (not_or.mpr ⟨hword _ (by simp), hword _ (by simp)⟩), if_neg (hword _ (by simp)),
    Scientific.readUnsigned?_digits negative hne hd, Option.map_some]

theorem Numeral.read?_int (n : ℤ) : read? (toString n).toList = some (.finite (.ofInt n)) := by
  have hread (m : ℕ) (negative : Bool) :
      read? ((if negative then ['-'] else []) ++ Nat.toDigits 10 m) = some (.finite ⟨negative, m, 0⟩) := by
    rw [read?_digits negative Nat.toDigits_ne_nil fun c hc => Nat.isDigit_of_mem_toDigits (by decide) (by decide) hc,
      digitsValue, Nat.ofDigitChars_toDigits (by decide) (by decide)]
  cases n with
  | ofNat m =>
    have hsign : decide ((m : ℤ) < 0) = false := decide_eq_false (by omega)
    simpa [Int.toString_eq_repr, Int.repr, Nat.repr, Scientific.ofInt, hsign] using hread m false
  | negSucc m => simpa [Int.toString_eq_repr, Int.repr, Nat.repr, Scientific.ofInt] using hread (m + 1) true

theorem roundQuotient_mul (num den : ℕ) {k : ℕ} (hk : 0 < k) : roundQuotient (num * k) (den * k) = roundQuotient num den := by
  have hfloor : num * k / (den * k) = num / den := Nat.mul_div_mul_right num den hk
  have hrest : 2 * (num * k % (den * k)) = 2 * (num % den) * k := by rw [Nat.mul_mod_mul_right, Nat.mul_assoc]
  simp only [roundQuotient, hfloor, hrest, Nat.mul_lt_mul_right hk]

namespace Binary64

theorem magnitudePattern_mul (num den : ℕ) {k : ℕ} (hk : 0 < k) :
    magnitudePattern (num * k) (den * k) = magnitudePattern num den := by
  have hshift (n place : ℕ) : (n * k) <<< place = (n <<< place) * k := by
    rw [Nat.shiftLeft_eq, Nat.shiftLeft_eq, Nat.mul_right_comm]
  simp only [magnitudePattern, hshift, Nat.mul_div_mul_right _ _ hk, roundQuotient_mul _ _ hk]

theorem scientificPattern_tenth (digits : ℕ) : scientificPattern (digits * 10) (-1) = scientificPattern digits 0 := by
  have htenth : scientificPattern (digits * 10) (-1) =
      if digits * 10 = 0 then 0 else if (digits * 10).log2 + 400 < 0 then 0
      else magnitudePattern (digits * 10) (1 * 10) := rfl
  have hwhole : scientificPattern digits 0 =
      if digits = 0 then 0 else if 400 < 0 then infinityPattern else magnitudePattern (digits * 1) 1 := rfl
  rw [htenth, hwhole, magnitudePattern_mul _ _ (by decide), Nat.mul_one]
  by_cases h : digits = 0 <;> simp [h]

instance : LawfulArithmetic Binary64 where
  ofScientific_tenth negative digits := congrArg (ofPattern negative) (scientificPattern_tenth digits)

end Binary64

end AddingCalculator
