import AddingCalculator.Proofs.DoubleRange

/-!
# Decimals and their spelling

A decimal is kept under the text from which it was read, with a zero behind a final point. The zero changes neither
whether a text is read nor the double of its value, so a decimal can be read again from the text that is kept. An
integer written with a point and a zero has the double of the integer.
-/

namespace AddingCalculator

namespace Scientific

theorem takeSign_append_point (cs ds : List Char) :
    takeSign (cs ++ '.' :: ds) = ((takeSign cs).1, (takeSign cs).2 ++ '.' :: ds) := by
  cases cs with
  | nil => rfl
  | cons c cs =>
    by_cases hplus : c = '+'
    · subst hplus
      rfl
    by_cases hminus : c = '-'
    · subst hminus
      rfl
    simp [takeSign, hplus, hminus]

theorem point_notMem_of_readExponent {cs : List Char} {e : ℤ} (h : readExponent? cs = some e) : '.' ∉ cs := by
  cases cs with
  | nil => exact List.not_mem_nil
  | cons c cs =>
    rw [readExponent?] at h
    split at h
    · rename_i hc
      obtain ⟨z, hz, -⟩ := Option.map_eq_some_iff.mp h
      obtain ⟨n, hn, -⟩ := Option.bind_eq_some_iff.mp hz
      have hsign : '.' ∈ cs → '.' ∈ (takeSign cs).2 := by
        unfold takeSign
        split <;> simp
      have hdigits : '.' ∉ (takeSign cs).2 := fun hmem => absurd (isDigit_of_readNatural hn '.' hmem) (by decide)
      have hletter : '.' ≠ c := by rcases hc with rfl | rfl <;> decide
      simpa [hletter] using mt hsign hdigits
    · cases h

theorem point_mem_takeFraction (c : Char) {cs : List Char} (h : '.' ∈ cs) : '.' ∈ (takeFraction (c :: cs)).2 := by
  by_cases hc : c = '.'
  · rw [hc, takeFraction]
    rw [← List.takeWhile_append_dropWhile (p := Char.isDigit) (l := cs)] at h
    refine (List.mem_append.mp h).resolve_left fun hmem => ?_
    exact absurd (List.mem_takeWhile_imp hmem) (by decide)
  · simp [takeFraction, hc, h]

theorem digits_of_final_point {negative : Bool} {ds : List Char} {x : Scientific}
    (h : readUnsigned? negative (ds ++ ['.']) = some x) : ds ≠ [] ∧ ∀ c ∈ ds, c.isDigit = true := by
  refine ⟨?_, ?_⟩
  · rintro rfl
    cases h
  · by_contra hdigits
    have hrest : ds.dropWhile Char.isDigit ≠ [] := fun hnil => hdigits (by simpa using List.dropWhile_eq_nil_iff.mp hnil)
    obtain ⟨c, cs, hcs⟩ := List.exists_cons_of_ne_nil hrest
    have hdrop : (ds ++ ['.']).dropWhile Char.isDigit = c :: (cs ++ ['.']) := by
      simp [List.dropWhile_append, hcs]
    unfold readUnsigned? at h
    dsimp only at h
    rw [hdrop] at h
    split at h
    · cases h
    · obtain ⟨e, he, -⟩ := Option.map_eq_some_iff.mp h
      exact point_notMem_of_readExponent he (point_mem_takeFraction c (by simp))

end Scientific

theorem digitsValue_append_zero (ds : List Char) : digitsValue (ds ++ ['0']) = digitsValue ds * 10 := by
  rw [digitsValue, Nat.ofDigitChars_append, ← digitsValue]
  simp [Nat.ofDigitChars, Nat.mul_comm]

theorem Numeral.read?_final_point {ds : List Char} {x : Numeral} (h : read? (ds ++ ['.']) = some x) :
    ∃ negative n, x = .finite ⟨negative, n, 0⟩ ∧ read? (ds ++ ['.', '0']) = some (.finite ⟨negative, n * 10, -1⟩) := by
  have hsign := Scientific.takeSign_append_point ds
  generalize (Scientific.takeSign ds).1 = negative at hsign
  generalize (Scientific.takeSign ds).2 = whole at hsign
  have hword (word : List Char) (h : '.' ∉ word) : (whole ++ ['.']).map Char.toLower ≠ word := by
    rintro rfl
    exact h (List.mem_map.mpr ⟨'.', by simp, rfl⟩)
  have hread := h
  simp only [read?, hsign] at hread
  rw [if_neg (not_or.mpr ⟨hword _ (by decide), hword _ (by decide)⟩), if_neg (hword _ (by decide))] at hread
  obtain ⟨y, hy, -⟩ := Option.map_eq_some_iff.mp hread
  obtain ⟨hne, hw⟩ := Scientific.digits_of_final_point hy
  have hzero : ∀ c ∈ ['0'], c.isDigit = true := List.forall_mem_singleton.mpr rfl
  -- A zero behind a final point is one more digit and one place less.
  refine ⟨negative, digitsValue whole, ?_, ?_⟩
  · rw [read?_of_takeSign (hsign []) hne hw (List.forall_mem_nil _)] at h
    cases h
    simp
  · rw [read?_of_takeSign (hsign ['0']) hne hw hzero, digitsValue_append_zero]
    rfl

namespace Decimal

theorem read?_eq_some_iff {cs : List Char} {d : Decimal} :
    read? cs = some d ↔ Numeral.read? cs ≠ none ∧ d.text = spelling cs ∧ d.value.isFinite = true := by
  constructor
  · intro h
    have htext := Token.text_of_read h
    have hcs : Numeral.read? cs ≠ none := by
      intro hnone
      rw [read?, hnone] at h
      cases h
    have hread : Numeral.read? (spelling cs).toList = some (.finite d.exact) := htext ▸ d.read
    rw [read?_of_numeral hcs hread] at h
    refine ⟨hcs, htext, ?_⟩
    by_contra hfinite
    rw [value] at hfinite
    rw [if_neg hfinite] at h
    cases h
  · rintro ⟨hcs, htext, hfinite⟩
    have hread : Numeral.read? (spelling cs).toList = some (.finite d.exact) := htext ▸ d.read
    rw [value] at hfinite
    rw [read?_of_numeral hcs hread, if_pos hfinite]
    exact congrArg some (eq_of_text htext.symm)

theorem spelling_of_final_point (ds : List Char) : (spelling (ds ++ ['.'])).toList = ds ++ ['.', '0'] := by
  rw [spelling, if_pos (by simp), String.toList_ofList, List.append_assoc]
  rfl

theorem spelling_of_ne {cs : List Char} (h : cs.getLast? ≠ some '.') : (spelling cs).toList = cs := by
  rw [spelling, if_neg h, String.toList_ofList]

theorem getLast?_spelling (cs : List Char) : (spelling cs).toList.getLast? ≠ some '.' := by
  by_cases h : cs.getLast? = some '.'
  · obtain ⟨ds, rfl⟩ := List.getLast?_eq_some_iff.mp h
    rw [spelling_of_final_point]
    simp
  · rwa [spelling_of_ne h]

theorem exists_read_spelling {cs : List Char} {x : Numeral} (h : Numeral.read? cs = some x) :
    ∃ y, Numeral.read? (spelling cs).toList = some y ∧ Binary64.ofNumeral y = Binary64.ofNumeral x := by
  by_cases hlast : cs.getLast? = some '.'
  · obtain ⟨ds, rfl⟩ := List.getLast?_eq_some_iff.mp hlast
    obtain ⟨negative, n, rfl, hread⟩ := Numeral.read?_final_point h
    refine ⟨_, by rw [spelling_of_final_point]; exact hread, ?_⟩
    exact congrArg (Binary64.ofPattern negative) (Binary64.scientificPattern_tenth n)
  · exact ⟨x, by rw [spelling_of_ne hlast, h], rfl⟩

theorem parse?_eq_some_iff {text : String} {d : Decimal} :
    parse? text = some d ↔ ∃ x, Numeral.read? text.toList = some x ∧ (Binary64.ofNumeral x).isFinite = true ∧
      d.text = spelling text.toList ∧ d.value = Binary64.ofNumeral x := by
  rw [parse?, read?_eq_some_iff]
  constructor
  · rintro ⟨hread, htext, hfinite⟩
    obtain ⟨x, hx⟩ := Option.ne_none_iff_exists'.mp hread
    obtain ⟨y, hy, hdouble⟩ := exists_read_spelling hx
    rw [← htext, d.read] at hy
    cases hy
    refine ⟨x, hx, ?_, htext, hdouble⟩
    rw [← hdouble]
    exact hfinite
  · rintro ⟨x, hx, hfinite, htext, hvalue⟩
    refine ⟨?_, htext, hvalue ▸ hfinite⟩
    rw [hx]
    exact Option.some_ne_none x

theorem parse?_text {text : String} {d : Decimal} (h : parse? text = some d) : parse? d.text = some d := by
  obtain ⟨-, htext, hfinite⟩ := read?_eq_some_iff.mp h
  refine read?_eq_some_iff.mpr ⟨?_, ?_, hfinite⟩
  · rw [d.read]
    exact Option.some_ne_none _
  · have hlast := getLast?_spelling text.toList
    rw [← htext] at hlast
    rw [← String.toList_inj, spelling_of_ne hlast]

theorem value_ofInt (n : ℤ) : (ofInt n).value = .nearest (.ofInt n) :=
  congrArg (Binary64.ofPattern _) (Binary64.scientificPattern_tenth n.natAbs)

theorem isFinite_ofInt {n : ℤ} (h : -2 ^ 63 ≤ n) (h' : n < 2 ^ 63) : (ofInt n).value.isFinite = true := by
  rw [value_ofInt, Binary64.isFinite_nearest, Scientific.value_ofInt]
  have habs : |n| ≤ 2 ^ 63 := abs_le.mpr ⟨h, h'.le⟩
  have hcast : |(n : ℚ)| ≤ 2 ^ 63 := by exact_mod_cast habs
  calc |(n : ℚ)| ≤ 2 ^ 63 := hcast
    _ < 2 ^ 970 := pow_lt_pow_right₀ (by norm_num) (by decide)
    _ ≤ 2 ^ 1024 - 2 ^ 970 := Binary64.pow_le_pow_sub_pow (by decide)

theorem parse?_ofInt {n : ℤ} (h : -2 ^ 63 ≤ n) (h' : n < 2 ^ 63) : parse? (ofInt n).text = some (ofInt n) := by
  refine read?_eq_some_iff.mpr ⟨?_, ?_, isFinite_ofInt h h'⟩
  · rw [(ofInt n).read]
    exact Option.some_ne_none _
  · have hlast : (ofInt n).text.toList.getLast? ≠ some '.' := by simp [ofInt]
    rw [← String.toList_inj, spelling_of_ne hlast]

theorem double_of_text :
    (∀ (text : String) (d : Decimal), parse? text = some d ↔
      ∃ x, Numeral.read? text.toList = some x ∧ (Binary64.ofNumeral x).isFinite = true ∧
        d.text = (if text.toList.getLast? = some '.' then text ++ "0" else text) ∧ d.value = Binary64.ofNumeral x) ∧
      (∀ (text : String) (d : Decimal), parse? text = some d →
        parse? d.text = some d ∧ d.text.toList.getLast? ≠ some '.') ∧
      ∀ n : ℤ, -2 ^ 63 ≤ n → n < 2 ^ 63 →
        (ofInt n).text = toString n ++ ".0" ∧ parse? (ofInt n).text = some (ofInt n) ∧
          (ofInt n).value = .nearest (.ofInt n) := by
  refine ⟨fun text d => ?_, fun text d h => ⟨parse?_text h, ?_⟩, fun n h h' => ⟨rfl, parse?_ofInt h h', value_ofInt n⟩⟩
  · rw [parse?_eq_some_iff, Token.spelling_eq]
  · rw [(read?_eq_some_iff.mp h).2.1]
    exact getLast?_spelling text.toList

theorem double_of_text_signed : ∃ d, parse? "+8." = some d ∧ d.text = "+8.0" ∧ parse? d.text = some d ∧
    parse? (ofInt (2 ^ 53 + 1)).text = some (ofInt (2 ^ 53 + 1)) ∧
    (ofInt (2 ^ 53 + 1)).value = .nearest (.ofInt (2 ^ 53 + 1)) := by
  have hread : (parse? "+8.").map text = some "+8.0" := by decide +kernel
  obtain ⟨d, hd, htext⟩ := Option.map_eq_some_iff.mp hread
  obtain ⟨-, hagain, hint⟩ := double_of_text
  exact ⟨d, hd, htext, (hagain _ d hd).1, (hint _ (by decide) (by decide)).2⟩

end Decimal

end AddingCalculator
