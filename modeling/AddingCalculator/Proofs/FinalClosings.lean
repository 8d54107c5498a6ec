import AddingCalculator.Proofs.Lexemes

namespace AddingCalculator

def finalMarks (cs : List Char) : ℕ :=
  ((cs.filter fun c => !isBlank c).reverse.takeWhile (· = '$')).length

theorem finalMarks_blank (cs : List Char) {c : Char} (hc : isBlank c = true) : finalMarks (cs ++ [c]) = finalMarks cs := by
  simp [finalMarks, hc]

theorem finalMarks_mark (cs : List Char) : finalMarks (cs ++ ['$']) = finalMarks cs + 1 := by
  have hmark : isBlank '$' = false := rfl
  simp [finalMarks, hmark]

theorem finalMarks_other (cs : List Char) {c : Char} (hblank : isBlank c = false) (hc : c ≠ '$') :
    finalMarks (cs ++ [c]) = 0 := by
  simp [finalMarks, hblank, hc]

namespace Lexeme

theorem exists_taken_of_mem_split {cs : List Char} {l : Lexeme} (h : l ∈ split cs) : ∃ ds rest, Taken ds l rest := by
  fun_induction split cs with
  | case1 => cases h
  | case2 c cs ih =>
    rcases List.mem_cons.mp h with rfl | h
    · exact ⟨_, _, take_taken c cs⟩
    · exact ih h

theorem exists_concat_of_taken {cs rest : List Char} {l : Lexeme} (h : Taken cs l rest) {p : Position} {t : Token}
    (ht : l.token? p = .ok (some t)) (hk : t.kind ≠ .close) :
    ∃ ds d, l.chars = ds ++ [d] ∧ isBlank d = false ∧ d ≠ '$' := by
  have hdigit {d : Char} (hd : d.isDigit = true) : isBlank d = false ∧ d ≠ '$' := by
    refine ⟨isBlank_of_isNumeric (isNumeric_of_isDigit hd), ?_⟩
    rintro rfl
    cases hd
  rcases token?_cases ht with ⟨c, kind, rfl, rfl⟩ | ⟨run, rfl, rfl⟩ | ⟨whole, fraction, d, rfl, -, rfl⟩
  · cases h with
    | mark _ hmark =>
      refine ⟨[], c, rfl, hmark.isSolid.1, ?_⟩
      rintro rfl
      have hkind := Token.markKind?_eq_some_iff.mpr hmark
      exact hk (Option.some.inj hkind).symm
  · cases h with
    | digits hne hd =>
      exact ⟨run.dropLast, run.getLast hne, (List.dropLast_concat_getLast hne).symm, hdigit (hd _ (List.getLast_mem hne))⟩
  · cases h with
    | point _ _ hf =>
      rcases List.eq_nil_or_concat fraction with rfl | ⟨front, d, rfl⟩
      · exact ⟨whole, '.', rfl, rfl, by decide⟩
      · refine ⟨whole ++ '.' :: front, d, ?_, hdigit (hf d (by simp))⟩
        simp [chars]

theorem chars_of_taken_close {cs rest : List Char} {l : Lexeme} (h : Taken cs l rest) {p : Position} {t : Token}
    (ht : l.token? p = .ok (some t)) (hk : t.kind = .close) : l.chars = ['$'] := by
  rcases token?_cases ht with ⟨c, kind, rfl, rfl⟩ | ⟨run, rfl, rfl⟩ | ⟨whole, fraction, d, rfl, -, rfl⟩
  · cases h with
    | mark _ hmark =>
      obtain rfl : kind = .close := hk
      rcases hmark with hmark | ⟨hname, -⟩
      · rw [chars, ← Option.some.inj hmark]
      · cases hname
  · cases hk
  · cases hk

end Lexeme

namespace Token

def finalClosings (ts : List Token) : ℕ :=
  (ts.reverse.takeWhile (·.kind = .close)).length

def ClosedOnce (ts : List Token) : Prop :=
  ∃ us t, ts = us ++ [t] ∧ t.kind = .close ∧ ∀ u ∈ us.getLast?, u.kind ≠ .close

theorem finalClosings_concat (ts : List Token) (t : Token) :
    finalClosings (ts ++ [t]) = if t.kind = .close then finalClosings ts + 1 else 0 := by
  by_cases h : t.kind = .close <;> simp [finalClosings, h]

theorem finalClosings_eq_zero_iff {ts : List Token} :
    finalClosings ts = 0 ↔ ∀ u ∈ ts.getLast?, u.kind ≠ .close := by
  rcases List.eq_nil_or_concat ts with rfl | ⟨us, t, rfl⟩
  · simp [finalClosings]
  · rw [List.concat_eq_append, finalClosings_concat]
    by_cases h : t.kind = .close <;> simp [h]

theorem closedOnce_iff {ts : List Token} : ClosedOnce ts ↔ finalClosings ts = 1 := by
  constructor
  · rintro ⟨us, t, rfl, ht, hus⟩
    rw [finalClosings_concat, if_pos ht, finalClosings_eq_zero_iff.mpr hus]
  · intro h
    rcases List.eq_nil_or_concat ts with rfl | ⟨us, t, rfl⟩
    · cases h
    · rw [List.concat_eq_append] at h ⊢
      rw [finalClosings_concat] at h
      split_ifs at h with ht
      exact ⟨us, t, rfl, ht, finalClosings_eq_zero_iff.mp (Nat.succ.inj h)⟩

theorem finalClosings_closed (p : Position) (ts : List Token) : finalClosings (closed p ts) = max 1 (finalClosings ts) := by
  unfold closed
  rcases List.eq_nil_or_concat ts with rfl | ⟨us, t, rfl⟩
  · rfl
  · rw [List.concat_eq_append, List.getLast?_concat]
    by_cases ht : t.kind = .close
    · rw [if_pos (by simp [ht]), finalClosings_concat, if_pos ht]
      omega
    · have hclosing : (closing (.emptyAt p)).kind = .close := rfl
      rw [if_neg (by simp [ht]), finalClosings_concat (us ++ [t]), if_pos hclosing, finalClosings_concat, if_neg ht]
      rfl

theorem ofLexemes_concat {p : Position} {ls : List Lexeme} {l : Lexeme} {ts : List Token}
    (h : ofLexemes p (ls ++ [l]) = .ok ts) :
    ∃ us t?, ofLexemes p ls = .ok us ∧ l.token? (p.after (ls.flatMap Lexeme.chars)) = .ok t? ∧ ts = us ++ t?.toList := by
  induction ls generalizing p ts with
  | nil =>
    obtain ⟨t?, ht, h⟩ := bind_eq_ok.mp h
    obtain ⟨us, hus, h⟩ := bind_eq_ok.mp h
    cases hus
    cases h
    exact ⟨[], t?, rfl, ht, List.append_nil _⟩
  | cons first ls ih =>
    obtain ⟨first?, hfirst, h⟩ := bind_eq_ok.mp h
    obtain ⟨vs, hvs, h⟩ := bind_eq_ok.mp h
    cases h
    obtain ⟨us, t?, hus, ht, rfl⟩ := ih hvs
    refine ⟨first?.toList ++ us, t?, ?_, ?_, (List.append_assoc ..).symm⟩
    · exact bind_eq_ok.mpr ⟨first?, hfirst, bind_eq_ok.mpr ⟨us, hus, rfl⟩⟩
    · rwa [List.flatMap_cons, Position.after_append]

theorem finalClosings_ofLexemes {p : Position} {ls : List Lexeme} {ts : List Token}
    (hls : ∀ l ∈ ls, ∃ cs rest, Lexeme.Taken cs l rest) (h : ofLexemes p ls = .ok ts) :
    finalClosings ts = finalMarks (ls.flatMap Lexeme.chars) := by
  -- The last lexeme adds to both counts, sets both to zero, or is a blank and changes neither.
  induction ls using List.reverseRecOn generalizing ts with
  | nil =>
    cases h
    rfl
  | append_singleton ls l ih =>
    obtain ⟨us, t?, hus, ht, rfl⟩ := ofLexemes_concat h
    obtain ⟨cs, rest, htaken⟩ := hls l (by simp)
    have hfront := ih (fun l' hl' => hls l' (List.mem_append_left _ hl')) hus
    rw [List.flatMap_append, List.flatMap_singleton]
    cases t? with
    | none =>
      obtain ⟨c, rfl⟩ := exists_blank_of_token? ht
      rw [Lexeme.chars, finalMarks_blank _ htaken.isBlank, Option.toList_none, List.append_nil, hfront]
    | some t =>
      rw [Option.toList_some, finalClosings_concat]
      by_cases hk : t.kind = .close
      · rw [if_pos hk, Lexeme.chars_of_taken_close htaken ht hk, finalMarks_mark, hfront]
      · obtain ⟨ds, d, hd, hblank, hmark⟩ := Lexeme.exists_concat_of_taken htaken ht hk
        rw [if_neg hk, hd, ← List.append_assoc, finalMarks_other _ hblank hmark]

theorem finalClosings_scan {source : String} {ts : List Token} (h : scan source = .ok ts) :
    finalClosings ts = max 1 (finalMarks source.toList) := by
  obtain ⟨us, hus, h⟩ := bind_eq_ok.mp h
  cases h
  have hmarks := finalClosings_ofLexemes (fun l => Lexeme.exists_taken_of_mem_split) hus
  rw [Lexeme.flatMap_chars_split] at hmarks
  rw [finalClosings_closed, hmarks]

/-- The tokens of a text end with as many closing tokens as the text has marks at its end, and with one if it has
none there. They are closed once exactly if it has at most one. -/
theorem scan_closings (source : String) (ts : List Token) (h : scan source = .ok ts) :
    finalClosings ts = max 1 (finalMarks source.toList) ∧ (ClosedOnce ts ↔ finalMarks source.toList ≤ 1) := by
  refine ⟨finalClosings_scan h, ?_⟩
  rw [closedOnce_iff, finalClosings_scan h]
  omega

def doubledSource : String := "i a $ \n$\t"

theorem scan_closings_doubledSource : ∃ ts, scan doubledSource = .ok ts ∧ finalMarks doubledSource.toList = 2 ∧
    finalClosings ts = max 1 (finalMarks doubledSource.toList) ∧
    (ClosedOnce ts ↔ finalMarks doubledSource.toList ≤ 1) := by
  have hscan : (scan doubledSource).toOption.map List.length = some 4 := by decide +kernel
  obtain ⟨ts, hts, -⟩ := exists_of_toOption hscan
  exact ⟨ts, hts, by decide +kernel, scan_closings doubledSource ts hts⟩

theorem not_closedOnce_of_doubled_mark : ¬ ∀ source ts, scan source = .ok ts → ClosedOnce ts := by
  intro hall
  have hscan : (scan "$$").toOption.map finalClosings = some 2 := by decide +kernel
  obtain ⟨ts, hts, hclosings⟩ := exists_of_toOption hscan
  have hone := closedOnce_iff.mp (hall "$$" ts hts)
  omega

end Token

end AddingCalculator
