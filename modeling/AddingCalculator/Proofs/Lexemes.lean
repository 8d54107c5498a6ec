import AddingCalculator.Proofs.Numerals
import AddingCalculator.Proofs.Scanning

namespace AddingCalculator

theorem isDigit_of_toNat {c : Char} (h : 57 < c.toNat) : c.isDigit = false := by
  by_contra hdigit
  have := toNat_of_isDigit (Bool.not_eq_false _ ▸ hdigit)
  omega

theorem isDigit_of_isBlank {c : Char} (h : isBlank c = true) : c.isDigit = false := by
  by_contra hdigit
  have hsolid := isBlank_of_isNumeric (isNumeric_of_isDigit (Bool.not_eq_false _ ▸ hdigit))
  rw [h] at hsolid
  cases hsolid

theorem Token.Kind.Marks.isSolid {kind : Token.Kind} {c : Char} (h : kind.Marks c) :
    isBlank c = false ∧ c.isDigit = false ∧ c ≠ '.' := by
  rcases h with h | ⟨rfl, h⟩
  · cases kind <;> cases h <;> decide
  · have hletter := toNat_of_isVariable h
    refine ⟨isBlank_of_visible (by omega) (by omega), isDigit_of_toNat (by omega), ?_⟩
    rintro rfl
    exact absurd h (by decide)

namespace Lexeme

theorem takeWhile_isDigit {run rest : List Char} (hd : ∀ c ∈ run, c.isDigit = true)
    (hrest : ∀ c ∈ rest.head?, c.isDigit = false) :
    (run ++ rest).takeWhile Char.isDigit = run ∧ (run ++ rest).dropWhile Char.isDigit = rest := by
  rw [List.takeWhile_append_of_pos hd, List.dropWhile_append_of_pos hd]
  cases rest with
  | nil => simp
  | cons c rest =>
    have hc := hrest c rfl
    simp [hc]

theorem Taken.chars_append {cs rest : List Char} {l : Lexeme} (h : Taken cs l rest) : cs = l.chars ++ rest := by
  cases h <;> rfl

theorem Taken.chars_ne_nil {cs rest : List Char} {l : Lexeme} (h : Taken cs l rest) : l.chars ≠ [] := by
  cases h with
  | blank | mark | stray => simp [chars]
  | digits hne => exact hne
  | point hne => simp [chars]

theorem takeNumber_digits {run rest : List Char} (hd : ∀ c ∈ run, c.isDigit = true)
    (hrest : ∀ c ∈ rest.head?, c.isDigit = false ∧ c ≠ '.') : takeNumber (run ++ rest) = (digits run, rest) := by
  obtain ⟨htake, hdrop⟩ := takeWhile_isDigit hd fun c hc => (hrest c hc).1
  unfold takeNumber
  rw [htake, hdrop]
  split
  · exact absurd rfl (hrest '.' rfl).2
  · rfl

theorem takeNumber_point {whole fraction rest : List Char} (hw : ∀ c ∈ whole, c.isDigit = true)
    (hf : ∀ c ∈ fraction, c.isDigit = true) (hrest : ∀ c ∈ rest.head?, c.isDigit = false) :
    takeNumber (whole ++ '.' :: fraction ++ rest) = (point whole fraction, rest) := by
  have hpoint : ∀ c ∈ ('.' :: (fraction ++ rest)).head?, c.isDigit = false := by
    intro c hc
    cases hc
    rfl
  obtain ⟨htake, hdrop⟩ := takeWhile_isDigit hw hpoint
  obtain ⟨htake', hdrop'⟩ := takeWhile_isDigit hf hrest
  unfold takeNumber
  rw [List.append_assoc, List.cons_append, htake, hdrop]
  simp only [htake', hdrop']

theorem take_of_isDigit {c : Char} {cs run rest : List Char} (hne : run ≠ []) (hd : ∀ c ∈ run, c.isDigit = true)
    (h : c :: cs = run ++ rest) : take c cs = takeNumber (run ++ rest) := by
  obtain ⟨d, ds, rfl⟩ := List.exists_cons_of_ne_nil hne
  obtain ⟨rfl, -⟩ := List.cons.inj h
  rw [take, if_pos (hd c List.mem_cons_self), h]

theorem Taken.take_eq {c : Char} {cs rest : List Char} {l : Lexeme} (h : Taken (c :: cs) l rest) : take c cs = (l, rest) := by
  have hsingle (hd : c.isDigit = false) : take c cs = (single c, cs) := by rw [take, if_neg (Bool.eq_false_iff.mp hd)]
  generalize htext : c :: cs = text at h
  cases h with
  | blank hd hblank =>
    cases htext
    rw [hsingle hd, single, if_pos hblank]
  | mark hd hmark =>
    cases htext
    rw [hsingle hd, single, if_neg (Bool.eq_false_iff.mp hmark.isSolid.1), Token.markKind?_eq_some_iff.mpr hmark]
  | stray hd hblank hmark =>
    cases htext
    have hnone : markKind? c = none := by
      apply Option.eq_none_iff_forall_ne_some.mpr
      intro kind hkind
      exact hmark kind (Token.markKind?_eq_some_iff.mp hkind)
    rw [hsingle hd, single, if_neg (Bool.eq_false_iff.mp hblank), hnone]
  | digits hne hd hrest => rw [take_of_isDigit hne hd htext, takeNumber_digits hd hrest]
  | @point whole fraction _ hne hw hf hrest =>
    rw [List.append_assoc] at htext
    rw [take_of_isDigit hne hw htext, ← List.append_assoc, takeNumber_point hw hf hrest]

theorem Taken.split_eq {cs rest : List Char} {l : Lexeme} (h : Taken cs l rest) : split cs = l :: split rest := by
  have hne : cs ≠ [] := by
    rw [h.chars_append]
    simp [h.chars_ne_nil]
  obtain ⟨c, ds, rfl⟩ := List.exists_cons_of_ne_nil hne
  rw [split, h.take_eq]

inductive Cut : List Char → List Lexeme → List Char → Prop
  | done {cs : List Char} : Cut cs [] cs
  | next {cs rest behind : List Char} {l : Lexeme} {ls : List Lexeme} (first : Taken cs l rest) (further : Cut rest ls behind) :
      Cut cs (l :: ls) behind

theorem Cut.split_eq {cs behind : List Char} {ls : List Lexeme} (h : Cut cs ls behind) : split cs = ls ++ split behind := by
  induction h with
  | done => rfl
  | next first _ ih => rw [first.split_eq, ih, List.cons_append]

theorem split_cut (cs : List Char) : Cut cs (split cs) [] := by
  fun_induction split cs with
  | case1 => exact .done
  | case2 c cs ih => exact .next (take_taken c cs) ih

theorem cut_append_iff {cs behind : List Char} {ls ms : List Lexeme} :
    Cut cs (ls ++ ms) behind ↔ ∃ rest, Cut cs ls rest ∧ Cut rest ms behind := by
  constructor
  · intro h
    induction ls generalizing cs with
    | nil => exact ⟨cs, .done, h⟩
    | cons l ls ih =>
      cases h with
      | next first further =>
        obtain ⟨rest, hls, hms⟩ := ih further
        exact ⟨rest, .next first hls, hms⟩
  · rintro ⟨rest, hls, hms⟩
    induction hls with
    | done => exact hms
    | next first _ ih => exact .next first (ih hms)

theorem cut_iff_split {cs : List Char} {ls : List Lexeme} : Cut cs ls [] ↔ ls = split cs := by
  constructor
  · intro h
    rw [h.split_eq, split, List.append_nil]
  · rintro rfl
    exact split_cut cs

end Lexeme

end AddingCalculator
