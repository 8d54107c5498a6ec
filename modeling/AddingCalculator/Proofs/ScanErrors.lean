import AddingCalculator.Proofs.DoubleRange
import AddingCalculator.Proofs.Lexemes

namespace AddingCalculator

theorem Span.Exact.eq_covering {span : Span} {before lexeme : List Char} (h : span.Exact before lexeme) :
    span = .covering (Position.after {} before) lexeme := by
  have hcovering := covering_exact before lexeme
  rcases span with ⟨line, column, start, stop⟩
  have hline := h.line.trans hcovering.line.symm
  have hcolumn := h.column.trans hcovering.column.symm
  have hstart := h.start.trans hcovering.start.symm
  have hstop := h.stop.trans hcovering.stop.symm
  dsimp only at hline hcolumn hstart hstop
  rw [hline, hcolumn, hstart, hstop]

namespace Lexeme

def Bad : Lexeme → Prop
  | blank _ | mark _ _ => False
  | digits run => 2 ^ 63 - 1 < digitsValue run
  | point whole fraction => 2 ^ 1024 - 2 ^ 970 ≤ writtenValue (whole ++ '.' :: fraction)
  | stray _ => True

inductive Reported (before : List Char) : Lexeme → Diagnostic → Prop
  | stray {c : Char} {span : Span} (h : span.Exact before []) : Reported before (.stray c) (.strayCharacter c span)
  | digits {run : List Char} {span : Span} (h : span.Exact before run) :
      Reported before (.digits run) (.integerOutOfRange (.ofList run) span)
  | point {whole fraction : List Char} {span : Span} (h : span.Exact before (whole ++ '.' :: fraction)) :
      Reported before (.point whole fraction) (.decimalOutOfRange (.ofList (whole ++ '.' :: fraction)) span)

theorem Bad.exists_reported {l : Lexeme} (h : l.Bad) (before : List Char) : ∃ e, Reported before l e := by
  cases l with
  | blank | mark => exact h.elim
  | digits run => exact ⟨_, .digits (Span.covering_exact before run)⟩
  | point whole fraction => exact ⟨_, .point (Span.covering_exact before _)⟩
  | stray c => exact ⟨_, .stray (Span.covering_exact before [])⟩

theorem token?_eq_error {l : Lexeme} (hl : l.IsNumber) {before : List Char} {e : Diagnostic} :
    l.token? (Position.after {} before) = .error e ↔ l.Bad ∧ Reported before l e := by
  have hlargest : largestInteger = 2 ^ 63 - 1 := by decide
  constructor
  · intro h
    unfold token? at h
    cases l with
    | blank | mark => cases h
    | stray c =>
      cases h
      exact ⟨trivial, .stray (Span.covering_exact before [])⟩
    | digits run =>
      dsimp only at h
      split at h
      · cases h
      · rename_i hlarge
        cases h
        rw [hlargest] at hlarge
        exact ⟨not_le.mp hlarge, .digits (Span.covering_exact before run)⟩
    | point whole fraction =>
      obtain ⟨hne, hw, hf⟩ := hl
      dsimp only at h
      split at h
      · cases h
      · rename_i hnone
        cases h
        exact ⟨(Decimal.read?_eq_none_iff hne hw hf).mp hnone, .point (Span.covering_exact before _)⟩
  · rintro ⟨hbad, hreported⟩
    unfold token?
    cases hreported with
    | stray h =>
      rw [h.eq_covering]
      rfl
    | @digits run _ h =>
      have hlarge : ¬ digitsValue run ≤ largestInteger := by
        rw [hlargest]
        exact not_le.mpr hbad
      rw [h.eq_covering]
      dsimp only
      rw [if_neg hlarge]
      rfl
    | @point whole fraction _ h =>
      obtain ⟨hne, hw, hf⟩ := hl
      rw [h.eq_covering]
      dsimp only
      rw [(Decimal.read?_eq_none_iff hne hw hf).mpr hbad]
      rfl

end Lexeme

namespace Token

theorem ofLexemes_cons_eq_error {p : Position} {l : Lexeme} {ls : List Lexeme} {e : Diagnostic} :
    ofLexemes p (l :: ls) = .error e ↔
      l.token? p = .error e ∨ (∃ t, l.token? p = .ok t) ∧ ofLexemes (p.after l.chars) ls = .error e := by
  rw [ofLexemes, bind_eq_error]
  apply or_congr Iff.rfl
  constructor
  · rintro ⟨t, ht, h⟩
    rcases bind_eq_error.mp h with h | ⟨ts, -, h⟩
    · exact ⟨⟨t, ht⟩, h⟩
    · cases h
  · rintro ⟨⟨t, ht⟩, h⟩
    exact ⟨t, ht, bind_eq_error.mpr (.inl h)⟩

theorem ofLexemes_eq_error {before : List Char} {ls : List Lexeme} (hls : ∀ l ∈ ls, l.IsNumber) {e : Diagnostic} :
    ofLexemes (Position.after {} before) ls = .error e ↔
      ∃ as l bs, ls = as ++ l :: bs ∧ (∀ k ∈ as, ¬ k.Bad) ∧ l.Bad ∧
        Lexeme.Reported (before ++ as.flatMap Lexeme.chars) l e := by
  induction ls generalizing before with
  | nil =>
    constructor
    · intro h
      cases h
    · rintro ⟨as, l, bs, h, -⟩
      exact absurd h (by simp)
  | cons l ls ih =>
    have hl := hls l List.mem_cons_self
    have ih := @ih (before ++ l.chars) fun k hk => hls k (List.mem_cons_of_mem l hk)
    rw [ofLexemes_cons_eq_error, Lexeme.token?_eq_error hl, ← Position.after_append, ih]
    constructor
    · rintro (⟨hbad, hreported⟩ | ⟨⟨t, ht⟩, as, k, bs, rfl, has, hbad, hreported⟩)
      · exact ⟨[], l, ls, rfl, by simp, hbad, by rwa [List.flatMap_nil, List.append_nil]⟩
      · refine ⟨l :: as, k, bs, rfl, ?_, hbad, by rwa [List.flatMap_cons, ← List.append_assoc]⟩
        refine List.forall_mem_cons.mpr ⟨fun hbad => ?_, has⟩
        obtain ⟨f, hf⟩ := hbad.exists_reported before
        rw [(Lexeme.token?_eq_error hl).mpr ⟨hbad, hf⟩] at ht
        cases ht
    · rintro ⟨as, k, bs, heq, has, hbad, hreported⟩
      cases as with
      | nil =>
        cases heq
        rw [List.flatMap_nil, List.append_nil] at hreported
        exact .inl ⟨hbad, hreported⟩
      | cons a as =>
        cases heq
        have hgood := has l List.mem_cons_self
        rw [List.flatMap_cons, ← List.append_assoc] at hreported
        refine .inr ⟨?_, as, k, bs, rfl, fun k hk => has k (List.mem_cons_of_mem l hk), hbad, hreported⟩
        cases ht : l.token? (Position.after {} before) with
        | ok t => exact ⟨t, rfl⟩
        | error f => exact absurd ((Lexeme.token?_eq_error hl).mp ht).1 hgood

theorem scan_eq_error {source : String} {e : Diagnostic} :
    scan source = .error e ↔ ofLexemes (Position.after {} []) (Lexeme.split source.toList) = .error e := by
  constructor
  · intro h
    rcases bind_eq_error.mp h with h | ⟨ts, -, h⟩
    · exact h
    · cases h
  · intro h
    exact bind_eq_error.mpr (.inl h)

def RefusedAt (source : String) (e : Diagnostic) : Prop :=
  ∃ ls l rest behind, Lexeme.Cut source.toList ls rest ∧ (∀ k ∈ ls, ¬ k.Bad) ∧ Lexeme.Taken rest l behind ∧ l.Bad ∧
    Lexeme.Reported (ls.flatMap Lexeme.chars) l e

theorem scan_eq_error_iff {source : String} {e : Diagnostic} : scan source = .error e ↔ RefusedAt source e := by
  rw [scan_eq_error, ofLexemes_eq_error fun l => Lexeme.isNumber_of_mem_split]
  constructor
  · rintro ⟨as, l, bs, hsplit, has, hbad, hreported⟩
    obtain ⟨rest, hcut, hrest⟩ := Lexeme.cut_append_iff.mp (Lexeme.cut_iff_split.mpr hsplit.symm)
    cases hrest with
    | @next _ behind _ _ _ first _ => exact ⟨as, l, rest, behind, hcut, has, first, hbad, hreported⟩
  · rintro ⟨ls, l, rest, behind, hcut, hls, first, hbad, hreported⟩
    exact ⟨ls, l, Lexeme.split behind, by rw [hcut.split_eq, first.split_eq], hls, hbad, hreported⟩

theorem exists_first_bad {ls : List Lexeme} (h : ∃ l ∈ ls, l.Bad) :
    ∃ as l bs, ls = as ++ l :: bs ∧ (∀ k ∈ as, ¬ k.Bad) ∧ l.Bad := by
  induction ls with
  | nil =>
    obtain ⟨l, hl, -⟩ := h
    cases hl
  | cons l ls ih =>
    by_cases hl : l.Bad
    · exact ⟨[], l, ls, rfl, by simp, hl⟩
    · obtain ⟨k, hk, hbad⟩ := h
      have hmem : k ∈ ls := (List.mem_cons.mp hk).resolve_left (by rintro rfl; exact hl hbad)
      obtain ⟨as, m, bs, rfl, has, hm⟩ := ih ⟨k, hmem, hbad⟩
      exact ⟨l :: as, m, bs, rfl, List.forall_mem_cons.mpr ⟨hl, has⟩, hm⟩

/-- A text is cut into lexemes in one way. It is refused if and only if one of them is bad, and then for the
leftmost. -/
theorem scan_fails_leftmost (source : String) :
    (∃! ls, Lexeme.Cut source.toList ls []) ∧
      ((∃ e, scan source = .error e) ↔ ∃ ls, Lexeme.Cut source.toList ls [] ∧ ∃ l ∈ ls, l.Bad) ∧
      ∀ e, scan source = .error e ↔ RefusedAt source e := by
  refine ⟨⟨_, Lexeme.split_cut _, fun ls h => Lexeme.cut_iff_split.mp h⟩, ?_, fun e => scan_eq_error_iff⟩
  constructor
  · rintro ⟨e, he⟩
    obtain ⟨ls, l, rest, behind, hcut, -, first, hbad, -⟩ := scan_eq_error_iff.mp he
    have hsplit : Lexeme.split source.toList = ls ++ l :: Lexeme.split behind := by rw [hcut.split_eq, first.split_eq]
    exact ⟨_, Lexeme.cut_iff_split.mpr hsplit.symm, l, List.mem_append_right ls List.mem_cons_self, hbad⟩
  · rintro ⟨ls, hcut, hbad⟩
    obtain ⟨as, l, bs, rfl, has, hl⟩ := exists_first_bad hbad
    obtain ⟨rest, hfront, hrest⟩ := Lexeme.cut_append_iff.mp hcut
    obtain ⟨e, he⟩ := hl.exists_reported (as.flatMap Lexeme.chars)
    cases hrest with
    | @next _ behind _ _ _ first _ => exact ⟨e, scan_eq_error_iff.mpr ⟨as, l, rest, behind, hfront, has, first, hl, he⟩⟩

end Token

end AddingCalculator
