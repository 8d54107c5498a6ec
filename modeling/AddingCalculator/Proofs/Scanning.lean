import AddingCalculator.Proofs.SourceText

namespace AddingCalculator

structure Span.Exact (span : Span) (before lexeme : List Char) : Prop where
  start : span.start = String.utf8Len before
  stop : span.stop = String.utf8Len (before ++ lexeme)
  line : span.line = 1 + before.count '\n'
  column : span.column = 1 + (before.reverse.takeWhile (· ≠ '\n')).length

theorem Position.after_start (before : List Char) :
    (Position.after {} before).line = 1 + before.count '\n' ∧
      (Position.after {} before).column = 1 + (before.reverse.takeWhile (· ≠ '\n')).length := by
  induction before using List.reverseRecOn with
  | nil => exact ⟨rfl, rfl⟩
  | append_singleton before c ih =>
    obtain ⟨hline, hcolumn⟩ := ih
    have hafter : Position.after {} (before ++ [c]) = (Position.after {} before).advance c := by
      rw [after_append]
      rfl
    rw [hafter, advance, List.reverse_append, List.count_append]
    by_cases hc : c = '\n'
    · simp [hc, hline]
      omega
    · simp [hc, hline, hcolumn]
      omega

theorem Span.covering_exact (before lexeme : List Char) :
    (Span.covering (Position.after {} before) lexeme).Exact before lexeme := by
  obtain ⟨hline, hcolumn⟩ := Position.after_start before
  refine ⟨Position.offset_after_start before, ?_, hline, hcolumn⟩
  rw [← Position.offset_after_start, Position.after_append]
  rfl

namespace Lexeme

theorem Taken.isBlank {c : Char} {cs rest : List Char} (h : Taken cs (.blank c) rest) : isBlank c = true := by
  cases h with
  | blank hd h => exact h

theorem Taken.boundary {cs rest : List Char} {l : Lexeme} (h : Taken cs l rest) :
    ∀ c ∈ l.chars.getLast?, c.isDigit = true → ∀ d ∈ rest.head?, d.isDigit = false := by
  have hsingle {c : Char} (hd : c.isDigit = false) : ∀ b ∈ [c].getLast?, b.isDigit = true → False := by
    intro b hb hdigit
    obtain rfl : c = b := by simpa using hb
    rw [hd] at hdigit
    cases hdigit
  cases h with
  | blank hd | mark hd | stray hd => exact fun c hc hdigit => (hsingle hd c hc hdigit).elim
  | digits hne hd hrest => exact fun _ _ _ d h => (hrest d h).1
  | point hne hw hf hrest => exact fun _ _ _ => hrest

end Lexeme

namespace Token

/-- How a token is written between the characters `before` and `behind`. Neither side of a number goes on with its
digits. -/
inductive Spelled (before behind : List Char) : Token → List Char → Prop
  | mark {kind : Kind} {c : Char} {span : Span} (h : kind.mark? = some c) : Spelled before behind ⟨kind, none, span⟩ [c]
  | name {letter : Char} {span : Span} (h : isVariable letter = true) :
      Spelled before behind ⟨.name, some (.name letter), span⟩ [letter]
  | integer {run : List Char} {span : Span} (hne : run ≠ []) (hd : ∀ c ∈ run, c.isDigit = true)
      (hbefore : ∀ c ∈ before.getLast?, c.isDigit = false) (hbehind : ∀ c ∈ behind.head?, c.isDigit = false ∧ c ≠ '.') :
      Spelled before behind ⟨.integer, some (.integer (digitsValue run)), span⟩ run
  | decimal {whole fraction : List Char} {d : Decimal} {span : Span} (hne : whole ≠ [])
      (hw : ∀ c ∈ whole, c.isDigit = true) (hf : ∀ c ∈ fraction, c.isDigit = true)
      (hbefore : ∀ c ∈ before.getLast?, c.isDigit = false) (hbehind : ∀ c ∈ behind.head?, c.isDigit = false)
      {lexeme : List Char} (hlexeme : lexeme = whole ++ '.' :: fraction)
      (htext : d.text = .ofList (if lexeme.getLast? = some '.' then lexeme ++ ['0'] else lexeme)) :
      Spelled before behind ⟨.decimal, some (.decimal d), span⟩ lexeme

theorem spelled_of_taken {before cs behind : List Char} {l : Lexeme} {t : Token} (h : Lexeme.Taken cs l behind)
    (hbefore : ∀ c ∈ before.getLast?, c.isDigit = true → ∀ d ∈ cs.head?, d.isDigit = false)
    (ht : l.token? (Position.after {} before) = .ok (some t)) :
    t.span.Exact before l.chars ∧ t.Spelled before behind l.chars := by
  -- A number begins with a digit, so no digit stands before it.
  have hnumber (run rest : List Char) (hne : run ≠ []) (hd : ∀ c ∈ run, c.isDigit = true) (hcs : cs = run ++ rest) :
      ∀ c ∈ before.getLast?, c.isDigit = false := by
    intro c hc
    obtain ⟨d, ds, rfl⟩ := List.exists_cons_of_ne_nil hne
    by_contra hdigit
    have hfalse := hbefore c hc (Bool.not_eq_false _ ▸ hdigit) d (by simp [hcs])
    rw [hd d List.mem_cons_self] at hfalse
    cases hfalse
  rcases Lexeme.token?_cases ht with ⟨c, kind, rfl, rfl⟩ | ⟨run, rfl, rfl⟩ | ⟨whole, fraction, d, rfl, hread, rfl⟩
  all_goals refine ⟨Span.covering_exact before _, ?_⟩
  · cases h with
    | mark hd hk =>
      rcases hk with hmark | ⟨rfl, hletter⟩
      · have hne : kind ≠ .name := by
          rintro rfl
          cases hmark
        rw [if_neg hne]
        exact .mark hmark
      · exact .name hletter
  · cases h with
    | digits hne hd hrest => exact .integer hne hd (hnumber run behind hne hd rfl) hrest
  · cases h with
    | point hne hw hf hrest =>
      have hcs : whole ++ '.' :: fraction ++ behind = whole ++ ('.' :: fraction ++ behind) := List.append_assoc ..
      exact .decimal hne hw hf (hnumber whole _ hne hw hcs) hrest rfl (text_of_read hread)

end Token

def BlankBetween (source : String) (start stop : ℕ) : Prop :=
  ∃ before gap behind, source.toList = before ++ gap ++ behind ∧ start = String.utf8Len before ∧
    stop = String.utf8Len (before ++ gap) ∧ ∀ c ∈ gap, isBlank c = true

def Spaced (source : String) : ℕ → List Token → Prop
  | start, [] => BlankBetween source start source.utf8ByteSize
  | start, t :: ts => BlankBetween source start t.span.start ∧ Spaced source t.span.stop ts

def Token.Stands (source : String) (t : Token) : Prop :=
  ∃ before lexeme behind, source.toList = before ++ lexeme ++ behind ∧ t.span.Exact before lexeme ∧
    t.Spelled before behind lexeme

/-- The tokens are all that a text says. Those that are written in it end with a closing mark, or else an empty
closing token is put behind the text. -/
structure Lossless (source : String) (ts : List Token) : Prop where
  ordered : ts.IsChain fun t u => t.span.stop ≤ u.span.start
  spaced : Spaced source 0 ts
  written : ∃ us : List Token, (∀ t ∈ us, t.span.start < t.span.stop ∧ t.Stands source) ∧
    if us.getLast?.any (·.kind = .close) then ts = us
    else ∃ span : Span, span.Exact source.toList [] ∧ ts = us ++ [⟨.close, none, span⟩]

theorem BlankBetween.le {source : String} {start stop : ℕ} (h : BlankBetween source start stop) : start ≤ stop := by
  obtain ⟨before, gap, behind, -, rfl, rfl, -⟩ := h
  rw [String.utf8Len_append]
  omega

theorem BlankBetween.refl {source : String} {before behind : List Char} (h : source.toList = before ++ behind) :
    BlankBetween source (String.utf8Len before) (String.utf8Len before) :=
  ⟨before, [], behind, by rw [h, List.append_nil], rfl, by rw [List.append_nil], by simp⟩

theorem eq_of_utf8Len_eq {cs ds before behind : List Char} (h : cs ++ behind = ds ++ before)
    (hlen : String.utf8Len cs = String.utf8Len ds) : cs = ds := by
  rcases List.append_eq_append_iff.mp h with ⟨es, rfl, -⟩ | ⟨es, rfl, -⟩
  all_goals
    rw [String.utf8Len_append] at hlen
    have hes : String.utf8Len es = 0 := by omega
    rw [String.utf8Len_eq_zero.mp hes, List.append_nil]

theorem BlankBetween.cons {source : String} {before cs : List Char} {c : Char} {stop : ℕ} (hc : isBlank c = true)
    (hsource : source.toList = before ++ c :: cs) (h : BlankBetween source (String.utf8Len (before ++ [c])) stop) :
    BlankBetween source (String.utf8Len before) stop := by
  obtain ⟨front, gap, behind, hfront, hlen, rfl, hgap⟩ := h
  have heq : before ++ [c] ++ cs = front ++ (gap ++ behind) := by
    rw [← List.append_assoc, ← hfront, hsource, List.append_assoc, List.singleton_append]
  obtain rfl := eq_of_utf8Len_eq heq hlen
  refine ⟨before, c :: gap, behind, ?_, rfl, ?_, ?_⟩
  · rw [hfront]
    simp
  · simp
  · exact List.forall_mem_cons.mpr ⟨hc, hgap⟩

theorem Spaced.cons {source : String} {before cs : List Char} {c : Char} {ts : List Token} (hc : isBlank c = true)
    (hsource : source.toList = before ++ c :: cs) (h : Spaced source (String.utf8Len (before ++ [c])) ts) :
    Spaced source (String.utf8Len before) ts := by
  cases ts with
  | nil => exact BlankBetween.cons hc hsource h
  | cons t ts => exact ⟨h.1.cons hc hsource, h.2⟩

theorem Spaced.ordered {source : String} {start : ℕ} {ts : List Token} (h : Spaced source start ts) :
    ts.IsChain fun t u => t.span.stop ≤ u.span.start := by
  induction ts generalizing start with
  | nil => exact .nil
  | cons t ts ih =>
    obtain ⟨-, h⟩ := h
    cases ts with
    | nil => exact .singleton t
    | cons u ts => exact .cons_cons h.1.le (ih h)

theorem Spaced.concat {source : String} {start : ℕ} {ts : List Token} {t : Token} (h : Spaced source start ts)
    (ht : t.span.Exact source.toList []) : Spaced source start (ts ++ [t]) := by
  induction ts generalizing start with
  | nil =>
    have hstop := ht.stop
    rw [List.append_nil] at hstop
    refine ⟨?_, ?_⟩
    · rw [ht.start, String.utf8Len_toList]
      exact h
    · rw [hstop, Spaced, ← String.utf8Len_toList]
      exact .refl (List.append_nil _).symm
  | cons u ts ih => exact ⟨h.1, ih h.2⟩

namespace Token

theorem exists_blank_of_token? {l : Lexeme} {p : Position} (h : l.token? p = .ok none) : ∃ c, l = .blank c := by
  unfold Lexeme.token? at h
  cases l with
  | blank c => exact ⟨c, rfl⟩
  | mark | stray => cases h
  | digits | point =>
    dsimp only at h
    split at h <;> cases h

theorem ofLexemes_spaced {source : String} {before cs : List Char} {ts : List Token}
    (hsource : source.toList = before ++ cs)
    (hbefore : ∀ c ∈ before.getLast?, c.isDigit = true → ∀ d ∈ cs.head?, d.isDigit = false)
    (h : ofLexemes (Position.after {} before) (Lexeme.split cs) = .ok ts) :
    Spaced source (String.utf8Len before) ts ∧ ∀ t ∈ ts, t.span.start < t.span.stop ∧ t.Stands source := by
  -- Each lexeme is taken as far as it can go, so the characters before the next one never end inside a number.
  fun_induction Lexeme.split cs generalizing before ts with
  | case1 =>
    cases h
    rw [Spaced, ← String.utf8Len_toList, hsource, List.append_nil]
    exact ⟨.refl hsource, by simp⟩
  | case2 c cs ih =>
    have htaken := Lexeme.take_taken c cs
    have hchars := Lexeme.take_chars c cs
    have hne := Lexeme.take_chars_ne_nil c cs
    obtain ⟨first, hfirst, h⟩ := bind_eq_ok.mp h
    obtain ⟨us, hus, h⟩ := bind_eq_ok.mp h
    cases h
    rw [← Position.after_append] at hus
    have hrest : source.toList = before ++ (Lexeme.take c cs).1.chars ++ (Lexeme.take c cs).2 := by
      rw [hsource, List.append_assoc, hchars]
    have hboundary : ∀ b ∈ (before ++ (Lexeme.take c cs).1.chars).getLast?, b.isDigit = true →
        ∀ d ∈ (Lexeme.take c cs).2.head?, d.isDigit = false := by
      rw [List.getLast?_append_of_ne_nil _ hne]
      exact htaken.boundary
    obtain ⟨hspaced, hstands⟩ := ih hrest hboundary hus
    cases first with
    | none =>
      obtain ⟨b, hb⟩ := exists_blank_of_token? hfirst
      rw [hb] at htaken hspaced hrest
      have hblank : source.toList = before ++ b :: (Lexeme.take c cs).2 := by
        rw [hrest, List.append_assoc]
        rfl
      exact ⟨hspaced.cons htaken.isBlank hblank, hstands⟩
    | some t =>
      obtain ⟨hspan, hspelled⟩ := spelled_of_taken htaken hbefore hfirst
      have hlt : t.span.start < t.span.stop := by
        have hpos : String.utf8Len (Lexeme.take c cs).1.chars ≠ 0 := fun h => hne (String.utf8Len_eq_zero.mp h)
        rw [hspan.start, hspan.stop, String.utf8Len_append]
        omega
      refine ⟨⟨?_, ?_⟩, List.forall_mem_cons.mpr ⟨⟨hlt, _, _, _, hrest, hspan, hspelled⟩, hstands⟩⟩
      · rw [hspan.start]
        exact .refl hsource
      · rw [hspan.stop]
        exact hspaced

theorem scan_spaced {source : String} {ts : List Token} (h : scan source = .ok ts) :
    ∃ us, ts = closed (Position.after {} source.toList) us ∧ Spaced source 0 us ∧
      ∀ t ∈ us, t.span.start < t.span.stop ∧ t.Stands source := by
  obtain ⟨us, hus, h⟩ := bind_eq_ok.mp h
  cases h
  have hlexemes : ofLexemes (Position.after {} []) (Lexeme.split source.toList) = .ok us := hus
  exact ⟨us, rfl, ofLexemes_spaced rfl (by simp) hlexemes⟩

theorem forall_of_scan {source : String} {ts : List Token} (h : scan source = .ok ts) {P : Token → Prop}
    (hspelled : ∀ t before behind lexeme, Spelled before behind t lexeme → P t) (hclosing : ∀ span, P (closing span)) :
    ∀ t ∈ ts, P t := by
  obtain ⟨us, rfl, -, hstands⟩ := scan_spaced h
  have hwritten : ∀ t ∈ us, P t := by
    intro t ht
    obtain ⟨-, before, lexeme, behind, -, -, hlexeme⟩ := hstands t ht
    exact hspelled t before behind lexeme hlexeme
  unfold closed
  split
  · exact hwritten
  · exact List.forall_mem_append.mpr ⟨hwritten, List.forall_mem_singleton.mpr (hclosing _)⟩

theorem scan_lossless (source : String) (ts : List Token) (h : scan source = .ok ts) : Lossless source ts := by
  obtain ⟨us, rfl, hspaced, hstands⟩ := scan_spaced h
  have hspan := Span.covering_exact source.toList []
  unfold closed
  split
  · rename_i hlast
    exact ⟨hspaced.ordered, hspaced, us, hstands, by rw [if_pos hlast]⟩
  · rename_i hlast
    have hclosed := hspaced.concat (t := closing (.emptyAt (Position.after {} source.toList))) hspan
    exact ⟨hclosed.ordered, hclosed, us, hstands, by rw [if_neg hlast]; exact ⟨_, hspan, rfl⟩⟩

def wideSource : String := "f b\n\u3000b = 12. - 007"

theorem scan_lossless_wideSource : ∃ ts, scan wideSource = .ok ts ∧
    ts.map Token.span = [⟨1, 1, 0, 1⟩, ⟨1, 3, 2, 3⟩, ⟨2, 2, 7, 8⟩, ⟨2, 4, 9, 10⟩, ⟨2, 6, 11, 14⟩, ⟨2, 10, 15, 16⟩,
      ⟨2, 12, 17, 20⟩, ⟨2, 15, 20, 20⟩] ∧ Lossless wideSource ts := by
  have hscan : (scan wideSource).toOption.map (List.map Token.span) = some [⟨1, 1, 0, 1⟩, ⟨1, 3, 2, 3⟩, ⟨2, 2, 7, 8⟩,
      ⟨2, 4, 9, 10⟩, ⟨2, 6, 11, 14⟩, ⟨2, 10, 15, 16⟩, ⟨2, 12, 17, 20⟩, ⟨2, 15, 20, 20⟩] := by
    decide +kernel
  obtain ⟨ts, hts, hspans⟩ := exists_of_toOption hscan
  exact ⟨ts, hts, hspans, scan_lossless wideSource ts hts⟩

end Token

end AddingCalculator
