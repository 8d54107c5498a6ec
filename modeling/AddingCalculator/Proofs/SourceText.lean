import AddingCalculator.Proofs.Grammar

namespace AddingCalculator

def Span.text (span : Span) (source : String) : String :=
  String.Pos.Raw.extract source ⟨span.start⟩ ⟨span.stop⟩

theorem Position.offset_after (p : Position) (cs : List Char) : (p.after cs).offset = p.offset + String.utf8Len cs := by
  induction cs generalizing p with
  | nil => rfl
  | cons c cs ih =>
    have hadvance : (p.advance c).offset = p.offset + c.utf8Size := by
      unfold advance
      split <;> rfl
    rw [after, List.foldl_cons, ← after, ih, hadvance, String.utf8Len_cons]
    omega

theorem Position.offset_after_start (cs : List Char) : (Position.after {} cs).offset = String.utf8Len cs := by
  rw [offset_after]
  exact Nat.zero_add _

theorem Position.after_append (p : Position) (cs ds : List Char) : p.after (cs ++ ds) = (p.after cs).after ds :=
  List.foldl_append

theorem Span.text_covering {source : String} {before lexeme behind : List Char}
    (h : source.toList = before ++ lexeme ++ behind) :
    (Span.covering (Position.after {} before) lexeme).text source = .ofList lexeme := by
  have hsource : source = .ofList (before ++ lexeme ++ behind) := by rw [← h, String.ofList_toList]
  have hstart := Position.offset_after_start before
  have hstop : ((Position.after {} before).after lexeme).offset = String.utf8Len before + String.utf8Len lexeme := by
    rw [Position.offset_after, hstart]
  unfold text covering
  dsimp only
  rw [hstart, hstop, hsource]
  exact String.extract_of_valid before lexeme behind

namespace Token

def Kind.mark? : Kind → Option Char
  | floatDeclaration => some 'f'
  | integerDeclaration => some 'i'
  | print => some 'p'
  | assign => some '='
  | plus => some '+'
  | minus => some '-'
  | close => some '$'
  | name | integer | decimal => none

def Kind.Marks (kind : Kind) (c : Char) : Prop :=
  kind.mark? = some c ∨ kind = .name ∧ isVariable c = true

theorem markKind?_eq_some_iff {c : Char} {kind : Kind} : Lexeme.markKind? c = some kind ↔ kind.Marks c := by
  constructor
  · intro h
    unfold Lexeme.markKind? at h
    split at h
    case h_8 =>
      split_ifs at h with hc
      cases h
      exact .inr ⟨rfl, hc⟩
    all_goals
      cases h
      exact .inl rfl
  · rintro (h | ⟨rfl, h⟩)
    · cases kind <;> cases h <;> rfl
    · unfold Lexeme.markKind?
      split
      case h_8 => rw [if_pos h]
      all_goals exact absurd h (by decide)

end Token

namespace Lexeme

/-- The first lexeme of a text, and the rest of the text behind it. A number goes as far as it can, and a character
is stray only if it begins nothing else. -/
inductive Taken : List Char → Lexeme → List Char → Prop
  | blank {c : Char} {cs : List Char} (hd : c.isDigit = false) (h : isBlank c = true) : Taken (c :: cs) (.blank c) cs
  | mark {c : Char} {cs : List Char} {kind : Token.Kind} (hd : c.isDigit = false) (h : kind.Marks c) :
      Taken (c :: cs) (.mark c kind) cs
  | stray {c : Char} {cs : List Char} (hd : c.isDigit = false) (hblank : isBlank c = false)
      (hmark : ∀ kind : Token.Kind, ¬ kind.Marks c) : Taken (c :: cs) (.stray c) cs
  | digits {run rest : List Char} (hne : run ≠ []) (hd : ∀ c ∈ run, c.isDigit = true)
      (hrest : ∀ c ∈ rest.head?, c.isDigit = false ∧ c ≠ '.') : Taken (run ++ rest) (.digits run) rest
  | point {whole fraction rest : List Char} (hne : whole ≠ []) (hw : ∀ c ∈ whole, c.isDigit = true)
      (hf : ∀ c ∈ fraction, c.isDigit = true) (hrest : ∀ c ∈ rest.head?, c.isDigit = false) :
      Taken (whole ++ '.' :: fraction ++ rest) (.point whole fraction) rest

theorem head?_dropWhile_isDigit (cs : List Char) : ∀ c ∈ (cs.dropWhile Char.isDigit).head?, c.isDigit = false := by
  intro c hc
  have := List.head?_dropWhile_not Char.isDigit cs
  rw [Option.mem_def.mp hc] at this
  simpa using this

theorem takeNumber_taken {cs : List Char} (h : cs.takeWhile Char.isDigit ≠ []) :
    Taken cs (takeNumber cs).1 (takeNumber cs).2 := by
  have hdigit (ds : List Char) : ∀ c ∈ ds.takeWhile Char.isDigit, c.isDigit = true := fun c hc => List.mem_takeWhile_imp hc
  have hchars := takeNumber_chars cs
  revert hchars
  unfold takeNumber
  split
  · rename_i rest hrest
    intro hchars
    nth_rewrite 1 [← hchars]
    exact .point h (hdigit cs) (hdigit rest) (head?_dropWhile_isDigit rest)
  · rename_i hpoint
    intro hchars
    nth_rewrite 1 [← hchars]
    refine .digits h (hdigit cs) fun c hc => ⟨head?_dropWhile_isDigit cs c hc, ?_⟩
    rintro rfl
    obtain ⟨rest, hrest⟩ := List.head?_eq_some_iff.mp hc
    exact hpoint rest hrest

theorem take_taken (c : Char) (cs : List Char) : Taken (c :: cs) (take c cs).1 (take c cs).2 := by
  unfold take
  split
  · rename_i hc
    exact takeNumber_taken (by simp [hc])
  · rename_i hc
    have hd : c.isDigit = false := Bool.not_eq_true _ ▸ hc
    unfold single
    split
    · rename_i h
      exact .blank hd h
    · rename_i hblank
      split
      · rename_i kind h
        exact .mark hd (Token.markKind?_eq_some_iff.mp h)
      · rename_i hnone
        refine .stray hd (Bool.not_eq_true _ ▸ hblank) fun kind hkind => ?_
        rw [Token.markKind?_eq_some_iff.mpr hkind] at hnone
        cases hnone

end Lexeme

def Lexeme.IsNumber : Lexeme → Prop
  | digits run => ∀ c ∈ run, c.isDigit = true
  | point whole fraction => whole ≠ [] ∧ (∀ c ∈ whole, c.isDigit = true) ∧ ∀ c ∈ fraction, c.isDigit = true
  | _ => True

theorem Lexeme.Taken.isNumber {cs rest : List Char} {l : Lexeme} (h : Taken cs l rest) : l.IsNumber := by
  cases h with
  | blank | mark | stray => trivial
  | digits hne hd hrest => exact hd
  | point hne hw hf hrest => exact ⟨hne, hw, hf⟩

theorem Lexeme.isNumber_of_mem_split {cs : List Char} {l : Lexeme} (h : l ∈ split cs) : l.IsNumber := by
  fun_induction split cs with
  | case1 => cases h
  | case2 c cs ih =>
    rcases List.mem_cons.mp h with rfl | h
    · exact (take_taken c cs).isNumber
    · exact ih h

theorem Lexeme.token?_cases {l : Lexeme} {p : Position} {t : Token} (h : l.token? p = .ok (some t)) :
    (∃ c kind, l = .mark c kind ∧ t = ⟨kind, if kind = .name then some (.name c) else none, .covering p l.chars⟩) ∨
      (∃ run, l = .digits run ∧ t = ⟨.integer, some (.integer (digitsValue run)), .covering p l.chars⟩) ∨
      ∃ whole fraction d, l = .point whole fraction ∧ Decimal.read? (whole ++ '.' :: fraction) = some d ∧
        t = ⟨.decimal, some (.decimal d), .covering p l.chars⟩ := by
  unfold token? at h
  cases l with
  | blank c | stray c => cases h
  | mark c kind =>
    cases h
    exact .inl ⟨c, kind, rfl, rfl⟩
  | digits run =>
    dsimp only at h
    split at h <;> cases h
    exact .inr (.inl ⟨run, rfl, rfl⟩)
  | point whole fraction =>
    dsimp only at h
    split at h
    · rename_i d hd
      cases h
      exact .inr (.inr ⟨whole, fraction, d, rfl, hd, rfl⟩)
    · cases h

namespace Token

theorem exists_lexeme_of_mem {ls : List Lexeme} {before : List Char} {ts : List Token} {t : Token}
    (h : ofLexemes (Position.after {} before) ls = .ok ts) (ht : t ∈ ts) :
    ∃ as l bs, ls = as ++ l :: bs ∧ l.token? (Position.after {} (before ++ as.flatMap Lexeme.chars)) = .ok (some t) := by
  induction ls generalizing before ts with
  | nil =>
    cases h
    cases ht
  | cons l ls ih =>
    rw [ofLexemes, bind_eq_ok] at h
    obtain ⟨first, hfirst, h⟩ := h
    obtain ⟨rest, hrest, h⟩ := bind_eq_ok.mp h
    cases h
    rcases List.mem_append.mp ht with ht | ht
    · obtain rfl := Option.mem_toList.mp ht
      exact ⟨[], l, ls, rfl, by rw [List.flatMap_nil, List.append_nil]; exact hfirst⟩
    · rw [← Position.after_append] at hrest
      obtain ⟨as, l', bs, rfl, htoken⟩ := ih hrest ht
      exact ⟨l :: as, l', bs, rfl, by rwa [List.flatMap_cons, ← List.append_assoc]⟩

theorem exists_lexeme_of_mem_scan {source : String} {ts : List Token} {t : Token} (h : scan source = .ok ts) (ht : t ∈ ts)
    (hv : t.value ≠ none) :
    ∃ before, ∃ l ∈ Lexeme.split source.toList, ∃ behind, source.toList = before ++ l.chars ++ behind ∧
      l.token? (Position.after {} before) = .ok (some t) := by
  obtain ⟨us, hus, h⟩ := bind_eq_ok.mp h
  cases h
  have hmem : t ∈ us := by
    unfold closed at ht
    split at ht
    · exact ht
    · rcases List.mem_append.mp ht with ht | ht
      · exact ht
      · rw [List.mem_singleton.mp ht] at hv
        exact absurd rfl hv
  have hlexemes : ofLexemes (Position.after {} []) (Lexeme.split source.toList) = .ok us := hus
  obtain ⟨as, l, bs, hls, htoken⟩ := exists_lexeme_of_mem hlexemes hmem
  refine ⟨as.flatMap Lexeme.chars, l, ?_, bs.flatMap Lexeme.chars, ?_, htoken⟩
  · rw [hls]
    exact List.mem_append_right _ List.mem_cons_self
  · rw [← Lexeme.flatMap_chars_split source.toList, hls, List.flatMap_append, List.flatMap_cons, List.append_assoc]

theorem spelling_eq (text : String) :
    Decimal.spelling text.toList = if text.toList.getLast? = some '.' then text ++ "0" else text := by
  rw [Decimal.spelling]
  split
  · rw [String.ofList_append, String.ofList_toList]
  · rw [String.ofList_toList]

theorem text_of_read {cs : List Char} {d : Decimal} (h : Decimal.read? cs = some d) : d.text = Decimal.spelling cs := by
  unfold Decimal.read? at h
  split_ifs at h
  split at h
  · split_ifs at h
    cases h
    rfl
  · cases h

theorem exists_digits_of_integer {source : String} {ts : List Token} {t : Token} {n : ℤ} (h : scan source = .ok ts)
    (ht : t ∈ ts) (hv : t.value = some (.integer n)) :
    ∃ run, .digits run ∈ Lexeme.split source.toList ∧ n = digitsValue run ∧ (t.span.text source).toList = run := by
  obtain ⟨before, l, hl, behind, hsource, htoken⟩ :=
    exists_lexeme_of_mem_scan h ht (by rw [hv]; exact Option.some_ne_none _)
  rcases Lexeme.token?_cases htoken with ⟨c, kind, -, rfl⟩ | ⟨run, rfl, rfl⟩ | ⟨whole, fraction, d, -, -, rfl⟩
  · dsimp only at hv
    split at hv <;> cases hv
  · cases hv
    refine ⟨run, hl, rfl, ?_⟩
    rw [Span.text_covering hsource, String.toList_ofList]
    rfl
  · cases hv

theorem exists_point_of_decimal {source : String} {ts : List Token} {t : Token} {d : Decimal} (h : scan source = .ok ts)
    (ht : t ∈ ts) (hv : t.value = some (.decimal d)) :
    ∃ whole fraction, .point whole fraction ∈ Lexeme.split source.toList ∧
      Decimal.read? (whole ++ '.' :: fraction) = some d ∧ (t.span.text source).toList = whole ++ '.' :: fraction := by
  obtain ⟨before, l, hl, behind, hsource, htoken⟩ :=
    exists_lexeme_of_mem_scan h ht (by rw [hv]; exact Option.some_ne_none _)
  rcases Lexeme.token?_cases htoken with ⟨c, kind, -, rfl⟩ | ⟨run, -, rfl⟩ | ⟨whole, fraction, e, rfl, hread, rfl⟩
  · dsimp only at hv
    split at hv <;> cases hv
  · cases hv
  · cases hv
    refine ⟨whole, fraction, hl, hread, ?_⟩
    rw [Span.text_covering hsource, String.toList_ofList]
    rfl

theorem text_decimal {source : String} {ts : List Token} {t : Token} {d : Decimal} (h : scan source = .ok ts)
    (ht : t ∈ ts) (hv : t.value = some (.decimal d)) : d.text = Decimal.spelling (t.span.text source).toList := by
  obtain ⟨whole, fraction, -, hread, htext⟩ := exists_point_of_decimal h ht hv
  rw [htext]
  exact text_of_read hread

end Token

namespace Grammar

theorem Many.exists_phrase {α : Type} {Phrase : List Token → α → Prop} {ts : List Token} {xs : List α}
    (h : Many Phrase ts xs) {x : α} (hx : x ∈ xs) : ∃ us, Phrase us x ∧ ∀ t ∈ us, t ∈ ts := by
  induction h with
  | nil => cases hx
  | cons h _ ih =>
    rcases List.mem_cons.mp hx with rfl | hx
    · exact ⟨_, h, fun t => List.mem_append_left _⟩
    · obtain ⟨us, hus, hsub⟩ := ih hx
      exact ⟨us, hus, fun t ht => List.mem_append_right _ (hsub t ht)⟩

theorem Segment.exists_states {ts : List Token} {ss : List Statement} (h : Segment ts ss) {s : Statement} (hs : s ∈ ss) :
    ∃ us, States us s ∧ ∀ t ∈ us, t ∈ ts := by
  cases h with
  | close h he =>
    obtain ⟨us, hus, hsub⟩ := h.exists_phrase hs
    exact ⟨us, hus, fun t ht => List.mem_append_left _ (hsub t ht)⟩

theorem Derives.exists_states {ts : List Token} {p : Program} (h : Derives ts p) {s : Statement} (hs : s ∈ p.statements) :
    ∃ us, States us s ∧ ∀ t ∈ us, t ∈ ts := by
  cases h with
  | program hd hfirst hm =>
    rcases List.mem_append.mp hs with hs | hs
    · obtain ⟨us, hus, hsub⟩ := hfirst.exists_states hs
      exact ⟨us, hus, fun t ht => List.mem_append_left _ (List.mem_append_right _ (hsub t ht))⟩
    · obtain ⟨ss, hss, hs⟩ := List.mem_flatten.mp hs
      obtain ⟨vs, hsegment, hvs⟩ := hm.exists_phrase hss
      obtain ⟨us, hus, hsub⟩ := hsegment.exists_states hs
      exact ⟨us, hus, fun t ht => List.mem_append_right _ (hvs t (hsub t ht))⟩

theorem operands_ofOperands (first : Operand) (further : List (Operator × Span × Operand)) :
    (Chain.ofOperands first further).operands = first :: further.map fun x => x.2.2 := by
  have hfurther (c : Chain) : (further.foldl (fun left x => .extend left x.1 x.2.1 x.2.2) c).operands =
      c.operands ++ further.map fun x => x.2.2 := by
    induction further generalizing c with
    | nil => rw [List.foldl_nil, List.map_nil, List.append_nil]
    | cons x further ih =>
      rw [List.foldl_cons, ih, Chain.operands, List.append_assoc]
      rfl
  exact hfurther (.operand first)

theorem States.exists_value {ts : List Token} {target : Identifier} {value : Chain} (h : States ts (.assign target value))
    {x : Operand} (hx : x ∈ value.operands) : ∃ t ∈ ts, Value t x := by
  cases h with
  | assign hn ha hv hs =>
    rw [operands_ofOperands] at hx
    rcases List.mem_cons.mp hx with rfl | hx
    · exact ⟨_, by simp, hv⟩
    · obtain ⟨y, hy, rfl⟩ := List.mem_map.mp hx
      obtain ⟨us, hus, hsub⟩ := hs.exists_phrase hy
      cases hus with
      | @operand o v operator z ho hz =>
        have hmem := hsub v (List.mem_cons_of_mem o List.mem_cons_self)
        exact ⟨v, by simp [hmem], hz⟩

end Grammar

theorem Program.exists_token {ts : List Token} {p : Program} (hp : Grammar.Derives (ts ++ [closingToken ts]) p)
    {target : Identifier} {value : Chain} (hs : .assign target value ∈ p.statements) {x : Operand}
    (hx : x ∈ value.operands) : ∃ t ∈ ts, Grammar.Value t x := by
  obtain ⟨us, hus, hsub⟩ := hp.exists_states hs
  obtain ⟨t, ht, hv⟩ := hus.exists_value hx
  refine ⟨t, ?_, hv⟩
  rcases List.mem_append.mp (hsub _ ht) with ht | ht
  · exact ht
  · rw [List.mem_singleton.mp ht] at hv
    cases hv

def Operand.emitted (source : String) (x : Operand) : String :=
  if (x.span.text source).toList.getLast? = some '.' then x.span.text source ++ "0" else x.span.text source

theorem Program.text_operand {source : String} {ts : List Token} {p : Program} (hscan : Token.scan source = .ok ts)
    (hp : Grammar.Derives (ts ++ [closingToken ts]) p) {target : Identifier} {value : Chain}
    (hs : .assign target value ∈ p.statements) {x : Operand} (hx : x ∈ value.operands) {d : Decimal}
    (hd : x.atom = .literal (.decimal d)) : d.text = x.emitted source := by
  obtain ⟨t, ht, hv⟩ := exists_token hp hs hx
  cases hv with
  | name | integer => cases hd
  | decimal e span =>
    cases hd
    have htext := Token.text_decimal hscan ht rfl
    rw [Token.spelling_eq] at htext
    exact htext

end AddingCalculator
