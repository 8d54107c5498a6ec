import AddingCalculator.Proofs.DoubleRange
import AddingCalculator.Proofs.Lexemes

namespace AddingCalculator

namespace Token

structure Bare where
  kind : Kind
  value : Option Value
  deriving DecidableEq

def bare (t : Token) : Bare := ⟨t.kind, t.value⟩

namespace Bare

def chars (b : Bare) : List Char :=
  match b.value with
  | none => b.kind.mark?.toList
  | some v => v.text.toList

def IsNumber (b : Bare) : Prop :=
  b.kind = .integer ∨ b.kind = .decimal

inductive Writable : Bare → Prop
  | mark {kind : Kind} {c : Char} (h : kind.mark? = some c) : Writable ⟨kind, none⟩
  | name {letter : Char} (h : isVariable letter = true) : Writable ⟨.name, some (.name letter)⟩
  | integer {n : ℤ} (hpos : 0 ≤ n) (hlargest : n ≤ 2 ^ 63 - 1) : Writable ⟨.integer, some (.integer n)⟩
  | decimal {d : Decimal} {whole fraction : List Char} (hwhole : whole ≠ []) (hfraction : fraction ≠ [])
      (hw : ∀ c ∈ whole, c.isDigit = true) (hf : ∀ c ∈ fraction, c.isDigit = true)
      (htext : d.text.toList = whole ++ '.' :: fraction) (hfinite : d.value.isFinite = true) :
      Writable ⟨.decimal, some (.decimal d)⟩

def Ends (rest : List Char) : Prop :=
  ∀ c ∈ rest.head?, c.isDigit = false ∧ c ≠ '.'

theorem ends_of_blank {cs : List Char} (h : ∀ c ∈ cs, isBlank c = true) : Ends cs := by
  intro c hc
  have hblank := h c (List.mem_of_mem_head? hc)
  refine ⟨isDigit_of_isBlank hblank, ?_⟩
  rintro rfl
  exact absurd hblank (by decide)

theorem chars_mark {kind : Kind} {c : Char} (h : kind.mark? = some c) : (⟨kind, none⟩ : Bare).chars = [c] := by
  rw [chars, h]
  rfl

theorem chars_name (kind : Kind) (letter : Char) : (⟨kind, some (.name letter)⟩ : Bare).chars = [letter] := by
  simp [chars, Value.text]

theorem chars_integer (kind : Kind) (m : ℕ) : (⟨kind, some (.integer m)⟩ : Bare).chars = Nat.toDigits 10 m := by
  simp [chars, Value.text, Int.toString_eq_repr, Int.repr, Nat.repr]

theorem Writable.exists_mark {b : Bare} (h : b.Writable) (hnumber : ¬ b.IsNumber) : ∃ c, b.chars = [c] ∧ b.kind.Marks c := by
  cases h with
  | @mark kind c h => exact ⟨c, chars_mark h, .inl h⟩
  | @name letter h => exact ⟨letter, chars_name .name letter, .inr ⟨rfl, h⟩⟩
  | integer => exact absurd (.inl rfl) hnumber
  | decimal => exact absurd (.inr rfl) hnumber

theorem read?_text {d : Decimal} {whole fraction : List Char} (hne : fraction ≠ []) (hf : ∀ c ∈ fraction, c.isDigit = true)
    (htext : d.text.toList = whole ++ '.' :: fraction) (hfinite : d.value.isFinite = true) :
    Decimal.read? (whole ++ '.' :: fraction) = some d := by
  have hspelling := Decimal.toList_spelling whole hne hf
  have hread := d.read
  rw [htext] at hread
  have hx : Numeral.read? (Decimal.spelling (whole ++ '.' :: fraction)).toList = some (.finite d.exact) := by
    rw [hspelling, hread]
  have hnearest : (Binary64.nearest d.exact).isFinite = true := hfinite
  rw [Decimal.read?_of_numeral (by rw [hread]; exact Option.some_ne_none _) hx, if_pos hnearest]
  apply congrArg some
  apply Decimal.eq_of_text
  rw [← String.toList_inj, hspelling, htext]

theorem Writable.exists_taken {b : Bare} (h : b.Writable) {rest : List Char} (hrest : b.IsNumber → Ends rest) :
    ∃ l, Lexeme.Taken (b.chars ++ rest) l rest ∧ ∀ p, ∃ t, l.token? p = .ok (some t) ∧ t.bare = b := by
  cases h with
  | @mark kind c h =>
    have hmarks : kind.Marks c := .inl h
    have hname : kind ≠ .name := by
      rintro rfl
      cases h
    refine ⟨.mark c kind, ?_, fun p => ⟨_, rfl, ?_⟩⟩
    · rw [chars_mark h]
      exact .mark hmarks.isSolid.2.1 hmarks
    · rw [bare, if_neg hname]
  | @name letter h =>
    have hmarks : Kind.name.Marks letter := .inr ⟨rfl, h⟩
    refine ⟨.mark letter .name, ?_, fun p => ⟨_, rfl, rfl⟩⟩
    rw [chars_name]
    exact .mark hmarks.isSolid.2.1 hmarks
  | @integer n hpos hlargest =>
    obtain ⟨m, rfl⟩ := Int.eq_ofNat_of_zero_le hpos
    have hvalue : digitsValue (Nat.toDigits 10 m) = m := Nat.ofDigitChars_toDigits (by decide) (by decide)
    have hm : m ≤ largestInteger := by
      have hlargest' : largestInteger = 2 ^ 63 - 1 := by decide
      omega
    refine ⟨.digits (Nat.toDigits 10 m), ?_, fun p => ⟨⟨.integer, some (.integer m), .covering p (Nat.toDigits 10 m)⟩, ?_, rfl⟩⟩
    · rw [chars_integer]
      exact .digits Nat.toDigits_ne_nil (fun c hc => Nat.isDigit_of_mem_toDigits (by decide) (by decide) hc)
        (hrest (.inl rfl))
    · simp only [Lexeme.token?, hvalue, if_pos hm]
      rfl
  | @decimal d whole fraction hwhole hfraction hw hf htext hfinite =>
    have hchars : (⟨.decimal, some (.decimal d)⟩ : Bare).chars = whole ++ '.' :: fraction := htext
    have hends := hrest (.inr rfl)
    refine ⟨.point whole fraction, ?_, fun p =>
      ⟨⟨.decimal, some (.decimal d), .covering p (whole ++ '.' :: fraction)⟩, ?_, rfl⟩⟩
    · rw [hchars]
      exact .point hwhole hw hf fun c hc => (hends c hc).1
    · simp only [Lexeme.token?, read?_text hfraction hf htext hfinite]
      rfl

def laidOut (behind : List Char) : List (List Char × Bare) → List Char
  | [] => behind
  | x :: items => x.1 ++ (x.2.chars ++ laidOut behind items)

structure Layout (items : List (List Char × Bare)) (behind : List Char) : Prop where
  writable : ∀ x ∈ items, x.2.Writable
  before : ∀ x ∈ items, ∀ c ∈ x.1, isBlank c = true
  behind : ∀ c ∈ behind, isBlank c = true
  apart : items.IsChain fun x y => x.2.IsNumber → y.2.IsNumber → y.1 ≠ []

theorem Layout.tail {x : List Char × Bare} {items : List (List Char × Bare)} {behind : List Char}
    (h : Layout (x :: items) behind) : Layout items behind :=
  ⟨fun y hy => h.writable y (List.mem_cons_of_mem x hy), fun y hy => h.before y (List.mem_cons_of_mem x hy), h.behind,
    h.apart.tail⟩

theorem Layout.ends {x : List Char × Bare} {items : List (List Char × Bare)} {behind : List Char}
    (h : Layout (x :: items) behind) (hx : x.2.IsNumber) : Ends (laidOut behind items) := by
  cases items with
  | nil => exact ends_of_blank h.behind
  | cons y items =>
    have hgap := h.before y (by simp)
    have hwritable := h.writable y (by simp)
    have hapart := (List.isChain_cons_cons.mp h.apart).1 hx
    intro c hc
    rw [laidOut] at hc
    cases hy : y.1 with
    | cons d ds =>
      rw [hy] at hgap hc
      exact ends_of_blank hgap c hc
    | nil =>
      obtain ⟨d, hd, hmarks⟩ := hwritable.exists_mark fun hnumber => hapart hnumber hy
      rw [hy, hd] at hc
      cases hc
      exact hmarks.isSolid.2

end Bare

theorem ofLexemes_blank {gap : List Char} (h : ∀ c ∈ gap, isBlank c = true) (cs : List Char) (p : Position) :
    ofLexemes p (Lexeme.split (gap ++ cs)) = ofLexemes (p.after gap) (Lexeme.split cs) := by
  induction gap generalizing p with
  | nil => rfl
  | cons c gap ih =>
    have hc := h c List.mem_cons_self
    have htaken : Lexeme.Taken (c :: (gap ++ cs)) (.blank c) (gap ++ cs) := .blank (isDigit_of_isBlank hc) hc
    have hrest := ih (fun d hd => h d (List.mem_cons_of_mem c hd)) (p.after [c])
    have hnone : (Lexeme.blank c).token? p = .ok none := rfl
    have hafter : (p.after [c]).after gap = p.after (c :: gap) := rfl
    rw [List.cons_append, htaken.split_eq, ofLexemes, hnone, ok_bind, Lexeme.chars, hrest, hafter]
    cases ofLexemes (p.after (c :: gap)) (Lexeme.split cs) <;> rfl

theorem ofLexemes_laidOut {items : List (List Char × Bare)} {behind : List Char} (h : Bare.Layout items behind) (p : Position) :
    ∃ ts, ofLexemes p (Lexeme.split (Bare.laidOut behind items)) = .ok ts ∧ ts.map bare = items.map Prod.snd := by
  induction items generalizing p with
  | nil =>
    have hblank := ofLexemes_blank h.behind [] p
    rw [List.append_nil] at hblank
    refine ⟨[], ?_, rfl⟩
    rw [Bare.laidOut, hblank, Lexeme.split]
    rfl
  | cons x items ih =>
    obtain ⟨l, htaken, htoken⟩ := (h.writable x List.mem_cons_self).exists_taken h.ends
    obtain ⟨t, ht, hbare⟩ := htoken (p.after x.1)
    obtain ⟨ts, hts, hbares⟩ := ih h.tail ((p.after x.1).after l.chars)
    refine ⟨t :: ts, ?_, by rw [List.map_cons, List.map_cons, hbare, hbares]⟩
    rw [Bare.laidOut, ofLexemes_blank (h.before x List.mem_cons_self), htaken.split_eq, ofLexemes, ht, ok_bind, hts]
    rfl

theorem bare_closed (p : Position) (ts : List Token) :
    (closed p ts).map bare =
      ts.map bare ++ if (ts.map bare).getLast?.any (·.kind = .close) then [] else [⟨.close, none⟩] := by
  have hlast : (ts.map bare).getLast?.any (·.kind = .close) = ts.getLast?.any (·.kind = .close) := by
    rw [List.getLast?_map, Option.any_map]
    rfl
  rw [hlast, closed]
  split
  · rw [List.append_nil]
  · rw [List.map_append]
    rfl

/-- Tokens in any layout are scanned as themselves, with a closing token behind them if they do not end with one. -/
theorem scan_laidOut (items : List (List Char × Bare)) (behind : List Char) (h : Bare.Layout items behind) :
    ∃ ts, scan (.ofList (Bare.laidOut behind items)) = .ok ts ∧
      ts.map bare = items.map Prod.snd ++
        if (items.map Prod.snd).getLast?.any (·.kind = .close) then [] else [⟨.close, none⟩] := by
  obtain ⟨ts, hts, hbares⟩ := ofLexemes_laidOut h {}
  refine ⟨closed (Position.after {} (Bare.laidOut behind items)) ts, ?_, by rw [bare_closed, hbares]⟩
  unfold scan
  rw [String.toList_ofList]
  dsimp only
  rw [hts]
  rfl

def halfDecimal : Decimal := ⟨"0.50", ⟨false, 50, -2⟩, by decide +kernel⟩

def crowdedItems : List (List Char × Bare) :=
  [([' '], ⟨.name, some (.name 'b')⟩), (['\u3000'], ⟨.assign, none⟩), ([], ⟨.integer, some (.integer 12)⟩),
    (['\n'], ⟨.decimal, some (.decimal halfDecimal)⟩), ([], ⟨.name, some (.name 'e')⟩),
    ([], ⟨.integer, some (.integer 9223372036854775807)⟩)]

theorem crowdedItems_layout : Bare.Layout crowdedItems ['\t'] := by
  have hhalf : Bare.Writable ⟨.decimal, some (.decimal halfDecimal)⟩ :=
    @Bare.Writable.decimal halfDecimal ['0'] ['5', '0'] (by simp) (by simp) (by simp) (by simp) (by decide +kernel)
      (by decide +kernel)
  have hblank : isBlank ' ' = true ∧ isBlank '\u3000' = true ∧ isBlank '\n' = true := ⟨rfl, rfl, rfl⟩
  refine ⟨?_, ?_, ?_, ?_⟩
  · simp only [crowdedItems, List.forall_mem_cons]
    exact ⟨.name rfl, .mark rfl, .integer (by decide) (by decide), hhalf, .name rfl, .integer (by decide) (by decide), by simp⟩
  · simp only [crowdedItems, List.forall_mem_cons]
    simpa using hblank
  · exact List.forall_mem_singleton.mpr rfl
  · simp [crowdedItems, Bare.IsNumber]

theorem scan_laidOut_crowdedItems :
    Bare.Layout crowdedItems ['\t'] ∧
      Bare.laidOut ['\t'] crowdedItems = " b\u3000=12\n0.50e9223372036854775807\t".toList ∧
      ∃ ts, scan (.ofList (Bare.laidOut ['\t'] crowdedItems)) = .ok ts ∧
        ts.map bare = crowdedItems.map Prod.snd ++
          if (crowdedItems.map Prod.snd).getLast?.any (·.kind = .close) then [] else [⟨.close, none⟩] :=
  ⟨crowdedItems_layout, by decide +kernel, scan_laidOut crowdedItems ['\t'] crowdedItems_layout⟩

end Token

end AddingCalculator
