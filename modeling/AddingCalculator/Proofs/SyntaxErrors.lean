import AddingCalculator.Proofs.Scanning

/-!
# Errors of syntax

A reader that can read some tokens can be led to the end of a program from there, so tokens that are read begin a
derivation. A token is refused where no derivation goes on with it, and the kinds that were expected are those with
which one does.
-/

namespace AddingCalculator

def Token.Carries (t : Token) : Prop :=
  match t.kind with
  | .name => ∃ letter, t.value = some (.name letter)
  | .integer => ∃ n, t.value = some (.integer n)
  | .decimal => ∃ d, t.value = some (.decimal d)
  | _ => True

theorem Token.exists_carries (kind : Token.Kind) : ∃ t : Token, t.kind = kind ∧ t.Carries := by
  cases kind with
  | name => exact ⟨⟨.name, some (.name 'a'), .origin⟩, rfl, 'a', rfl⟩
  | integer => exact ⟨⟨.integer, some (.integer 0), .origin⟩, rfl, 0, rfl⟩
  | decimal => exact ⟨⟨.decimal, some (.decimal (.ofInt 0)), .origin⟩, rfl, .ofInt 0, rfl⟩
  | floatDeclaration | integerDeclaration | print | assign | plus | minus | close =>
    exact ⟨⟨_, none, .origin⟩, rfl, trivial⟩

namespace Grammar

def Begins (ts : List Token) : Prop :=
  ∃ rest p, Derives (ts ++ rest) p

theorem exists_name {t : Token} (h : t.Carries) (hk : t.kind = .name) : ∃ x, Name t x := by
  obtain ⟨kind, v, span⟩ := t
  cases hk
  obtain ⟨letter, rfl⟩ := h
  exact ⟨_, .name letter span⟩

theorem exists_value {t : Token} (h : t.Carries) (hk : t.kind ∈ [.name, .integer, .decimal]) : ∃ x, Value t x := by
  obtain ⟨kind, v, span⟩ := t
  simp only [List.mem_cons, List.not_mem_nil, or_false] at hk
  rcases hk with rfl | rfl | rfl
  · obtain ⟨letter, rfl⟩ := h
    exact ⟨_, .name letter span⟩
  · obtain ⟨n, rfl⟩ := h
    exact ⟨_, .integer n span⟩
  · obtain ⟨d, rfl⟩ := h
    exact ⟨_, .decimal d span⟩

theorem Value.mem_kinds {t : Token} {x : Operand} (h : Value t x) : t.kind ∈ [.name, .integer, .decimal] := by
  cases h <;> simp

end Grammar

namespace Program.Reader

open Grammar

/-- Where the kinds `kinds` may follow, a token of another kind is refused, and a token of one of them is read if it
carries its value. -/
structure Decides (r : Reader) (t : Token) (kinds : List Token.Kind) (result : Except Diagnostic Reader) : Prop where
  refuses : t.kind ∉ kinds → result = r.refuse t
  reads : t.Carries → t.kind ∈ kinds → ∃ r', result = .ok r'

theorem Decides.mem_kinds {r r' : Reader} {t : Token} {kinds : List Token.Kind} {result : Except Diagnostic Reader}
    (h : r.Decides t kinds result) (hok : result = .ok r') : t.kind ∈ kinds := by
  by_contra hk
  rw [h.refuses hk] at hok
  cases hok

theorem Decides.of_ok {r r' : Reader} {t : Token} {kinds : List Token.Kind} (h : t.kind ∈ kinds) :
    r.Decides t kinds (.ok r') :=
  ⟨fun hk => absurd h hk, fun _ _ => ⟨r', rfl⟩⟩

theorem Decides.congr {r : Reader} {t : Token} {kinds kinds' : List Token.Kind} {result : Except Diagnostic Reader}
    (h : r.Decides t kinds result) (hkinds : t.kind ∈ kinds' ↔ t.kind ∈ kinds) : r.Decides t kinds' result :=
  ⟨fun hk => h.refuses (hkinds.not.mp hk), fun ht hk => h.reads ht (hkinds.mp hk)⟩

theorem begin_decides (r : Reader) (ss : List Statement) (t : Token) :
    r.Decides t Stage.statement.expected (r.begin ss t) := by
  constructor
  · intro h
    unfold begin
    split <;> simp_all [Stage.expected]
  · intro ht h
    simp only [Stage.expected, List.mem_cons, List.not_mem_nil, or_false] at h
    rcases h with h | h | h
    · obtain ⟨x, hx⟩ := exists_name ht h
      exact ⟨_, by rw [begin, h]; exact map_eq_ok.mpr ⟨x, (name_iff.mp hx).2, rfl⟩⟩
    · exact ⟨_, by rw [begin, h]⟩
    · exact ⟨_, by rw [begin, h]⟩

theorem readName_decides (r : Reader) (t : Token) (next : Identifier → Reader) :
    r.Decides t [.name] (r.readName t next) := by
  constructor
  · intro h
    exact if_neg fun hk => h (List.mem_singleton.mpr hk)
  · intro ht h
    obtain ⟨x, hx⟩ := exists_name ht (List.mem_singleton.mp h)
    exact ⟨_, readName_eq hx next⟩

theorem readOperand_decides (r : Reader) (t : Token) (target : Identifier) (complete : Operand → Chain) :
    r.Decides t [.name, .integer, .decimal] (r.readOperand t target complete) := by
  constructor
  · intro h
    unfold readOperand
    split
    · rename_i x hx
      exact absurd (value_iff.mpr hx).mem_kinds h
    · rfl
  · intro ht h
    obtain ⟨x, hx⟩ := exists_value ht h
    exact ⟨_, readOperand_eq hx target complete⟩

theorem step_decides (r : Reader) (t : Token) : r.Decides t r.stage.expected (r.step t) := by
  obtain ⟨ds, ss, stage⟩ := r
  cases stage with
  | declaration =>
    simp only [step]
    cases hk : t.kind.declares? with
    | some type =>
      apply Decides.of_ok
      cases keyword_iff.mpr hk <;> simp [Stage.expected]
    | none =>
      apply (begin_decides _ ss t).congr
      cases h : t.kind <;> simp_all [Stage.expected, Token.Kind.declares?]
  | operator target value =>
    simp only [step]
    cases hk : t.kind.operator? with
    | some o =>
      apply Decides.of_ok
      cases sign_iff.mpr hk <;> simp [Stage.expected]
    | none =>
      apply (begin_decides _ (.assign target value :: ss) t).congr
      cases h : t.kind <;> simp_all [Stage.expected, Token.Kind.operator?]
  | statement => exact begin_decides _ ss t
  | assignment target =>
    constructor
    · intro h
      exact if_neg fun hk => h (List.mem_singleton.mpr hk)
    · intro _ h
      exact ⟨_, if_pos (List.mem_singleton.mp h)⟩
  | declaredName type keyword => exact readName_decides _ t _
  | printedName keyword => exact readName_decides _ t _
  | firstOperand target => exact readOperand_decides _ t target _
  | operand target value o place => exact readOperand_decides _ t target _

theorem step_error {r : Reader} {t : Token} {e : Diagnostic} (ht : t.Carries) (h : r.step t = .error e) :
    t.kind ∉ r.stage.expected ∧ e = .unexpectedToken r.stage.expected t := by
  have hkind : t.kind ∉ r.stage.expected := by
    intro hk
    obtain ⟨r', hr'⟩ := (r.step_decides t).reads ht hk
    rw [hr'] at h
    cases h
  rw [(r.step_decides t).refuses hkind] at h
  exact ⟨hkind, (Except.error.inj h).symm⟩

theorem exists_completion (r : Reader) :
    ∃ (ts : List Token) (r' : Reader) (ss : List Statement), ts.foldlM step r = .ok r' ∧ r'.completed = some ss := by
  let mark : Token := ⟨.assign, none, .origin⟩
  let name : Token := ⟨.name, some (.name 'a'), .origin⟩
  obtain ⟨ds, ss, stage⟩ := r
  -- A name, with an assignment mark before it if one is due, completes whatever has begun.
  cases stage with
  | declaration | statement | operator => exact ⟨[], _, _, rfl, rfl⟩
  | declaredName | printedName | firstOperand | operand => exact ⟨[name], _, _, rfl, rfl⟩
  | assignment => exact ⟨[mark, name], _, _, rfl, rfl⟩

theorem begins_iff {ts : List Token} : Begins ts ↔ ∃ r, ts.foldlM step start = .ok r := by
  constructor
  · rintro ⟨rest, p, h⟩
    obtain ⟨r, hr, -⟩ := foldlM_derives h
    obtain ⟨r', hr', -⟩ := foldlM_append_eq_ok.mp hr
    exact ⟨r', hr'⟩
  · rintro ⟨r, hr⟩
    obtain ⟨us, r', ss, hr', hss⟩ := r.exists_completion
    have hread := foldlM_append_eq_ok.mpr ⟨r, hr, hr'⟩
    have hclose : r'.step (closingToken (ts ++ us)) = .ok ⟨r'.declarations, ss, .statement⟩ :=
      step_eq_begin hss rfl rfl
    have hderives := ofTokens_iff_derives.mp (ofTokens_eq_ok.mpr ⟨_, foldlM_concat_eq_ok.mpr ⟨r', hread, hclose⟩, rfl⟩)
    rw [List.append_assoc] at hderives
    exact ⟨_, _, hderives⟩

theorem mem_expected_iff {ts : List Token} {r : Reader} (h : ts.foldlM step start = .ok r) {kind : Token.Kind} :
    kind ∈ r.stage.expected ↔ ∃ t, t.kind = kind ∧ Begins (ts ++ [t]) := by
  simp only [begins_iff, foldlM_concat_eq_ok, h]
  constructor
  · intro hk
    obtain ⟨t, rfl, ht⟩ := Token.exists_carries kind
    obtain ⟨r', hr'⟩ := (r.step_decides t).reads ht hk
    exact ⟨t, rfl, r', r, rfl, hr'⟩
  · rintro ⟨t, rfl, r', _, ⟨⟩, hr'⟩
    exact (r.step_decides t).mem_kinds hr'

end Program.Reader

theorem Token.Spelled.carries {before behind lexeme : List Char} {t : Token} (h : t.Spelled before behind lexeme) :
    t.Carries := by
  cases h with
  | @mark kind c span hmark =>
    cases kind with
    | name | integer | decimal => cases hmark
    | _ => trivial
  | @name letter => exact ⟨letter, rfl⟩
  | integer => exact ⟨digitsValue lexeme, rfl⟩
  | @decimal whole fraction d => exact ⟨d, rfl⟩

theorem Token.carries_of_scan {source : String} {ts : List Token} (h : scan source = .ok ts) : ∀ t ∈ ts, t.Carries :=
  forall_of_scan h (fun _ _ _ _ hspelled => hspelled.carries) fun _ => trivial

namespace Program

open Grammar

theorem ofTokens_eq_error {ts : List Token} {e : Diagnostic} :
    ofTokens ts = .error e ↔ (ts ++ [closingToken ts]).foldlM Reader.step Reader.start = .error e := by
  rw [ofTokens, List.foldlM_append]
  simp only [bind_eq_error, List.foldlM_cons, List.foldlM_nil, bind_pure]
  constructor
  · rintro (h | ⟨r, hr, h | ⟨r', -, h⟩⟩)
    · exact .inl h
    · exact .inr ⟨r, hr, h⟩
    · cases h
  · rintro (h | ⟨r, hr, h⟩)
    · exact .inl h
    · exact .inr ⟨r, hr, .inl h⟩

theorem exists_refused {ts : List Token} {e : Diagnostic} (h : ofTokens ts = .error e) :
    ∃ k r, k ≤ ts.length ∧ (ts.take k).foldlM Reader.step Reader.start = .ok r ∧
      r.step (ts[k]?.getD (closingToken ts)) = .error e := by
  obtain ⟨us, t, vs, r, hsplit, hread, hstep⟩ := exists_of_foldlM_error (ofTokens_eq_error.mp h)
  have hle : us.length ≤ ts.length := by
    have hlength := congrArg List.length hsplit
    simp only [List.length_append, List.length_cons, List.length_nil] at hlength
    omega
  have htake : ts.take us.length = us := by
    have hfront := congrArg (List.take us.length) hsplit
    rwa [List.take_append_of_le_length hle, List.take_left] at hfront
  have hget : ts[us.length]?.getD (closingToken ts) = t := by
    have hat : (ts ++ [closingToken ts])[us.length]? = some t := by simp [hsplit]
    rcases hle.lt_or_eq with hlt | heq
    · rw [List.getElem?_append_left hlt] at hat
      rw [hat, Option.getD_some]
    · rw [heq, List.getElem?_concat_length] at hat
      rw [heq, List.getElem?_length, Option.getD_none]
      exact Option.some.inj hat
  refine ⟨us.length, r, hle, ?_, ?_⟩
  · rwa [htake]
  · rwa [hget]

theorem syntax_error_exact :
    (∀ source ts, Token.scan source = .ok ts → ∀ t ∈ ts, t.Carries) ∧
      ∀ (ts : List Token) (e : Diagnostic), (∀ t ∈ ts, t.Carries) → (ofTokens ts).map store = .error e →
        ∃ k expected found, e = .unexpectedToken expected found ∧ k ≤ ts.length ∧
          found = ts[k]?.getD ⟨.close, none, (ts.getLast?.map Token.span).getD .origin⟩ ∧
          Begins (ts.take k) ∧ found.kind ∉ expected ∧
          ∀ kind, kind ∈ expected ↔ ∃ t, t.kind = kind ∧ Begins (ts.take k ++ [t]) := by
  refine ⟨fun source ts h => Token.carries_of_scan h, fun ts e hts h => ?_⟩
  obtain ⟨k, r, hle, hread, hstep⟩ := exists_refused (map_eq_error.mp h)
  have hcarries : (ts[k]?.getD (closingToken ts)).Carries := by
    cases hk : ts[k]? with
    | none => trivial
    | some t => exact hts t (List.mem_of_getElem? hk)
  obtain ⟨hkind, rfl⟩ := Reader.step_error hcarries hstep
  exact ⟨k, r.stage.expected, _, rfl, hle, rfl, Reader.begins_iff.mpr ⟨r, hread⟩, hkind,
    fun kind => Reader.mem_expected_iff hread⟩

def brokenAssignment : List Token :=
  [⟨.name, some (.name 'b'), ⟨1, 1, 0, 1⟩⟩, ⟨.assign, none, ⟨1, 3, 2, 3⟩⟩, ⟨.integer, some (.integer 7), ⟨1, 5, 4, 5⟩⟩,
    ⟨.minus, none, ⟨1, 7, 6, 7⟩⟩]

theorem syntax_error_exact_brokenAssignment :
    (∀ t ∈ brokenAssignment, t.Carries) ∧
      (ofTokens brokenAssignment).map store =
        .error (.unexpectedToken [.name, .integer, .decimal] (.closing ⟨1, 7, 6, 7⟩)) ∧
      ∃ k expected found, Diagnostic.unexpectedToken [.name, .integer, .decimal] (.closing ⟨1, 7, 6, 7⟩) =
          .unexpectedToken expected found ∧ k ≤ brokenAssignment.length ∧
        found = brokenAssignment[k]?.getD ⟨.close, none, (brokenAssignment.getLast?.map Token.span).getD .origin⟩ ∧
        Begins (brokenAssignment.take k) ∧ found.kind ∉ expected ∧
        ∀ kind, kind ∈ expected ↔ ∃ t, t.kind = kind ∧ Begins (brokenAssignment.take k ++ [t]) := by
  have hcarries : ∀ t ∈ brokenAssignment, t.Carries := by
    simp [brokenAssignment, Token.Carries]
  exact ⟨hcarries, rfl, syntax_error_exact.2 brokenAssignment _ hcarries rfl⟩

end Program

end AddingCalculator
