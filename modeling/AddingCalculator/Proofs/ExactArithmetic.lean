import AddingCalculator.Proofs.Execution

namespace AddingCalculator

def Scientific.value (x : Scientific) : ℚ :=
  (if x.negative then -1 else 1) * x.digits * 10 ^ x.exponent

instance : Arithmetic ℚ where
  ofScientific := Scientific.value
  infinity? _ := none
  nan? := none
  add := (· + ·)
  subtract := (· - ·)

instance : LawfulArithmetic ℚ where
  ofScientific_tenth negative digits := by
    simp only [Arithmetic.ofScientific, Scientific.value, Nat.cast_mul, Nat.cast_ofNat, zpow_neg, zpow_one, zpow_zero, mul_one]
    ring

def writtenValue (cs : List Char) : ℚ :=
  let fraction := (cs.dropWhile (· ≠ '.')).tail
  digitsValue (cs.takeWhile (· ≠ '.')) + digitsValue fraction / 10 ^ fraction.length

theorem ne_point_of_isDigit {c : Char} (h : c.isDigit = true) : c ≠ '.' := by
  rintro rfl
  cases h

theorem writtenValue_digits {run : List Char} (h : ∀ c ∈ run, c.isDigit = true) : writtenValue run = digitsValue run := by
  have hpoint : ∀ c ∈ run, decide (c ≠ '.') = true := fun c hc => decide_eq_true (ne_point_of_isDigit (h c hc))
  rw [writtenValue, List.takeWhile_eq_self_iff.mpr hpoint, List.dropWhile_eq_nil_iff.mpr hpoint]
  simp [digitsValue]

theorem writtenValue_point {whole : List Char} (h : ∀ c ∈ whole, c.isDigit = true) (fraction : List Char) :
    writtenValue (whole ++ '.' :: fraction) = digitsValue whole + digitsValue fraction / 10 ^ fraction.length := by
  have hpoint : ∀ c ∈ whole, decide (c ≠ '.') = true := fun c hc => decide_eq_true (ne_point_of_isDigit (h c hc))
  rw [writtenValue, List.takeWhile_append_of_pos hpoint, List.dropWhile_append_of_pos hpoint]
  simp

def Operand.written (source : String) (x : Operand) : ℚ :=
  writtenValue (x.span.text source).toList

theorem Scientific.value_ofInt (n : ℤ) : (ofInt n).value = n := by
  by_cases hn : n < 0
  · simp [ofInt, value, hn, Nat.cast_natAbs, abs_of_neg hn]
  · simp [ofInt, value, hn, Nat.cast_natAbs, abs_of_nonneg (not_lt.mp hn)]

theorem Scientific.value_point (whole fraction : List Char) :
    Scientific.value ⟨false, digitsValue (whole ++ fraction), -(fraction.length : ℤ)⟩ =
      digitsValue whole + digitsValue fraction / 10 ^ fraction.length := by
  have hpow : (10 : ℚ) ^ fraction.length ≠ 0 := by positivity
  rw [value, digitsValue, Nat.ofDigitChars_append, Nat.ofDigitChars_eq_ofDigitChars_zero, ← digitsValue, ← digitsValue,
    zpow_neg, zpow_natCast]
  push_cast
  field_simp

theorem Decimal.exact_of_read {cs : List Char} {d : Decimal} {x : Scientific} (h : read? cs = some d)
    (hx : Numeral.read? (spelling cs).toList = some (.finite x)) : d.exact = x := by
  have hread := d.read
  rw [Token.text_of_read h, hx] at hread
  cases hread
  rfl

theorem Decimal.toList_spelling (whole : List Char) {fraction : List Char} (hne : fraction ≠ [])
    (hf : ∀ c ∈ fraction, c.isDigit = true) :
    (spelling (whole ++ '.' :: fraction)).toList = whole ++ '.' :: fraction := by
  obtain ⟨ds, c, rfl⟩ := (List.eq_nil_or_concat' fraction).resolve_left hne
  have hc := ne_point_of_isDigit (hf c (by simp))
  have hlast : (whole ++ '.' :: (ds ++ [c])).getLast? = some c := by
    rw [← List.cons_append, ← List.append_assoc, List.getLast?_concat]
  rw [spelling, if_neg (by simp [hlast, hc]), String.toList_ofList]

theorem Decimal.exists_exact {whole fraction : List Char} (hne : whole ≠ []) (hw : ∀ c ∈ whole, c.isDigit = true)
    (hf : ∀ c ∈ fraction, c.isDigit = true) :
    ∃ x, Numeral.read? (spelling (whole ++ '.' :: fraction)).toList = some (.finite x) ∧
      x.value = writtenValue (whole ++ '.' :: fraction) := by
  rw [writtenValue_point hw]
  by_cases hempty : fraction = []
  · -- The zero that is written behind the point counts for nothing.
    subst hempty
    have hspelling : (spelling (whole ++ ['.'])).toList = whole ++ '.' :: ['0'] := by
      rw [spelling, if_pos (by simp), String.toList_ofList, List.append_assoc]
      rfl
    have hzero : ∀ c ∈ ['0'], c.isDigit = true := List.forall_mem_singleton.mpr rfl
    have hvalue : digitsValue ['0'] = 0 := rfl
    refine ⟨_, by rw [hspelling]; exact Numeral.read?_point false hne hw hzero, ?_⟩
    rw [Scientific.value_point, hvalue]
    simp [digitsValue]
  · refine ⟨_, by rw [toList_spelling whole hempty hf]; exact Numeral.read?_point false hne hw hf, ?_⟩
    rw [Scientific.value_point]

theorem Decimal.value_of_read {whole fraction : List Char} (hne : whole ≠ []) (hw : ∀ c ∈ whole, c.isDigit = true)
    (hf : ∀ c ∈ fraction, c.isDigit = true) {d : Decimal} (h : read? (whole ++ '.' :: fraction) = some d) :
    d.exact.value = writtenValue (whole ++ '.' :: fraction) := by
  obtain ⟨x, hx, hvalue⟩ := exists_exact hne hw hf
  rw [exact_of_read h hx, hvalue]

theorem Token.value_literal {source : String} {ts : List Token} {t : Token} {x : Operand} {v : Literal}
    (h : scan source = .ok ts) (ht : t ∈ ts) (hx : Grammar.Value t x) (hv : x.atom = .literal v) :
    v.exact.value = x.written source := by
  unfold Operand.written
  cases hx with
  | name letter span => cases hv
  | integer n span =>
    cases hv
    obtain ⟨run, hrun, rfl, htext⟩ := exists_digits_of_integer h ht rfl
    rw [htext, writtenValue_digits (Lexeme.isNumber_of_mem_split hrun)]
    exact Scientific.value_ofInt _
  | decimal d span =>
    cases hv
    obtain ⟨whole, fraction, hpoint, hread, htext⟩ := exists_point_of_decimal h ht rfl
    obtain ⟨hne, hw, hf⟩ := Lexeme.isNumber_of_mem_split hpoint
    rw [htext]
    exact Decimal.value_of_read hne hw hf hread

section

variable (written : Operand → ℚ)

def Operand.evaluate (o : Outcome ℚ) (x : Operand) : Except Fault ℚ :=
  match x.atom with
  | .name letter => o.read letter
  | .literal _ => .ok (written x)

def Chain.evaluate (o : Outcome ℚ) : Chain → Except Fault ℚ
  | operand first => first.evaluate written o
  | extend left .add _ right => do return (← left.evaluate o) + (← right.evaluate written o)
  | extend left .subtract _ right => do return (← left.evaluate o) - (← right.evaluate written o)

def Statement.execute (o : Outcome ℚ) : Statement → Except Fault (Outcome ℚ)
  | assign target value => do return o.assign target.letter (← value.evaluate written o)
  | print name _ => do return o.print (← o.read name)

def Program.execute (p : Program) : Except Fault (Outcome ℚ) :=
  p.statements.foldlM (Statement.execute written) .empty

end

theorem Operand.evaluate_tree {written : Operand → ℚ} {x : Operand}
    (h : ∀ v, x.atom = .literal v → v.exact.value = written x) (o : Outcome ℚ) :
    x.tree.evaluate o = x.evaluate written o := by
  unfold tree evaluate
  cases hx : x.atom with
  | name letter => simp only [Atom.leaf, Tree.evaluate]
  | literal v =>
    simp only [Atom.leaf, Tree.evaluate]
    exact congrArg Except.ok (h v hx)

theorem Chain.evaluate_tree {written : Operand → ℚ} {c : Chain}
    (h : ∀ x ∈ c.operands, ∀ v, x.atom = .literal v → v.exact.value = written x) (o : Outcome ℚ) :
    c.tree.evaluate o = c.evaluate written o := by
  induction c with
  | operand first => exact Operand.evaluate_tree (h first (by simp [operands])) o
  | extend left operator span right ih =>
    have hleft := ih fun x hx => h x (List.mem_append_left _ hx)
    have hright := Operand.evaluate_tree (h right (List.mem_append_right _ List.mem_cons_self)) o
    rw [tree, Tree.evaluate, hleft, hright]
    cases operator <;> rfl

theorem Statement.execute_tree {written : Operand → ℚ} {s : Statement}
    (h : ∀ target value, s = .assign target value → ∀ x ∈ value.operands, ∀ v, x.atom = .literal v → v.exact.value = written x)
    (o : Outcome ℚ) : o.execute s.tree = s.execute written o := by
  cases s with
  | assign target value =>
    rw [execute, ← Chain.evaluate_tree (h target value rfl)]
    rfl
  | print name span => rfl

theorem Program.run_tree {written : Operand → ℚ} {p : Program}
    (h : ∀ target value, .assign target value ∈ p.statements → ∀ x ∈ value.operands, ∀ v,
      x.atom = .literal v → v.exact.value = written x) : p.tree.run = p.execute written := by
  have hstatements (ss : List Statement) (hss : ∀ s ∈ ss, s ∈ p.statements) (o : Outcome ℚ) :
      ss.foldlM Outcome.perform o = ss.foldlM (Statement.execute written) o := by
    induction ss generalizing o with
    | nil => rfl
    | cons s ss ih =>
      have hs : o.perform s = s.execute written o :=
        Statement.execute_tree (fun target value heq => h target value (heq ▸ hss s List.mem_cons_self)) o
      rw [List.foldlM_cons, List.foldlM_cons, hs]
      congr 1
      funext o
      exact ih (fun s hs => hss s (List.mem_cons_of_mem _ hs)) o
  rw [run_statements, execute]
  exact hstatements p.statements (fun s hs => hs) .empty

theorem Outcome.read_error {α : Type} {o : Outcome α} {name : Char} {f : Fault} (h : o.read name = .error f) :
    ∃ name, f = .unsetRegister name := by
  unfold read at h
  split at h <;> cases h
  exact ⟨name, rfl⟩

theorem Operand.evaluate_error {written : Operand → ℚ} {o : Outcome ℚ} {x : Operand} {f : Fault}
    (h : x.evaluate written o = .error f) : ∃ name, f = .unsetRegister name := by
  unfold evaluate at h
  split at h
  · exact o.read_error h
  · cases h

theorem Chain.evaluate_error {written : Operand → ℚ} {o : Outcome ℚ} {c : Chain} {f : Fault}
    (h : c.evaluate written o = .error f) : ∃ name, f = .unsetRegister name := by
  induction c with
  | operand first => exact Operand.evaluate_error h
  | extend left operator span right ih =>
    cases operator <;>
    · rcases bind_eq_error.mp h with h | ⟨x, -, h⟩
      · exact ih h
      · rcases bind_eq_error.mp h with h | ⟨y, -, h⟩
        · exact Operand.evaluate_error h
        · cases h

theorem Statement.execute_error {written : Operand → ℚ} {o : Outcome ℚ} {s : Statement} {f : Fault}
    (h : s.execute written o = .error f) : ∃ name, f = .unsetRegister name := by
  cases s with
  | assign target value =>
    rcases bind_eq_error.mp h with h | ⟨x, -, h⟩
    · exact Chain.evaluate_error h
    · cases h
  | print name span =>
    rcases bind_eq_error.mp h with h | ⟨x, -, h⟩
    · exact o.read_error h
    · cases h

theorem Program.execute_error {written : Operand → ℚ} {p : Program} {f : Fault} (h : p.execute written = .error f) :
    ∃ name, f = .unsetRegister name := by
  have hall (ss : List Statement) (o : Outcome ℚ) (h : ss.foldlM (Statement.execute written) o = .error f) :
      ∃ name, f = .unsetRegister name := by
    induction ss generalizing o with
    | nil => cases h
    | cons s ss ih =>
      rcases bind_eq_error.mp h with h | ⟨o', -, h⟩
      · exact Statement.execute_error h
      · exact ih o' h
  exact hall p.statements .empty h

namespace Program

/-- Compiled code run over the rationals gets stuck at the same unset variable as the statements do with their
numbers as they are written in the text, and otherwise prints the same numbers and has the same registers up to the
scratch register. -/
theorem compile_exact (source : String) (code : Code) (h : compile source = .ok code) :
    ∃ ts p, Token.scan source = .ok ts ∧ Grammar.Derives (ts ++ [closingToken ts]) p ∧
      (∀ name, (Machine.run (code.map Instruction.text) : Except Fault (Machine ℚ)) = .error (.unsetRegister name) ↔
        p.execute (Operand.written source) = .error (.unsetRegister name)) ∧
      ((∀ name, p.execute (Operand.written source) ≠ .error (.unsetRegister name)) →
        ∃ (m : Machine ℚ) (o : Outcome ℚ), Machine.run (code.map Instruction.text) = .ok m ∧
          p.execute (Operand.written source) = .ok o ∧ m.outcome.printed = o.printed ∧
          ∀ name, name ≠ scratchRegister → m.outcome.registers.find? name = o.registers.find? name) := by
  obtain ⟨s, hs, hrun, -⟩ := run_compiled h ℚ
  obtain ⟨ts, p, hts, hp, rfl⟩ := parse_eq_ok.mp hs
  have hderives := ofTokens_iff_derives.mp hp
  have hstore : p.store.run = p.execute (Operand.written source) := by
    rw [Store.run, p.tree?_store]
    apply run_tree
    intro target value hs x hx v hv
    obtain ⟨t, ht, hvalue⟩ := exists_token hderives hs hx
    exact Token.value_literal hts ht hvalue hv
  rw [hrun, hstore]
  refine ⟨ts, p, hts, hderives, ?_⟩
  cases hexecute : p.execute (Operand.written source) with
  | error f =>
    obtain ⟨name, rfl⟩ := execute_error hexecute
    refine ⟨fun other => ?_, fun hne => absurd rfl (hne name)⟩
    constructor <;>
    · intro heq
      cases heq
      rfl
  | ok o =>
    refine ⟨fun name => ?_, fun _ => ⟨⟨[], o.withScratch⟩, o, rfl, rfl, o.printed_withScratch, fun name => o.find?_withScratch⟩⟩
    constructor <;>
    · intro heq
      cases heq

def longSource : String := "i b f a b = 0009007199254740993 a = b + 0.10 - 007. + 9007199254740993 p a $"

theorem compile_exact_longSource : ∃ code, compile longSource = .ok code ∧
    code.map Instruction.text = ["9007199254740993", "sb", "0 k", "lb", "5 k", "0.10", "+", "007.0", "-", "9007199254740993.0",
      "+", "sa", "0 k", "la", "p", "si"] ∧
    ∃ ts p, Token.scan longSource = .ok ts ∧ Grammar.Derives (ts ++ [closingToken ts]) p ∧
      (∀ name, (Machine.run (code.map Instruction.text) : Except Fault (Machine ℚ)) = .error (.unsetRegister name) ↔
        p.execute (Operand.written longSource) = .error (.unsetRegister name)) ∧
      ((∀ name, p.execute (Operand.written longSource) ≠ .error (.unsetRegister name)) →
        ∃ (m : Machine ℚ) (o : Outcome ℚ), Machine.run (code.map Instruction.text) = .ok m ∧
          p.execute (Operand.written longSource) = .ok o ∧ m.outcome.printed = o.printed ∧
          ∀ name, name ≠ scratchRegister → m.outcome.registers.find? name = o.registers.find? name) := by
  have hcompile : (compile longSource).toOption.map (List.map Instruction.text) = some ["9007199254740993", "sb", "0 k", "lb",
      "5 k", "0.10", "+", "007.0", "-", "9007199254740993.0", "+", "sa", "0 k", "la", "p", "si"] := by
    decide +kernel
  obtain ⟨code, hcode, htext⟩ := exists_of_toOption hcompile
  exact ⟨code, hcode, htext, compile_exact longSource code hcode⟩

end Program

end AddingCalculator
