import AddingCalculator.Proofs.SourceText
import AddingCalculator.Proofs.Translation
import AddingCalculator.Proofs.TypingSimulation

namespace AddingCalculator

namespace Program

def atomType? (p : Program) : Atom → Option DataType
  | .name letter => p.typeOf? letter
  | .literal value => some value.type

def Narrows (p : Program) : Prop :=
  ∃ target value, .assign target value ∈ p.statements ∧ p.typeOf? target.letter = some .integer ∧
    ∃ x ∈ value.operands, p.atomType? x.atom = some .float

theorem atomType?_eq {p : Program} {table : SymbolTable} (h : ∀ name, table.types.find? name = p.typeOf? name)
    (atom : Atom) : table.atomType? atom = p.atomType? atom := by
  cases atom with
  | name letter => exact h letter
  | literal value => rfl

theorem narrows_iff {p : Program} {table : SymbolTable} (h : ∀ name, table.types.find? name = p.typeOf? name) :
    (∃ s ∈ p.statements, s.Narrows table) ↔ p.Narrows := by
  constructor
  · rintro ⟨s, hs, hn⟩
    cases s with
    | print name span => exact hn.elim
    | assign target value =>
      simp only [Statement.Narrows, h, atomType?_eq h] at hn
      exact ⟨target, value, hs, hn⟩
  · rintro ⟨target, value, hs, hn⟩
    refine ⟨_, hs, ?_⟩
    simpa only [Statement.Narrows, h, atomType?_eq h] using hn

theorem typeOf?_of_mentioned {p : Program} (h : p.undeclared? = none) {name : Char} (hname : name ∈ p.mentions) :
    (p.typeOf? name).isSome := by
  have hnone := List.find?_eq_none.mp h name hname
  simpa [Option.isNone_iff_eq_none, ← Option.isSome_iff_ne_none] using hnone

theorem declared_statements {p : Program} {table : SymbolTable} (h : ∀ name, table.types.find? name = p.typeOf? name)
    (hu : p.undeclared? = none) : ∀ s ∈ p.statements, s.Declared table := by
  intro s hs
  have hname (name : Char) (hname : name ∈ s.names) : (table.types.find? name).isSome := by
    rw [h]
    exact typeOf?_of_mentioned hu (mem_mentions hs hname)
  cases s with
  | print name span => exact hname name List.mem_cons_self
  | assign target value =>
    refine ⟨hname target.letter List.mem_cons_self, fun x hx => ?_⟩
    cases hatom : x.atom with
    | literal value => rfl
    | name letter =>
      refine hname letter (List.mem_cons_of_mem _ (List.mem_filterMap.mpr ⟨x, hx, ?_⟩))
      rw [hatom, Atom.name?]

theorem analyse_of_faulty {p : Program} {d : Declaration} (h : p.faulty? = some d) :
    p.store.analyse = .error d.fault := by
  obtain ⟨table, hrun, -⟩ := p.collect_store
  rw [h] at hrun
  unfold Store.analyse
  rw [hrun]

theorem analyse_of_undeclared {p : Program} (h : p.faulty? = none) {name : Char} (hu : p.undeclared? = some name) :
    p.store.analyse = .error (.undeclaredName name) := by
  obtain ⟨table, hrun, -⟩ := p.collect_store
  rw [h, hu] at hrun
  unfold Store.analyse
  rw [hrun]

theorem analyse_eq {p : Program} (h : p.faulty? = none) (hu : p.undeclared? = none) :
    ∃ table s, (∀ name, table.types.find? name = p.typeOf? name) ∧
      p.store.analyse = ((p.stamped.infer table p.store.size).result.map fun _ => ⟨s, table⟩) ∧
      s.tree? = some (p.stamped.infer table p.store.size).tree.types := by
  obtain ⟨table, hrun, htable⟩ := p.collect_store
  obtain ⟨s, hfind, hstep⟩ := p.store_keeps.findTypes rfl table
  refine ⟨table, s, htable h, ?_, hstep.holds.tree? ?_⟩
  · rw [h, hu] at hrun
    unfold Store.analyse
    rw [hrun]
    dsimp only
    rw [hfind]
    cases (p.stamped.infer table p.store.size).result <;> rfl
  · rw [Tree.infer_id]
    rfl

theorem infer_verdict {p : Program} {table : SymbolTable} (htable : ∀ name, table.types.find? name = p.typeOf? name)
    (hu : p.undeclared? = none) (k : NodeId) :
    (p.Narrows → (p.stamped.infer table k).result = .error (.illegalConversion .float .integer)) ∧
      (¬ p.Narrows → (p.stamped.infer table k).result = .ok none) := by
  have hd (d : Declaration) (hd : d ∈ p.declarations) : (table.types.find? d.target.letter).isSome := by
    rw [htable, typeOf?, Option.isSome_map, List.find?_isSome]
    exact ⟨d, hd, decide_eq_true rfl⟩
  obtain ⟨herror, hok⟩ := infer_stamped hd (declared_statements htable hu) k
  refine ⟨fun hn => herror ((narrows_iff htable).mpr hn), fun hn => hok fun s hs hs' => hn ?_⟩
  exact (narrows_iff htable).mp ⟨s, hs, hs'⟩

theorem analyse_of_narrows {p : Program} (h : p.faulty? = none) (hu : p.undeclared? = none) (hn : p.Narrows) :
    p.store.analyse = .error (.illegalConversion .float .integer) := by
  obtain ⟨table, s, htable, hanalyse, -⟩ := analyse_eq h hu
  rw [hanalyse, (infer_verdict htable hu _).1 hn]
  rfl

structure Passes (p : Program) (a : Analysis) (t : Tree Stamp) : Prop where
  types : ∀ name, a.table.types.find? name = p.typeOf? name
  tree : a.store.tree? = some t.types
  decorates : Tree.Decorates false p.stamped t
  typed : t.Typed a.table

theorem exists_passes {p : Program} (h : p.faulty? = none) (hu : p.undeclared? = none) (hn : ¬ p.Narrows) :
    ∃ a t, p.store.analyse = .ok a ∧ p.Passes a t := by
  obtain ⟨table, s, htable, hanalyse, htree⟩ := analyse_eq h hu
  have hresult := (infer_verdict htable hu p.store.size).2 hn
  refine ⟨⟨s, table⟩, _, ?_, htable, htree, Tree.infer_decorates _ _ _, (Tree.infer_typed hresult).1⟩
  rw [hanalyse, hresult]
  rfl

theorem analyse_cases (p : Program) :
    (∃ d : Declaration, p.store.analyse = .error d.fault) ∨ (∃ name, p.store.analyse = .error (.undeclaredName name)) ∨
      p.store.analyse = .error (.illegalConversion .float .integer) ∨
      p.faulty? = none ∧ p.undeclared? = none ∧ ¬ p.Narrows ∧ ∃ a t, p.store.analyse = .ok a ∧ p.Passes a t := by
  cases hf : p.faulty? with
  | some d => exact .inl ⟨d, analyse_of_faulty hf⟩
  | none =>
    cases hu : p.undeclared? with
    | some name => exact .inr (.inl ⟨name, analyse_of_undeclared hf hu⟩)
    | none =>
      by_cases hn : p.Narrows
      · exact .inr (.inr (.inl (analyse_of_narrows hf hu hn)))
      · exact .inr (.inr (.inr ⟨rfl, rfl, hn, exists_passes hf hu hn⟩))

theorem passes_of_analyse {p : Program} {a : Analysis} (h : p.store.analyse = .ok a) :
    p.faulty? = none ∧ p.undeclared? = none ∧ ¬ p.Narrows ∧ ∃ t, p.Passes a t := by
  rcases p.analyse_cases with ⟨d, he⟩ | ⟨name, he⟩ | he | ⟨hf, hu, hn, a', t, ha, ht⟩
  · rw [he] at h
    cases h
  · rw [he] at h
    cases h
  · rw [he] at h
    cases h
  · rw [ha] at h
    cases h
    exact ⟨hf, hu, hn, t, ht⟩

theorem Passes.exists_code {p : Program} {a : Analysis} {t : Tree Stamp} (h : p.Passes a t) {written : Operand → String}
    (hw : ∀ target value, .assign target value ∈ p.statements → ∀ x ∈ value.operands, ∀ d,
      x.atom = .literal (.decimal d) → d.text = written x) :
    ∃ code, a.store.code = .ok code ∧ p.translation written = some (code.map Instruction.text) := by
  obtain ⟨code, hcode, htranslation⟩ := Program.exists_code h.types h.decorates h.typed hw
  refine ⟨code, ?_, htranslation⟩
  unfold Store.code
  rw [h.tree]
  exact hcode

theorem Passes.code_eq_ok {p : Program} {a : Analysis} {t : Tree Stamp} (h : p.Passes a t) :
    ∃ code, a.store.code = .ok code := by
  have hwritten (x : Operand) (d : Decimal) (hd : x.atom = .literal (.decimal d)) : d.text = x.atom.text := by
    rw [hd]
    rfl
  obtain ⟨code, hcode, -⟩ := h.exists_code fun _ _ _ x _ => hwritten x
  exact ⟨code, hcode⟩

theorem typeOf?_eq_some {p : Program} (h : p.faulty? = none) {name : Char} {type : DataType} :
    p.typeOf? name = some type ↔ ∃ d ∈ p.declarations, d.target.letter = name ∧ d.type = type := by
  constructor
  · intro htype
    obtain ⟨d, hd, rfl⟩ := Option.map_eq_some_iff.mp htype
    exact ⟨d, List.mem_of_find?_eq_some hd, by simpa using List.find?_some hd, rfl⟩
  · rintro ⟨d, hd, rfl, rfl⟩
    exact (declared_of_faultless h hd).2

/-- What the analysis of a program gives: the first faulty declaration, or else the first mention of an undeclared
name, or else the assignment of a float to an integer variable, or else the declared types and a tree that has code.
-/
def Verdict (p : Program) (result : Except Diagnostic Analysis) : Prop :=
  match p.faulty?, p.undeclared? with
  | some d, _ => result = .error d.fault
  | none, some name => result = .error (.undeclaredName name)
  | none, none =>
    (p.Narrows → result = .error (.illegalConversion .float .integer)) ∧
    (¬ p.Narrows → ∃ a, result = .ok a ∧
      (∀ name type, a.table.types.find? name = some type ↔
        ∃ d ∈ p.declarations, d.target.letter = name ∧ d.type = type) ∧
      ∃ code, Target.dc.code a.store = .ok code)

theorem analysis_verdict (ts : List Token) (s : Store) (h : (ofTokens ts).map store = .ok s) :
    ∃ p, Grammar.Derives (ts ++ [closingToken ts]) p ∧ p.Verdict s.analyse := by
  obtain ⟨p, hp, rfl⟩ := map_eq_ok.mp h
  refine ⟨p, ofTokens_iff_derives.mp hp, ?_⟩
  unfold Verdict
  split
  · rename_i d _ hd
    exact analyse_of_faulty hd
  · rename_i name hf hu
    exact analyse_of_undeclared hf hu
  · rename_i hf hu
    refine ⟨analyse_of_narrows hf hu, fun hn => ?_⟩
    obtain ⟨a, t, ha, hpasses⟩ := exists_passes hf hu hn
    have hwritten (x : Operand) (d : Decimal) (hd : x.atom = .literal (.decimal d)) : d.text = x.atom.text := by
      rw [hd]
      rfl
    obtain ⟨code, hcode, -⟩ := hpasses.exists_code fun _ _ _ x _ => hwritten x
    refine ⟨a, ha, fun name type => ?_, code, hcode⟩
    rw [hpasses.types, typeOf?_eq_some hf]

def undeclaredChain : List Token :=
  [⟨.integerDeclaration, none, .origin⟩, ⟨.name, some (.name 'a'), .origin⟩, ⟨.name, some (.name 'a'), .origin⟩,
    ⟨.assign, none, .origin⟩, ⟨.name, some (.name 'x'), .origin⟩, ⟨.plus, none, .origin⟩,
    ⟨.name, some (.name 'y'), .origin⟩, ⟨.minus, none, .origin⟩, ⟨.name, some (.name 'z'), .origin⟩]

theorem analysis_verdict_undeclaredChain : ∃ s, (ofTokens undeclaredChain).map store = .ok s ∧
    ∃ p, Grammar.Derives (undeclaredChain ++ [closingToken undeclaredChain]) p ∧ p.Verdict s.analyse :=
  ⟨_, rfl, analysis_verdict undeclaredChain _ rfl⟩

theorem compile_eq_ok {source : String} {code : Code} (h : compile source = .ok code) :
    ∃ ts p a, Token.scan source = .ok ts ∧ ofTokens ts = .ok p ∧ p.store.analyse = .ok a ∧ a.store.code = .ok code := by
  obtain ⟨s, hs, h⟩ := bind_eq_ok.mp h
  obtain ⟨a, ha, hcode⟩ := bind_eq_ok.mp h
  obtain ⟨ts, p, hts, hp, rfl⟩ := parse_eq_ok.mp hs
  exact ⟨ts, p, a, hts, hp, ha, hcode⟩

theorem compile_translates (source : String) (code : Code) (h : compile source = .ok code) :
    ∃ ts p, Token.scan source = .ok ts ∧ Grammar.Derives (ts ++ [closingToken ts]) p ∧
      p.translation (Operand.emitted source) = some (code.map Instruction.text) := by
  obtain ⟨ts, p, a, hts, hp, ha, hcode⟩ := compile_eq_ok h
  obtain ⟨-, -, -, t, hpasses⟩ := passes_of_analyse ha
  have hderives := ofTokens_iff_derives.mp hp
  obtain ⟨code', hcode', htranslation⟩ := hpasses.exists_code fun _ _ hs x hx d hd => text_operand hts hderives hs hx hd
  rw [hcode] at hcode'
  cases hcode'
  exact ⟨ts, p, hts, hderives, htranslation⟩

def mixedSource : String := "f a i b b = 7 a = b + 2. - 3 p a $"

theorem compile_mixedSource : (compile mixedSource).toOption.map (List.map Instruction.text) =
    some ["7", "sb", "0 k", "lb", "5 k", "2.0", "+", "3.0", "-", "sa", "0 k", "la", "p", "si"] := by
  decide +kernel

theorem compile_translates_mixedSource : ∃ code, compile mixedSource = .ok code ∧
    ∃ ts p, Token.scan mixedSource = .ok ts ∧ Grammar.Derives (ts ++ [closingToken ts]) p ∧
      p.translation (Operand.emitted mixedSource) = some (code.map Instruction.text) := by
  obtain ⟨code, hcode, -⟩ := exists_of_toOption compile_mixedSource
  exact ⟨code, hcode, compile_translates mixedSource code hcode⟩

end Program

end AddingCalculator
