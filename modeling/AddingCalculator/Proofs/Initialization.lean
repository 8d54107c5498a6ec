import AddingCalculator.Proofs.Execution

/-!
# Reading before assigning

Compiled code fails only where a statement reads a variable that no statement before it assigns, and it fails on
every such statement. Which registers are set does not depend on the values in them, so it can be followed through
the statements.
-/

namespace AddingCalculator

def Statement.reads : Statement → List Char
  | assign _ value => value.operands.filterMap fun x => x.atom.name?
  | print name _ => [name]

def Statement.assigned? : Statement → Option Char
  | assign target _ => some target.letter
  | print _ _ => none

def Program.ReadsUnset (p : Program) (name : Char) : Prop :=
  ∃ before s behind, p.statements = before ++ s :: behind ∧ name ∈ s.reads ∧ ∀ s' ∈ before, s'.assigned? ≠ some name

namespace Outcome

variable {α β γ : Type}

def IsSet (o : Outcome α) (name : Char) : Prop :=
  (o.registers.find? name).isSome

/-- A computation that needs the values of `names` succeeds if they are set, and otherwise fails at one that is not. -/
def Needs (o : Outcome α) (names : List Char) (x : Except Fault β) : Prop :=
  ((∃ b, x = .ok b) ∧ ∀ name ∈ names, o.IsSet name) ∨
    ∃ name ∈ names, x = .error (.unsetRegister name) ∧ ¬ o.IsSet name

theorem Needs.ok (o : Outcome α) (b : β) : o.Needs [] (.ok b) :=
  .inl ⟨⟨b, rfl⟩, by simp⟩

theorem Needs.bind {o : Outcome α} {names names' : List Char} {x : Except Fault β} {f : β → Except Fault γ}
    (hx : o.Needs names x) (hf : ∀ b, o.Needs names' (f b)) : o.Needs (names ++ names') (x >>= f) := by
  rcases hx with ⟨⟨b, rfl⟩, hset⟩ | ⟨name, hname, rfl, hunset⟩
  · rcases hf b with ⟨⟨c, hc⟩, hset'⟩ | ⟨name, hname, herror, hunset⟩
    · exact .inl ⟨⟨c, hc⟩, List.forall_mem_append.mpr ⟨hset, hset'⟩⟩
    · exact .inr ⟨name, List.mem_append_right _ hname, herror, hunset⟩
  · exact .inr ⟨name, List.mem_append_left _ hname, rfl, hunset⟩

theorem read_needs (o : Outcome α) (name : Char) : o.Needs [name] (o.read name) := by
  unfold read
  cases h : o.registers.find? name with
  | some x => exact .inl ⟨⟨x, rfl⟩, by simp [IsSet, h]⟩
  | none => exact .inr ⟨name, List.mem_singleton_self name, rfl, by simp [IsSet, h]⟩

theorem isSet_assign (o : Outcome α) (name name' : Char) (x : α) :
    (o.assign name x).IsSet name' ↔ name = name' ∨ o.IsSet name' := by
  unfold IsSet
  rw [assign, SortedMap.find?_insert]
  by_cases h : name = name' <;> simp [h]

end Outcome

section

variable {α : Type} [Arithmetic α]

theorem Operand.needs (x : Operand) (o : Outcome α) : o.Needs x.atom.name?.toList (x.tree.evaluate o) := by
  unfold tree
  cases x.atom with
  | name letter =>
    simp only [Atom.leaf, Tree.evaluate]
    exact o.read_needs letter
  | literal value =>
    simp only [Atom.leaf, Tree.evaluate]
    exact .ok o _

theorem Chain.needs (c : Chain) (o : Outcome α) :
    o.Needs (c.operands.filterMap fun x => x.atom.name?) (c.tree.evaluate o) := by
  have hnames (x : Operand) : [x].filterMap (fun x => x.atom.name?) = x.atom.name?.toList := by
    cases h : x.atom.name? <;> simp [h]
  induction c with
  | operand first =>
    rw [operands, hnames]
    exact first.needs o
  | extend left operator span right ih =>
    have hright (x : α) : o.Needs (right.atom.name?.toList ++ [])
        (right.tree.evaluate o >>= fun y => .ok (operator.apply x y)) := (right.needs o).bind fun y => .ok o _
    rw [operands, List.filterMap_append, hnames, tree, Tree.evaluate, ← List.append_nil right.atom.name?.toList]
    exact ih.bind hright

theorem Statement.needs (s : Statement) (o : Outcome α) : o.Needs s.reads (o.perform s) := by
  cases s with
  | assign target value =>
    rw [reads, ← List.append_nil (value.operands.filterMap _)]
    exact (value.needs o).bind fun x => .ok o (o.assign target.letter x)
  | print name span =>
    rw [reads, ← List.append_nil [name]]
    exact (o.read_needs name).bind fun x => .ok o (o.print x)

theorem Statement.isSet_perform {s : Statement} {o o' : Outcome α} (h : o.perform s = .ok o') (name : Char) :
    o'.IsSet name ↔ s.assigned? = some name ∨ o.IsSet name := by
  cases s with
  | assign target value =>
    obtain ⟨x, -, hx⟩ := bind_eq_ok.mp h
    cases hx
    simp only [o.isSet_assign, assigned?, Option.some.injEq]
  | print printed span =>
    obtain ⟨x, -, hx⟩ := bind_eq_ok.mp h
    cases hx
    simp only [assigned?, reduceCtorEq, false_or]
    rfl

theorem isSet_foldlM {ss : List Statement} {o o' : Outcome α} (h : ss.foldlM Outcome.perform o = .ok o')
    (name : Char) : o'.IsSet name ↔ (∃ s ∈ ss, s.assigned? = some name) ∨ o.IsSet name := by
  induction ss generalizing o with
  | nil =>
    cases h
    simp
  | cons s ss ih =>
    obtain ⟨o₁, ho₁, hrest⟩ := bind_eq_ok.mp h
    rw [ih hrest, Statement.isSet_perform ho₁, List.exists_mem_cons_iff, or_left_comm, or_assoc]

theorem isSet_foldlM_empty {ss : List Statement} {o : Outcome α}
    (h : ss.foldlM Outcome.perform .empty = .ok o) (name : Char) :
    o.IsSet name ↔ ∃ s ∈ ss, s.assigned? = some name := by
  have hempty : ¬ (Outcome.empty : Outcome α).IsSet name := nofun
  rw [isSet_foldlM h, or_iff_left hempty]

theorem Program.run_cases (p : Program) :
    ((∃ o : Outcome α, p.tree.run = .ok o) ∧ ∀ name, ¬ p.ReadsUnset name) ∨
      ∃ name, (p.tree.run : Except Fault (Outcome α)) = .error (.unsetRegister name) ∧ p.ReadsUnset name := by
  rw [run_statements]
  cases hrun : p.statements.foldlM Outcome.perform (.empty : Outcome α) with
  | error f =>
    obtain ⟨before, s, behind, o, hsplit, ho, hs⟩ := exists_of_foldlM_error hrun
    rcases s.needs o with ⟨⟨o', ho'⟩, -⟩ | ⟨name, hname, herror, hunset⟩
    · rw [ho'] at hs
      cases hs
    · rw [herror] at hs
      cases hs
      refine .inr ⟨name, rfl, before, s, behind, hsplit, hname, fun s' hs' hassigned => hunset ?_⟩
      exact (isSet_foldlM_empty ho name).mpr ⟨s', hs', hassigned⟩
  | ok o =>
    refine .inl ⟨⟨o, rfl⟩, ?_⟩
    rintro name ⟨before, s, behind, hsplit, hname, hnone⟩
    rw [hsplit] at hrun
    obtain ⟨o₁, ho₁, hrest⟩ := foldlM_append_eq_ok.mp hrun
    obtain ⟨o₂, ho₂, -⟩ := bind_eq_ok.mp hrest
    rcases s.needs o₁ with ⟨-, hset⟩ | ⟨name', -, herror, -⟩
    · obtain ⟨s', hs', hassigned⟩ := (isSet_foldlM_empty ho₁ name).mp (hset name hname)
      exact hnone s' hs' hassigned
    · rw [herror] at ho₂
      cases ho₂

end

namespace Program

theorem compile_fails_iff (source : String) (code : Code) (h : compile source = .ok code) :
    ∃ ts p, Token.scan source = .ok ts ∧ Grammar.Derives (ts ++ [closingToken ts]) p ∧
      ((∃ f, (Machine.run (code.map Instruction.text) : Except Fault (Machine Binary64)) = .error f) ↔
        ∃ name, p.ReadsUnset name) ∧
      ∀ f, (Machine.run (code.map Instruction.text) : Except Fault (Machine Binary64)) = .error f →
        ∃ name, f = .unsetRegister name ∧ p.ReadsUnset name := by
  obtain ⟨s, hs, hrun, -⟩ := run_compiled h Binary64
  obtain ⟨ts, p, hts, hp, rfl⟩ := parse_eq_ok.mp hs
  have hstore : (p.store.run : Except Fault (Outcome Binary64)) = p.tree.run := by
    rw [Store.run, p.tree?_store]
  rw [hrun, hstore]
  refine ⟨ts, p, hts, ofTokens_iff_derives.mp hp, ?_⟩
  rcases p.run_cases (α := Binary64) with ⟨⟨o, ho⟩, hnone⟩ | ⟨name, hname, hunset⟩
  · rw [ho]
    exact ⟨⟨nofun, fun ⟨name, hname⟩ => absurd hname (hnone name)⟩, nofun⟩
  · rw [hname]
    refine ⟨⟨fun _ => ⟨name, hunset⟩, fun _ => ⟨_, rfl⟩⟩, fun f hf => ?_⟩
    cases hf
    exact ⟨name, rfl, hunset⟩

def lateSource : String := "i a f b b = 2. p b $ b = 1 - a a = 3 $"

theorem compile_fails_iff_lateSource : ∃ code, compile lateSource = .ok code ∧
    code.map Instruction.text = ["2.0", "sb", "0 k", "lb", "p", "si", "1.0", "la", "5 k", "-", "sb", "0 k", "3", "sa", "0 k"] ∧
    ∃ ts p, Token.scan lateSource = .ok ts ∧ Grammar.Derives (ts ++ [closingToken ts]) p ∧
      ((∃ f, (Machine.run (code.map Instruction.text) : Except Fault (Machine Binary64)) = .error f) ↔
        ∃ name, p.ReadsUnset name) ∧
      ∀ f, (Machine.run (code.map Instruction.text) : Except Fault (Machine Binary64)) = .error f →
        ∃ name, f = .unsetRegister name ∧ p.ReadsUnset name := by
  have hcompile : (compile lateSource).toOption.map (List.map Instruction.text) =
      some ["2.0", "sb", "0 k", "lb", "p", "si", "1.0", "la", "5 k", "-", "sb", "0 k", "3", "sa", "0 k"] := by
    decide +kernel
  obtain ⟨code, hcode, htext⟩ := exists_of_toOption hcompile
  exact ⟨code, hcode, htext, compile_fails_iff lateSource code hcode⟩

end Program

end AddingCalculator
