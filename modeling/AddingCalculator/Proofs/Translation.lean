import AddingCalculator.Code
import AddingCalculator.Proofs.Assignability

/-!
# The code of a program

The code of a program is the code of its statements, one behind the other. The right side of an assignment is coded
in the type of the assigned variable: operands are pushed or loaded in that type, and each operator stands behind
its second operand.
-/

namespace AddingCalculator

def Operator.sign : Operator → String
  | add => "+"
  | subtract => "-"

def Atom.text : Atom → String
  | name letter => String.singleton letter
  | literal value => value.text

section

variable (typeOf? : Char → Option DataType) (written : Operand → String)

def Operand.translation (x : Operand) : DataType → Option (List String)
  | .integer =>
    match x.atom with
    | .name letter => some ["l" ++ String.singleton letter]
    | .literal (.integer n) => some [toString n]
    | .literal (.decimal _) => none
  | .float =>
    match x.atom with
    | .name letter => (typeOf? letter).map fun
      | .integer => ["l" ++ String.singleton letter, "5 k"]
      | .float => ["l" ++ String.singleton letter]
    | .literal (.integer n) => some [toString n ++ ".0"]
    | .literal (.decimal _) => some [written x]

def Chain.translation (type : DataType) : Chain → Option (List String)
  | operand first => first.translation typeOf? written type
  | extend left o _ right => do
    let left ← left.translation type
    let right ← right.translation typeOf? written type
    return left ++ right ++ [o.sign]

def Statement.translation : Statement → Option (List String)
  | assign target value => do
    let type ← typeOf? target.letter
    let value ← value.translation typeOf? written type
    return value ++ ["s" ++ String.singleton target.letter, "0 k"]
  | print name _ => some ["l" ++ String.singleton name, "p", "si"]

end

def Program.translation (p : Program) (written : Operand → String) : Option (List String) :=
  (p.statements.mapM (Statement.translation p.typeOf? written)).map List.flatten

def Tree.HasCode (t : TypedTree) (code : Code) : Prop :=
  ∀ rest, t.codeBefore rest = .ok (code ++ rest)

namespace Tree

theorem HasCode.compute {l r : TypedTree} {lc rc : Code} (hl : l.HasCode lc) (hr : r.HasCode rc) (type : Option DataType)
    (o : Operator) : HasCode (.node type (.compute o l r)) (lc ++ rc ++ [.compute o]) := by
  intro rest
  rw [codeBefore, bind_eq_ok]
  refine ⟨rc ++ .compute o :: rest, hr _, ?_⟩
  rw [hl]
  simp

theorem HasCode.convert {t : TypedTree} {code : Code} (h : t.HasCode code) (type : Option DataType) :
    HasCode (.node type (.convert t)) (code ++ [.precision floatPrecision]) := by
  intro rest
  rw [codeBefore, h]
  simp

theorem HasCode.assign {v : TypedTree} {code : Code} (h : v.HasCode code) (type type' : Option DataType) (name : Char) :
    HasCode (.node type (.assign (.node type' (.reference name)) v)) (code ++ [.store name, .precision 0]) := by
  intro rest
  rw [codeBefore, bind_eq_ok]
  refine ⟨name, rfl, ?_⟩
  rw [h]
  simp

theorem HasCode.program {ts : List TypedTree} {codes : List Code} (h : List.Forall₂ HasCode ts codes)
    (type : Option DataType) : HasCode (.node type (.program ts)) codes.flatten := by
  intro rest
  rw [codeBefore]
  induction h with
  | nil => rfl
  | @cons t code ts codes h _ ih =>
    rw [codeAllBefore, bind_eq_ok]
    refine ⟨codes.flatten ++ rest, ih, ?_⟩
    rw [h, List.flatten_cons, List.append_assoc]

end Tree

section

variable {table : SymbolTable} {typeOf? : Char → Option DataType} {written : Operand → String}
  (htable : ∀ name, table.types.find? name = typeOf? name)

include htable

theorem Operand.exists_code {x : Operand} {k : NodeId}
    {t : Tree Stamp} {type : DataType} (h : Tree.Decorates true (x.stamped k) t) (ht : t.Typed table)
    (htype : t.label.type = some type) (hw : ∀ d, x.atom = .literal (.decimal d) → d.text = written x) :
    ∃ code, t.types.HasCode code ∧ x.translation typeOf? written type = some (code.map Instruction.text) := by
  obtain ⟨atom, span⟩ := x
  cases atom with
  | name letter =>
    cases h with
    | reference =>
      obtain ⟨found, hfound, hletter⟩ := ht.inv.1
      obtain rfl : found = type := Option.some.inj (hfound.symm.trans htype)
      rw [SymbolTable.typeOf_eq_ok, htable] at hletter
      refine ⟨[.load letter], fun rest => rfl, ?_⟩
      cases found with
      | integer => rfl
      | float =>
        simp only [translation, hletter]
        rfl
    | converted =>
      obtain rfl : DataType.float = type := Option.some.inj htype
      obtain ⟨found, hfound, hletter⟩ := (ht.inv.2 _ List.mem_cons_self).inv.1
      obtain rfl : DataType.integer = found := Option.some.inj hfound
      rw [SymbolTable.typeOf_eq_ok, htable] at hletter
      refine ⟨[.load letter, .precision floatPrecision], fun rest => rfl, ?_⟩
      simp only [translation, hletter]
      rfl
  | literal value =>
    cases h with
    | constant =>
      have hvalue : some type = some value.type := htype.symm.trans ht.inv.1
      cases value with
      | integer n =>
        cases hvalue
        exact ⟨[.push (.integer n)], fun rest => rfl, rfl⟩
      | decimal d =>
        cases hvalue
        refine ⟨[.push (.decimal d)], fun rest => rfl, ?_⟩
        simp only [translation, ← hw d rfl]
        rfl
    | @widened _ _ n =>
      obtain rfl : DataType.float = type := Option.some.inj htype
      exact ⟨[.push (.decimal (.ofInt n))], fun rest => rfl, rfl⟩

theorem Chain.exists_code {c : Chain} {k : NodeId}
    {t : Tree Stamp} {type : DataType} (h : Tree.Decorates true (c.stamped k) t) (ht : t.Typed table)
    (htype : t.label.type = some type)
    (hw : ∀ x ∈ c.operands, ∀ d, x.atom = .literal (.decimal d) → d.text = written x) :
    ∃ code, t.types.HasCode code ∧ c.translation typeOf? written type = some (code.map Instruction.text) := by
  induction c generalizing t with
  | operand first => exact first.exists_code htable h ht htype (hw first (by simp [operands]))
  | extend left o span right ih =>
    cases h with
    | @compute _ _ _ _ _ l _ r hl hr =>
      obtain ⟨⟨found, hfound, hltype, hrtype⟩, hbelow⟩ := ht.inv
      obtain rfl : found = type := Option.some.inj (hfound.symm.trans htype)
      obtain ⟨lc, hlc, hlt⟩ := ih hl (hbelow l (by simp [Construct.children])) hltype fun x hx =>
        hw x (by simp [operands, hx])
      obtain ⟨rc, hrc, hrt⟩ := right.exists_code htable hr (hbelow r (by simp [Construct.children])) hrtype
        (hw right (by simp [operands]))
      refine ⟨lc ++ rc ++ [.compute o], ?_, ?_⟩
      · rw [Tree.types_node]
        exact hlc.compute hrc _ o
      · rw [translation, hlt, hrt]
        cases o <;> simp [Instruction.text, Operator.sign]

theorem Statement.exists_code {s : Statement} {k : NodeId}
    {t : Tree Stamp} (h : Tree.Decorates false (s.stamped k) t) (ht : t.Typed table)
    (hw : ∀ target value, s = .assign target value → ∀ x ∈ value.operands, ∀ d, x.atom = .literal (.decimal d) →
      d.text = written x) :
    ∃ code, t.types.HasCode code ∧ s.translation typeOf? written = some (code.map Instruction.text) := by
  cases s with
  | print name span =>
    cases h with
    | print => exact ⟨[.load name, .print, .store scratchRegister], fun rest => rfl, rfl⟩
  | assign target value =>
    cases h with
    | @assign _ _ _ _ t _ v htarget hvalue =>
      cases htarget with
      | reference =>
        obtain ⟨⟨type, -, htype, hvtype⟩, hbelow⟩ := ht.inv
        obtain ⟨found, hfound, hletter⟩ := (hbelow _ List.mem_cons_self).inv.1
        obtain rfl : found = type := Option.some.inj (hfound.symm.trans htype)
        rw [SymbolTable.typeOf_eq_ok, htable] at hletter
        obtain ⟨code, hcode, htranslation⟩ := Chain.exists_code htable hvalue (hbelow v (by simp [Construct.children]))
          hvtype (hw target value rfl)
        refine ⟨code ++ [.store target.letter, .precision 0], ?_, ?_⟩
        · rw [Tree.types_node]
          exact hcode.assign _ _ _
        · rw [List.map_append, translation, hletter, Option.bind_eq_bind, Option.bind_some, htranslation]
          rfl

end

theorem exists_append_of_forall₂ {α β : Type} {R : α → β → Prop} {xs ys : List α} {zs : List β}
    (h : List.Forall₂ R (xs ++ ys) zs) : ∃ us vs, zs = us ++ vs ∧ List.Forall₂ R xs us ∧ List.Forall₂ R ys vs := by
  have hflip := h.flip
  exact ⟨zs.take xs.length, zs.drop xs.length, (List.take_append_drop _ _).symm,
    (List.forall₂_take_append _ _ _ hflip).flip, (List.forall₂_drop_append _ _ _ hflip).flip⟩

namespace Program

variable {p : Program} {table : SymbolTable} {written : Operand → String}

theorem exists_codes_declarations {k : NodeId} {ds : List Declaration} {ts : List (Tree Stamp)}
    (h : List.Forall₂ (Tree.Decorates false) (stampAll (fun _ => 2) Declaration.stamped k ds) ts) :
    ∃ codes, List.Forall₂ Tree.HasCode (ts.map Tree.types) codes ∧ codes.flatten = [] := by
  induction ds generalizing k ts with
  | nil =>
    cases h
    exact ⟨[], .nil, rfl⟩
  | cons d ds ih =>
    cases h with
    | cons hd hs =>
      obtain ⟨codes, hcodes, hempty⟩ := ih hs
      cases hd with
      | declaration hd => exact ⟨[] :: codes, .cons (fun rest => rfl) hcodes, hempty⟩

theorem exists_codes_statements (htable : ∀ name, table.types.find? name = p.typeOf? name) {k : NodeId}
    {ss : List Statement} {ts : List (Tree Stamp)}
    (h : List.Forall₂ (Tree.Decorates false) (stampAll Statement.count Statement.stamped k ss) ts)
    (ht : ∀ t ∈ ts, t.Typed table)
    (hw : ∀ target value, .assign target value ∈ ss → ∀ x ∈ value.operands, ∀ d, x.atom = .literal (.decimal d) →
      d.text = written x) :
    ∃ codes, List.Forall₂ Tree.HasCode (ts.map Tree.types) codes ∧
      ss.mapM (Statement.translation p.typeOf? written) = some (codes.map (List.map Instruction.text)) := by
  induction ss generalizing k ts with
  | nil =>
    cases h
    exact ⟨[], .nil, rfl⟩
  | cons s ss ih =>
    cases h with
    | cons hs hss =>
      obtain ⟨code, hcode, htranslation⟩ := Statement.exists_code htable hs (ht _ List.mem_cons_self)
        fun target value heq => hw target value (heq ▸ List.mem_cons_self)
      obtain ⟨codes, hcodes, htranslations⟩ := ih hss (fun t hmem => ht t (List.mem_cons_of_mem _ hmem))
        fun target value hmem => hw target value (List.mem_cons_of_mem _ hmem)
      refine ⟨code :: codes, .cons hcode hcodes, ?_⟩
      rw [List.mapM_cons, htranslation, htranslations]
      rfl

theorem exists_code (htable : ∀ name, table.types.find? name = p.typeOf? name) {t : Tree Stamp}
    (h : Tree.Decorates false p.stamped t) (ht : t.Typed table)
    (hw : ∀ target value, .assign target value ∈ p.statements → ∀ x ∈ value.operands, ∀ d,
      x.atom = .literal (.decimal d) → d.text = written x) :
    ∃ code, t.types.code = .ok code ∧ p.translation written = some (code.map Instruction.text) := by
  obtain ⟨ts, rfl, hts⟩ := h.exists_program
  obtain ⟨ds, ss, rfl, hds, hss⟩ := exists_append_of_forall₂ hts
  obtain ⟨codes, hcodes, hempty⟩ := exists_codes_declarations hds
  obtain ⟨codes', hcodes', htranslation⟩ := exists_codes_statements htable hss
    (fun t hmem => ht.inv.2 t (List.mem_append_right ds hmem)) hw
  refine ⟨(codes ++ codes').flatten, ?_, ?_⟩
  · have hall : List.Forall₂ Tree.HasCode ((ds ++ ss).map Tree.types) (codes ++ codes') := by
      rw [List.map_append]
      exact List.rel_append hcodes hcodes'
    have hcode := Tree.HasCode.program hall none []
    rw [List.append_nil] at hcode
    rw [Tree.types_node]
    exact hcode
  · rw [translation, htranslation, List.flatten_append, hempty, Option.map_some, List.nil_append, List.map_flatten]

end Program

end AddingCalculator
