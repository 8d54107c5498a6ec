import AddingCalculator.Evaluation
import AddingCalculator.Proofs.TypeSoundness

namespace AddingCalculator

namespace Tree

/-- The second tree is the first one with other types, some integers widened, and some references below operands
converted. The flag says whether the tree is an operand, so that a reference in its place may be converted. -/
inductive Decorates : Bool → Tree Stamp → Tree Stamp → Prop
  | nil {b : Bool} {m : Stamp} : Decorates b (.node m (.program [])) (.node m (.program []))
  | cons {b : Bool} {m : Stamp} {t t' : Tree Stamp} {ts ts' : List (Tree Stamp)} (h : Decorates false t t')
      (hs : Decorates b (.node m (.program ts)) (.node m (.program ts'))) :
      Decorates b (.node m (.program (t :: ts))) (.node m (.program (t' :: ts')))
  | declaration {b : Bool} {m : Stamp} {type : Option DataType} {declared : DataType} {t t' : Tree Stamp}
      (h : Decorates false t t') :
      Decorates b (.node m (.declaration declared t)) (.node { m with type := type } (.declaration declared t'))
  | assign {b : Bool} {m : Stamp} {type : Option DataType} {t t' v v' : Tree Stamp} (h : Decorates false t t')
      (hv : Decorates true v v') :
      Decorates b (.node m (.assign t v)) (.node { m with type := type } (.assign t' v'))
  | compute {b : Bool} {m : Stamp} {type : Option DataType} {o : Operator} {l l' r r' : Tree Stamp}
      (hl : Decorates true l l') (hr : Decorates true r r') :
      Decorates b (.node m (.compute o l r)) (.node { m with type := type } (.compute o l' r'))
  | reference {b : Bool} {m : Stamp} {type : Option DataType} {name : Char} :
      Decorates b (.node m (.reference name)) (.node { m with type := type } (.reference name))
  | print {b : Bool} {m : Stamp} {type : Option DataType} {name : Char} :
      Decorates b (.node m (.print name)) (.node { m with type := type } (.print name))
  | constant {b : Bool} {m : Stamp} {type : Option DataType} {value : Literal} :
      Decorates b (.node m (.constant value)) (.node { m with type := type } (.constant value))
  | convert {b : Bool} {m : Stamp} {type : Option DataType} {t t' : Tree Stamp} (h : Decorates false t t') :
      Decorates b (.node m (.convert t)) (.node { m with type := type } (.convert t'))
  | widened {b : Bool} {m : Stamp} {n : ℤ} :
      Decorates b (.node m (.constant (.integer n))) (.node { m with type := some .float } (.constant (.decimal (.ofInt n))))
  | converted {m : Stamp} {name : Char} {k : NodeId} :
      Decorates true (.node m (.reference name))
        (.node ⟨k, m.span, some .float⟩ (.convert (.node { m with type := some .integer } (.reference name))))

theorem Decorates.refl (b : Bool) (t : Tree Stamp) : Decorates b t t := by
  induction t generalizing b with
  | node m c ih =>
    cases c with
    | program items =>
      induction items with
      | nil => exact .nil
      | cons item items iht =>
        exact .cons (ih item (by simp [Construct.children]) false)
          (iht fun t ht => ih t (by simpa [Construct.children] using .inr ht))
    | declaration type target => exact .declaration (ih target (by simp [Construct.children]) false)
    | assign target value =>
      exact .assign (ih target (by simp [Construct.children]) false) (ih value (by simp [Construct.children]) true)
    | compute o left right =>
      exact .compute (ih left (by simp [Construct.children]) true) (ih right (by simp [Construct.children]) true)
    | reference name => exact .reference
    | print name => exact .print
    | constant value => exact .constant
    | convert operand => exact .convert (ih operand (by simp [Construct.children]) false)

theorem Decorates.operand {b : Bool} {t t' : Tree Stamp} (h : Decorates b t t') : Decorates true t t' := by
  induction h with
  | nil => exact .nil
  | cons h _ _ ihs => exact .cons h ihs
  | declaration h => exact .declaration h
  | assign h hv => exact .assign h hv
  | compute hl hr => exact .compute hl hr
  | reference => exact .reference
  | print => exact .print
  | constant => exact .constant
  | convert h => exact .convert h
  | widened => exact .widened
  | converted => exact .converted

theorem Decorates.program_iff {b : Bool} {m : Stamp} {ts ts' : List (Tree Stamp)} :
    Decorates b (.node m (.program ts)) (.node m (.program ts')) ↔ List.Forall₂ (Decorates false) ts ts' := by
  constructor
  · intro h
    induction ts generalizing ts' with
    | nil =>
      cases h
      exact .nil
    | cons t ts ih =>
      cases h with
      | cons h hs => exact .cons h (ih hs)
  · intro h
    induction h with
    | nil => exact .nil
    | cons h _ ih => exact .cons h ih

theorem Decorates.exists_program {b : Bool} {m : Stamp} {ts : List (Tree Stamp)} {t : Tree Stamp}
    (h : Decorates b (.node m (.program ts)) t) :
    ∃ ts', t = .node m (.program ts') ∧ List.Forall₂ (Decorates false) ts ts' := by
  cases h with
  | nil => exact ⟨[], rfl, .nil⟩
  | cons h hs => exact ⟨_, rfl, .cons h (program_iff.mp hs)⟩

theorem Decorates.widenTo {table : SymbolTable} {b : Bool} {t t' : Tree Stamp} (h : Decorates b t t')
    (ht : t'.Typed table) (target : DataType) (k : NodeId) : Decorates true t (t'.widenTo target k).tree := by
  induction t' generalizing b t k with
  | node m c ih =>
    obtain ⟨hat, hbelow⟩ := ht.inv
    unfold Tree.widenTo
    cases htype : m.type with
    | none => exact h.operand
    | some source =>
      dsimp only
      split_ifs with heq hconverts
      · exact h.operand
      · exact h.operand
      · obtain ⟨rfl, rfl⟩ := DataType.widening heq (by simpa using hconverts)
        cases c with
        | constant value =>
          cases value with
          | integer n =>
            cases h
            exact .widened
          | decimal d =>
            rw [TypedAt, htype] at hat
            cases hat
        | compute o left right =>
          cases h with
          | compute hl hr =>
            have hleft := ih left (by simp [Construct.children]) hl (hbelow left (by simp [Construct.children]))
            have hright := ih right (by simp [Construct.children]) hr (hbelow right (by simp [Construct.children]))
            refine Rewrite.within_cases (P := fun w => Decorates true _ w.tree) (fun _ _ => ?_)
              (fun _ _ => .compute (hleft k) hr)
            refine Rewrite.within_cases (P := fun w => Decorates true _ w.tree) (fun _ _ => ?_)
              (fun _ _ => .compute (hleft k) (hright _))
            exact .compute (hleft k) (hright _)
        | reference name =>
          cases h with
          | reference =>
            cases htype
            exact .converted
        | convert operand =>
          rw [TypedAt, htype] at hat
          cases hat
        | program | declaration | assign | print => exact h.operand

theorem inferItems_decorates {table : SymbolTable} {finished finished' items : List (Tree Stamp)}
    (hf : List.Forall₂ (Decorates false) finished finished')
    (hi : ∀ t ∈ items, ∀ k, Decorates false t (t.infer table k).tree) (m : Stamp) (k : NodeId) :
    Decorates false (.node m (.program (finished ++ items))) (inferItems table m finished' items k).tree := by
  induction items generalizing finished finished' k with
  | nil =>
    rw [List.append_nil]
    exact Decorates.program_iff.mpr hf
  | cons item items ih =>
    have hitem := hi item (by simp) k
    rw [inferItems]
    refine Rewrite.within_cases (P := fun w => Decorates false _ w.tree) (fun _ _ => ?_) (fun _ _ => ?_)
    · rw [List.append_cons]
      exact ih (List.rel_append hf (.cons hitem .nil)) (fun t ht => hi t (List.mem_cons_of_mem item ht)) _
    · exact Decorates.program_iff.mpr
        (List.rel_append hf (.cons hitem (List.forall₂_same.mpr fun t _ => .refl false t)))

theorem infer_decorates (table : SymbolTable) (t : Tree Stamp) (k : NodeId) :
    Decorates false t (t.infer table k).tree := by
  induction t generalizing k with
  | node m c ih =>
    cases c with
    | program items => exact inferItems_decorates .nil ih m k
    | declaration type target =>
      have htarget := ih target (by simp [Construct.children]) k
      rw [infer]
      exact Rewrite.within_cases (P := fun w => Decorates false _ w.tree) (fun _ _ => .declaration htarget)
        (fun _ _ => .declaration htarget)
    | assign target value =>
      have htarget := ih target (by simp [Construct.children]) k
      have hvalue (k : NodeId) := (ih value (by simp [Construct.children]) k).operand
      rw [infer]
      refine Rewrite.within_cases (P := fun w => Decorates false _ w.tree) (fun _ _ => ?_)
        (fun _ _ => .assign htarget (.refl true value))
      refine Rewrite.within_cases (P := fun w => Decorates false _ w.tree) (fun _ hv => ?_)
        (fun _ _ => .assign htarget (hvalue _))
      have hwidened := (hvalue _).widenTo (infer_typed (Rewrite.demand_ok hv)).1
      exact Rewrite.within_cases (P := fun w => Decorates false _ w.tree) (fun _ _ => .assign htarget (hwidened _ _))
        (fun _ _ => .assign htarget (hwidened _ _))
    | compute o left right =>
      have hleft := (ih left (by simp [Construct.children]) k).operand
      have hright (k : NodeId) := (ih right (by simp [Construct.children]) k).operand
      rw [infer]
      refine Rewrite.within_cases (P := fun w => Decorates false _ w.tree) (fun _ hl => ?_)
        (fun _ _ => .compute hleft (.refl true right))
      refine Rewrite.within_cases (P := fun w => Decorates false _ w.tree) (fun _ hr => ?_)
        (fun _ _ => .compute hleft (hright _))
      have hleft' := hleft.widenTo (infer_typed (Rewrite.demand_ok hl)).1
      have hright' := (hright _).widenTo (infer_typed (Rewrite.demand_ok hr)).1
      refine Rewrite.within_cases (P := fun w => Decorates false _ w.tree) (fun _ _ => ?_)
        (fun _ _ => .compute (hleft' _ _) (hright _))
      exact Rewrite.within_cases (P := fun w => Decorates false _ w.tree)
        (fun _ _ => .compute (hleft' _ _) (hright' _ _)) (fun _ _ => .compute (hleft' _ _) (hright' _ _))
    | reference name =>
      simp only [infer, lookUp]
      split <;> exact .reference
    | print name =>
      simp only [infer, lookUp]
      split <;> exact .print
    | constant literal => exact .constant
    | convert operand =>
      have hoperand := ih operand (by simp [Construct.children]) k
      rw [infer]
      exact Rewrite.within_cases (P := fun w => Decorates false _ w.tree) (fun _ _ => .convert hoperand)
        (fun _ _ => .convert hoperand)

end Tree

/-- A number does not change when a zero is written behind its point. -/
class LawfulArithmetic (α : Type) [Arithmetic α] : Prop where
  ofScientific_tenth (negative : Bool) (digits : ℕ) :
    Arithmetic.ofScientific (α := α) ⟨negative, digits * 10, -1⟩ = Arithmetic.ofScientific ⟨negative, digits, 0⟩

namespace Tree

theorem Decorates.evaluate {α : Type} [Arithmetic α] [LawfulArithmetic α] {b : Bool} {t t' : Tree Stamp}
    (h : Decorates b t t') (o : Outcome α) : t'.types.evaluate o = t.types.evaluate o := by
  induction h with
  | nil | cons | declaration | assign | reference | print | constant =>
    simp only [types_node, Construct.map, Tree.evaluate]
  | compute _ _ ihl ihr => simp only [types_node, Construct.map, Tree.evaluate, ihl, ihr]
  | convert _ ih => simp only [types_node, Construct.map, Tree.evaluate, ih]
  | widened =>
    simp only [types_node, Construct.map, Tree.evaluate]
    exact congrArg Except.ok (LawfulArithmetic.ofScientific_tenth _ _)
  | converted => simp only [types_node, Construct.map, Tree.evaluate]

theorem Decorates.execute {α : Type} [Arithmetic α] [LawfulArithmetic α] {t t' : Tree Stamp}
    (h : Decorates false t t') (o : Outcome α) : o.execute t'.types = o.execute t.types := by
  cases h with
  | assign h hv =>
    have hvalue := hv.evaluate o
    cases h <;> simp only [types_node, Construct.map, Outcome.execute, construct, hvalue]
  | _ => simp only [types_node, Construct.map, Outcome.execute, construct]

theorem Decorates.foldlM_execute {α : Type} [Arithmetic α] [LawfulArithmetic α] {ts ts' : List (Tree Stamp)}
    (h : List.Forall₂ (Decorates false) ts ts') (o : Outcome α) :
    (ts'.map types).foldlM Outcome.execute o = (ts.map types).foldlM Outcome.execute o := by
  induction h generalizing o with
  | nil => rfl
  | cons h _ ih =>
    simp only [List.map_cons, List.foldlM_cons, h.execute o]
    congr 1
    funext o
    exact ih o

theorem Decorates.run {α : Type} [Arithmetic α] [LawfulArithmetic α] {t t' : Tree Stamp} (h : Decorates false t t') :
    (t'.types.run : Except Fault (Outcome α)) = t.types.run := by
  obtain ⟨m, c⟩ := t
  cases c with
  | program ts =>
    obtain ⟨ts', rfl, hts⟩ := h.exists_program
    simp only [types_node, Construct.map]
    exact Decorates.foldlM_execute hts _
  | _ => cases h <;> rfl

end Tree

end AddingCalculator
