import AddingCalculator.Proofs.Decoration
import AddingCalculator.Proofs.Scoping

namespace AddingCalculator

namespace Tree

inductive IsValue {α : Type} (P : Char → Prop) : Tree α → Prop
  | reference {m : α} {name : Char} (h : P name) : IsValue P (.node m (.reference name))
  | constant {m : α} {value : Literal} : IsValue P (.node m (.constant value))
  | convert {m : α} {t : Tree α} (h : IsValue P t) : IsValue P (.node m (.convert t))
  | compute {m : α} {o : Operator} {l r : Tree α} (hl : IsValue P l) (hr : IsValue P r) :
      IsValue P (.node m (.compute o l r))

variable {P : Char → Prop}

theorem Decorates.isValue {b : Bool} {t t' : Tree Stamp} (h : Decorates b t t') (hv : t.IsValue P) : t'.IsValue P := by
  induction h with
  | nil | cons | declaration | assign | print => cases hv
  | compute _ _ ihl ihr =>
    cases hv with
    | compute hl hr => exact .compute (ihl hl) (ihr hr)
  | convert _ ih =>
    cases hv with
    | convert h => exact .convert (ih h)
  | reference =>
    cases hv with
    | reference h => exact .reference h
  | constant | widened => exact .constant
  | converted =>
    cases hv with
    | reference h => exact .convert (.reference h)

theorem widenTo_result {table : SymbolTable} {t : Tree Stamp} {type : DataType} (ht : t.Typed table) (hv : t.IsValue P)
    (htype : t.label.type = some type) (target : DataType) (k : NodeId) :
    (t.widenTo target k).result =
      if type.convertsTo target then .ok () else .error (.illegalConversion type target) := by
  induction t generalizing k with
  | node m c ih =>
    obtain ⟨hat, hbelow⟩ := ht.inv
    have hm : m.type = some type := htype
    unfold widenTo
    rw [hm]
    dsimp only
    by_cases heq : type = target
    · rw [if_pos heq, if_pos (heq ▸ type.convertsTo_self)]
    · rw [if_neg heq]
      cases hconverts : type.convertsTo target with
      | false => rfl
      | true =>
        cases hv with
        | reference | constant | convert => rfl
        | @compute _ o l r hl hr =>
          obtain ⟨type', htype', hltype, hrtype⟩ := hat
          obtain rfl : type = type' := Option.some.inj (hm.symm.trans htype')
          have hleft := ih l (by simp [Construct.children]) (hbelow l (by simp [Construct.children])) hl hltype
          have hright := ih r (by simp [Construct.children]) (hbelow r (by simp [Construct.children])) hr hrtype
          simp only [hconverts, if_true] at hleft hright
          simp [Rewrite.within, hleft, hright]

end Tree

namespace DataType

theorem convertsTo_general_left (s t : DataType) : s.convertsTo (s.general t) = true := by
  cases s <;> cases t <;> rfl

theorem convertsTo_general_right (s t : DataType) : t.convertsTo (s.general t) = true := by
  cases s <;> cases t <;> rfl

theorem general_eq_float {s t : DataType} : s.general t = float ↔ s = float ∨ t = float := by
  cases s <;> cases t <;> simp [general]

theorem convertsTo_eq_false {s t : DataType} : s.convertsTo t = false ↔ s = float ∧ t = integer := by
  cases s <;> cases t <;> simp [convertsTo]

end DataType

namespace Rewrite

theorem within_of_ok {α β : Type} {x : Rewrite α} {a : α} (h : x.result = .ok a) (around : Tree Stamp → Tree Stamp)
    (rest : α → Tree Stamp → NodeId → Rewrite β) : x.within around rest = rest a x.tree x.next := by
  rw [within, h]

theorem within_of_error {α β : Type} {x : Rewrite α} {e : Diagnostic} (h : x.result = .error e)
    (around : Tree Stamp → Tree Stamp) (rest : α → Tree Stamp → NodeId → Rewrite β) :
    (x.within around rest).result = .error e := by
  rw [within, h]

theorem demand_of_ok {x : Rewrite (Option DataType)} {type : DataType} (h : x.result = .ok (some type)) :
    x.demand.result = .ok type := by
  rw [demand, h]

end Rewrite

namespace Tree

variable {P : Char → Prop}

theorem widenTo_infer_result {table : SymbolTable} {t : Tree Stamp} {type : DataType} {k : NodeId} (hv : t.IsValue P)
    (h : (t.infer table k).result = .ok (some type)) (target : DataType) (k' : NodeId) :
    ((t.infer table k).demand.tree.widenTo target k').result =
      if type.convertsTo target then .ok () else .error (.illegalConversion type target) :=
  widenTo_result (infer_typed h).1 ((infer_decorates table t k).isValue hv) ((infer_typed h).2 type rfl) target k'

theorem infer_compute {table : SymbolTable} {l r : Tree Stamp} {s t : DataType} (hl : l.IsValue P) (hr : r.IsValue P)
    (hs : ∀ k, (l.infer table k).result = .ok (some s)) (ht : ∀ k, (r.infer table k).result = .ok (some t)) (m : Stamp)
    (o : Operator) (k : NodeId) : ((node m (.compute o l r)).infer table k).result = .ok (some (s.general t)) := by
  have hleft (k k' : NodeId) : ((l.infer table k).demand.tree.widenTo (s.general t) k').result = .ok () := by
    rw [widenTo_infer_result hl (hs k), DataType.convertsTo_general_left, if_pos rfl]
  have hright (k k' : NodeId) : ((r.infer table k).demand.tree.widenTo (s.general t) k').result = .ok () := by
    rw [widenTo_infer_result hr (ht k), DataType.convertsTo_general_right, if_pos rfl]
  rw [infer, Rewrite.within_of_ok (Rewrite.demand_of_ok (hs k)), Rewrite.within_of_ok (Rewrite.demand_of_ok (ht _)),
    Rewrite.within_of_ok (hleft _ _), Rewrite.within_of_ok (hright _ _)]

theorem infer_assign {table : SymbolTable} {t v : Tree Stamp} {target type : DataType} (hv : v.IsValue P)
    (htarget : ∀ k, (t.infer table k).result = .ok (some target))
    (hvalue : ∀ k, (v.infer table k).result = .ok (some type)) (m : Stamp) (k : NodeId) :
    ((node m (.assign t v)).infer table k).result =
      if type.convertsTo target then .ok (some target) else .error (.illegalConversion type target) := by
  rw [infer, Rewrite.within_of_ok (Rewrite.demand_of_ok (htarget k)),
    Rewrite.within_of_ok (Rewrite.demand_of_ok (hvalue _))]
  have hwiden (k k' : NodeId) := widenTo_infer_result hv (hvalue k) target k'
  cases hconverts : type.convertsTo target with
  | true =>
    simp only [hconverts, if_true] at hwiden
    rw [Rewrite.within_of_ok (hwiden _ _), if_pos rfl]
  | false =>
    simp only [hconverts, Bool.false_eq_true, if_false] at hwiden
    rw [Rewrite.within_of_error (hwiden _ _), if_neg Bool.false_ne_true]

end Tree

def SymbolTable.atomType? (table : SymbolTable) : Atom → Option DataType
  | .name letter => table.types.find? letter
  | .literal value => some value.type

theorem SymbolTable.typeOf_eq_ok {table : SymbolTable} {name : Char} {type : DataType} :
    table.typeOf name = .ok type ↔ table.types.find? name = some type := by
  unfold typeOf
  cases table.types.find? name <;> simp

namespace Chain

theorem isValue_stamped {P : Char → Prop} {c : Chain} (h : ∀ name ∈ c.operands.filterMap fun x => x.atom.name?, P name)
    (k : NodeId) : (c.stamped k).IsValue P := by
  have hoperand (x : Operand) (hx : ∀ name, x.atom.name? = some name → P name) (k : NodeId) :
      (x.stamped k).IsValue P := by
    obtain ⟨atom, span⟩ := x
    cases atom with
    | name letter => exact .reference (hx letter rfl)
    | literal value => exact .constant
  induction c with
  | operand first => exact hoperand first (fun name hname => h name (by simp [operands, hname])) k
  | extend left o span right ih =>
    refine .compute (ih fun name hname => h name ?_) (hoperand right (fun name hname => h name ?_) _)
    · rw [operands, List.filterMap_append]
      exact List.mem_append_left _ hname
    · simp [operands, hname]

theorem isValue (c : Chain) (k : NodeId) : (c.stamped k).IsValue fun _ => True :=
  isValue_stamped (fun _ _ => trivial) k

theorem infer_operand {table : SymbolTable} {x : Operand} {type : DataType} (h : table.atomType? x.atom = some type)
    (k k' : NodeId) : ((x.stamped k).infer table k').result = .ok (some type) := by
  obtain ⟨atom, span⟩ := x
  cases atom with
  | name letter => simp only [Operand.stamped, Atom.leaf, Tree.infer, Tree.lookUp, SymbolTable.typeOf_eq_ok.mpr h]
  | literal value =>
    cases h
    rfl

theorem infer_stamped {table : SymbolTable} {c : Chain} (h : ∀ x ∈ c.operands, (table.atomType? x.atom).isSome)
    (k : NodeId) : ∃ type, (∀ k', ((c.stamped k).infer table k').result = .ok (some type)) ∧
      (type = .float ↔ ∃ x ∈ c.operands, table.atomType? x.atom = some .float) := by
  induction c with
  | operand first =>
    obtain ⟨type, htype⟩ := Option.isSome_iff_exists.mp (h first (by simp [operands]))
    refine ⟨type, infer_operand htype k, ?_⟩
    simp [operands, htype]
  | extend left o span right ih =>
    obtain ⟨s, hleft, hs⟩ := ih fun x hx => h x (by simp [operands, hx])
    obtain ⟨t, ht⟩ := Option.isSome_iff_exists.mp (h right (by simp [operands]))
    refine ⟨s.general t, fun k' => Tree.infer_compute (left.isValue k) (isValue (.operand right) _) hleft
      (infer_operand ht _) _ o k', ?_⟩
    simp [operands, DataType.general_eq_float, hs, ht, or_and_right, exists_or]

end Chain

def Statement.Narrows (table : SymbolTable) : Statement → Prop
  | assign target value => table.types.find? target.letter = some .integer ∧
      ∃ x ∈ value.operands, table.atomType? x.atom = some .float
  | print _ _ => False

def Statement.Declared (table : SymbolTable) : Statement → Prop
  | assign target value => (table.types.find? target.letter).isSome ∧
      ∀ x ∈ value.operands, (table.atomType? x.atom).isSome
  | print name _ => (table.types.find? name).isSome

theorem Tree.infer_reference {table : SymbolTable} {name : Char} {type : DataType}
    (h : table.types.find? name = some type) (m : Stamp) (k : NodeId) :
    ((node m (.reference name)).infer table k).result = .ok (some type) := by
  simp only [infer, lookUp, SymbolTable.typeOf_eq_ok.mpr h]

theorem Statement.infer_stamped {table : SymbolTable} {s : Statement} (h : s.Declared table) (k k' : NodeId) :
    (s.Narrows table → ((s.stamped k).infer table k').result = .error (.illegalConversion .float .integer)) ∧
      (¬ s.Narrows table → ∃ type, ((s.stamped k).infer table k').result = .ok type) := by
  cases s with
  | print name span =>
    obtain ⟨type, htype⟩ := Option.isSome_iff_exists.mp h
    refine ⟨False.elim, fun _ => ⟨some type, ?_⟩⟩
    simp only [stamped, Tree.infer, Tree.lookUp, SymbolTable.typeOf_eq_ok.mpr htype]
  | assign target value =>
    obtain ⟨htarget, hvalue⟩ := h
    obtain ⟨type, htype⟩ := Option.isSome_iff_exists.mp htarget
    obtain ⟨s, hs, hfloat⟩ := Chain.infer_stamped hvalue (k + 1)
    rw [stamped, Tree.infer_assign (value.isValue _) (Tree.infer_reference htype _) hs, Narrows, ← hfloat, htype]
    cases hconverts : s.convertsTo type with
    | true =>
      refine ⟨fun hn => ?_, fun _ => ⟨some type, if_pos rfl⟩⟩
      rw [hn.2, Option.some.inj hn.1] at hconverts
      cases hconverts
    | false =>
      obtain ⟨rfl, rfl⟩ := DataType.convertsTo_eq_false.mp hconverts
      exact ⟨fun _ => if_neg Bool.false_ne_true, fun hn => absurd ⟨rfl, rfl⟩ hn⟩

theorem exists_of_mem_stampAll {ι : Type} {count : ι → ℕ} {stamped : NodeId → ι → Tree Stamp} {k : NodeId}
    {xs : List ι} {t : Tree Stamp} (h : t ∈ stampAll count stamped k xs) : ∃ x ∈ xs, ∃ k, t = stamped k x := by
  induction xs generalizing k with
  | nil => cases h
  | cons x xs ih =>
    rcases List.mem_cons.mp h with rfl | h
    · exact ⟨x, by simp, k, rfl⟩
    · obtain ⟨y, hy, hk⟩ := ih h
      exact ⟨y, List.mem_cons_of_mem x hy, hk⟩

theorem exists_mem_stampAll {ι : Type} (count : ι → ℕ) (stamped : NodeId → ι → Tree Stamp) (k : NodeId) {xs : List ι}
    {x : ι} (h : x ∈ xs) : ∃ k', stamped k' x ∈ stampAll count stamped k xs := by
  induction xs generalizing k with
  | nil => cases h
  | cons y xs ih =>
    rcases List.mem_cons.mp h with rfl | h
    · exact ⟨k, List.mem_cons_self⟩
    · obtain ⟨k', hk'⟩ := ih (k + count y) h
      exact ⟨k', List.mem_cons_of_mem _ hk'⟩

namespace Tree

theorem inferItems_ok {table : SymbolTable} {items : List (Tree Stamp)}
    (h : ∀ t ∈ items, ∀ k, ∃ type, (t.infer table k).result = .ok type) (m : Stamp) (finished : List (Tree Stamp))
    (k : NodeId) : (inferItems table m finished items k).result = .ok none := by
  induction items generalizing finished k with
  | nil => rfl
  | cons item items ih =>
    obtain ⟨type, htype⟩ := h item (by simp) k
    rw [inferItems, Rewrite.within_of_ok htype]
    exact ih (fun t ht => h t (List.mem_cons_of_mem item ht)) _ _

theorem inferItems_error {table : SymbolTable} {items : List (Tree Stamp)} {e : Diagnostic}
    (h : ∀ t ∈ items, ∀ k, (t.infer table k).result = .error e ∨ ∃ type, (t.infer table k).result = .ok type)
    (he : ∃ t ∈ items, ∀ k, (t.infer table k).result = .error e) (m : Stamp) (finished : List (Tree Stamp)) (k : NodeId) :
    (inferItems table m finished items k).result = .error e := by
  induction items generalizing finished k with
  | nil =>
    obtain ⟨t, ht, -⟩ := he
    cases ht
  | cons item items ih =>
    rw [inferItems]
    rcases h item (by simp) k with hitem | ⟨type, hitem⟩
    · exact Rewrite.within_of_error hitem _ _
    · rw [Rewrite.within_of_ok hitem]
      refine ih (fun t ht => h t (List.mem_cons_of_mem item ht)) ?_ _ _
      obtain ⟨t, ht, hte⟩ := he
      rcases List.mem_cons.mp ht with rfl | ht
      · rw [hte k] at hitem
        cases hitem
      · exact ⟨t, ht, hte⟩

end Tree

namespace Program

theorem infer_stamped {p : Program} {table : SymbolTable}
    (hd : ∀ d ∈ p.declarations, (table.types.find? d.target.letter).isSome) (hs : ∀ s ∈ p.statements, s.Declared table)
    (k : NodeId) :
    ((∃ s ∈ p.statements, s.Narrows table) →
        (p.stamped.infer table k).result = .error (.illegalConversion .float .integer)) ∧
      ((∀ s ∈ p.statements, ¬ s.Narrows table) → (p.stamped.infer table k).result = .ok none) := by
  have hdeclaration (t : Tree Stamp) (ht : t ∈ stampAll (fun _ => 2) Declaration.stamped 1 p.declarations) (k : NodeId) :
      ∃ type, (t.infer table k).result = .ok type := by
    obtain ⟨d, hmem, k', rfl⟩ := exists_of_mem_stampAll ht
    obtain ⟨type, htype⟩ := Option.isSome_iff_exists.mp (hd d hmem)
    refine ⟨some d.type, ?_⟩
    rw [Declaration.stamped, Tree.infer, Rewrite.within_of_ok (Rewrite.demand_of_ok (Tree.infer_reference htype _ _))]
  rw [stamped, Tree.infer, stampedItems]
  constructor
  · rintro ⟨s, hmem, hn⟩
    obtain ⟨k', hk'⟩ := exists_mem_stampAll Statement.count Statement.stamped (1 + 2 * p.declarations.length) hmem
    refine Tree.inferItems_error (fun t ht k => ?_) ⟨_, List.mem_append_right _ hk', fun k =>
      (Statement.infer_stamped (hs s hmem) k' k).1 hn⟩ _ _ k
    rcases List.mem_append.mp ht with ht | ht
    · exact .inr (hdeclaration t ht k)
    · obtain ⟨s, hmem, k', rfl⟩ := exists_of_mem_stampAll ht
      by_cases hn : s.Narrows table
      · exact .inl ((Statement.infer_stamped (hs s hmem) k' k).1 hn)
      · exact .inr ((Statement.infer_stamped (hs s hmem) k' k).2 hn)
  · intro hn
    refine Tree.inferItems_ok (fun t ht k => ?_) _ _ k
    rcases List.mem_append.mp ht with ht | ht
    · exact hdeclaration t ht k
    · obtain ⟨s, hmem, k', rfl⟩ := exists_of_mem_stampAll ht
      exact (Statement.infer_stamped (hs s hmem) k' k).2 (hn s hmem)

end Program

end AddingCalculator
