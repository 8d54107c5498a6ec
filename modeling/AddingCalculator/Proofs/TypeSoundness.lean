import AddingCalculator.Proofs.TreeTyping

namespace AddingCalculator

def TypedAt (table : SymbolTable) (type : Option DataType) : Construct (Tree Stamp) → Prop
  | .program _ => True
  | .declaration declared _ => type = some declared
  | .assign target value => ∃ t, type = some t ∧ target.label.type = some t ∧ value.label.type = some t
  | .compute _ left right => ∃ t, type = some t ∧ left.label.type = some t ∧ right.label.type = some t
  | .reference name => ∃ t, type = some t ∧ table.typeOf name = .ok t
  | .print name => ∃ t, type = some t ∧ table.typeOf name = .ok t
  | .constant literal => type = some literal.type
  | .convert _ => type = some .float

inductive Tree.Typed (table : SymbolTable) : Tree Stamp → Prop
  | node {m : Stamp} {c : Construct (Tree Stamp)} (h : TypedAt table m.type c)
      (hc : ∀ t ∈ c.children, Typed table t) : Typed table (.node m c)

namespace Rewrite

theorem eq_of_within_ok {α β : Type} {x : Rewrite α} {around : Tree Stamp → Tree Stamp}
    {rest : α → Tree Stamp → NodeId → Rewrite β} {b : β} (h : (x.within around rest).result = .ok b) :
    ∃ a, x.result = .ok a ∧ x.within around rest = rest a x.tree x.next := by
  unfold within at h ⊢
  cases hx : x.result with
  | ok a => exact ⟨a, rfl, rfl⟩
  | error e =>
    rw [hx] at h
    cases h

theorem demand_ok {x : Rewrite (Option DataType)} {type : DataType} (h : x.demand.result = .ok type) :
    x.result = .ok (some type) := by
  unfold demand at h
  cases hx : x.result with
  | ok found =>
    cases found with
    | none =>
      rw [hx] at h
      cases h
    | some found =>
      rw [hx] at h
      cases h
      rfl
  | error e =>
    rw [hx] at h
    cases h

end Rewrite

namespace DataType

theorem widening {source target : DataType} (hne : source ≠ target) (hc : source.convertsTo target = true) :
    source = integer ∧ target = float := by
  cases source <;> cases target <;> simp_all [convertsTo]

theorem convertsTo_self (type : DataType) : type.convertsTo type = true := by
  cases type <;> rfl

end DataType

theorem Literal.type_widen (value : Literal) : value.widen.type = .float := by
  cases value <;> rfl

namespace Tree

theorem Typed.inv {table : SymbolTable} {m : Stamp} {c : Construct (Tree Stamp)} (h : Typed table (.node m c)) :
    TypedAt table m.type c ∧ ∀ t ∈ c.children, t.Typed table := by
  cases h with
  | node h hc => exact ⟨h, hc⟩

theorem widenTo_typed {table : SymbolTable} {target : DataType} {t : Tree Stamp} {k : NodeId} (ht : t.Typed table)
    (h : (t.widenTo target k).result = .ok ()) :
    (t.widenTo target k).tree.Typed table ∧ (t.widenTo target k).tree.label.type = some target := by
  induction t generalizing k with
  | node m c ih =>
    obtain ⟨hat, hbelow⟩ := ht.inv
    unfold widenTo at h ⊢
    cases htype : m.type with
    | none =>
      simp only [htype] at h
      cases h
    | some source =>
      rw [htype] at h
      dsimp only at h ⊢
      split_ifs at h ⊢ with heq hconverts
      · exact ⟨ht, heq ▸ htype⟩
      · obtain ⟨rfl, rfl⟩ := DataType.widening heq (by simpa using hconverts)
        cases c with
        | constant value =>
          refine ⟨.node ?_ fun t ht => (by cases ht), rfl⟩
          rw [TypedAt, value.type_widen]
        | compute o left right =>
          dsimp only at h ⊢
          obtain ⟨_, hl, he⟩ := Rewrite.eq_of_within_ok h
          rw [he] at h ⊢
          obtain ⟨_, hr, he⟩ := Rewrite.eq_of_within_ok h
          rw [he]
          obtain ⟨hlt, hl⟩ := ih left (by simp [Construct.children]) (hbelow left (by simp [Construct.children])) hl
          obtain ⟨hrt, hr⟩ := ih right (by simp [Construct.children]) (hbelow right (by simp [Construct.children])) hr
          refine ⟨.node ⟨_, rfl, hl, hr⟩ ?_, rfl⟩
          simp only [Construct.children, List.mem_cons, List.not_mem_nil, or_false, forall_eq_or_imp, forall_eq]
          exact ⟨hlt, hrt⟩
        | reference name | convert operand =>
          refine ⟨.node rfl fun t ht' => ?_, rfl⟩
          obtain rfl := List.mem_singleton.mp ht'
          exact ht
        | _ => cases h

theorem inferItems_typed {table : SymbolTable} {m : Stamp} {finished items : List (Tree Stamp)} {k : NodeId}
    {found : Option DataType} (hf : ∀ t ∈ finished, t.Typed table)
    (hi : ∀ t ∈ items, ∀ {k : NodeId} {found : Option DataType}, (t.infer table k).result = .ok found →
      (t.infer table k).tree.Typed table)
    (h : (inferItems table m finished items k).result = .ok found) :
    (inferItems table m finished items k).tree.Typed table ∧ found = none := by
  induction items generalizing finished k with
  | nil =>
    cases h
    exact ⟨.node trivial hf, rfl⟩
  | cons item items ih =>
    rw [inferItems] at h ⊢
    obtain ⟨_, hitem, he⟩ := Rewrite.eq_of_within_ok h
    rw [he] at h ⊢
    refine ih (fun t ht => ?_) (fun t ht => hi t (List.mem_cons_of_mem item ht)) h
    rcases List.mem_append.mp ht with ht | ht
    · exact hf t ht
    · rw [List.mem_singleton.mp ht]
      exact hi item (by simp) hitem

theorem infer_typed {table : SymbolTable} {t : Tree Stamp} {k : NodeId} {found : Option DataType}
    (h : (t.infer table k).result = .ok found) :
    (t.infer table k).tree.Typed table ∧ ∀ type, found = some type → (t.infer table k).tree.label.type = some type := by
  induction t generalizing k found with
  | node m c ih =>
    cases c with
    | program items =>
      rw [infer] at h ⊢
      obtain ⟨ht, rfl⟩ := inferItems_typed (fun t ht => by cases ht) (fun t ht _ _ h => (ih t ht h).1) h
      exact ⟨ht, fun type htype => by cases htype⟩
    | declaration type target =>
      rw [infer] at h ⊢
      obtain ⟨_, htarget, he⟩ := Rewrite.eq_of_within_ok h
      rw [he] at h ⊢
      cases h
      obtain ⟨ht, -⟩ := ih target (by simp [Construct.children]) (Rewrite.demand_ok htarget)
      refine ⟨.node rfl fun t ht' => ?_, fun type htype => htype⟩
      obtain rfl := List.mem_singleton.mp ht'
      exact ht
    | assign target value =>
      rw [infer] at h ⊢
      obtain ⟨type, htarget, he⟩ := Rewrite.eq_of_within_ok h
      rw [he] at h ⊢
      obtain ⟨_, hvalue, he⟩ := Rewrite.eq_of_within_ok h
      rw [he] at h ⊢
      obtain ⟨_, hwiden, he⟩ := Rewrite.eq_of_within_ok h
      rw [he] at h ⊢
      cases h
      obtain ⟨ht, htype⟩ := ih target (by simp [Construct.children]) (Rewrite.demand_ok htarget)
      obtain ⟨hv, -⟩ := ih value (by simp [Construct.children]) (Rewrite.demand_ok hvalue)
      obtain ⟨hw, hwtype⟩ := widenTo_typed hv hwiden
      refine ⟨.node ⟨type, rfl, htype type rfl, hwtype⟩ ?_, fun type htype => htype⟩
      simp only [Construct.children, List.mem_cons, List.not_mem_nil, or_false, forall_eq_or_imp, forall_eq]
      exact ⟨ht, hw⟩
    | compute o left right =>
      rw [infer] at h ⊢
      obtain ⟨leftType, hleft, he⟩ := Rewrite.eq_of_within_ok h
      rw [he] at h ⊢
      obtain ⟨rightType, hright, he⟩ := Rewrite.eq_of_within_ok h
      rw [he] at h ⊢
      obtain ⟨_, hwl, he⟩ := Rewrite.eq_of_within_ok h
      rw [he] at h ⊢
      obtain ⟨_, hwr, he⟩ := Rewrite.eq_of_within_ok h
      rw [he] at h ⊢
      cases h
      obtain ⟨hl, -⟩ := ih left (by simp [Construct.children]) (Rewrite.demand_ok hleft)
      obtain ⟨hr, -⟩ := ih right (by simp [Construct.children]) (Rewrite.demand_ok hright)
      obtain ⟨hl', hltype⟩ := widenTo_typed hl hwl
      obtain ⟨hr', hrtype⟩ := widenTo_typed hr hwr
      refine ⟨.node ⟨_, rfl, hltype, hrtype⟩ ?_, fun type htype => htype⟩
      simp only [Construct.children, List.mem_cons, List.not_mem_nil, or_false, forall_eq_or_imp, forall_eq]
      exact ⟨hl', hr'⟩
    | reference name | print name =>
      simp only [infer, lookUp] at h ⊢
      cases htype : table.typeOf name with
      | ok type =>
        rw [htype] at h
        cases h
        exact ⟨.node ⟨type, rfl, htype⟩ fun t ht => (by cases ht), fun type htype => htype⟩
      | error e =>
        rw [htype] at h
        cases h
    | constant literal =>
      cases h
      exact ⟨.node rfl fun t ht => (by cases ht), fun type htype => htype⟩
    | convert operand =>
      rw [infer] at h ⊢
      obtain ⟨_, hoperand, he⟩ := Rewrite.eq_of_within_ok h
      rw [he] at h ⊢
      cases h
      obtain ⟨ht, -⟩ := ih operand (by simp [Construct.children]) (Rewrite.demand_ok hoperand)
      refine ⟨.node rfl fun t ht' => ?_, fun type htype => htype⟩
      obtain rfl := List.mem_singleton.mp ht'
      exact ht

end Tree

end AddingCalculator
