import AddingCalculator.Proofs.HeldTree
import AddingCalculator.Typing

/-!
# Finding types on trees

Types can be found without a store: on a tree whose labels carry the numbers of its nodes, with the next free number
at hand for conversions. A rewrite gives the tree that is left behind also when it fails. On a store that owns the
tree, finding types does the same.
-/

namespace AddingCalculator

structure Rewrite (α : Type) where
  result : Except Diagnostic α
  tree : Tree Stamp
  next : NodeId

namespace Rewrite

/-- Goes on behind a rewrite of a part. If the part fails, the whole is left with what the part became. -/
def within {α β : Type} (x : Rewrite α) (around : Tree Stamp → Tree Stamp)
    (rest : α → Tree Stamp → NodeId → Rewrite β) : Rewrite β :=
  match x.result with
  | .ok a => rest a x.tree x.next
  | .error e => ⟨.error e, around x.tree, x.next⟩

theorem within_cases {α β : Type} {P : Rewrite β → Prop} {x : Rewrite α} {around : Tree Stamp → Tree Stamp}
    {rest : α → Tree Stamp → NodeId → Rewrite β} (hok : ∀ a, x.result = .ok a → P (rest a x.tree x.next))
    (herror : ∀ e, x.result = .error e → P ⟨.error e, around x.tree, x.next⟩) : P (x.within around rest) := by
  unfold within
  cases hx : x.result with
  | ok a => exact hok a hx
  | error e => exact herror e hx

def demand (x : Rewrite (Option DataType)) : Rewrite DataType where
  result := match x.result with
    | .ok (some type) => .ok type
    | .ok none => .error (.nodeExpected .value)
    | .error e => .error e
  tree := x.tree
  next := x.next

end Rewrite

namespace Tree

def widenTo (target : DataType) : Tree Stamp → NodeId → Rewrite Unit
  | node m c, k =>
    match m.type with
    | none => ⟨.error (.nodeExpected .typed), node m c, k⟩
    | some source =>
      if source = target then ⟨.ok (), node m c, k⟩
      else if !source.convertsTo target then ⟨.error (.illegalConversion source target), node m c, k⟩
      else match c with
        | .constant value => ⟨.ok (), node { m with type := some .float } (.constant value.widen), k⟩
        | .compute o left right =>
          (left.widenTo target k).within (fun left => node m (.compute o left right)) fun _ left k =>
          (right.widenTo target k).within (fun right => node m (.compute o left right)) fun _ right k =>
          ⟨.ok (), node { m with type := some target } (.compute o left right), k⟩
        | .reference _ | .convert _ => ⟨.ok (), node ⟨k, m.span, some .float⟩ (.convert (node m c)), k + 1⟩
        | _ => ⟨.error (.nodeExpected .value), node m c, k⟩

def lookUp (table : SymbolTable) (m : Stamp) (c : Construct (Tree Stamp)) (name : Char) (k : NodeId) :
    Rewrite (Option DataType) :=
  match table.typeOf name with
  | .ok type => ⟨.ok (some type), node { m with type := some type } c, k⟩
  | .error e => ⟨.error e, node m c, k⟩

mutual

def infer (table : SymbolTable) : Tree Stamp → NodeId → Rewrite (Option DataType)
  | node m (.program items), k => inferItems table m [] items k
  | node m (.declaration type target), k =>
    (target.infer table k).demand.within (fun target => node m (.declaration type target)) fun _ target k =>
    ⟨.ok (some type), node { m with type := some type } (.declaration type target), k⟩
  | node m (.assign target value), k =>
    (target.infer table k).demand.within (fun target => node m (.assign target value)) fun type target k =>
    (value.infer table k).demand.within (fun value => node m (.assign target value)) fun _ value k =>
    (value.widenTo type k).within (fun value => node m (.assign target value)) fun _ value k =>
    ⟨.ok (some type), node { m with type := some type } (.assign target value), k⟩
  | node m (.compute o left right), k =>
    (left.infer table k).demand.within (fun left => node m (.compute o left right)) fun leftType left k =>
    (right.infer table k).demand.within (fun right => node m (.compute o left right)) fun rightType right k =>
    (left.widenTo (leftType.general rightType) k).within (fun left => node m (.compute o left right)) fun _ left k =>
    (right.widenTo (leftType.general rightType) k).within (fun right => node m (.compute o left right)) fun _ right k =>
    ⟨.ok (some (leftType.general rightType)),
      node { m with type := some (leftType.general rightType) } (.compute o left right), k⟩
  | node m (.reference name), k => lookUp table m (.reference name) name k
  | node m (.print name), k => lookUp table m (.print name) name k
  | node m (.constant literal), k =>
    ⟨.ok (some literal.type), node { m with type := some literal.type } (.constant literal), k⟩
  | node m (.convert operand), k =>
    (operand.infer table k).demand.within (fun operand => node m (.convert operand)) fun _ operand k =>
    ⟨.ok (some .float), node { m with type := some .float } (.convert operand), k⟩

def inferItems (table : SymbolTable) (m : Stamp) (finished : List (Tree Stamp)) :
    List (Tree Stamp) → NodeId → Rewrite (Option DataType)
  | [], k => ⟨.ok none, node m (.program finished), k⟩
  | item :: items, k =>
    (item.infer table k).within (fun item => node m (.program (finished ++ item :: items))) fun _ item k =>
    inferItems table m (finished ++ [item]) items k

end

theorem exists_program_inferItems (table : SymbolTable) (m : Stamp) (finished items : List (Tree Stamp)) (k : NodeId) :
    ∃ ts, (inferItems table m finished items k).tree = node m (.program ts) := by
  induction items generalizing finished k with
  | nil => exact ⟨finished, rfl⟩
  | cons item items ih =>
    rw [inferItems]
    exact Rewrite.within_cases (P := fun w => ∃ ts, w.tree = node m (.program ts)) (fun _ _ => ih _ _)
      (fun _ _ => ⟨_, rfl⟩)

theorem infer_id (table : SymbolTable) (t : Tree Stamp) (k : NodeId) : (t.infer table k).tree.id = t.id := by
  cases t with
  | node m c =>
    cases c with
    | program items =>
      obtain ⟨ts, hts⟩ := exists_program_inferItems table m [] items k
      rw [infer, hts]
      rfl
    | reference name | print name => simp only [infer, lookUp]; split <;> rfl
    | constant literal => rfl
    | declaration type target | convert operand =>
      rw [infer]
      exact Rewrite.within_cases (P := fun w => w.tree.id = m.id) (fun _ _ => rfl) (fun _ _ => rfl)
    | assign target value =>
      rw [infer]
      iterate 3 refine Rewrite.within_cases (P := fun w => w.tree.id = m.id) (fun _ _ => ?_) (fun _ _ => rfl)
      rfl
    | compute o left right =>
      rw [infer]
      iterate 4 refine Rewrite.within_cases (P := fun w => w.tree.id = m.id) (fun _ _ => ?_) (fun _ _ => rfl)
      rfl

def spine {α : Type} : Tree α → ℕ
  | node _ (.compute _ left right) => max left.spine right.spine + 1
  | _ => 1

theorem spine_le_height {α : Type} (t : Tree α) : t.spine ≤ t.height := by
  induction t with
  | node a c ih =>
    cases c with
    | compute o left right =>
      have hleft := ih left (by simp [Construct.children])
      have hright := ih right (by simp [Construct.children])
      simp only [spine, height_node, Construct.children, List.map_cons, List.foldr_cons, List.map_nil, List.foldr_nil]
      omega
    | _ =>
      simp only [spine, height_node]
      omega

theorem spine_pos {α : Type} (t : Tree α) : 0 < t.spine := by
  unfold spine
  split <;> omega

theorem spine_widenTo (target : DataType) (t : Tree Stamp) (k : NodeId) :
    (t.widenTo target k).tree.spine = t.spine := by
  induction t generalizing k with
  | node m c ih =>
    unfold widenTo
    cases m.type with
    | none => rfl
    | some source =>
      dsimp only
      split_ifs
      · rfl
      · rfl
      · cases c with
        | compute o left right =>
          have hleft := ih left (by simp [Construct.children])
          have hright := ih right (by simp [Construct.children])
          iterate 2
            refine Rewrite.within_cases (P := fun w => w.tree.spine = max left.spine right.spine + 1)
              (fun _ _ => ?_) (fun _ _ => by simp only [spine, hleft, hright])
          simp only [spine, hleft, hright]
        | _ => rfl

theorem spine_infer (table : SymbolTable) (t : Tree Stamp) (k : NodeId) : (t.infer table k).tree.spine = t.spine := by
  induction t generalizing k with
  | node m c ih =>
    cases c with
    | program items =>
      obtain ⟨ts, hts⟩ := exists_program_inferItems table m [] items k
      rw [infer, hts]
      rfl
    | reference name | print name => simp only [infer, lookUp]; split <;> rfl
    | constant literal => rfl
    | declaration type target | convert operand =>
      rw [infer]
      exact Rewrite.within_cases (P := fun w => w.tree.spine = 1) (fun _ _ => rfl) (fun _ _ => rfl)
    | assign target value =>
      rw [infer]
      iterate 3 refine Rewrite.within_cases (P := fun w => w.tree.spine = 1) (fun _ _ => ?_) (fun _ _ => rfl)
      rfl
    | compute o left right =>
      have hleft := ih left (by simp [Construct.children])
      have hright := ih right (by simp [Construct.children])
      rw [infer]
      iterate 4
        refine Rewrite.within_cases (P := fun w => w.tree.spine = max left.spine right.spine + 1)
          (fun _ _ => ?_) (fun _ _ => by simp only [spine, spine_widenTo, Rewrite.demand, hleft, hright])
      simp only [spine, spine_widenTo, Rewrite.demand, hleft, hright]

end Tree

end AddingCalculator
