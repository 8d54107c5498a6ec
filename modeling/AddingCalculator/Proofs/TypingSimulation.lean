import AddingCalculator.Proofs.Computation
import AddingCalculator.Proofs.TreeTyping

namespace AddingCalculator

namespace Store

variable {s : Store} {id : NodeId} {n : Node}

-- A node with the conversion above it, not yet in the slot of its parent.
def wrap (s : Store) (id : NodeId) (n : Node) : Store :=
  ((s.add (.convert id) n.span).setType s.size .float).setParent s.size n.parent

theorem size_wrap (s : Store) (id : NodeId) (n : Node) : (s.wrap id n).size = s.size + 1 := by
  rw [wrap, size_setParent, size_setType, size_add]

theorem insertConversion_eq (h : s.node? id = some n) :
    s.insertConversion id = (s.wrap id n).redirectAt n.parent id s.size := by
  have hread (f : Option Node → StateM Store Unit) : (NodeAccess.node? id >>= f).run s = (f (s.node? id)).run s := rfl
  rw [insertConversion, NodeAccess.insertConversion, hread, h]
  obtain ⟨c, span, type, parent⟩ := n
  cases parent <;> rfl

end Store

namespace Typing

variable {α : Type} {s : Store} {id : NodeId} {n : Node}

theorem run_node? (id : NodeId) (f : Option Node → Typing α) (s : Store) :
    (NodeAccess.node? id >>= f).run s = (f (s.node? id)).run s := rfl

theorem run_store (f : Store → Typing α) (s : Store) : (NodeAccess.store >>= f).run s = (f s).run s := rfl

theorem run_node (h : s.node? id = some n) : (node id : Typing Node).run s = (.ok n, s) := by
  rw [node, run_node?, h]
  rfl

theorem run_widen {value : Literal} (h : s.node? id = some n) (hc : n.construct = .constant value) :
    (NodeAccess.widen id : Typing Unit).run s =
      (.ok (), (s.setConstruct id (.constant value.widen)).setType id .float) := by
  obtain ⟨c, span, type, parent⟩ := n
  cases hc
  rw [NodeAccess.widen, run_node?, h]
  rfl

theorem run_insertConversion (h : s.node? id = some n) :
    (NodeAccess.insertConversion id : Typing Unit).run s = (.ok (), s.insertConversion id) := by
  rw [NodeAccess.insertConversion, run_node?, h, Store.insertConversion_eq h]
  obtain ⟨c, span, type, parent⟩ := n
  cases parent <;> rfl

end Typing

/-- On the store `s`, the computation gives the result of the rewrite and makes the store hold its tree. -/
def Realizes {α : Type} (x : Typing α) (s : Store) (parent : Option NodeId) (t : Tree Stamp) (w : Rewrite α) : Prop :=
  ∃ s', x.run s = (w.result, s') ∧ s.Step parent t s' w.tree ∧ s'.size = w.next

namespace Realizes

theorem within {α β : Type} {x : Typing α} {g : α → Typing β} {s : Store} {parent : Option NodeId} {m : Stamp}
    {c : Construct (Tree Stamp)} {t : Tree Stamp} {w : Rewrite α} {around : Tree Stamp → Tree Stamp}
    {rest : α → Tree Stamp → NodeId → Rewrite β} (ho : s.Keeps parent (.node m c)) (ht : t ∈ c.children)
    (hx : Realizes x s (some m.id) t w)
    (haround : .node m (c.map fun u => if u.id = t.id then w.tree else u) = around w.tree)
    (hrest : ∀ a s', s'.Keeps parent (around w.tree) → s'.size = w.next →
      Realizes (g a) s' parent (around w.tree) (rest a w.tree w.next)) :
    Realizes (x >>= g) s parent (.node m c) (w.within around rest) := by
  obtain ⟨s', hrun, hstep, hsize⟩ := hx
  have hlift := hstep.lift ho ht
  have hid : (around w.tree).id = m.id := by rw [← haround, Tree.id_node]
  rw [haround] at hlift
  unfold Realizes Rewrite.within
  rw [run_bind, hrun]
  cases w.result with
  | ok a =>
    obtain ⟨s'', hrun', hstep', hsize'⟩ := hrest a s' (hlift.keeps ho) hsize
    exact ⟨s'', hrun', hlift.trans hid hstep', hsize'⟩
  | error e => exact ⟨s', rfl, hlift, hsize⟩

theorem demand {x : Typing (Option DataType)} {s : Store} {parent : Option NodeId} {t : Tree Stamp}
    {w : Rewrite (Option DataType)} (h : Realizes x s parent t w) :
    Realizes (x >>= Typing.value) s parent t w.demand := by
  obtain ⟨s', hrun, hstep, hsize⟩ := h
  refine ⟨s', ?_, hstep, hsize⟩
  rw [run_bind, hrun, Rewrite.demand]
  cases w.result with
  | ok type => cases type <;> rfl
  | error e => rfl

theorem within_value {β : Type} {x : Typing (Option DataType)} {g : DataType → Typing β} {s : Store}
    {parent : Option NodeId} {m : Stamp} {c : Construct (Tree Stamp)} {t : Tree Stamp} {w : Rewrite (Option DataType)}
    {around : Tree Stamp → Tree Stamp} {rest : DataType → Tree Stamp → NodeId → Rewrite β}
    (ho : s.Keeps parent (.node m c)) (ht : t ∈ c.children) (hx : Realizes x s (some m.id) t w)
    (haround : .node m (c.map fun u => if u.id = t.id then w.tree else u) = around w.tree)
    (hrest : ∀ a s', s'.Keeps parent (around w.tree) → s'.size = w.next →
      Realizes (g a) s' parent (around w.tree) (rest a w.tree w.next)) :
    Realizes (x >>= fun a => Typing.value a >>= g) s parent (.node m c) (w.demand.within around rest) := by
  rw [← bind_assoc]
  exact within ho ht hx.demand haround hrest

theorem typed {s : Store} {parent : Option NodeId} {m : Stamp} {c : Construct (Tree Stamp)} {k : NodeId}
    (ho : s.Keeps parent (.node m c)) (hk : s.size = k) (type : DataType) :
    Realizes (Typing.typed m.id type) s parent (.node m c) ⟨.ok (some type), .node { m with type := some type } c, k⟩ :=
  ⟨s.setType m.id type, rfl, .setType ho type, by rw [Store.size_setType, hk]⟩

theorem refl {α : Type} {x : Typing α} {s : Store} {parent : Option NodeId} {t : Tree Stamp} {r : Except Diagnostic α}
    {k : NodeId} (ho : s.Keeps parent t) (hk : s.size = k) (hx : x.run s = (r, s)) :
    Realizes x s parent t ⟨r, t, k⟩ :=
  ⟨s, hx, .refl ho.holds, hk⟩

end Realizes

namespace Store

theorem node?_insertConversion {s : Store} {id : NodeId} {n : Node} (hn : s.node? id = some n) (j : NodeId) :
    (s.insertConversion id).node? j =
      if n.parent = some j then
        ((if j = s.size then some ⟨.convert id, n.span, some .float, n.parent⟩
          else if j = id then (s.node? j).map fun n => { n with parent := some s.size } else s.node? j).map fun n =>
            { n with construct := n.construct.map fun i => if i = id then s.size else i })
      else if j = s.size then some ⟨.convert id, n.span, some .float, n.parent⟩
      else if j = id then (s.node? j).map fun n => { n with parent := some s.size } else s.node? j := by
  have hwrapped : (((s.add (.convert id) n.span).setType s.size .float).setParent s.size n.parent).node? j =
      if j = s.size then some ⟨.convert id, n.span, some .float, n.parent⟩
      else if j = id then (s.node? j).map fun n => { n with parent := some s.size } else s.node? j := by
    simp only [setParent, setType, node?_modify, node?_add, Construct.children, List.mem_singleton]
    by_cases hj : j = s.size
    · subst hj
      simp
    · simp [hj, Ne.symm hj]
  rw [← hwrapped, ← node?_redirectAt, insertConversion_eq hn, wrap]

theorem size_insertConversion {s : Store} {id : NodeId} {n : Node} (hn : s.node? id = some n) :
    (s.insertConversion id).size = s.size + 1 := by
  rw [insertConversion_eq hn]
  cases n.parent <;> simp [redirectAt, size_wrap]

theorem Step.insertConversion {s : Store} {parent : Option NodeId} {m : Stamp} {c : Construct (Tree Stamp)}
    (ho : s.Owns parent (.node m c)) :
    s.Step parent (.node m c) (s.insertConversion m.id)
      (.node ⟨s.size, m.span, some .float⟩ (.convert (.node m c))) := by
  have hn := ho.node?
  have hlt := node?_lt hn
  have hconvert : parent ≠ some s.size := fun h => absurd (ho.outside s.size h).1 (lt_irrefl _)
  have hself : parent ≠ some m.id := fun h => (ho.outside m.id h).2 (by simp)
  refine ⟨.node ?_ fun t ht => ?_, ?_, ?_, fun j hj hmem => ?_⟩
  · rw [node?_insertConversion hn, if_neg hconvert, if_pos rfl]
    rfl
  · obtain rfl := List.mem_singleton.mp ht
    refine .node ?_ fun u hu => (ho.child hu).holds.congr fun j hj => ?_
    · rw [node?_insertConversion hn, if_neg hself, if_neg hlt.ne, if_pos rfl, hn]
      rfl
    · have hmem : j ∈ (Tree.node m c).ids := Tree.mem_ids_of_child hu hj
      have hparent : parent ≠ some j := fun h => (ho.outside j h).2 hmem
      have hm : j ≠ m.id := by
        rintro rfl
        exact (Tree.nodup_child ho.nodup hu).2 hj
      rw [node?_insertConversion hn, if_neg hparent, if_neg (ho.holds.lt j hmem).ne, if_neg hm]
  · rw [size_insertConversion hn]
    omega
  · rw [size_insertConversion hn, Nat.add_sub_cancel_left, Tree.ids_node, Construct.children, List.flatMap_singleton,
      List.range'_one]
    exact (List.perm_append_singleton _ _).symm
  · have hm : j ≠ m.id := by
      rintro rfl
      exact hmem (by simp)
    rw [node?_insertConversion hn, node?_redirectAt, if_neg hj.ne, if_neg hm]
    rfl

theorem Step.widen {s : Store} {parent : Option NodeId} {m : Stamp} {value : Literal}
    (ho : s.Keeps parent (.node m (.constant value))) :
    s.Step parent (.node m (.constant value)) ((s.setConstruct m.id (.constant value.widen)).setType m.id .float)
      (.node { m with type := some .float } (.constant value.widen)) := by
  refine ⟨.node ?_ fun t ht => ?_, ?_, ?_, fun j hj hmem => ?_⟩
  · simp [Store.setType, setConstruct, ho.node?, Construct.map]
  · cases ht
  · simp [Store.setType, setConstruct]
  · simp [Store.setType, setConstruct, Construct.children]
  · have hm : m.id ≠ j := by
      rintro rfl
      exact hmem (by simp)
    rw [show Tree.id (.node { m with type := some .float } (.constant value.widen)) = m.id from rfl]
    simp only [Tree.id_node, redirectAt_self]
    simp [Store.setType, setConstruct, hm]

end Store

namespace Realizes

theorem setType {s : Store} {parent : Option NodeId} {m : Stamp} {c : Construct (Tree Stamp)} {k : NodeId}
    (ho : s.Keeps parent (.node m c)) (hk : s.size = k) (type : DataType) :
    Realizes (NodeAccess.setType m.id type) s parent (.node m c) ⟨.ok (), .node { m with type := some type } c, k⟩ :=
  ⟨s.setType m.id type, rfl, .setType ho type, by rw [Store.size_setType, hk]⟩

theorem read {α : Type} {f : Node → Typing α} {s : Store} {parent : Option NodeId} {m : Stamp}
    {c : Construct (Tree Stamp)} {w : Rewrite α} (ho : s.Keeps parent (.node m c))
    (h : Realizes (f ⟨c.map Tree.id, m.span, m.type, parent⟩) s parent (.node m c) w) :
    Realizes (Typing.node m.id >>= f) s parent (.node m c) w := by
  unfold Realizes
  rw [run_bind, Typing.run_node ho.node?]
  exact h

theorem widenTo (target : DataType) {t : Tree Stamp} {fuel : ℕ} (hf : t.spine ≤ fuel) {s : Store}
    {parent : Option NodeId} (ho : s.Owns parent t) {k : NodeId} (hk : s.size = k) :
    Realizes (Typing.widenTo fuel t.id target) s parent t (t.widenTo target k) := by
  induction t generalizing fuel s parent k with
  | node m c ih =>
    obtain ⟨fuel, rfl⟩ : ∃ n, fuel = n + 1 := ⟨fuel - 1, by have := (Tree.node m c).spine_pos; omega⟩
    rw [Tree.id_node, Typing.widenTo]
    have hkeeps := ho.toKeeps
    apply Realizes.read hkeeps
    unfold Tree.widenTo
    dsimp only
    cases m.type with
    | none => exact .refl hkeeps hk rfl
    | some source =>
      dsimp only
      split_ifs
      · exact .refl hkeeps hk rfl
      · exact .refl hkeeps hk rfl
      · cases c with
        | constant value =>
          refine ⟨_, Typing.run_widen ho.node? rfl, .widen hkeeps, ?_⟩
          simp [Store.setType, Store.setConstruct, hk]
        | compute o left right =>
          have hl : left ∈ (Construct.compute o left right).children := by simp [Construct.children]
          have hr : right ∈ (Construct.compute o left right).children := by simp [Construct.children]
          have hne := Tree.id_ne_of_children ho.nodup rfl
          rw [Tree.spine] at hf
          refine .within hkeeps hl (ih left hl (by omega) (ho.child hl) hk) ?_ fun _ s' ho' hk' => ?_
          · simp [Construct.map, hne.symm]
          · have hl' : right ∈ (Construct.compute o (left.widenTo target k).tree right).children := by
              simp [Construct.children]
            have hne' := Tree.id_ne_of_children ho'.nodup rfl
            refine .within ho' hl' (ih right hr (by omega) (ho'.child hl') hk') ?_ fun _ s'' ho'' hk'' => ?_
            · simp [Construct.map, hne']
            · exact .setType ho'' hk'' target
        | reference name | convert operand =>
          refine ⟨s.insertConversion m.id, Typing.run_insertConversion ho.node?, hk ▸ .insertConversion ho, ?_⟩
          rw [Store.size_insertConversion ho.node?, hk]
        | _ => exact .refl hkeeps hk rfl

theorem widenTo_infer (table : SymbolTable) (target : DataType) {t : Tree Stamp} {j : NodeId} {fuel : ℕ}
    (hf : t.height ≤ fuel) {s : Store} {parent : Option NodeId} (ho : s.Owns parent (t.infer table j).tree) {k : NodeId}
    (hk : s.size = k) :
    Realizes (Typing.widenTo fuel t.id target) s parent (t.infer table j).tree
      ((t.infer table j).tree.widenTo target k) := by
  rw [← Tree.infer_id table t j]
  exact .widenTo target (by rw [Tree.spine_infer]; exact t.spine_le_height.trans hf) ho hk

theorem lookUp (table : SymbolTable) {s : Store} {parent : Option NodeId} {m : Stamp} {c : Construct (Tree Stamp)}
    (name : Char) {k : NodeId} (ho : s.Keeps parent (.node m c)) (hk : s.size = k) :
    Realizes (do Typing.typed m.id (← table.typeOf name)) s parent (.node m c) (Tree.lookUp table m c name k) := by
  unfold Tree.lookUp
  cases table.typeOf name with
  | ok type => exact .typed ho hk type
  | error e => exact .refl ho hk rfl

theorem inferItems (table : SymbolTable) {m : Stamp} {fuel : ℕ} {finished items : List (Tree Stamp)}
    (ih : ∀ t ∈ items, ∀ {s : Store}, s.Keeps (some m.id) t → ∀ {k : NodeId}, s.size = k →
      Realizes (Typing.infer table fuel t.id) s (some m.id) t (t.infer table k))
    {s : Store} {parent : Option NodeId} (ho : s.Keeps parent (.node m (.program (finished ++ items)))) {k : NodeId}
    (hk : s.size = k) :
    Realizes (do (items.map Tree.id).forM fun item => discard (Typing.infer table fuel item); return none) s parent
      (.node m (.program (finished ++ items))) (Tree.inferItems table m finished items k) := by
  induction items generalizing finished s k with
  | nil =>
    rw [List.append_nil] at ho ⊢
    exact .refl ho hk rfl
  | cons item items iht =>
    have hmem : item ∈ (Construct.program (finished ++ item :: items)).children := by simp [Construct.children]
    rw [List.map_cons, List.forM, bind_assoc, discard_bind, Tree.inferItems]
    refine .within ho hmem (ih item (by simp) (ho.child hmem).toKeeps hk) ?_ fun _ s' ho' hk' => ?_
    · rw [Construct.map]
      exact congrArg (fun items => Tree.node m (.program items)) (Tree.map_replace _ ho.nodup rfl)
    · rw [List.append_cons] at ho' ⊢
      exact iht (fun t ht => ih t (List.mem_cons_of_mem item ht)) ho' hk'

theorem infer (table : SymbolTable) {t : Tree Stamp} {fuel : ℕ} (hf : t.height ≤ fuel) {s : Store}
    {parent : Option NodeId} (ho : s.Keeps parent t) {k : NodeId} (hk : s.size = k) :
    Realizes (Typing.infer table fuel t.id) s parent t (t.infer table k) := by
  induction t generalizing fuel s parent k with
  | node m c ih =>
    obtain ⟨fuel, rfl⟩ : ∃ n, fuel = n + 1 := ⟨fuel - 1, by rw [Tree.height_node] at hf; omega⟩
    have hbelow : ∀ t ∈ c.children, t.height ≤ fuel := fun t ht => by
      have := Tree.height_lt_of_mem (a := m) ht
      omega
    rw [Tree.id_node, Typing.infer]
    apply Realizes.read ho
    cases c with
    | program items =>
      exact .inferItems table (fun t ht _ ho _ hk => ih t ht (hbelow t ht) ho hk) ho hk
    | declaration type target =>
      have hmem : target ∈ (Construct.declaration type target).children := by simp [Construct.children]
      simp only [Construct.map, discard_bind]
      rw [Tree.infer]
      refine .within_value ho hmem (ih target hmem (hbelow target hmem) (ho.child hmem).toKeeps hk) ?_
        fun _ s' ho' hk' => .typed ho' hk' type
      simp [Construct.map]
    | assign target value =>
      have ht : target ∈ (Construct.assign target value).children := by simp [Construct.children]
      have hv : value ∈ (Construct.assign target value).children := by simp [Construct.children]
      have hne := Tree.id_ne_of_children ho.nodup rfl
      simp only [Construct.map, discard_bind]
      rw [Tree.infer]
      refine .within_value ho ht (ih target ht (hbelow target ht) (ho.child ht).toKeeps hk) ?_ fun type s₁ ho₁ hk₁ => ?_
      · simp [Construct.map, hne.symm]
      have hv₁ : value ∈ (Construct.assign (target.infer table k).tree value).children := by simp [Construct.children]
      have hne₁ := Tree.id_ne_of_children ho₁.nodup rfl
      refine .within_value ho₁ hv₁ (ih value hv (hbelow value hv) (ho₁.child hv₁).toKeeps hk₁) ?_ fun _ s₂ ho₂ hk₂ => ?_
      · simp [Construct.map, hne₁]
      have hne₂ := Tree.id_ne_of_children ho₂.nodup rfl
      refine .within ho₂ (by simp [Construct.children]) (.widenTo_infer table type (hbelow value hv)
        (ho₂.child (by simp [Construct.children])) hk₂) ?_ fun _ s₃ ho₃ hk₃ => .typed ho₃ hk₃ type
      simp [Construct.map, hne₂]
    | compute o left right =>
      have hl : left ∈ (Construct.compute o left right).children := by simp [Construct.children]
      have hr : right ∈ (Construct.compute o left right).children := by simp [Construct.children]
      have hne := Tree.id_ne_of_children ho.nodup rfl
      simp only [Construct.map]
      rw [Tree.infer]
      refine .within_value ho hl (ih left hl (hbelow left hl) (ho.child hl).toKeeps hk) ?_ fun leftType s₁ ho₁ hk₁ => ?_
      · simp [Construct.map, hne.symm]
      have hr₁ : right ∈ (Construct.compute o (left.infer table k).tree right).children := by simp [Construct.children]
      have hne₁ := Tree.id_ne_of_children ho₁.nodup rfl
      refine .within_value ho₁ hr₁ (ih right hr (hbelow right hr) (ho₁.child hr₁).toKeeps hk₁) ?_ fun rightType s₂ ho₂ hk₂ => ?_
      · simp [Construct.map, hne₁]
      have hne₂ := Tree.id_ne_of_children ho₂.nodup rfl
      refine .within ho₂ (by simp [Construct.children]) (.widenTo_infer table _ (hbelow left hl)
        (ho₂.child (by simp [Construct.children])) hk₂) ?_ fun _ s₃ ho₃ hk₃ => ?_
      · simp [Construct.map, hne₂.symm]
      have hne₃ := Tree.id_ne_of_children ho₃.nodup rfl
      refine .within ho₃ (by simp [Construct.children]) (.widenTo_infer table _ (hbelow right hr)
        (ho₃.child (by simp [Construct.children])) hk₃) ?_ fun _ s₄ ho₄ hk₄ => .typed ho₄ hk₄ _
      simp [Construct.map, hne₃]
    | reference name => exact .lookUp table name ho hk
    | print name => exact .lookUp table name ho hk
    | constant literal => exact .typed ho hk literal.type
    | convert operand =>
      have hmem : operand ∈ (Construct.convert operand).children := by simp [Construct.children]
      simp only [Construct.map, discard_bind]
      rw [Tree.infer]
      refine .within_value ho hmem (ih operand hmem (hbelow operand hmem) (ho.child hmem).toKeeps hk) ?_
        fun _ s' ho' hk' => .typed ho' hk' .float
      simp [Construct.map]

end Realizes

theorem Store.Keeps.findTypes {s : Store} {parent : Option NodeId} {t : Tree Stamp} (ho : s.Keeps parent t)
    (hid : t.id = root) (table : SymbolTable) :
    ∃ s', (Store.findTypes table).run s = ((t.infer table s.size).result.map fun _ => (), s') ∧
      s.Step parent t s' (t.infer table s.size).tree := by
  have hf : t.height ≤ Typing.depthBound s := (ho.holds.height_le ho.nodup).trans (Nat.le_add_right _ _)
  obtain ⟨s', hrun, hstep, -⟩ := Realizes.infer table hf ho rfl
  refine ⟨s', ?_, hstep⟩
  rw [Store.findTypes, Typing.findTypes, Typing.run_store, ho.holds.tree? hid, if_neg (by simp), run_discard, ← hid, hrun]

end AddingCalculator
