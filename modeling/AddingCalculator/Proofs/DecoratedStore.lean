import AddingCalculator.Proofs.Numerals
import AddingCalculator.Proofs.TypingSimulation
import AddingCalculator.Proofs.WellFormed

/-!
# Decorated stores

Finding the types of a well-formed store keeps each of its nodes. What changes besides types is that integers are
widened and that conversions are put between references and their parents, so taking out the conversions and putting
the integers back gives the store without types. This holds of the store that is left behind by a failure, too.
-/

namespace AddingCalculator

theorem exists_map_of_forall₂ {α : Type} {R : α → α → Prop} {xs ys : List α} (h : List.Forall₂ R xs ys) (hd : xs.Nodup) :
    ∃ f : α → α, ys = xs.map f ∧ ∀ x ∈ xs, R x (f x) := by
  classical
  induction h with
  | nil => exact ⟨id, rfl, by simp⟩
  | @cons x y xs ys hxy _ ih =>
    obtain ⟨hx, hd⟩ := List.nodup_cons.mp hd
    obtain ⟨f, rfl, hf⟩ := ih hd
    have hother (z : α) (hz : z ∈ xs) : Function.update f x y z = f z := by
      apply Function.update_of_ne
      rintro rfl
      exact hx hz
    refine ⟨Function.update f x y, ?_, fun z hz => ?_⟩
    · rw [List.map_cons, Function.update_self, List.map_congr_left hother]
    · rcases List.mem_cons.mp hz with rfl | hz
      · rwa [Function.update_self]
      · rw [hother z hz]
        exact hf z hz

namespace Tree

theorem Decorates.inv {b : Bool} {m : Stamp} {c : Construct (Tree Stamp)} {t' : Tree Stamp}
    (h : Decorates b (.node m c) t') (hd : (node m c).ids.Nodup) :
    (∃ type f, t' = .node { m with type := type } (c.map f) ∧ ∀ u ∈ c.children, Decorates true u (f u)) ∨
      (∃ n, c = .constant (.integer n) ∧ t' = .node { m with type := some .float } (.constant (.decimal (.ofInt n)))) ∨
      ∃ name k, b = true ∧ c = .reference name ∧
        t' = .node ⟨k, m.span, some .float⟩ (.convert (.node { m with type := some .integer } (.reference name))) := by
  have hchildren : c.children.Nodup := (nodup_slots hd).of_map
  have hpair {l r l' r' : Tree Stamp} (hc : c.children = [l, r]) (hl : Decorates true l l') (hr : Decorates true r r') :
      ∃ f : Tree Stamp → Tree Stamp, [l', r'] = [l, r].map f ∧ ∀ u ∈ [l, r], Decorates true u (f u) :=
    exists_map_of_forall₂ (.cons hl (.cons hr .nil)) (hc ▸ hchildren)
  cases c with
  | program items =>
    obtain ⟨items', rfl, hitems⟩ := h.exists_program
    obtain ⟨f, rfl, hf⟩ := exists_map_of_forall₂ hitems hchildren
    exact .inl ⟨m.type, f, rfl, fun u hu => (hf u hu).operand⟩
  | declaration declared target =>
    cases h with
    | @declaration _ _ type _ _ target' h =>
      refine .inl ⟨type, fun _ => target', rfl, fun u hu => ?_⟩
      rw [List.mem_singleton.mp hu]
      exact h.operand
  | assign target value =>
    cases h with
    | @assign _ _ type _ target' _ value' h hv =>
      obtain ⟨f, hf, hdecorates⟩ := hpair rfl h.operand hv
      refine .inl ⟨type, f, ?_, hdecorates⟩
      simp only [List.map_cons, List.map_nil, List.cons.injEq, and_true] at hf
      rw [Construct.map, ← hf.1, ← hf.2]
  | compute o left right =>
    cases h with
    | @compute _ _ type _ _ left' _ right' hl hr =>
      obtain ⟨f, hf, hdecorates⟩ := hpair rfl hl hr
      refine .inl ⟨type, f, ?_, hdecorates⟩
      simp only [List.map_cons, List.map_nil, List.cons.injEq, and_true] at hf
      rw [Construct.map, ← hf.1, ← hf.2]
  | reference name =>
    cases h with
    | @reference _ _ type => exact .inl ⟨type, fun u => u, rfl, fun u hu => by cases hu⟩
    | @converted _ _ k => exact .inr (.inr ⟨name, k, rfl, rfl, rfl⟩)
  | constant value =>
    cases h with
    | @constant _ _ type => exact .inl ⟨type, fun u => u, rfl, fun u hu => by cases hu⟩
    | @widened _ _ n => exact .inr (.inl ⟨n, rfl, rfl⟩)
  | print name =>
    cases h with
    | @print _ _ type => exact .inl ⟨type, fun u => u, rfl, fun u hu => by cases hu⟩
  | convert operand =>
    cases h with
    | @convert _ _ type _ operand' h =>
      refine .inl ⟨type, fun _ => operand', rfl, fun u hu => ?_⟩
      rw [List.mem_singleton.mp hu]
      exact h.operand

theorem mem_children_map {c : Construct (Tree Stamp)} (f : Tree Stamp → Tree Stamp) {u : Tree Stamp}
    (hu : u ∈ c.children) : f u ∈ (c.map f).children := by
  rw [Construct.children_map]
  exact List.mem_map_of_mem hu

theorem Decorates.ids_subset {b : Bool} {t t' : Tree Stamp} (h : Decorates b t t') (hd : t.ids.Nodup) : t.ids ⊆ t'.ids := by
  induction t generalizing b t' with
  | node m c ih =>
    intro j hj
    rcases h.inv hd with ⟨type, f, rfl, hf⟩ | ⟨n, rfl, rfl⟩ | ⟨name, k, -, rfl, rfl⟩
    · rcases mem_ids_node.mp hj with rfl | ⟨u, hu, hj⟩
      · exact id_mem_ids _
      · exact mem_ids_of_child (mem_children_map f hu) (ih u hu (hf u hu) (nodup_child hd hu).1 hj)
    · exact hj
    · rw [ids_node]
      exact List.mem_cons_of_mem _ hj

theorem Decorates.low_child {m m' : Stamp} {c : Construct (Tree Stamp)} {f : Tree Stamp → Tree Stamp} {size : ℕ}
    (hf : ∀ u ∈ c.children, Decorates true u (f u)) (hd : (node m c).ids.Nodup) (hd' : (node m' (c.map f)).ids.Nodup)
    (hm : m'.id = m.id) (hlow : ∀ j ∈ (node m' (c.map f)).ids, j < size → j ∈ (node m c).ids) {u : Tree Stamp}
    (hu : u ∈ c.children) : ∀ j ∈ (f u).ids, j < size → j ∈ u.ids := by
  intro j hj hlt
  have hslots := nodup_slots hd'
  rw [Construct.children_map, List.map_map] at hslots
  rcases mem_ids_node.mp (hlow j (mem_ids_of_child (mem_children_map f hu) hj) hlt) with rfl | ⟨v, hv, hjv⟩
  · rw [← hm] at hj
    exact absurd hj (nodup_child hd' (mem_children_map f hu)).2
  · by_cases heq : (f u).id = (f v).id
    · rwa [List.inj_on_of_nodup_map hslots hu hv heq]
    · have hdisjoint := disjoint_children hd' (mem_children_map f hu) (mem_children_map f hv) heq
      exact absurd ((hf v hv).ids_subset (nodup_child hd hv).1 hjv) (hdisjoint hj)

end Tree

namespace Store

/-- The new node `k` converts the reference `id` and stands where it stood, in the same slot of the node `p`. -/
structure Inserted (s s' : Store) (k id p : NodeId) : Prop where
  fresh : s.size ≤ k
  reachable : s.Reachable p
  nodes : ∃ name span type, s.node? id = some ⟨.reference name, span, type, some p⟩ ∧
    s'.node? id = some ⟨.reference name, span, some .integer, some k⟩ ∧
    s'.node? k = some ⟨.convert id, span, some .float, some p⟩
  slot : ∃ n n', s.node? p = some n ∧ s'.node? p = some n' ∧
    ∃ i : ℕ, n.construct.children[i]? = some id ∧ n'.construct.children[i]? = some k

structure Retained (s s' : Store) (id : NodeId) (n n' : Node) : Prop where
  span : n'.span = n.span
  construct : n'.construct.map (fun _ => ()) = n.construct.map (fun _ => ()) ∨
    ∃ k, n.construct = .constant (.integer k) ∧ n'.construct = .constant (.decimal (.ofInt k))
  slots : ∀ (i : ℕ) child, n.construct.children[i]? = some child → n'.construct.children[i]? = some child ∨
    ∃ k, n'.construct.children[i]? = some k ∧ s.Inserted s' k child id
  parent : n'.parent = n.parent ∨ ∃ k p, n.parent = some p ∧ n'.parent = some k ∧ s.Inserted s' k id p

def Widened (s s' : Store) (id : NodeId) (k : ℤ) : Prop :=
  ∃ n n', s.node? id = some n ∧ s'.node? id = some n' ∧ n.construct = .constant (.integer k) ∧
    n'.construct = .constant (.decimal (.ofInt k))

theorem Retained.refl (s s' : Store) (id : NodeId) (n : Node) : s.Retained s' id n n :=
  ⟨rfl, .inl rfl, fun _ _ h => .inl h, .inl rfl⟩

structure DecoratedAt (s s' : Store) (parent : Option NodeId) (b : Bool) (t t' : Tree Stamp) : Prop where
  decorates : Tree.Decorates b t t'
  before : s.Keeps parent t
  after : s'.Keeps parent t'
  reachable : s.Reachable t.id
  low : ∀ j ∈ t'.ids, j < s.size → j ∈ t.ids
  slot : b = true → ∃ p n n', parent = some p ∧ s.Reachable p ∧ s.node? p = some n ∧ s'.node? p = some n' ∧
    ∃ i : ℕ, n.construct.children[i]? = some t.id ∧ n'.construct.children[i]? = some t'.id

namespace DecoratedAt

variable {s s' : Store} {parent : Option NodeId} {b : Bool} {m : Stamp} {c : Construct (Tree Stamp)}

theorem child {type : Option DataType} {f : Tree Stamp → Tree Stamp} {i : ℕ} {u : Tree Stamp}
    (h : s.DecoratedAt s' parent b (.node m c) (.node { m with type := type } (c.map f)))
    (hf : ∀ u ∈ c.children, Tree.Decorates true u (f u)) (hi : c.children[i]? = some u) :
    s.DecoratedAt s' (some m.id) true u (f u) := by
  have hu := List.mem_of_getElem? hi
  refine ⟨hf u hu, (h.before.child hu).toKeeps, (h.after.child (Tree.mem_children_map f hu)).toKeeps,
    h.reachable.child (h.before.holds.child_iff.mpr ⟨u, hu, rfl⟩),
    Tree.Decorates.low_child hf h.before.nodup h.after.nodup rfl h.low hu, fun _ => ?_⟩
  refine ⟨m.id, _, _, rfl, h.reachable, h.before.node?, h.after.node?, i, ?_, ?_⟩
  · rw [Construct.children_map, List.getElem?_map, hi, Option.map_some]
  · rw [Construct.children_map, Construct.children_map, List.getElem?_map, List.getElem?_map, hi, Option.map_some,
      Option.map_some]

theorem inserted {name : Char} {k : NodeId} (h : s.DecoratedAt s' parent true (.node m (.reference name))
      (.node ⟨k, m.span, some .float⟩ (.convert (.node { m with type := some .integer } (.reference name))))) :
    ∃ p, parent = some p ∧ s.Inserted s' k m.id p := by
  obtain ⟨p, n, n', rfl, hp, hn, hn', hslot⟩ := h.slot rfl
  have hmem := List.mem_singleton_self (Tree.node { m with type := some .integer } (.reference name))
  have hnodes := And.intro (h.after.child hmem).node? h.after.node?
  refine ⟨p, rfl, ?_, hp, ⟨name, m.span, m.type, h.before.node?, hnodes⟩, n, n', hn, hn', hslot⟩
  -- An old number is the number of the reference, but the reference stands below the conversion.
  by_contra hk
  have hold := h.low k (Tree.id_mem_ids _) (not_le.mp hk)
  rw [Tree.ids_node] at hold
  obtain rfl := List.mem_singleton.mp hold
  exact (Tree.nodup_child h.after.nodup hmem).2 (Tree.id_mem_ids _)

theorem id_eq_or_inserted {t t' : Tree Stamp} (h : s.DecoratedAt s' parent b t t') :
    t'.id = t.id ∨ ∃ p, parent = some p ∧ s.Inserted s' t'.id t.id p := by
  obtain ⟨m, c⟩ := t
  rcases h.decorates.inv h.before.nodup with ⟨type, f, rfl, -⟩ | ⟨n, rfl, rfl⟩ | ⟨name, k, rfl, rfl, rfl⟩
  · exact .inl rfl
  · exact .inl rfl
  · exact .inr h.inserted

theorem retained_node {type : Option DataType} {f : Tree Stamp → Tree Stamp}
    (h : s.DecoratedAt s' parent b (.node m c) (.node { m with type := type } (c.map f)))
    (hf : ∀ u ∈ c.children, Tree.Decorates true u (f u)) :
    s.Retained s' m.id ⟨c.map Tree.id, m.span, m.type, parent⟩ ⟨(c.map f).map Tree.id, m.span, type, parent⟩ := by
  refine ⟨rfl, .inl ?_, fun i id hi => ?_, .inl rfl⟩
  · simp only [Construct.map_map]
  · rw [Construct.children_map, List.getElem?_map, Option.map_eq_some_iff] at hi
    obtain ⟨u, hi, rfl⟩ := hi
    rw [Construct.children_map, Construct.children_map, List.getElem?_map, List.getElem?_map, hi, Option.map_some,
      Option.map_some]
    rcases (h.child hf hi).id_eq_or_inserted with heq | ⟨p, hp, hinserted⟩
    · rw [heq]
      exact .inl rfl
    · obtain rfl := Option.some.inj hp
      exact .inr ⟨(f u).id, rfl, hinserted⟩

theorem retained {t t' : Tree Stamp} (h : s.DecoratedAt s' parent b t t') :
    ∀ j ∈ t.ids, ∃ n n', s.node? j = some n ∧ s'.node? j = some n' ∧ s.Retained s' j n n' := by
  induction t generalizing b t' parent with
  | node m c ih =>
    intro j hj
    rcases h.decorates.inv h.before.nodup with ⟨type, f, rfl, hf⟩ | ⟨n, rfl, rfl⟩ | ⟨name, k, rfl, rfl, rfl⟩
    · rcases Tree.mem_ids_node.mp hj with rfl | ⟨u, hu, hj⟩
      · exact ⟨_, _, h.before.node?, h.after.node?, h.retained_node hf⟩
      · obtain ⟨i, hi⟩ := List.mem_iff_getElem?.mp hu
        exact ih u hu (h.child hf hi) j hj
    · obtain rfl := List.mem_singleton.mp hj
      exact ⟨_, _, h.before.node?, h.after.node?, rfl, .inr ⟨n, rfl, rfl⟩, fun i id hi => (by cases hi), .inl rfl⟩
    · obtain rfl := List.mem_singleton.mp hj
      obtain ⟨p, rfl, hinserted⟩ := h.inserted
      have hchild := h.after.child (List.mem_singleton_self _)
      exact ⟨_, _, h.before.node?, hchild.node?, rfl, .inl rfl, fun i id hi => (by cases hi), .inr ⟨k, p, rfl, rfl, hinserted⟩⟩

theorem added {t t' : Tree Stamp} (h : s.DecoratedAt s' parent b t t') :
    ∀ k ∈ t'.ids, k ∈ t.ids ∨ ∃ id p, s.Inserted s' k id p := by
  induction t generalizing b t' parent with
  | node m c ih =>
    intro k hk
    rcases h.decorates.inv h.before.nodup with ⟨type, f, rfl, hf⟩ | ⟨n, rfl, rfl⟩ | ⟨name, k', rfl, rfl, rfl⟩
    · rcases Tree.mem_ids_node.mp hk with rfl | ⟨v, hv, hk⟩
      · exact .inl (Tree.id_mem_ids _)
      · rw [Construct.children_map] at hv
        obtain ⟨u, hu, rfl⟩ := List.mem_map.mp hv
        obtain ⟨i, hi⟩ := List.mem_iff_getElem?.mp hu
        exact (ih u hu (h.child hf hi) k hk).imp_left (Tree.mem_ids_of_child hu)
    · exact .inl hk
    · rcases List.mem_cons.mp hk with rfl | hk
      · obtain ⟨p, -, hinserted⟩ := h.inserted
        exact .inr ⟨m.id, p, hinserted⟩
      · exact .inl hk

end DecoratedAt

end Store

theorem Construct.ext_children {α : Type} {c d : Construct α} (h : c.map (fun _ => ()) = d.map (fun _ => ()))
    (hc : c.children = d.children) : c = d := by
  cases c <;> cases d <;> simp_all [Construct.map, Construct.children]

namespace Store

theorem ext_node? {s s' : Store} (h : ∀ id, s.node? id = s'.node? id) : s = s' := by
  obtain ⟨nodes⟩ := s
  obtain ⟨nodes'⟩ := s'
  exact congrArg Store.mk (Array.ext_getElem? h)

def slotBefore (s : Store) (size : ℕ) (id child : NodeId) : NodeId :=
  match s.node? child with
  | some ⟨.convert operand, _, _, some p⟩ => if size ≤ child ∧ p = id then operand else child
  | _ => child

def parentBefore (s : Store) (size : ℕ) (id parent : NodeId) : Option NodeId :=
  match s.node? parent with
  | some ⟨.convert operand, _, _, p⟩ => if size ≤ parent ∧ operand = id then p else some parent
  | _ => some parent

def nodeBefore (s : Store) (size : ℕ) (integer? : Option ℤ) (id : NodeId) (n : Node) : Node where
  construct := match integer? with
    | some k => .constant (.integer k)
    | none => n.construct.map (s.slotBefore size id)
  span := n.span
  parent := n.parent.bind (s.parentBefore size id)

/-- The first `size` nodes without types, with the conversions behind them taken out and the given integers put back. -/
def restored (s : Store) (size : ℕ) (integer? : NodeId → Option ℤ) : Store :=
  ⟨(s.nodes.take size).mapIdx fun id => s.nodeBefore size (integer? id) id⟩

def untyped (s : Store) : Store :=
  ⟨s.nodes.map fun n => { n with type := none }⟩

theorem node?_restored (s : Store) {size : ℕ} (hsize : size ≤ s.size) (integer? : NodeId → Option ℤ) (id : ℕ) :
    (s.restored size integer?).node? id =
      if id < size then (s.node? id).map (s.nodeBefore size (integer? id) id) else none := by
  have hmin : min size s.nodes.size = size := min_eq_left hsize
  rw [node?, restored, Array.getElem?_mapIdx, Array.take_eq_extract, Array.getElem?_extract, hmin, Nat.sub_zero, Nat.zero_add]
  split
  · rfl
  · rfl

theorem node?_untyped (s : Store) (id : NodeId) :
    s.untyped.node? id = (s.node? id).map fun n => { n with type := none } :=
  Array.getElem?_map

theorem Inserted.slotBefore {s s' : Store} {k id p : NodeId} (h : s.Inserted s' k id p) :
    s'.slotBefore s.size p k = id := by
  obtain ⟨name, span, type, -, -, hk⟩ := h.nodes
  simp only [Store.slotBefore, hk, h.fresh, and_self, if_true]

theorem Inserted.parentBefore {s s' : Store} {k id p : NodeId} (h : s.Inserted s' k id p) :
    s'.parentBefore s.size id k = some p := by
  obtain ⟨name, span, type, -, -, hk⟩ := h.nodes
  simp only [Store.parentBefore, hk, h.fresh, and_self, if_true]

section

variable {s s' : Store} (hs : s.WellFormed) (hadded : ∀ k, s.size ≤ k → k < s'.size → ∃ id p, s.Inserted s' k id p)

include hs hadded

theorem slotBefore_of_child {id child : NodeId} (hc : s.Child id child) : s'.slotBefore s.size id child = child := by
  unfold slotBefore
  split
  · rename_i operand span type p hchild
    split_ifs with hlow
    -- Only nodes that can be reached have got conversions, and those had none but old nodes in their slots.
    · obtain ⟨hlow, rfl⟩ := hlow
      obtain ⟨j, q, hinserted⟩ := hadded child hlow (node?_lt hchild)
      obtain ⟨_, _, _, -, -, hk⟩ := hinserted.nodes
      rw [hchild] at hk
      cases hk
      obtain ⟨n, hn⟩ := hs.present child (hinserted.reachable.child hc)
      exact absurd (node?_lt hn) (not_lt.mpr hlow)
    · rfl
  · rfl

theorem parentBefore_of_parent {id q : NodeId} {n : Node} (hn : s.node? id = some n) (hq : n.parent = some q) :
    s'.parentBefore s.size id q = some q := by
  unfold parentBefore
  split
  · rename_i operand span type p hparent
    split_ifs with hlow
    · obtain ⟨hlow, rfl⟩ := hlow
      obtain ⟨j, r, hinserted⟩ := hadded q hlow (node?_lt hparent)
      obtain ⟨_, _, _, hj, -, hk⟩ := hinserted.nodes
      rw [hparent] at hk
      cases hk
      rw [hn] at hj
      cases hj
      cases hq
      obtain ⟨m, hm⟩ := hs.present q hinserted.reachable
      exact absurd (node?_lt hm) (not_lt.mpr hlow)
    · rfl
  · rfl

theorem Retained.construct_eq {id : NodeId} {n n' : Node} (hn : s.node? id = some n) (h : s.Retained s' id n n')
    (hsame : n'.construct.map (fun _ => ()) = n.construct.map (fun _ => ())) :
    n'.construct.map (s'.slotBefore s.size id) = n.construct := by
  apply Construct.ext_children
  · rw [Construct.map_map]
    exact hsame
  · have hlength : n'.construct.children.length = n.construct.children.length := by
      have hchildren := congrArg (fun c => c.children.length) hsame
      simpa only [Construct.children_map, List.length_map] using hchildren
    rw [Construct.children_map]
    apply List.ext_getElem?
    intro i
    rw [List.getElem?_map]
    cases hi : n.construct.children[i]? with
    | none =>
      rw [List.getElem?_eq_none_iff, ← hlength, ← List.getElem?_eq_none_iff] at hi
      rw [hi, Option.map_none]
    | some child =>
      rcases h.slots i child hi with hi' | ⟨k, hi', hinserted⟩
      · rw [hi', Option.map_some, slotBefore_of_child hs hadded ⟨n, hn, List.mem_of_getElem? hi⟩]
      · rw [hi', Option.map_some, hinserted.slotBefore]

theorem Retained.parent_eq {id : NodeId} {n n' : Node} (hn : s.node? id = some n) (h : s.Retained s' id n n') :
    n'.parent.bind (s'.parentBefore s.size id) = n.parent := by
  rcases h.parent with heq | ⟨k, p, hp, hk, hinserted⟩
  · rw [heq]
    cases hq : n.parent with
    | none => rfl
    | some q => exact parentBefore_of_parent hs hadded hn hq
  · rw [hk, hp]
    exact hinserted.parentBefore

theorem exists_restored (hkept : ∀ id n, s.node? id = some n → ∃ n', s'.node? id = some n' ∧ s.Retained s' id n n')
    (hsize : s.size ≤ s'.size) :
    ∃ integer? : NodeId → Option ℤ,
      (∀ id k, integer? id = some k → s.Widened s' id k) ∧ s'.restored s.size integer? = s.untyped := by
  have hnode (id : ℕ) : ∃ o : Option ℤ, (∀ k, o = some k → s.Widened s' id k) ∧
      (id < s.size → (s'.node? id).map (s'.nodeBefore s.size o id) = (s.node? id).map fun n => { n with type := none }) := by
    cases hn : s.node? id with
    | none =>
      refine ⟨none, fun k hk => (by cases hk), fun hid => ?_⟩
      exact absurd hid (not_lt.mpr (Array.getElem?_eq_none_iff.mp hn))
    | some n =>
      obtain ⟨n', hn', h⟩ := hkept id n hn
      have hparent := h.parent_eq hs hadded hn
      rcases h.construct with hsame | ⟨k, hk, hk'⟩
      · refine ⟨none, fun k hk => (by cases hk), fun _ => ?_⟩
        simp only [hn', Option.map_some, Store.nodeBefore, h.construct_eq hs hadded hn hsame, hparent, h.span]
      · refine ⟨some k, fun j hj => ?_, fun _ => ?_⟩
        · cases hj
          exact ⟨n, n', hn, hn', hk, hk'⟩
        · simp only [hn', Option.map_some, Store.nodeBefore, ← hk, hparent, h.span]
  choose integer? hinteger hbefore using hnode
  refine ⟨integer?, hinteger, ext_node? fun id => ?_⟩
  rw [node?_restored s' hsize, node?_untyped]
  split
  · rename_i hid
    exact hbefore id hid
  · rename_i hid
    rw [node?, Array.getElem?_eq_none (not_lt.mp hid), Option.map_none]

end

/-- The store `s'` is the store `s` with types, with some integers widened and with conversions between some
references and their parents. -/
structure Decorated (s s' : Store) : Prop where
  wellFormed : s'.WellFormed
  kept : ∀ id n, s.node? id = some n → ∃ n', s'.node? id = some n' ∧ s.Retained s' id n n'
  added : ∀ k, s.size ≤ k → k < s'.size → ∃ id p, s.Inserted s' k id p
  restored : ∃ integer? : NodeId → Option ℤ,
    (∀ id k, integer? id = some k → s.Widened s' id k) ∧ s'.restored s.size integer? = s.untyped
  run : (s'.run : Except Fault (Outcome Binary64)) = s.run

theorem Step.decorated {s s' : Store} {parent : Option NodeId} {t t' : Tree Stamp} (h : s.Step parent t s' t')
    (hs : s.Keeps parent t) (hid : t.id = root) (hid' : t'.id = root) (hd : Tree.Decorates false t t') : s.Decorated s' := by
  have hs' := h.keeps hs
  have hwf := hs.wellFormed hid
  have hat : s.DecoratedAt s' parent false t t' := by
    refine ⟨hd, hs, hs', ?_, fun j hj hlt => ?_, fun hb => by cases hb⟩
    · rw [hid]
      exact .refl
    · exact (h.mem_ids.mp hj).resolve_right fun hj => absurd hj.1 (not_le.mpr hlt)
  have hkept (id : ℕ) (n : Node) (hn : s.node? id = some n) : ∃ n', s'.node? id = some n' ∧ s.Retained s' id n n' := by
    by_cases hmem : id ∈ t.ids
    · obtain ⟨m, n', hm, hn', hretained⟩ := hat.retained id hmem
      rw [hn] at hm
      cases hm
      exact ⟨n', hn', hretained⟩
    · refine ⟨n, ?_, .refl s s' id n⟩
      rw [h.kept id (node?_lt hn) hmem, hid, hid', redirectAt_self, hn]
  have hadded (k : ℕ) (hk : s.size ≤ k) (hlt : k < s'.size) : ∃ id p, s.Inserted s' k id p := by
    refine (hat.added k (h.mem_ids.mpr (.inr ⟨hk, hlt⟩))).resolve_left fun hmem => ?_
    exact absurd (hs.holds.lt k hmem) (not_lt.mpr hk)
  refine ⟨hs'.wellFormed hid', hkept, hadded, exists_restored hwf hadded hkept h.grows, ?_⟩
  rw [Store.run, Store.run, hs'.holds.tree? hid', hs.holds.tree? hid]
  exact hd.run

theorem findTypes_decorates (s : Store) (hs : s.WellFormed) (table : SymbolTable) :
    s.Decorated ((Store.findTypes table).run s).2 := by
  obtain ⟨parent, t, ht, hid⟩ := wellFormed_iff.mp hs
  obtain ⟨s', hrun, hstep⟩ := ht.findTypes hid table
  rw [hrun]
  exact hstep.decorated ht hid (by rw [Tree.infer_id, hid]) (t.infer_decorates table s.size)

def nestedStore : Store :=
  ⟨#[⟨.program [1, 7], .origin, none, none⟩, ⟨.assign 2 3, .origin, none, some 0⟩, ⟨.reference 'c', .origin, none, some 1⟩,
    ⟨.compute .add 4 5, .origin, none, some 1⟩, ⟨.reference 'a', .origin, none, some 3⟩,
    ⟨.compute .subtract 6 8, .origin, none, some 3⟩, ⟨.constant (.integer 1), .origin, none, some 5⟩,
    ⟨.print 'x', .origin, none, some 0⟩, ⟨.reference 'b', .origin, none, some 5⟩]⟩

def nestedTable : SymbolTable :=
  ⟨((SortedMap.empty.insert 'a' .integer).insert 'b' .float).insert 'c' .float⟩

theorem nestedStore_wellFormed : nestedStore.WellFormed := by
  have hheld : nestedStore.Keeps none (.node ⟨0, .origin, none⟩ (.program [
      .node ⟨1, .origin, none⟩ (.assign (.node ⟨2, .origin, none⟩ (.reference 'c')) (.node ⟨3, .origin, none⟩ (.compute .add
        (.node ⟨4, .origin, none⟩ (.reference 'a')) (.node ⟨5, .origin, none⟩ (.compute .subtract
          (.node ⟨6, .origin, none⟩ (.constant (.integer 1))) (.node ⟨8, .origin, none⟩ (.reference 'b'))))))),
      .node ⟨7, .origin, none⟩ (.print 'x')])) := by
    refine ⟨?_, by decide⟩
    repeat' first
      | refine .node rfl ?_
      | exact List.forall_mem_nil _
      | refine List.forall_mem_cons.mpr ⟨?_, ?_⟩
  exact hheld.wellFormed rfl

theorem findTypes_decorates_nestedStore : nestedStore.WellFormed ∧
    ((Store.findTypes nestedTable).run nestedStore).1 = .error (.undeclaredName 'x') ∧
    ((Store.findTypes nestedTable).run nestedStore).2.size = 10 ∧
    nestedStore.Decorated ((Store.findTypes nestedTable).run nestedStore).2 :=
  ⟨nestedStore_wellFormed, by decide +kernel, by decide +kernel,
    findTypes_decorates nestedStore nestedStore_wellFormed nestedTable⟩

end Store

end AddingCalculator
