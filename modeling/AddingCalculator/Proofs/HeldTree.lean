import AddingCalculator.Proofs.Unfolding

/-!
# Trees held by a store

A tree whose labels give the number, the place and the type of each node is held by a store if each of its nodes
stands there under its number, with the numbers of its children and a link to its parent. A change to a store that
keeps away from the numbers of a tree keeps the tree.
-/

namespace AddingCalculator

structure Stamp where
  id : NodeId
  span : Span
  type : Option DataType

namespace Tree

def id (t : Tree Stamp) : NodeId := t.label.id

def ids (t : Tree Stamp) : List NodeId := t.fold fun m c => m.id :: c.children.flatten

def types (t : Tree Stamp) : TypedTree := t.fold fun m c => .node m.type c

def height {α : Type} (t : Tree α) : ℕ := t.fold fun _ c => c.children.foldr max 0 + 1

@[simp] theorem id_node (m : Stamp) (c : Construct (Tree Stamp)) : (node m c).id = m.id := rfl

@[simp] theorem ids_node (m : Stamp) (c : Construct (Tree Stamp)) :
    (node m c).ids = m.id :: c.children.flatMap ids := by
  rw [ids, fold_node, Construct.children_map]
  rfl

@[simp] theorem types_node (m : Stamp) (c : Construct (Tree Stamp)) :
    (node m c).types = .node m.type (c.map types) := by
  rw [types, fold_node]
  rfl

theorem height_node {α : Type} (a : α) (c : Construct (Tree α)) :
    (node a c).height = (c.children.map height).foldr max 0 + 1 := by
  rw [height, fold_node, Construct.children_map]
  rfl

theorem height_types (t : Tree Stamp) : t.types.height = t.height := by
  induction t with
  | node m c ih =>
    have hchildren : c.children.map (height ∘ types) = c.children.map height := List.map_congr_left ih
    rw [types_node, height_node, height_node, Construct.children_map, List.map_map, hchildren]

theorem height_lt_of_mem {α : Type} {a : α} {c : Construct (Tree α)} {t : Tree α} (h : t ∈ c.children) :
    t.height < (node a c).height := by
  have hle (ts : List (Tree α)) (h : t ∈ ts) : t.height ≤ (ts.map height).foldr max 0 := by
    induction ts with
    | nil => cases h
    | cons u ts ih =>
      rw [List.map_cons, List.foldr_cons]
      rcases List.mem_cons.mp h with rfl | h
      · exact le_max_left _ _
      · exact (ih h).trans (le_max_right _ _)
  have := hle c.children h
  rw [height_node]
  omega

theorem mem_ids_node {m : Stamp} {c : Construct (Tree Stamp)} {j : NodeId} :
    j ∈ (node m c).ids ↔ j = m.id ∨ ∃ t ∈ c.children, j ∈ t.ids := by
  rw [ids_node, List.mem_cons, List.mem_flatMap]

theorem mem_ids_of_child {m : Stamp} {c : Construct (Tree Stamp)} {t : Tree Stamp} (ht : t ∈ c.children) {j : NodeId}
    (hj : j ∈ t.ids) : j ∈ (node m c).ids :=
  mem_ids_node.mpr (.inr ⟨t, ht, hj⟩)

theorem id_mem_ids (t : Tree Stamp) : t.id ∈ t.ids := by
  cases t with
  | node m c => exact mem_ids_node.mpr (.inl rfl)

theorem height_le_length_ids (t : Tree Stamp) : t.height ≤ t.ids.length := by
  induction t with
  | node m c ih =>
    have hle (ts : List (Tree Stamp)) (h : ∀ t ∈ ts, t.height ≤ t.ids.length) :
        (ts.map height).foldr max 0 ≤ (ts.flatMap ids).length := by
      induction ts with
      | nil => simp
      | cons t ts iht =>
        have ht := h t (by simp)
        have hts := iht fun u hu => h u (List.mem_cons_of_mem t hu)
        simp only [List.map_cons, List.foldr_cons, List.flatMap_cons, List.length_append]
        omega
    have := hle c.children ih
    rw [height_node, ids_node, List.length_cons]
    omega

theorem nodup_child {m : Stamp} {c : Construct (Tree Stamp)} {t : Tree Stamp} (h : (node m c).ids.Nodup)
    (ht : t ∈ c.children) : t.ids.Nodup ∧ m.id ∉ t.ids := by
  rw [ids_node, List.nodup_cons, List.nodup_flatMap] at h
  exact ⟨h.2.1 t ht, fun hm => h.1 (List.mem_flatMap.mpr ⟨t, ht, hm⟩)⟩

theorem nodup_slots {m : Stamp} {c : Construct (Tree Stamp)} (h : (node m c).ids.Nodup) : (c.children.map id).Nodup := by
  rw [ids_node, List.nodup_cons, List.nodup_flatMap] at h
  refine List.pairwise_map.mpr (h.2.2.imp ?_)
  intro t u hdisjoint heq
  apply hdisjoint t.id_mem_ids
  rw [heq]
  exact u.id_mem_ids

theorem disjoint_children {m : Stamp} {c : Construct (Tree Stamp)} {t u : Tree Stamp} (h : (node m c).ids.Nodup)
    (ht : t ∈ c.children) (hu : u ∈ c.children) (hne : t.id ≠ u.id) : List.Disjoint t.ids u.ids := by
  rw [ids_node, List.nodup_cons, List.nodup_flatMap] at h
  have hsymm : Std.Symm (Function.onFun List.Disjoint ids) := ⟨fun x y hxy => hxy.symm⟩
  exact h.2.2.forall ht hu fun heq => hne (congrArg id heq)

theorem map_replace {m : Stamp} {c : Construct (Tree Stamp)} {t : Tree Stamp} (t' : Tree Stamp)
    (h : (node m c).ids.Nodup) {before after : List (Tree Stamp)} (hc : c.children = before ++ t :: after) :
    c.children.map (fun u => if u.id = t.id then t' else u) = before ++ t' :: after := by
  rw [ids_node, hc, List.flatMap_append, List.flatMap_cons, List.nodup_cons, List.nodup_append] at h
  obtain ⟨-, -, hta, hbt⟩ := h
  -- The numbers of a tree are distinct, so a child is replaced alone.
  have hbefore : ∀ u ∈ before, u.id ≠ t.id := fun u hu =>
    hbt u.id (List.mem_flatMap.mpr ⟨u, hu, u.id_mem_ids⟩) t.id (List.mem_append_left _ t.id_mem_ids)
  have hafter : ∀ u ∈ after, u.id ≠ t.id := fun u hu =>
    ((List.nodup_append.mp hta).2.2 t.id t.id_mem_ids u.id (List.mem_flatMap.mpr ⟨u, hu, u.id_mem_ids⟩)).symm
  have hmap (us : List (Tree Stamp)) (hus : ∀ u ∈ us, u.id ≠ t.id) :
      us.map (fun u => if u.id = t.id then t' else u) = us := by
    rw [List.map_congr_left fun u hu => if_neg (hus u hu), List.map_id']
  rw [hc, List.map_append, List.map_cons, if_pos rfl, hmap before hbefore, hmap after hafter]

theorem id_ne_of_children {m : Stamp} {c : Construct (Tree Stamp)} {t u : Tree Stamp} (h : (node m c).ids.Nodup)
    (hc : c.children = [t, u]) : t.id ≠ u.id := by
  rw [ids_node, hc, List.nodup_cons, List.flatMap_cons, List.flatMap_singleton, List.nodup_append] at h
  exact h.2.2.2 t.id t.id_mem_ids u.id u.id_mem_ids

end Tree

namespace Store

@[simp] theorem node?_modify (s : Store) (id : NodeId) (f : Node → Node) (j : NodeId) :
    (s.modify id f).node? j = if id = j then (s.node? j).map f else s.node? j := by
  simp only [node?, modify, Array.getElem?_modify]

@[simp] theorem size_modify (s : Store) (id : NodeId) (f : Node → Node) : (s.modify id f).size = s.size := by
  simp [size, modify]

@[simp] theorem size_setType (s : Store) (id : NodeId) (type : DataType) : (s.setType id type).size = s.size :=
  size_modify s id _

@[simp] theorem size_setParent (s : Store) (id : NodeId) (parent : Option NodeId) :
    (s.setParent id parent).size = s.size :=
  size_modify s id _

@[simp] theorem size_redirect (s : Store) (parent old new : NodeId) : (s.redirect parent old new).size = s.size :=
  size_modify s parent _

theorem node?_push (s : Store) (n : Node) (j : NodeId) :
    (⟨s.nodes.push n⟩ : Store).node? j = if j = s.size then some n else s.node? j :=
  Array.getElem?_push

theorem node?_adopt (ids : List NodeId) (parent : Option NodeId) (s : Store) (j : NodeId) :
    (ids.foldl (fun s child => s.setParent child parent) s).node? j =
      if j ∈ ids then (s.node? j).map fun n => { n with parent := parent } else s.node? j := by
  induction ids generalizing s with
  | nil => rfl
  | cons id ids ih =>
    rw [List.foldl_cons, ih]
    simp only [setParent, node?_modify, List.mem_cons]
    by_cases hid : id = j
    · subst hid
      by_cases hj : id ∈ ids <;> simp [hj, Function.comp_def]
    · by_cases hj : j ∈ ids <;> simp [hj, hid, Ne.symm hid]

theorem size_adopt (ids : List NodeId) (parent : Option NodeId) (s : Store) :
    (ids.foldl (fun s child => s.setParent child parent) s).size = s.size := by
  induction ids generalizing s with
  | nil => rfl
  | cons id ids ih => rw [List.foldl_cons, ih, size_setParent]

theorem node?_add (s : Store) (c : Construct NodeId) (span : Span) (j : NodeId) :
    (s.add c span).node? j =
      if j = s.size then some { construct := c, span }
      else if j ∈ c.children then (s.node? j).map fun n => { n with parent := some s.size } else s.node? j := by
  rw [add, node?_push, size_adopt, node?_adopt]

@[simp] theorem size_add (s : Store) (c : Construct NodeId) (span : Span) : (s.add c span).size = s.size + 1 := by
  rw [add, size, Array.size_push]
  exact congrArg (· + 1) (size_adopt c.children (some s.size) s)

def redirectAt (s : Store) (parent : Option NodeId) (old new : NodeId) : Store :=
  match parent with
  | none => s
  | some q => s.redirect q old new

theorem node?_redirectAt (s : Store) (parent : Option NodeId) (old new j : NodeId) :
    (s.redirectAt parent old new).node? j =
      if parent = some j then (s.node? j).map fun n =>
        { n with construct := n.construct.map fun id => if id = old then new else id }
      else s.node? j := by
  cases parent with
  | none => simp [redirectAt]
  | some q => simp [redirectAt, redirect]

theorem redirectAt_self (s : Store) (parent : Option NodeId) (old j : NodeId) :
    (s.redirectAt parent old old).node? j = s.node? j := by
  have hself : (fun id : NodeId => if id = old then old else id) = fun id => id := by
    funext id
    split
    · rename_i h
      exact h.symm
    · rfl
  rw [node?_redirectAt, hself]
  simp only [Construct.map_id]
  split
  · cases s.node? j <;> rfl
  · rfl

inductive Holds (s : Store) : Option NodeId → Tree Stamp → Prop
  | node {parent : Option NodeId} {m : Stamp} {c : Construct (Tree Stamp)}
      (hn : s.node? m.id = some ⟨c.map Tree.id, m.span, m.type, parent⟩)
      (hc : ∀ t ∈ c.children, Holds s (some m.id) t) : Holds s parent (.node m c)

theorem Holds.node? {s : Store} {parent : Option NodeId} {m : Stamp} {c : Construct (Tree Stamp)}
    (h : s.Holds parent (.node m c)) : s.node? m.id = some ⟨c.map Tree.id, m.span, m.type, parent⟩ := by
  cases h with
  | node hn hc => exact hn

theorem Holds.child {s : Store} {parent : Option NodeId} {m : Stamp} {c : Construct (Tree Stamp)} {t : Tree Stamp}
    (h : s.Holds parent (.node m c)) (ht : t ∈ c.children) : s.Holds (some m.id) t := by
  cases h with
  | node hn hc => exact hc t ht

theorem Holds.congr {s s' : Store} {parent : Option NodeId} {t : Tree Stamp} (h : s.Holds parent t)
    (hs : ∀ j ∈ t.ids, s'.node? j = s.node? j) : s'.Holds parent t := by
  induction h with
  | @node parent m c hn hc ih =>
    refine .node ?_ fun t ht => ih t ht fun j hj => hs j (Tree.mem_ids_of_child ht hj)
    rw [hs m.id (by simp), hn]

theorem Holds.lt {s : Store} {parent : Option NodeId} {t : Tree Stamp} (h : s.Holds parent t) :
    ∀ j : ℕ, j ∈ t.ids → j < s.size := by
  induction h with
  | @node parent m c hn hc ih =>
    intro j hj
    rcases Tree.mem_ids_node.mp hj with rfl | ⟨t, ht, hj⟩
    · exact node?_lt hn
    · exact ih t ht j hj

theorem Holds.unfolds {s : Store} {parent : Option NodeId} {t : Tree Stamp} (h : s.Holds parent t) :
    s.Unfolds t.id t.types := by
  induction h with
  | @node parent m c hn hc ih =>
    rw [Tree.types_node]
    exact Unfolds.of_map hn rfl ih

theorem Holds.tree? {s : Store} {parent : Option NodeId} {t : Tree Stamp} (h : s.Holds parent t) (hid : t.id = root) :
    s.tree? = some t.types :=
  (tree?_eq_some_iff s t.types).mpr (hid ▸ h.unfolds)

theorem Holds.height_le {s : Store} {parent : Option NodeId} {t : Tree Stamp} (h : s.Holds parent t)
    (hd : t.ids.Nodup) : t.height ≤ s.size := by
  have hsub : t.ids ⊆ List.range s.size := fun j hj => List.mem_range.mpr (h.lt j hj)
  have hlen := (hd.subperm hsub).length_le
  rw [List.length_range] at hlen
  exact t.height_le_length_ids.trans hlen

structure Keeps (s : Store) (parent : Option NodeId) (t : Tree Stamp) : Prop where
  holds : s.Holds parent t
  nodup : t.ids.Nodup

structure Owns (s : Store) (parent : Option NodeId) (t : Tree Stamp) : Prop extends s.Keeps parent t where
  outside : ∀ q : ℕ, parent = some q → q < s.size ∧ q ∉ t.ids

theorem Keeps.child {s : Store} {parent : Option NodeId} {m : Stamp} {c : Construct (Tree Stamp)} {t : Tree Stamp}
    (h : s.Keeps parent (.node m c)) (ht : t ∈ c.children) : s.Owns (some m.id) t := by
  obtain ⟨hd, hm⟩ := Tree.nodup_child h.nodup ht
  refine ⟨⟨h.holds.child ht, hd⟩, fun q hq => ?_⟩
  obtain rfl := Option.some.inj hq
  exact ⟨node?_lt h.holds.node?, hm⟩

theorem Keeps.node? {s : Store} {parent : Option NodeId} {m : Stamp} {c : Construct (Tree Stamp)}
    (h : s.Keeps parent (.node m c)) : s.node? m.id = some ⟨c.map Tree.id, m.span, m.type, parent⟩ :=
  h.holds.node?

/-- The store `s'` holds `t'` where `s` held `t`. All other nodes are as before, except that the parent now holds
the new tree. The numbers of the new nodes follow the old ones. -/
structure Step (s : Store) (parent : Option NodeId) (t : Tree Stamp) (s' : Store) (t' : Tree Stamp) : Prop where
  holds : s'.Holds parent t'
  grows : s.size ≤ s'.size
  ids : t'.ids.Perm (t.ids ++ List.range' s.size (s'.size - s.size))
  kept : ∀ j : ℕ, j < s.size → j ∉ t.ids → s'.node? j = (s.redirectAt parent t.id t'.id).node? j

theorem Step.mem_ids {s s' : Store} {parent : Option NodeId} {t t' : Tree Stamp} (h : s.Step parent t s' t')
    {j : ℕ} : j ∈ t'.ids ↔ j ∈ t.ids ∨ s.size ≤ j ∧ j < s'.size := by
  have hg := h.grows
  rw [h.ids.mem_iff, List.mem_append, List.mem_range'_1]
  constructor
  · rintro (hj | hj)
    · exact .inl hj
    · exact .inr (by omega)
  · rintro (hj | hj)
    · exact .inl hj
    · exact .inr (by omega)

theorem Step.keeps {s s' : Store} {parent : Option NodeId} {t t' : Tree Stamp} (h : s.Step parent t s' t')
    (hk : s.Keeps parent t) : s'.Keeps parent t' := by
  refine ⟨h.holds, ?_⟩
  rw [h.ids.nodup_iff, List.nodup_append]
  refine ⟨hk.nodup, List.nodup_range', fun a ha b hb => ?_⟩
  exact ((hk.holds.lt a ha).trans_le (List.mem_range'_1.mp hb).1).ne

theorem Step.refl {s : Store} {parent : Option NodeId} {t : Tree Stamp} (h : s.Holds parent t) :
    s.Step parent t s t := by
  refine ⟨h, le_rfl, ?_, fun j _ _ => (redirectAt_self s parent t.id j).symm⟩
  rw [Nat.sub_self, List.range'_zero, List.append_nil]

theorem Step.trans {s s' s'' : Store} {parent : Option NodeId} {t t' t'' : Tree Stamp} (h : s.Step parent t s' t')
    (hid : t'.id = t.id) (h' : s'.Step parent t' s'' t'') : s.Step parent t s'' t'' := by
  have hg := h.grows
  have hg' := h'.grows
  refine ⟨h'.holds, hg.trans hg', ?_, fun j hj hmem => ?_⟩
  · have happ : List.range' s.size (s''.size - s.size) =
        List.range' s.size (s'.size - s.size) ++ List.range' s'.size (s''.size - s'.size) := by
      rw [show s''.size - s.size = (s'.size - s.size) + (s''.size - s'.size) by omega, ← List.range'_append_1,
        show s.size + (s'.size - s.size) = s'.size by omega]
    rw [happ, ← List.append_assoc]
    exact h'.ids.trans (h.ids.append_right _)
  · have hmem' : j ∉ t'.ids := by
      rw [h.mem_ids]
      rintro (hj' | hj')
      · exact hmem hj'
      · omega
    have hj' : s'.node? j = s.node? j := by
      rw [h.kept j hj hmem, hid, redirectAt_self]
    rw [h'.kept j (by omega) hmem', hid, node?_redirectAt, node?_redirectAt, hj']

theorem Step.setType {s : Store} {parent : Option NodeId} {m : Stamp} {c : Construct (Tree Stamp)}
    (h : s.Keeps parent (.node m c)) (type : DataType) :
    s.Step parent (.node m c) (s.setType m.id type) (.node { m with type := some type } c) := by
  have hids : (Tree.node { m with type := some type } c).ids = (Tree.node m c).ids := by simp
  have hother (j : NodeId) (hj : m.id ≠ j) : (s.setType m.id type).node? j = s.node? j := by
    simp [Store.setType, hj]
  refine ⟨.node ?_ fun t ht => ?_, by simp, by simp, fun j _ hmem => ?_⟩
  · simp [Store.setType, h.node?]
  · apply (h.child ht).holds.congr
    intro j hj
    apply hother
    rintro rfl
    exact (Tree.nodup_child h.nodup ht).2 hj
  · rw [hother j (by rintro rfl; exact hmem (by simp))]
    exact (redirectAt_self s parent m.id j).symm

theorem Step.lift {s s' : Store} {parent : Option NodeId} {m : Stamp} {c : Construct (Tree Stamp)} {t t' : Tree Stamp}
    (ho : s.Keeps parent (.node m c)) (ht : t ∈ c.children) (h : s.Step (some m.id) t s' t') :
    s.Step parent (.node m c) s' (.node m (c.map fun u => if u.id = t.id then t' else u)) := by
  obtain ⟨-, hm⟩ := Tree.nodup_child ho.nodup ht
  have hlt := node?_lt ho.node?
  have hother (u : Tree Stamp) (hu : u ∈ c.children) (hne : u.id ≠ t.id) : s'.Holds (some m.id) u := by
    apply (ho.child hu).holds.congr
    intro j hj
    have hmu := (Tree.nodup_child ho.nodup hu).2
    have hjt : j ∉ t.ids := fun hjt => Tree.disjoint_children ho.nodup hu ht hne hj hjt
    rw [h.kept j ((ho.child hu).holds.lt j hj) hjt, node?_redirectAt, if_neg]
    intro heq
    exact hmu (Option.some.inj heq ▸ hj)
  refine ⟨.node ?_ fun u hu => ?_, h.grows, ?_, fun j hj hmem => ?_⟩
  · rw [h.kept m.id hlt hm, node?_redirectAt, if_pos rfl, ho.node?, Option.map_some, Construct.map_map,
      Construct.map_map]
    have hslots : (c.map fun u => if u.id = t.id then t'.id else u.id) =
        c.map fun u => (if u.id = t.id then t' else u).id :=
      c.map_congr fun u _ => by split <;> rfl
    rw [hslots]
  · rw [Construct.children_map, List.mem_map] at hu
    obtain ⟨v, hv, rfl⟩ := hu
    split
    · exact h.holds
    · rename_i hne
      exact hother v hv hne
  · obtain ⟨before, after, hsplit⟩ := List.append_of_mem ht
    rw [Tree.ids_node, Tree.ids_node, Construct.children_map, Tree.map_replace t' ho.nodup hsplit, hsplit]
    simp only [List.flatMap_append, List.flatMap_cons, List.cons_append, List.append_assoc]
    apply List.Perm.cons
    apply List.Perm.append_left
    refine (h.ids.append_right _).trans ?_
    rw [List.append_assoc]
    exact (List.perm_append_comm).append_left _
  · rw [h.kept j hj fun hjt => hmem (Tree.mem_ids_of_child ht hjt), node?_redirectAt, if_neg]
    · exact (redirectAt_self s parent m.id j).symm
    intro heq
    apply hmem
    rw [← Option.some.inj heq]
    simp

end Store

end AddingCalculator
