import AddingCalculator.Proofs.Grammar

/-!
# Well-formed stores

A store is well-formed if the nodes that can be reached from the root form a tree and name their parents. Such a
store is one that keeps a tree under the number of the root: the tree is found by going down from the root, which
ends because no path comes back, and no number is met twice because two ways down to a node would part at some node
and could not meet again.
-/

namespace AddingCalculator

namespace Store

def Child (s : Store) (parent id : NodeId) : Prop :=
  ∃ n, s.node? parent = some n ∧ id ∈ n.construct.children

def Reachable (s : Store) (id : NodeId) : Prop :=
  Relation.ReflTransGen s.Child root id

/-- The nodes that can be reached from the root are there, no path among them comes back, and each of them but the
root stands in one slot of one of them, its parent. -/
structure WellFormed (s : Store) : Prop where
  present : ∀ id, s.Reachable id → ∃ n, s.node? id = some n
  acyclic : ∀ id, s.Reachable id → ¬ Relation.TransGen s.Child id id
  slot : ∀ id, s.Reachable id → id ≠ root → ∃ parent n m, s.Reachable parent ∧ s.node? parent = some n ∧
    n.construct.children.count id = 1 ∧ (∀ q, s.Reachable q → s.Child q id → q = parent) ∧
    s.node? id = some m ∧ m.parent = some parent

theorem Reachable.child {s : Store} {p id : NodeId} (h : s.Reachable p) (hc : s.Child p id) : s.Reachable id :=
  h.tail hc

/-- The nodes that can be reached from the root are there, and no path among them comes back. A node may have many
parents. -/
structure Acyclic (s : Store) : Prop where
  present : ∀ id, s.Reachable id → ∃ n, s.node? id = some n
  acyclic : ∀ id, s.Reachable id → ¬ Relation.TransGen s.Child id id

namespace Acyclic

variable {s : Store} (h : s.Acyclic)

include h

theorem wellFounded_below : WellFounded fun i j : Fin s.size => s.Reachable j ∧ Relation.TransGen s.Child j i := by
  have htrans : IsTrans (Fin s.size) fun i j : Fin s.size => s.Reachable j ∧ Relation.TransGen s.Child j i :=
    ⟨fun _ _ _ hab hbc => ⟨hbc.1, hbc.2.trans hab.2⟩⟩
  have hirrefl : Std.Irrefl fun i j : Fin s.size => s.Reachable j ∧ Relation.TransGen s.Child j i :=
    ⟨fun i hi => h.acyclic i hi.1 hi.2⟩
  exact Finite.wellFounded_of_trans_of_irrefl _

theorem exists_unfolds {id : NodeId} (hid : s.Reachable id) : ∃ t, s.Unfolds id t := by
  have hall (i : Fin s.size) : s.Reachable i → ∃ t, s.Unfolds i t := by
    induction i using h.wellFounded_below.induction with
    | _ i ih =>
      intro hi
      obtain ⟨n, hn⟩ := h.present i hi
      have hbelow (child : NodeId) (hchild : child ∈ n.construct.children) : ∃ t, s.Unfolds child t := by
        have hc : s.Child i child := ⟨n, hn, hchild⟩
        obtain ⟨m, hm⟩ := h.present child (hi.child hc)
        exact ih ⟨child, node?_lt hm⟩ ⟨hi, .single hc⟩ (hi.child hc)
      choose! below hbelow using hbelow
      exact ⟨_, .node hn hbelow⟩
  obtain ⟨n, hn⟩ := h.present id hid
  exact hall ⟨id, node?_lt hn⟩ hid

end Acyclic

theorem acyclic_of_rank {s : Store} (rank : NodeId → ℕ) (hroot : root < s.size)
    (h : ∀ id : Fin s.size, ∀ child ∈ s.nodes[id].construct.children, rank child < rank id ∧ child < s.size) :
    s.Acyclic := by
  have hchild (i j : NodeId) (hc : s.Child i j) : rank j < rank i ∧ j < s.size := by
    obtain ⟨n, hn, hj⟩ := hc
    obtain ⟨hi, rfl⟩ := Array.getElem?_eq_some_iff.mp hn
    exact h ⟨i, hi⟩ j hj
  have hlt (i j : NodeId) (hij : Relation.TransGen s.Child i j) : rank j < rank i := by
    induction hij with
    | single hc => exact (hchild _ _ hc).1
    | tail _ hc ih => exact (hchild _ _ hc).1.trans ih
  refine ⟨fun id hid => ?_, fun id _ hcycle => (hlt id id hcycle).false⟩
  have hsize : id < s.size := by
    rcases Relation.ReflTransGen.cases_tail hid with rfl | ⟨p, -, hc⟩
    · exact hroot
    · exact (hchild p id hc).2
  exact ⟨_, Array.getElem?_eq_getElem hsize⟩

namespace WellFormed

variable {s : Store} (h : s.WellFormed)

include h

theorem isAcyclic : s.Acyclic :=
  ⟨h.present, h.acyclic⟩

theorem ne_root {p id : NodeId} (hp : s.Reachable p) (hc : s.Child p id) : id ≠ root := by
  rintro rfl
  exact h.acyclic root .refl (.tail' hp hc)

theorem parent_eq {p id : NodeId} {m : Node} (hp : s.Reachable p) (hc : s.Child p id) (hm : s.node? id = some m) :
    m.parent = some p := by
  obtain ⟨parent, n, m', -, -, -, honly, hm', hparent⟩ := h.slot id (hp.child hc) (h.ne_root hp hc)
  rw [hm] at hm'
  cases hm'
  rw [hparent, honly p hp hc]

theorem parent_unique {p q id : NodeId} (hp : s.Reachable p) (hq : s.Reachable q) (hpc : s.Child p id)
    (hqc : s.Child q id) : p = q := by
  obtain ⟨m, hm⟩ := h.present id (hp.child hpc)
  have hparent := h.parent_eq hp hpc hm
  rw [h.parent_eq hq hqc hm] at hparent
  exact (Option.some.inj hparent).symm

theorem nodup_children {p : NodeId} {n : Node} (hp : s.Reachable p) (hn : s.node? p = some n) :
    n.construct.children.Nodup := by
  rw [List.nodup_iff_count_le_one]
  intro id
  by_cases hid : id ∈ n.construct.children
  · have hc : s.Child p id := ⟨n, hn, hid⟩
    obtain ⟨parent, n', m, -, hn', hcount, honly, -⟩ := h.slot id (hp.child hc) (h.ne_root hp hc)
    obtain rfl := honly p hp hc
    rw [hn] at hn'
    cases hn'
    exact hcount.le
  · rw [List.count_eq_zero_of_not_mem hid]
    exact Nat.zero_le 1

theorem not_meet {p a b id : NodeId} (hp : s.Reachable p) (ha : s.Child p a) (hb : s.Child p b) (hne : a ≠ b)
    (hpa : Relation.ReflTransGen s.Child a id) : ¬ Relation.ReflTransGen s.Child b id := by
  -- Whatever is a child of `p` and lies below a child of `p` is that child, or else its parent `p` would lie below itself.
  have habove {a b : NodeId} (ha : s.Child p a) (hb : s.Child p b) (hne : a ≠ b) : ¬ Relation.ReflTransGen s.Child b a := by
    intro hpath
    rcases hpath.cases_tail with heq | ⟨q, hbq, hqa⟩
    · exact hne heq
    · have hq : s.Reachable q := (hp.child hb).trans hbq
      obtain rfl := h.parent_unique hq hp hqa ha
      exact h.acyclic q hq (.head' hb hbq)
  induction hpa with
  | refl => exact habove ha hb hne
  | @tail k j hak hkj ih =>
    intro hpath
    have hk : s.Reachable k := (hp.child ha).trans hak
    rcases hpath.cases_tail with rfl | ⟨q, hbq, hqj⟩
    · exact habove hb ha hne.symm (hak.tail hkj)
    · have hq : s.Reachable q := (hp.child hb).trans hbq
      obtain rfl := h.parent_unique hk hq hkj hqj
      exact ih hbq

theorem exists_holds {id : NodeId} (hid : s.Reachable id) {n : Node} (hn : s.node? id = some n) :
    ∃ t : Tree Stamp, t.id = id ∧ s.Holds n.parent t := by
  have hall (i : Fin s.size) : ∀ n, s.Reachable i → s.node? i = some n → ∃ t : Tree Stamp, t.id = i ∧ s.Holds n.parent t := by
    induction i using h.isAcyclic.wellFounded_below.induction with
    | _ i ih =>
      rintro ⟨c, span, type, parent⟩ hi hn
      have hbelow (child : NodeId) (hchild : child ∈ c.children) : ∃ t : Tree Stamp, t.id = child ∧ s.Holds (some i) t := by
        have hc : s.Child i child := ⟨_, hn, hchild⟩
        obtain ⟨m, hm⟩ := h.present child (hi.child hc)
        rw [← h.parent_eq hi hc hm]
        exact ih ⟨child, node?_lt hm⟩ ⟨hi, .single hc⟩ m (hi.child hc) hm
      have : Nonempty (Tree Stamp) := ⟨.node ⟨root, .origin, none⟩ (.program [])⟩
      choose! below hbelow hholds using hbelow
      have hids : (c.map below).map Tree.id = c := by
        rw [Construct.map_map, c.map_congr hbelow, Construct.map_id]
      refine ⟨.node ⟨i, span, type⟩ (c.map below), rfl, .node ?_ fun t ht => ?_⟩
      · rw [hids]
        exact hn
      · rw [Construct.children_map, List.mem_map] at ht
        obtain ⟨child, hchild, rfl⟩ := ht
        exact hholds child hchild
  exact hall ⟨id, node?_lt hn⟩ n hid hn

end WellFormed

theorem Holds.child_iff {s : Store} {parent : Option NodeId} {m : Stamp} {c : Construct (Tree Stamp)} {id : NodeId}
    (h : s.Holds parent (.node m c)) : s.Child m.id id ↔ ∃ t ∈ c.children, t.id = id := by
  rw [← List.mem_map, ← Construct.children_map]
  constructor
  · rintro ⟨n, hn, hid⟩
    rw [h.node?] at hn
    cases hn
    exact hid
  · exact fun hid => ⟨_, h.node?, hid⟩

theorem Holds.path {s : Store} {parent : Option NodeId} {t : Tree Stamp} (h : s.Holds parent t) :
    ∀ j ∈ t.ids, Relation.ReflTransGen s.Child t.id j := by
  induction h with
  | @node parent m c hn hc ih =>
    intro j hj
    rcases Tree.mem_ids_node.mp hj with rfl | ⟨t, ht, hj⟩
    · exact .refl
    · exact .head ((Holds.node hn hc).child_iff.mpr ⟨t, ht, rfl⟩) (ih t ht j hj)

theorem WellFormed.nodup_ids {s : Store} (h : s.WellFormed) {parent : Option NodeId} {t : Tree Stamp}
    (ht : s.Holds parent t) (hr : s.Reachable t.id) : t.ids.Nodup := by
  induction ht with
  | @node parent m c hn hc ih =>
    have hheld := Holds.node hn hc
    have hchild (t : Tree Stamp) (ht : t ∈ c.children) : s.Child m.id t.id := hheld.child_iff.mpr ⟨t, ht, rfl⟩
    have hslots : (c.children.map Tree.id).Nodup := by
      rw [← Construct.children_map]
      exact h.nodup_children hr hn
    rw [Tree.ids_node, List.nodup_cons, List.nodup_flatMap]
    refine ⟨fun hmem => ?_, fun t ht => ih t ht (hr.child (hchild t ht)), ?_⟩
    · obtain ⟨t, ht, hm⟩ := List.mem_flatMap.mp hmem
      exact h.acyclic m.id hr (.head' (hchild t ht) ((hc t ht).path m.id hm))
    · apply (List.pairwise_map.mp hslots).imp_of_mem
      intro t u ht hu hne j hjt hju
      exact h.not_meet hr (hchild t ht) (hchild u hu) hne ((hc t ht).path j hjt) ((hc u hu).path j hju)

theorem Keeps.exists_below {s : Store} {parent : Option NodeId} {t : Tree Stamp} (h : s.Keeps parent t) {j : NodeId}
    (hj : Relation.ReflTransGen s.Child t.id j) :
    ∃ q u, s.Keeps q u ∧ u.id = j ∧ u.ids ⊆ t.ids ∧ u.height ≤ t.height := by
  induction hj with
  | refl => exact ⟨parent, t, h, rfl, List.Subset.refl _, le_rfl⟩
  | @tail i j _ hij ih =>
    obtain ⟨q, ⟨m, c⟩, hu, rfl, hsub, hle⟩ := ih
    obtain ⟨v, hv, rfl⟩ := hu.holds.child_iff.mp hij
    refine ⟨some m.id, v, (hu.child hv).toKeeps, rfl, fun k hk => hsub (Tree.mem_ids_of_child hv hk), ?_⟩
    exact (Tree.height_lt_of_mem hv).le.trans hle

theorem Keeps.reachable_iff {s : Store} {parent : Option NodeId} {t : Tree Stamp} (h : s.Keeps parent t) (hid : t.id = root)
    {j : NodeId} : s.Reachable j ↔ j ∈ t.ids := by
  rw [Reachable, ← hid]
  constructor
  · intro hj
    obtain ⟨q, u, -, rfl, hsub, -⟩ := h.exists_below hj
    exact hsub u.id_mem_ids
  · exact h.holds.path j

theorem Keeps.not_cycle {s : Store} {parent : Option NodeId} {t : Tree Stamp} (h : s.Keeps parent t) :
    ¬ Relation.TransGen s.Child t.id t.id := by
  intro hcycle
  obtain ⟨m, c⟩ := t
  obtain ⟨j, hj, hback⟩ := Relation.TransGen.head'_iff.mp hcycle
  obtain ⟨u, hu, rfl⟩ := h.holds.child_iff.mp hj
  obtain ⟨q, v, hv, hid, -, hle⟩ := (h.child hu).exists_below hback
  -- The tree met again under the number of `t` is `t`, but it is less high.
  have hsame : v.types = (Tree.node m c).types := (hid ▸ hv.holds.unfolds).unique h.holds.unfolds
  have hlt := Tree.height_lt_of_mem (a := m) hu
  rw [← Tree.height_types (.node m c), ← hsame, Tree.height_types] at hlt
  omega

theorem Keeps.wellFormed {s : Store} {parent : Option NodeId} {t : Tree Stamp} (h : s.Keeps parent t) (hid : t.id = root) :
    s.WellFormed := by
  have hbelow (j : NodeId) (hj : s.Reachable j) : ∃ q m c, s.Keeps q (.node m c) ∧ m.id = j := by
    rw [Reachable, ← hid] at hj
    obtain ⟨q, ⟨m, c⟩, hu, rfl, -⟩ := h.exists_below hj
    exact ⟨q, m, c, hu, rfl⟩
  -- A child of a node that can be reached stands in one of its slots and names it as its parent.
  have hslot (p j : NodeId) (hp : s.Reachable p) (hc : s.Child p j) : ∃ n k, s.node? p = some n ∧
      n.construct.children.count j = 1 ∧ s.node? j = some k ∧ k.parent = some p := by
    obtain ⟨q, m, c, hu, rfl⟩ := hbelow p hp
    obtain ⟨v, hv, rfl⟩ := hu.holds.child_iff.mp hc
    obtain ⟨m', c'⟩ := v
    refine ⟨_, _, hu.node?, ?_, (hu.child hv).node?, rfl⟩
    rw [Construct.children_map]
    exact List.count_eq_one_of_mem (Tree.nodup_slots hu.nodup) (List.mem_map.mpr ⟨_, hv, rfl⟩)
  refine ⟨fun j hj => ?_, fun j hj => ?_, fun j hj hne => ?_⟩
  · obtain ⟨q, m, c, hu, rfl⟩ := hbelow j hj
    exact ⟨_, hu.node?⟩
  · obtain ⟨q, m, c, hu, rfl⟩ := hbelow j hj
    exact hu.not_cycle
  · rcases Relation.ReflTransGen.cases_tail hj with heq | ⟨p, hp, hc⟩
    · exact absurd heq hne
    · obtain ⟨n, k, hn, hcount, hk, hparent⟩ := hslot p j hp hc
      refine ⟨p, n, k, hp, hn, hcount, fun q hq hqc => ?_, hk, hparent⟩
      obtain ⟨-, k', -, -, hk', hparent'⟩ := hslot q j hq hqc
      rw [hk] at hk'
      cases hk'
      rw [hparent] at hparent'
      exact (Option.some.inj hparent').symm

theorem wellFormed_iff {s : Store} : s.WellFormed ↔ ∃ parent t, s.Keeps parent t ∧ t.id = root := by
  constructor
  · intro h
    obtain ⟨n, hn⟩ := h.present root .refl
    obtain ⟨t, hid, ht⟩ := h.exists_holds .refl hn
    refine ⟨n.parent, t, ⟨ht, h.nodup_ids ht ?_⟩, hid⟩
    rw [hid]
    exact .refl
  · rintro ⟨parent, t, ht, hid⟩
    exact ht.wellFormed hid

end Store

theorem parse_wellFormed {source : String} {s : Store} (h : parse source = .ok s) : s.WellFormed := by
  obtain ⟨ts, p, -, -, rfl⟩ := parse_eq_ok.mp h
  exact p.store_keeps.wellFormed rfl

end AddingCalculator
