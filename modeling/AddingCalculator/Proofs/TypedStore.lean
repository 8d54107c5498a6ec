import AddingCalculator.Proofs.DecoratedStore

namespace AddingCalculator

namespace Store

def type? (s : Store) (id : NodeId) : Option DataType :=
  (s.node? id).bind Node.type

def TypedNode (s : Store) (table : SymbolTable) (n : Node) : Prop :=
  match n.construct with
  | .program _ => True
  | .declaration declared _ => n.type = some declared
  | .assign target value => ∃ type, n.type = some type ∧ s.type? target = some type ∧ s.type? value = some type
  | .compute _ left right => ∃ type, n.type = some type ∧ s.type? left = some type ∧ s.type? right = some type
  | .reference name => ∃ type, n.type = some type ∧ table.typeOf name = .ok type
  | .print name => ∃ type, n.type = some type ∧ table.typeOf name = .ok type
  | .constant literal => n.type = some literal.type
  | .convert _ => n.type = some .float

theorem TypedNode.exists_type {s : Store} {table : SymbolTable} {n : Node} (h : s.TypedNode table n)
    (hp : ∀ items, n.construct ≠ .program items) : ∃ type, n.type = some type := by
  unfold TypedNode at h
  split at h
  · rename_i items hc
    exact absurd hc (hp items)
  · exact ⟨_, h⟩
  · obtain ⟨type, h, -⟩ := h
    exact ⟨type, h⟩
  · obtain ⟨type, h, -⟩ := h
    exact ⟨type, h⟩
  · obtain ⟨type, h, -⟩ := h
    exact ⟨type, h⟩
  · obtain ⟨type, h, -⟩ := h
    exact ⟨type, h⟩
  · exact ⟨_, h⟩
  · exact ⟨_, h⟩

theorem Holds.type? {s : Store} {parent : Option NodeId} {t : Tree Stamp} (h : s.Holds parent t) :
    s.type? t.id = t.label.type := by
  obtain ⟨m, c⟩ := t
  rw [Store.type?, Tree.id_node, h.node?]
  rfl

theorem Holds.typedNode {s : Store} {parent : Option NodeId} {t : Tree Stamp} (h : s.Holds parent t) {table : SymbolTable}
    (ht : t.Typed table) : ∀ j ∈ t.ids, ∃ n, s.node? j = some n ∧ s.TypedNode table n := by
  induction t generalizing parent with
  | node m c ih =>
    intro j hj
    obtain ⟨hat, hbelow⟩ := ht.inv
    rcases Tree.mem_ids_node.mp hj with rfl | ⟨u, hu, hj⟩
    · refine ⟨_, h.node?, ?_⟩
      cases c with
      | assign target value | compute o target value =>
        obtain ⟨type, hm, htarget, hvalue⟩ := hat
        refine ⟨type, hm, ?_, ?_⟩
        · rw [(h.child (by simp [Construct.children])).type?, htarget]
        · rw [(h.child (by simp [Construct.children])).type?, hvalue]
      | _ => exact hat
    · exact ih u hu (h.child hu) (hbelow u hu) j hj

theorem findTypes_typed (s : Store) (hs : s.WellFormed) (table : SymbolTable) (s' : Store)
    (h : (Store.findTypes table).run s = (.ok (), s')) :
    (∀ id, s'.Reachable id → ∃ n, s'.node? id = some n ∧ s'.TypedNode table n ∧
      ((∀ items, n.construct ≠ .program items) → ∃ type, n.type = some type)) ∧
    ∀ k, s.size ≤ k → k < s'.size → ∃ id n m name, s'.node? k = some n ∧ n.construct = .convert id ∧
      s'.node? id = some m ∧ m.construct = .reference name ∧ m.type = some .integer := by
  obtain ⟨parent, t, ht, hid⟩ := wellFormed_iff.mp hs
  obtain ⟨r, hrun, hstep⟩ := ht.findTypes hid table
  rw [hrun, Prod.mk.injEq] at h
  obtain ⟨hresult, rfl⟩ := h
  obtain ⟨found, hfound, -⟩ := map_eq_ok.mp hresult
  obtain ⟨htyped, -⟩ := Tree.infer_typed hfound
  have hroot : (t.infer table s.size).tree.id = root := by rw [Tree.infer_id, hid]
  have hdecorated := hstep.decorated ht hid hroot (t.infer_decorates table s.size)
  refine ⟨fun id hreach => ?_, fun k hk hlt => ?_⟩
  · rw [(hstep.keeps ht).reachable_iff hroot] at hreach
    obtain ⟨n, hn, hat⟩ := hstep.holds.typedNode htyped id hreach
    exact ⟨n, hn, hat, hat.exists_type⟩
  · obtain ⟨id, p, hinserted⟩ := hdecorated.added k hk hlt
    obtain ⟨name, span, type, -, hid, hk⟩ := hinserted.nodes
    exact ⟨id, _, _, name, hk, rfl, hid, rfl, rfl⟩

def fullTable : SymbolTable :=
  ⟨nestedTable.types.insert 'x' .integer⟩

theorem findTypes_typed_nestedStore : nestedStore.WellFormed ∧
    ∃ s', (Store.findTypes fullTable).run nestedStore = (.ok (), s') ∧ s'.size = 10 ∧
      (∀ id, s'.Reachable id → ∃ n, s'.node? id = some n ∧ s'.TypedNode fullTable n ∧
        ((∀ items, n.construct ≠ .program items) → ∃ type, n.type = some type)) ∧
      ∀ k, nestedStore.size ≤ k → k < s'.size → ∃ id n m name, s'.node? k = some n ∧ n.construct = .convert id ∧
        s'.node? id = some m ∧ m.construct = .reference name ∧ m.type = some .integer := by
  have hresult : ((Store.findTypes fullTable).run nestedStore).1 = .ok () := by decide +kernel
  have hsize : ((Store.findTypes fullTable).run nestedStore).2.size = 10 := by decide +kernel
  generalize hrun : (Store.findTypes fullTable).run nestedStore = r at hresult hsize
  obtain ⟨result, s'⟩ := r
  obtain rfl := hresult
  exact ⟨nestedStore_wellFormed, s', rfl, hsize, findTypes_typed nestedStore nestedStore_wellFormed fullTable s' hrun⟩

end Store

end AddingCalculator
