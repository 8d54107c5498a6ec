import AddingCalculator.Proofs.Assignability
import AddingCalculator.Proofs.CheckedStore
import AddingCalculator.Proofs.Grammar
import AddingCalculator.Proofs.TypingSimulation

namespace AddingCalculator

namespace Tree

inductive Fresh : Tree Stamp → Prop
  | node {m : Stamp} {c : Construct (Tree Stamp)} (ht : m.type = none) (hlt : ∀ u ∈ c.children, u.id < m.id)
      (hc : ∀ u ∈ c.children, Fresh u) : Fresh (.node m c)

theorem Fresh.leaf {m : Stamp} {c : Construct (Tree Stamp)} (ht : m.type = none) (hc : c.children = []) :
    Fresh (.node m c) :=
  .node ht (by simp [hc]) (by simp [hc])

end Tree

theorem Chain.count_pos (c : Chain) : 0 < c.count := by
  cases c <;> simp [count]

theorem Chain.fresh_stamped (c : Chain) (k : ℕ) : (c.stamped k).Fresh := by
  have hoperand (x : Operand) (k : NodeId) : (x.stamped k).Fresh := by
    refine .leaf rfl ?_
    cases x.atom <;> rfl
  induction c with
  | operand first => exact hoperand first k
  | extend left o span right ih =>
    have hlast : k + left.count - 1 < k + left.count + 1 := by omega
    have hleft : (left.stamped k).id < k + left.count + 1 := by
      rw [Store.id_stamped]
      exact hlast
    have hright : (right.stamped (k + left.count)).id < k + left.count + 1 := Nat.lt_succ_self _
    refine .node rfl ?_ ?_
    · exact List.forall_mem_cons.mpr ⟨hleft, List.forall_mem_singleton.mpr hright⟩
    · exact List.forall_mem_cons.mpr ⟨ih, List.forall_mem_singleton.mpr (hoperand right _)⟩

theorem Declaration.fresh_stamped (d : Declaration) (k : ℕ) : (d.stamped k).Fresh := by
  refine .node rfl ?_ ?_
  · exact List.forall_mem_singleton.mpr (Nat.lt_succ_self k)
  · exact List.forall_mem_singleton.mpr (.leaf rfl rfl)

theorem Statement.fresh_stamped (st : Statement) (k : ℕ) : (st.stamped k).Fresh := by
  cases st with
  | print name span => exact .leaf rfl rfl
  | assign target value =>
    have hpos := value.count_pos
    have htarget : k < k + 1 + value.count := by omega
    have hlast : k + 1 + value.count - 1 < k + 1 + value.count := by omega
    have hvalue : (value.stamped (k + 1)).id < k + 1 + value.count := by
      rw [Store.id_stamped]
      exact hlast
    refine .node rfl ?_ ?_
    · exact List.forall_mem_cons.mpr ⟨htarget, List.forall_mem_singleton.mpr hvalue⟩
    · exact List.forall_mem_cons.mpr ⟨.leaf rfl rfl, List.forall_mem_singleton.mpr (value.fresh_stamped _)⟩

theorem Program.fresh_stampedItems (p : Program) : ∀ t ∈ p.stampedItems, t.Fresh := by
  intro t ht
  rcases List.mem_append.mp ht with ht | ht
  · obtain ⟨d, -, k, rfl⟩ := exists_of_mem_stampAll ht
    exact d.fresh_stamped k
  · obtain ⟨st, -, k, rfl⟩ := exists_of_mem_stampAll ht
    exact st.fresh_stamped k

namespace Store

def slots (s : Store) (id : NodeId) : List NodeId :=
  (s.node? id).elim [] fun n => n.construct.children

structure IsTree (s : Store) : Prop where
  top : ∃ items, s.node? root = some ⟨.program items, .origin, none, none⟩
  slot : ∀ id : ℕ, id < s.size → id ≠ root → ((List.range s.size).flatMap s.slots).count id = 1
  parent : ∀ id, ∀ child ∈ s.slots id, ∃ n, s.node? child = some n ∧ n.parent = some id
  below : ∀ id ≠ root, ∀ child ∈ s.slots id, child < id
  untyped : ∀ id n, s.node? id = some n → n.type = none

theorem lt_of_mem_slots {s : Store} {id child : NodeId} (h : child ∈ s.slots id) : id < s.size := by
  unfold slots at h
  cases hn : s.node? id with
  | none =>
    rw [hn] at h
    cases h
  | some n => exact node?_lt hn

theorem Holds.slots_eq {s : Store} {parent : Option NodeId} {m : Stamp} {c : Construct (Tree Stamp)}
    (h : s.Holds parent (.node m c)) : s.slots m.id = c.children.map Tree.id := by
  rw [slots, h.node?, Option.elim_some, Construct.children_map]

theorem Holds.perm_slots {s : Store} {parent : Option NodeId} {t : Tree Stamp} (h : s.Holds parent t) :
    (t.id :: t.ids.flatMap s.slots).Perm t.ids := by
  induction h with
  | @node parent m c hn hc ih =>
    have hbelow : (c.children.flatMap Tree.ids).flatMap s.slots =
        c.children.flatMap fun t => t.ids.flatMap s.slots := List.flatMap_assoc
    rw [Tree.id_node, Tree.ids_node, List.flatMap_cons, (Holds.node hn hc).slots_eq, hbelow]
    refine List.Perm.cons m.id ((List.map_append_flatMap_perm c.children Tree.id _).trans ?_)
    exact List.Perm.flatMap_left c.children ih

theorem Holds.parent_slots {s : Store} {parent : Option NodeId} {t : Tree Stamp} (h : s.Holds parent t) :
    ∀ j ∈ t.ids, ∀ child ∈ s.slots j, ∃ n, s.node? child = some n ∧ n.parent = some j := by
  induction h with
  | @node parent m c hn hc ih =>
    intro j hj child hchild
    rcases Tree.mem_ids_node.mp hj with rfl | ⟨t, ht, hj⟩
    · rw [(Holds.node hn hc).slots_eq] at hchild
      obtain ⟨⟨m', c'⟩, hu, rfl⟩ := List.mem_map.mp hchild
      exact ⟨_, (hc _ hu).node?, rfl⟩
    · exact ih t ht j hj child hchild

theorem Holds.fresh {s : Store} {parent : Option NodeId} {t : Tree Stamp} (h : s.Holds parent t) (hf : t.Fresh) :
    ∀ j ∈ t.ids, (∀ child ∈ s.slots j, child < j) ∧ ∀ n, s.node? j = some n → n.type = none := by
  induction h with
  | @node parent m c hn hc ih =>
    obtain ⟨htype, hlt, hbelow⟩ := hf
    intro j hj
    rcases Tree.mem_ids_node.mp hj with rfl | ⟨t, ht, hj⟩
    · refine ⟨fun child hchild => ?_, fun n hj => ?_⟩
      · rw [(Holds.node hn hc).slots_eq] at hchild
        obtain ⟨u, hu, rfl⟩ := List.mem_map.mp hchild
        exact hlt u hu
      · rw [hn] at hj
        cases hj
        exact htype
    · exact ih t ht (hbelow t ht) j hj

theorem Lists.isTree {s : Store} {ts : List (Tree Stamp)} (h : s.Lists ts) (hf : ∀ t ∈ ts, t.Fresh) : s.IsTree := by
  have hmem (j : ℕ) (hj : j < s.size) : j = root ∨ ∃ t ∈ ts, j ∈ t.ids :=
    Tree.mem_ids_node.mp (h.ids.mem_iff.mpr (List.mem_range.mpr hj))
  refine ⟨⟨_, h.holds.node?⟩, fun id hid hne => ?_, fun id child hchild => ?_, fun id hne child hchild => ?_, fun id n hn => ?_⟩
  · have hcount := (h.holds.perm_slots.trans h.ids).count_eq id
    rw [Tree.id_node, List.count_cons_of_ne hne.symm, (h.ids.flatMap_right s.slots).count_eq] at hcount
    rw [hcount]
    exact List.count_eq_one_of_mem List.nodup_range (List.mem_range.mpr hid)
  · exact h.holds.parent_slots id (h.ids.mem_iff.mpr (List.mem_range.mpr (lt_of_mem_slots hchild))) child hchild
  · rcases hmem id (lt_of_mem_slots hchild) with rfl | ⟨t, ht, hj⟩
    · exact absurd rfl hne
    · exact ((h.holds.child ht).fresh (hf t ht) id hj).1 child hchild
  · rcases hmem id (node?_lt hn) with rfl | ⟨t, ht, hj⟩
    · rw [h.holds.node?] at hn
      cases hn
      rfl
    · exact ((h.holds.child ht).fresh (hf t ht) id hj).2 n hn

theorem IsTree.exists_slot {s : Store} (h : s.IsTree) {id : ℕ} (hid : id < s.size) (hne : id ≠ root) :
    ∃ q : ℕ, q < s.size ∧ id ∈ s.slots q := by
  have hcount := h.slot id hid hne
  have hpos : 0 < ((List.range s.size).flatMap s.slots).count id := by omega
  obtain ⟨q, hq, hslot⟩ := List.mem_flatMap.mp (List.count_pos_iff.mp hpos)
  exact ⟨q, List.mem_range.mp hq, hslot⟩

theorem IsTree.linked {s : Store} (h : s.IsTree) : s.Linked := by
  intro id n hn
  refine ⟨fun child hchild => ?_, fun q hq => ?_⟩
  · have hslot : child ∈ s.slots id := by rwa [slots, hn, Option.elim_some]
    obtain ⟨m, hm, -⟩ := h.parent id child hslot
    exact node?_lt hm
  · by_cases hid : id = root
    · obtain ⟨items, htop⟩ := h.top
      rw [hid, htop] at hn
      cases hn
      cases hq
    · obtain ⟨j, hj, hslot⟩ := h.exists_slot (node?_lt hn) hid
      obtain ⟨m, hm, hparent⟩ := h.parent j id hslot
      rw [hn] at hm
      cases hm
      rw [hq] at hparent
      cases hparent
      exact hj

/-- The tokens of the tree below a node, which has no type and stands where its token stands: a reference or a
constant at its only token, a computation at the operator, an assignment at the assigned name, a declaration or
print statement at its keyword. -/
inductive Reads (s : Store) : NodeId → List Token → Prop
  | operand {id : NodeId} {t : Token} {x : Operand} {parent : Option NodeId} (ht : Grammar.Value t x)
      (hn : s.node? id = some ⟨x.atom.construct, t.span, none, parent⟩) : Reads s id [t]
  | compute {id left right : NodeId} {o : Token} {operator : Operator} {ts us : List Token} {parent : Option NodeId}
      (ho : Grammar.Sign o operator) (hn : s.node? id = some ⟨.compute operator left right, o.span, none, parent⟩)
      (hl : Reads s left ts) (hr : Reads s right us) : Reads s id (ts ++ o :: us)
  | assign {id target value : NodeId} {n a : Token} {ts : List Token} {parent : Option NodeId} (hk : n.kind = .name)
      (ha : a.kind = .assign) (hn : s.node? id = some ⟨.assign target value, n.span, none, parent⟩)
      (ht : Reads s target [n]) (hv : Reads s value ts) : Reads s id (n :: a :: ts)
  | declaration {id target : NodeId} {k n : Token} {type : DataType} {parent : Option NodeId} (hk : Grammar.Keyword k type)
      (hn : s.node? id = some ⟨.declaration type target, k.span, none, parent⟩) (hname : n.kind = .name)
      (ht : Reads s target [n]) : Reads s id [k, n]
  | print {id : NodeId} {p n : Token} {name : Identifier} {parent : Option NodeId} (hp : p.kind = .print)
      (hname : Grammar.Name n name) (hn : s.node? id = some ⟨.print name.letter, p.span, none, parent⟩) :
      Reads s id [p, n]

inductive ReadsItems (s : Store) : List NodeId → List Token → Prop
  | nil : ReadsItems s [] []
  | close {ids : List NodeId} {e : Token} {ts : List Token} (he : e.kind = .close) (h : ReadsItems s ids ts) :
      ReadsItems s ids (e :: ts)
  | item {id : NodeId} {ids : List NodeId} {us ts : List Token} (hi : Reads s id us) (h : ReadsItems s ids ts) :
      ReadsItems s (id :: ids) (us ++ ts)

theorem Reads.slot {s : Store} {id child : NodeId} {ts : List Token} (h : s.Reads id ts) (hchild : child ∈ s.slots id) :
    ∃ us, s.Reads child us ∧ us <:+: ts := by
  have hslots {c : Construct NodeId} {span : Span} {parent : Option NodeId} (hn : s.node? id = some ⟨c, span, none, parent⟩) :
      child ∈ c.children := by
    rwa [slots, hn, Option.elim_some] at hchild
  cases h with
  | @operand _ t x _ ht hn =>
    have hnone := hslots hn
    cases hx : x.atom <;> rw [hx] at hnone <;> cases hnone
  | @compute _ left right o _ ts us _ ho hn hl hr =>
    rcases List.mem_pair.mp (hslots hn) with rfl | rfl
    · exact ⟨ts, hl, [], o :: us, rfl⟩
    · exact ⟨us, hr, ts ++ [o], [], by simp⟩
  | @assign _ target value n a ts _ hk ha hn ht hv =>
    rcases List.mem_pair.mp (hslots hn) with rfl | rfl
    · exact ⟨[n], ht, [], a :: ts, rfl⟩
    · exact ⟨ts, hv, [n, a], [], by simp⟩
  | @declaration _ target k n _ _ hk hn hname ht =>
    obtain rfl := List.mem_singleton.mp (hslots hn)
    exact ⟨[n], ht, [k], [], rfl⟩
  | print hp hname hn => cases hslots hn

theorem ReadsItems.item_of_mem {s : Store} {ids : List NodeId} {ts : List Token} (h : s.ReadsItems ids ts) {id : NodeId}
    (hid : id ∈ ids) : ∃ us, s.Reads id us ∧ us <:+: ts := by
  induction h with
  | nil => cases hid
  | close he _ ih =>
    obtain ⟨us, hus, hin⟩ := ih hid
    exact ⟨us, hus, hin.trans (List.suffix_cons _ _).isInfix⟩
  | @item id' ids us ts hi _ ih =>
    rcases List.mem_cons.mp hid with rfl | hid
    · exact ⟨us, hi, (List.prefix_append us ts).isInfix⟩
    · obtain ⟨vs, hvs, hin⟩ := ih hid
      exact ⟨vs, hvs, hin.trans (List.suffix_append us ts).isInfix⟩

theorem IsTree.reads {s : Store} (h : s.IsTree) {ts : List Token} (hitems : s.ReadsItems s.items ts) {id : ℕ}
    (hid : id < s.size) (hne : id ≠ root) : ∃ us, s.Reads id us ∧ us <:+: ts := by
  -- A parent is numbered behind its children, so going up ends at the program.
  induction hk : s.size - id using Nat.strong_induction_on generalizing id with
  | _ k ih =>
    obtain ⟨q, hq, hslot⟩ := h.exists_slot hid hne
    by_cases htop : q = root
    · obtain ⟨items, hroot⟩ := h.top
      rw [htop, slots, hroot, Option.elim_some] at hslot
      refine hitems.item_of_mem ?_
      rw [Store.items, hroot]
      exact hslot
    · have hlt : id < q := h.below q htop id hslot
      obtain ⟨us, hus, hin⟩ := ih (s.size - q) (by omega) hq htop rfl
      obtain ⟨vs, hvs, hin'⟩ := hus.slot hslot
      exact ⟨vs, hvs, hin'.trans hin⟩

open Grammar

variable {s : Store} {parent : Option NodeId} {k : NodeId}

theorem Holds.reads_operand {x : Operand} {t : Token} (h : s.Holds parent (x.stamped k)) (ht : Value t x) : s.Reads k [t] := by
  have hn : s.node? k = some ⟨x.atom.construct, t.span, none, parent⟩ := by
    cases ht <;> exact h.node?
  exact .operand ht hn

theorem Holds.reads_name {x : Identifier} {t : Token} (h : s.Holds parent (.node ⟨k, x.span, none⟩ (.reference x.letter)))
    (ht : Name t x) : s.Reads k [t] := by
  have hvalue : Value t ⟨.name x.letter, x.span⟩ := by
    cases ht
    exact .name _ _
  exact reads_operand h hvalue

theorem Holds.reads_further {ts us : List Token} {further : List (Operator × Span × Operand)} (hs : Many Further ts further)
    {left : Chain} (hleft : ∀ {parent k}, s.Holds parent (left.stamped k) → s.Reads (left.stamped k).id us)
    (h : s.Holds parent ((further.foldl (fun left x => .extend left x.1 x.2.1 x.2.2) left).stamped k)) :
    s.Reads ((further.foldl (fun left x => .extend left x.1 x.2.1 x.2.2) left).stamped k).id (us ++ ts) := by
  induction hs generalizing left us with
  | nil =>
    rw [List.append_nil]
    exact hleft h
  | @cons ts ts' x xs hx _ ih =>
    cases hx with
    | @operand o v operator x ho hv =>
      rw [← List.append_assoc]
      refine ih (fun {parent k} h => ?_) h
      have hl := hleft (h.child List.mem_cons_self)
      have hr := (h.child (List.mem_cons_of_mem _ List.mem_cons_self)).reads_operand hv
      exact .compute ho h.node? hl hr

theorem Holds.reads_declaration {d : Declaration} {ts : List Token} (h : s.Holds parent (d.stamped k)) (hd : Declares ts d) :
    s.Reads (d.stamped k).id ts := by
  cases hd with
  | declare hk hn => exact .declaration hk h.node? (name_iff.mp hn).1 ((h.child List.mem_cons_self).reads_name hn)

theorem Holds.reads_statement {st : Statement} {ts : List Token} (h : s.Holds parent (st.stamped k)) (hst : States ts st) :
    s.Reads (st.stamped k).id ts := by
  cases hst with
  | @assign n a v ts target first further hn ha hv hs =>
    have htarget := (h.child List.mem_cons_self).reads_name hn
    have hvalue : s.Reads ((Chain.ofOperands first further).stamped (k + 1)).id ([v] ++ ts) :=
      Holds.reads_further hs (fun h => h.reads_operand hv) (h.child (List.mem_cons_of_mem _ List.mem_cons_self))
    have hspan : target.span = n.span := by
      cases hn
      rfl
    have hnode := h.node?
    rw [hspan] at hnode
    exact .assign (name_iff.mp hn).1 ha hnode htarget hvalue
  | print hp hn => exact .print hp hn h.node?

theorem readsItems_pieces {ts : List Token} {sss : List (List Statement)} (hs : Many Piece ts sss)
    (h : ∀ t ∈ stampAll Statement.count Statement.stamped k sss.flatten, s.Holds (some root) t) :
    s.ReadsItems ((stampAll Statement.count Statement.stamped k sss.flatten).map Tree.id) ts := by
  induction hs generalizing k with
  | nil => exact .nil
  | cons hp _ ih =>
    cases hp with
    | close he => exact .close he (ih h)
    | statement hst =>
      have hrest := ih fun t ht => h t (List.mem_cons_of_mem _ ht)
      exact .item ((h _ List.mem_cons_self).reads_statement hst) hrest

theorem readsItems_declarations {ts us : List Token} {ds : List Declaration} {ids : List NodeId} (hs : Many Declares ts ds)
    (h : ∀ t ∈ stampAll (fun _ => 2) Declaration.stamped k ds, s.Holds (some root) t) (hrest : s.ReadsItems ids us) :
    s.ReadsItems ((stampAll (fun _ => 2) Declaration.stamped k ds).map Tree.id ++ ids) (ts ++ us) := by
  induction hs generalizing k with
  | nil => exact hrest
  | cons hd _ ih =>
    rw [List.append_assoc]
    exact .item ((h _ List.mem_cons_self).reads_declaration hd) (ih fun t ht => h t (List.mem_cons_of_mem _ ht))

end Store

namespace Program

theorem items_store (p : Program) : p.store.items = p.stampedItems.map Tree.id := by
  rw [Store.items, p.store_lists.holds.node?]
  rfl

theorem readsItems_store {p : Program} {ts : List Token} (h : Grammar.Derives ts p) : p.store.ReadsItems p.store.items ts := by
  have hholds (t : Tree Stamp) (ht : t ∈ p.stampedItems) : p.store.Holds (some Store.root) t := p.store_lists.holds.child ht
  rw [items_store]
  unfold stampedItems at hholds ⊢
  cases h with
  | @program ts us vs ds ss sss hd hs hm =>
    obtain ⟨pieces, hpieces, rfl⟩ := hs.pieces
    obtain ⟨pieces', hpieces', hflatten⟩ := Grammar.segments_pieces hm
    have hall := hpieces.append hpieces'
    rw [← hflatten, ← List.flatten_append] at hholds ⊢
    rw [List.map_append, List.append_assoc]
    refine Store.readsItems_declarations hd (fun t ht => hholds t (List.mem_append_left _ ht)) ?_
    exact Store.readsItems_pieces hall fun t ht => hholds t (List.mem_append_right _ ht)

end Program

def Chain.operatorCount : Chain → ℕ
  | operand _ => 0
  | extend left _ _ _ => left.operatorCount + 1

def Statement.value? : Statement → Option Chain
  | assign _ value => some value
  | print _ _ => none

theorem Chain.count_eq (c : Chain) : c.count = 2 * c.operatorCount + 1 := by
  induction c with
  | operand first => rfl
  | extend left o span right ih =>
    rw [count, operatorCount, ih]
    omega

namespace Program

def values (p : Program) : List Chain :=
  p.statements.filterMap Statement.value?

def printCount (p : Program) : ℕ :=
  p.statements.countP fun st => st.value?.isNone

theorem sum_count (ss : List Statement) : (ss.map Statement.count).sum = (ss.countP fun st => st.value?.isNone) +
    ((ss.filterMap Statement.value?).map fun c => 2 * c.operatorCount + 3).sum := by
  induction ss with
  | nil => rfl
  | cons st ss ih =>
    cases st with
    | assign target value =>
      have hcount := value.count_eq
      simp only [List.map_cons, List.sum_cons, ih, Statement.count, Statement.value?, List.filterMap_cons, List.countP_cons,
        Option.isNone_some, Bool.false_eq_true, if_false]
      omega
    | print name span =>
      simp only [List.map_cons, List.sum_cons, ih, Statement.count, Statement.value?, List.filterMap_cons, List.countP_cons,
        Option.isNone_none, if_true]
      omega

theorem size_store_eq (p : Program) : p.store.size =
    1 + 2 * p.declarations.length + p.printCount + (p.values.map fun c => 2 * c.operatorCount + 3).sum := by
  have hempty : Store.empty.size = 1 := rfl
  rw [store_eq, Store.size_foldl Store.size_addStatement, Store.size_foldl Store.size_addDeclaration, List.map_const',
    List.sum_replicate, smul_eq_mul, hempty, sum_count, Nat.mul_comm, ← Nat.add_assoc]
  rfl

/-- Tokens are read into a store that is one tree, with every node where its token stands, and nothing names a node
that is not there: not the reader that makes the nodes, not the analysis, and nothing that goes down the tree before
it or behind it. -/
theorem parsed_store_isTree (ts : List Token) (s : Store) (h : (ofTokens ts).map store = .ok s) :
    s.IsTree ∧ s.ReadsItems s.items (ts ++ [closingToken ts]) ∧
      (∀ id : ℕ, id < s.size → id ≠ Store.root → ∃ us, s.Reads id us ∧ us <:+: ts ++ [closingToken ts]) ∧
      (∃ p, Grammar.Derives (ts ++ [closingToken ts]) p ∧
        s.size = 1 + 2 * p.declarations.length + p.printCount + (p.values.map fun c => 2 * c.operatorCount + 3).sum ∧
        (NodeAccess.addProgram p : Checked Unit).run .empty = some ((), s)) ∧
      s.tree?.isSome ∧
      ∀ table, (Typing.findTypes table : CheckedTyping Unit).run s = some ((Store.findTypes table).run s) ∧
        ((Store.findTypes table).run s).2.tree?.isSome := by
  obtain ⟨p, hp, rfl⟩ := map_eq_ok.mp h
  have hderives := ofTokens_iff_derives.mp hp
  have htree := p.store_lists.isTree p.fresh_stampedItems
  have hitems := readsItems_store hderives
  have hroot : Store.root < p.store.size := by
    obtain ⟨items, htop⟩ := htree.top
    exact Store.node?_lt htop
  have hmade : (NodeAccess.addProgram p : Checked Unit).run .empty = some ((), p.store) := Checked.run_addProgram p
  refine ⟨htree, hitems, fun id hid hne => htree.reads hitems hid hne, ⟨p, hderives, p.size_store_eq, hmade⟩, ?_,
    fun table => ⟨?_, ?_⟩⟩
  · rw [p.tree?_store, Option.isSome_some]
  · exact htree.linked.findTypes hroot table
  · obtain ⟨s', hrun, hstep⟩ := p.store_keeps.findTypes rfl table
    have hid : (p.stamped.infer table p.store.size).tree.id = Store.root := by
      rw [Tree.infer_id]
      rfl
    rw [hrun, hstep.holds.tree? hid, Option.isSome_some]

def summingTokens : List Token :=
  [⟨.integerDeclaration, none, ⟨1, 1, 0, 1⟩⟩, ⟨.name, some (.name 'a'), ⟨1, 3, 2, 3⟩⟩, ⟨.name, some (.name 'a'), ⟨1, 5, 4, 5⟩⟩,
    ⟨.assign, none, ⟨1, 7, 6, 7⟩⟩, ⟨.integer, some (.integer 2), ⟨1, 9, 8, 9⟩⟩, ⟨.plus, none, ⟨1, 11, 10, 11⟩⟩,
    ⟨.name, some (.name 'a'), ⟨1, 13, 12, 13⟩⟩, ⟨.print, none, ⟨1, 15, 14, 15⟩⟩, ⟨.name, some (.name 'a'), ⟨1, 17, 16, 17⟩⟩]

theorem parsed_store_isTree_summingTokens : ∃ s, (ofTokens summingTokens).map store = .ok s ∧ s.size = 9 ∧
    s.IsTree ∧ s.ReadsItems s.items (summingTokens ++ [closingToken summingTokens]) ∧
      (∀ id : ℕ, id < s.size → id ≠ Store.root →
        ∃ us, s.Reads id us ∧ us <:+: summingTokens ++ [closingToken summingTokens]) ∧
      (∃ p, Grammar.Derives (summingTokens ++ [closingToken summingTokens]) p ∧
        s.size = 1 + 2 * p.declarations.length + p.printCount + (p.values.map fun c => 2 * c.operatorCount + 3).sum ∧
        (NodeAccess.addProgram p : Checked Unit).run .empty = some ((), s)) ∧
      s.tree?.isSome ∧
      ∀ table, (Typing.findTypes table : CheckedTyping Unit).run s = some ((Store.findTypes table).run s) ∧
        ((Store.findTypes table).run s).2.tree?.isSome :=
  ⟨_, rfl, rfl, parsed_store_isTree summingTokens _ rfl⟩

end Program

end AddingCalculator
