import AddingCalculator.Proofs.HeldTree
import AddingCalculator.Program.Store

/-!
# The tree of a program

A program has a tree without a store: an item for each declaration and statement, in order, and a left-nested
computation for each chain. The store made for a program keeps this tree, its nodes numbered in the order in which
they are made, and no others.
-/

namespace AddingCalculator

def Chain.operands : Chain → List Operand
  | operand first => [first]
  | extend left _ _ right => left.operands ++ [right]

def Atom.leaf {α : Type} : Atom → Construct α
  | name letter => .reference letter
  | literal value => .constant value

def Operand.tree (x : Operand) : TypedTree := .node none x.atom.leaf

def Chain.tree : Chain → TypedTree
  | .operand first => first.tree
  | .extend left o _ right => .node none (.compute o left.tree right.tree)

def Declaration.tree (d : Declaration) : TypedTree :=
  .node none (.declaration d.type (.node none (.reference d.target.letter)))

def Statement.tree : Statement → TypedTree
  | .assign target value => .node none (.assign (.node none (.reference target.letter)) value.tree)
  | .print name _ => .node none (.print name)

def Program.tree (p : Program) : TypedTree :=
  .node none (.program (p.declarations.map Declaration.tree ++ p.statements.map Statement.tree))

def Operand.stamped (k : NodeId) (x : Operand) : Tree Stamp := .node ⟨k, x.span, none⟩ x.atom.leaf

namespace Chain

def count : Chain → ℕ
  | operand _ => 1
  | extend left _ _ _ => left.count + 2

def stamped (k : NodeId) : Chain → Tree Stamp
  | operand first => first.stamped k
  | extend left o span right =>
    .node ⟨k + left.count + 1, span, none⟩ (.compute o (left.stamped k) (right.stamped (k + left.count)))

end Chain

def Declaration.stamped (k : NodeId) (d : Declaration) : Tree Stamp :=
  .node ⟨k + 1, d.span, none⟩ (.declaration d.type (.node ⟨k, d.target.span, none⟩ (.reference d.target.letter)))

namespace Statement

def count : Statement → ℕ
  | assign _ value => value.count + 2
  | print _ _ => 1

def stamped (k : NodeId) : Statement → Tree Stamp
  | assign target value =>
    .node ⟨k + 1 + value.count, target.span, none⟩
      (.assign (.node ⟨k, target.span, none⟩ (.reference target.letter)) (value.stamped (k + 1)))
  | print name span => .node ⟨k, span, none⟩ (.print name)

end Statement

def stampAll {ι : Type} (count : ι → ℕ) (stamped : NodeId → ι → Tree Stamp) : NodeId → List ι → List (Tree Stamp)
  | _, [] => []
  | k, x :: xs => stamped k x :: stampAll count stamped (k + count x) xs

namespace Program

def stampedItems (p : Program) : List (Tree Stamp) :=
  stampAll (fun _ => 2) Declaration.stamped 1 p.declarations ++
    stampAll Statement.count Statement.stamped (1 + 2 * p.declarations.length) p.statements

def stamped (p : Program) : Tree Stamp := .node ⟨Store.root, .origin, none⟩ (.program p.stampedItems)

end Program

theorem Chain.types_stamped (c : Chain) (k : NodeId) : (c.stamped k).types = c.tree := by
  have hleaf (x : Operand) (k : NodeId) : (x.stamped k).types = x.tree := by
    rw [Operand.stamped, Operand.tree, Tree.types_node]
    cases x.atom <;> rfl
  induction c with
  | operand first => exact hleaf first k
  | extend left o span right ih => simp only [stamped, Tree.types_node, Construct.map, ih, hleaf, tree]

theorem Program.types_stamped (p : Program) : p.stamped.types = p.tree := by
  have hall {ι : Type} (count : ι → ℕ) (stamped : NodeId → ι → Tree Stamp) (tree : ι → TypedTree)
      (h : ∀ x k, (stamped k x).types = tree x) (k : NodeId) (xs : List ι) :
      (stampAll count stamped k xs).map Tree.types = xs.map tree := by
    induction xs generalizing k with
    | nil => rfl
    | cons x xs ih => rw [stampAll, List.map_cons, List.map_cons, h, ih]
  have hdeclaration (d : Declaration) (k : NodeId) : (d.stamped k).types = d.tree := by
    simp only [Declaration.stamped, Tree.types_node, Construct.map, Declaration.tree]
  have hstatement (st : Statement) (k : NodeId) : (st.stamped k).types = st.tree := by
    cases st <;> simp only [Statement.stamped, Tree.types_node, Construct.map, Chain.types_stamped, Statement.tree]
  rw [stamped, Tree.types_node, Construct.map, stampedItems, List.map_append, hall _ _ _ hdeclaration,
    hall _ _ _ hstatement, tree]

namespace Store

theorem Holds.reparent {s s' : Store} {parent parent' : Option NodeId} {t : Tree Stamp} (h : s.Holds parent t)
    (hd : t.ids.Nodup) (hid : s'.node? t.id = (s.node? t.id).map fun n => { n with parent := parent' })
    (hrest : ∀ j ∈ t.ids, j ≠ t.id → s'.node? j = s.node? j) : s'.Holds parent' t := by
  cases h with
  | @node _ m c hn hc =>
    refine .node ?_ fun t ht => (hc t ht).congr fun j hj => ?_
    · rw [Tree.id_node] at hid
      rw [hid, hn]
      rfl
    · apply hrest j (Tree.mem_ids_of_child ht hj)
      rintro rfl
      exact (Tree.nodup_child hd ht).2 hj

/-- The store `s'` holds the nodes of `s` and, behind them, those of detached trees. -/
structure Allocates (s s' : Store) (ts : List (Tree Stamp)) : Prop where
  holds : ∀ t ∈ ts, s'.Holds none t
  ids : (ts.flatMap Tree.ids).Perm (List.range' s.size (s'.size - s.size))
  grows : s.size ≤ s'.size
  kept : ∀ j : ℕ, j < s.size → s'.node? j = s.node? j

theorem Allocates.nil (s : Store) : s.Allocates s [] :=
  ⟨fun _ ht => absurd ht List.not_mem_nil, by simp, le_rfl, fun _ _ => rfl⟩

theorem Allocates.nodup {s s' : Store} {ts : List (Tree Stamp)} (h : s.Allocates s' ts) :
    (ts.flatMap Tree.ids).Nodup := by
  rw [h.ids.nodup_iff]
  exact List.nodup_range'

theorem Allocates.le {s s' : Store} {ts : List (Tree Stamp)} (h : s.Allocates s' ts) {t : Tree Stamp} (ht : t ∈ ts) :
    ∀ j : ℕ, j ∈ t.ids → s.size ≤ j := by
  intro j hj
  have hmem := h.ids.mem_iff.mp (List.mem_flatMap.mpr ⟨t, ht, hj⟩)
  exact (List.mem_range'_1.mp hmem).1

theorem Allocates.append {s s' s'' : Store} {ts us : List (Tree Stamp)} (h : s.Allocates s' ts)
    (h' : s'.Allocates s'' us) : s.Allocates s'' (ts ++ us) := by
  have hg := h.grows
  have hg' := h'.grows
  refine ⟨fun t ht => ?_, ?_, hg.trans hg', fun j hj => ?_⟩
  · rcases List.mem_append.mp ht with ht | ht
    · exact (h.holds t ht).congr fun j hj => h'.kept j ((h.holds t ht).lt j hj)
    · exact h'.holds t ht
  · rw [List.flatMap_append, show s''.size - s.size = (s'.size - s.size) + (s''.size - s'.size) by omega,
      ← List.range'_append_1, show s.size + (s'.size - s.size) = s'.size by omega]
    exact h.ids.append h'.ids
  · rw [h'.kept j (by omega), h.kept j hj]

theorem Allocates.add {s s' : Store} {c : Construct (Tree Stamp)} (h : s.Allocates s' c.children) (span : Span) :
    s.Allocates (s'.add (c.map Tree.id) span) [.node ⟨s'.size, span, none⟩ c] := by
  have hg := h.grows
  have hold (j : ℕ) (hj : j < s'.size) (hmem : j ∉ c.children.map Tree.id) :
      (s'.add (c.map Tree.id) span).node? j = s'.node? j := by
    rw [node?_add, if_neg hj.ne, Construct.children_map, if_neg hmem]
  refine ⟨fun t ht => ?_, ?_, ?_, fun j hj => ?_⟩
  · obtain rfl := List.mem_singleton.mp ht
    refine .node ?_ fun u hu => ?_
    · rw [node?_add, if_pos rfl]
    · have hheld := h.holds u hu
      have hd := List.nodup_flatMap.mp h.nodup
      refine hheld.reparent (hd.1 u hu) ?_ fun j hj hne => hold j (hheld.lt j hj) fun hmem => ?_
      · rw [node?_add, if_neg (hheld.lt u.id u.id_mem_ids).ne, Construct.children_map,
          if_pos (List.mem_map.mpr ⟨u, hu, rfl⟩)]
      · obtain ⟨v, hv, rfl⟩ := List.mem_map.mp hmem
        have hsymm : Std.Symm (Function.onFun List.Disjoint Tree.ids) := ⟨fun x y hxy => hxy.symm⟩
        have huv : u ≠ v := fun heq => hne (by rw [heq])
        exact hd.2.forall hu hv huv hj v.id_mem_ids
  · rw [List.flatMap_singleton, Tree.ids_node, size_add, show s'.size + 1 - s.size = (s'.size - s.size) + 1 by omega,
      List.range'_1_concat, show s.size + (s'.size - s.size) = s'.size by omega]
    exact (h.ids.cons _).trans (List.perm_append_singleton _ _).symm
  · rw [size_add]
    omega
  · rw [hold j (by omega) fun hmem => ?_, h.kept j hj]
    obtain ⟨u, hu, rfl⟩ := List.mem_map.mp hmem
    have := h.le hu u.id u.id_mem_ids
    omega

def addOperand (s : Store) (x : Operand) : Store :=
  ((NodeAccess.addOperand x : StateM Store Unit).run s).2

def addChain (s : Store) (c : Chain) : Store :=
  ((NodeAccess.addChain c : StateM Store Unit).run s).2

def addDeclaration (s : Store) (d : Declaration) : Store :=
  ((NodeAccess.addDeclaration d : StateM Store Unit).run s).2

def addStatement (s : Store) (st : Statement) : Store :=
  ((NodeAccess.addStatement st : StateM Store Unit).run s).2

theorem addOperand_eq (s : Store) (x : Operand) : s.addOperand x = s.add x.atom.construct x.span := rfl

theorem addChain_operand (s : Store) (first : Operand) : s.addChain (.operand first) = s.addOperand first := rfl

theorem addChain_extend (s : Store) (left : Chain) (o : Operator) (span : Span) (right : Operand) :
    s.addChain (.extend left o span right) =
      ((s.addChain left).addOperand right).add (.compute o ((s.addChain left).size - 1) (s.addChain left).size) span := rfl

theorem addDeclaration_eq (s : Store) (d : Declaration) :
    s.addDeclaration d = ((s.add (.reference d.target.letter) d.target.span).add (.declaration d.type s.size) d.span).appendItem
      (s.add (.reference d.target.letter) d.target.span).size := rfl

theorem addStatement_assign (s : Store) (target : Identifier) (value : Chain) :
    s.addStatement (.assign target value) =
      (((s.add (.reference target.letter) target.span).addChain value).add
        (.assign s.size (((s.add (.reference target.letter) target.span).addChain value).size - 1)) target.span).appendItem
        ((s.add (.reference target.letter) target.span).addChain value).size := rfl

theorem addStatement_print (s : Store) (name : Char) (span : Span) :
    s.addStatement (.print name span) = (s.add (.print name) span).appendItem s.size := rfl

theorem addOperand_allocates (s : Store) (x : Operand) : s.Allocates (s.addOperand x) [x.stamped s.size] := by
  have hleaf : (x.atom.leaf : Construct (Tree Stamp)).children = [] := by cases x.atom <;> rfl
  have hid : x.atom.construct = x.atom.leaf.map Tree.id := by cases x.atom <;> rfl
  rw [addOperand_eq, hid, Operand.stamped]
  exact Allocates.add (hleaf ▸ .nil s) x.span

theorem size_addOperand (s : Store) (x : Operand) : (s.addOperand x).size = s.size + 1 := by
  rw [addOperand_eq, size_add]

theorem size_addChain (s : Store) (c : Chain) : (s.addChain c).size = s.size + c.count := by
  induction c with
  | operand first => rw [addChain_operand, size_addOperand, Chain.count]
  | extend left o span right ih => simp [addChain_extend, size_addOperand, Chain.count, ih, Nat.add_assoc]

theorem size_addDeclaration (s : Store) (d : Declaration) : (s.addDeclaration d).size = s.size + 2 := by
  simp [addDeclaration_eq, appendItem]

theorem size_addStatement (s : Store) (st : Statement) : (s.addStatement st).size = s.size + st.count := by
  cases st with
  | assign target value =>
    simp only [addStatement_assign, appendItem, size_modify, size_setParent, size_add, size_addChain, Statement.count]
    omega
  | print name span => simp [addStatement_print, appendItem, Statement.count]

theorem id_stamped (c : Chain) (k : NodeId) : (c.stamped k).id = k + c.count - 1 := by
  cases c with
  | operand first => rfl
  | extend left o span right => rfl

theorem addChain_allocates (s : Store) (c : Chain) : s.Allocates (s.addChain c) [c.stamped s.size] := by
  induction c with
  | operand first => exact addOperand_allocates s first
  | extend left o span right ih =>
    have hsize := size_addChain s left
    have hboth := ih.append (addOperand_allocates (s.addChain left) right)
    have hadd := Allocates.add (c := .compute o (left.stamped s.size) (right.stamped (s.addChain left).size)) hboth span
    have hnew : ((s.addChain left).addOperand right).size = s.size + left.count + 1 := by
      rw [size_addOperand, hsize]
    rw [Construct.map, id_stamped, hnew, hsize] at hadd
    rw [addChain_extend, Chain.stamped, hsize]
    exact hadd

theorem addTarget_allocates (s : Store) (x : Identifier) :
    s.Allocates (s.add (.reference x.letter) x.span) [.node ⟨s.size, x.span, none⟩ (.reference x.letter)] :=
  Allocates.add (c := .reference x.letter) (.nil s) x.span

structure Lists (s : Store) (ts : List (Tree Stamp)) : Prop where
  holds : s.Holds none (.node ⟨root, .origin, none⟩ (.program ts))
  ids : (Tree.node ⟨root, .origin, none⟩ (.program ts)).ids.Perm (List.range s.size)

theorem Lists.empty : Store.empty.Lists [] :=
  ⟨.node rfl fun _ ht => absurd ht List.not_mem_nil, by simp [Construct.children, root, size, Store.empty]⟩

theorem Lists.append {s s' : Store} {ts : List (Tree Stamp)} {t : Tree Stamp} (h : s.Lists ts)
    (ha : s.Allocates s' [t]) : (s'.appendItem t.id).Lists (ts ++ [t]) := by
  have hg := ha.grows
  have hheld := ha.holds t (by simp)
  have hroot : root < s.size := by
    cases h.holds with
    | node hn _ => exact node?_lt hn
  have hle := ha.le (t := t) (by simp)
  have hid : t.id ≠ root := fun heq => (hle t.id t.id_mem_ids).not_gt (heq ▸ hroot)
  have hitems : s'.node? root = some ⟨.program (ts.map Tree.id), .origin, none, none⟩ := by
    cases h.holds with
    | node hn _ =>
      rw [ha.kept root hroot, hn]
      rfl
  have hnode (j : NodeId) (hj : j ≠ root) : (s'.appendItem t.id).node? j =
      if t.id = j then (s'.node? j).map fun n => { n with parent := some root } else s'.node? j := by
    simp only [appendItem, setParent, node?_modify, if_neg hj.symm]
  have hd : t.ids.Nodup := by simpa using ha.nodup
  have hsize : (s'.appendItem t.id).size = s'.size := by simp [appendItem]
  refine ⟨.node ?_ fun u hu => ?_, ?_⟩
  · simp only [appendItem, setParent, node?_modify, if_neg hid, hitems]
    simp [Construct.map]
  · rcases List.mem_append.mp hu with hu | hu
    · cases h.holds with
      | node _ hc =>
        refine (hc u hu).congr fun j hj => ?_
        have hj' : j < s.size := (hc u hu).lt j hj
        have hnodup := h.ids.nodup_iff.mpr List.nodup_range
        have hne : j ≠ root := by
          rintro rfl
          exact (Tree.nodup_child hnodup hu).2 hj
        have hne' : t.id ≠ j := fun heq => (hle t.id t.id_mem_ids).not_gt (heq ▸ hj')
        rw [hnode j hne, if_neg hne', ha.kept j hj']
    · obtain rfl := List.mem_singleton.mp hu
      have hne (j : ℕ) (hj : j ∈ u.ids) : j ≠ root := fun heq => (hle j hj).not_gt (heq ▸ hroot)
      refine hheld.reparent hd ?_ fun j hj hne' => ?_
      · rw [hnode u.id hid, if_pos rfl]
      · rw [hnode j (hne j hj), if_neg hne'.symm]
  · rw [hsize, List.range_eq_range', show s'.size = s.size + (s'.size - s.size) by omega, ← List.range'_append_1,
      ← List.range_eq_range', Nat.zero_add]
    have hids : (Tree.node ⟨root, .origin, none⟩ (.program (ts ++ [t]))).ids =
        (Tree.node ⟨root, .origin, none⟩ (.program ts)).ids ++ t.ids := by
      simp [Construct.children]
    rw [hids]
    refine h.ids.append ?_
    simpa using ha.ids

theorem Lists.addDeclaration {s : Store} {ts : List (Tree Stamp)} (h : s.Lists ts) (d : Declaration) :
    (s.addDeclaration d).Lists (ts ++ [d.stamped s.size]) := by
  have ha := Allocates.add (c := .declaration d.type (.node ⟨s.size, d.target.span, none⟩ (.reference d.target.letter)))
    (addTarget_allocates s d.target) d.span
  have hl := h.append ha
  simp only [size_add] at hl
  simp only [addDeclaration_eq, Declaration.stamped, size_add]
  exact hl

theorem Lists.addStatement {s : Store} {ts : List (Tree Stamp)} (h : s.Lists ts) (st : Statement) :
    (s.addStatement st).Lists (ts ++ [st.stamped s.size]) := by
  cases st with
  | assign target value =>
    have hboth := (addTarget_allocates s target).append (addChain_allocates _ value)
    have ha := Allocates.add (c := .assign (.node ⟨s.size, target.span, none⟩ (.reference target.letter))
      (value.stamped (s.add (.reference target.letter) target.span).size)) hboth target.span
    have hl := h.append ha
    simp only [Construct.map, id_stamped, Tree.id_node, size_add, size_addChain] at hl
    simp only [addStatement_assign, Statement.stamped, size_add, size_addChain]
    exact hl
  | print name span => exact h.append (Allocates.add (c := .print name) (.nil s) span)

theorem Lists.foldl {ι : Type} {add : Store → ι → Store} {count : ι → ℕ} {stamped : NodeId → ι → Tree Stamp}
    (hadd : ∀ s ts x, Lists s ts → (add s x).Lists (ts ++ [stamped s.size x]))
    (hsize : ∀ s x, (add s x).size = s.size + count x) (xs : List ι) {s : Store} {ts : List (Tree Stamp)} (h : s.Lists ts) :
    (xs.foldl add s).Lists (ts ++ stampAll count stamped s.size xs) := by
  induction xs generalizing s ts with
  | nil => simpa [stampAll] using h
  | cons x xs ih =>
    have hrest := ih (hadd s ts x h)
    rw [List.append_assoc, List.singleton_append, hsize] at hrest
    exact hrest

theorem size_foldl {ι : Type} {add : Store → ι → Store} {count : ι → ℕ}
    (hadd : ∀ s x, (add s x).size = s.size + count x) (xs : List ι) (s : Store) :
    (xs.foldl add s).size = s.size + (xs.map count).sum := by
  induction xs generalizing s with
  | nil => simp
  | cons x xs ih => simp [ih, hadd, Nat.add_assoc]

theorem run_forM {ι : Type} (f : ι → StateM Store Unit) (xs : List ι) (s : Store) :
    ((xs.forM f).run s).2 = xs.foldl (fun s x => ((f x).run s).2) s := by
  induction xs generalizing s with
  | nil => rfl
  | cons x xs ih => exact ih _

end Store

theorem Program.store_eq (p : Program) :
    p.store = p.statements.foldl Store.addStatement (p.declarations.foldl Store.addDeclaration .empty) := by
  have hdeclarations := Store.run_forM NodeAccess.addDeclaration p.declarations .empty
  exact (Store.run_forM NodeAccess.addStatement p.statements _).trans
    (congrArg (fun s => p.statements.foldl Store.addStatement s) hdeclarations)

theorem Program.store_lists (p : Program) : p.store.Lists p.stampedItems := by
  have hd := Store.Lists.empty.foldl (fun s ts d h => h.addDeclaration d) Store.size_addDeclaration p.declarations
  have hs := hd.foldl (fun s ts st h => h.addStatement st) Store.size_addStatement p.statements
  have hempty : Store.empty.size = 1 := rfl
  rw [Store.size_foldl Store.size_addDeclaration, List.map_const', List.sum_replicate, smul_eq_mul, Nat.mul_comm, hempty,
    List.nil_append] at hs
  rw [store_eq]
  exact hs

theorem Program.store_keeps (p : Program) : p.store.Keeps none p.stamped := by
  have h := p.store_lists
  refine ⟨h.holds, ?_⟩
  rw [stamped, h.ids.nodup_iff]
  exact List.nodup_range

theorem Program.tree?_store (p : Program) : p.store.tree? = some p.tree := by
  rw [← p.types_stamped]
  exact p.store_keeps.holds.tree? rfl

end AddingCalculator
