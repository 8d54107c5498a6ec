import AddingCalculator.Proofs.ProgramTree
import AddingCalculator.Proofs.TypingSimulation

/-!
# Stores with checked numbers

Reading or changing a node that is not there does nothing to a store. Here the same computations have no outcome at
all if they name such a node. They still have the outcome that they had before, as long as all children and parents
that a store names are there.
-/

namespace AddingCalculator

open NodeAccess (store node? change setType setParent setConstruct redirect add appendItem addOperand addChain addDeclaration
  addStatement addProgram)

abbrev Checked := StateT Store Option

instance : NodeAccess Checked where
  store := get
  node? id := fun s => (s.node? id).map fun n => (some n, s)
  change ids f := fun s => if ∀ id : ℕ, id ∈ ids → id < s.size then some ((), f s) else none

namespace Checked

variable {α β : Type} {s : Store}

theorem run_bind {y : Checked α} {a : α} {s' : Store} (h : y.run s = some (a, s')) (g : α → Checked β) :
    (y >>= g).run s = (g a).run s' := by
  have hbind : (y >>= g).run s = (y.run s).bind fun r => (g r.1).run r.2 := rfl
  rw [hbind, h, Option.bind_some]

theorem run_store (g : Store → Checked α) (s : Store) : (store >>= g).run s = (g s).run s := rfl

theorem run_change {ids : List NodeId} (h : ∀ id : ℕ, id ∈ ids → id < s.size) (f : Store → Store) :
    (change ids f : Checked Unit).run s = some ((), f s) :=
  if_pos h

theorem change_bind {ids : List NodeId} (h : ∀ id : ℕ, id ∈ ids → id < s.size) (f : Store → Store)
    (g : Unit → Checked α) : (change ids f >>= g).run s = (g ()).run (f s) :=
  run_bind (run_change h f) g

theorem add_bind {c : Construct NodeId} (h : ∀ child : ℕ, child ∈ c.children → child < s.size) (span : Span)
    (g : Unit → Checked α) : (add c span >>= g).run s = (g ()).run (s.add c span) :=
  change_bind h _ g

theorem run_forM {ι : Type} {f : ι → Checked Unit} {g : Store → ι → Store} (h : ∀ x s, (f x).run s = some ((), g s x))
    (xs : List ι) (s : Store) : (xs.forM f).run s = some ((), xs.foldl g s) := by
  induction xs generalizing s with
  | nil => rfl
  | cons x xs ih =>
    rw [List.forM, run_bind (h x s)]
    exact ih (g s x)

theorem run_addOperand (x : Operand) (s : Store) : (addOperand x : Checked Unit).run s = some ((), s.addOperand x) := by
  apply run_change
  cases x.atom <;> simp [Atom.construct, Construct.children]

theorem run_addChain (c : Chain) (s : Store) : (addChain c : Checked Unit).run s = some ((), s.addChain c) := by
  induction c with
  | operand first => exact run_addOperand first s
  | extend left o span right ih =>
    have hright : (s.addChain left).size < ((s.addChain left).addOperand right).size := by
      rw [Store.size_addOperand]
      omega
    have hleft : (s.addChain left).size - 1 < ((s.addChain left).addOperand right).size := by omega
    rw [addChain, run_bind ih, run_store, run_bind (run_addOperand right _)]
    exact run_change (List.forall_mem_cons.mpr ⟨hleft, List.forall_mem_singleton.mpr hright⟩) _

theorem run_addDeclaration (d : Declaration) (s : Store) :
    (addDeclaration d : Checked Unit).run s = some ((), s.addDeclaration d) := by
  rw [addDeclaration, run_store, add_bind (by simp [Construct.children]), run_store, add_bind ?_]
  · apply run_change
    simp [Store.root]
  · simp [Construct.children]

theorem run_addStatement (st : Statement) (s : Store) :
    (addStatement st : Checked Unit).run s = some ((), s.addStatement st) := by
  cases st with
  | assign target value =>
    have hname : s.size < ((s.add (.reference target.letter) target.span).addChain value).size := by
      rw [Store.size_addChain, Store.size_add]
      omega
    have hvalue : ((s.add (.reference target.letter) target.span).addChain value).size - 1 <
        ((s.add (.reference target.letter) target.span).addChain value).size := by
      omega
    rw [addStatement, run_store, add_bind (by simp [Construct.children]), run_bind (run_addChain value _), run_store,
      add_bind ?_]
    · apply run_change
      simp [Store.root]
    · exact List.forall_mem_cons.mpr ⟨hname, List.forall_mem_singleton.mpr hvalue⟩
  | print name span =>
    rw [addStatement, run_store, add_bind (by simp [Construct.children])]
    apply run_change
    simp [Store.root]

theorem run_addProgram (p : Program) : (addProgram p : Checked Unit).run .empty = some ((), p.store) := by
  rw [addProgram, run_bind (run_forM run_addDeclaration p.declarations .empty), Program.store_eq]
  exact run_forM run_addStatement p.statements _

end Checked

def Node.LinksBelow (n : Node) (k : ℕ) : Prop :=
  (∀ child : ℕ, child ∈ n.construct.children → child < k) ∧ ∀ parent : ℕ, n.parent = some parent → parent < k

theorem Node.LinksBelow.mono {n : Node} {k k' : ℕ} (h : n.LinksBelow k) (hk : k ≤ k') : n.LinksBelow k' :=
  ⟨fun child hchild => (h.1 child hchild).trans_le hk, fun q hq => (h.2 q hq).trans_le hk⟩

namespace Store

def Linked (s : Store) : Prop :=
  ∀ id n, s.node? id = some n → n.LinksBelow s.size

variable {s : Store} {id : NodeId}

theorem Linked.modify (hs : s.Linked) {f : Node → Node} (hf : ∀ n : Node, n.LinksBelow s.size → (f n).LinksBelow s.size) :
    (s.modify id f).Linked := by
  intro j n hn
  rw [node?_modify] at hn
  rw [size_modify]
  split at hn
  · obtain ⟨m, hm, rfl⟩ := Option.map_eq_some_iff.mp hn
    exact hf m (hs j m hm)
  · exact hs j n hn

theorem Linked.setType (hs : s.Linked) (type : DataType) : (s.setType id type).Linked :=
  hs.modify fun _ hn => hn

theorem Linked.setParent (hs : s.Linked) {parent : Option NodeId} (hp : ∀ q : ℕ, parent = some q → q < s.size) :
    (s.setParent id parent).Linked :=
  hs.modify fun _ hn => ⟨hn.1, hp⟩

theorem Linked.setConstruct (hs : s.Linked) {c : Construct NodeId} (hc : ∀ child : ℕ, child ∈ c.children → child < s.size) :
    (s.setConstruct id c).Linked :=
  hs.modify fun _ hn => ⟨hc, hn.2⟩

theorem Linked.redirect (hs : s.Linked) {old : NodeId} {new : ℕ} (hnew : new < s.size) : (s.redirect id old new).Linked := by
  refine hs.modify fun n hn => ⟨fun child hchild => ?_, hn.2⟩
  rw [Construct.children_map] at hchild
  obtain ⟨j, hj, rfl⟩ := List.mem_map.mp hchild
  split
  · exact hnew
  · exact hn.1 j hj

theorem Linked.add (hs : s.Linked) {c : Construct NodeId} (hc : ∀ child : ℕ, child ∈ c.children → child < s.size)
    (span : Span) : (s.add c span).Linked := by
  intro j n hn
  rw [node?_add] at hn
  rw [size_add]
  have hgrows : s.size ≤ s.size + 1 := s.size.le_succ
  split_ifs at hn
  · cases hn
    exact ⟨fun child hchild => (hc child hchild).trans_le hgrows, fun _ h => (by cases h)⟩
  · obtain ⟨m, hm, rfl⟩ := Option.map_eq_some_iff.mp hn
    refine ⟨((hs j m hm).mono hgrows).1, fun q hq => ?_⟩
    cases hq
    exact s.size.lt_succ_self
  · exact (hs j n hn).mono hgrows

theorem Linked.insertConversion (hs : s.Linked) {n : Node} (hn : s.node? id = some n) : (s.insertConversion id).Linked := by
  have hnew : s.size < s.size + 1 := s.size.lt_succ_self
  have hwrap : (s.wrap id n).Linked := by
    refine ((hs.add (c := .convert id) ?_ n.span).setType .float).setParent fun q hq => ?_
    · exact List.forall_mem_singleton.mpr (node?_lt hn)
    · rw [size_setType, size_add]
      exact ((hs id n hn).2 q hq).trans hnew
  rw [insertConversion_eq hn]
  unfold redirectAt
  split
  · exact hwrap
  · apply hwrap.redirect
    rw [size_wrap]
    exact hnew

end Store

abbrev CheckedTyping := ExceptT Diagnostic Checked

namespace CheckedTyping

variable {α β : Type} {s : Store} {id : NodeId} {n : Node}

theorem run_bind (y : CheckedTyping α) (g : α → CheckedTyping β) (s : Store) :
    (y >>= g).run s = match y.run s with
      | none => none
      | some (.ok a, s') => (g a).run s'
      | some (.error e, s') => some (.error e, s') := by
  simp only [ExceptT.run, bind, ExceptT.bind, ExceptT.mk, StateT.bind, ExceptT.bindCont]
  rcases y s with _ | ⟨_ | _, s'⟩ <;> rfl

theorem run_store (g : Store → CheckedTyping α) (s : Store) : (store >>= g).run s = (g s).run s := rfl

theorem run_lift {y : Checked α} {a : α} {s' : Store} (h : y.run s = some (a, s')) :
    (ExceptT.lift y : CheckedTyping α).run s = some (.ok a, s') := by
  have hlift : (ExceptT.lift y : CheckedTyping α).run s = (y.run s).bind fun r => some (.ok r.1, r.2) := rfl
  rw [hlift, h, Option.bind_some]

theorem node?_bind (h : s.node? id = some n) (g : Option Node → CheckedTyping α) :
    (node? id >>= g).run s = (g (some n)).run s := by
  have hread : (node? id : Checked (Option Node)).run s = (s.node? id).map fun n => (some n, s) := rfl
  rw [h, Option.map_some] at hread
  have hlift : (node? id : CheckedTyping (Option Node)).run s = some (.ok (some n), s) := run_lift hread
  rw [run_bind, hlift]

theorem run_change {ids : List NodeId} (h : ∀ id : ℕ, id ∈ ids → id < s.size) (f : Store → Store) :
    (change ids f : CheckedTyping Unit).run s = some (.ok (), f s) :=
  run_lift (Checked.run_change h f)

theorem change_bind {ids : List NodeId} (h : ∀ id : ℕ, id ∈ ids → id < s.size) (f : Store → Store)
    (g : Unit → CheckedTyping α) : (change ids f >>= g).run s = (g ()).run (f s) := by
  rw [run_bind, run_change h]

theorem run_node (h : s.node? id = some n) : (Typing.node id : CheckedTyping Node).run s = some (.ok n, s) := by
  rw [Typing.node, node?_bind h]
  rfl

theorem run_widen {value : Literal} (h : s.node? id = some n) (hc : n.construct = .constant value) :
    (NodeAccess.widen id : CheckedTyping Unit).run s =
      some (.ok (), (s.setConstruct id (.constant value.widen)).setType id .float) := by
  have hid : ∀ j : ℕ, j ∈ [id] → j < s.size := List.forall_mem_singleton.mpr (Store.node?_lt h)
  obtain ⟨c, span, type, parent⟩ := n
  cases hc
  rw [NodeAccess.widen, node?_bind h]
  dsimp only
  rw [setConstruct, change_bind hid]
  apply run_change
  rw [Store.setConstruct, Store.size_modify]
  exact hid

theorem run_insertConversion (hs : s.Linked) (hn : s.node? id = some n) :
    (NodeAccess.insertConversion id : CheckedTyping Unit).run s = some (.ok (), s.insertConversion id) := by
  have hnew : ∀ j : ℕ, j ∈ [s.size] → j < s.size + 1 := List.forall_mem_singleton.mpr s.size.lt_succ_self
  rw [NodeAccess.insertConversion, node?_bind hn]
  dsimp only
  rw [run_store, add, change_bind ?_, setType, change_bind ?_, setParent, change_bind ?_, Store.insertConversion_eq hn]
  · cases hparent : n.parent with
    | none =>
      rw [Store.wrap, hparent]
      rfl
    | some parent =>
      rw [Store.wrap, hparent]
      apply run_change
      rw [Store.size_setParent, Store.size_setType, Store.size_add]
      exact List.forall_mem_singleton.mpr (((hs id n hn).2 parent hparent).trans s.size.lt_succ_self)
  · rw [Store.size_setType, Store.size_add]
    exact hnew
  · rw [Store.size_add]
    exact hnew
  · exact List.forall_mem_singleton.mpr (Store.node?_lt hn)

end CheckedTyping

/-- From the store `s` on, the checked computation has the outcome of the other one, and no stray links are left. -/
structure Agrees {α : Type} (s : Store) (x : Typing α) (y : CheckedTyping α) : Prop where
  run : y.run s = some (x.run s)
  linked : (x.run s).2.Linked
  grows : s.size ≤ (x.run s).2.size

namespace Agrees

variable {α β : Type} {s : Store} {x : Typing α} {y : CheckedTyping α}

theorem of_run {r : Except Diagnostic α} {s' : Store} (hx : x.run s = (r, s')) (hy : y.run s = some (r, s'))
    (hs : s'.Linked) (hg : s.size ≤ s'.size) : Agrees s x y := by
  refine ⟨by rw [hx, hy], ?_, ?_⟩ <;> rw [hx]
  · exact hs
  · exact hg

theorem still {r : Except Diagnostic α} (hs : s.Linked) (hx : x.run s = (r, s)) (hy : y.run s = some (r, s)) :
    Agrees s x y :=
  of_run hx hy hs le_rfl

theorem bind {f : α → Typing β} {g : α → CheckedTyping β} (h : Agrees s x y)
    (hf : ∀ a s', x.run s = (.ok a, s') → s'.Linked → s.size ≤ s'.size → Agrees s' (f a) (g a)) :
    Agrees s (x >>= f) (y >>= g) := by
  obtain ⟨hrun, hlinked, hgrows⟩ := h
  rcases hx : x.run s with ⟨result, s'⟩
  rw [hx] at hrun hlinked hgrows
  cases result with
  | error e =>
    have hbind : (x >>= f).run s = (.error e, s') := by rw [run_bind, hx]
    refine ⟨?_, ?_, ?_⟩
    · rw [CheckedTyping.run_bind, hrun, hbind]
    · rwa [hbind]
    · rwa [hbind]
  | ok a =>
    have hbind : (x >>= f).run s = (f a).run s' := by rw [run_bind, hx]
    obtain ⟨hrest, hlinked', hgrows'⟩ := hf a s' hx hlinked hgrows
    refine ⟨?_, ?_, ?_⟩
    · rw [CheckedTyping.run_bind, hrun, hbind]
      exact hrest
    · rwa [hbind]
    · rw [hbind]
      exact hgrows.trans hgrows'

theorem discard (h : Agrees s x y) : Agrees s (discard x) (discard y) := by
  rw [Functor.discard, Functor.discard, map_const, map_const, Function.comp_apply, Function.comp_apply, map_eq_pure_bind,
    map_eq_pure_bind]
  exact h.bind fun _ s' _ hs _ => still hs rfl rfl

theorem node {id : ℕ} (hs : s.Linked) (hid : id < s.size) {f : Node → Typing β} {g : Node → CheckedTyping β}
    (hf : ∀ n, s.node? id = some n → n.LinksBelow s.size → Agrees s (f n) (g n)) :
    Agrees s (Typing.node id >>= f) (Typing.node id >>= g) := by
  have hn : s.node? id = some s.nodes[id] := Array.getElem?_eq_getElem hid
  refine (still hs (Typing.run_node hn) (CheckedTyping.run_node hn)).bind fun n s' hrun _ _ => ?_
  rw [Typing.run_node hn] at hrun
  cases hrun
  exact hf _ hn (hs id _ hn)

theorem setType {id : ℕ} (hs : s.Linked) (hid : id < s.size) (type : DataType) :
    Agrees s (NodeAccess.setType id type) (NodeAccess.setType id type) := by
  have hrun : (NodeAccess.setType id type : Typing Unit).run s = (.ok (), s.setType id type) := rfl
  refine of_run hrun ?_ (hs.setType type) (s.size_setType id type).ge
  exact CheckedTyping.run_change (List.forall_mem_singleton.mpr hid) _

theorem typed {id : ℕ} (hs : s.Linked) (hid : id < s.size) (type : DataType) :
    Agrees s (Typing.typed id type) (Typing.typed id type) :=
  (setType hs hid type).bind fun _ _ _ hs' _ => still hs' rfl rfl

theorem value {type : Option DataType} (hs : s.Linked) : Agrees s (Typing.value type) (Typing.value type) := by
  cases type <;> exact still hs rfl rfl

theorem widen {id : NodeId} {literal : Literal} {n : Node} (hs : s.Linked) (hn : s.node? id = some n)
    (hc : n.construct = .constant literal) : Agrees s (NodeAccess.widen id) (NodeAccess.widen id) := by
  have hlinked : (s.setConstruct id (.constant literal.widen)).Linked := hs.setConstruct fun _ h => (by cases h)
  refine of_run (Typing.run_widen hn hc) (CheckedTyping.run_widen hn hc) (hlinked.setType .float) ?_
  rw [Store.size_setType, Store.setConstruct, Store.size_modify]

theorem insertConversion {id : NodeId} {n : Node} (hs : s.Linked) (hn : s.node? id = some n) :
    Agrees s (NodeAccess.insertConversion id) (NodeAccess.insertConversion id) := by
  refine of_run (Typing.run_insertConversion hn) (CheckedTyping.run_insertConversion hs hn) (hs.insertConversion hn) ?_
  rw [Store.size_insertConversion hn]
  omega

theorem widenTo {fuel id : ℕ} (target : DataType) (hs : s.Linked) (hid : id < s.size) :
    Agrees s (Typing.widenTo fuel id target) (Typing.widenTo fuel id target) := by
  induction fuel generalizing s id with
  | zero => exact still hs rfl rfl
  | succ fuel ih =>
    rw [Typing.widenTo, Typing.widenTo]
    refine node hs hid fun n hn hlinks => ?_
    cases n.type with
    | none => exact still hs rfl rfl
    | some source =>
      dsimp only
      split_ifs
      · exact still hs rfl rfl
      · exact still hs rfl rfl
      · obtain ⟨c, span, type, parent⟩ := n
        cases c with
        | constant value => exact widen hs hn rfl
        | compute o left right =>
          have hleft := hlinks.1 left (by simp [Construct.children])
          have hright := hlinks.1 right (by simp [Construct.children])
          refine (ih hs hleft).bind fun _ s₁ _ hs₁ hg₁ => ?_
          refine (ih hs₁ (hright.trans_le hg₁)).bind fun _ s₂ _ hs₂ hg₂ => ?_
          exact setType hs₂ (hid.trans_le (hg₁.trans hg₂)) target
        | reference name | convert operand => exact insertConversion hs hn
        | _ => exact still hs rfl rfl

theorem forM {ι : Type} {f : ι → Typing Unit} {g : ι → CheckedTyping Unit} {xs : List ι} (hs : s.Linked)
    (h : ∀ x ∈ xs, ∀ s' : Store, s'.Linked → s.size ≤ s'.size → Agrees s' (f x) (g x)) :
    Agrees s (xs.forM f) (xs.forM g) := by
  induction xs generalizing s with
  | nil => exact still hs rfl rfl
  | cons x xs ih =>
    rw [List.forM, List.forM]
    refine (h x List.mem_cons_self s hs le_rfl).bind fun _ s₁ _ hs₁ hg₁ => ?_
    exact ih hs₁ fun y hy s₂ hs₂ hg₂ => h y (List.mem_cons_of_mem x hy) s₂ hs₂ (hg₁.trans hg₂)

theorem infer (table : SymbolTable) {fuel : ℕ} {id : ℕ} (hs : s.Linked) (hid : id < s.size) :
    Agrees s (Typing.infer table fuel id) (Typing.infer table fuel id) := by
  induction fuel generalizing s id with
  | zero => exact still hs rfl rfl
  | succ fuel ih =>
    have hlookUp (name : Char) :
        Agrees s (do Typing.typed id (← table.typeOf name)) (do Typing.typed id (← table.typeOf name)) := by
      cases table.typeOf name with
      | error e => exact still hs rfl rfl
      | ok type => exact typed hs hid type
    rw [Typing.infer, Typing.infer]
    refine node hs hid fun n hn hlinks => ?_
    obtain ⟨c, span, type, parent⟩ := n
    cases c with
    | program items =>
      refine (forM hs fun item hitem s₁ hs₁ hg₁ => ?_).bind fun _ s₁ _ hs₁ _ => still hs₁ rfl rfl
      exact (ih hs₁ ((hlinks.1 item hitem).trans_le hg₁)).discard
    | declaration declared target =>
      have htarget := hlinks.1 target (by simp [Construct.children])
      refine (ih hs htarget).bind fun _ s₁ _ hs₁ hg₁ => ?_
      refine (value hs₁).discard.bind fun _ s₂ _ hs₂ hg₂ => ?_
      exact typed hs₂ (hid.trans_le (hg₁.trans hg₂)) declared
    | assign target right =>
      have htarget := hlinks.1 target (by simp [Construct.children])
      have hright := hlinks.1 right (by simp [Construct.children])
      refine (ih hs htarget).bind fun _ s₁ _ hs₁ hg₁ => ?_
      refine (value hs₁).bind fun type s₂ _ hs₂ hg₂ => ?_
      refine (ih hs₂ (by omega)).bind fun _ s₃ _ hs₃ hg₃ => ?_
      refine (value hs₃).discard.bind fun _ s₄ _ hs₄ hg₄ => ?_
      refine (widenTo type hs₄ (by omega)).bind fun _ s₅ _ hs₅ hg₅ => ?_
      exact typed hs₅ (by omega) type
    | compute o left right =>
      have hleft := hlinks.1 left (by simp [Construct.children])
      have hright := hlinks.1 right (by simp [Construct.children])
      refine (ih hs hleft).bind fun _ s₁ _ hs₁ hg₁ => ?_
      refine (value hs₁).bind fun leftType s₂ _ hs₂ hg₂ => ?_
      refine (ih hs₂ (by omega)).bind fun _ s₃ _ hs₃ hg₃ => ?_
      refine (value hs₃).bind fun rightType s₄ _ hs₄ hg₄ => ?_
      refine (widenTo _ hs₄ (by omega)).bind fun _ s₅ _ hs₅ hg₅ => ?_
      refine (widenTo _ hs₅ (by omega)).bind fun _ s₆ _ hs₆ hg₆ => ?_
      exact typed hs₆ (by omega) _
    | reference name | print name => exact hlookUp name
    | constant literal => exact typed hs hid literal.type
    | convert operand =>
      have hoperand := hlinks.1 operand (by simp [Construct.children])
      refine (ih hs hoperand).bind fun _ s₁ _ hs₁ hg₁ => ?_
      refine (value hs₁).discard.bind fun _ s₂ _ hs₂ hg₂ => ?_
      exact typed hs₂ (hid.trans_le (hg₁.trans hg₂)) .float

end Agrees

theorem Store.Linked.findTypes {s : Store} (hs : s.Linked) (hroot : Store.root < s.size) (table : SymbolTable) :
    (Typing.findTypes table : CheckedTyping Unit).run s = some ((Store.findTypes table).run s) := by
  rw [Store.findTypes, Typing.findTypes, Typing.findTypes, CheckedTyping.run_store, Typing.run_store]
  split_ifs
  · rfl
  · exact (Agrees.infer table hs hroot).discard.run

end AddingCalculator
