import AddingCalculator.Proofs.DecoratedStore
import AddingCalculator.Proofs.Execution

/-!
# Analysing what was analysed

Finding types a second time changes nothing: each operand already has the type that it is to be converted to.
Collecting declarations again gives the same table, although the converted references now stand one level deeper. So
the analysis of an analysed program is that analysis.
-/

namespace AddingCalculator

theorem DataType.general_self (type : DataType) : type.general type = type := by
  cases type <;> rfl

namespace Tree

def IsProgram {α : Type} (t : Tree α) : Prop :=
  ∃ items, t.construct = .program items

/-- Below a node that is no program stands no program, so what stands there has a type. -/
inductive Rooted : Tree Stamp → Prop
  | program {m : Stamp} {items : List (Tree Stamp)} (h : ∀ t ∈ items, Rooted t) : Rooted (.node m (.program items))
  | node {m : Stamp} {c : Construct (Tree Stamp)} (hp : ∀ t ∈ c.children, ¬ t.IsProgram)
      (hc : ∀ t ∈ c.children, Rooted t) : Rooted (.node m c)

def found (t : Tree Stamp) : Option DataType :=
  match t.construct with
  | .program _ => none
  | _ => t.label.type

theorem found_of_not_isProgram {t : Tree Stamp} (h : ¬ t.IsProgram) : t.found = t.label.type := by
  obtain ⟨m, c⟩ := t
  cases c with
  | program items => exact absurd ⟨items, rfl⟩ h
  | _ => rfl

theorem Rooted.child {m : Stamp} {c : Construct (Tree Stamp)} (h : Rooted (.node m c)) {t : Tree Stamp}
    (ht : t ∈ c.children) : t.Rooted := by
  cases h with
  | program h => exact h t ht
  | node hp hc => exact hc t ht

theorem Rooted.not_isProgram {m : Stamp} {c : Construct (Tree Stamp)} (h : Rooted (.node m c))
    (hc : ∀ items, c ≠ .program items) {t : Tree Stamp} (ht : t ∈ c.children) : ¬ t.IsProgram := by
  cases h with
  | program h => exact absurd rfl (hc _)
  | node hp _ => exact hp t ht

theorem Rooted.leaf {m : Stamp} {c : Construct (Tree Stamp)} (h : c.children = []) : Rooted (.node m c) :=
  .node (by simp [h]) (by simp [h])

theorem Rooted.single {m : Stamp} {c : Construct (Tree Stamp)} {t : Tree Stamp} (h : c.children = [t])
    (ht : ¬ t.IsProgram ∧ t.Rooted) : Rooted (.node m c) :=
  .node (by simp [h, ht.1]) (by simp [h, ht.2])

theorem Rooted.pair {m : Stamp} {c : Construct (Tree Stamp)} {t u : Tree Stamp} (h : c.children = [t, u])
    (ht : ¬ t.IsProgram ∧ t.Rooted) (hu : ¬ u.IsProgram ∧ u.Rooted) : Rooted (.node m c) :=
  .node (by simp [h, ht.1, hu.1]) (by simp [h, ht.2, hu.2])

theorem Typed.exists_type {table : SymbolTable} {t : Tree Stamp} (h : t.Typed table) (hp : ¬ t.IsProgram) :
    ∃ type, t.label.type = some type := by
  obtain ⟨m, c⟩ := t
  have hat := h.inv.1
  cases c with
  | program items => exact absurd ⟨items, rfl⟩ hp
  | declaration type target => exact ⟨type, hat⟩
  | constant value => exact ⟨value.type, hat⟩
  | convert operand => exact ⟨.float, hat⟩
  | assign target value | compute o target value =>
    obtain ⟨type, htype, -⟩ := hat
    exact ⟨type, htype⟩
  | reference name | print name =>
    obtain ⟨type, htype, -⟩ := hat
    exact ⟨type, htype⟩

theorem widenTo_self {t : Tree Stamp} {target : DataType} (h : t.label.type = some target) (k : NodeId) :
    t.widenTo target k = ⟨.ok (), t, k⟩ := by
  obtain ⟨m, c⟩ := t
  have hm : m.type = some target := h
  unfold widenTo
  rw [hm]
  dsimp only
  rw [if_pos rfl]

theorem inferItems_eq {table : SymbolTable} {items : List (Tree Stamp)}
    (h : ∀ t ∈ items, ∀ k, t.infer table k = ⟨.ok t.found, t, k⟩) (m : Stamp) (finished : List (Tree Stamp)) (k : NodeId) :
    inferItems table m finished items k = ⟨.ok none, .node m (.program (finished ++ items)), k⟩ := by
  induction items generalizing finished with
  | nil =>
    rw [inferItems, List.append_nil]
  | cons item items ih =>
    rw [inferItems, h item List.mem_cons_self]
    dsimp only [Rewrite.within]
    rw [ih fun t ht => h t (List.mem_cons_of_mem item ht), List.append_assoc, List.singleton_append]

theorem Typed.infer_eq {table : SymbolTable} {t : Tree Stamp} (ht : t.Typed table) (hr : t.Rooted) (k : NodeId) :
    t.infer table k = ⟨.ok t.found, t, k⟩ := by
  induction t generalizing k with
  | node m c ih =>
    obtain ⟨hat, hbelow⟩ := ht.inv
    have hagain (u : Tree Stamp) (hu : u ∈ c.children) (k : NodeId) : u.infer table k = ⟨.ok u.found, u, k⟩ :=
      ih u hu (hbelow u hu) (hr.child hu) k
    -- A child of a node that is no program has a type, which is found again.
    have hvalue (hc : ∀ items, c ≠ .program items) (u : Tree Stamp) (hu : u ∈ c.children) {type : DataType}
        (htype : u.label.type = some type) (k : NodeId) : (u.infer table k).demand = ⟨.ok type, u, k⟩ := by
      rw [hagain u hu, found_of_not_isProgram (hr.not_isProgram hc hu), htype]
      rfl
    have hsame {type : DataType} (htype : m.type = some type) : { m with type := some type } = m := by
      rw [← htype]
    cases c with
    | program items => exact inferItems_eq hagain m [] k
    | declaration _ target | convert target =>
      obtain ⟨type, htype⟩ := (hbelow target List.mem_cons_self).exists_type (hr.not_isProgram (by simp) List.mem_cons_self)
      rw [infer, hvalue (by simp) target List.mem_cons_self htype]
      dsimp only [Rewrite.within]
      rw [hsame hat, found, construct, label, hat]
    | assign target value =>
      obtain ⟨type, htype, htarget, hv⟩ := hat
      rw [infer, hvalue (by simp) target (by simp [Construct.children]) htarget]
      dsimp only [Rewrite.within]
      rw [hvalue (by simp) value (by simp [Construct.children]) hv]
      dsimp only
      rw [widenTo_self hv]
      dsimp only
      rw [hsame htype, found, construct, label, htype]
    | compute o left right =>
      obtain ⟨type, htype, hleft, hright⟩ := hat
      rw [infer, hvalue (by simp) left (by simp [Construct.children]) hleft]
      dsimp only [Rewrite.within]
      rw [hvalue (by simp) right (by simp [Construct.children]) hright]
      dsimp only
      rw [type.general_self, widenTo_self hleft]
      dsimp only
      rw [widenTo_self hright]
      dsimp only
      rw [hsame htype, found, construct, label, htype]
    | reference name | print name =>
      obtain ⟨type, htype, hname⟩ := hat
      rw [infer, lookUp, hname]
      dsimp only
      rw [hsame htype, found, construct, label, htype]
    | constant value =>
      rw [infer, hsame hat, found, construct, label, hat]

theorem inferItems_rooted {table : SymbolTable} {m : Stamp} {finished items : List (Tree Stamp)} {k : NodeId}
    {result : Option DataType} (hi : ∀ t ∈ items, ∀ {k : NodeId} {result : Option DataType},
      (t.infer table k).result = .ok result → t.Rooted)
    (h : (inferItems table m finished items k).result = .ok result) : ∀ t ∈ items, t.Rooted := by
  induction items generalizing finished k with
  | nil => exact fun t ht => by cases ht
  | cons item items ih =>
    rw [inferItems] at h
    obtain ⟨_, hitem, he⟩ := Rewrite.eq_of_within_ok h
    rw [he] at h
    intro t ht
    rcases List.mem_cons.mp ht with rfl | ht
    · exact hi t List.mem_cons_self hitem
    · exact ih (fun u hu => hi u (List.mem_cons_of_mem item hu)) h t ht

theorem not_isProgram_of_infer {table : SymbolTable} {t : Tree Stamp} {k : NodeId} {type : DataType}
    (h : (t.infer table k).result = .ok (some type)) : ¬ t.IsProgram := by
  obtain ⟨m, c⟩ := t
  rintro ⟨items, hitems⟩
  obtain rfl : c = .program items := hitems
  rw [infer] at h
  have hnone := (inferItems_typed (fun t ht => by cases ht) (fun t _ _ _ h => (infer_typed h).1) h).2
  cases hnone

theorem rooted_of_infer {table : SymbolTable} {t : Tree Stamp} {k : NodeId} {result : Option DataType}
    (h : (t.infer table k).result = .ok result) : t.Rooted := by
  induction t generalizing k result with
  | node m c ih =>
    have hvalue (u : Tree Stamp) (hu : u ∈ c.children) {k : NodeId} {type : DataType}
        (h : (u.infer table k).demand.result = .ok type) : ¬ u.IsProgram ∧ u.Rooted :=
      ⟨not_isProgram_of_infer (Rewrite.demand_ok h), ih u hu (Rewrite.demand_ok h)⟩
    cases c with
    | program items => exact .program (inferItems_rooted (fun t ht _ _ h => ih t ht h) h)
    | reference name | print name | constant value => exact .leaf rfl
    | declaration type target | convert target =>
      rw [infer] at h
      obtain ⟨_, htarget, -⟩ := Rewrite.eq_of_within_ok h
      exact .single rfl (hvalue target (List.mem_singleton_self target) htarget)
    | assign left right | compute o left right =>
      rw [infer] at h
      obtain ⟨_, hleft, he⟩ := Rewrite.eq_of_within_ok h
      rw [he] at h
      obtain ⟨_, hright, -⟩ := Rewrite.eq_of_within_ok h
      exact .pair rfl (hvalue left (by simp [Construct.children]) hleft) (hvalue right (by simp [Construct.children]) hright)

theorem Decorates.isProgram {b : Bool} {t t' : Tree Stamp} (h : Decorates b t t') (hp : t'.IsProgram) : t.IsProgram := by
  obtain ⟨items, hitems⟩ := hp
  cases h with
  | nil | cons => exact ⟨_, rfl⟩
  | _ => cases hitems

theorem Decorates.rooted {b : Bool} {t t' : Tree Stamp} (h : Decorates b t t') (hr : t.Rooted) : t'.Rooted := by
  have hchild {m : Stamp} {c : Construct (Tree Stamp)} (hr : Rooted (.node m c)) (hc : ∀ items, c ≠ .program items) {b : Bool}
      {u u' : Tree Stamp} (hu : u ∈ c.children) (h : Decorates b u u') (ih : u.Rooted → u'.Rooted) :
      ¬ u'.IsProgram ∧ u'.Rooted :=
    ⟨fun hp => hr.not_isProgram hc hu (h.isProgram hp), ih (hr.child hu)⟩
  induction h with
  | nil => exact .program fun t ht => by cases ht
  | @cons b m t t' ts ts' h hs ih ihs =>
    have hrest : Rooted (.node m (.program ts')) := ihs (.program fun u hu => hr.child (List.mem_cons_of_mem t hu))
    refine .program fun u hu => ?_
    rcases List.mem_cons.mp hu with rfl | hu
    · exact ih (hr.child List.mem_cons_self)
    · exact hrest.child hu
  | declaration h ih | convert h ih => exact .single rfl (hchild hr (by simp) List.mem_cons_self h ih)
  | assign hl h ihl ih | compute hl h ihl ih =>
    exact .pair rfl (hchild hr (by simp) List.mem_cons_self hl ihl)
      (hchild hr (by simp) (List.mem_cons_of_mem _ List.mem_cons_self) h ih)
  | reference | print | constant | widened => exact .leaf rfl
  | converted =>
    refine .single rfl ⟨?_, .leaf rfl⟩
    rintro ⟨items, hitems⟩
    cases hitems

theorem infer_infer {table : SymbolTable} {t : Tree Stamp} {k : NodeId} {result : Option DataType}
    (h : (t.infer table k).result = .ok result) (j : NodeId) :
    ∃ found, (t.infer table k).tree.infer table j = ⟨.ok found, (t.infer table k).tree, j⟩ :=
  ⟨_, (infer_typed h).1.infer_eq ((infer_decorates table t k).rooted (rooted_of_infer h)) j⟩

end Tree

namespace Store

theorem Holds.node?_eq {s s' : Store} {parent : Option NodeId} {t : Tree Stamp} (h : s.Holds parent t)
    (h' : s'.Holds parent t) : ∀ j ∈ t.ids, s'.node? j = s.node? j := by
  induction h with
  | @node parent m c hn hc ih =>
    intro j hj
    rcases Tree.mem_ids_node.mp hj with rfl | ⟨t, ht, hj⟩
    · rw [h'.node?, hn]
    · exact ih t ht (h'.child ht) j hj

theorem Step.eq_self {s s' : Store} {parent : Option NodeId} {t : Tree Stamp} (h : s.Step parent t s' t)
    (hs : s.Holds parent t) : s' = s := by
  have hsize : s'.size = s.size := by
    have hlength := h.ids.length_eq
    have hg := h.grows
    rw [List.length_append, List.length_range'] at hlength
    omega
  refine ext_node? fun j => ?_
  by_cases hj : j ∈ t.ids
  · exact hs.node?_eq h.holds j hj
  · by_cases hlt : j < s.size
    · rw [h.kept j hlt hj, redirectAt_self]
    · rw [node?, node?, Array.getElem?_eq_none (not_lt.mp hlt), Array.getElem?_eq_none]
      exact hsize.le.trans (not_lt.mp hlt)

theorem findTypes_again {s s' : Store} (hs : s.WellFormed) {table : SymbolTable}
    (h : (findTypes table).run s = (.ok (), s')) : (findTypes table).run s' = (.ok (), s') := by
  obtain ⟨parent, t, ht, hid⟩ := wellFormed_iff.mp hs
  obtain ⟨r, hrun, hstep⟩ := ht.findTypes hid table
  rw [hrun, Prod.mk.injEq] at h
  obtain ⟨hresult, rfl⟩ := h
  obtain ⟨result, hresult, -⟩ := map_eq_ok.mp hresult
  have hkeeps := hstep.keeps ht
  obtain ⟨r', hrun', hstep'⟩ := hkeeps.findTypes (by rw [Tree.infer_id, hid]) table
  obtain ⟨found, hagain⟩ := Tree.infer_infer hresult r.size
  rw [hagain] at hrun' hstep'
  rw [hrun', hstep'.eq_self hkeeps.holds]
  rfl

theorem analyse_eq_ok {s : Store} {a : Analysis} : s.analyse = .ok a ↔
    s.collect.run .empty = (.ok (), a.table) ∧ (findTypes a.table).run s = (.ok (), a.store) := by
  unfold analyse
  constructor
  · intro h
    split at h
    · cases h
    · rename_i table hcollect
      split at h
      · cases h
      · rename_i s' hfind
        cases h
        exact ⟨hcollect, hfind⟩
  · rintro ⟨hcollect, hfind⟩
    rw [hcollect]
    dsimp only
    rw [hfind]

end Store

namespace Tree

def Mentions (P : Char → Prop) (t : TypedTree) : Prop :=
  (∀ type target, t.construct ≠ .declaration type target) ∧ ∀ name, t.mention? = some name → P name

theorem IsValue.mentions {P : Char → Prop} {t : TypedTree} (h : t.IsValue P) : t.Mentions P := by
  cases h with
  | reference h =>
    refine ⟨fun _ _ hc => (by cases hc), fun name hname => ?_⟩
    cases hname
    exact h
  | _ => exact ⟨fun _ _ hc => (by cases hc), fun name hname => (by cases hname)⟩

theorem IsValue.child {P : Char → Prop} {t u : TypedTree} (h : t.IsValue P) (hu : u ∈ t.children) : u.IsValue P := by
  cases h with
  | reference | constant => cases hu
  | convert h =>
    obtain rfl := List.mem_singleton.mp hu
    exact h
  | compute hl hr =>
    rcases List.mem_pair.mp hu with rfl | rfl
    · exact hl
    · exact hr

end Tree

namespace SymbolTable

def Knows (table : SymbolTable) (name : Char) : Prop :=
  (table.types.find? name).isSome

theorem require_eq_ok {table : SymbolTable} {names : List Char} (h : ∀ name ∈ names, table.Knows name) :
    table.require names = .ok () := by
  unfold require
  rw [List.find?_eq_none.mpr]
  intro name hname
  rw [Option.isNone_iff_eq_none, ← ne_eq, ← Option.isSome_iff_ne_none]
  exact h name hname

end SymbolTable

namespace Collecting

theorem forM_known {ts : List TypedTree} {table : SymbolTable} (h : ∀ t ∈ ts, t.Mentions table.Knows) :
    (forM ts contribute : Collecting Unit).run table = (.ok (), table) := by
  rw [forM_mentions fun t ht => (h t ht).1, SymbolTable.require_eq_ok]
  intro name hname
  obtain ⟨t, ht, hname⟩ := List.mem_filterMap.mp hname
  exact (h t ht).2 name hname

theorem levels_succ (n : ℕ) (ts : List TypedTree) :
    levels (n + 1) ts = forM ts contribute >>= fun _ => levels n (ts.flatMap Tree.children) := rfl

theorem levels_of_height {n : ℕ} {ts : List TypedTree} (h : ∀ t ∈ ts, t.height ≤ n) (m : ℕ) :
    levels (n + m) ts = levels n ts := by
  have hnil (k : ℕ) (hk : n ≤ k) : Tree.level k ts = [] := Tree.level_eq_nil fun t ht => (h t ht).trans hk
  rw [levels_eq, levels_eq, flatMap_range_eq hnil (Nat.le_add_right n m)]

theorem levels_run {type : Option DataType} {ds us : List TypedTree} {table table' : SymbolTable}
    (hds : (forM ds contribute : Collecting Unit).run table = (.ok (), table')) (hus : ∀ u ∈ us, u.Mentions table'.Knows)
    (hbelow : ∀ u ∈ (ds ++ us).flatMap Tree.children, u.IsValue table'.Knows) (n : ℕ) :
    (levels (n + 2) [.node type (.program (ds ++ us))]).run table = (.ok (), table') := by
  have hroot : (forM [.node type (.program (ds ++ us))] contribute : Collecting Unit).run table = (.ok (), table) := rfl
  have hitems : (forM (ds ++ us) contribute : Collecting Unit).run table = (.ok (), table') := by
    rw [List.forM_append, run_bind, hds]
    exact forM_known hus
  have hrest : (levels n ((ds ++ us).flatMap Tree.children)).run table' = (.ok (), table') := by
    rw [levels_eq]
    refine forM_known fun t ht => ?_
    obtain ⟨k, -, ht⟩ := List.mem_flatMap.mp ht
    exact (Tree.forall_level (fun _ _ h hu => h.child hu) hbelow t ht).mentions
  have hchildren : (Tree.node type (.program (ds ++ us))).children = ds ++ us := rfl
  rw [levels_succ, run_bind, hroot, levels_succ, List.flatMap_singleton, hchildren]
  dsimp only
  rw [run_bind, hitems]
  exact hrest

end Collecting

namespace Program

theorem collect_declarations {p : Program} {table : SymbolTable} (h : p.store.collect.run .empty = (.ok (), table)) :
    (forM (p.declarations.map Declaration.tree) Collecting.contribute : Collecting Unit).run .empty = (.ok (), table) := by
  obtain ⟨ts, hlevels, hts, -⟩ := p.exists_levels
  have hroot : (Collecting.contribute p.tree).run .empty = (.ok (), .empty) := rfl
  unfold Store.collect at h
  rw [p.tree?_store] at h
  dsimp only at h
  rw [Collecting.levels_eq, hlevels, List.forM_cons, run_bind, hroot] at h
  dsimp only at h
  rw [List.forM_append, run_bind] at h
  rcases hrun : (forM (p.declarations.map Declaration.tree) Collecting.contribute : Collecting Unit).run .empty with
    ⟨result, table'⟩
  rw [hrun] at h
  cases result with
  | error e => cases h
  | ok =>
    dsimp only at h
    rw [Collecting.forM_mentions hts, Prod.mk.injEq] at h
    rw [h.2]

theorem forM_decorated {k : NodeId} {ds : List Declaration} {ts : List (Tree Stamp)}
    (h : List.Forall₂ (Tree.Decorates false) (stampAll (fun _ => 2) Declaration.stamped k ds) ts) :
    (forM (ts.map Tree.types) Collecting.contribute : Collecting Unit) =
      forM (ds.map Declaration.tree) Collecting.contribute := by
  induction ds generalizing k ts with
  | nil =>
    cases h
    rfl
  | cons d ds ih =>
    cases h with
    | @cons _ t _ ts hd hs =>
      have hcontribute : Collecting.contribute t.types = Collecting.contribute d.tree := by
        cases hd with
        | declaration hd =>
          cases hd
          rfl
      rw [List.map_cons, List.map_cons, List.forM_cons, List.forM_cons, hcontribute, ih hs]

end Program

theorem Declaration.children_decorated {P : Char → Prop} {d : Declaration} {k : NodeId} {t : Tree Stamp}
    (h : Tree.Decorates false (d.stamped k) t) (hP : P d.target.letter) : ∀ u ∈ t.types.children, u.IsValue P := by
  cases h with
  | declaration h =>
    cases h with
    | reference =>
      intro u hu
      obtain rfl := List.mem_singleton.mp hu
      exact .reference hP

theorem Statement.mentions_decorated {P : Char → Prop} {s : Statement} {k : NodeId} {t : Tree Stamp}
    (h : Tree.Decorates false (s.stamped k) t) (hP : ∀ name ∈ s.names, P name) :
    t.types.Mentions P ∧ ∀ u ∈ t.types.children, u.IsValue P := by
  cases s with
  | print name span =>
    cases h with
    | print =>
      refine ⟨⟨fun _ _ hc => (by cases hc), fun name' hname => ?_⟩, fun u hu => (by cases hu)⟩
      cases hname
      exact hP name List.mem_cons_self
  | assign target value =>
    cases h with
    | assign ht hv =>
      cases ht with
      | reference =>
        have hvalue := hv.isValue (Chain.isValue_stamped (fun name hname => hP name (List.mem_cons_of_mem _ hname)) _)
        refine ⟨⟨fun _ _ hc => (by cases hc), fun name hname => (by cases hname)⟩, fun u hu => ?_⟩
        rcases List.mem_pair.mp hu with rfl | rfl
        · exact .reference (hP target.letter List.mem_cons_self)
        · exact hvalue.types

theorem exists_stamped_of_forall₂ {ι : Type} {count : ι → ℕ} {stamped : NodeId → ι → Tree Stamp}
    {R : Tree Stamp → Tree Stamp → Prop} {k : NodeId} {xs : List ι} {ts : List (Tree Stamp)}
    (h : List.Forall₂ R (stampAll count stamped k xs) ts) {t : Tree Stamp} (ht : t ∈ ts) :
    ∃ x ∈ xs, ∃ k, R (stamped k x) t := by
  induction xs generalizing k ts with
  | nil =>
    cases h
    cases ht
  | cons x xs ih =>
    cases h with
    | cons hx hxs =>
      rcases List.mem_cons.mp ht with rfl | ht
      · exact ⟨x, List.mem_cons_self, k, hx⟩
      · obtain ⟨y, hy, hk⟩ := ih hxs ht
        exact ⟨y, List.mem_cons_of_mem x hy, hk⟩

namespace Program

theorem collect_decorated {p : Program} {s : Store} {t : Tree Stamp} {table : SymbolTable} (hf : p.faulty? = none)
    (hu : p.undeclared? = none) (htable : ∀ name, table.types.find? name = p.typeOf? name)
    (hcollect : p.store.collect.run .empty = (.ok (), table)) (h : Tree.Decorates false p.stamped t)
    (hs : s.tree? = some t.types) (hheight : t.height ≤ s.size) : s.collect.run .empty = (.ok (), table) := by
  have hknown {name : Char} (h : (p.typeOf? name).isSome) : table.Knows name := by
    rw [SymbolTable.Knows, htable]
    exact h
  obtain ⟨ts, rfl, hts⟩ := h.exists_program
  obtain ⟨ds, us, rfl, hds, hus⟩ := exists_append_of_forall₂ hts
  have hdeclared (u : Tree Stamp) (hmem : u ∈ ds) : ∀ v ∈ u.types.children, v.IsValue table.Knows := by
    obtain ⟨d, hd, k, hdecorates⟩ := exists_stamped_of_forall₂ hds hmem
    refine Declaration.children_decorated hdecorates (hknown ?_)
    rw [(declared_of_faultless hf hd).2, Option.isSome_some]
  have hstated (u : Tree Stamp) (hmem : u ∈ us) :
      u.types.Mentions table.Knows ∧ ∀ v ∈ u.types.children, v.IsValue table.Knows := by
    obtain ⟨st, hst, k, hdecorates⟩ := exists_stamped_of_forall₂ hus hmem
    exact Statement.mentions_decorated hdecorates fun name hname =>
      hknown (typeOf?_of_mentioned hu (mem_mentions hst hname))
  have hdeclarations : (forM (ds.map Tree.types) Collecting.contribute : Collecting Unit).run .empty = (.ok (), table) := by
    rw [forM_decorated hds]
    exact collect_declarations hcollect
  have htypes : (Tree.node ⟨Store.root, .origin, none⟩ (.program (ds ++ us))).types =
      .node none (.program (ds.map Tree.types ++ us.map Tree.types)) := by
    rw [Tree.types_node, Construct.map, List.map_append]
  rw [← Tree.height_types, htypes] at hheight
  unfold Store.collect
  rw [hs, htypes]
  dsimp only
  rw [← Collecting.levels_of_height (fun u hu => List.mem_singleton.mp hu ▸ hheight) 2]
  refine Collecting.levels_run hdeclarations (fun v hv => ?_) (fun v hv => ?_) _
  · obtain ⟨u, hmem, rfl⟩ := List.mem_map.mp hv
    exact (hstated u hmem).1
  · obtain ⟨w, hw, hv⟩ := List.mem_flatMap.mp hv
    rw [← List.map_append] at hw
    obtain ⟨u, hmem, rfl⟩ := List.mem_map.mp hw
    rcases List.mem_append.mp hmem with hmem | hmem
    · exact hdeclared u hmem v hv
    · exact (hstated u hmem).2 v hv

theorem analyse_idempotent (source : String) (s : Store) (a : Analysis) (hs : parse source = .ok s)
    (h : s.analyse = .ok a) : a.store.analyse = .ok a ∧ (Store.findTypes a.table).run a.store = (.ok (), a.store) := by
  obtain ⟨ts, p, -, -, rfl⟩ := parse_eq_ok.mp hs
  obtain ⟨hf, hu, -, t, hpasses⟩ := passes_of_analyse h
  obtain ⟨hcollect, hfind⟩ := Store.analyse_eq_ok.mp h
  have hagain := Store.findTypes_again (p.store_keeps.wellFormed rfl) hfind
  refine ⟨Store.analyse_eq_ok.mpr ⟨?_, hagain⟩, hagain⟩
  obtain ⟨s', hrun, hstep⟩ := p.store_keeps.findTypes rfl a.table
  obtain rfl : s' = a.store := (Prod.mk.inj (hrun.symm.trans hfind)).2
  have hkeeps := hstep.keeps p.store_keeps
  exact collect_decorated hf hu hpasses.types hcollect (Tree.infer_decorates _ _ _)
    (hkeeps.holds.tree? (by rw [Tree.infer_id]; rfl)) (hkeeps.holds.height_le hkeeps.nodup)

theorem analyse_idempotent_mixedSource : ∃ s a, parse mixedSource = .ok s ∧ s.analyse = .ok a ∧ s.size = 16 ∧
    a.store.size = 17 ∧ a.store.analyse = .ok a ∧ (Store.findTypes a.table).run a.store = (.ok (), a.store) := by
  have hsizes : (do
      let s ← parse mixedSource
      let a ← s.analyse
      return (s.size, a.store.size)).toOption.map id = some (16, 17) := by
    decide +kernel
  obtain ⟨sizes, h, rfl⟩ := exists_of_toOption hsizes
  obtain ⟨s, hs, h⟩ := bind_eq_ok.mp h
  obtain ⟨a, ha, h⟩ := bind_eq_ok.mp h
  obtain ⟨hbefore, hafter⟩ := Prod.mk.inj (Except.ok.inj h)
  exact ⟨s, a, hs, ha, hbefore, hafter, analyse_idempotent mixedSource s a hs ha⟩

end Program

end AddingCalculator
