import AddingCalculator.Declarations
import AddingCalculator.Proofs.Computation
import AddingCalculator.Proofs.ProgramTree

/-!
# Declared and mentioned names

A declaration is at fault if its name is no variable or was declared before. A name may be mentioned if it is
declared at all. Collecting the declarations of a program finds the first faulty declaration, and if there is none
the first mention of an undeclared name, in an order that goes by the depth at which a name stands in the tree.
-/

namespace AddingCalculator

def Atom.name? : Atom → Option Char
  | name letter => some letter
  | literal _ => none

namespace Program

def typeOf? (p : Program) (name : Char) : Option DataType :=
  (p.declarations.find? fun d => d.target.letter = name).map Declaration.type

end Program

def Declaration.isFaulty (d : Declaration) (earlier : List Declaration) : Bool :=
  !isVariable d.target.letter || earlier.any fun e => e.target.letter = d.target.letter

def Declaration.fault (d : Declaration) : Diagnostic :=
  if isVariable d.target.letter then .duplicateName d.target.letter else .invalidName d.target.letter

def Statement.outerNames : Statement → List Char
  | assign target (.operand first) => target.letter :: first.atom.name?.toList
  | assign target (.extend _ _ _ _) => [target.letter]
  | print _ _ => []

def Statement.printedName? : Statement → Option Char
  | assign _ _ => none
  | print name _ => some name

/-- The names among the operands of a computation, each with its level. Behind `n` operators stands operand `n`, on
level zero. The first two operands share a level. -/
def Chain.leveled (c : Chain) : List (ℕ × Char) :=
  c.operands.zipIdx.filterMap fun x => x.1.atom.name?.map fun name => (c.operands.length - 1 - max x.2 1, name)

def Statement.leveled : Statement → List (ℕ × Char)
  | assign _ (.operand _) => []
  | assign _ (.extend left o span right) => (Chain.extend left o span right).leveled
  | print _ _ => []

namespace Program

def faulty? (p : Program) : Option Declaration :=
  (p.declarations.zipIdx.find? fun d => d.1.isFaulty (p.declarations.take d.2)).map Prod.fst

def leveled (p : Program) : List (ℕ × Char) :=
  p.statements.flatMap Statement.leveled

def operandNames (p : Program) : List Char :=
  (List.range ((p.leveled.map Prod.fst).max?.getD 0 + 1)).flatMap fun level =>
    (p.leveled.filter fun x => x.1 = level).map Prod.snd

/-- The mentioned names: those that are printed, then targets and bare right sides, then operands by their levels. -/
def mentions (p : Program) : List Char :=
  p.statements.filterMap Statement.printedName? ++ p.statements.flatMap Statement.outerNames ++ p.operandNames

def undeclared? (p : Program) : Option Char :=
  p.mentions.find? fun name => (p.typeOf? name).isNone

end Program

namespace Tree

def mention? (t : TypedTree) : Option Char :=
  match t.construct with
  | .reference name | .print name => some name
  | _ => none

def level (k : ℕ) (ts : List TypedTree) : List TypedTree :=
  (fun ts => ts.flatMap children)^[k] ts

theorem level_succ (k : ℕ) (ts : List TypedTree) : level (k + 1) ts = level k (ts.flatMap children) :=
  Function.iterate_succ_apply _ k ts

theorem level_append (k : ℕ) (ts us : List TypedTree) : level k (ts ++ us) = level k ts ++ level k us := by
  induction k generalizing ts us with
  | zero => rfl
  | succ k ih => simp only [level_succ, List.flatMap_append, ih]

theorem level_nil (k : ℕ) : level k [] = [] := by
  induction k with
  | zero => rfl
  | succ k ih => rwa [level_succ, List.flatMap_nil]

theorem level_flatMap {ι : Type} (k : ℕ) (f : ι → List TypedTree) (xs : List ι) :
    level k (xs.flatMap f) = xs.flatMap fun x => level k (f x) := by
  induction xs with
  | nil => exact level_nil k
  | cons x xs ih => rw [List.flatMap_cons, level_append, ih, List.flatMap_cons]

theorem forall_level {P : TypedTree → Prop} (hP : ∀ t u, P t → u ∈ t.children → P u) {k : ℕ} {ts : List TypedTree}
    (h : ∀ t ∈ ts, P t) : ∀ t ∈ level k ts, P t := by
  induction k generalizing ts with
  | zero => exact h
  | succ k ih =>
    rw [level_succ]
    refine ih fun u hu => ?_
    obtain ⟨t, ht, hu⟩ := List.mem_flatMap.mp hu
    exact hP t u (h t ht) hu

theorem level_eq_nil {k : ℕ} {ts : List TypedTree} (h : ∀ t ∈ ts, t.height ≤ k) : level k ts = [] := by
  induction k generalizing ts with
  | zero =>
    refine List.eq_nil_iff_forall_not_mem.mpr fun t ht => ?_
    have hpos : 0 < t.height := by
      cases t
      rw [height_node]
      omega
    have := h t ht
    omega
  | succ k ih =>
    rw [level_succ]
    refine ih fun t ht => ?_
    obtain ⟨u, hu, ht⟩ := List.mem_flatMap.mp ht
    have hbelow : t.height < u.height := by
      cases u
      exact height_lt_of_mem ht
    have := h u hu
    omega

end Tree

theorem flatMap_range_eq {α : Type} {f : ℕ → List α} {n m : ℕ} (h : ∀ k, n ≤ k → f k = []) (hnm : n ≤ m) :
    (List.range m).flatMap f = (List.range n).flatMap f := by
  induction m, hnm using Nat.le_induction with
  | base => rfl
  | succ m hm ih => rw [List.range_succ, List.flatMap_append, ih, List.flatMap_singleton, h m hm, List.append_nil]

namespace Chain

def depths : Chain → List (ℕ × Char)
  | operand first => first.atom.name?.toList.map fun name => (0, name)
  | extend left _ _ right =>
    left.depths.map (Prod.map (· + 1) id) ++ right.atom.name?.toList.map fun name => (1, name)

theorem mention?_operand (x : Operand) : x.tree.mention? = x.atom.name? := by
  obtain ⟨atom, span⟩ := x
  cases atom <;> rfl

theorem children_operand (x : Operand) : x.tree.children = [] := by
  obtain ⟨atom, span⟩ := x
  cases atom <;> rfl

theorem level_tree (c : Chain) (k : ℕ) :
    (Tree.level k [c.tree]).filterMap Tree.mention? = (c.depths.filter fun x => x.1 = k).map Prod.snd := by
  have hoperand (x : Operand) (k : ℕ) : (Tree.level k [x.tree]).filterMap Tree.mention? =
      ((x.atom.name?.toList.map fun name => (0, name)).filter fun x => x.1 = k).map Prod.snd := by
    cases k with
    | zero =>
      rw [Tree.level, Function.iterate_zero_apply, List.filterMap_cons, mention?_operand]
      cases x.atom.name? <;> rfl
    | succ k =>
      rw [Tree.level_succ, List.flatMap_singleton, children_operand, Tree.level_nil]
      cases x.atom.name? <;> rfl
  induction c generalizing k with
  | operand first => exact hoperand first k
  | extend left o span right ih =>
    cases k with
    | zero =>
      have hleft : (left.depths.map (Prod.map (· + 1) id)).filter (fun x => x.1 = 0) = [] := by
        simp [List.filter_map, Function.comp_def]
      have hright : (right.atom.name?.toList.map fun name => (1, name)).filter (fun x => x.1 = 0) = [] := by
        cases right.atom.name? <;> rfl
      rw [depths, List.filter_append, hleft, hright]
      rfl
    | succ k =>
      have hlevel : Tree.level (k + 1) [(extend left o span right).tree] =
          Tree.level k [left.tree] ++ Tree.level k [right.tree] := by
        rw [Tree.level_succ, ← Tree.level_append]
        rfl
      have hleft : (left.depths.map (Prod.map (· + 1) id)).filter (fun x => x.1 = k + 1) =
          (left.depths.filter fun x => x.1 = k).map (Prod.map (· + 1) id) := by
        simp [List.filter_map, Function.comp_def]
      have hright : ((right.atom.name?.toList.map fun name => (1, name)).filter fun x => x.1 = k + 1).map Prod.snd =
          ((right.atom.name?.toList.map fun name => (0, name)).filter fun x => x.1 = k).map Prod.snd := by
        cases k <;> cases right.atom.name? <;> rfl
      rw [hlevel, List.filterMap_append, ih, hoperand, depths, List.filter_append, List.map_append, hleft, hright,
        List.map_map]
      rfl

theorem depths_eq (c : Chain) : c.depths =
    c.operands.zipIdx.filterMap fun x => x.1.atom.name?.map fun name => (c.operands.length - max x.2 1, name) := by
  induction c with
  | operand first =>
    rw [depths, operands]
    cases h : first.atom.name? <;> simp [h]
  | extend left o span right ih =>
    have hlength : (extend left o span right).operands.length = left.operands.length + 1 := by simp [operands]
    have hpos : 0 < left.operands.length := by cases left <;> simp [operands]
    rw [depths, hlength, operands, List.zipIdx_append, List.filterMap_append, ih, List.map_filterMap]
    congr 1
    · refine List.filterMap_congr fun x hx => ?_
      have hlt := List.snd_lt_of_mem_zipIdx hx
      have hlevel : left.operands.length - max x.2 1 + 1 = left.operands.length + 1 - max x.2 1 := by omega
      rw [Option.map_map]
      congr 1
      funext name
      rw [Function.comp_apply, Prod.map_apply, hlevel, id]
    · have hlevel : left.operands.length + 1 - max left.operands.length 1 = 1 := by omega
      cases h : right.atom.name? <;> simp [h, hlevel]

theorem depths_extend (left : Chain) (o : Operator) (span : Span) (right : Operand) :
    (extend left o span right).depths = (extend left o span right).leveled.map (Prod.map (· + 1) id) := by
  have hlength : 2 ≤ (extend left o span right).operands.length := by cases left <;> simp [operands]
  rw [depths_eq, leveled, List.map_filterMap]
  refine List.filterMap_congr fun x hx => ?_
  have hlt := List.snd_lt_of_mem_zipIdx hx
  rw [Option.map_map]
  congr 1
  funext name
  rw [Function.comp_apply, Prod.map_apply, id]
  congr 1
  omega

end Chain

theorem Statement.level_children (s : Statement) (k : ℕ) :
    (Tree.level (k + 1) s.tree.children).filterMap Tree.mention? = (s.leveled.filter fun x => x.1 = k).map Prod.snd := by
  have hvalue (target : Identifier) (value : Chain) :
      Tree.level (k + 1) (assign target value).tree.children = Tree.level (k + 1) [value.tree] := rfl
  cases s with
  | print name span =>
    rw [show (print name span).tree.children = [] from rfl, Tree.level_nil]
    rfl
  | assign target value =>
    rw [hvalue, Chain.level_tree]
    cases value with
    | operand first =>
      rw [Chain.depths, leveled]
      cases first.atom.name? <;> rfl
    | extend left o span right =>
      rw [Chain.depths_extend, leveled, List.filter_map, List.map_map]
      simp [Function.comp_def]

namespace Program

theorem level_items (p : Program) (k : ℕ) : Tree.level (k + 1) [p.tree] =
    Tree.level k (p.declarations.map Declaration.tree ++ p.statements.map Statement.tree) := by
  rw [Tree.level_succ, List.flatMap_singleton]
  rfl

theorem level_parts (p : Program) (k : ℕ) : Tree.level (k + 2) [p.tree] =
    Tree.level k (p.declarations.map fun d => .node none (.reference d.target.letter)) ++
      p.statements.flatMap fun s => Tree.level k s.tree.children := by
  have htargets : (p.declarations.map Declaration.tree).flatMap Tree.children =
      p.declarations.map fun d => .node none (.reference d.target.letter) := by
    rw [List.flatMap_map, List.map_eq_flatMap]
    rfl
  rw [level_items, Tree.level_succ, List.flatMap_append, Tree.level_append, htargets, List.flatMap_map,
    Tree.level_flatMap]

theorem level_tree (p : Program) (k : ℕ) :
    (Tree.level (k + 3) [p.tree]).filterMap Tree.mention? = (p.leveled.filter fun x => x.1 = k).map Prod.snd := by
  have htargets : Tree.level (k + 1) (p.declarations.map fun d => .node none (.reference d.target.letter)) = [] := by
    have hbelow : (p.declarations.flatMap fun d =>
        Tree.children (.node (none : Option DataType) (.reference d.target.letter))) = [] :=
      List.flatMap_eq_nil_iff.mpr fun _ _ => rfl
    rw [Tree.level_succ, List.flatMap_map, hbelow, Tree.level_nil]
  rw [level_parts, htargets, List.nil_append, List.filterMap_flatMap, leveled, List.filter_flatMap, List.map_flatMap]
  simp only [Statement.level_children]

end Program

namespace SymbolTable

def require (table : SymbolTable) (names : List Char) : Except Diagnostic Unit :=
  match names.find? fun name => (table.types.find? name).isNone with
  | some name => .error (.undeclaredName name)
  | none => .ok ()

end SymbolTable

namespace Collecting

theorem levels_eq (n : ℕ) (ts : List TypedTree) :
    levels n ts = forM ((List.range n).flatMap fun k => Tree.level k ts) contribute := by
  induction n generalizing ts with
  | zero => rfl
  | succ n ih =>
    rw [levels, ih, List.range_succ_eq_map, List.flatMap_cons, List.forM_append, List.flatMap_map]
    simp only [Tree.level_succ]
    rfl

theorem require_run (name : Char) (table : SymbolTable) : (require name).run table = (table.require [name], table) := by
  rw [require, run_get]
  unfold SymbolTable.typeOf SymbolTable.require
  cases h : table.types.find? name <;> simp only [List.find?_cons, h, List.find?_nil] <;> rfl

theorem declare_run (name : Char) (type : DataType) (table : SymbolTable) :
    (declare name type).run table =
      if table.types.contains name then (.error (.duplicateName name), table)
      else (.ok (), ⟨table.types.insert name type⟩) := by
  rw [declare, run_get, SymbolTable.declare]
  cases table.types.contains name <;> rfl

theorem contribute_run {t : TypedTree} (h : ∀ type target, t.construct ≠ .declaration type target)
    (table : SymbolTable) : (contribute t).run table = (table.require t.mention?.toList, table) := by
  obtain ⟨m, c⟩ := t
  cases c with
  | declaration type target => exact absurd rfl (h type target)
  | reference name | print name => exact require_run name table
  | _ => rfl

theorem forM_mentions {ts : List TypedTree} (h : ∀ t ∈ ts, ∀ type target, t.construct ≠ .declaration type target)
    (table : SymbolTable) :
    (forM ts contribute : Collecting Unit).run table = (table.require (ts.filterMap Tree.mention?), table) := by
  induction ts with
  | nil => rfl
  | cons t ts ih =>
    rw [List.forM_cons, run_bind, contribute_run (h t (by simp)), List.filterMap_cons]
    have hrest := ih fun u hu => h u (List.mem_cons_of_mem t hu)
    cases t.mention? with
    | none => exact hrest
    | some name =>
      simp only [SymbolTable.require, Option.toList_some, List.find?_cons, List.find?_nil]
      cases (table.types.find? name).isNone with
      | true => rfl
      | false => exact hrest

theorem declaration_run (d : Declaration) {earlier : List Declaration} {table : SymbolTable}
    (h : ∀ x, table.types.find? x = (earlier.find? fun d => d.target.letter = x).map Declaration.type) :
    (contribute d.tree).run table =
      if d.isFaulty earlier then (.error d.fault, table) else (.ok (), ⟨table.types.insert d.target.letter d.type⟩) := by
  have hcontains : table.types.contains d.target.letter = earlier.any fun e => e.target.letter = d.target.letter := by
    rw [SortedMap.contains, h, Option.isSome_map, Bool.eq_iff_iff, List.find?_isSome, List.any_eq_true]
  have hdeclare : (contribute d.tree).run table =
      (if isVariable d.target.letter then declare d.target.letter d.type
        else throw (.invalidName d.target.letter) : Collecting Unit).run table := rfl
  rw [hdeclare, Declaration.isFaulty, Declaration.fault]
  cases isVariable d.target.letter with
  | false => rfl
  | true =>
    rw [if_pos rfl, if_pos rfl, declare_run, hcontains]
    rfl

theorem forM_declarations (earlier ds : List Declaration) {table : SymbolTable}
    (h : ∀ x, table.types.find? x = (earlier.find? fun d => d.target.letter = x).map Declaration.type) :
    ∃ table', (forM (ds.map Declaration.tree) contribute : Collecting Unit).run table =
      (match (ds.zipIdx earlier.length).find? fun d => d.1.isFaulty ((earlier ++ ds).take d.2) with
        | some d => .error d.1.fault
        | none => .ok (), table') ∧
      ((ds.zipIdx earlier.length).find? (fun d => d.1.isFaulty ((earlier ++ ds).take d.2)) = none →
        ∀ x, table'.types.find? x = ((earlier ++ ds).find? fun d => d.target.letter = x).map Declaration.type) := by
  -- The table holds what the declarations before `ds` declare.
  induction ds generalizing earlier table with
  | nil => exact ⟨table, rfl, fun _ => by rwa [List.append_nil]⟩
  | cons d ds ih =>
    rw [List.map_cons, List.forM_cons, run_bind, declaration_run d h, List.zipIdx_cons, List.find?_cons,
      List.take_left]
    cases hd : d.isFaulty earlier with
    | true => exact ⟨table, rfl, fun hnone => by cases hnone⟩
    | false =>
      have hfresh : earlier.find? (fun e => e.target.letter = d.target.letter) = none := by
        rw [Declaration.isFaulty, Bool.or_eq_false_iff] at hd
        rw [List.find?_eq_none]
        simpa using hd.2
      have hinsert (x : Char) : (SymbolTable.mk (table.types.insert d.target.letter d.type)).types.find? x =
          ((earlier ++ [d]).find? fun e => e.target.letter = x).map Declaration.type := by
        rw [SortedMap.find?_insert, List.find?_append]
        by_cases hx : d.target.letter = x
        · subst hx
          simp [hfresh]
        · simp [hx, h x]
      have hrest := ih (earlier ++ [d]) hinsert
      rw [List.append_assoc, List.singleton_append, List.length_append, List.length_singleton] at hrest
      exact hrest

end Collecting

namespace Program

theorem exists_chain_of_level (p : Program) (k : ℕ) : ∀ t ∈ Tree.level (k + 2) [p.tree], ∃ c : Chain, t = c.tree := by
  have hchildren (t u : TypedTree) (ht : ∃ c : Chain, t = c.tree) (hu : u ∈ t.children) : ∃ c : Chain, u = c.tree := by
    obtain ⟨c, rfl⟩ := ht
    cases c with
    | operand first =>
      rw [Chain.tree, Chain.children_operand] at hu
      cases hu
    | extend left o span right =>
      rcases List.mem_pair.mp hu with rfl | rfl
      · exact ⟨left, rfl⟩
      · exact ⟨.operand right, rfl⟩
  intro t ht
  rw [level_parts, List.mem_append, List.mem_flatMap] at ht
  rcases ht with ht | ⟨s, -, ht⟩
  · refine Tree.forall_level hchildren (fun t ht => ?_) t ht
    obtain ⟨d, -, rfl⟩ := List.mem_map.mp ht
    exact ⟨.operand ⟨.name d.target.letter, d.target.span⟩, rfl⟩
  · refine Tree.forall_level hchildren (fun t ht => ?_) t ht
    cases s with
    | assign target value =>
      rcases List.mem_pair.mp ht with rfl | rfl
      · exact ⟨.operand ⟨.name target.letter, target.span⟩, rfl⟩
      · exact ⟨value, rfl⟩
    | print name span => cases ht

theorem not_declaration_of_level (p : Program) (k : ℕ) :
    ∀ t ∈ Tree.level (k + 2) [p.tree], ∀ type target, t.construct ≠ .declaration type target := by
  intro t ht type target h
  obtain ⟨c, rfl⟩ := p.exists_chain_of_level k t ht
  cases c with
  | operand first =>
    obtain ⟨atom, span⟩ := first
    cases atom <;> cases h
  | extend left o span right => cases h

theorem mentions_items (p : Program) :
    (p.statements.map Statement.tree).filterMap Tree.mention? = p.statements.filterMap Statement.printedName? := by
  rw [List.filterMap_map]
  congr 1
  funext s
  cases s <;> rfl

theorem mentions_parts (p : Program) : (Tree.level 2 [p.tree]).filterMap Tree.mention? =
    p.declarations.map (fun d => d.target.letter) ++ p.statements.flatMap Statement.outerNames := by
  have hstatement (s : Statement) : (Tree.level 0 s.tree.children).filterMap Tree.mention? = s.outerNames := by
    cases s with
    | print name span => rfl
    | assign target value =>
      cases value with
      | extend left o span right => rfl
      | operand first =>
        obtain ⟨atom, span⟩ := first
        cases atom <;> rfl
  rw [level_parts, List.filterMap_append, List.filterMap_flatMap]
  simp only [hstatement]
  rw [Tree.level, Function.iterate_zero_apply, List.filterMap_map, ← List.filterMap_eq_map]
  rfl

theorem mentions_operands (p : Program) {n : ℕ} (hn : ∀ k, n ≤ k → Tree.level (k + 3) [p.tree] = []) :
    ((List.range n).flatMap fun k => (Tree.level (k + 3) [p.tree]).filterMap Tree.mention?) = p.operandNames := by
  simp only [level_tree]
  have hlast (k : ℕ) (hk : n ≤ k) : (p.leveled.filter fun x => x.1 = k).map Prod.snd = [] := by
    rw [← level_tree, hn k hk, List.filterMap_nil]
  have hhighest (k : ℕ) (hk : (p.leveled.map Prod.fst).max?.getD 0 + 1 ≤ k) :
      (p.leveled.filter fun x => x.1 = k).map Prod.snd = [] := by
    rw [List.map_eq_nil_iff, List.filter_eq_nil_iff]
    intro x hx
    have hle := List.le_max?_getD_of_mem (k := 0) (List.mem_map_of_mem (f := Prod.fst) hx)
    simp only [decide_eq_true_eq]
    omega
  rw [operandNames, ← flatMap_range_eq hlast (le_max_left n _), ← flatMap_range_eq hhighest (le_max_right n _)]

theorem exists_levels (p : Program) : ∃ ts,
    ((List.range p.store.size).flatMap fun k => Tree.level k [p.tree]) =
      p.tree :: (p.declarations.map Declaration.tree ++ ts) ∧
    (∀ t ∈ ts, ∀ type target, t.construct ≠ .declaration type target) ∧
    ts.filterMap Tree.mention? = p.statements.filterMap Statement.printedName? ++
      (p.declarations.map (fun d => d.target.letter) ++ p.statements.flatMap Statement.outerNames ++
        p.operandNames) := by
  have hnil (k : ℕ) (hk : p.store.size ≤ k) : Tree.level k [p.tree] = [] := by
    refine Tree.level_eq_nil fun t ht => ?_
    rw [List.mem_singleton.mp ht, ← p.types_stamped, Tree.height_types]
    exact (p.store_keeps.holds.height_le p.store_keeps.nodup).trans hk
  refine ⟨p.statements.map Statement.tree ++ (Tree.level 2 [p.tree] ++
    (List.range p.store.size).flatMap fun k => Tree.level (k + 3) [p.tree]), ?_, ?_, ?_⟩
  · rw [← flatMap_range_eq hnil (Nat.le_add_left p.store.size 3), List.range_add, List.flatMap_append, List.flatMap_map]
    simp only [List.range_succ, List.range_zero, List.nil_append, List.flatMap_append, List.flatMap_singleton,
      List.append_assoc, Nat.add_comm 3]
    rw [level_items p 0]
    simp only [Tree.level, Function.iterate_zero_apply, List.singleton_append, List.append_assoc]
  · intro t ht
    rw [List.mem_append, List.mem_append, List.mem_flatMap] at ht
    rcases ht with ht | ht | ⟨k, -, ht⟩
    · obtain ⟨s, -, rfl⟩ := List.mem_map.mp ht
      cases s <;> exact fun _ _ h => by cases h
    · exact p.not_declaration_of_level 0 t ht
    · exact p.not_declaration_of_level (k + 1) t ht
  · rw [List.filterMap_append, List.filterMap_append, mentions_items, mentions_parts, List.filterMap_flatMap,
      mentions_operands p fun k hk => hnil (k + 3) (by omega)]

theorem collect_store (p : Program) :
    ∃ table, p.store.collect.run .empty =
      (match p.faulty? with
        | some d => .error d.fault
        | none => match p.undeclared? with
          | some name => .error (.undeclaredName name)
          | none => .ok (), table) ∧
      (p.faulty? = none → ∀ x, table.types.find? x = p.typeOf? x) := by
  obtain ⟨ts, hlevels, hts, hmentions⟩ := p.exists_levels
  have hempty (x : Char) : SymbolTable.empty.types.find? x = none := SortedMap.find?_empty x
  obtain ⟨table, hrun, htable⟩ := Collecting.forM_declarations [] p.declarations hempty
  have hroot : (Collecting.contribute p.tree).run .empty = (.ok (), .empty) := rfl
  rw [List.nil_append] at hrun htable
  refine ⟨table, ?_, fun hnone => htable (Option.map_eq_none_iff.mp hnone)⟩
  unfold Store.collect
  rw [p.tree?_store]
  dsimp only
  rw [Collecting.levels_eq, hlevels, List.forM_cons, run_bind, hroot]
  dsimp only
  rw [List.forM_append, run_bind, hrun, faulty?]
  cases hfaulty : p.declarations.zipIdx.find? fun d => d.1.isFaulty (p.declarations.take d.2) with
  | some d => rfl
  | none =>
    -- The names in declarations are met too, between the printed names and the others, but they are declared.
    have hdeclared : (p.declarations.map fun d => d.target.letter).find? (fun x => (p.typeOf? x).isNone) = none := by
      rw [List.find?_eq_none]
      intro x hx
      obtain ⟨d, hd, rfl⟩ := List.mem_map.mp hx
      rw [typeOf?, Option.isNone_map, Option.isNone_iff_eq_none, List.find?_eq_none]
      exact fun h => h d hd (decide_eq_true rfl)
    have htypes (x : Char) : table.types.find? x = p.typeOf? x := htable hfaulty x
    have hundeclared : (ts.filterMap Tree.mention?).find? (fun x => (table.types.find? x).isNone) = p.undeclared? := by
      simp only [htypes, hmentions, undeclared?, mentions, List.append_assoc, List.find?_append, hdeclared, Option.none_or]
    dsimp only [Option.map]
    rw [Collecting.forM_mentions hts, SymbolTable.require, hundeclared]

theorem declared_of_faultless {p : Program} (h : p.faulty? = none) {d : Declaration} (hd : d ∈ p.declarations) :
    isVariable d.target.letter ∧ p.typeOf? d.target.letter = some d.type := by
  obtain ⟨before, after, hp⟩ := List.append_of_mem hd
  have hmem : (d, before.length) ∈ p.declarations.zipIdx := by
    rw [List.mem_zipIdx_iff_getElem?, hp]
    simp
  have hfaultless := List.find?_eq_none.mp (Option.map_eq_none_iff.mp h) _ hmem
  rw [hp, List.take_left, Declaration.isFaulty, Bool.not_eq_true, Bool.or_eq_false_iff, Bool.not_eq_false',
    List.any_eq_false] at hfaultless
  refine ⟨hfaultless.1, ?_⟩
  have hfirst : p.declarations.find? (fun e => e.target.letter = d.target.letter) = some d := by
    rw [List.find?_eq_some_iff_append]
    refine ⟨decide_eq_true rfl, before, after, hp, fun e he => ?_⟩
    simpa using hfaultless.2 e he
  rw [typeOf?, hfirst, Option.map_some]

end Program

def Statement.names : Statement → List Char
  | assign target value => target.letter :: value.operands.filterMap fun x => x.atom.name?
  | print name _ => [name]

theorem Chain.exists_leveled {c : Chain} {name : Char} (h : name ∈ c.operands.filterMap fun x => x.atom.name?) :
    ∃ level, (level, name) ∈ c.leveled := by
  obtain ⟨x, hx, hname⟩ := List.mem_filterMap.mp h
  obtain ⟨j, hj⟩ := List.mem_iff_getElem?.mp hx
  exact ⟨_, List.mem_filterMap.mpr ⟨(x, j), List.mem_zipIdx_iff_getElem?.mpr hj, by rw [hname, Option.map_some]⟩⟩

theorem Program.mem_operandNames {p : Program} {level : ℕ} {name : Char} (h : (level, name) ∈ p.leveled) :
    name ∈ p.operandNames := by
  have hle := List.le_max?_getD_of_mem (k := 0) (List.mem_map_of_mem (f := Prod.fst) h)
  refine List.mem_flatMap.mpr ⟨level, List.mem_range.mpr (Nat.lt_succ_of_le hle), ?_⟩
  exact List.mem_map.mpr ⟨(level, name), List.mem_filter.mpr ⟨h, decide_eq_true rfl⟩, rfl⟩

theorem Program.mem_mentions {p : Program} {s : Statement} {name : Char} (hs : s ∈ p.statements) (h : name ∈ s.names) :
    name ∈ p.mentions := by
  rw [mentions, List.mem_append, List.mem_append]
  have houter (hname : name ∈ s.outerNames) : name ∈ p.statements.flatMap Statement.outerNames :=
    List.mem_flatMap.mpr ⟨s, hs, hname⟩
  cases s with
  | print printed span =>
    obtain rfl := List.mem_singleton.mp h
    exact .inl (.inl (List.mem_filterMap.mpr ⟨_, hs, rfl⟩))
  | assign target value =>
    cases value with
    | operand first =>
      refine .inl (.inr (houter ?_))
      rcases List.mem_cons.mp h with rfl | h
      · exact List.mem_cons_self
      · refine List.mem_cons_of_mem _ ?_
        simpa [Chain.operands] using h
    | extend left o span right =>
      rcases List.mem_cons.mp h with rfl | h
      · exact .inl (.inr (houter List.mem_cons_self))
      · obtain ⟨level, hlevel⟩ := Chain.exists_leveled h
        exact .inr (mem_operandNames (List.mem_flatMap.mpr ⟨_, hs, hlevel⟩))

end AddingCalculator
