import AddingCalculator.Proofs.Execution

namespace AddingCalculator.SymbolTable

inductive Operation where
  | enter (name : Char) (type : DataType)
  | lookUp (name : Char)

abbrev Answer := Except Diagnostic (Option DataType)

namespace Operation

def act : Operation → Collecting (Option DataType)
  | enter name type => do
    Collecting.declare name type
    return none
  | lookUp name => do
    let table ← get
    return some (← table.typeOf name)

def entry? : Operation → Option (Char × DataType)
  | enter name type => some (name, type)
  | lookUp _ => none

end Operation

def record (ops : List Operation) : StateM SymbolTable (List Answer) :=
  ops.mapM fun op => op.act.run

def answers (ops : List Operation) : List Answer :=
  ((record ops).run empty).1

def after (ops : List Operation) : SymbolTable :=
  ((record ops).run empty).2

def entered (ops : List Operation) : List (Char × DataType) :=
  ops.filterMap Operation.entry?

def enteredNames (ops : List Operation) : List Char :=
  (entered ops).map Prod.fst

def firstType? (ops : List Operation) (name : Char) : Option DataType :=
  ((entered ops).find? fun e => e.1 = name).map Prod.snd

def expected (past : List Operation) : Operation → Answer
  | .enter name _ => if name ∈ enteredNames past then .error (.duplicateName name) else .ok none
  | .lookUp name =>
    match firstType? past name with
    | some type => .ok (some type)
    | none => .error (.undeclaredName name)

theorem isSome_firstType? {ops : List Operation} {name : Char} :
    (firstType? ops name).isSome ↔ name ∈ enteredNames ops := by
  simp only [firstType?, Option.isSome_map, List.find?_isSome, decide_eq_true_eq, enteredNames, List.mem_map]

theorem entered_concat (ops : List Operation) (op : Operation) : entered (ops ++ [op]) = entered ops ++ op.entry?.toList := by
  rw [entered, List.filterMap_append, ← entered]
  cases op <;> rfl

theorem firstType?_concat_lookUp (ops : List Operation) (name x : Char) :
    firstType? (ops ++ [.lookUp name]) x = firstType? ops x := by
  rw [firstType?, entered_concat, Operation.entry?, Option.toList_none, List.append_nil, ← firstType?]

theorem firstType?_concat_enter (ops : List Operation) (name : Char) (type : DataType) (x : Char) :
    firstType? (ops ++ [.enter name type]) x = (firstType? ops x).or (if name = x then some type else none) := by
  rw [firstType?, entered_concat, List.find?_append, Option.map_or, ← firstType?]
  by_cases hx : name = x <;> simp [Operation.entry?, hx]

theorem enter_run (table : SymbolTable) (name : Char) (type : DataType) :
    (Operation.enter name type).act.run table =
      if table.types.contains name then (.error (.duplicateName name), table)
      else (.ok none, ⟨table.types.insert name type⟩) := by
  rw [Operation.act, run_bind, Collecting.declare_run]
  cases table.types.contains name <;> rfl

theorem lookUp_run (table : SymbolTable) (name : Char) :
    (Operation.lookUp name).act.run table = ((table.typeOf name).map some, table) := by
  rw [Operation.act, run_get]
  cases table.typeOf name <;> rfl

def Holds (table : SymbolTable) (past : List Operation) : Prop :=
  ∀ name, table.types.find? name = firstType? past name

namespace Holds

variable {table : SymbolTable} {past : List Operation}

theorem contains_iff (h : table.Holds past) (name : Char) : table.types.contains name ↔ name ∈ enteredNames past := by
  rw [SortedMap.contains, h, isSome_firstType?]

theorem answer (h : table.Holds past) (op : Operation) : (op.act.run table).1 = expected past op := by
  cases op with
  | enter name type =>
    rw [enter_run, expected]
    simp only [h.contains_iff]
    split <;> rfl
  | lookUp name =>
    rw [lookUp_run, typeOf, h, expected]
    cases firstType? past name <;> rfl

theorem act (h : table.Holds past) (op : Operation) : (op.act.run table).2.Holds (past ++ [op]) := by
  intro x
  cases op with
  | enter name type =>
    rw [enter_run, firstType?_concat_enter, ← h]
    split <;> rename_i hname
    · -- An entry that is refused stands behind the first one.
      by_cases hx : name = x
      · obtain ⟨t, ht⟩ := Option.isSome_iff_exists.mp hname
        rw [← hx, ht, Option.some_or]
      · rw [if_neg hx, Option.or_none]
    · rw [SortedMap.find?_insert]
      split <;> rename_i hx
      · rw [← hx, Option.not_isSome_iff_eq_none.mp hname, Option.none_or]
      · rw [Option.or_none]
  | lookUp name => rw [lookUp_run, firstType?_concat_lookUp, h]

theorem enter_again (h : table.Holds past) {name : Char} (hname : name ∈ enteredNames past) (type : DataType) :
    ((Operation.enter name type).act.run table).2 = table := by
  rw [enter_run, if_pos ((h.contains_iff name).mpr hname)]

theorem mem_names_iff (h : table.Holds past) (name : Char) :
    name ∈ table.entries.map Prod.fst ↔ name ∈ enteredNames past := by
  rw [← isSome_firstType?, ← h, Option.isSome_iff_exists]
  simp only [← SortedMap.mem_entries_iff, List.mem_map, Prod.exists, exists_and_right, exists_eq_right, entries]

end Holds

theorem increasing_names (table : SymbolTable) : (table.entries.map Prod.fst).Pairwise (· < ·) :=
  List.pairwise_map.mpr table.types.sorted

theorem Holds.size_eq {table : SymbolTable} {past : List Operation} (h : table.Holds past) :
    table.size = (enteredNames past).toFinset.card := by
  have hnames : (table.entries.map Prod.fst).toFinset = (enteredNames past).toFinset := by
    ext name
    rw [List.mem_toFinset, List.mem_toFinset, h.mem_names_iff]
  rw [← hnames, List.toFinset_card_of_nodup (table.increasing_names.imp ne_of_lt), List.length_map]
  rfl

theorem record_concat_run (ops : List Operation) (op : Operation) (table : SymbolTable) :
    (record (ops ++ [op])).run table =
      (((record ops).run table).1 ++ [(op.act.run ((record ops).run table).2).1],
        (op.act.run ((record ops).run table).2).2) := by
  rw [record, List.mapM_append, List.mapM_cons, List.mapM_nil]
  rfl

theorem after_concat (ops : List Operation) (op : Operation) : after (ops ++ [op]) = (op.act.run (after ops)).2 := by
  rw [after, record_concat_run]
  rfl

theorem answers_concat (ops : List Operation) (op : Operation) :
    answers (ops ++ [op]) = answers ops ++ [(op.act.run (after ops)).1] := by
  rw [answers, record_concat_run]
  rfl

theorem holds_after (ops : List Operation) : (after ops).Holds ops := by
  induction ops using List.reverseRecOn with
  | nil => exact fun _ => rfl
  | append_singleton ops op ih =>
    rw [after_concat]
    exact ih.act op

theorem answers_eq (ops : List Operation) : answers ops = ops.mapIdx fun i op => expected (ops.take i) op := by
  induction ops using List.reverseRecOn with
  | nil => rfl
  | append_singleton ops op ih =>
    have hpast : (ops.mapIdx fun i o => expected ((ops ++ [op]).take i) o) = ops.mapIdx fun i o => expected (ops.take i) o := by
      refine List.mapIdx_eq_mapIdx_iff.mpr fun i hi => ?_
      rw [List.take_append_of_le_length hi.le]
    rw [answers_concat, (holds_after ops).answer, ih, List.mapIdx_concat, hpast, List.take_left]

/-- Every operation is answered by the first entry of its name among those before it. The table lists the entered
names in their order, each once and with the type of its first entry. -/
theorem first_entry_counts (ops : List Operation) :
    (answers ops = ops.mapIdx fun i op => expected (ops.take i) op) ∧
      (∀ name ∈ enteredNames ops, ∀ type, after (ops ++ [.enter name type]) = after ops) ∧
      (∀ name, after (ops ++ [.lookUp name]) = after ops) ∧
      (∀ name, name ∈ (after ops).entries.map Prod.fst ↔ name ∈ enteredNames ops) ∧
      ((after ops).entries.map Prod.fst).Pairwise (· < ·) ∧
      (∀ name type, (name, type) ∈ (after ops).entries ↔ firstType? ops name = some type) ∧
      (after ops).size = (enteredNames ops).toFinset.card := by
  have h := holds_after ops
  refine ⟨answers_eq ops, fun name hname type => ?_, fun name => ?_, h.mem_names_iff, increasing_names _, fun name type => ?_,
    h.size_eq⟩
  · rw [after_concat, h.enter_again hname]
  · rw [after_concat, lookUp_run]
  · rw [← h, ← SortedMap.mem_entries_iff]
    rfl

def enteredTwice : List Operation :=
  [.enter 'z' .float, .enter 'a' .integer, .lookUp 'z', .enter 'z' .integer, .lookUp 'z', .lookUp 'c']

theorem first_entry_counts_enteredTwice :
    answers enteredTwice =
        [.ok none, .ok none, .ok (some .float), .error (.duplicateName 'z'), .ok (some .float), .error (.undeclaredName 'c')] ∧
      (after enteredTwice).entries = [('a', .integer), ('z', .float)] ∧
      after (enteredTwice ++ [.enter 'z' .integer]) = after enteredTwice ∧ (after enteredTwice).size = 2 := by
  have h := first_entry_counts enteredTwice
  exact ⟨h.1.trans rfl, rfl, h.2.1 'z' (by decide) .integer, h.2.2.2.2.2.2.trans (by decide)⟩

end AddingCalculator.SymbolTable
