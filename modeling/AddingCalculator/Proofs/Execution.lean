import AddingCalculator.Evaluation
import AddingCalculator.Proofs.Analysis
import AddingCalculator.Proofs.Numerals

namespace AddingCalculator

namespace SortedMap

theorem find?_entries_of_lt {α : Type} {k : Char} {es : List (Char × α)} (h : ∀ e ∈ es, k < e.1) :
    es.find? (fun e => e.1 = k) = none :=
  List.find?_eq_none.mpr fun e he => by simpa using (h e he).ne'

theorem ext_entries {α : Type} {es fs : List (Char × α)} (hes : es.Pairwise fun d e => d.1 < e.1)
    (hfs : fs.Pairwise fun d e => d.1 < e.1)
    (h : ∀ k, (es.find? fun e => e.1 = k).map Prod.snd = (fs.find? fun e => e.1 = k).map Prod.snd) : es = fs := by
  have hhead {e f : Char × α} {es fs : List (Char × α)} (hfs : ∀ d ∈ fs, f.1 < d.1)
      (h : ((e :: es).find? fun d => d.1 = e.1).map Prod.snd = ((f :: fs).find? fun d => d.1 = e.1).map Prod.snd) :
      f.1 ≤ e.1 := by
    by_contra hlt
    rw [not_le] at hlt
    have hnone : (f :: fs).find? (fun d => d.1 = e.1) = none := by
      refine find?_entries_of_lt fun d hd => ?_
      rcases List.mem_cons.mp hd with rfl | hd
      · exact hlt
      · exact hlt.trans (hfs d hd)
    rw [hnone] at h
    simp at h
  induction es generalizing fs with
  | nil =>
    cases fs with
    | nil => rfl
    | cons f fs => simpa using h f.1
  | cons e es ih =>
    cases fs with
    | nil => simpa using h e.1
    | cons f fs =>
      obtain ⟨he, hes⟩ := List.pairwise_cons.mp hes
      obtain ⟨hf, hfs⟩ := List.pairwise_cons.mp hfs
      have hkey : e.1 = f.1 := le_antisymm (hhead he (h f.1).symm) (hhead hf (h e.1))
      have hvalue : e.2 = f.2 := by simpa [hkey] using h f.1
      rw [Prod.ext hkey hvalue, ih hes hfs fun k => ?_]
      by_cases hk : e.1 = k
      · rw [find?_entries_of_lt fun d hd => hk ▸ he d hd, find?_entries_of_lt fun d hd => hk ▸ hkey ▸ hf d hd]
      · simpa [List.find?_cons, hk, ← hkey] using h k

theorem ext_find? {α : Type} {m m' : SortedMap Char α} (h : ∀ k, m.find? k = m'.find? k) : m = m' :=
  SortedMap.ext (ext_entries m.sorted m'.sorted h)

theorem mem_entries_iff {α : Type} {m : SortedMap Char α} {k : Char} {x : α} : (k, x) ∈ m.entries ↔ m.find? k = some x := by
  have hnodup : (m.entries.map Prod.fst).Nodup := List.pairwise_map.mpr (m.sorted.imp ne_of_lt)
  constructor
  · intro h
    cases hfind : m.entries.find? fun e => e.1 = k with
    | none =>
      have hne := List.find?_eq_none.mp hfind (k, x) h
      simp at hne
    | some e =>
      have hkey : e.1 = k := by simpa using List.find?_some hfind
      obtain rfl : e = (k, x) := List.inj_on_of_nodup_map hnodup (List.mem_of_find?_eq_some hfind) h hkey
      rw [find?, hfind]
      rfl
  · intro h
    obtain ⟨e, he, rfl⟩ := Option.map_eq_some_iff.mp h
    obtain rfl : e.1 = k := by simpa using List.find?_some he
    exact List.mem_of_find?_eq_some he

theorem insert_insert {α : Type} (m : SortedMap Char α) (k : Char) (x y : α) :
    (m.insert k x).insert k y = m.insert k y := by
  apply ext_find?
  intro k'
  simp only [find?_insert]
  split <;> rfl

theorem insert_comm {α : Type} (m : SortedMap Char α) {k k' : Char} (hne : k ≠ k') (x y : α) :
    (m.insert k x).insert k' y = (m.insert k' y).insert k x := by
  apply ext_find?
  intro j
  simp only [find?_insert]
  by_cases hk : k = j
  · rw [if_pos hk, if_neg fun hk' => hne (hk.trans hk'.symm), if_pos hk]
  · rw [if_neg hk, if_neg hk]

end SortedMap

def Usable (name : Char) : Prop :=
  isBlank name = false ∧ name ≠ scratchRegister

theorem usable_of_isVariable {name : Char} (h : isVariable name = true) : Usable name := by
  have hletter := toNat_of_isVariable h
  refine ⟨isBlank_of_visible (by omega) (by omega), ?_⟩
  rintro rfl
  exact absurd h (by decide)

namespace Outcome

variable {α : Type}

/-- The value printed last is also in the scratch register. -/
def withScratch (o : Outcome α) : Outcome α :=
  match o.printed.getLast? with
  | some x => o.assign scratchRegister x
  | none => o

theorem printed_withScratch (o : Outcome α) : o.withScratch.printed = o.printed := by
  unfold withScratch
  cases o.printed.getLast? <;> rfl

theorem registers_withScratch (o : Outcome α) : o.withScratch.registers =
    o.printed.getLast?.elim o.registers fun last => o.registers.insert scratchRegister last := by
  unfold withScratch
  cases o.printed.getLast? <;> rfl

theorem find?_withScratch (o : Outcome α) {name : Char} (h : name ≠ scratchRegister) :
    o.withScratch.registers.find? name = o.registers.find? name := by
  unfold withScratch
  cases o.printed.getLast? with
  | none => rfl
  | some x =>
    dsimp only
    rw [assign, SortedMap.find?_insert, if_neg h.symm]

theorem read_withScratch (o : Outcome α) {name : Char} (h : Usable name) : o.withScratch.read name = o.read name := by
  rw [read, o.find?_withScratch h.2, ← read]

theorem assign_withScratch (o : Outcome α) {name : Char} (h : Usable name) (x : α) :
    o.withScratch.assign name x = (o.assign name x).withScratch := by
  have hprinted : (o.assign name x).printed = o.printed := rfl
  unfold withScratch
  rw [hprinted]
  cases o.printed.getLast? with
  | none => rfl
  | some y =>
    simp only [assign]
    rw [SortedMap.insert_comm _ h.2.symm]

theorem print_withScratch (o : Outcome α) (x : α) :
    (o.withScratch.print x).assign scratchRegister x = (o.print x).withScratch := by
  have hlast : (o.print x).printed.getLast? = some x := List.getLast?_concat
  have hprint : (o.print x).withScratch = (o.print x).assign scratchRegister x := by
    unfold withScratch
    rw [hlast]
  rw [hprint]
  unfold withScratch
  cases o.printed.getLast? with
  | none => rfl
  | some y =>
    simp only [assign, print]
    rw [SortedMap.insert_insert]

end Outcome

namespace Machine

variable {α : Type} [Arithmetic α]

def exec (m : Machine α) (i : Instruction) : Except Fault (Machine α) :=
  (words i.text.toList).foldlM stepWord m

theorem run_eq (code : Code) : run (code.map Instruction.text) = code.foldlM exec (start : Machine α) := by
  have hfold (m : Machine α) : ((code.map Instruction.text).flatMap fun line => words line.toList).foldlM stepWord m =
      code.foldlM exec m := by
    induction code generalizing m with
    | nil => rfl
    | cons i code ih =>
      rw [List.map_cons, List.flatMap_cons, List.foldlM_append, List.foldlM_cons]
      simp only [ih]
      rfl
  exact hfold start

def Gives (lines : List String) (cs : List (Command α)) : Prop :=
  (lines.flatMap fun line => words line.toList).map Command.ofWord? = cs.map some

theorem foldlM_stepWord {ws : List (List Char)} {cs : List (Command α)} (h : ws.map Command.ofWord? = cs.map some)
    (m : Machine α) : ws.foldlM stepWord m = cs.foldlM step m := by
  induction ws generalizing cs m with
  | nil =>
    obtain rfl : cs = [] := List.map_eq_nil_iff.mp h.symm
    rfl
  | cons w ws ih =>
    cases cs with
    | nil => cases h
    | cons c cs =>
      obtain ⟨hc, hcs⟩ := List.cons.inj h
      have hword : m.stepWord w = m.step c := by rw [stepWord, hc]
      rw [List.foldlM_cons, List.foldlM_cons, hword]
      exact bind_congr fun m' => ih hcs m'

theorem exec_eq {i : Instruction} {cs : List (Command α)} (h : Gives [i.text] cs) (m : Machine α) :
    m.exec i = cs.foldlM step m := by
  rw [Gives, List.flatMap_singleton] at h
  exact foldlM_stepWord h m

theorem exec_eq_step {i : Instruction} {c : Command α} (h : Gives [i.text] [c]) (m : Machine α) : m.exec i = m.step c := by
  simp only [exec_eq h, List.foldlM_cons, List.foldlM_nil, bind_pure]

theorem gives_word {line : String} {c : Command α} (hw : words line.toList = [line.toList])
    (hc : Command.ofWord? line.toList = some c) : Gives [line] [c] := by
  rw [Gives, List.flatMap_singleton, hw, List.map_singleton, List.map_singleton, hc]

theorem gives_push (value : Literal) :
    Gives (α := α) [(Instruction.push value).text] [.push (Arithmetic.ofScientific value.exact)] := by
  have hread : Numeral.read? (Instruction.push value).text.toList = some (.finite value.exact) := by
    cases value with
    | integer n => exact Numeral.read?_int n
    | decimal d => exact d.read
  exact gives_word (words_numeral hread) (Command.ofWord?_numeral hread)

theorem words_mark {c : Char} (h : isBlank c = false) : words [c] = [[c]] := by
  apply words_of_solid (List.cons_ne_nil _ _)
  simp [h]

theorem words_register {c name : Char} (hc : isBlank c = false) (h : isBlank name = false) :
    words [c, name] = [[c, name]] := by
  apply words_of_solid (List.cons_ne_nil _ _)
  simp [hc, h]

theorem gives_load {name : Char} (h : isBlank name = false) :
    Gives (α := α) [(Instruction.load name).text] [.load name] := by
  have htext : (Instruction.load name).text.toList = ['l', name] := by simp [Instruction.text]
  refine gives_word ?_ ?_
  · rw [htext]
    exact words_register rfl h
  · rw [htext]
    rfl

theorem gives_store {name : Char} (h : isBlank name = false) :
    Gives (α := α) [(Instruction.store name).text] [.store name] := by
  have htext : (Instruction.store name).text.toList = ['s', name] := by simp [Instruction.text]
  refine gives_word ?_ ?_
  · rw [htext]
    exact words_register rfl h
  · rw [htext]
    rfl

theorem gives_compute (o : Operator) : Gives (α := α) [(Instruction.compute o).text] [.compute o] := by
  cases o with
  | add => exact gives_word (words_mark (c := '+') rfl) rfl
  | subtract => exact gives_word (words_mark (c := '-') rfl) rfl

theorem gives_print : Gives (α := α) [Instruction.print.text] [.print] :=
  gives_word (words_mark (c := 'p') rfl) rfl

theorem gives_precision (digits : ℕ) : Gives (α := α) [(Instruction.precision digits).text]
    [.push (Arithmetic.ofScientific (.ofInt digits)), .drop] := by
  have htext : (Instruction.precision digits).text.toList = (toString (digits : ℤ)).toList ++ ' ' :: ['k'] := by
    simp [Instruction.text, Int.toString_eq_repr, Int.repr]
  have hread := Numeral.read?_int digits
  have hwords : words (Instruction.precision digits).text.toList = [(toString (digits : ℤ)).toList, ['k']] := by
    rw [htext, words_append _ _ rfl, words_numeral hread, words_mark rfl]
    rfl
  rw [Gives, List.flatMap_singleton, hwords, List.map_cons, Command.ofWord?_numeral hread]
  rfl

theorem exec_push (m : Machine α) (value : Literal) :
    m.exec (.push value) = .ok { m with stack := Arithmetic.ofScientific value.exact :: m.stack } :=
  exec_eq (gives_push value) m

theorem exec_load (m : Machine α) {name : Char} (h : isBlank name = false) :
    m.exec (.load name) = m.step (.load name) :=
  exec_eq_step (gives_load h) m

theorem exec_store (m : Machine α) {name : Char} (h : isBlank name = false) :
    m.exec (.store name) = m.step (.store name) :=
  exec_eq_step (gives_store h) m

theorem exec_compute (m : Machine α) (o : Operator) : m.exec (.compute o) = m.step (.compute o) :=
  exec_eq_step (gives_compute o) m

theorem exec_print (m : Machine α) : m.exec .print = m.step .print :=
  exec_eq_step gives_print m

theorem exec_precision (m : Machine α) (digits : ℕ) : m.exec (.precision digits) = .ok m :=
  exec_eq (gives_precision digits) m

end Machine

namespace Tree

variable {α : Type} [Arithmetic α]

theorem IsValue.exists_code {t : TypedTree} (h : t.IsValue Usable) :
    ∃ code, t.HasCode code ∧ ∀ (stack : List α) (o : Outcome α),
      code.foldlM Machine.exec ⟨stack, o.withScratch⟩ = t.evaluate o >>= fun x => .ok ⟨x :: stack, o.withScratch⟩ := by
  induction h with
  | @reference m name h =>
    refine ⟨[.load name], fun rest => rfl, fun stack o => ?_⟩
    simp only [List.foldlM_cons, List.foldlM_nil, bind_pure, Machine.exec_load _ h.1, Machine.step,
      o.read_withScratch h, evaluate]
    rfl
  | @constant m value =>
    refine ⟨[.push value], fun rest => rfl, fun stack o => ?_⟩
    simp only [List.foldlM_cons, List.foldlM_nil, bind_pure, Machine.exec_push, evaluate, ok_bind]
  | convert h ih =>
    obtain ⟨code, hcode, hrun⟩ := ih
    refine ⟨_, hcode.convert _, fun stack o => ?_⟩
    simp only [List.foldlM_append, hrun, bind_assoc, ok_bind, List.foldlM_cons, List.foldlM_nil, bind_pure,
      Machine.exec_precision, evaluate]
  | @compute m operator l r hl hr ihl ihr =>
    obtain ⟨lc, hlc, hlrun⟩ := ihl
    obtain ⟨rc, hrc, hrrun⟩ := ihr
    refine ⟨_, hlc.compute hrc _ operator, fun stack o => ?_⟩
    simp only [List.foldlM_append, hlrun, hrrun, bind_assoc, ok_bind, List.foldlM_cons, List.foldlM_nil, bind_pure,
      Machine.exec_compute, Machine.step, evaluate]
    rfl

inductive IsItem {β : Type} (P : Char → Prop) : Tree β → Prop
  | declaration {m : β} {type : DataType} {target : Tree β} : IsItem P (.node m (.declaration type target))
  | assign {m m' : β} {name : Char} {v : Tree β} (h : P name) (hv : v.IsValue P) :
      IsItem P (.node m (.assign (.node m' (.reference name)) v))
  | print {m : β} {name : Char} (h : P name) : IsItem P (.node m (.print name))

theorem IsItem.exists_code {t : TypedTree} (h : t.IsItem Usable) :
    ∃ code, t.HasCode code ∧ ∀ (stack : List α) (o : Outcome α),
      code.foldlM Machine.exec ⟨stack, o.withScratch⟩ = o.execute t >>= fun o => .ok ⟨stack, o.withScratch⟩ := by
  cases h with
  | declaration => exact ⟨[], fun rest => rfl, fun stack o => rfl⟩
  | @assign m m' name v h hv =>
    obtain ⟨code, hcode, hrun⟩ := hv.exists_code (α := α)
    refine ⟨_, hcode.assign _ _ name, fun stack o => ?_⟩
    simp only [List.foldlM_append, hrun, bind_assoc, ok_bind, List.foldlM_cons, List.foldlM_nil, bind_pure,
      Machine.exec_store _ h.1, Machine.exec_precision, Machine.step, Outcome.assign_withScratch _ h, Outcome.execute,
      construct]
    rfl
  | @print m name h =>
    refine ⟨[.load name, .print, .store scratchRegister], fun rest => rfl, fun stack o => ?_⟩
    have hscratch : isBlank scratchRegister = false := rfl
    simp only [List.foldlM_cons, List.foldlM_nil, bind_assoc, ok_bind, Machine.exec_load _ h.1, Machine.exec_print,
      Machine.exec_store _ hscratch, Machine.step, o.read_withScratch h, Outcome.execute, construct, pure, Except.pure,
      Outcome.print_withScratch]

theorem exists_code_items {ts : List TypedTree} (h : ∀ t ∈ ts, t.IsItem Usable) :
    ∃ codes, List.Forall₂ HasCode ts codes ∧ ∀ (stack : List α) (o : Outcome α),
      codes.flatten.foldlM Machine.exec ⟨stack, o.withScratch⟩ =
        ts.foldlM Outcome.execute o >>= fun o => .ok ⟨stack, o.withScratch⟩ := by
  induction ts with
  | nil => exact ⟨[], .nil, fun stack o => rfl⟩
  | cons t ts ih =>
    obtain ⟨code, hcode, hrun⟩ := (h t List.mem_cons_self).exists_code (α := α)
    obtain ⟨codes, hcodes, hrest⟩ := ih fun u hu => h u (List.mem_cons_of_mem t hu)
    refine ⟨code :: codes, .cons hcode hcodes, fun stack o => ?_⟩
    simp only [List.flatten_cons, List.foldlM_append, hrun, bind_assoc, ok_bind, hrest, List.foldlM_cons]

theorem run_code {type : Option DataType} {ts : List TypedTree} (h : ∀ t ∈ ts, t.IsItem Usable) {code : Code}
    (hcode : (node type (.program ts)).code = .ok code) :
    (Machine.run (code.map Instruction.text) : Except Fault (Machine α)) =
      (node type (.program ts)).run >>= fun o => .ok ⟨[], o.withScratch⟩ := by
  obtain ⟨codes, hcodes, hrun⟩ := exists_code_items (α := α) h
  have hflatten := HasCode.program hcodes type []
  rw [List.append_nil] at hflatten
  obtain rfl : codes.flatten = code := Except.ok.inj (hflatten.symm.trans hcode)
  rw [Machine.run_eq]
  exact hrun [] .empty

theorem IsItem.scratch_unset {t : TypedTree} (h : t.IsItem Usable) {o o' : Outcome α}
    (ho : o.registers.find? scratchRegister = none) (hrun : o.execute t = .ok o') :
    o'.registers.find? scratchRegister = none := by
  cases h with
  | declaration =>
    cases hrun
    exact ho
  | assign h hv =>
    obtain ⟨x, -, hx⟩ := bind_eq_ok.mp hrun
    cases hx
    rw [Outcome.assign, SortedMap.find?_insert, if_neg h.2, ho]
  | print h =>
    obtain ⟨x, -, hx⟩ := bind_eq_ok.mp hrun
    cases hx
    exact ho

theorem scratch_unset {ts : List TypedTree} (h : ∀ t ∈ ts, t.IsItem Usable) {o o' : Outcome α}
    (ho : o.registers.find? scratchRegister = none) (hrun : ts.foldlM Outcome.execute o = .ok o') :
    o'.registers.find? scratchRegister = none := by
  induction ts generalizing o with
  | nil =>
    cases hrun
    exact ho
  | cons t ts ih =>
    obtain ⟨o₁, ho₁, hrest⟩ := bind_eq_ok.mp hrun
    exact ih (fun u hu => h u (List.mem_cons_of_mem t hu)) ((h t List.mem_cons_self).scratch_unset ho ho₁) hrest

variable {P : Char → Prop}

theorem IsValue.types {t : Tree Stamp} (h : t.IsValue P) : t.types.IsValue P := by
  induction h with
  | reference h => exact .reference h
  | constant => exact .constant
  | convert _ ih =>
    rw [types_node]
    exact .convert ih
  | compute _ _ ihl ihr =>
    rw [types_node]
    exact .compute ihl ihr

theorem IsItem.types {t : Tree Stamp} (h : t.IsItem P) : t.types.IsItem P := by
  rcases t with ⟨m, c⟩
  rw [types_node]
  cases h with
  | declaration => exact .declaration
  | assign h hv =>
    simp only [Construct.map, types_node]
    exact .assign h hv.types
  | print h => exact .print h

theorem Decorates.isItem {t t' : Tree Stamp} (h : Decorates false t t') (hi : t.IsItem P) : t'.IsItem P := by
  cases hi with
  | declaration =>
    cases h
    exact .declaration
  | assign hname hv =>
    cases h with
    | assign ht hvalue =>
      cases ht
      exact .assign hname (hvalue.isValue hv)
  | print hname =>
    cases h
    exact .print hname

theorem Decorates.isItem_all {ts ts' : List (Tree Stamp)} (h : List.Forall₂ (Decorates false) ts ts')
    (hi : ∀ t ∈ ts, t.IsItem P) : ∀ t ∈ ts', t.IsItem P := by
  induction h with
  | nil => simp
  | cons h _ ih =>
    intro t ht
    rcases List.mem_cons.mp ht with rfl | ht
    · exact h.isItem (hi _ List.mem_cons_self)
    · exact ih (fun u hu => hi u (List.mem_cons_of_mem _ hu)) t ht

end Tree

theorem Statement.isItem_stamped {P : Char → Prop} {s : Statement} (h : ∀ name ∈ s.names, P name) (k : NodeId) :
    (s.stamped k).IsItem P := by
  cases s with
  | assign target value =>
    exact .assign (h target.letter List.mem_cons_self)
      (Chain.isValue_stamped (fun name hname => h name (List.mem_cons_of_mem _ hname)) _)
  | print name span => exact .print (h name List.mem_cons_self)

def Outcome.perform {α : Type} [Arithmetic α] (o : Outcome α) (s : Statement) : Except Fault (Outcome α) :=
  o.execute s.tree

namespace Program

theorem usable_of_mentioned {p : Program} (hf : p.faulty? = none) (hu : p.undeclared? = none) {name : Char}
    (h : name ∈ p.mentions) : Usable name := by
  obtain ⟨type, htype⟩ := Option.isSome_iff_exists.mp (typeOf?_of_mentioned hu h)
  obtain ⟨d, hd, rfl, -⟩ := (typeOf?_eq_some hf).mp htype
  exact usable_of_isVariable (declared_of_faultless hf hd).1

theorem isItem_stampedItems {p : Program} (hf : p.faulty? = none) (hu : p.undeclared? = none) :
    ∀ t ∈ p.stampedItems, t.IsItem Usable := by
  intro t ht
  rcases List.mem_append.mp ht with ht | ht
  · obtain ⟨d, -, k, rfl⟩ := exists_of_mem_stampAll ht
    exact .declaration
  · obtain ⟨s, hs, k, rfl⟩ := exists_of_mem_stampAll ht
    exact s.isItem_stamped (fun name hname => usable_of_mentioned hf hu (mem_mentions hs hname)) k

theorem Passes.exists_items {p : Program} {a : Analysis} {t : Tree Stamp} (h : p.Passes a t) (hf : p.faulty? = none)
    (hu : p.undeclared? = none) : ∃ ts, t.types = .node none (.program ts) ∧ ∀ t ∈ ts, t.IsItem Usable := by
  obtain ⟨ts, rfl, hts⟩ := h.decorates.exists_program
  refine ⟨ts.map Tree.types, Tree.types_node _ _, fun t ht => ?_⟩
  obtain ⟨u, hmem, rfl⟩ := List.mem_map.mp ht
  exact (Tree.Decorates.isItem_all hts (isItem_stampedItems hf hu) u hmem).types

theorem Passes.run_eq {p : Program} {a : Analysis} {t : Tree Stamp} (h : p.Passes a t) {α : Type} [Arithmetic α]
    [LawfulArithmetic α] : (p.store.run : Except Fault (Outcome α)) = t.types.run := by
  unfold Store.run
  rw [p.tree?_store, ← p.types_stamped]
  exact h.decorates.run.symm

theorem run_statements (p : Program) (α : Type) [Arithmetic α] :
    (p.tree.run : Except Fault (Outcome α)) = p.statements.foldlM Outcome.perform .empty := by
  have hdeclarations (ds : List Declaration) (o : Outcome α) : (ds.map Declaration.tree).foldlM Outcome.execute o = .ok o := by
    induction ds with
    | nil => rfl
    | cons d ds ih => exact ih
  have hitems : p.tree.items = p.declarations.map Declaration.tree ++ p.statements.map Statement.tree := rfl
  rw [Tree.run, hitems, List.foldlM_append, hdeclarations, ok_bind, List.foldlM_map]
  rfl

theorem run_compiled {source : String} {code : Code} (h : compile source = .ok code) (α : Type) [Arithmetic α]
    [LawfulArithmetic α] :
    ∃ s, parse source = .ok s ∧
      (Machine.run (code.map Instruction.text) : Except Fault (Machine α)) =
        s.run >>= (fun o => .ok ⟨[], o.withScratch⟩) ∧
      ∀ o : Outcome α, s.run = .ok o → o.registers.find? scratchRegister = none := by
  obtain ⟨ts, p, a, hts, hp, ha, hcode⟩ := compile_eq_ok h
  obtain ⟨hf, hu, -, t, hpasses⟩ := passes_of_analyse ha
  obtain ⟨items, htypes, hitems⟩ := hpasses.exists_items hf hu
  have htree : t.types.code = .ok code := by
    unfold Store.code at hcode
    rwa [hpasses.tree] at hcode
  rw [htypes] at htree
  refine ⟨p.store, parse_eq_ok.mpr ⟨ts, p, hts, hp, rfl⟩, ?_, ?_⟩
  · rw [hpasses.run_eq, htypes]
    exact Tree.run_code hitems htree
  · intro o ho
    rw [hpasses.run_eq, htypes] at ho
    exact Tree.scratch_unset hitems rfl ho

/-- The calculator runs compiled code as the program is run from its tree before analysis: it fails if that fails,
and otherwise prints the same values and has the same registers, with what was printed last in the scratch register.
-/
theorem compile_runs (source : String) (code : Code) (h : compile source = .ok code) :
    ∃ s, parse source = .ok s ∧
      ((∃ f, (Machine.run (code.map Instruction.text) : Except Fault (Machine Binary64)) = .error f) ↔
        ∃ f, (s.run : Except Fault (Outcome Binary64)) = .error f) ∧
      ∀ (m : Machine Binary64) (o : Outcome Binary64), Machine.run (code.map Instruction.text) = .ok m → s.run = .ok o →
        m.outcome.printed = o.printed ∧ o.registers.find? scratchRegister = none ∧
          m.outcome.registers =
            o.printed.getLast?.elim o.registers fun last => o.registers.insert scratchRegister last := by
  obtain ⟨s, hs, hrun, hscratch⟩ := run_compiled h Binary64
  refine ⟨s, hs, ?_, fun m o hm ho => ?_⟩
  · rw [hrun]
    cases (s.run : Except Fault (Outcome Binary64)) with
    | error f => exact ⟨fun _ => ⟨f, rfl⟩, fun _ => ⟨f, rfl⟩⟩
    | ok o => exact ⟨fun ⟨f, hf⟩ => (by cases hf), fun ⟨f, hf⟩ => (by cases hf)⟩
  · rw [hrun, ho] at hm
    cases hm
    exact ⟨o.printed_withScratch, hscratch o ho, o.registers_withScratch⟩

theorem compile_runs_mixedSource : ∃ code, compile mixedSource = .ok code ∧
    ∃ s, parse mixedSource = .ok s ∧
      ((∃ f, (Machine.run (code.map Instruction.text) : Except Fault (Machine Binary64)) = .error f) ↔
        ∃ f, (s.run : Except Fault (Outcome Binary64)) = .error f) ∧
      ∀ (m : Machine Binary64) (o : Outcome Binary64), Machine.run (code.map Instruction.text) = .ok m → s.run = .ok o →
        m.outcome.printed = o.printed ∧ o.registers.find? scratchRegister = none ∧
          m.outcome.registers =
            o.printed.getLast?.elim o.registers fun last => o.registers.insert scratchRegister last := by
  obtain ⟨code, hcode, -⟩ := exists_of_toOption compile_mixedSource
  exact ⟨code, hcode, compile_runs mixedSource code hcode⟩

end Program

end AddingCalculator
