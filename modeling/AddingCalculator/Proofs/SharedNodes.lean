import AddingCalculator.Proofs.Execution
import AddingCalculator.Proofs.WellFormed

namespace AddingCalculator

namespace Store

variable {s : Store} {P : Char → Prop}

inductive ValueAt (s : Store) (P : Char → Prop) : NodeId → Prop
  | reference {id : NodeId} {n : Node} {name : Char} (hn : s.node? id = some n) (hc : n.construct = .reference name)
      (h : P name) : ValueAt s P id
  | constant {id : NodeId} {n : Node} {value : Literal} (hn : s.node? id = some n) (hc : n.construct = .constant value) :
      ValueAt s P id
  | convert {id operand : NodeId} {n : Node} (hn : s.node? id = some n) (hc : n.construct = .convert operand)
      (h : ValueAt s P operand) : ValueAt s P id
  | compute {id left right : NodeId} {n : Node} {o : Operator} (hn : s.node? id = some n)
      (hc : n.construct = .compute o left right) (hl : ValueAt s P left) (hr : ValueAt s P right) : ValueAt s P id

inductive ItemAt (s : Store) (P : Char → Prop) : NodeId → Prop
  | declaration {id target : NodeId} {n : Node} {type : DataType} (hn : s.node? id = some n)
      (hc : n.construct = .declaration type target) : ItemAt s P id
  | assign {id target value : NodeId} {n m : Node} {name : Char} (hn : s.node? id = some n)
      (hc : n.construct = .assign target value) (hm : s.node? target = some m) (ht : m.construct = .reference name)
      (h : P name) (hv : s.ValueAt P value) : ItemAt s P id
  | print {id : NodeId} {n : Node} {name : Char} (hn : s.node? id = some n) (hc : n.construct = .print name) (h : P name) :
      ItemAt s P id

theorem Unfolds.inv {id : NodeId} {n : Node} {t : TypedTree} (h : s.Unfolds id t) (hn : s.node? id = some n) :
    ∃ below : NodeId → TypedTree, t = .node n.type (n.construct.map below) ∧
      ∀ child ∈ n.construct.children, s.Unfolds child (below child) := by
  cases h with
  | @node _ m below hm hbelow =>
    rw [hn] at hm
    cases hm
    exact ⟨below, rfl, hbelow⟩

theorem ValueAt.isValue {id : NodeId} {t : TypedTree} (h : s.ValueAt P id) (ht : s.Unfolds id t) : t.IsValue P := by
  induction h generalizing t with
  | reference hn hc h =>
    obtain ⟨below, rfl, -⟩ := ht.inv hn
    rw [hc]
    exact .reference h
  | constant hn hc =>
    obtain ⟨below, rfl, -⟩ := ht.inv hn
    rw [hc]
    exact .constant
  | convert hn hc _ ih =>
    obtain ⟨below, rfl, hbelow⟩ := ht.inv hn
    rw [hc] at hbelow ⊢
    exact .convert (ih (hbelow _ List.mem_cons_self))
  | compute hn hc _ _ ihl ihr =>
    obtain ⟨below, rfl, hbelow⟩ := ht.inv hn
    rw [hc] at hbelow ⊢
    exact .compute (ihl (hbelow _ List.mem_cons_self)) (ihr (hbelow _ (List.mem_cons_of_mem _ List.mem_cons_self)))

theorem ItemAt.isItem {id : NodeId} {t : TypedTree} (h : s.ItemAt P id) (ht : s.Unfolds id t) : t.IsItem P := by
  cases h with
  | declaration hn hc =>
    obtain ⟨below, rfl, -⟩ := ht.inv hn
    rw [hc]
    exact .declaration
  | @assign target value n m name hn hc hm hreference h hv =>
    obtain ⟨below, rfl, hbelow⟩ := ht.inv hn
    rw [hc] at hbelow ⊢
    obtain ⟨below', htarget, -⟩ := (hbelow target List.mem_cons_self).inv hm
    have hvalue := hv.isValue (hbelow value (List.mem_cons_of_mem _ List.mem_cons_self))
    rw [hreference] at htarget
    rw [Construct.map, htarget]
    exact .assign h hvalue
  | print hn hc h =>
    obtain ⟨below, rfl, -⟩ := ht.inv hn
    rw [hc]
    exact .print h

theorem Acyclic.exists_items (h : s.Acyclic) {n : Node} {items : List NodeId} (hn : s.node? root = some n)
    (hc : n.construct = .program items) (hitems : ∀ id ∈ items, s.ItemAt P id) :
    ∃ ts, s.tree? = some (.node n.type (.program ts)) ∧ ∀ t ∈ ts, t.IsItem P := by
  obtain ⟨t, ht⟩ := h.exists_unfolds .refl
  obtain ⟨below, rfl, hbelow⟩ := ht.inv hn
  rw [hc] at ht hbelow
  refine ⟨items.map below, (s.tree?_eq_some_iff _).mpr ht, fun t ht => ?_⟩
  obtain ⟨id, hid, rfl⟩ := List.mem_map.mp ht
  exact (hitems id hid).isItem (hbelow id hid)

end Store

theorem Tree.exists_code_program {ts : List TypedTree} (h : ∀ t ∈ ts, t.IsItem Usable) (type : Option DataType) :
    ∃ code, (node type (.program ts)).code = .ok code := by
  obtain ⟨codes, hcodes, -⟩ := exists_code_items (α := Binary64) h
  exact ⟨_, HasCode.program hcodes type []⟩

namespace Store

/-- Code is made of every store without cycles whose items are declarations, print statements and assignments of
values to references. The calculator fails on it if the store cannot be run, and otherwise prints the same values
and has the same registers, with what was printed last in the scratch register. -/
theorem code_runs (s : Store) (h : s.Acyclic) (n : Node) (items : List NodeId) (hn : s.node? root = some n)
    (hc : n.construct = .program items) (hitems : ∀ id ∈ items, s.ItemAt Usable id) :
    ∃ code, s.code = .ok code ∧
      ((∃ f, (Machine.run (code.map Instruction.text) : Except Fault (Machine Binary64)) = .error f) ↔
        ∃ f, (s.run : Except Fault (Outcome Binary64)) = .error f) ∧
      ∀ (m : Machine Binary64) (o : Outcome Binary64), Machine.run (code.map Instruction.text) = .ok m → s.run = .ok o →
        m.outcome.printed = o.printed ∧ o.registers.find? scratchRegister = none ∧
          m.outcome.registers =
            o.printed.getLast?.elim o.registers fun last => o.registers.insert scratchRegister last := by
  obtain ⟨ts, htree, hts⟩ := h.exists_items hn hc hitems
  obtain ⟨code, hcode⟩ := Tree.exists_code_program hts n.type
  have hrun := Tree.run_code (α := Binary64) hts hcode
  have hstore : (s.run : Except Fault (Outcome Binary64)) = (Tree.node n.type (.program ts)).run := by
    rw [run, htree]
  rw [← hstore] at hrun
  refine ⟨code, by rw [Store.code, htree]; exact hcode, ?_, fun m o hm ho => ?_⟩
  · rw [hrun]
    constructor
    · rintro ⟨f, hf⟩
      rcases bind_eq_error.mp hf with hf | ⟨o, -, hf⟩
      · exact ⟨f, hf⟩
      · cases hf
    · rintro ⟨f, hf⟩
      exact ⟨f, bind_eq_error.mpr (.inl hf)⟩
  · rw [hrun, ho] at hm
    cases hm
    exact ⟨o.printed_withScratch, Tree.scratch_unset hts rfl (hstore ▸ ho), o.registers_withScratch⟩

def sharedStore : Store :=
  ⟨#[⟨.program [2, 8, 9, 10, 9], .origin, some .float, some 3⟩, ⟨.reference 'é', .origin, none, none⟩,
    ⟨.declaration .integer 1, .origin, none, some 7⟩,
    ⟨.constant (.decimal ⟨"-25e-1", ⟨true, 25, -1⟩, by decide⟩), .origin, some .integer, some 0⟩,
    ⟨.constant (.integer (-5)), .origin, none, some 6⟩, ⟨.compute .subtract 4 3, .origin, none, none⟩,
    ⟨.compute .add 4 5, .origin, none, some 2⟩, ⟨.convert 6, .origin, none, some 8⟩, ⟨.assign 1 7, .origin, none, some 1⟩,
    ⟨.print 'é', .origin, none, none⟩, ⟨.assign 1 1, .origin, none, none⟩]⟩

theorem sharedStore_acyclic : sharedStore.Acyclic :=
  acyclic_of_rank (fun id => if id = root then sharedStore.size else id) (by decide) (by decide)

theorem sharedStore_items : ∀ id ∈ [2, 8, 9, 10, 9], sharedStore.ItemAt Usable id := by
  have hname : Usable 'é' := ⟨by decide, by decide⟩
  have hvalue : sharedStore.ValueAt Usable 7 :=
    .convert rfl rfl (.compute rfl rfl (.constant rfl rfl) (.compute rfl rfl (.constant rfl rfl) (.constant rfl rfl)))
  have hprint : sharedStore.ItemAt Usable 9 := .print rfl rfl hname
  simp only [List.forall_mem_cons]
  exact ⟨.declaration rfl rfl, .assign rfl rfl rfl rfl hname hvalue, hprint,
    .assign rfl rfl rfl rfl hname (.reference rfl rfl hname), hprint, List.forall_mem_nil _⟩

theorem code_runs_sharedStore :
    sharedStore.Acyclic ∧ (∀ id ∈ [2, 8, 9, 10, 9], sharedStore.ItemAt Usable id) ∧
    ∃ code, sharedStore.code = .ok code ∧
      code.map Instruction.text =
        ["-5", "-5", "-25e-1", "-", "+", "5 k", "sé", "0 k", "lé", "p", "si", "lé", "sé", "0 k", "lé", "p", "si"] ∧
      ((∃ f, (Machine.run (code.map Instruction.text) : Except Fault (Machine Binary64)) = .error f) ↔
        ∃ f, (sharedStore.run : Except Fault (Outcome Binary64)) = .error f) ∧
      ∀ (m : Machine Binary64) (o : Outcome Binary64), Machine.run (code.map Instruction.text) = .ok m →
        sharedStore.run = .ok o →
        m.outcome.printed = o.printed ∧ o.registers.find? scratchRegister = none ∧
          m.outcome.registers =
            o.printed.getLast?.elim o.registers fun last => o.registers.insert scratchRegister last := by
  have htext : sharedStore.code.toOption.map (List.map Instruction.text) =
      some ["-5", "-5", "-25e-1", "-", "+", "5 k", "sé", "0 k", "lé", "p", "si", "lé", "sé", "0 k", "lé", "p", "si"] := by
    decide +kernel
  obtain ⟨code, hcode, hruns⟩ := code_runs sharedStore sharedStore_acyclic _ [2, 8, 9, 10, 9] rfl rfl sharedStore_items
  rw [hcode] at htext
  exact ⟨sharedStore_acyclic, sharedStore_items, code, hcode, Option.some.inj htext, hruns⟩

end Store

end AddingCalculator
