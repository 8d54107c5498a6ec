import AddingCalculator.Proofs.Execution

/-!
# The height of the stack

The code of a statement begins and ends with the empty stack. In between, what is computed of a chain is one value,
the operand behind it is a second one, and the fraction digits set for that operand are a third one, however long
the chain is.
-/

namespace AddingCalculator

inductive Command.Shifts {α : Type} : Command α → ℕ → ℕ → Prop
  | push (x : α) (i : ℕ) : Shifts (.push x) i (i + 1)
  | load (register : Char) (i : ℕ) : Shifts (.load register) i (i + 1)
  | store (register : Char) (i : ℕ) : Shifts (.store register) (i + 1) i
  | drop (i : ℕ) : Shifts .drop (i + 1) i
  | compute (o : Operator) (i : ℕ) : Shifts (.compute o) (i + 2) (i + 1)
  | print (i : ℕ) : Shifts .print (i + 1) (i + 1)

inductive Command.Path {α : Type} (n : ℕ) : ℕ → ℕ → List (Command α) → Prop
  | nil {i : ℕ} (hi : i ≤ n) : Path n i i []
  | cons {i j k : ℕ} {c : Command α} {cs : List (Command α)} (hi : i ≤ n) (hc : c.Shifts i j) (hcs : Path n j k cs) :
      Path n i k (c :: cs)

namespace Command.Path

variable {α : Type} {n i j k : ℕ} {c : Command α} {cs ds : List (Command α)}

theorem append (hcs : Path n i j cs) (hds : Path n j k ds) : Path n i k (cs ++ ds) := by
  induction hcs with
  | nil => exact hds
  | cons hi hc _ ih => exact .cons hi hc (ih hds)

theorem single (hi : i ≤ n) (hj : j ≤ n) (hc : c.Shifts i j) : Path n i j [c] :=
  .cons hi hc (.nil hj)

theorem exists_front (h : Path n i j cs) (hds : ds <+: cs) : ∃ k ≤ n, Path n i k ds := by
  induction h generalizing ds with
  | @nil i hi =>
    rw [List.prefix_nil.mp hds]
    exact ⟨i, hi, .nil hi⟩
  | @cons i j k c cs hi hc _ ih =>
    cases ds with
    | nil => exact ⟨i, hi, .nil hi⟩
    | cons d ds =>
      obtain ⟨rfl, hrest⟩ := List.cons_prefix_cons.mp hds
      obtain ⟨l, hl, hpath⟩ := ih hrest
      exact ⟨l, hl, .cons hi hc hpath⟩

end Command.Path

namespace Machine

variable {α : Type}

/-- The run has `n` values on the stack, or it has stopped at a register that is not set. -/
def StackHolds (n : ℕ) : Except Fault (Machine α) → Prop
  | .ok m => m.stack.length = n
  | .error f => ∃ name, f = .unsetRegister name

section

variable [Arithmetic α]

theorem step_stackHolds {c : Command α} {i j : ℕ} (h : c.Shifts i j) {m : Machine α} (hm : m.stack.length = i) :
    StackHolds j (m.step c) := by
  obtain ⟨stack, o⟩ := m
  cases h with
  | push x => exact congrArg Nat.succ hm
  | load register =>
    rw [step, Outcome.read]
    cases o.registers.find? register with
    | none => exact ⟨register, rfl⟩
    | some x => exact congrArg Nat.succ hm
  | store | drop =>
    cases stack with
    | nil => cases hm
    | cons x rest => exact Nat.succ.inj hm
  | print =>
    cases stack with
    | nil => cases hm
    | cons x rest => exact hm
  | compute =>
    cases stack with
    | nil => cases hm
    | cons y stack =>
      cases stack with
      | nil => cases hm
      | cons x rest => exact Nat.succ.inj hm

theorem path_stackHolds {n i j : ℕ} {cs : List (Command α)} (h : Command.Path n i j cs) {m : Machine α}
    (hm : m.stack.length = i) : StackHolds j (cs.foldlM step m) := by
  induction h generalizing m with
  | nil => exact hm
  | cons hi hc _ ih =>
    have hstep := step_stackHolds hc hm
    rw [List.foldlM_cons]
    cases hresult : m.step _ with
    | error f =>
      rw [hresult] at hstep
      exact hstep
    | ok m' =>
      rw [hresult] at hstep
      exact ih hstep

theorem Gives.append {ls ls' : List String} {cs ds : List (Command α)} (h : Gives ls cs) (h' : Gives ls' ds) :
    Gives (ls ++ ls') (cs ++ ds) := by
  rw [Gives, List.flatMap_append, List.map_append, List.map_append, h, h']

theorem Gives.flatten {parts : List (List String)} {n i : ℕ} (hi : i ≤ n)
    (h : ∀ ls ∈ parts, ∃ cs : List (Command α), Gives ls cs ∧ Command.Path n i i cs) :
    ∃ cs : List (Command α), Gives parts.flatten cs ∧ Command.Path n i i cs := by
  induction parts with
  | nil => exact ⟨[], rfl, .nil hi⟩
  | cons ls parts ih =>
    obtain ⟨cs, hcs, hpath⟩ := h ls List.mem_cons_self
    obtain ⟨ds, hds, hrest⟩ := ih fun ls' hmem => h ls' (List.mem_cons_of_mem ls hmem)
    exact ⟨cs ++ ds, hcs.append hds, hpath.append hrest⟩

theorem Gives.stackHolds_front {ls : List String} {cs : List (Command α)} {n j : ℕ} (h : Gives ls cs)
    (hpath : Command.Path n 0 j cs) {ws : List (List Char)} (hws : ws <+: ls.flatMap fun line => words line.toList) :
    ∃ k ≤ n, StackHolds k (ws.foldlM stepWord (start : Machine α)) := by
  have htake : ws.map Command.ofWord? = (cs.take ws.length).map some := by
    rw [List.map_take, ← h, ← List.map_take, ← List.prefix_iff_eq_take.mp hws]
  have hfront : cs.take ws.length <+: cs := List.take_prefix ws.length cs
  obtain ⟨k, hk, hdone⟩ := hpath.exists_front hfront
  rw [foldlM_stepWord htake]
  exact ⟨k, hk, path_stackHolds hdone rfl⟩

theorem Gives.stackHolds {ls : List String} {cs : List (Command α)} {n j : ℕ} (h : Gives ls cs)
    (hpath : Command.Path n 0 j cs) : StackHolds j (run ls : Except Fault (Machine α)) := by
  rw [run, foldlM_stepWord h]
  exact path_stackHolds hpath rfl

end

end Machine

section

open Machine Command

variable {α : Type} [Arithmetic α] {typeOf? : Char → Option DataType} {written : Operand → String}

theorem Operand.exists_path {x : Operand} {type : DataType} {ls : List String}
    (h : x.translation typeOf? written type = some ls) (hw : ∀ d, x.atom = .literal (.decimal d) → d.text = written x)
    (hname : ∀ name, x.atom.name? = some name → isBlank name = false) {n i : ℕ} (hi : i + 2 ≤ n) :
    ∃ cs : List (Command α), Gives ls cs ∧ Path n i (i + 1) cs := by
  have hone : i + 1 ≤ n := by omega
  have hzero : i ≤ n := by omega
  obtain ⟨atom, span⟩ := x
  cases atom with
  | name letter =>
    have hload : Gives (α := α) ["l" ++ String.singleton letter] [.load letter] := gives_load (hname letter rfl)
    have hpath : Path (α := α) n i (i + 1) [.load letter] := .single hzero hone (.load letter i)
    cases type with
    | integer =>
      cases h
      exact ⟨_, hload, hpath⟩
    | float =>
      obtain ⟨found, -, rfl⟩ := Option.map_eq_some_iff.mp h
      cases found with
      | float => exact ⟨_, hload, hpath⟩
      | integer =>
        refine ⟨_, hload.append (gives_precision floatPrecision), hpath.append ?_⟩
        exact .cons hone (.push _ _) (.single hi hone (.drop _))
  | literal value =>
    have hpush (value : Literal) : ∃ cs : List (Command α), Gives [value.text] cs ∧ Path n i (i + 1) cs :=
      ⟨_, gives_push value, .single hzero hone (.push _ _)⟩
    cases type with
    | integer =>
      cases value with
      | integer m =>
        cases h
        exact hpush (.integer m)
      | decimal d => cases h
    | float =>
      cases value with
      | integer m =>
        cases h
        exact hpush (.decimal (.ofInt m))
      | decimal d =>
        cases h
        rw [← hw d rfl]
        exact hpush (.decimal d)

theorem Chain.exists_path {c : Chain} {type : DataType} {ls : List String}
    (h : c.translation typeOf? written type = some ls)
    (hw : ∀ x ∈ c.operands, ∀ d, x.atom = .literal (.decimal d) → d.text = written x)
    (hname : ∀ x ∈ c.operands, ∀ name, x.atom.name? = some name → isBlank name = false) :
    ∃ cs : List (Command α), Gives ls cs ∧ Path 3 0 1 cs := by
  induction c generalizing ls with
  | operand first =>
    have hmem : first ∈ (operand first).operands := by simp [operands]
    exact first.exists_path h (hw first hmem) (hname first hmem) (by omega)
  | extend left o span right ih =>
    have hleft (x : Operand) (hx : x ∈ left.operands) : x ∈ (extend left o span right).operands := by simp [operands, hx]
    have hright : right ∈ (extend left o span right).operands := by simp [operands]
    obtain ⟨ll, hll, h⟩ := Option.bind_eq_some_iff.mp h
    obtain ⟨rl, hrl, h⟩ := Option.bind_eq_some_iff.mp h
    obtain ⟨lc, hlc, hlpath⟩ := ih hll (fun x hx => hw x (hleft x hx)) fun x hx => hname x (hleft x hx)
    obtain ⟨rc, hrc, hrpath⟩ := right.exists_path (α := α) (n := 3) (i := 1) hrl (hw right hright) (hname right hright)
      (by omega)
    have hsign : Gives (α := α) [o.sign] [.compute o] := by
      cases o with
      | add => exact gives_compute .add
      | subtract => exact gives_compute .subtract
    cases h
    -- The second value is there only until the operator behind it.
    refine ⟨_, (hlc.append hrc).append hsign, (hlpath.append hrpath).append ?_⟩
    exact .single (by omega) (by omega) (.compute o 0)

theorem Statement.exists_path {s : Statement} {ls : List String} (h : s.translation typeOf? written = some ls)
    (hw : ∀ target value, s = .assign target value → ∀ x ∈ value.operands, ∀ d, x.atom = .literal (.decimal d) →
      d.text = written x)
    (hname : ∀ name ∈ s.names, isBlank name = false) : ∃ cs : List (Command α), Gives ls cs ∧ Path 3 0 0 cs := by
  cases s with
  | assign target value =>
    obtain ⟨type, -, h⟩ := Option.bind_eq_some_iff.mp h
    obtain ⟨vl, hvl, h⟩ := Option.bind_eq_some_iff.mp h
    have hoperands (x : Operand) (hx : x ∈ value.operands) (name : Char) (hletter : x.atom.name? = some name) :
        isBlank name = false :=
      hname name (List.mem_cons_of_mem _ (List.mem_filterMap.mpr ⟨x, hx, hletter⟩))
    obtain ⟨vc, hvc, hpath⟩ := value.exists_path (α := α) hvl (hw target value rfl) hoperands
    have hstore := gives_store (α := α) (hname target.letter List.mem_cons_self)
    cases h
    refine ⟨_, hvc.append (hstore.append (gives_precision 0)), hpath.append ?_⟩
    exact .cons (by omega) (.store _ 0) (.cons (by omega) (.push _ 0) (.single (by omega) (by omega) (.drop 0)))
  | print name span =>
    cases h
    have hload := gives_load (α := α) (hname name List.mem_cons_self)
    have hscratch : Gives (α := α) [(Instruction.store scratchRegister).text] [.store scratchRegister] := gives_store rfl
    refine ⟨_, hload.append (gives_print.append hscratch), ?_⟩
    exact .cons (by omega) (.load _ 0) (.cons (by omega) (.print 0) (.single (by omega) (by omega) (.store _ 0)))

end

namespace Program

theorem exists_of_mapM {β γ : Type} {f : β → Option γ} {xs : List β} {ys : List γ} (h : xs.mapM f = some ys) {y : γ}
    (hy : y ∈ ys) : ∃ x ∈ xs, f x = some y := by
  induction xs generalizing ys with
  | nil =>
    cases h
    cases hy
  | cons x xs ih =>
    rw [List.mapM_cons] at h
    obtain ⟨z, hz, h⟩ := Option.bind_eq_some_iff.mp h
    obtain ⟨zs, hzs, h⟩ := Option.bind_eq_some_iff.mp h
    cases h
    rcases List.mem_cons.mp hy with rfl | hy
    · exact ⟨x, List.mem_cons_self, hz⟩
    · obtain ⟨x', hx', heq⟩ := ih hzs hy
      exact ⟨x', List.mem_cons_of_mem x hx', heq⟩

theorem compile_stack (source : String) (code : Code) (h : compile source = .ok code) (α : Type) [Arithmetic α] :
    ∃ ts p parts, Token.scan source = .ok ts ∧ Grammar.Derives (ts ++ [closingToken ts]) p ∧
      p.statements.mapM (Statement.translation p.typeOf? (Operand.emitted source)) = some parts ∧
      parts.flatten = code.map Instruction.text ∧
      (∀ ws, ws <+: ((code.map Instruction.text).flatMap fun line => words line.toList) →
        ∃ n ≤ 3, Machine.StackHolds n (ws.foldlM Machine.stepWord (Machine.start : Machine α))) ∧
      ∀ done, done <+: parts → Machine.StackHolds 0 (Machine.run done.flatten : Except Fault (Machine α)) := by
  obtain ⟨ts, p, a, hts, hp, ha, hcode⟩ := compile_eq_ok h
  obtain ⟨hf, hu, -, t, hpasses⟩ := passes_of_analyse ha
  have hderives := ofTokens_iff_derives.mp hp
  have hwritten (target : Identifier) (value : Chain) (hs : .assign target value ∈ p.statements) (x : Operand)
      (hx : x ∈ value.operands) (d : Decimal) (hd : x.atom = .literal (.decimal d)) :
      d.text = x.emitted source :=
    text_operand hts hderives hs hx hd
  obtain ⟨code', hcode', htranslation⟩ := hpasses.exists_code hwritten
  obtain rfl : code = code' := Except.ok.inj (hcode.symm.trans hcode')
  obtain ⟨parts, hparts, hflatten⟩ := Option.map_eq_some_iff.mp htranslation
  have hpath (ls : List String) (hls : ls ∈ parts) : ∃ cs : List (Command α), Machine.Gives ls cs ∧ Command.Path 3 0 0 cs := by
    obtain ⟨s, hs, htranslation⟩ := exists_of_mapM hparts hls
    exact s.exists_path htranslation (fun target value heq => hwritten target value (heq ▸ hs)) fun name hname =>
      (usable_of_mentioned hf hu (mem_mentions hs hname)).1
  refine ⟨ts, p, parts, hts, hderives, hparts, hflatten, fun ws hws => ?_, fun done hdone => ?_⟩
  · obtain ⟨cs, hcs, hall⟩ := Machine.Gives.flatten (Nat.zero_le 3) hpath
    rw [hflatten] at hcs
    exact hcs.stackHolds_front hall hws
  · obtain ⟨cs, hcs, hfront⟩ := Machine.Gives.flatten (Nat.zero_le 3) fun ls hls => hpath ls (hdone.subset hls)
    exact hcs.stackHolds hfront

def convertedSource : String := "f a i b b = 7 a = 2. - b"

theorem compile_convertedSource : (compile convertedSource).toOption.map (List.map Instruction.text) =
    some ["7", "sb", "0 k", "2.0", "lb", "5 k", "-", "sa", "0 k"] := by
  decide +kernel

def convertedWords : List (List Char) :=
  ["7", "sb", "0", "k", "2.0", "lb", "5"].map String.toList

theorem compile_stack_convertedSource : ∃ code, compile convertedSource = .ok code ∧
    convertedWords <+: ((code.map Instruction.text).flatMap fun line => words line.toList) ∧
    (convertedWords.foldlM Machine.stepWord (Machine.start : Machine Binary64)).toOption.map
      (fun m => m.stack.length) = some 3 ∧
    ∃ ts p parts, Token.scan convertedSource = .ok ts ∧ Grammar.Derives (ts ++ [closingToken ts]) p ∧
      p.statements.mapM (Statement.translation p.typeOf? (Operand.emitted convertedSource)) = some parts ∧
      parts.flatten = code.map Instruction.text ∧
      (∀ ws, ws <+: ((code.map Instruction.text).flatMap fun line => words line.toList) →
        ∃ n ≤ 3, Machine.StackHolds n (ws.foldlM Machine.stepWord (Machine.start : Machine Binary64))) ∧
      ∀ done, done <+: parts → Machine.StackHolds 0 (Machine.run done.flatten : Except Fault (Machine Binary64)) := by
  obtain ⟨code, hcode, htext⟩ := exists_of_toOption compile_convertedSource
  refine ⟨code, hcode, ?_, ?_, compile_stack convertedSource code hcode Binary64⟩
  · rw [htext]
    decide
  · decide +kernel

end Program

end AddingCalculator
