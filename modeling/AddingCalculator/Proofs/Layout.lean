import AddingCalculator.Proofs.Analysis

/-!
# Layout and segments do not matter

Reading, analysing and translating a program commute with forgetting the places of its parts, and reading passes
over closing tokens. So two texts with the same other tokens have the same code.
-/

namespace AddingCalculator

def Diagnostic.isSymbolError : Diagnostic → Bool
  | duplicateName _ | undeclaredName _ | invalidName _ => true
  | _ => false

def Diagnostic.isSemanticError : Diagnostic → Bool
  | illegalConversion _ _ | nodeExpected _ => true
  | _ => false

def Token.unplaced (t : Token) : Token := { t with span := .origin }

def Token.content (ts : List Token) : List (Token.Kind × Option Token.Value) :=
  (ts.filter fun t => t.kind ≠ .close).map fun t => (t.kind, t.value)

def Identifier.unplaced (x : Identifier) : Identifier := { x with span := .origin }

def Operand.unplaced (x : Operand) : Operand := { x with span := .origin }

def Chain.unplaced : Chain → Chain
  | operand first => operand first.unplaced
  | extend left o _ right => extend left.unplaced o .origin right.unplaced

def Declaration.unplaced (d : Declaration) : Declaration := ⟨d.type, d.target.unplaced, .origin⟩

def Statement.unplaced : Statement → Statement
  | assign target value => assign target.unplaced value.unplaced
  | print name _ => print name .origin

def Program.unplaced (p : Program) : Program :=
  ⟨p.declarations.map Declaration.unplaced, p.statements.map Statement.unplaced⟩

theorem Chain.unplaced_ofOperands (first : Operand) (further : List (Operator × Span × Operand)) :
    (Chain.ofOperands first further).unplaced =
      Chain.ofOperands first.unplaced (further.map fun x => (x.1, .origin, x.2.2.unplaced)) := by
  have hfoldl (c : Chain) : (further.foldl (fun left x => .extend left x.1 x.2.1 x.2.2) c).unplaced =
      (further.map fun x => (x.1, Span.origin, x.2.2.unplaced)).foldl (fun left x => .extend left x.1 x.2.1 x.2.2)
        c.unplaced := by
    induction further generalizing c with
    | nil => rfl
    | cons x further ih => exact ih _
  exact hfoldl _

namespace Grammar

theorem Many.unplaced {α β : Type} {Phrase : List Token → α → Prop} {Phrase' : List Token → β → Prop} {f : α → β}
    (hf : ∀ ts x, Phrase ts x → Phrase' (ts.map Token.unplaced) (f x)) {ts : List Token} {xs : List α}
    (h : Many Phrase ts xs) : Many Phrase' (ts.map Token.unplaced) (xs.map f) := by
  induction h with
  | nil => exact .nil
  | cons h _ ih =>
    rw [List.map_append]
    exact .cons (hf _ _ h) ih

theorem Many.ne_close {α : Type} {Phrase : List Token → α → Prop} (hP : ∀ ts x, Phrase ts x → ∀ t ∈ ts, t.kind ≠ .close)
    {ts : List Token} {xs : List α} (h : Many Phrase ts xs) : ∀ t ∈ ts, t.kind ≠ .close := by
  induction h with
  | nil => exact List.forall_mem_nil _
  | cons h _ ih => exact List.forall_mem_append.mpr ⟨hP _ _ h, ih⟩

theorem Name.unplaced {t : Token} {x : Identifier} (h : Name t x) : Name t.unplaced x.unplaced := by
  cases h
  exact .name _ _

theorem Value.unplaced {t : Token} {x : Operand} (h : Value t x) : Value t.unplaced x.unplaced := by
  cases h
  · exact .name _ _
  · exact .integer _ _
  · exact .decimal _ _

theorem Sign.unplaced {t : Token} {o : Operator} (h : Sign t o) : Sign t.unplaced o := by
  cases h
  · exact .plus _ _
  · exact .minus _ _

theorem Keyword.unplaced {t : Token} {type : DataType} (h : Keyword t type) : Keyword t.unplaced type := by
  cases h
  · exact .float _ _
  · exact .integer _ _

theorem Declares.unplaced (ts : List Token) (d : Declaration) (h : Declares ts d) :
    Declares (ts.map Token.unplaced) d.unplaced := by
  cases h with
  | declare hk hn => exact .declare hk.unplaced hn.unplaced

theorem Further.unplaced (ts : List Token) (x : Operator × Span × Operand) (h : Further ts x) :
    Further (ts.map Token.unplaced) (x.1, .origin, x.2.2.unplaced) := by
  cases h with
  | operand ho hv => exact .operand ho.unplaced hv.unplaced

theorem States.unplaced (ts : List Token) (s : Statement) (h : States ts s) :
    States (ts.map Token.unplaced) s.unplaced := by
  cases h with
  | assign hn ha hv hs =>
    rw [Statement.unplaced, Chain.unplaced_ofOperands]
    exact .assign hn.unplaced ha hv.unplaced (hs.unplaced Further.unplaced)
  | print hp hn =>
    have hprint := States.print (p := Token.unplaced _) hp hn.unplaced
    exact hprint

theorem Declares.ne_close (ts : List Token) (d : Declaration) (h : Declares ts d) : ∀ t ∈ ts, t.kind ≠ .close := by
  cases h with
  | declare hk hn =>
    cases hk <;> cases hn <;> simp

theorem Further.ne_close (ts : List Token) (x : Operator × Span × Operand) (h : Further ts x) :
    ∀ t ∈ ts, t.kind ≠ .close := by
  cases h with
  | operand ho hv =>
    cases ho <;> cases hv <;> simp

theorem States.ne_close (ts : List Token) (s : Statement) (h : States ts s) : ∀ t ∈ ts, t.kind ≠ .close := by
  cases h with
  | assign hn ha hv hs =>
    have hfurther := hs.ne_close Further.ne_close
    cases hn
    cases hv <;> simpa [ha] using hfurther
  | print hp hn =>
    cases hn
    simp [hp]

theorem states_of_pieces {ts : List Token} {sss : List (List Statement)} (h : Many Piece ts sss) :
    Many States (ts.filter fun t => t.kind ≠ .close) sss.flatten := by
  induction h with
  | nil => exact .nil
  | cons h _ ih =>
    rw [List.filter_append, List.flatten_cons]
    cases h with
    | statement h =>
      rw [List.filter_eq_self.mpr (by simpa using h.ne_close)]
      exact .cons h ih
    | close he => simpa [he] using ih

end Grammar

namespace Program

open Grammar

theorem ofTokens_unplaced {ts : List Token} {p : Program} (h : ofTokens ts = .ok p) :
    ofTokens ((ts.filter fun t => t.kind ≠ .close).map Token.unplaced) = .ok p.unplaced := by
  rw [ofTokens_iff_derives] at h ⊢
  have hclosing : (ts ++ [closingToken ts]).filter (fun t => t.kind ≠ .close) = ts.filter fun t => t.kind ≠ .close := by
    rw [List.filter_append, List.filter_singleton]
    exact List.append_nil _
  rw [← hclosing]
  generalize ts ++ [closingToken ts] = us at h
  cases h with
  | @program ds us vs declarations ss sss hd hs hm =>
    obtain ⟨pieces, hp, rfl⟩ := hs.pieces
    obtain ⟨pieces', hp', hpieces⟩ := segments_pieces hm
    have hstates := states_of_pieces (hp.append hp')
    rw [List.flatten_append, hpieces] at hstates
    have hdeclarations : ds.filter (fun t => t.kind ≠ .close) = ds :=
      List.filter_eq_self.mpr (by simpa using hd.ne_close Declares.ne_close)
    rw [List.append_assoc, List.filter_append, hdeclarations, List.map_append]
    generalize hus : ((us ++ vs).filter fun t => t.kind ≠ .close).map Token.unplaced = ws
    have hsegment := Segment.close (e := closingToken (ds.map Token.unplaced ++ ws)) (hstates.unplaced States.unplaced) rfl
    have hderives := Derives.program (hd.unplaced Declares.unplaced) hsegment .nil
    rwa [hus, List.append_nil, List.flatten_nil, List.append_nil, ← List.append_assoc] at hderives

theorem unplaced_eq_of_content {ts ts' : List Token} {p p' : Program} (hp : ofTokens ts = .ok p)
    (hp' : ofTokens ts' = .ok p') (h : Token.content ts = Token.content ts') : p.unplaced = p'.unplaced := by
  have hunplaced (ts : List Token) : (ts.filter fun t => t.kind ≠ .close).map Token.unplaced =
      (Token.content ts).map fun x => ⟨x.1, x.2, .origin⟩ := by
    rw [Token.content, List.map_map]
    rfl
  have hread := ofTokens_unplaced hp
  rw [hunplaced, h, ← hunplaced, ofTokens_unplaced hp'] at hread
  exact (Except.ok.inj hread).symm

end Program

namespace Tree

def unplaced (t : Tree Stamp) : Tree Stamp := t.fold fun m c => .node { m with span := .origin } c

@[simp] theorem unplaced_node (m : Stamp) (c : Construct (Tree Stamp)) :
    (node m c).unplaced = .node { m with span := .origin } (c.map unplaced) := by
  rw [unplaced, fold_node]
  rfl

theorem types_unplaced (t : Tree Stamp) : t.unplaced.types = t.types := by
  induction t with
  | node m c ih => rw [unplaced_node, types_node, types_node, Construct.map_map, c.map_congr ih]

theorem ids_unplaced (t : Tree Stamp) : t.unplaced.ids = t.ids := by
  induction t with
  | node m c ih =>
    rw [unplaced_node, ids_node, ids_node, Construct.children_map, List.flatMap_map, List.flatMap_congr ih]

end Tree

theorem Chain.count_unplaced (c : Chain) : c.unplaced.count = c.count := by
  induction c with
  | operand first => rfl
  | extend left o span right ih => rw [unplaced, count, count, ih]

theorem Operand.stamped_unplaced (x : Operand) (k : NodeId) : x.unplaced.stamped k = (x.stamped k).unplaced := by
  rw [stamped, stamped, Tree.unplaced_node, unplaced]
  cases x.atom <;> rfl

theorem Chain.stamped_unplaced (c : Chain) (k : NodeId) : c.unplaced.stamped k = (c.stamped k).unplaced := by
  induction c with
  | operand first => exact first.stamped_unplaced k
  | extend left o span right ih =>
    simp only [unplaced, stamped, Tree.unplaced_node, Construct.map, ih, right.stamped_unplaced, left.count_unplaced]

theorem stampAll_unplaced {ι : Type} {count : ι → ℕ} {stamped : NodeId → ι → Tree Stamp} {f : ι → ι}
    (hcount : ∀ x, count (f x) = count x) (hstamped : ∀ x k, stamped k (f x) = (stamped k x).unplaced) (k : NodeId)
    (xs : List ι) : stampAll count stamped k (xs.map f) = (stampAll count stamped k xs).map Tree.unplaced := by
  induction xs generalizing k with
  | nil => rfl
  | cons x xs ih => rw [List.map_cons, stampAll, stampAll, List.map_cons, hcount, hstamped, ih]

theorem Program.stamped_unplaced (p : Program) : p.unplaced.stamped = p.stamped.unplaced := by
  have hdeclaration (d : Declaration) (k : NodeId) : d.unplaced.stamped k = (d.stamped k).unplaced := by
    simp only [Declaration.stamped, Declaration.unplaced, Identifier.unplaced, Tree.unplaced_node, Construct.map]
  have hcount (s : Statement) : s.unplaced.count = s.count := by
    cases s with
    | assign target value => rw [Statement.unplaced, Statement.count, Statement.count, value.count_unplaced]
    | print name span => rfl
  have hstatement (s : Statement) (k : NodeId) : s.unplaced.stamped k = (s.stamped k).unplaced := by
    cases s with
    | assign target value =>
      simp only [Statement.unplaced, Statement.stamped, Identifier.unplaced, Tree.unplaced_node, Construct.map,
        value.stamped_unplaced, value.count_unplaced]
    | print name span => simp only [Statement.unplaced, Statement.stamped, Tree.unplaced_node, Construct.map]
  rw [stamped, stamped, Tree.unplaced_node, Construct.map, stampedItems, stampedItems, List.map_append, unplaced,
    stampAll_unplaced (f := Declaration.unplaced) (fun _ => rfl) hdeclaration, stampAll_unplaced hcount hstatement,
    List.length_map]

def Rewrite.unplaced {α : Type} (x : Rewrite α) : Rewrite α := ⟨x.result, x.tree.unplaced, x.next⟩

namespace Rewrite

theorem unplaced_within {α β : Type} (x : Rewrite α) {around around' : Tree Stamp → Tree Stamp}
    {rest rest' : α → Tree Stamp → NodeId → Rewrite β} (ha : ∀ t, (around t).unplaced = around' t.unplaced)
    (hr : ∀ a t k, (rest a t k).unplaced = rest' a t.unplaced k) :
    (x.within around rest).unplaced = x.unplaced.within around' rest' := by
  obtain ⟨result, t, k⟩ := x
  cases result with
  | ok a => exact hr a t k
  | error e =>
    rw [within, unplaced, ha]
    rfl

theorem unplaced_demand (x : Rewrite (Option DataType)) : x.demand.unplaced = x.unplaced.demand := rfl

end Rewrite

namespace Tree

theorem widenTo_unplaced (target : DataType) (t : Tree Stamp) (k : NodeId) :
    (t.widenTo target k).unplaced = t.unplaced.widenTo target k := by
  induction t generalizing k with
  | node m c ih =>
    obtain ⟨id, span, type⟩ := m
    rw [unplaced_node]
    unfold widenTo
    cases type with
    | none => simp only [Rewrite.unplaced, unplaced_node]
    | some source =>
      dsimp only
      split_ifs
      · simp only [Rewrite.unplaced, unplaced_node]
      · simp only [Rewrite.unplaced, unplaced_node]
      · cases c with
        | compute o left right =>
          simp only [Construct.map]
          rw [← ih left (by simp [Construct.children])]
          apply Rewrite.unplaced_within
          · intro t
            rw [unplaced_node, Construct.map]
          · intro _ left k
            rw [← ih right (by simp [Construct.children])]
            apply Rewrite.unplaced_within
            · intro t
              rw [unplaced_node, Construct.map]
            · intro _ right k
              simp only [Rewrite.unplaced, unplaced_node, Construct.map]
        | _ => simp only [Rewrite.unplaced, unplaced_node, Construct.map]

theorem inferItems_unplaced {table : SymbolTable} {items : List (Tree Stamp)}
    (hi : ∀ t ∈ items, ∀ k, (t.infer table k).unplaced = t.unplaced.infer table k) (m : Stamp)
    (finished : List (Tree Stamp)) (k : NodeId) :
    (inferItems table m finished items k).unplaced =
      inferItems table { m with span := .origin } (finished.map unplaced) (items.map unplaced) k := by
  induction items generalizing finished k with
  | nil => simp only [inferItems, List.map_nil, Rewrite.unplaced, unplaced_node, Construct.map]
  | cons item items ih =>
    rw [List.map_cons, inferItems, inferItems, ← hi item List.mem_cons_self]
    apply Rewrite.unplaced_within
    · intro t
      rw [unplaced_node, Construct.map, List.map_append, List.map_cons]
    · intro _ item k
      rw [ih fun t ht => hi t (List.mem_cons_of_mem _ ht), List.map_append, List.map_singleton]

theorem infer_unplaced (table : SymbolTable) (t : Tree Stamp) (k : NodeId) :
    (t.infer table k).unplaced = t.unplaced.infer table k := by
  induction t generalizing k with
  | node m c ih =>
    -- What is put around a part that fails is the same node, with the part in its place.
    have hmap {c d : Construct (Tree Stamp)} (h : c.map unplaced = d) :
        (node m c).unplaced = node { m with span := .origin } d := by
      rw [unplaced_node, h]
    cases c with
    | program items =>
      rw [unplaced_node, Construct.map, infer, infer]
      exact inferItems_unplaced ih m [] k
    | declaration type target =>
      rw [unplaced_node, Construct.map, infer, infer, ← ih target (by simp [Construct.children]), ← Rewrite.unplaced_demand]
      refine Rewrite.unplaced_within _ (fun _ => hmap rfl) fun _ target k => ?_
      simp only [Rewrite.unplaced, unplaced_node, Construct.map]
    | assign target value =>
      rw [unplaced_node, Construct.map, infer, infer, ← ih target (by simp [Construct.children]), ← Rewrite.unplaced_demand]
      refine Rewrite.unplaced_within _ (fun _ => hmap rfl) fun type target k => ?_
      rw [← ih value (by simp [Construct.children]), ← Rewrite.unplaced_demand]
      refine Rewrite.unplaced_within _ (fun _ => hmap rfl) fun _ value k => ?_
      rw [← widenTo_unplaced]
      refine Rewrite.unplaced_within _ (fun _ => hmap rfl) fun _ value k => ?_
      simp only [Rewrite.unplaced, unplaced_node, Construct.map]
    | compute o left right =>
      rw [unplaced_node, Construct.map, infer, infer, ← ih left (by simp [Construct.children]), ← Rewrite.unplaced_demand]
      refine Rewrite.unplaced_within _ (fun _ => hmap rfl) fun leftType left k => ?_
      rw [← ih right (by simp [Construct.children]), ← Rewrite.unplaced_demand]
      refine Rewrite.unplaced_within _ (fun _ => hmap rfl) fun rightType right k => ?_
      rw [← widenTo_unplaced]
      refine Rewrite.unplaced_within _ (fun _ => hmap rfl) fun _ left k => ?_
      rw [← widenTo_unplaced]
      refine Rewrite.unplaced_within _ (fun _ => hmap rfl) fun _ right k => ?_
      simp only [Rewrite.unplaced, unplaced_node, Construct.map]
    | reference name | print name =>
      rw [unplaced_node, Construct.map, infer, infer, lookUp, lookUp]
      split <;> simp only [Rewrite.unplaced, unplaced_node, Construct.map]
    | constant literal => simp only [infer, Rewrite.unplaced, unplaced_node, Construct.map]
    | convert operand =>
      rw [unplaced_node, Construct.map, infer, infer, ← ih operand (by simp [Construct.children]), ← Rewrite.unplaced_demand]
      refine Rewrite.unplaced_within _ (fun _ => hmap rfl) fun _ operand k => ?_
      simp only [Rewrite.unplaced, unplaced_node, Construct.map]

end Tree

theorem Store.Keeps.analyse_congr {s s' : Store} {parent parent' : Option NodeId} {t t' : Tree Stamp}
    (hs : s.Keeps parent t) (hs' : s'.Keeps parent' t') (hid : t.id = root) (hid' : t'.id = root) (hsize : s.size = s'.size)
    (h : t.unplaced = t'.unplaced) :
    (s.analyse.map fun a => (a.table, a.store.tree?)) = s'.analyse.map fun a => (a.table, a.store.tree?) := by
  have hcollect : s.collect = s'.collect := by
    unfold collect
    rw [hs.holds.tree? hid, hs'.holds.tree? hid', ← t.types_unplaced, ← t'.types_unplaced, h, hsize]
  unfold analyse
  rw [hcollect]
  split
  · rfl
  · rename_i table _
    obtain ⟨r, hrun, hstep⟩ := hs.findTypes hid table
    obtain ⟨r', hrun', hstep'⟩ := hs'.findTypes hid' table
    have hinfer : (t.infer table s.size).unplaced = (t'.infer table s'.size).unplaced := by
      rw [Tree.infer_unplaced, Tree.infer_unplaced, h, hsize]
    have hresult : (t.infer table s.size).result = (t'.infer table s'.size).result := by
      change (t.infer table s.size).unplaced.result = (t'.infer table s'.size).unplaced.result
      rw [hinfer]
    have htypes : (t.infer table s.size).tree.types = (t'.infer table s'.size).tree.types := by
      rw [← Tree.types_unplaced, ← (t'.infer table s'.size).tree.types_unplaced]
      exact congrArg (fun x => x.tree.types) hinfer
    have htree := hstep.holds.tree? (by rw [Tree.infer_id, hid])
    have htree' := hstep'.holds.tree? (by rw [Tree.infer_id, hid'])
    rw [hrun, hrun', hresult]
    cases (t'.infer table s'.size).result with
    | error e => rfl
    | ok found =>
      simp only [Except.map, htree, htree', htypes]

namespace Program

theorem size_store (p : Program) : p.store.size = p.stamped.ids.length := by
  have hlength := p.store_lists.ids.length_eq
  rw [List.length_range] at hlength
  exact hlength.symm

theorem analyse_congr {p p' : Program} (h : p.unplaced = p'.unplaced) :
    (p.store.analyse.map fun a => (a.table, a.store.tree?)) =
      p'.store.analyse.map fun a => (a.table, a.store.tree?) := by
  have hstamped : p.stamped.unplaced = p'.stamped.unplaced := by
    rw [← stamped_unplaced, ← stamped_unplaced, h]
  refine p.store_keeps.analyse_congr p'.store_keeps rfl rfl ?_ hstamped
  rw [size_store, size_store, ← Tree.ids_unplaced, hstamped, Tree.ids_unplaced]

theorem compile_of_parse {source : String} {s : Store} (h : parse source = .ok s) :
    compile source = s.analyse >>= fun a => a.store.code := by
  unfold compile compileFor
  rw [h]
  rfl

theorem isSymbolError_or_isSemanticError {p : Program} {e : Diagnostic}
    (h : (p.store.analyse >>= fun a => a.store.code) = .error e) : e.isSymbolError ∨ e.isSemanticError := by
  rcases p.analyse_cases with ⟨d, he⟩ | ⟨name, he⟩ | he | ⟨-, -, -, a, t, ha, hpasses⟩
  · rw [he] at h
    cases h
    unfold Declaration.fault
    split <;> exact .inl rfl
  · rw [he] at h
    cases h
    exact .inl rfl
  · rw [he] at h
    cases h
    exact .inr rfl
  · obtain ⟨code, hcode⟩ := hpasses.code_eq_ok
    rw [ha, ok_bind, hcode] at h
    cases h

theorem compile_eq_of_content (source source' : String) (ts ts' : List Token) (s s' : Store)
    (hts : Token.scan source = .ok ts) (hts' : Token.scan source' = .ok ts') (hs : parse source = .ok s)
    (hs' : parse source' = .ok s') (h : Token.content ts = Token.content ts') :
    compile source = compile source' ∧
      (∀ e, compile source = .error e → e.isSymbolError ∨ e.isSemanticError) ∧
      s.analyse.map Analysis.table = s'.analyse.map Analysis.table := by
  obtain ⟨us, p, hus, hp, rfl⟩ := parse_eq_ok.mp hs
  obtain ⟨us', p', hus', hp', rfl⟩ := parse_eq_ok.mp hs'
  obtain rfl : us = ts := Except.ok.inj (hus.symm.trans hts)
  obtain rfl : us' = ts' := Except.ok.inj (hus'.symm.trans hts')
  have hanalyse := analyse_congr (unplaced_eq_of_content hp hp' h)
  rw [compile_of_parse hs, compile_of_parse hs']
  refine ⟨?_, fun e => isSymbolError_or_isSemanticError, ?_⟩
  · rcases cases_of_map_eq hanalyse with ⟨e, he, he'⟩ | ⟨a, a', ha, ha', heq⟩
    · rw [he, he']
    · rw [ha, ha', ok_bind, ok_bind, Store.code, Store.code, (Prod.mk.inj heq).2]
  · rcases cases_of_map_eq hanalyse with ⟨e, he, he'⟩ | ⟨a, a', ha, ha', heq⟩
    · rw [he, he']
    · rw [ha, ha', Except.map, Except.map, (Prod.mk.inj heq).1]

def spreadSource : String := "f a\n  i b\n$\nb=7 $\na = b+2.-3\n$p a"

theorem compile_eq_of_content_spreadSource : ∃ ts ts' s s', Token.scan mixedSource = .ok ts ∧
    Token.scan spreadSource = .ok ts' ∧ parse mixedSource = .ok s ∧ parse spreadSource = .ok s' ∧
    Token.content ts = Token.content ts' ∧ compile mixedSource = compile spreadSource ∧
    (∀ e, compile mixedSource = .error e → e.isSymbolError ∨ e.isSemanticError) ∧
    s.analyse.map Analysis.table = s'.analyse.map Analysis.table := by
  let content := ((Token.scan mixedSource).toOption.map Token.content).getD []
  have hmixed : (Token.scan mixedSource).toOption.map Token.content = some content := by decide +kernel
  have hspread : (Token.scan spreadSource).toOption.map Token.content = some content := by decide +kernel
  have hparse : (parse mixedSource).toOption.map (fun _ => ()) = some () := by decide +kernel
  have hparse' : (parse spreadSource).toOption.map (fun _ => ()) = some () := by decide +kernel
  obtain ⟨ts, hts, hcontent⟩ := exists_of_toOption hmixed
  obtain ⟨ts', hts', hcontent'⟩ := exists_of_toOption hspread
  obtain ⟨s, hs, -⟩ := exists_of_toOption hparse
  obtain ⟨s', hs', -⟩ := exists_of_toOption hparse'
  have h : Token.content ts = Token.content ts' := by rw [hcontent, hcontent']
  exact ⟨ts, ts', s, s', hts, hts', hs, hs', h, compile_eq_of_content _ _ ts ts' s s' hts hts' hs hs' h⟩

end Program

end AddingCalculator
