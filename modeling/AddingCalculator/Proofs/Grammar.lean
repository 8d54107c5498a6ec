import AddingCalculator.Compilation
import AddingCalculator.Proofs.Computation
import AddingCalculator.Proofs.ProgramTree

/-!
# The grammar of programs

The tokens of a program are

    declarations statements close { statements close }

and each derivation in this grammar gives a program. A reader accepts the tokens that can be derived and no others:
whatever a reader has read so far is the front part of a derivation, and tokens that can be derived lead a reader
from part to part.
-/

namespace AddingCalculator

def Chain.ofOperands (first : Operand) (further : List (Operator × Span × Operand)) : Chain :=
  further.foldl (fun left x => .extend left x.1 x.2.1 x.2.2) (.operand first)

namespace Grammar

inductive Name : Token → Identifier → Prop
  | name (letter : Char) (span : Span) : Name ⟨.name, some (.name letter), span⟩ ⟨letter, span⟩

inductive Value : Token → Operand → Prop
  | name (letter : Char) (span : Span) : Value ⟨.name, some (.name letter), span⟩ ⟨.name letter, span⟩
  | integer (n : ℤ) (span : Span) : Value ⟨.integer, some (.integer n), span⟩ ⟨.literal (.integer n), span⟩
  | decimal (d : Decimal) (span : Span) : Value ⟨.decimal, some (.decimal d), span⟩ ⟨.literal (.decimal d), span⟩

inductive Sign : Token → Operator → Prop
  | plus (v : Option Token.Value) (span : Span) : Sign ⟨.plus, v, span⟩ .add
  | minus (v : Option Token.Value) (span : Span) : Sign ⟨.minus, v, span⟩ .subtract

inductive Keyword : Token → DataType → Prop
  | float (v : Option Token.Value) (span : Span) : Keyword ⟨.floatDeclaration, v, span⟩ .float
  | integer (v : Option Token.Value) (span : Span) : Keyword ⟨.integerDeclaration, v, span⟩ .integer

inductive Many {α : Type} (Phrase : List Token → α → Prop) : List Token → List α → Prop
  | nil : Many Phrase [] []
  | cons {ts us : List Token} {x : α} {xs : List α} (h : Phrase ts x) (hs : Many Phrase us xs) :
      Many Phrase (ts ++ us) (x :: xs)

inductive Declares : List Token → Declaration → Prop
  | declare {k n : Token} {type : DataType} {target : Identifier} (hk : Keyword k type) (hn : Name n target) :
      Declares [k, n] ⟨type, target, k.span⟩

inductive Further : List Token → Operator × Span × Operand → Prop
  | operand {o v : Token} {operator : Operator} {x : Operand} (ho : Sign o operator) (hv : Value v x) :
      Further [o, v] (operator, o.span, x)

inductive States : List Token → Statement → Prop
  | assign {n a v : Token} {ts : List Token} {target : Identifier} {first : Operand}
      {further : List (Operator × Span × Operand)} (hn : Name n target) (ha : a.kind = .assign) (hv : Value v first)
      (hs : Many Further ts further) : States (n :: a :: v :: ts) (.assign target (.ofOperands first further))
  | print {p n : Token} {name : Identifier} (hp : p.kind = .print) (hn : Name n name) :
      States [p, n] (.print name.letter p.span)

inductive Segment : List Token → List Statement → Prop
  | close {ts : List Token} {e : Token} {ss : List Statement} (h : Many States ts ss) (he : e.kind = .close) :
      Segment (ts ++ [e]) ss

inductive Derives : List Token → Program → Prop
  | program {ts us vs : List Token} {ds : List Declaration} {ss : List Statement} {sss : List (List Statement)}
      (hd : Many Declares ts ds) (hs : Segment us ss) (hm : Many Segment vs sss) :
      Derives (ts ++ us ++ vs) ⟨ds, ss ++ sss.flatten⟩

theorem Many.single {α : Type} {Phrase : List Token → α → Prop} {ts : List Token} {x : α} (h : Phrase ts x) :
    Many Phrase ts [x] := by
  have hsingle := Many.cons h .nil
  rwa [List.append_nil] at hsingle

theorem Many.append {α : Type} {Phrase : List Token → α → Prop} {ts us : List Token} {xs ys : List α}
    (h : Many Phrase ts xs) (h' : Many Phrase us ys) : Many Phrase (ts ++ us) (xs ++ ys) := by
  induction h with
  | nil => exact h'
  | cons h _ ih =>
    rw [List.append_assoc, List.cons_append]
    exact .cons h ih

theorem States.extend {ts : List Token} {o v : Token} {target : Identifier} {value : Chain} {operator : Operator}
    {x : Operand} (h : States ts (.assign target value)) (ho : Sign o operator) (hv : Value v x) :
    States (ts ++ [o, v]) (.assign target (.extend value operator o.span x)) := by
  cases h with
  | @assign n a w us _ first further hn ha hw hs =>
    have hchain : Chain.extend (.ofOperands first further) operator o.span x =
        .ofOperands first (further ++ [(operator, o.span, x)]) := by
      rw [Chain.ofOperands, Chain.ofOperands, List.foldl_append]
      rfl
    rw [hchain]
    exact .assign hn ha hw (hs.append (.single (.operand ho hv)))

theorem keyword_iff {t : Token} {type : DataType} : Keyword t type ↔ t.kind.declares? = some type := by
  constructor
  · rintro (_ | _) <;> rfl
  · intro h
    obtain ⟨kind, v, span⟩ := t
    cases kind <;> cases h
    · exact .float v span
    · exact .integer v span

theorem sign_iff {t : Token} {o : Operator} : Sign t o ↔ t.kind.operator? = some o := by
  constructor
  · rintro (_ | _) <;> rfl
  · intro h
    obtain ⟨kind, v, span⟩ := t
    cases kind <;> cases h
    · exact .plus v span
    · exact .minus v span

theorem value_iff {t : Token} {x : Operand} : Value t x ↔ t.operand? = some x := by
  constructor
  · intro h
    cases h <;> rfl
  · intro h
    obtain ⟨kind, v, span⟩ := t
    rcases v with _ | (c | n | d) <;> cases kind <;> cases h
    · exact .name c span
    · exact .integer n span
    · exact .decimal d span

theorem name_iff {t : Token} {x : Identifier} : Name t x ↔ t.kind = .name ∧ t.identifier = .ok x := by
  constructor
  · intro h
    cases h
    exact ⟨rfl, rfl⟩
  · rintro ⟨hk, hx⟩
    obtain ⟨kind, v, span⟩ := t
    cases hk
    rcases v with _ | (c | n | d) <;> cases hx
    exact .name c span

inductive Piece : List Token → List Statement → Prop
  | statement {ts : List Token} {s : Statement} (h : States ts s) : Piece ts [s]
  | close {e : Token} (he : e.kind = .close) : Piece [e] []

theorem Segment.pieces {ts : List Token} {ss : List Statement} (h : Segment ts ss) :
    ∃ sss, Many Piece ts sss ∧ sss.flatten = ss := by
  have hstatements {ts : List Token} {ss : List Statement} (h : Many States ts ss) :
      ∃ sss, Many Piece ts sss ∧ sss.flatten = ss := by
    induction h with
    | nil => exact ⟨[], .nil, rfl⟩
    | cons h _ ih =>
      obtain ⟨sss, hs, rfl⟩ := ih
      exact ⟨_, .cons (.statement h) hs, rfl⟩
  cases h with
  | close h he =>
    obtain ⟨sss, hs, rfl⟩ := hstatements h
    exact ⟨_, hs.append (.single (.close he)), by simp⟩

theorem segments_pieces {ts : List Token} {sss : List (List Statement)} (h : Many Segment ts sss) :
    ∃ pieces, Many Piece ts pieces ∧ pieces.flatten = sss.flatten := by
  induction h with
  | nil => exact ⟨[], .nil, rfl⟩
  | cons h _ ih =>
    obtain ⟨pieces, hp, rfl⟩ := h.pieces
    obtain ⟨pieces', hp', hs⟩ := ih
    exact ⟨_, hp.append hp', by rw [List.flatten_append, hs, List.flatten_cons]⟩

theorem segments_of_pieces {ts : List Token} {sss : List (List Statement)} {e : Token} (h : Many Piece ts sss)
    (he : e.kind = .close) :
    ∃ us vs ss sss', ts ++ [e] = us ++ vs ∧ Segment us ss ∧ Many Segment vs sss' ∧
      sss.flatten = ss ++ sss'.flatten := by
  -- A statement joins the first of the segments behind it, and a closing token is a segment of its own.
  induction h with
  | nil => exact ⟨[e], [], [], [], rfl, .close .nil he, .nil, rfl⟩
  | @cons ts _ ss _ h _ ih =>
    obtain ⟨us, vs, ss', sss', hts, hs, hm, hss⟩ := ih
    cases h with
    | statement h =>
      cases hs with
      | @close us e' _ hs he' =>
        refine ⟨ts ++ us ++ [e'], vs, _, sss', ?_, .close (.cons h hs) he', hm, ?_⟩
        · simp only [List.append_assoc] at hts ⊢
          rw [hts]
        · rw [List.flatten_cons, hss]
          rfl
    | @close e' he' =>
      refine ⟨[] ++ [e'], us ++ vs, [], ss' :: sss', ?_, .close .nil he', .cons hs hm, ?_⟩
      · rw [List.append_assoc, hts, List.nil_append]
      · rw [List.flatten_cons, hss]
        rfl

def Body (ts : List Token) (ds : List Declaration) (ss : List Statement) : Prop :=
  ∃ us vs sss, ts = us ++ vs ∧ Many Declares us ds ∧ Many Piece vs sss ∧ ss = sss.flatten

theorem Body.piece {ts us : List Token} {ds : List Declaration} {ss ss' : List Statement} (h : Body ts ds ss)
    (hp : Piece us ss') : Body (ts ++ us) ds (ss ++ ss') := by
  obtain ⟨ws, vs, sss, rfl, hd, hs, rfl⟩ := h
  refine ⟨ws, vs ++ us, sss ++ [ss'], List.append_assoc .., hd, hs.append (.single hp), ?_⟩
  rw [List.flatten_append, List.flatten_singleton]

inductive Viable : List Token → Program.Reader → Prop
  | declaration {ts : List Token} {ds : List Declaration} (hd : Many Declares ts ds) :
      Viable ts ⟨ds.reverse, [], .declaration⟩
  | declaredName {ts : List Token} {ds : List Declaration} {k : Token} {type : DataType} (hd : Many Declares ts ds)
      (hk : Keyword k type) : Viable (ts ++ [k]) ⟨ds.reverse, [], .declaredName type k.span⟩
  | statement {ts : List Token} {ds : List Declaration} {ss : List Statement} (hb : Body ts ds ss) :
      Viable ts ⟨ds.reverse, ss.reverse, .statement⟩
  | assignment {ts : List Token} {ds : List Declaration} {ss : List Statement} {n : Token} {target : Identifier}
      (hb : Body ts ds ss) (hn : Name n target) : Viable (ts ++ [n]) ⟨ds.reverse, ss.reverse, .assignment target⟩
  | firstOperand {ts : List Token} {ds : List Declaration} {ss : List Statement} {n a : Token} {target : Identifier}
      (hb : Body ts ds ss) (hn : Name n target) (ha : a.kind = .assign) :
      Viable (ts ++ [n, a]) ⟨ds.reverse, ss.reverse, .firstOperand target⟩
  | operator {ts us : List Token} {ds : List Declaration} {ss : List Statement} {target : Identifier} {value : Chain}
      (hb : Body ts ds ss) (hs : States us (.assign target value)) :
      Viable (ts ++ us) ⟨ds.reverse, ss.reverse, .operator target value⟩
  | operand {ts us : List Token} {ds : List Declaration} {ss : List Statement} {target : Identifier} {value : Chain}
      {o : Token} {operator : Operator} (hb : Body ts ds ss) (hs : States us (.assign target value))
      (ho : Sign o operator) :
      Viable (ts ++ us ++ [o]) ⟨ds.reverse, ss.reverse, .operand target value operator o.span⟩
  | printedName {ts : List Token} {ds : List Declaration} {ss : List Statement} {p : Token} (hb : Body ts ds ss)
      (hp : p.kind = .print) : Viable (ts ++ [p]) ⟨ds.reverse, ss.reverse, .printedName p.span⟩

end Grammar

namespace Program.Reader

open Grammar

theorem readName_ok {r r' : Reader} {t : Token} {next : Identifier → Reader} (h : r.readName t next = .ok r') :
    ∃ x, Name t x ∧ r' = next x := by
  unfold readName at h
  split at h
  · rename_i hk
    obtain ⟨x, hx, rfl⟩ := map_eq_ok.mp h
    exact ⟨x, name_iff.mpr ⟨hk, hx⟩, rfl⟩
  · cases h

theorem readOperand_ok {r r' : Reader} {t : Token} {target : Identifier} {complete : Operand → Chain}
    (h : r.readOperand t target complete = .ok r') :
    ∃ x, Value t x ∧ r' = { r with stage := .operator target (complete x) } := by
  unfold readOperand at h
  split at h
  · rename_i x hx
    cases h
    exact ⟨x, value_iff.mpr hx, rfl⟩
  · cases h

theorem begin_ok {r r' : Reader} {ss : List Statement} {t : Token} (h : r.begin ss t = .ok r') :
    (∃ x, Name t x ∧ r' = ⟨r.declarations, ss, .assignment x⟩) ∨
      (t.kind = .print ∧ r' = ⟨r.declarations, ss, .printedName t.span⟩) ∨
      (t.kind = .close ∧ r' = ⟨r.declarations, ss, .statement⟩) := by
  unfold begin at h
  split at h
  · rename_i hk
    obtain ⟨x, hx, rfl⟩ := map_eq_ok.mp h
    exact .inl ⟨x, name_iff.mpr ⟨hk, hx⟩, rfl⟩
  · rename_i hk
    cases h
    exact .inr (.inl ⟨hk, rfl⟩)
  · rename_i hk
    cases h
    exact .inr (.inr ⟨hk, rfl⟩)
  · cases h

theorem begin_viable {r r' : Reader} {ts : List Token} {ds : List Declaration} {ss : List Statement} {t : Token}
    (hb : Body ts ds ss) (hr : r.declarations = ds.reverse) (h : r.begin ss.reverse t = .ok r') :
    Viable (ts ++ [t]) r' := by
  rcases begin_ok h with ⟨x, hn, rfl⟩ | ⟨hk, rfl⟩ | ⟨hk, rfl⟩
  · rw [hr]
    exact .assignment hb hn
  · rw [hr]
    exact .printedName hb hk
  · have hpiece := Viable.statement (hb.piece (.close hk))
    rw [hr]
    rwa [List.append_nil] at hpiece

theorem step_viable {r r' : Reader} {ts : List Token} {t : Token} (hv : Viable ts r) (h : r.step t = .ok r') :
    Viable (ts ++ [t]) r' := by
  cases hv with
  | @declaration _ ds hd =>
    unfold step at h
    dsimp only at h
    split at h
    · rename_i type hk
      cases h
      exact .declaredName hd (keyword_iff.mpr hk)
    · have hbody : Body ts ds [] := ⟨ts, [], [], (List.append_nil ts).symm, hd, .nil, rfl⟩
      exact begin_viable hbody rfl h
  | @declaredName us ds k type hd hk =>
    obtain ⟨x, hn, rfl⟩ := readName_ok h
    have hdeclared := Viable.declaration (hd.append (.single (.declare hk hn)))
    rwa [List.reverse_append, ← List.singleton_append, ← List.append_assoc] at hdeclared
  | statement hb => exact begin_viable hb rfl h
  | @assignment us ds ss n target hb hn =>
    unfold step at h
    dsimp only at h
    split at h
    · rename_i ha
      cases h
      rw [List.append_assoc]
      exact .firstOperand hb hn ha
    · cases h
  | firstOperand hb hn ha =>
    obtain ⟨x, hv, rfl⟩ := readOperand_ok h
    rw [List.append_assoc]
    exact .operator hb (.assign hn ha hv .nil)
  | @operator us vs ds ss target value hb hs =>
    unfold step at h
    dsimp only at h
    split at h
    · rename_i o ho
      cases h
      exact .operand hb hs (sign_iff.mpr ho)
    · have hpiece := hb.piece (.statement hs)
      exact begin_viable hpiece rfl (by rwa [List.reverse_append])
  | operand hb hs ho =>
    obtain ⟨x, hv, rfl⟩ := readOperand_ok h
    rw [List.append_assoc, List.append_assoc]
    exact .operator hb (hs.extend ho hv)
  | printedName hb hp =>
    obtain ⟨x, hn, rfl⟩ := readName_ok h
    have hpiece := Viable.statement (hb.piece (.statement (.print hp hn)))
    rwa [List.reverse_append, ← List.singleton_append, ← List.append_assoc] at hpiece

theorem foldlM_viable {r : Reader} {ts : List Token} (h : ts.foldlM step start = .ok r) : Viable ts r := by
  induction ts using List.reverseRecOn generalizing r with
  | nil =>
    cases h
    exact .declaration .nil
  | append_singleton ts t ih =>
    obtain ⟨r', hr, hstep⟩ := foldlM_concat_eq_ok.mp h
    exact step_viable (ih hr) hstep

def completed (r : Reader) : Option (List Statement) :=
  match r.stage with
  | .declaration | .statement => some r.statements
  | .operator target value => some (.assign target value :: r.statements)
  | _ => none

theorem Viable.body {r : Reader} {ts : List Token} {ss : List Statement} (h : Viable ts r)
    (hss : r.completed = some ss) : Body ts r.declarations.reverse ss.reverse := by
  cases h with
  | declaration hd =>
    cases hss
    rw [List.reverse_reverse]
    exact ⟨ts, [], [], (List.append_nil ts).symm, hd, .nil, rfl⟩
  | statement hb =>
    cases hss
    rwa [List.reverse_reverse, List.reverse_reverse]
  | operator hb hs =>
    cases hss
    rw [List.reverse_reverse, List.reverse_cons, List.reverse_reverse]
    exact hb.piece (.statement hs)
  | _ => cases hss

theorem step_eq_begin {r : Reader} {ss : List Statement} {t : Token} (h : r.completed = some ss)
    (hd : t.kind.declares? = none) (ho : t.kind.operator? = none) : r.step t = r.begin ss t := by
  obtain ⟨ds, ss', stage⟩ := r
  cases stage <;> cases h
  · simp only [step, hd]
  · rfl
  · simp only [step, ho]

theorem step_close {r r' : Reader} {t : Token} (ht : t.kind = .close) (h : r.step t = .ok r') :
    ∃ ss, r.completed = some ss ∧ r' = ⟨r.declarations, ss, .statement⟩ := by
  cases hss : r.completed with
  | some ss =>
    rw [step_eq_begin hss (by rw [ht]; rfl) (by rw [ht]; rfl), begin, ht] at h
    cases h
    exact ⟨ss, rfl, rfl⟩
  | none =>
    have hname (x : Identifier) : ¬ Name t x := fun hn => by
      rw [(name_iff.mp hn).1] at ht
      cases ht
    have hvalue (x : Operand) : ¬ Value t x := fun hv => by
      cases hv <;> cases ht
    obtain ⟨ds, ss', stage⟩ := r
    cases stage with
    | declaration | statement | operator => cases hss
    | declaredName | printedName =>
      obtain ⟨x, hn, -⟩ := readName_ok h
      exact absurd hn (hname x)
    | firstOperand | operand =>
      obtain ⟨x, hv, -⟩ := readOperand_ok h
      exact absurd hv (hvalue x)
    | assignment =>
      simp only [step, ht] at h
      cases h

theorem readName_eq {r : Reader} {t : Token} {x : Identifier} (h : Name t x) (next : Identifier → Reader) :
    r.readName t next = .ok (next x) := by
  cases h
  rfl

theorem readOperand_eq {r : Reader} {t : Token} {x : Operand} (h : Value t x) (target : Identifier)
    (complete : Operand → Chain) :
    r.readOperand t target complete = .ok { r with stage := .operator target (complete x) } := by
  rw [readOperand, value_iff.mp h]

theorem foldlM_declarations {ts : List Token} {ds : List Declaration} (h : Many Declares ts ds)
    (done : List Declaration) :
    ts.foldlM step ⟨done, [], .declaration⟩ = .ok ⟨ds.reverse ++ done, [], .declaration⟩ := by
  induction h generalizing done with
  | nil => rfl
  | cons h _ ih =>
    cases h with
    | @declare k n type target hk hn =>
      have hkeyword : step ⟨done, [], .declaration⟩ k = .ok ⟨done, [], .declaredName type k.span⟩ := by
        simp only [step, keyword_iff.mp hk]
      rw [List.reverse_cons, List.append_assoc]
      exact foldlM_append_eq_ok.mpr ⟨_, bind_eq_ok.mpr ⟨_, hkeyword, bind_eq_ok.mpr ⟨_, readName_eq hn _, rfl⟩⟩, ih _⟩

theorem foldlM_further {ts : List Token} {further : List (Operator × Span × Operand)} (h : Many Further ts further)
    (ds : List Declaration) (ss : List Statement) (target : Identifier) (value : Chain) :
    ts.foldlM step ⟨ds, ss, .operator target value⟩ =
      .ok ⟨ds, ss, .operator target (further.foldl (fun left x => .extend left x.1 x.2.1 x.2.2) value)⟩ := by
  induction h generalizing value with
  | nil => rfl
  | cons h _ ih =>
    cases h with
    | @operand o v operator x ho hv =>
      have hsign : step ⟨ds, ss, .operator target value⟩ o = .ok ⟨ds, ss, .operand target value operator o.span⟩ := by
        simp only [step, sign_iff.mp ho]
      exact foldlM_append_eq_ok.mpr
        ⟨_, bind_eq_ok.mpr ⟨_, hsign, bind_eq_ok.mpr ⟨_, readOperand_eq hv _ _, rfl⟩⟩, ih _⟩

theorem foldlM_statement {r : Reader} {ts : List Token} {s : Statement} {ss : List Statement} (h : States ts s)
    (hr : r.completed = some ss) :
    ∃ r', ts.foldlM step r = .ok r' ∧ r'.completed = some (s :: ss) ∧ r'.declarations = r.declarations := by
  cases h with
  | @assign n a v ts target first further hn ha hv hs =>
    have hname : r.step n = .ok ⟨r.declarations, ss, .assignment target⟩ := by
      cases hn
      exact step_eq_begin hr rfl rfl
    have hassign : step ⟨r.declarations, ss, .assignment target⟩ a =
        .ok ⟨r.declarations, ss, .firstOperand target⟩ := by
      simp only [step, ha, if_true]
    have hfirst := readOperand_eq (r := ⟨r.declarations, ss, .firstOperand target⟩) hv target .operand
    have hfurther := foldlM_further hs r.declarations ss target (.operand first)
    exact ⟨_, bind_eq_ok.mpr ⟨_, hname, bind_eq_ok.mpr ⟨_, hassign, bind_eq_ok.mpr ⟨_, hfirst, hfurther⟩⟩⟩, rfl, rfl⟩
  | @print p n name hp hn =>
    have hprint : r.step p = .ok ⟨r.declarations, ss, .printedName p.span⟩ := by
      rw [step_eq_begin hr (by rw [hp]; rfl) (by rw [hp]; rfl), begin, hp]
    exact ⟨_, bind_eq_ok.mpr ⟨_, hprint, bind_eq_ok.mpr ⟨_, readName_eq hn _, rfl⟩⟩, rfl, rfl⟩

theorem foldlM_pieces {r : Reader} {ts : List Token} {sss : List (List Statement)} {ss : List Statement}
    (h : Many Piece ts sss) (hr : r.completed = some ss) :
    ∃ r', ts.foldlM step r = .ok r' ∧ r'.completed = some (sss.flatten.reverse ++ ss) ∧
      r'.declarations = r.declarations := by
  induction h generalizing r ss with
  | nil => exact ⟨r, rfl, hr, rfl⟩
  | cons h _ ih =>
    cases h with
    | statement h =>
      obtain ⟨r', hread, hr', hd⟩ := foldlM_statement h hr
      obtain ⟨r'', hread', hr'', hd'⟩ := ih hr'
      refine ⟨r'', foldlM_append_eq_ok.mpr ⟨r', hread, hread'⟩, ?_, hd'.trans hd⟩
      rw [hr'', List.flatten_cons, List.reverse_append, List.append_assoc]
      rfl
    | @close e he =>
      have hclose : r.step e = .ok ⟨r.declarations, ss, .statement⟩ := by
        rw [step_eq_begin hr (by rw [he]; rfl) (by rw [he]; rfl), begin, he]
      obtain ⟨r', hread, hr', hd⟩ := ih (r := ⟨r.declarations, ss, .statement⟩) rfl
      exact ⟨r', bind_eq_ok.mpr ⟨_, hclose, hread⟩, hr', hd⟩

theorem foldlM_derives {ts : List Token} {p : Program} (h : Derives ts p) :
    ∃ r, ts.foldlM step start = .ok r ∧ r.completed = some p.statements.reverse ∧
      r.declarations = p.declarations.reverse := by
  cases h with
  | @program us vs ws ds ss sss hd hs hm =>
    obtain ⟨pieces, hp, rfl⟩ := hs.pieces
    obtain ⟨pieces', hp', hpieces⟩ := segments_pieces hm
    obtain ⟨r, hr, hss, hdeclarations⟩ := foldlM_pieces (r := ⟨ds.reverse ++ [], [], .declaration⟩) (hp.append hp') rfl
    refine ⟨r, ?_, ?_, ?_⟩
    · rw [List.append_assoc]
      exact foldlM_append_eq_ok.mpr ⟨_, foldlM_declarations hd [], hr⟩
    · rw [hss, List.append_nil, List.flatten_append, hpieces]
    · rw [hdeclarations, List.append_nil]

end Program.Reader

namespace Program

open Grammar

theorem ofTokens_eq_ok {ts : List Token} {p : Program} :
    ofTokens ts = .ok p ↔
      ∃ r, (ts ++ [closingToken ts]).foldlM Reader.step Reader.start = .ok r ∧ r.program = p := by
  simp only [foldlM_concat_eq_ok, ofTokens, bind_eq_ok, pure, Except.pure, Except.ok.injEq]
  constructor
  · rintro ⟨r, hr, r', hr', rfl⟩
    exact ⟨r', ⟨r, hr, hr'⟩, rfl⟩
  · rintro ⟨r', ⟨r, hr, hr'⟩, rfl⟩
    exact ⟨r, hr, r', hr', rfl⟩

theorem ofTokens_iff_derives {ts : List Token} {p : Program} :
    ofTokens ts = .ok p ↔ Derives (ts ++ [closingToken ts]) p := by
  rw [ofTokens_eq_ok]
  constructor
  · rintro ⟨r', h, rfl⟩
    obtain ⟨r, hr, hstep⟩ := foldlM_concat_eq_ok.mp h
    obtain ⟨ss, hss, rfl⟩ := Reader.step_close rfl hstep
    obtain ⟨us, vs, pieces, hts, hd, hp, hstatements⟩ := Reader.Viable.body (Reader.foldlM_viable hr) hss
    obtain ⟨vs', ws, ss', sss, hvs, hs, hm, hpieces⟩ := segments_of_pieces hp (e := closingToken ts) rfl
    have hderives := Derives.program hd hs hm
    rwa [List.append_assoc, ← hvs, ← List.append_assoc, ← hts, ← hpieces, ← hstatements] at hderives
  · intro h
    obtain ⟨r, hr, hss, hds⟩ := Reader.foldlM_derives h
    refine ⟨r, hr, ?_⟩
    obtain ⟨r', -, hstep⟩ := foldlM_concat_eq_ok.mp hr
    obtain ⟨ss, -, rfl⟩ := Reader.step_close rfl hstep
    obtain rfl : ss = p.statements.reverse := Option.some.inj hss
    simp only at hds
    simp only [Reader.program, hds, List.reverse_reverse]

/-- The reader accepts exactly the tokens that can be derived once they are closed, and its nodes hold the tree of the
derivation: an item for each declaration and each statement of all segments, in order, and left-nested computations. -/
theorem accepts_exactly_derivable (ts : List Token) :
    ((∃ s, (ofTokens ts).map store = .ok s) ↔ ∃ p, Derives (ts ++ [closingToken ts]) p) ∧
      ∀ p s, Derives (ts ++ [closingToken ts]) p → (ofTokens ts).map store = .ok s → s.tree? = some p.tree := by
  simp only [map_eq_ok, ofTokens_iff_derives]
  constructor
  · constructor
    · rintro ⟨s, p, hp, -⟩
      exact ⟨p, hp⟩
    · rintro ⟨p, hp⟩
      exact ⟨p.store, p, hp, rfl⟩
  · rintro p s hp ⟨q, hq, rfl⟩
    rw [← ofTokens_iff_derives] at hp hq
    rw [hp] at hq
    cases hq
    exact p.tree?_store

end Program

theorem parse_eq_ok {source : String} {s : Store} :
    parse source = .ok s ↔ ∃ ts p, Token.scan source = .ok ts ∧ Program.ofTokens ts = .ok p ∧ p.store = s := by
  constructor
  · intro h
    obtain ⟨ts, hts, h⟩ := bind_eq_ok.mp h
    obtain ⟨p, hp, h⟩ := bind_eq_ok.mp h
    exact ⟨ts, p, hts, hp, Except.ok.inj h⟩
  · rintro ⟨ts, p, hts, hp, rfl⟩
    exact bind_eq_ok.mpr ⟨ts, hts, bind_eq_ok.mpr ⟨p, hp, rfl⟩⟩

end AddingCalculator
