import AddingCalculator.Proofs.DoubleRange
import AddingCalculator.Proofs.Layout
import AddingCalculator.Proofs.Scanning

/-!
# Trees from their text

The text of a tree has a line for each node, indented by its depth. What stands below a node is shown in the lines
behind its own that are indented further, so the text of a program determines its tree, and the tree determines the
tokens from which it was read.
-/

namespace AddingCalculator

def DataType.keyword : DataType → Token.Kind
  | integer => .integerDeclaration
  | float => .floatDeclaration

def Operator.mark : Operator → Token.Kind
  | add => .plus
  | subtract => .minus

def Literal.token : Literal → Token.Kind × Option Token.Value
  | integer n => (.integer, some (.integer n))
  | decimal d => (.decimal, some (.decimal d))

namespace Construct

def content : Construct (List (Token.Kind × Option Token.Value)) → List (Token.Kind × Option Token.Value)
  | program items => items.flatten
  | declaration type target => (type.keyword, none) :: target
  | assign target value => target ++ (.assign, none) :: value
  | compute o left right => left ++ (o.mark, none) :: right
  | reference name => [(.name, some (.name name))]
  | constant value => [value.token]
  | print name => [(.print, none), (.name, some (.name name))]
  | convert operand => operand

theorem mem_content_of_child {α : Type} {f : α → List (Token.Kind × Option Token.Value)} {c : Construct α} {t : α}
    (h : t ∈ c.children) {x : Token.Kind × Option Token.Value} (hx : x ∈ f t) : x ∈ (c.map f).content := by
  cases c with
  | program items => exact List.mem_flatten.mpr ⟨f t, List.mem_map_of_mem h, hx⟩
  | declaration type target =>
    obtain rfl := List.mem_singleton.mp h
    exact List.mem_cons_of_mem _ hx
  | assign target value | compute o left right =>
    rcases List.mem_cons.mp h with rfl | h
    · exact List.mem_append_left _ hx
    · obtain rfl := List.mem_singleton.mp h
      exact List.mem_append_right _ (List.mem_cons_of_mem _ hx)
  | reference | constant | print => cases h
  | convert operand =>
    obtain rfl := List.mem_singleton.mp h
    exact hx

end Construct

def Tree.content (t : TypedTree) : List (Token.Kind × Option Token.Value) :=
  t.fold fun _ c => c.content

theorem Tree.content_node (type : Option DataType) (c : Construct TypedTree) :
    (node type c).content = (c.map content).content := by
  rw [content, fold_node]
  rfl

def Literal.Legible (v : Literal) : Prop :=
  v.type = .float → '.' ∈ v.text.toList

def Token.Value.Legible : Value → Prop
  | name letter => letter ≠ '\n'
  | integer n => (Literal.integer n).Legible
  | decimal d => (Literal.decimal d).Legible

def Construct.Legible {α : Type} : Construct α → Prop
  | reference name | print name => name ≠ '\n'
  | constant value => value.Legible
  | _ => True

def Tree.Legible (t : TypedTree) : Prop :=
  ∀ x ∈ t.content, ∀ v ∈ x.2, v.Legible

theorem Tree.Legible.child {type : Option DataType} {c : Construct TypedTree} (h : (node type c).Legible) {t : TypedTree}
    (ht : t ∈ c.children) : t.Legible := by
  intro x hx
  refine h x ?_
  rw [content_node]
  exact Construct.mem_content_of_child ht hx

theorem Tree.Legible.construct {type : Option DataType} {c : Construct TypedTree} (h : (node type c).Legible) : c.Legible := by
  unfold Legible at h
  rw [content_node] at h
  cases c with
  | reference name => exact h _ List.mem_cons_self (.name name) rfl
  | print name => exact h _ (List.mem_cons_of_mem _ List.mem_cons_self) (.name name) rfl
  | constant value =>
    cases value with
    | integer n => exact h _ List.mem_cons_self (.integer n) rfl
    | decimal d => exact h _ List.mem_cons_self (.decimal d) rfl
  | _ => trivial

namespace Literal

theorem isNumeric_text (v : Literal) : ∀ c ∈ v.text.toList, isNumeric c = true := by
  cases v with
  | integer n => exact (Numeral.isNumeric_of_read (Numeral.read?_int n)).2
  | decimal d => exact (Numeral.isNumeric_of_read d.read).2

theorem notMem_text {c : Char} (h : isNumeric c = false) (v : Literal) : c ∉ v.text.toList := by
  intro hmem
  rw [v.isNumeric_text c hmem] at h
  cases h

theorem point_notMem_integer (n : ℤ) : '.' ∉ (integer n).text.toList := by
  have hdigits (m : ℕ) : '.' ∉ Nat.toDigits 10 m := fun h =>
    absurd (Nat.isDigit_of_mem_toDigits (by decide) (by decide) h) (by decide)
  cases n with
  | ofNat m => simpa [text, Int.toString_eq_repr, Int.repr, Nat.repr] using hdigits m
  | negSucc m => simpa [text, Int.toString_eq_repr, Int.repr, Nat.repr] using hdigits (m + 1)

theorem eq_of_text {v v' : Literal} (hv : v.Legible) (hv' : v'.Legible) (h : v.text = v'.text) : v = v' := by
  cases v with
  | integer n =>
    cases v' with
    | integer m =>
      simp only [text, Int.toString_eq_repr, Int.repr_inj] at h
      rw [h]
    | decimal d => exact absurd (h ▸ hv' rfl) (point_notMem_integer n)
  | decimal d =>
    cases v' with
    | integer m => exact absurd (h ▸ hv rfl) (point_notMem_integer m)
    | decimal d' => rw [Decimal.eq_of_text h]

end Literal

theorem DataType.text_inj {type type' : DataType} (h : type.text = type'.text) : type = type' := by
  cases type <;> cases type' <;> simp [text] at h ⊢

theorem Operator.text_inj {o o' : Operator} (h : o.text = o'.text) : o = o' := by
  cases o <;> cases o' <;> simp [text] at h ⊢

theorem append_inj_of_head {c : Char} {cs cs' ds ds' : List Char} (hcs : c ∉ cs) (hcs' : c ∉ cs')
    (hds : ∀ d ∈ ds.head?, d = c) (hds' : ∀ d ∈ ds'.head?, d = c) (h : cs ++ ds = cs' ++ ds') : cs = cs' ∧ ds = ds' := by
  have htake (cs ds : List Char) (hcs : c ∉ cs) (hds : ∀ d ∈ ds.head?, d = c) : (cs ++ ds).takeWhile (· ≠ c) = cs := by
    have hne : ∀ d ∈ cs, decide (d ≠ c) = true := fun d hd => decide_eq_true fun heq => hcs (heq ▸ hd)
    rw [List.takeWhile_append_of_pos hne]
    cases ds with
    | nil => simp
    | cons d ds => simp [hds d rfl]
  obtain rfl : cs = cs' := by rw [← htake cs ds hcs hds, h, htake cs' ds' hcs' hds']
  exact ⟨rfl, List.append_cancel_left h⟩

def typeNote (type : Option DataType) : List Char :=
  (type.elim "" fun t => " : " ++ t.text).toList

theorem typeNote_inj {type type' : Option DataType} (h : typeNote type = typeNote type') : type = type' := by
  rcases type with _ | (_ | _) <;> rcases type' with _ | (_ | _) <;> revert h <;> decide

theorem append_typeNote_inj {cs ds : List Char} {type type' : Option DataType} (hcs : ' ' ∉ cs) (hds : ' ' ∉ ds)
    (h : cs ++ typeNote type = ds ++ typeNote type') : cs = ds ∧ type = type' := by
  have hnote (type : Option DataType) : ∀ d ∈ (typeNote type).head?, d = ' ' := by
    rcases type with _ | (_ | _) <;> simp [typeNote]
  obtain ⟨hlabel, htype⟩ := append_inj_of_head hcs hds (hnote type) (hnote type') h
  exact ⟨hlabel, typeNote_inj htype⟩

namespace Construct

variable {α : Type}

theorem label_map {β : Type} (f : α → β) (c : Construct α) : (c.map f).label = c.label := by
  cases c <;> rfl

theorem eq_of_label {c c' : Construct α} (hc : c.Legible) (hc' : c'.Legible) (hchildren : c.children = c'.children)
    {type type' : Option DataType} (h : c.label.toList ++ typeNote type = c'.label.toList ++ typeNote type') :
    c = c' ∧ type = type' := by
  -- The first word of a label tells constructs of different kinds apart.
  cases c <;> cases c' <;> simp [label] at h
  case program.program | assign.assign | convert.convert =>
    have htype := typeNote_inj h
    simp_all [children]
  case reference.reference | print.print =>
    have htype := typeNote_inj h.2
    simp_all
  case declaration.declaration =>
    have hblank (type : DataType) : ' ' ∉ type.text.toList := by cases type <;> decide
    obtain ⟨htext, htype⟩ := append_typeNote_inj (hblank _) (hblank _) h
    have hdeclared := DataType.text_inj (String.toList_inj.mp htext)
    simp_all [children]
  case compute.compute =>
    have hblank (o : Operator) : ' ' ∉ o.text.toList := by cases o <;> decide
    obtain ⟨htext, htype⟩ := append_typeNote_inj (hblank _) (hblank _) h
    have hoperator := Operator.text_inj (String.toList_inj.mp htext)
    simp_all [children]
  case constant.constant v v' =>
    obtain ⟨htext, htype⟩ := append_typeNote_inj (v.notMem_text rfl) (v'.notMem_text rfl) h
    rw [Literal.eq_of_text hc hc' (String.toList_inj.mp htext), htype]
    exact ⟨rfl, rfl⟩

theorem exists_label (c : Construct α) : ∃ d ds, c.label.toList = d :: ds ∧ d ≠ ' ' := by
  cases c <;> simp [label]

theorem Legible.newline_notMem {c : Construct α} (h : c.Legible) (type : Option DataType) :
    '\n' ∉ c.label.toList ++ typeNote type := by
  have hnote : '\n' ∉ typeNote type := by rcases type with _ | (_ | _) <;> decide
  rw [List.mem_append, not_or]
  refine ⟨?_, hnote⟩
  cases c with
  | program | assign | convert => simp [label]
  | declaration type _ => cases type <;> simp [label, DataType.text]
  | compute o _ _ => cases o <;> simp [label, Operator.text]
  | reference name | print name => simpa [label] using h.symm
  | constant v => simpa [label] using v.notMem_text (c := '\n') rfl

end Construct

def indentation (line : String) : ℕ :=
  (line.toList.takeWhile (· = ' ')).length

def IsLine (text : String) : Prop :=
  ∃ cs, text.toList = cs ++ ['\n'] ∧ '\n' ∉ cs

theorem join_lines_inj {xs ys : List String} (hxs : ∀ x ∈ xs, IsLine x) (hys : ∀ y ∈ ys, IsLine y)
    (h : String.join xs = String.join ys) : xs = ys := by
  have hne {x : String} {xs : List String} (hx : IsLine x) : String.join (x :: xs) ≠ "" := by
    obtain ⟨cs, hcs, -⟩ := hx
    intro h
    have hchars := congrArg String.toList h
    simp [hcs] at hchars
  induction xs generalizing ys with
  | nil =>
    cases ys with
    | nil => rfl
    | cons y ys => exact absurd h.symm (hne (hys y List.mem_cons_self))
  | cons x xs ih =>
    cases ys with
    | nil => exact absurd h (hne (hxs x List.mem_cons_self))
    | cons y ys =>
      obtain ⟨cs, hx, hcs⟩ := hxs x List.mem_cons_self
      obtain ⟨ds, hy, hds⟩ := hys y List.mem_cons_self
      have hchars := congrArg String.toList h
      simp only [String.toList_join, List.flatMap_cons, hx, hy, List.append_assoc, List.singleton_append] at hchars
      obtain ⟨rfl, hbreak⟩ := append_inj_of_head hcs hds (by simp) (by simp) hchars
      have hrest := (List.cons.inj hbreak).2
      rw [← String.toList_join, ← String.toList_join, String.toList_inj] at hrest
      have hline : x = y := String.toList_inj.mp (hx.trans hy.symm)
      rw [hline, ih (fun x hx => hxs x (List.mem_cons_of_mem _ hx)) (fun y hy => hys y (List.mem_cons_of_mem _ hy)) hrest]

namespace Tree

theorem toList_line (depth : ℕ) (label : String) (type : Option DataType) :
    (line depth label type).toList = List.replicate (2 * depth) ' ' ++ (label.toList ++ typeNote type) ++ ['\n'] := by
  have hblanks (n : ℕ) : ("".pushn ' ' n).toList = List.replicate n ' ' := by
    rw [String.pushn_eq_repeat_push]
    induction n with
    | zero => rfl
    | succ n ih => rw [Nat.repeat, String.toList_push, ih, List.replicate_succ']
  simp only [line, String.toList_append, hblanks, typeNote, List.append_assoc]
  rfl

theorem indentation_line {α : Type} (depth : ℕ) (c : Construct α) (type : Option DataType) :
    indentation (line depth c.label type) = 2 * depth := by
  obtain ⟨d, ds, hlabel, hd⟩ := c.exists_label
  rw [indentation, toList_line, hlabel, List.append_assoc, List.takeWhile_append_of_pos]
  · simp [hd]
  · intro c hc
    exact decide_eq_true (List.eq_of_mem_replicate hc)

theorem lines_node (depth : ℕ) (type : Option DataType) (c : Construct TypedTree) :
    (node type c).lines depth = line depth c.label type :: c.children.flatMap fun t => t.lines (depth + 1) := by
  rw [lines, fold_node, Construct.label_map, Construct.children_map, List.flatMap_map]
  rfl

theorem Legible.isLine {t : TypedTree} (h : t.Legible) (depth : ℕ) : ∀ x ∈ t.lines depth, IsLine x := by
  induction t using Tree.induction generalizing depth with
  | node type c ih =>
    rw [lines_node, List.forall_mem_cons]
    constructor
    · refine ⟨_, toList_line depth c.label type, fun hmem => ?_⟩
      rcases List.mem_append.mp hmem with hmem | hmem
      · exact absurd (List.eq_of_mem_replicate hmem) (by decide)
      · exact h.construct.newline_notMem type hmem
    · intro x hx
      obtain ⟨t, ht, hx⟩ := List.mem_flatMap.mp hx
      exact ih t ht (h.child ht) (depth + 1) x hx

def Leaves (depth : ℕ) (rest : List String) : Prop :=
  ∀ x ∈ rest.head?, indentation x ≤ 2 * depth

theorem leaves_lines {depth : ℕ} {rest : List String} (h : Leaves depth rest) (ts : List TypedTree) :
    Leaves (depth + 1) (ts.flatMap (fun t => t.lines (depth + 1)) ++ rest) := by
  intro x hx
  cases ts with
  | nil =>
    have := h x hx
    omega
  | cons t ts =>
    rcases t with ⟨type, c⟩
    simp only [List.flatMap_cons, lines_node, List.cons_append, List.head?_cons, Option.mem_some_iff] at hx
    rw [← hx, indentation_line]

theorem not_leaves_lines (depth : ℕ) (t : TypedTree) (rest : List String) :
    ¬ Leaves depth (t.lines (depth + 1) ++ rest) := by
  rcases t with ⟨type, c⟩
  intro h
  have hindentation := h (line (depth + 1) c.label type) (by rw [lines_node]; rfl)
  rw [indentation_line] at hindentation
  omega

theorem lines_children_inj {ts us : List TypedTree} {depth : ℕ} {rest rest' : List String} (hrest : Leaves depth rest)
    (hrest' : Leaves depth rest')
    (hinj : ∀ t ∈ ts, ∀ u ∈ us, ∀ r r', Leaves (depth + 1) r → Leaves (depth + 1) r' →
      t.lines (depth + 1) ++ r = u.lines (depth + 1) ++ r' → t = u ∧ r = r')
    (h : ts.flatMap (fun t => t.lines (depth + 1)) ++ rest = us.flatMap (fun u => u.lines (depth + 1)) ++ rest') :
    ts = us ∧ rest = rest' := by
  -- The children are read off one after the other, until a line is not indented further.
  induction ts generalizing us with
  | nil =>
    cases us with
    | nil => exact ⟨rfl, h⟩
    | cons u us =>
      rw [List.flatMap_nil, List.nil_append, List.flatMap_cons, List.append_assoc] at h
      exact absurd (h ▸ hrest) (not_leaves_lines depth u _)
  | cons t ts ih =>
    cases us with
    | nil =>
      rw [List.flatMap_nil, List.nil_append, List.flatMap_cons, List.append_assoc] at h
      exact absurd (h ▸ hrest') (not_leaves_lines depth t _)
    | cons u us =>
      rw [List.flatMap_cons, List.flatMap_cons, List.append_assoc, List.append_assoc] at h
      obtain ⟨rfl, hnext⟩ := hinj t List.mem_cons_self u List.mem_cons_self _ _ (leaves_lines hrest ts)
        (leaves_lines hrest' us) h
      obtain ⟨rfl, hr⟩ := ih (fun t ht u hu => hinj t (List.mem_cons_of_mem _ ht) u (List.mem_cons_of_mem _ hu)) hnext
      exact ⟨rfl, hr⟩

theorem lines_append_inj {t u : TypedTree} (ht : t.Legible) (hu : u.Legible) {depth : ℕ} {rest rest' : List String}
    (hrest : Leaves depth rest) (hrest' : Leaves depth rest') (h : t.lines depth ++ rest = u.lines depth ++ rest') :
    t = u ∧ rest = rest' := by
  induction t using Tree.induction generalizing u depth rest rest' with
  | node type c ih =>
    rcases u with ⟨type', c'⟩
    rw [lines_node, lines_node, List.cons_append, List.cons_append] at h
    obtain ⟨hline, hbelow⟩ := List.cons.inj h
    obtain ⟨hchildren, hr⟩ := lines_children_inj hrest hrest'
      (fun t htc u huc _ _ => ih t htc (ht.child htc) (hu.child huc)) hbelow
    have hchars := congrArg String.toList hline
    rw [toList_line, toList_line, List.append_left_inj, List.append_right_inj] at hchars
    obtain ⟨rfl, rfl⟩ := Construct.eq_of_label ht.construct hu.construct hchildren hchars
    exact ⟨rfl, hr⟩

theorem display_inj {t u : TypedTree} (ht : t.Legible) (hu : u.Legible) (h : t.display = u.display) : t = u := by
  have hlines := join_lines_inj (ht.isLine 0) (hu.isLine 0) h
  have hleaves : Leaves 0 [] := nofun
  exact (lines_append_inj ht hu hleaves hleaves (by rw [hlines])).1

end Tree

def Token.Plain (t : Token) : Prop :=
  t.kind.mark? ≠ none → t.value = none

theorem Token.content_append (ts us : List Token) : content (ts ++ us) = content ts ++ content us := by
  rw [content, List.filter_append, List.map_append]
  rfl

theorem Token.content_cons {t : Token} (h : t.kind ≠ .close) (ts : List Token) :
    content (t :: ts) = (t.kind, t.value) :: content ts := by
  rw [content, List.filter_cons_of_pos (by simpa using h), List.map_cons]
  rfl

theorem Token.content_close {t : Token} (h : t.kind = .close) : content [t] = [] := by
  simp [content, h]

namespace Grammar

open Token (content_append content_cons)

theorem Name.content_cons {t : Token} {x : Identifier} (h : Name t x) (ts : List Token) :
    Token.content (t :: ts) = (.name, some (.name x.letter)) :: Token.content ts := by
  cases h
  exact Token.content_cons (by simp) ts

theorem Value.content_cons {t : Token} {x : Operand} (h : Value t x) (ts : List Token) :
    Token.content (t :: ts) = x.tree.content ++ Token.content ts := by
  cases h <;> exact Token.content_cons (by simp) ts

theorem Keyword.content_cons {t : Token} {type : DataType} (h : Keyword t type) (ht : t.Plain) (ts : List Token) :
    Token.content (t :: ts) = (type.keyword, none) :: Token.content ts := by
  cases h <;> rw [Token.content_cons (by simp), ht (by simp [Token.Kind.mark?])] <;> rfl

theorem Sign.content_cons {t : Token} {o : Operator} (h : Sign t o) (ht : t.Plain) (ts : List Token) :
    Token.content (t :: ts) = (o.mark, none) :: Token.content ts := by
  cases h <;> rw [Token.content_cons (by simp), ht (by simp [Token.Kind.mark?])] <;> rfl

theorem Many.content_eq {α : Type} {Phrase : List Token → α → Prop} {f : α → List (Token.Kind × Option Token.Value)}
    (hf : ∀ ts x, Phrase ts x → (∀ t ∈ ts, t.Plain) → Token.content ts = f x) {ts : List Token} {xs : List α}
    (h : Many Phrase ts xs) (hts : ∀ t ∈ ts, t.Plain) : Token.content ts = xs.flatMap f := by
  induction h with
  | nil => rfl
  | cons h _ ih =>
    obtain ⟨hfirst, hrest⟩ := List.forall_mem_append.mp hts
    rw [content_append, hf _ _ h hfirst, ih hrest, List.flatMap_cons]

theorem Declares.content_eq (ts : List Token) (d : Declaration) (h : Declares ts d) (hts : ∀ t ∈ ts, t.Plain) :
    Token.content ts = d.tree.content := by
  cases h with
  | declare hk hn =>
    rw [hk.content_cons (hts _ List.mem_cons_self), hn.content_cons]
    rfl

theorem Further.content_eq (ts : List Token) (x : Operator × Span × Operand) (h : Further ts x) (hts : ∀ t ∈ ts, t.Plain) :
    Token.content ts = (x.1.mark, none) :: x.2.2.tree.content := by
  cases h with
  | operand ho hv =>
    rw [ho.content_cons (hts _ List.mem_cons_self), hv.content_cons]
    exact congrArg _ (List.append_nil _)

end Grammar

theorem Chain.content_ofOperands (first : Operand) (further : List (Operator × Span × Operand)) :
    (Chain.ofOperands first further).tree.content =
      first.tree.content ++ further.flatMap fun x => (x.1.mark, none) :: x.2.2.tree.content := by
  have hfoldl (c : Chain) : (further.foldl (fun left x => .extend left x.1 x.2.1 x.2.2) c).tree.content =
      c.tree.content ++ further.flatMap fun x => (x.1.mark, none) :: x.2.2.tree.content := by
    induction further generalizing c with
    | nil => exact (List.append_nil _).symm
    | cons x further ih =>
      rw [List.foldl_cons, ih, List.flatMap_cons, ← List.append_assoc, Chain.tree, Tree.content_node]
      rfl
  exact hfoldl _

namespace Grammar

theorem States.content_eq (ts : List Token) (s : Statement) (h : States ts s) (hts : ∀ t ∈ ts, t.Plain) :
    Token.content ts = s.tree.content := by
  cases h with
  | @assign n a v ts target first further hn ha hv hs =>
    have hassign : a.value = none := hts a (by simp) (by rw [ha]; exact Option.some_ne_none _)
    rw [hn.content_cons, Token.content_cons (by rw [ha]; decide), hv.content_cons, ha, hassign,
      hs.content_eq Further.content_eq fun t ht => hts t (by simp [ht]), ← Chain.content_ofOperands, Statement.tree,
      Tree.content_node]
    rfl
  | @print p n name hp hn =>
    have hprint : p.value = none := hts p (by simp) (by rw [hp]; exact Option.some_ne_none _)
    rw [Token.content_cons (by rw [hp]; decide), hn.content_cons, hp, hprint]
    rfl

theorem Segment.content_eq (ts : List Token) (ss : List Statement) (h : Segment ts ss) (hts : ∀ t ∈ ts, t.Plain) :
    Token.content ts = ss.flatMap fun s => s.tree.content := by
  cases h with
  | close h he =>
    obtain ⟨hstates, -⟩ := List.forall_mem_append.mp hts
    rw [Token.content_append, h.content_eq States.content_eq hstates, Token.content_close he, List.append_nil]

theorem Derives.content_eq {ts : List Token} {p : Program} (h : Derives ts p) (hts : ∀ t ∈ ts, t.Plain) :
    Token.content ts = p.tree.content := by
  cases h with
  | @program ts us vs ds ss sss hd hs hm =>
    obtain ⟨hfirst, hvs⟩ := List.forall_mem_append.mp hts
    obtain ⟨hts, hus⟩ := List.forall_mem_append.mp hfirst
    have htree : (Program.tree ⟨ds, ss ++ sss.flatten⟩).content =
        ds.flatMap (fun d => d.tree.content) ++ (ss ++ sss.flatten).flatMap fun s => s.tree.content := by
      rw [Program.tree, Tree.content_node, Construct.map, Construct.content, List.map_append, List.map_map, List.map_map,
        List.flatten_append]
      rfl
    rw [Token.content_append, Token.content_append, hd.content_eq Declares.content_eq hts, Segment.content_eq _ _ hs hus,
      hm.content_eq Segment.content_eq hvs, htree, List.flatMap_append, List.append_assoc, ← @List.flatMap_id _ sss,
      List.flatMap_assoc]
    rfl

end Grammar

theorem Chain.tree_unplaced (c : Chain) : c.unplaced.tree = c.tree := by
  induction c with
  | operand first => rfl
  | extend left o span right ih =>
    rw [unplaced, tree, ih]
    rfl

theorem Program.tree_unplaced (p : Program) : p.unplaced.tree = p.tree := by
  have hstatement (s : Statement) : s.unplaced.tree = s.tree := by
    cases s with
    | assign target value =>
      rw [Statement.unplaced, Statement.tree, value.tree_unplaced]
      rfl
    | print name span => rfl
  rw [tree, unplaced, List.map_map, List.map_map, tree]
  congr 3
  exact List.map_congr_left fun s _ => hstatement s

theorem Token.Spelled.plain {before behind lexeme : List Char} {t : Token} (h : t.Spelled before behind lexeme) : t.Plain := by
  cases h with
  | mark hmark => exact fun _ => rfl
  | name | integer | decimal => exact fun hmark => absurd rfl hmark

theorem Token.Spelled.legible {before behind lexeme : List Char} {t : Token} (h : t.Spelled before behind lexeme) :
    ∀ v ∈ t.value, v.Legible := by
  cases h with
  | mark hmark => nofun
  | name hletter =>
    rintro _ ⟨⟩
    rintro rfl
    exact absurd hletter (by decide)
  | integer =>
    rintro _ ⟨⟩
    nofun
  | @decimal whole fraction d span hne hw hf hbefore hbehind lexeme hlexeme htext =>
    rintro _ ⟨⟩ -
    have hpoint : '.' ∈ lexeme := by simp [hlexeme]
    rw [Literal.text, htext, String.toList_ofList]
    split
    · exact List.mem_append_left _ hpoint
    · exact hpoint

theorem Token.plain_of_scan {source : String} {ts : List Token} (h : scan source = .ok ts) :
    ∀ t ∈ ts, t.Plain ∧ ∀ v ∈ t.value, v.Legible :=
  forall_of_scan h (fun _ _ _ _ hspelled => ⟨hspelled.plain, hspelled.legible⟩) fun _ => ⟨fun _ => rfl, nofun⟩

namespace Program

theorem content_of_scan {source : String} {ts : List Token} {p : Program} (hts : Token.scan source = .ok ts)
    (hp : ofTokens ts = .ok p) : Token.content ts = p.tree.content ∧ p.tree.Legible := by
  have hplain := Token.plain_of_scan hts
  have hcontent : Token.content ts = p.tree.content := by
    have hclosing : Token.content (ts ++ [closingToken ts]) = Token.content ts := by
      rw [Token.content_append, Token.content_close rfl, List.append_nil]
    rw [← hclosing]
    refine (ofTokens_iff_derives.mp hp).content_eq fun t ht => ?_
    rcases List.mem_append.mp ht with ht | ht
    · exact (hplain t ht).1
    · rw [List.mem_singleton.mp ht]
      exact fun _ => rfl
  refine ⟨hcontent, ?_⟩
  unfold Tree.Legible
  rw [← hcontent]
  intro x hx
  obtain ⟨t, ht, rfl⟩ := List.mem_map.mp hx
  exact (hplain t (List.mem_of_mem_filter ht)).2

theorem display_eq_iff_content (source source' : String) (ts ts' : List Token) (s s' : Store)
    (hts : Token.scan source = .ok ts) (hts' : Token.scan source' = .ok ts') (hs : parse source = .ok s)
    (hs' : parse source' = .ok s') : s.display = s'.display ↔ Token.content ts = Token.content ts' := by
  obtain ⟨us, p, hus, hp, rfl⟩ := parse_eq_ok.mp hs
  obtain ⟨us', p', hus', hp', rfl⟩ := parse_eq_ok.mp hs'
  obtain rfl : us = ts := Except.ok.inj (hus.symm.trans hts)
  obtain rfl : us' = ts' := Except.ok.inj (hus'.symm.trans hts')
  obtain ⟨hcontent, hlegible⟩ := content_of_scan hts hp
  obtain ⟨hcontent', hlegible'⟩ := content_of_scan hts' hp'
  rw [Store.display, Store.display, p.tree?_store, p'.tree?_store]
  constructor
  · intro h
    rw [hcontent, hcontent', Tree.display_inj hlegible hlegible' h]
  · intro h
    rw [← p.tree_unplaced, ← p'.tree_unplaced, unplaced_eq_of_content hp hp' h]

def wholeSource : String := "f a i b b = 7 a = b + 2 - 3 p a $"

theorem display_eq_iff_content_wholeSource : ∃ s s' s'', parse mixedSource = .ok s ∧ parse spreadSource = .ok s' ∧
    parse wholeSource = .ok s'' ∧ s.display = s'.display ∧ s.display ≠ s''.display := by
  let content (source : String) := ((Token.scan source).toOption.map Token.content).getD []
  have hread (source : String) (x : List (Token.Kind × Option Token.Value))
      (hscan : (Token.scan source).toOption.map Token.content = some x)
      (hparse : (parse source).toOption.map (fun _ => ()) = some ()) :
      ∃ ts s, Token.scan source = .ok ts ∧ parse source = .ok s ∧ Token.content ts = x := by
    obtain ⟨ts, hts, hcontent⟩ := exists_of_toOption hscan
    obtain ⟨s, hs, -⟩ := exists_of_toOption hparse
    exact ⟨ts, s, hts, hs, hcontent⟩
  obtain ⟨ts, s, hts, hs, h⟩ := hread mixedSource (content mixedSource) (by decide +kernel) (by decide +kernel)
  obtain ⟨ts', s', hts', hs', h'⟩ := hread spreadSource (content mixedSource) (by decide +kernel) (by decide +kernel)
  obtain ⟨ts'', s'', hts'', hs'', h''⟩ := hread wholeSource (content wholeSource) (by decide +kernel) (by decide +kernel)
  refine ⟨s, s', s'', hs, hs', hs'', ?_, ?_⟩
  · rw [display_eq_iff_content _ _ ts ts' s s' hts hts' hs hs', h, h']
  · rw [Ne, display_eq_iff_content _ _ ts ts'' s s'' hts hts'' hs hs'', h, h'']
    decide +kernel

end Program

end AddingCalculator
