import AddingCalculator.Construct

namespace AddingCalculator

inductive Tree (α : Type) where
  | node (label : α) (construct : Construct (Tree α))

abbrev TypedTree := Tree (Option DataType)

namespace Tree

def label {α : Type} : Tree α → α
  | node label _ => label

def construct {α : Type} : Tree α → Construct (Tree α)
  | node _ construct => construct

def children {α : Type} (t : Tree α) : List (Tree α) :=
  t.construct.children

def items {α : Type} (t : Tree α) : List (Tree α) :=
  match t.construct with
  | .program items => items
  | _ => []

mutual

def fold {α β : Type} (f : α → Construct β → β) : Tree α → β
  | node label (.program items) => f label (.program (foldAll f items))
  | node label (.declaration type target) => f label (.declaration type (target.fold f))
  | node label (.assign target value) => f label (.assign (target.fold f) (value.fold f))
  | node label (.compute o left right) => f label (.compute o (left.fold f) (right.fold f))
  | node label (.reference name) => f label (.reference name)
  | node label (.constant value) => f label (.constant value)
  | node label (.print name) => f label (.print name)
  | node label (.convert operand) => f label (.convert (operand.fold f))

def foldAll {α β : Type} (f : α → Construct β → β) : List (Tree α) → List β
  | [] => []
  | t :: ts => t.fold f :: foldAll f ts

end

theorem foldAll_eq_map {α β : Type} (f : α → Construct β → β) (ts : List (Tree α)) :
    foldAll f ts = ts.map (fold f) := by
  induction ts with
  | nil => rfl
  | cons t ts ih => rw [foldAll, ih, List.map_cons]

theorem fold_node {α β : Type} (f : α → Construct β → β) (label : α) (c : Construct (Tree α)) :
    (node label c).fold f = f label (c.map (fold f)) := by
  cases c <;> simp only [fold, foldAll_eq_map, Construct.map]

def size {α : Type} (t : Tree α) : Nat :=
  t.fold fun _ c => c.children.foldr (· + ·) 0 + 1

theorem size_node {α : Type} (label : α) (c : Construct (Tree α)) :
    (node label c).size = (c.children.map size).foldr (· + ·) 0 + 1 := by
  rw [size, fold_node, Construct.children_map]
  rfl

theorem size_lt_of_mem_children {α : Type} {label : α} {c : Construct (Tree α)} {t : Tree α} (h : t ∈ c.children) :
    t.size < (node label c).size := by
  have hle (ts : List (Tree α)) (h : t ∈ ts) : t.size ≤ (ts.map size).foldr (· + ·) 0 := by
    induction ts with
    | nil => cases h
    | cons u ts ih =>
      rw [List.map_cons, List.foldr_cons]
      rcases List.mem_cons.mp h with rfl | h
      · omega
      · have := ih h
        omega
  have := hle c.children h
  rw [size_node]
  omega

@[elab_as_elim, induction_eliminator]
theorem induction {α : Type} {motive : Tree α → Prop}
    (node : ∀ label c, (∀ t ∈ c.children, motive t) → motive (node label c)) (t : Tree α) : motive t := by
  match t with
  | .node label c => exact node label c fun u _ => induction node u
termination_by t.size
decreasing_by exact size_lt_of_mem_children (by assumption)

def line (depth : Nat) (label : String) (type : Option DataType) : String :=
  "".pushn ' ' (2 * depth) ++ label ++ (type.elim "" fun t => " : " ++ t.text) ++ "\n"

def lines (t : TypedTree) (depth : Nat) : List String :=
  t.fold (fun type c depth => line depth c.label type :: c.children.flatMap fun below => below (depth + 1)) depth

def display (t : TypedTree) : String :=
  String.join (t.lines 0)

end Tree

end AddingCalculator
