import AddingCalculator.Diagnostic
import AddingCalculator.Tree

/-!
# Node stores

A store numbers the nodes of a program in the order in which they were made, beginning with the program itself. A
node names its children and the parent that took it last, so that it can be replaced below that parent. Unfolding
follows the children from the root and gives the tree that the store holds.
-/

namespace AddingCalculator

abbrev NodeId := Nat

structure Node where
  construct : Construct NodeId
  span : Span
  type : Option DataType := none
  parent : Option NodeId := none
  deriving DecidableEq

structure Store where
  nodes : Array Node
  deriving DecidableEq

namespace Store

def root : NodeId := 0

def empty : Store :=
  ⟨#[{ construct := .program [], span := .origin }]⟩

def size (s : Store) : Nat :=
  s.nodes.size

def node? (s : Store) (id : NodeId) : Option Node :=
  s.nodes[id]?

def modify (s : Store) (id : NodeId) (f : Node → Node) : Store :=
  ⟨s.nodes.modify id f⟩

def setType (s : Store) (id : NodeId) (type : DataType) : Store :=
  s.modify id fun n => { n with type := some type }

def setParent (s : Store) (id : NodeId) (parent : Option NodeId) : Store :=
  s.modify id fun n => { n with parent := parent }

def setConstruct (s : Store) (id : NodeId) (c : Construct NodeId) : Store :=
  s.modify id fun n => { n with construct := c }

def add (s : Store) (c : Construct NodeId) (span : Span) : Store :=
  let id := s.size
  let adopted := c.children.foldl (fun s child => s.setParent child (some id)) s
  ⟨adopted.nodes.push { construct := c, span }⟩

def items (s : Store) : List NodeId :=
  match s.node? root with
  | some { construct := .program items, .. } => items
  | _ => []

def appendItem (s : Store) (id : NodeId) : Store :=
  (s.setParent id (some root)).modify root fun n =>
    match n.construct with
    | .program items => { n with construct := .program (items ++ [id]) }
    | _ => n

def redirect (s : Store) (parent old new : NodeId) : Store :=
  s.modify parent fun n => { n with construct := n.construct.map fun id => if id = old then new else id }

end Store

/-- Computations that reach the nodes of a store by their numbers. A change names the nodes at which it is made. -/
class NodeAccess (m : Type → Type) where
  store : m Store
  node? : NodeId → m (Option Node)
  change : List NodeId → (Store → Store) → m Unit

instance : NodeAccess (StateM Store) where
  store := get
  node? id := do return (← get).node? id
  change _ f := modify f

instance {ε : Type} {m : Type → Type} [Monad m] [NodeAccess m] : NodeAccess (ExceptT ε m) where
  store := ExceptT.lift NodeAccess.store
  node? id := ExceptT.lift (NodeAccess.node? id)
  change ids f := ExceptT.lift (NodeAccess.change ids f)

namespace NodeAccess

variable {m : Type → Type} [Monad m] [NodeAccess m]

def setType (id : NodeId) (type : DataType) : m Unit :=
  change [id] fun s => s.setType id type

def setParent (id : NodeId) (parent : Option NodeId) : m Unit :=
  change [id] fun s => s.setParent id parent

def setConstruct (id : NodeId) (c : Construct NodeId) : m Unit :=
  change [id] fun s => s.setConstruct id c

def redirect (parent old new : NodeId) : m Unit :=
  change [parent] fun s => s.redirect parent old new

def add (c : Construct NodeId) (span : Span) : m Unit :=
  change c.children fun s => s.add c span

def appendItem (id : NodeId) : m Unit :=
  change [id, Store.root] fun s => s.appendItem id

def widen (id : NodeId) : ExceptT Diagnostic m Unit := do
  match ← node? id with
  | some { construct := .constant value, .. } => do
    setConstruct id (.constant value.widen)
    setType id .float
  | _ => throw (.nodeExpected .constant)

def insertConversion (id : NodeId) : m Unit := do
  match ← node? id with
  | none => return
  | some n =>
    let convert := (← store).size
    add (.convert id) n.span
    setType convert .float
    setParent convert n.parent
    match n.parent with
    | none => return
    | some parent => redirect parent id convert

end NodeAccess

namespace Store

def widen (s : Store) (id : NodeId) : Except Diagnostic Store :=
  match (NodeAccess.widen id : ExceptT Diagnostic (StateM Store) Unit).run s with
  | (.ok (), s') => .ok s'
  | (.error e, _) => .error e

def insertConversion (s : Store) (id : NodeId) : Store :=
  ((NodeAccess.insertConversion id : StateM Store Unit).run s).2

abbrev Unfolding := Array (Option TypedTree)

def Unfolding.tree? (u : Unfolding) (id : NodeId) : Option TypedTree :=
  u[id]?.join

def unfoldNode (s : Store) (u : Unfolding) (id : NodeId) : Unfolding :=
  match u.tree? id, s.node? id with
  | none, some n =>
    match n.construct.map? u.tree? with
    | some c => u.setIfInBounds id (some (.node n.type c))
    | none => u
  | _, _ => u

def unfold (s : Store) : Nat → Unfolding → Unfolding
  | 0, u => u
  | n + 1, u => if (u.tree? root).isSome then u else s.unfold n ((List.range s.size).foldl s.unfoldNode u)

/-- The tree of the program. Each time over all nodes finds the trees of one more level, and no path without a
repeated node is longer than the store, so a program has a tree if no path from it repeats a node or leaves the
store. -/
def tree? (s : Store) : Option TypedTree :=
  (s.unfold s.size (.replicate s.size none)).tree? root

def display (s : Store) : String :=
  s.tree?.elim "" Tree.display

end Store

end AddingCalculator
