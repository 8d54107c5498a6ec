import AddingCalculator.Arithmetic
import AddingCalculator.Outcome
import AddingCalculator.Store

namespace AddingCalculator

def Tree.evaluate {α : Type} [Arithmetic α] (o : Outcome α) : TypedTree → Except Fault α
  | .node _ (.constant value) => .ok (Arithmetic.ofScientific value.exact)
  | .node _ (.reference name) => o.read name
  | .node _ (.convert operand) => operand.evaluate o
  | .node _ (.compute operator left right) => do
    let x ← left.evaluate o
    let y ← right.evaluate o
    return operator.apply x y
  | _ => .error .notAValue

def Outcome.execute {α : Type} [Arithmetic α] (o : Outcome α) (item : TypedTree) : Except Fault (Outcome α) :=
  match item.construct with
  | .assign target value =>
    match target.construct with
    | .reference name => do
      let x ← value.evaluate o
      return o.assign name x
    | _ => .error .notAReference
  | .print name => do
    let x ← o.read name
    return o.print x
  | _ => .ok o

def Tree.run {α : Type} [Arithmetic α] (t : TypedTree) : Except Fault (Outcome α) :=
  t.items.foldlM Outcome.execute .empty

def Store.run {α : Type} [Arithmetic α] (s : Store) : Except Fault (Outcome α) :=
  match s.tree? with
  | none => .error .malformedTree
  | some t => t.run

end AddingCalculator
