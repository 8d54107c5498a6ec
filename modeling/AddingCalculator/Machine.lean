import AddingCalculator.Arithmetic
import AddingCalculator.Outcome
import AddingCalculator.Text.Blank

/-!
# The desk calculator

The calculator reads words. `+` and `-` replace the two upper values of the stack by their sum or difference, `p`
prints the upper value and leaves it, `k` removes it, `s` and `l` with the name of a register store it there or load
it from there, and any other word is a number to push.
-/

namespace AddingCalculator

inductive Command (α : Type) where
  | compute (operator : Operator)
  | print
  | drop
  | store (register : Char)
  | load (register : Char)
  | push (value : α)
  deriving DecidableEq

def Command.ofWord? {α : Type} [Arithmetic α] : List Char → Option (Command α)
  | ['+'] => some (compute .add)
  | ['-'] => some (compute .subtract)
  | ['p'] => some print
  | ['k'] => some drop
  -- Behind the name of a register the rest of a word does not count.
  | 's' :: register :: _ => some (store register)
  | 'l' :: register :: _ => some (load register)
  | word => (Numeral.read? word).bind fun x => (Arithmetic.ofNumeral? x).map push

structure Machine (α : Type) where
  stack : List α
  outcome : Outcome α

namespace Machine

def start {α : Type} : Machine α := ⟨[], .empty⟩

def step {α : Type} [Arithmetic α] (m : Machine α) : Command α → Except Fault (Machine α)
  | .compute o =>
    match m.stack with
    | y :: x :: rest => .ok { m with stack := o.apply x y :: rest }
    | _ => .error .emptyStack
  | .print =>
    match m.stack with
    | x :: _ => .ok { m with outcome := m.outcome.print x }
    | [] => .error .emptyStack
  | .drop =>
    match m.stack with
    | _ :: rest => .ok { m with stack := rest }
    | [] => .error .emptyStack
  | .store register =>
    match m.stack with
    | x :: rest => .ok ⟨rest, m.outcome.assign register x⟩
    | [] => .error .emptyStack
  | .load register => do
    let x ← m.outcome.read register
    return { m with stack := x :: m.stack }
  | .push x => .ok { m with stack := x :: m.stack }

def stepWord {α : Type} [Arithmetic α] (m : Machine α) (word : List Char) : Except Fault (Machine α) :=
  match Command.ofWord? word with
  | some c => m.step c
  | none => .error (.unreadableWord (.ofList word))

def run {α : Type} [Arithmetic α] (code : List String) : Except Fault (Machine α) :=
  (code.flatMap fun line => words line.toList).foldlM stepWord start

end Machine

end AddingCalculator
