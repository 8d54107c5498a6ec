import AddingCalculator.Diagnostic
import AddingCalculator.Token.Lexeme

namespace AddingCalculator

def largestInteger : Nat := (1 <<< 63) - 1

def Lexeme.token? (p : Position) (l : Lexeme) : Except Diagnostic (Option Token) :=
  let span := Span.covering p l.chars
  match l with
  | blank _ => .ok none
  | mark c kind => .ok (some ⟨kind, if kind = .name then some (.name c) else none, span⟩)
  | digits run =>
    let n := digitsValue run
    if n ≤ largestInteger then .ok (some ⟨.integer, some (.integer n), span⟩)
    else .error (.integerOutOfRange (.ofList run) span)
  | point whole fraction =>
    match Decimal.read? (whole ++ '.' :: fraction) with
    | some d => .ok (some ⟨.decimal, some (.decimal d), span⟩)
    | none => .error (.decimalOutOfRange (.ofList (whole ++ '.' :: fraction)) span)
  | stray c => .error (.strayCharacter c (.emptyAt p))

namespace Token

def ofLexemes (p : Position) : List Lexeme → Except Diagnostic (List Token)
  | [] => .ok []
  | l :: ls => do
    let t ← l.token? p
    let ts ← ofLexemes (p.after l.chars) ls
    return t.toList ++ ts

def closed (p : Position) (ts : List Token) : List Token :=
  if ts.getLast?.any (·.kind = .close) then ts else ts ++ [closing (.emptyAt p)]

def scan (source : String) : Except Diagnostic (List Token) := do
  let cs := source.toList
  let ts ← ofLexemes {} (Lexeme.split cs)
  return closed (Position.after {} cs) ts

end Token

end AddingCalculator
