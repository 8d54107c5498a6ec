import AddingCalculator.Diagnostic
import AddingCalculator.Program

/-!
# Reading programs from tokens

A program is

    declarations statements close { statements close }

where a declaration is a type keyword and a name, and a statement is `name assign value { (plus | minus) value }` or
`print name`. One token at a time decides what comes next, so a reader is a program read so far and a stage that
says what may follow. Behind the last token of a stream stands a closing token that need not be written.
-/

namespace AddingCalculator

namespace Token

def identifier (t : Token) : Except Diagnostic Identifier :=
  match t.name? with
  | some c => .ok ⟨c, t.span⟩
  | none => .error (.unexpectedToken [.name] t)

def operand? (t : Token) : Option Operand :=
  match t.kind, t.value with
  | .name, some (.name c) => some ⟨.name c, t.span⟩
  | .integer, some (.integer n) => some ⟨.literal (.integer n), t.span⟩
  | .decimal, some (.decimal d) => some ⟨.literal (.decimal d), t.span⟩
  | _, _ => none

def Kind.declares? : Kind → Option DataType
  | floatDeclaration => some .float
  | integerDeclaration => some .integer
  | _ => none

def Kind.operator? : Kind → Option Operator
  | plus => some .add
  | minus => some .subtract
  | _ => none

end Token

namespace Program

inductive Stage where
  | declaration
  | declaredName (type : DataType) (keyword : Span)
  | statement
  | assignment (target : Identifier)
  | firstOperand (target : Identifier)
  | operator (target : Identifier) (value : Chain)
  | operand (target : Identifier) (value : Chain) (operator : Operator) (place : Span)
  | printedName (keyword : Span)
  deriving DecidableEq

def Stage.expected : Stage → List Token.Kind
  | declaration => [.floatDeclaration, .integerDeclaration, .name, .print, .close]
  | declaredName _ _ => [.name]
  | statement => [.name, .print, .close]
  | assignment _ => [.assign]
  | firstOperand _ => [.name, .integer, .decimal]
  | operator _ _ => [.plus, .minus, .name, .print, .close]
  | operand _ _ _ _ => [.name, .integer, .decimal]
  | printedName _ => [.name]

structure Reader where
  declarations : List Declaration
  statements : List Statement
  stage : Stage
  deriving DecidableEq

namespace Reader

def start : Reader := ⟨[], [], .declaration⟩

def program (r : Reader) : Program :=
  ⟨r.declarations.reverse, r.statements.reverse⟩

def refuse (r : Reader) (t : Token) : Except Diagnostic Reader :=
  .error (.unexpectedToken r.stage.expected t)

def begin (r : Reader) (ss : List Statement) (t : Token) : Except Diagnostic Reader :=
  match t.kind with
  | .name => t.identifier.map fun target => ⟨r.declarations, ss, .assignment target⟩
  | .print => .ok ⟨r.declarations, ss, .printedName t.span⟩
  | .close => .ok ⟨r.declarations, ss, .statement⟩
  | _ => r.refuse t

def readName (r : Reader) (t : Token) (next : Identifier → Reader) : Except Diagnostic Reader :=
  if t.kind = .name then t.identifier.map next else r.refuse t

def readOperand (r : Reader) (t : Token) (target : Identifier) (complete : Operand → Chain) :
    Except Diagnostic Reader :=
  match t.operand? with
  | some x => .ok { r with stage := .operator target (complete x) }
  | none => r.refuse t

def step (r : Reader) (t : Token) : Except Diagnostic Reader :=
  match r.stage with
  | .declaration =>
    match t.kind.declares? with
    | some type => .ok { r with stage := .declaredName type t.span }
    | none => r.begin r.statements t
  | .declaredName type keyword =>
    r.readName t fun target => ⟨⟨type, target, keyword⟩ :: r.declarations, r.statements, .declaration⟩
  | .statement => r.begin r.statements t
  | .assignment target => if t.kind = .assign then .ok { r with stage := .firstOperand target } else r.refuse t
  | .firstOperand target => r.readOperand t target .operand
  | .operator target value =>
    match t.kind.operator? with
    | some o => .ok { r with stage := .operand target value o t.span }
    | none => r.begin (.assign target value :: r.statements) t
  | .operand target value o place => r.readOperand t target (.extend value o place)
  | .printedName keyword =>
    r.readName t fun name => ⟨r.declarations, .print name.letter keyword :: r.statements, .statement⟩

end Reader

def closingToken (ts : List Token) : Token :=
  .closing ((ts.getLast?.map Token.span).getD .origin)

def ofTokens (ts : List Token) : Except Diagnostic Program := do
  let r ← ts.foldlM Reader.step Reader.start
  return (← r.step (closingToken ts)).program

end Program

end AddingCalculator
