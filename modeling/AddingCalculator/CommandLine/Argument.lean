/-!
# Command line arguments

An argument that begins with a hyphen names parameters: one by its long name behind two hyphens, or several by their
letters behind one. A parameter that takes a value finds it behind `=`, behind its letter, or in the next argument.
The argument `--` ends the parameters. A single hyphen and the empty argument are ordinary ones.
-/

namespace AddingCalculator.CommandLine

inductive Parameter where
  | verbose
  | help
  | version
  | showTree
  | target
  | output
  | separator
  deriving DecidableEq

namespace Parameter

def longName : Parameter → String
  | verbose => "verbose"
  | help => "help"
  | version => "version"
  | showTree => "show-ast"
  | target => "target"
  | output => "output"
  | separator => "separator"

def letter? : Parameter → Option Char
  | verbose => some 'v'
  | help => some 'h'
  | version => some 'V'
  | target => some 't'
  | output => some 'o'
  | showTree => none
  | separator => none

def takesValue : Parameter → Bool
  | target | output | separator => true
  | _ => false

end Parameter

inductive Item where
  | flag (parameter : Parameter)
  | setting (parameter : Parameter) (value : String)
  | positional (argument : String)
  | misuse
  deriving DecidableEq

structure Reading where
  items : List Item
  awaiting : Option Parameter := none
  deriving DecidableEq

namespace Reading

def letters (allowed : List Parameter) : List Char → Reading
  | [] => ⟨[], none⟩
  | c :: cs =>
    match allowed.find? fun p => p.letter? = some c with
    | none => ⟨[.misuse], none⟩
    | some p =>
      if p.takesValue then
        match cs with
        | [] => ⟨[], some p⟩
        | '=' :: value => ⟨[.setting p (.ofList value)], none⟩
        | value => ⟨[.setting p (.ofList value)], none⟩
      else
        let r := letters allowed cs
        { r with items := .flag p :: r.items }

def long (allowed : List Parameter) (cs : List Char) : Reading :=
  let name := cs.takeWhile (· ≠ '=')
  match allowed.find? fun p => p.longName.toList = name, cs.dropWhile (· ≠ '=') with
  | none, _ => ⟨[.misuse], none⟩
  | some p, [] => if p.takesValue then ⟨[], some p⟩ else ⟨[.flag p], none⟩
  | some p, _ :: value => if p.takesValue then ⟨[.setting p (.ofList value)], none⟩ else ⟨[.misuse], none⟩

def ofArgument (allowed : List Parameter) (argument : String) : Reading :=
  match argument.toList with
  | '-' :: '-' :: cs => long allowed cs
  | '-' :: c :: cs => letters allowed (c :: cs)
  | _ => ⟨[.positional argument], none⟩

end Reading

def namesParameters (argument : String) : Bool :=
  match argument.toList with
  | '-' :: _ :: _ => true
  | _ => false

def items (allowed : List Parameter) : List String → List Item
  | [] => []
  | argument :: rest =>
    if argument = "--" then rest.map .positional
    else
      let r := Reading.ofArgument allowed argument
      match r.awaiting, rest with
      | none, rest => r.items ++ items allowed rest
      | some _, [] => r.items ++ [.misuse]
      | some p, value :: rest =>
        r.items ++ (if namesParameters value then .misuse else .setting p value) :: items allowed rest

end AddingCalculator.CommandLine
