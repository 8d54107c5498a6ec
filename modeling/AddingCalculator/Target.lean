import AddingCalculator.Code

namespace AddingCalculator

inductive Target where
  | dc
  deriving DecidableEq

namespace Target

def all : List Target := [dc]

def name : Target → String
  | dc => "dc"

def description : Target → String
  | dc => "Unix dc stack calculator"

def ofName (name : String) : Except Diagnostic Target :=
  match all.find? fun t => t.name = name with
  | some t => .ok t
  | none => .error (.unknownTarget name)

def code : Target → Store → Except Diagnostic Code
  | dc => Store.code

end Target

end AddingCalculator
