import AddingCalculator.Diagnostic
import AddingCalculator.SortedMap

namespace AddingCalculator

structure SymbolTable where
  types : SortedMap Char DataType

namespace SymbolTable

def empty : SymbolTable := ⟨.empty⟩

def typeOf (table : SymbolTable) (name : Char) : Except Diagnostic DataType :=
  match table.types.find? name with
  | some type => .ok type
  | none => .error (.undeclaredName name)

def declare (table : SymbolTable) (name : Char) (type : DataType) : Except Diagnostic SymbolTable :=
  if table.types.contains name then .error (.duplicateName name)
  else .ok ⟨table.types.insert name type⟩

def entries (table : SymbolTable) : List (Char × DataType) :=
  table.types.entries

def size (table : SymbolTable) : Nat :=
  table.types.size

def text (table : SymbolTable) : String :=
  "<Symbol Table: " ++ toString table.size ++ " entries>\n" ++
    String.join (table.entries.map fun e => "  " ++ String.singleton e.1 ++ " " ++ e.2.text ++ "\n")

end SymbolTable

end AddingCalculator
