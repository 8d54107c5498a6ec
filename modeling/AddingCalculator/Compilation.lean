import AddingCalculator.Program.Reader
import AddingCalculator.Program.Store
import AddingCalculator.Target
import AddingCalculator.Token.Scan
import AddingCalculator.Typing

namespace AddingCalculator

def parse (source : String) : Except Diagnostic Store := do
  let ts ← Token.scan source
  let p ← Program.ofTokens ts
  return p.store

structure Analysis where
  store : Store
  table : SymbolTable

def Store.analyse (s : Store) : Except Diagnostic Analysis :=
  match s.collect.run SymbolTable.empty with
  | (.error e, _) => .error e
  | (.ok (), table) =>
    match (Store.findTypes table).run s with
    | (.error e, _) => .error e
    | (.ok (), s) => .ok ⟨s, table⟩

def compileFor (target : Target) (source : String) : Except Diagnostic Code := do
  let s ← parse source
  let a ← s.analyse
  target.code a.store

def compile (source : String) : Except Diagnostic Code :=
  compileFor .dc source

end AddingCalculator
