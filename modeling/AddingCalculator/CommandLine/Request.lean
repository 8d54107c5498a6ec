import AddingCalculator.CommandLine.Interaction
import AddingCalculator.Compilation

namespace AddingCalculator.CommandLine

structure CompileRequest where
  input : String
  target : String
  output : Option String
  showTree : Bool
  separator : String
  deriving DecidableEq

inductive Request where
  | compile (request : CompileRequest)
  | parse (input : String)
  | check (input : String)
  | targets
  deriving DecidableEq

def decode (content : Except FileError ByteArray) : Except Diagnostic String :=
  match content with
  | .error e => .error (.file e)
  | .ok bytes =>
    match String.fromUTF8? bytes with
    | some text => .ok text
    | none => .error (.file .notText)

def render (separator : String) (code : Code) : String :=
  String.intercalate separator (code.map Instruction.text) ++ "\n"

def treeHeading : String := "=== AST ===\n"

def tokenHeading : String := "=== TOKENS ===\n"

def analyseFile (content : Except FileError ByteArray) : Except Diagnostic Analysis := do
  let source ← decode content
  let s ← parse source
  s.analyse

namespace CompileRequest

def deliver (r : CompileRequest) (text stderr : String) : Interaction :=
  match r.output with
  | none => .done ⟨0, text, stderr⟩
  | some path => .write path text fun
    | .ok () => .done ⟨0, "", stderr⟩
    | .error e => .done (.failure (.file e) "" stderr)

def run (log : Log) (r : CompileRequest) : Interaction :=
  match Target.ofName r.target with
  | .error e => .done (.failure e "" (log.around ""))
  | .ok target => .read r.input fun content =>
    match analyseFile content with
    | .error e => .done (.failure e "" (log.around ""))
    | .ok a =>
      let shown := if r.showTree then treeHeading ++ a.store.display else ""
      match target.code a.store with
      | .error e => .done (.failure e "" (log.around shown))
      | .ok code => r.deliver (render r.separator code) (log.around shown)

end CompileRequest

-- The tokens stay on the output stream when they make no program.
def showSource (log : Log) (source : String) : Report :=
  match Token.scan source with
  | .error e => .failure e tokenHeading (log.around "")
  | .ok ts =>
    let shown := tokenHeading ++ String.join (ts.map fun t => t.text ++ "\n") ++ treeHeading
    match Program.ofTokens ts with
    | .error e => .failure e shown (log.around "")
    | .ok p => ⟨0, shown ++ p.store.display, log.around ""⟩

def showFile (log : Log) (content : Except FileError ByteArray) : Report :=
  match decode content with
  | .error e => .failure e "" (log.around "")
  | .ok source => showSource log source

def checkFile (log : Log) (content : Except FileError ByteArray) : Report :=
  match analyseFile content with
  | .error e => .failure e "" (log.around "")
  | .ok a => ⟨0, a.table.text, log.around ""⟩

def padded (name : String) : String :=
  name.pushn ' ' (8 - name.length)

def targetList : String :=
  "Supported targets:\n" ++
    String.join (Target.all.map fun t => "  " ++ padded t.name ++ " - " ++ t.description ++ "\n")

def Request.run (log : Log) : Request → Interaction
  | compile r => r.run log
  | parse input => .read input fun content => .done (showFile log content)
  | check input => .read input fun content => .done (checkFile log content)
  | targets => .done ⟨0, targetList, ""⟩

end AddingCalculator.CommandLine
