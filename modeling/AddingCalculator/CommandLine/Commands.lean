import AddingCalculator.CommandLine.Argument
import AddingCalculator.CommandLine.Request

namespace AddingCalculator.CommandLine

inductive Invocation where
  | request (request : Request)
  | version
  | help
  deriving DecidableEq

structure Draft where
  capacity : Nat
  flags : List Parameter := []
  settings : List (Parameter × String) := []
  inputs : List String := []
  deriving DecidableEq

namespace Draft

-- Only the verbose flag may be repeated.
def add (d : Draft) : Item → Option Draft
  | .flag p => if p ≠ .verbose ∧ p ∈ d.flags then none else some { d with flags := p :: d.flags }
  | .setting p value =>
    if d.settings.any (·.1 = p) then none else some { d with settings := (p, value) :: d.settings }
  | .positional input => if d.inputs.length < d.capacity then some { d with inputs := d.inputs ++ [input] } else none
  | .misuse => none

def setting? (d : Draft) (p : Parameter) : Option String :=
  d.settings.lookup p

-- Help is given if it is asked for before anything is wrong.
def complete (request : Draft → Option Request) : Draft → List Item → Option Invocation
  | d, [] => (request d).map .request
  | _, .flag .help :: _ => some .help
  | d, item :: rest => (d.add item).bind fun d => complete request d rest

def input? (d : Draft) : Option String :=
  d.inputs.head?

def compileRequest (d : Draft) : Option Request :=
  d.input?.map fun input => .compile
    { input
      target := (d.setting? .target).getD "dc"
      output := d.setting? .output
      showTree := .showTree ∈ d.flags
      separator := (d.setting? .separator).getD "\n" }

end Draft

namespace Invocation

def commandNames : List String := ["compile", "parse", "check", "targets", "help"]

def commonParameters : List Parameter := [.verbose, .help]

def compileParameters : List Parameter := commonParameters ++ [.showTree, .target, .output, .separator]

def leadingParameters : List Parameter := commonParameters ++ [.version]

def ofCommand (name : String) (arguments : List String) : Option Invocation :=
  match name with
  | "compile" => Draft.complete Draft.compileRequest { capacity := 1 } (items compileParameters arguments)
  | "parse" => Draft.complete (·.input?.map .parse) { capacity := 1 } (items commonParameters arguments)
  | "check" => Draft.complete (·.input?.map .check) { capacity := 1 } (items commonParameters arguments)
  | "targets" => Draft.complete (fun _ => some .targets) { capacity := 0 } (items commonParameters arguments)
  | "help" => if arguments.length ≤ 1 ∧ arguments.all (· ∈ commandNames) then some help else none
  | _ => none

def ofArguments : List String → Option Invocation
  | [] => none
  | argument :: rest =>
    match (Reading.ofArgument leadingParameters argument).items.find? (· ≠ .flag .verbose) with
    | none => ofArguments rest
    | some (.flag .help) => some help
    | some (.flag .version) => some version
    | some (.positional name) => ofCommand name rest
    | some _ => none

end Invocation

def versionText : String := "ac-dc 0.1.0\n"

def helpText : String :=
  "Usage: ac-dc [-v] COMMAND\n\n" ++
    "  compile INPUT [-t|--target NAME] [-o|--output PATH] [--show-ast] [--separator TEXT]\n" ++
    "  parse INPUT\n" ++
    "  check INPUT\n" ++
    "  targets\n"

def Report.usageError : Report :=
  ⟨2, "", "error: the arguments make no request, see --help\n"⟩

def run (arguments : List String) : Interaction :=
  match Invocation.ofArguments arguments with
  | some (.request request) => request.run .silent
  | some .version => .done ⟨0, versionText, ""⟩
  | some .help => .done ⟨0, helpText, ""⟩
  | none => .done .usageError

end AddingCalculator.CommandLine
