import AddingCalculator.Diagnostic

/-!
# Interactions with files

A command reads and writes files by name and in the end leaves a report. An interaction says which file comes next
and how to go on with what was found there, so the same command runs on any file system.
-/

namespace AddingCalculator.CommandLine

structure Report where
  exit : Nat
  stdout : String
  stderr : String
  deriving DecidableEq

def Report.failure (e : Diagnostic) (stdout stderr : String) : Report :=
  ⟨1, stdout, stderr ++ "Error: " ++ e.message ++ "\n"⟩

/-- The records that a run leaves on the error stream, before the tree is shown there and behind it. They tell the
time and are more or fewer as the user likes, so a request does not determine them. -/
structure Log where
  before : String
  behind : String

namespace Log

def silent : Log := ⟨"", ""⟩

def around (log : Log) (shown : String) : String :=
  log.before ++ shown ++ log.behind

end Log

inductive Interaction where
  | done (report : Report)
  | read (path : String) (next : Except FileError ByteArray → Interaction)
  | write (path : String) (text : String) (next : Except FileError Unit → Interaction)

/-- Files in a state of the system. A write may change the state also when it fails, and two paths may lead to the
same file. -/
class FileSystem (σ : Type) where
  read : σ → String → Except FileError ByteArray
  write : σ → String → String → Except FileError Unit × σ
  SameFile : σ → String → String → Prop

def Interaction.runOn {σ : Type} [FileSystem σ] : σ → Interaction → Report × σ
  | s, .done report => (report, s)
  | s, .read path next => (next (FileSystem.read s path)).runOn s
  | s, .write path text next =>
    match FileSystem.write s path text with
    | (result, s') => (next result).runOn s'

end AddingCalculator.CommandLine
