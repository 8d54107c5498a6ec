import AddingCalculator.CommandLine.Commands

namespace AddingCalculator

def FileError.ofSystem (e : IO.Error) : FileError :=
  match e with
  | .noFileOrDirectory _ _ _ => .notFound
  -- Some system calls give their error code negated.
  | .inappropriateType _ code _ =>
    if code = 21 ∨ code = -21 then .isDirectory
    else if code = 20 ∨ code = -20 then .notDirectory
    else .other e.toString
  | .invalidArgument _ code _ => if code = 36 ∨ code = -36 then .nameTooLong else .other e.toString
  | e => .other e.toString

def attempt {α : Type} (action : IO α) : IO (Except FileError α) := do
  match ← action.toBaseIO with
  | .ok x => return .ok x
  | .error e => return .error (.ofSystem e)

def CommandLine.Interaction.perform : CommandLine.Interaction → IO CommandLine.Report
  | .done report => return report
  | .read path next => do (next (← attempt (IO.FS.readBinFile path))).perform
  | .write path text next => do (next (← attempt (IO.FS.writeFile path text))).perform

end AddingCalculator

def main (arguments : List String) : IO UInt32 := do
  let report ← (AddingCalculator.CommandLine.run arguments).perform
  (← IO.getStdout).putStr report.stdout
  (← IO.getStderr).putStr report.stderr
  return .ofNat report.exit
