import AddingCalculator.CommandLine.Directory
import AddingCalculator.Evaluation
import AddingCalculator.Machine
import AddingCalculator.Main
import AddingCalculator.Proofs.HeldTree
import AddingCalculator.Proofs.TreeTyping
import AddingCalculator.Proofs.TypingSimulation
import AddingCalculator.Proofs.ProgramTree
import AddingCalculator.Proofs.Decoration
import AddingCalculator.Proofs.Grammar
import AddingCalculator.Proofs.Scoping
import AddingCalculator.Proofs.Assignability
import AddingCalculator.Proofs.SourceText
import AddingCalculator.Proofs.Translation
import AddingCalculator.Proofs.Analysis
import AddingCalculator.Proofs.Execution
import AddingCalculator.Proofs.WellFormed
import AddingCalculator.Proofs.DecoratedStore
import AddingCalculator.Proofs.TypedStore
import AddingCalculator.Proofs.Layout
import AddingCalculator.Proofs.ExactArithmetic
import AddingCalculator.Proofs.Scanning
import AddingCalculator.Proofs.SyntaxErrors
import AddingCalculator.Proofs.SharedNodes
import AddingCalculator.Proofs.Initialization
import AddingCalculator.Proofs.DoubleRange
import AddingCalculator.Proofs.Lexemes
import AddingCalculator.Proofs.ScanErrors
import AddingCalculator.Proofs.WrittenTokens
import AddingCalculator.Proofs.Files
import AddingCalculator.Proofs.Commands
import AddingCalculator.Proofs.FinalClosings
import AddingCalculator.Proofs.Reanalysis
import AddingCalculator.Proofs.StackHeight
import AddingCalculator.Proofs.CheckedStore
import AddingCalculator.Proofs.ParsedStore
import AddingCalculator.Proofs.ShownTree
import AddingCalculator.Proofs.JoinedCode
import AddingCalculator.Proofs.DecimalText
import AddingCalculator.Proofs.TableHistory
