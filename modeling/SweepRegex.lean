import SweepRegex.Bytes.Lines
import SweepRegex.Expr.OfPattern
import SweepRegex.Instr.Word
import SweepRegex.Main
import SweepRegex.Pattern.Edit
import SweepRegex.Regex
import SweepRegex.Status
import SweepRegex.Proofs.Listing
import SweepRegex.Proofs.Pattern.Brackets
import SweepRegex.Proofs.Pattern.Feeding
import SweepRegex.Proofs.Pattern.Faults
import SweepRegex.Proofs.Pattern.Grammar
import SweepRegex.Proofs.Machine.Paths
import SweepRegex.Proofs.Machine.Runs
import SweepRegex.Proofs.Machine.Verdict
import SweepRegex.Proofs.Pattern.Emission
import SweepRegex.Proofs.Pattern.Placement
import SweepRegex.Proofs.Pattern.Branches
import SweepRegex.Proofs.Language
import SweepRegex.Proofs.Machine.Limits
import SweepRegex.Proofs.Machine.Sweeps
import SweepRegex.Proofs.Machine.PathTree
import SweepRegex.Proofs.Machine.Timing
import SweepRegex.Proofs.Machine.Inputs
import SweepRegex.Proofs.Machine.Bounds
import SweepRegex.Proofs.Machine.Accounts
import SweepRegex.Proofs.Pattern.Concatenation
import SweepRegex.Proofs.Pattern.Parentheses
import SweepRegex.Proofs.Pattern.Sizes
import SweepRegex.Proofs.Pattern.Blocks
import SweepRegex.Proofs.ReadErrors
import SweepRegex.Proofs.Reading
import SweepRegex.Proofs.Renaming
import SweepRegex.Proofs.Search
import SweepRegex.Proofs.Settings.Store
import SweepRegex.Proofs.Settings.Assignments
import SweepRegex.Proofs.Settings.Rendering
import SweepRegex.Proofs.Settings.Sources
import SweepRegex.Proofs.CommandLine.Systems
import SweepRegex.Proofs.CommandLine.Endings
import SweepRegex.Proofs.CommandLine.Grammar
import SweepRegex.Proofs.CommandLine.Reordering
import SweepRegex.Proofs.CommandLine.Verdicts
import SweepRegex.Proofs.CommandLine.Modes
import SweepRegex.Proofs.Settings.Numbers
import SweepRegex.Proofs.Settings.Layout
import SweepRegex.Proofs.Settings.Comments
import SweepRegex.Proofs.Settings.Unreadable
