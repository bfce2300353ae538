import FormatLint.Command.Disk
import FormatLint.Corpus.Generator
import FormatLint.Corpus.Script
import FormatLint.Corpus.Twister
import FormatLint.Main
import FormatLint.Proofs.Analysis.Errors
import FormatLint.Proofs.Format.Segments
import FormatLint.Proofs.Revision.Typecast
import FormatLint.Proofs.Call.Brackets
import FormatLint.Proofs.Call.Within
import FormatLint.Proofs.Revision.Eligible
import FormatLint.Proofs.Revision.SafeForm
import FormatLint.Proofs.Revision.SafeWords
import FormatLint.Proofs.Revision.Apart
import FormatLint.Proofs.Analysis.Sorting
import FormatLint.Proofs.Analysis.Twin
import FormatLint.Proofs.Call.Bare
import FormatLint.Proofs.Call.Patch
import FormatLint.Proofs.Call.Patched
import FormatLint.Proofs.Call.Step
import FormatLint.Proofs.Cast.Typed
import FormatLint.Proofs.Revision.CastTypes
import FormatLint.Proofs.Revision.CastSlots
import FormatLint.Proofs.Revision.CastSteps
import FormatLint.Proofs.Analysis.Stages
import FormatLint.Proofs.Token.Spelled
import FormatLint.Proofs.Revision.CastStages
import FormatLint.Proofs.Revision.Preserve
import FormatLint.Proofs.Revision.Idempotent
import FormatLint.Proofs.Analysis.Relocation
import FormatLint.Proofs.Analysis.Exact
import FormatLint.Proofs.Token.LineEnds
import FormatLint.Proofs.Analysis.LineEnds
import FormatLint.Proofs.Token.Insertion
import FormatLint.Proofs.Call.PreprocessorLine
import FormatLint.Proofs.Guarded.Calls
import FormatLint.Proofs.Guarded.Formats
import FormatLint.Proofs.Guarded.Checks
import FormatLint.Proofs.Guarded.Frames
import FormatLint.Proofs.Guarded.Runs
import FormatLint.Proofs.Revision.Turned
import FormatLint.Proofs.Revision.CallPlan
import FormatLint.Proofs.Revision.Optimize
import FormatLint.Proofs.Cast.OpenBrackets
import FormatLint.Proofs.Revision.TurnedSlots
import FormatLint.Proofs.Analysis.Comments
import FormatLint.Proofs.Analysis.Below
import FormatLint.Proofs.Command.Writes
import FormatLint.Proofs.Revision.Remain
import FormatLint.Proofs.Corpus.Programs
import FormatLint.Proofs.Command.Destinations
import FormatLint.Proofs.Command.Independent
import FormatLint.Proofs.Command.Bytes
import FormatLint.Proofs.Token.Lossless
import FormatLint.Proofs.Token.Grammar
import FormatLint.Proofs.Token.Reread
import FormatLint.Proofs.Call.Splitting
import FormatLint.Proofs.Revision.Continuations
import FormatLint.Proofs.Call.Laminar
import FormatLint.Proofs.Format.Tiling
import FormatLint.Proofs.Format.Places
import FormatLint.Proofs.Cast.Spelling
import FormatLint.Proofs.Cast.Grammar
import FormatLint.Proofs.Call.Accounts
import FormatLint.Proofs.Format.Recognition
import FormatLint.Proofs.Edit.Simultaneous
import FormatLint.Proofs.Frame.Cover
import FormatLint.Proofs.Source.Coordinates
import FormatLint.Proofs.Frame.Cells
import FormatLint.Proofs.Frame.Rows
import FormatLint.Proofs.Text.Collapse
import FormatLint.Proofs.Token.Collapse
import FormatLint.Proofs.Call.Suggestion
import FormatLint.Proofs.Cast.Canonical
import FormatLint.Proofs.Cast.Enclosed
