import Interpolation.Evaluation.Meaning
import Interpolation.Evaluation.Typing
import Interpolation.Expression
import Interpolation.Proofs.Evaluation.Computation
import Interpolation.Proofs.Evaluation.Machine
import Interpolation.Proofs.Evaluation.Requests
import Interpolation.Proofs.Evaluation.Visits
import Interpolation.Proofs.Value.Settled
import Interpolation.Proofs.Value.Parts
import Interpolation.Proofs.Evaluation.Failure
import Interpolation.Proofs.Template.Raw
import Interpolation.Proofs.Template.Adoption
import Interpolation.Proofs.Config.Traversal
import Interpolation.Proofs.Expression.Reference
import Interpolation.Proofs.Evaluation.Operation
import Interpolation.Proofs.Expression.Value
import Interpolation.Proofs.Evaluation.Names
import Interpolation.Proofs.Expression.Rewriting
import Interpolation.Proofs.Evaluation.Locality
import Interpolation.Proofs.Expression.Columns
import Interpolation.Proofs.Expression.Dependency
import Interpolation.Proofs.Value.Refinement
import Interpolation.Proofs.Evaluation.Learning
import Interpolation.Proofs.Config.Learning
import Interpolation.Proofs.Expression.Learning
import Interpolation.Proofs.Text.Utf8
import Interpolation.Proofs.Text.Grapheme
import Interpolation.Proofs.Config.Lines
import Interpolation.Proofs.Expression.Placement
import Interpolation.Proofs.Template.Spelling
import Interpolation.Proofs.Template.Lexing
import Interpolation.Proofs.Template.Grammar
import Interpolation.Proofs.Template.Reading
import Interpolation.Proofs.Template.Recognition
import Interpolation.Proofs.Template.Layout
import Interpolation.Proofs.Template.Printing
import Interpolation.Proofs.Template.Sites
import Interpolation.Proofs.Expression.Sites
import Interpolation.Proofs.Config.Covering
import Interpolation.Proofs.Expression.Naming
import Interpolation.Proofs.Template.Shifting
import Interpolation.Proofs.Template.Relocation
import Interpolation.Proofs.Template.Rendering
import Interpolation.Proofs.Expression.Refusal
import Interpolation.Proofs.Expression.Warnings
import Interpolation.Proofs.Value.Equality
import Interpolation.Proofs.Template.Quoting
import Interpolation.Proofs.Config.Moving
import Interpolation.Proofs.Evaluation.Moving
import Interpolation.Proofs.Expression.Moving
import Interpolation.Proofs.Evaluation.Reach
import Interpolation.Proofs.Evaluation.Faults
import Interpolation.Proofs.Config.LongKeys
import Interpolation.Proofs.Expression.Breakdown
import Interpolation.Proofs.Value.Verdict
import Interpolation.Proofs.Evaluation.Typing
import Interpolation.Proofs.Text.Decoding
import Interpolation.Proofs.Expression.Segments
import Interpolation.Proofs.Evaluation.Access
import Interpolation.Proofs.Template.Brackets
import Interpolation.Proofs.Expression.Brackets
import Interpolation.Proofs.Template.Outline
import Interpolation.Proofs.Value.Conversion
import Interpolation.Proofs.Expression.Arguments
import Interpolation.Proofs.Template.Joining
import Interpolation.Proofs.Evaluation.Joining
import Interpolation.Proofs.Template.SourceOrder
import Interpolation.Proofs.Expression.SourceOrder
import Interpolation.Proofs.Config.Rows
import Interpolation.Proofs.Config.Advancing
import Interpolation.Proofs.Evaluation.Numerals
import Interpolation.Proofs.Evaluation.Division
import Interpolation.Proofs.Expression.Nesting
import Interpolation.Proofs.Expression.RangeOrder
import Interpolation.Proofs.Template.Viability
import Interpolation.Proofs.Template.ErrorPosition
import Interpolation.Proofs.Template.Strings
import Interpolation.Proofs.Template.Nesting
