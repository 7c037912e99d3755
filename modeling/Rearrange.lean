import Rearrange.DType
import Rearrange.Decimal.Shortest
import Rearrange.Decimal.Text
import Rearrange.Element
import Rearrange.Error
import Rearrange.Hlo.Literal
import Rearrange.Hlo.Calls
import Rearrange.Hlo.Lower
import Rearrange.Hlo.Op
import Rearrange.Hlo.Program
import Rearrange.NameSet
import Rearrange.Pattern.Expression
import Rearrange.Pattern.Index
import Rearrange.Pattern.Inputs
import Rearrange.Pattern.Output
import Rearrange.Pattern.Parse
import Rearrange.Pattern.Reader
import Rearrange.Pattern.Table
import Rearrange.Pattern.Token
import Rearrange.Plan.Apply
import Rearrange.Plan.Basic
import Rearrange.Plan.Cache
import Rearrange.Plan.Compile
import Rearrange.Plan.Options
import Rearrange.Plan.Text
import Rearrange.Proofs.Acceptance
import Rearrange.Proofs.CacheAnswers
import Rearrange.Proofs.Decompositions
import Rearrange.Proofs.Grammar
import Rearrange.Proofs.InputsAccepted
import Rearrange.Proofs.InputsInGrammar
import Rearrange.Proofs.Language
import Rearrange.Proofs.Layout
import Rearrange.Proofs.Lexemes
import Rearrange.Proofs.OutputAccepted
import Rearrange.Proofs.OutputItems
import Rearrange.Proofs.Positions
import Rearrange.Proofs.ReadInputs
import Rearrange.Proofs.ReadOutput
import Rearrange.Proofs.Reading
import Rearrange.Proofs.CheckedReads
import Rearrange.Proofs.Split
import Rearrange.Proofs.Yields
import Rearrange.Proofs.WellFormed
import Rearrange.Proofs.RowMajor
import Rearrange.Proofs.Storage
import Rearrange.Proofs.Transpose
import Rearrange.Proofs.Operations
import Rearrange.Proofs.Representation
import Rearrange.Proofs.Rearranging
import Rearrange.Proofs.InputDims
import Rearrange.Proofs.OutputLayout
import Rearrange.Proofs.Regrouping
import Rearrange.Proofs.Counts
import Rearrange.Proofs.Builder
import Rearrange.Proofs.Replay
import Rearrange.Proofs.OpenFunction
import Rearrange.Proofs.Lowering
import Rearrange.Proofs.Agreement
import Rearrange.Proofs.RearrangementPlan
import Rearrange.Proofs.Elements
import Rearrange.Proofs.OuterProduct
import Rearrange.Proofs.Lexing
import Rearrange.Proofs.ReversedPattern
import Rearrange.Proofs.RoundTrip
import Rearrange.Proofs.InputsSplit
import Rearrange.Proofs.LabelTrace
import Rearrange.Proofs.ReducedPositions
import Rearrange.Proofs.RegularValues
import Rearrange.Proofs.InputLabels
import Rearrange.Proofs.OutputLabels
import Rearrange.Proofs.LabelReplay
import Rearrange.Proofs.LabelledValues
import Rearrange.Proofs.ValueReplay
import Rearrange.Proofs.Meaning
import Rearrange.Reduction
import Rearrange.Rounding
import Rearrange.Shape
import Rearrange.Shape.Rules
import Rearrange.Tensor.Backend
import Rearrange.Tensor.Basic
import Rearrange.Tensor.Host
import Rearrange.Tensor.Ops
import Rearrange.Text.Case
import Rearrange.Text.Identifier
import Rearrange.Text.Listing
import Rearrange.Text.Printable
import Rearrange.Text.Quoted
import Rearrange.Word
import Rearrange.Word.Checked
import Rearrange.Proofs.PatternErrors
import Rearrange.Proofs.StageYields
import Rearrange.Proofs.CheckPasses
import Rearrange.Proofs.Admission
