import UnitCalc.Binary.Basic
import UnitCalc.Binary.Round
import UnitCalc.Config.Basic
import UnitCalc.Config.Datum
import UnitCalc.Config.Validation
import UnitCalc.Decimal.Basic
import UnitCalc.Decimal.Layout
import UnitCalc.Decimal.Numeral
import UnitCalc.Decimal.Shortest
import UnitCalc.Decimal.Whole
import UnitCalc.Decimal.Written
import UnitCalc.Draw
import UnitCalc.Error.Basic
import UnitCalc.Error.Fault
import UnitCalc.Error.Message
import UnitCalc.Evaluation.Basic
import UnitCalc.Evaluation.Memo
import UnitCalc.Evaluation.Outcome
import UnitCalc.Evaluation.Progress
import UnitCalc.Expr.Basic
import UnitCalc.Expr.Build
import UnitCalc.Expr.Measured
import UnitCalc.Expr.Outline
import UnitCalc.Instruction.Basic
import UnitCalc.Instruction.Reduction
import UnitCalc.Kit.Converter
import UnitCalc.Kit.Function
import UnitCalc.Kit.Operator
import UnitCalc.Kit.Validator
import UnitCalc.Limits
import UnitCalc.Parsing
import UnitCalc.Quantity
import UnitCalc.Registry
import UnitCalc.Segment.Basic
import UnitCalc.Segment.Scan
import UnitCalc.Session
import UnitCalc.Symbol.Function
import UnitCalc.Symbol.Numeric
import UnitCalc.Symbol.Operator
import UnitCalc.Symbol.Table
import UnitCalc.Symbol.Workspace
import UnitCalc.Text.Blank
import UnitCalc.Text.Digit
import UnitCalc.Text.Label
import UnitCalc.Text.Letter
import UnitCalc.Unit.Converter
import UnitCalc.Unit.Registry
import UnitCalc.Value
import UnitCalc.Value.Number
import UnitCalc.Proofs.Binary.Arithmetic
import UnitCalc.Proofs.Binary.Half
import UnitCalc.Proofs.Binary.Mantissa
import UnitCalc.Proofs.Binary.Model
import UnitCalc.Proofs.Binary.Nearest
import UnitCalc.Proofs.Binary.Packed
import UnitCalc.Proofs.Binary.Range
import UnitCalc.Proofs.Binary.Rounded
import UnitCalc.Proofs.Binary.Value
import UnitCalc.Proofs.Decimal.Numeral
import UnitCalc.Proofs.Decimal.Scale
import UnitCalc.Proofs.Error.Answers
import UnitCalc.Proofs.Error.Places
import UnitCalc.Proofs.Evaluation.Combining
import UnitCalc.Proofs.Evaluation.Contract
import UnitCalc.Proofs.Evaluation.Course
import UnitCalc.Proofs.Evaluation.Discipline
import UnitCalc.Proofs.Evaluation.Filling
import UnitCalc.Proofs.Evaluation.Governing
import UnitCalc.Proofs.Evaluation.Handing
import UnitCalc.Proofs.Evaluation.Memory
import UnitCalc.Proofs.Evaluation.Numbers
import UnitCalc.Proofs.Evaluation.Observed
import UnitCalc.Proofs.Evaluation.Outcomes
import UnitCalc.Proofs.Evaluation.Overflow
import UnitCalc.Proofs.Evaluation.Places
import UnitCalc.Proofs.Evaluation.PlainNumbers
import UnitCalc.Proofs.Evaluation.Postfix
import UnitCalc.Proofs.Evaluation.Recall
import UnitCalc.Proofs.Evaluation.Stranding
import UnitCalc.Proofs.Evaluation.Uncached
import UnitCalc.Proofs.Evaluation.Undoing
import UnitCalc.Proofs.Expr.Listing
import UnitCalc.Proofs.Expr.Measured
import UnitCalc.Proofs.Expr.Moved
import UnitCalc.Proofs.Expr.Outlined
import UnitCalc.Proofs.Expr.Printed
import UnitCalc.Proofs.Expr.Rebuild
import UnitCalc.Proofs.Grammar.Brackets
import UnitCalc.Proofs.Grammar.Levels
import UnitCalc.Proofs.Grammar.Matching
import UnitCalc.Proofs.Grammar.Reading
import UnitCalc.Proofs.Grammar.Sentence
import UnitCalc.Proofs.Parsing.Acceptance
import UnitCalc.Proofs.Parsing.Complete
import UnitCalc.Proofs.Parsing.Endings
import UnitCalc.Proofs.Parsing.Faults
import UnitCalc.Proofs.Parsing.Inverse
import UnitCalc.Proofs.Parsing.Limits
import UnitCalc.Proofs.Parsing.Measured
import UnitCalc.Proofs.Parsing.Parenthesized
import UnitCalc.Proofs.Parsing.Places
import UnitCalc.Proofs.Parsing.Printing
import UnitCalc.Proofs.Parsing.Sums
import UnitCalc.Proofs.Quantity.Reading
import UnitCalc.Proofs.Quantity.Returned
import UnitCalc.Proofs.Quantity.Spelling
import UnitCalc.Proofs.Quantity.Splitting
import UnitCalc.Proofs.Quantity.Trailing
import UnitCalc.Proofs.Quantity.Written
import UnitCalc.Proofs.Reduction.Acceptance
import UnitCalc.Proofs.Reduction.Enclosed
import UnitCalc.Proofs.Reduction.Framed
import UnitCalc.Proofs.Reduction.Invariant
import UnitCalc.Proofs.Reduction.Inversion
import UnitCalc.Proofs.Reduction.Limits
import UnitCalc.Proofs.Reduction.Order
import UnitCalc.Proofs.Reduction.Places
import UnitCalc.Proofs.Reduction.Relocation
import UnitCalc.Proofs.Reduction.Simulation
import UnitCalc.Proofs.Reduction.Stacked
import UnitCalc.Proofs.Reduction.Steps
import UnitCalc.Proofs.Scan.Abreast
import UnitCalc.Proofs.Scan.Advancing
import UnitCalc.Proofs.Scan.Collecting
import UnitCalc.Proofs.Scan.Cover
import UnitCalc.Proofs.Scan.Frames
import UnitCalc.Proofs.Scan.Growing
import UnitCalc.Proofs.Scan.InCall
import UnitCalc.Proofs.Scan.Literal
import UnitCalc.Proofs.Scan.Moves
import UnitCalc.Proofs.Scan.Numeral
import UnitCalc.Proofs.Scan.Parenthesized
import UnitCalc.Proofs.Scan.Passing
import UnitCalc.Proofs.Scan.Payload
import UnitCalc.Proofs.Scan.Places
import UnitCalc.Proofs.Scan.Total
import UnitCalc.Proofs.Scan.Words
import UnitCalc.Proofs.Segment.Followed
import UnitCalc.Proofs.Segment.Moved
import UnitCalc.Proofs.Session.History
import UnitCalc.Proofs.Session.Places
import UnitCalc.Proofs.Session.Transparency
import UnitCalc.Proofs.Symbol.Builtins
import UnitCalc.Proofs.Symbol.History
import UnitCalc.Proofs.Symbol.Random
import UnitCalc.Proofs.Symbol.Reading
import UnitCalc.Proofs.Symbol.Remainder
import UnitCalc.Proofs.Symbol.Rounding
import UnitCalc.Proofs.Symbol.Unplaced
import UnitCalc.Proofs.Text.Trimming
import UnitCalc.Proofs.Unit.Flat
import UnitCalc.Proofs.Unit.Return
import UnitCalc.Proofs.Unit.Routes
import UnitCalc.Proofs.Unit.Total
