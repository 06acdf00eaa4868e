import Nabla.Main
import Nabla.Vector.Curve
import Nabla.Proofs.Formula.Building
import Nabla.Proofs.Formula.ConstructionOrder
import Nabla.Proofs.Formula.Sequence
import Nabla.Proofs.Formula.Layout
import Nabla.Proofs.Formula.LayoutReading
import Nabla.Proofs.Formula.Grammar
import Nabla.Proofs.Formula.Completeness
import Nabla.Proofs.Formula.LayoutExistence
import Nabla.Proofs.Formula.Acceptance
import Nabla.Proofs.Formula.Relocation
import Nabla.Proofs.Formula.Spelling
import Nabla.Proofs.Formula.FlatReading
import Nabla.Proofs.Formula.ReaderAgreement
import Nabla.Proofs.Binary32.Sign
import Nabla.Proofs.Formula.PlainText
import Nabla.Proofs.Formula.PushedNegations
import Nabla.Proofs.Expr.Rewriting
import Nabla.Proofs.Expr.NormalForm
import Nabla.Proofs.Expr.Symbols
import Nabla.Proofs.Expr.FieldDerivative
import Nabla.Proofs.Formula.AllowedSymbols
import Nabla.Proofs.Session.Transition
import Nabla.Proofs.Text.Lines
import Nabla.Proofs.Session.FailingLines
import Nabla.Proofs.Session.Unmixed
import Nabla.Proofs.Binary32.SameNumber
import Nabla.Proofs.Binary32.Elementary
import Nabla.Proofs.Binary32.Integer
import Nabla.Proofs.Binary32.Rounding
import Nabla.Proofs.Binary32.NotANumber
import Nabla.Proofs.Binary32.Logarithm
import Nabla.Proofs.Expr.SimplifiedValue
import Nabla.Proofs.Expr.ConstantDerivative
import Nabla.Proofs.Formula.Respelling
import Nabla.Proofs.Formula.Verdict
import Nabla.Proofs.Formula.WrittenTimes
import Nabla.Proofs.Formula.Enclosing
import Nabla.Proofs.Formula.CharacterSequence
import Nabla.Proofs.Formula.Composition
import Nabla.Proofs.Expr.Nodes
import Nabla.Proofs.Formula.Operands
import Nabla.Proofs.Outcomes
import Nabla.Proofs.Text.Regions
import Nabla.Proofs.Formula.LexemeRegions
import Nabla.Proofs.Formula.CharacterRegions
import Nabla.Proofs.Session.FailureRegions
import Nabla.Proofs.Formula.Alternation
import Nabla.Proofs.Expr.StepCount
import Nabla.Proofs.Formula.Spacing
import Nabla.Proofs.Formula.SpaceRemoval
import Nabla.Proofs.Expr.Likeness
import Nabla.Proofs.Expr.RichText
import Nabla.Proofs.Formula.RichText
import Nabla.Proofs.Expr.IdentityLaws
import Nabla.Proofs.Formula.LexCoverage
import Nabla.Proofs.Formula.PositionReading
import Nabla.Proofs.Formula.BalancedReading
import Nabla.Proofs.Expr.SubtractedNegation
import Nabla.Proofs.Vector.GradientCurl
import Nabla.Proofs.Binary32.Order
import Nabla.Proofs.Vector.LengthRange
import Nabla.Proofs.Formula.RangeRuns
import Nabla.Proofs.Formula.ConstructionHistory
import Nabla.Proofs.Expr.Sharing
import Nabla.Proofs.Formula.IndexOrder
import Nabla.Proofs.Formula.RunRegions
import Nabla.Proofs.Binary32.ExactValue
import Nabla.Proofs.Decimal.Rounding
import Nabla.Proofs.Decimal.TrimmedText
import Nabla.Proofs.Text.WordRuns
import Nabla.Proofs.Session.CommandWords
