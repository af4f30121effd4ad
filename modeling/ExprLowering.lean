import ExprLowering.Source.Outline
import ExprLowering.Lowering.Output
import ExprLowering.Proofs.Growth
import ExprLowering.Proofs.Derivation
import ExprLowering.Proofs.Scope
import ExprLowering.Proofs.Outcome
import ExprLowering.Proofs.Semantics
import ExprLowering.Proofs.Pending
import ExprLowering.Proofs.Targets
import ExprLowering.Proofs.Renumber
import ExprLowering.Proofs.Sequencing
import ExprLowering.Proofs.Effects
import ExprLowering.Proofs.Meaning
import ExprLowering.Proofs.Coverage
import ExprLowering.Proofs.Preservation
import ExprLowering.Proofs.Storing
import ExprLowering.Proofs.Failures
import ExprLowering.Proofs.LooseEquality
import ExprLowering.Proofs.Session
import ExprLowering.Proofs.Expansion
import ExprLowering.Proofs.Ingredients
import ExprLowering.Proofs.Quoting
import ExprLowering.Proofs.Likeness
import ExprLowering.Proofs.Wrappers
import ExprLowering.Proofs.Independence
import ExprLowering.Proofs.Reports
import ExprLowering.Proofs.Validity
import ExprLowering.Proofs.Traces
import ExprLowering.Proofs.Effort
import ExprLowering.Proofs.Folding
import ExprLowering.Proofs.MemberReports
import ExprLowering.Proofs.Reading
import ExprLowering.Proofs.Bytes
import ExprLowering.Proofs.Numerals
import ExprLowering.Proofs.Templates
import ExprLowering.Proofs.Intervals
import ExprLowering.Proofs.Loops
import ExprLowering.Proofs.ReadBack
import ExprLowering.Proofs.Translation
import ExprLowering.Proofs.Placement
