import Formula.Main
import Formula.Node.Render
import Formula.Proofs.Exactness
import Formula.Proofs.Heights
import Formula.Proofs.Reached
import Formula.Proofs.WholeInput
import Formula.Proofs.Words
import Formula.Proofs.Faults
import Formula.Proofs.Registered
import Formula.Proofs.Lines
import Formula.Proofs.Reports
import Formula.Proofs.CallDepth
import Formula.Proofs.Refusals
import Formula.Proofs.SideBySide
import Formula.Proofs.DotSyntax
import Formula.Proofs.Substitution
import Formula.Proofs.Numerals
import Formula.Proofs.Documents
import Formula.Proofs.WireForm
import Formula.Proofs.OpenLevels
import Formula.Proofs.SpreadCalls
import Formula.Proofs.ListFunctions
import Formula.Proofs.CommandLines
import Formula.Proofs.Switches
import Formula.Proofs.Literals
import Formula.Proofs.Unbounded
import Formula.Proofs.Names
import Formula.Proofs.Lookups
import Formula.Proofs.Positions
import Formula.Proofs.Doubles
import Formula.Proofs.TotalOrder
import Formula.Proofs.Medians
import Formula.Proofs.WholeNumbers
import Formula.Proofs.Slices
import Formula.Proofs.Overrides
import Formula.Proofs.Comparisons
import Formula.Proofs.Lookahead
import Formula.Proofs.OptionOrder
