import Calculator.Calculation
import Calculator.Expr.Text
import Calculator.Grammar
import Calculator.Parser.Descent
import Calculator.Unplaced
import Calculator.Proofs.Absorption
import Calculator.Proofs.Descent
import Calculator.Proofs.Derivation
import Calculator.Proofs.Grammaticality
import Calculator.Proofs.Viability
import Calculator.Proofs.Exactness
import Calculator.Proofs.Munch
import Calculator.Proofs.Walk
import Calculator.Proofs.Recount
import Calculator.Chain
import Calculator.Proofs.Lexing
import Calculator.Proofs.Precedence
import Calculator.Proofs.Places
import Calculator.Proofs.Inorder
import Calculator.Proofs.Division
import Calculator.Proofs.Diagnosis
import Calculator.Proofs.Likeness
import Calculator.Proofs.Substitution
import Calculator.Proofs.Consumption
import Calculator.Proofs.Interleaving
import Calculator.Proofs.Layout
import Calculator.Proofs.Log
import Calculator.Proofs.Expectation
import Calculator.Proofs.Operations
import Calculator.Proofs.Seam
import Calculator.Proofs.Decoding
import Calculator.Proofs.Indentation
import Calculator.Proofs.Wording
import Calculator.Proofs.Visits
import Calculator.Proofs.Passes
import Calculator.Proofs.Stream
