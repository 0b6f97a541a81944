import PseudoBoolean.Coefficient
import PseudoBoolean.CommonPair
import PseudoBoolean.Evaluation
import PseudoBoolean.FormalSum
import PseudoBoolean.Gate
import PseudoBoolean.Generator
import PseudoBoolean.Increasing
import PseudoBoolean.Indexing
import PseudoBoolean.Ising
import PseudoBoolean.Label
import PseudoBoolean.Landscape
import PseudoBoolean.Monomial
import PseudoBoolean.Multilinear
import PseudoBoolean.Penalty
import PseudoBoolean.Poly
import PseudoBoolean.Problem
import PseudoBoolean.Proofs.Annealer
import PseudoBoolean.Proofs.Assignment
import PseudoBoolean.Proofs.Coefficient.Construction
import PseudoBoolean.Proofs.Coefficient.Ring
import PseudoBoolean.Proofs.Coefficient.Substitute
import PseudoBoolean.Proofs.Coefficient.Values
import PseudoBoolean.Proofs.FormalSum.Fold
import PseudoBoolean.Proofs.FormalSum.Ring
import PseudoBoolean.Proofs.FreshName
import PseudoBoolean.Proofs.Gate
import PseudoBoolean.Proofs.Gate.Truth
import PseudoBoolean.Proofs.Indexing
import PseudoBoolean.Proofs.Indexing.Conversion
import PseudoBoolean.Proofs.Indexing.Order
import PseudoBoolean.Proofs.Ising
import PseudoBoolean.Proofs.Landscape.Agree
import PseudoBoolean.Proofs.Landscape.Exhaustive
import PseudoBoolean.Proofs.Landscape.Search
import PseudoBoolean.Proofs.Landscape.Solve
import PseudoBoolean.Proofs.Monomial
import PseudoBoolean.Proofs.Multilinear.Bounds
import PseudoBoolean.Proofs.Multilinear.CommonPair
import PseudoBoolean.Proofs.Multilinear.Compose
import PseudoBoolean.Proofs.Multilinear.Unique
import PseudoBoolean.Proofs.Multilinear.Value
import PseudoBoolean.Proofs.Multilinear.Variables
import PseudoBoolean.Proofs.Penalty
import PseudoBoolean.Proofs.Penalty.Sign
import PseudoBoolean.Proofs.Penalty.Warnings
import PseudoBoolean.Proofs.Poly.Arithmetic
import PseudoBoolean.Proofs.Poly.Bounds
import PseudoBoolean.Proofs.Poly.Canonical
import PseudoBoolean.Proofs.Poly.Evaluation
import PseudoBoolean.Proofs.Poly.Numeric
import PseudoBoolean.Proofs.Poly.Parameters
import PseudoBoolean.Proofs.Poly.Resolve
import PseudoBoolean.Proofs.Poly.Substitution
import PseudoBoolean.Proofs.Poly.Symbols
import PseudoBoolean.Proofs.Problem.Agree
import PseudoBoolean.Proofs.Problem.Compile
import PseudoBoolean.Proofs.Problem.Exact
import PseudoBoolean.Proofs.Problem.Gate
import PseudoBoolean.Proofs.Problem.Ledger
import PseudoBoolean.Proofs.Problem.Models
import PseudoBoolean.Proofs.Problem.Resolve
import PseudoBoolean.Proofs.Problem.Restrict
import PseudoBoolean.Proofs.Problem.Search
import PseudoBoolean.Proofs.Problem.Sign
import PseudoBoolean.Proofs.Problem.Solve
import PseudoBoolean.Proofs.Problem.Validity
import PseudoBoolean.Proofs.Problem.Warnings
import PseudoBoolean.Proofs.Quadratization.Exact
import PseudoBoolean.Proofs.Quadratization.Pairs
import PseudoBoolean.Proofs.Quadratization.Run
import PseudoBoolean.Proofs.Quadratization.Step
import PseudoBoolean.Proofs.Quadratization.WellFormed
import PseudoBoolean.Proofs.Qubo.Checks
import PseudoBoolean.Proofs.Qubo.RoundTrip
import PseudoBoolean.Proofs.Random
import PseudoBoolean.Proofs.Relation
import PseudoBoolean.Proofs.Sampler
import PseudoBoolean.Proofs.Slack.Labels
import PseudoBoolean.Proofs.Slack.Range
import PseudoBoolean.Proofs.Slack.Values
import PseudoBoolean.Proofs.SpinGraph
import PseudoBoolean.Quadratization
import PseudoBoolean.Qubo
import PseudoBoolean.Rational
import PseudoBoolean.Sampler
import PseudoBoolean.SortedMap
import PseudoBoolean.SortedSet
