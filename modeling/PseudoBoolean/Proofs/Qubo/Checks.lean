import PseudoBoolean.Proofs.Problem.Models
import PseudoBoolean.Proofs.Qubo.RoundTrip

set_option autoImplicit false

namespace PseudoBoolean

open Multilinear

namespace Qubo

variable {p : Poly} {ancillas : List Ancilla} {extra : SortedSet Label}

theorem ofQuadratic_congr {r r' : NumericPoly} (same : r = r') {small : r.degree ≤ 2}
    {small' : r'.degree ≤ 2} :
    ofQuadratic r small ancillas extra = ofQuadratic r' small' ancillas extra := by
  subst same
  rfl

theorem build_eq_ok (ancillas : List Ancilla) (extra : SortedSet Label) (numeric : p.Numeric)
    {r : NumericPoly} (numbers : p.constantParts = r) (small : r.degree ≤ 2) :
    build p ancillas extra = .ok (ofQuadratic r small ancillas extra) := by
  have low : p.degree ≤ 2 := by rwa [← Poly.degree_constantParts_eq numeric, numbers]
  exact Poly.whenQuadratic_eq_ok_iff.mpr
    ⟨Poly.numbersInOrder_isOk_iff.mpr numeric, low, (ofQuadratic_congr numbers).symm⟩

theorem indices (q : Qubo) {e : Monomial Nat × Rat} (stored : e ∈ q.tensor.entries) :
    e.1.toList = [] ∨ (∃ i, e.1.toList = [i]) ∨ ∃ i j, e.1.toList = [i, j] := by
  have small : e.1.toList.length ≤ 2 := degree_le_iff.mp q.quadratic e stored
  match listed : e.1.toList with
  | [] => exact Or.inl rfl
  | [i] => exact Or.inr (Or.inl ⟨i, rfl⟩)
  | [i, j] => exact Or.inr (Or.inr ⟨i, j, rfl⟩)
  | i :: j :: k :: rest =>
    rw [listed] at small
    simp at small

end Qubo

namespace Poly

variable {p : Poly} {options : Quadratization.Options} {extra : SortedSet Label}

theorem buildQubo_eq (p : Poly) (options : Quadratization.Options) (extra : SortedSet Label) :
    p.buildQubo options extra = p.numbers.map fun n => n.toQubo options extra := by
  cases read : p.numbers with
  | error failure =>
    rw [buildQubo, read]
    rfl
  | ok n =>
    have numeric : p.Numeric := numbers_isOk_iff.mp ⟨n, read⟩
    obtain rfl : p.constantParts = n := Except.ok.inj ((numbers_eq_ok numeric).symm.trans read)
    have degree := degree_constantParts_eq numeric
    rw [buildQubo, read]
    by_cases small : p.degree ≤ 2
    · have direct : p.constantParts.degree ≤ 2 := degree.trans_le small
      have built := Qubo.build_eq_ok [] extra numeric rfl direct
      have model : p.constantParts.toQubo options extra =
          Qubo.ofQuadratic p.constantParts direct [] extra := dif_pos direct
      exact (if_pos small).trans (built.trans (congrArg Except.ok model.symm))
    · have high : ¬ p.constantParts.degree ≤ 2 := degree ▸ small
      let reduced := p.constantParts.quadratize options extra
      have built := Qubo.build_eq_ok reduced.ancillas extra
        (numeric_ofNumbers reduced.poly) (constantParts_toPoly reduced.poly) reduced.quadratic
      have model : p.constantParts.toQubo options extra =
          Qubo.ofQuadratic reduced.poly reduced.quadratic reduced.ancillas extra := dif_neg high
      exact (if_neg small).trans (built.trans (congrArg Except.ok model.symm))

theorem toQubo_isOk_iff : (∃ q, p.toQubo options = .ok q) ↔ p.Numeric := by
  constructor
  · rintro ⟨q, built⟩
    obtain ⟨n, read, -⟩ := exists_of_bind_eq_ok built
    exact numbers_isOk_iff.mp ⟨n, read⟩
  · exact fun numeric => ⟨_, toQubo_eq_ok numeric options⟩

theorem toQubo_eq_error_iff {failure : Failure} :
    p.toQubo options = .error failure ↔
      ∃ s, p.symbols.Least s ∧ failure = .unresolvedParameter s := by
  rw [← numbers_eq_error_iff]
  exact bind_pure_eq_error_iff

theorem toIsing_of_ofPoly {q : Qubo} (built : Qubo.ofPoly p = .ok q) :
    p.toIsing = .ok (Ising.ofQubo q) := by
  obtain ⟨numeric, small, rfl⟩ := Qubo.ofPoly_eq_ok_iff.mp built
  exact toIsing_eq_ok numeric small

end Poly

theorem transforms_checked (p : Poly) (h : Problem) (options : Quadratization.Options) :
    ((∃ q, p.toQubo options = .ok q) ↔ ∀ s, s ∉ p.symbols) ∧
      (∀ failure, p.toQubo options = .error failure ↔
        ∃ s, p.symbols.Least s ∧ failure = .unresolvedParameter s) ∧
      ((∃ q, Qubo.ofPoly p = .ok q) ↔ p.degree ≤ 2 ∧ ∀ s, s ∉ p.symbols) ∧
      ((∃ m, p.toIsing = .ok m) ↔ p.degree ≤ 2 ∧ ∀ s, s ∉ p.symbols) ∧
      (∀ d, (Qubo.ofPoly p = .error (.degreeTooHigh d) ↔ 2 < p.degree ∧ d = p.degree) ∧
        (p.toIsing = .error (.degreeTooHigh d) ↔ 2 < p.degree ∧ d = p.degree)) ∧
      (∀ q, Qubo.ofPoly p = .ok q → p.toIsing = .ok (Ising.ofQubo q)) ∧
      p.buildQubo options ∅ = p.toQubo options ∧
      h.objective.buildQubo options h.vars = h.toQubo options ∧
      ∀ q : Qubo, ∀ e ∈ q.tensor.entries,
        e.1.toList = [] ∨ (∃ i, e.1.toList = [i]) ∨ ∃ i j, e.1.toList = [i, j] := by
  simp only [← Poly.numeric_iff_symbols]
  have inOrder : ∀ failure, p.numbersInOrder = .error failure →
      ∃ s, failure = .unresolvedParameter s := fun failure failed => by
    obtain ⟨s, -, same⟩ := Poly.exists_of_numbersInOrder failed
    exact ⟨s, same⟩
  have least : ∀ failure, p.numbers = .error failure → ∃ s, failure = .unresolvedParameter s :=
    fun failure failed => by
      obtain ⟨s, -, same⟩ := Poly.numbers_eq_error_iff.mp failed
      exact ⟨s, same⟩
  exact ⟨Poly.toQubo_isOk_iff, fun failure => Poly.toQubo_eq_error_iff,
    Poly.whenQuadratic_isOk_iff Poly.numbersInOrder_isOk_iff,
    Poly.whenQuadratic_isOk_iff Poly.numbers_isOk_iff,
    fun d => ⟨Poly.whenQuadratic_degree_iff inOrder, Poly.whenQuadratic_degree_iff least⟩,
    fun q built => Poly.toIsing_of_ofPoly built, p.buildQubo_eq options ∅,
    h.objective.buildQubo_eq options h.vars, fun q e => q.indices⟩

end PseudoBoolean
