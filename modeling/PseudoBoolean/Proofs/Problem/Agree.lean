import PseudoBoolean.Proofs.Landscape.Agree
import PseudoBoolean.Proofs.Problem.Solve

set_option autoImplicit false

namespace PseudoBoolean

namespace Poly

def restrict (p : Poly) (a : Assignment) : Assignment :=
  a.filterKeys fun v => v ∈ p.vars

variable {p : Poly}

theorem restrict_eq_original (numeric : p.Numeric) : p.restrict = p.constantParts.original ∅ := by
  funext a
  rw [restrict, NumericPoly.original, union_vars numeric]

theorem sameMinima {options : Quadratization.Options} (numeric : p.Numeric)
    (computed : options.penalty = none) :
    SameMinima p.restrict p.landscape (p.toQubo options) := by
  rw [restrict_eq_original numeric, landscape_eq_ok numeric, toQubo_eq_ok numeric]
  exact p.constantParts.sameMinima ∅ computed

end Poly

namespace Problem

variable {h : Problem}

theorem restrict_eq_original (numeric : h.objective.Numeric) :
    h.restrict = h.objective.constantParts.original h.vars := by
  funext a
  rw [restrict, NumericPoly.original, union_vars numeric]

theorem sameMinima {options : Quadratization.Options} (numeric : h.objective.Numeric)
    (computed : options.penalty = none) :
    SameMinima h.restrict h.landscape (h.toQubo options) := by
  rw [restrict_eq_original numeric, landscape_eq_ok numeric, toQubo_eq_ok numeric]
  exact h.objective.constantParts.sameMinima h.vars computed

/-- With computed penalties the model has the minima of the problem, each once. -/
theorem toQubo_sameMinima {options : Quadratization.Options} (computed : options.penalty = none) :
    (∀ h : Problem, h.objective.Numeric →
      SameMinima h.restrict h.landscape (h.toQubo options) ∧
        ∀ a, h.isValid (h.restrict a) = h.isValid a) ∧
      ∀ p : Poly, p.Numeric → SameMinima p.restrict p.landscape (p.toQubo options) := by
  constructor
  · exact fun h numeric => ⟨h.sameMinima numeric computed, h.isValid_restrict⟩
  · exact fun p numeric => p.sameMinima numeric computed

-- The penalty is too weak here, and both searches find the assignment that violates the constraint.
theorem toQubo_sameMinima_violated :
    let p : Poly := FormalSum.scale (Coeff.number (-2))
      (Poly.label (.index 0) * Poly.label (.index 1) * Poly.label (.index 2))
    let g : Poly := Poly.label (.index 0) + Poly.label (.index 1) - 1
    let h := (ofPoly p).run [.constraint ⟨g, .atMost⟩ 1 none]
    let options := Quadratization.Options.standard
    (∃ l q direct found, h.landscape = .ok l ∧ h.toQubo options = .ok q ∧
      l.solveAll Landscape.standardLimit = .ok direct ∧
      q.landscape.solveAll Landscape.standardLimit = .ok found ∧
      Solutions.Agree h.restrict direct found ∧
      ∀ a ∈ found.assignments, h.isValid (h.restrict a) = .ok false) ∧
      ∃ l q direct found, p.landscape = .ok l ∧ p.toQubo options = .ok q ∧
        l.solveAll Landscape.standardLimit = .ok direct ∧
        q.landscape.solveAll Landscape.standardLimit = .ok found ∧
        Solutions.Agree p.restrict direct found := by
  intro p g h options
  obtain ⟨problems, polynomials⟩ := @toQubo_sameMinima options rfl
  let x : List (Label × Bool) := [(.index 0, true), (.index 1, true), (.index 2, true)]
  let s : Label × Bool := (Slack.name 0, false)
  let added : Label × Bool := (.name "_q0[x0*x1]", true)
  constructor
  · have numeric : h.objective.Numeric := by decide +kernel
    have searched : (h.objective.constantParts.landscape h.vars).solveAll
        Landscape.standardLimit = .ok ⟨-1, [SortedMap.ofList (x ++ [s])]⟩ := by decide +kernel
    have solved : (h.objective.constantParts.toQubo options h.vars).landscape.solveAll
        Landscape.standardLimit = .ok ⟨-1, [SortedMap.ofList (x ++ [s, added])]⟩ := by
      decide +kernel
    obtain ⟨same, valid⟩ := problems h numeric
    obtain ⟨agree, -⟩ := same _ _ _ _ _ _ (landscape_eq_ok numeric)
      (toQubo_eq_ok numeric options) searched solved
    refine ⟨_, _, _, _, landscape_eq_ok numeric, toQubo_eq_ok numeric options, searched, solved,
      agree, ?_⟩
    intro a member
    rw [List.mem_singleton.mp member, valid]
    decide +kernel
  · have numeric : p.Numeric := by decide +kernel
    have searched : (p.constantParts.landscape ∅).solveAll Landscape.standardLimit =
        .ok ⟨-2, [SortedMap.ofList x]⟩ := by decide +kernel
    have solved : (p.constantParts.toQubo options ∅).landscape.solveAll
        Landscape.standardLimit = .ok ⟨-2, [SortedMap.ofList (x ++ [added])]⟩ := by decide +kernel
    obtain ⟨agree, -⟩ := polynomials p numeric _ _ _ _ _ _ (Poly.landscape_eq_ok numeric)
      (Poly.toQubo_eq_ok numeric options) searched solved
    exact ⟨_, _, _, _, Poly.landscape_eq_ok numeric, Poly.toQubo_eq_ok numeric options, searched,
      solved, agree⟩

end Problem

end PseudoBoolean
