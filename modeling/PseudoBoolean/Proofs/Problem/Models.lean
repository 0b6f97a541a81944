import PseudoBoolean.Proofs.Problem.Slack

set_option autoImplicit false

namespace PseudoBoolean

namespace Poly

variable {p : Poly}

theorem union_vars (numeric : p.Numeric) : ∅ ∪ p.constantParts.vars = p.vars := by
  apply SortedSet.ext_mem
  intro v
  rw [SortedSet.mem_union, vars_constantParts numeric]
  exact or_iff_right SortedSet.mem_empty

theorem landscape_eq_ok (numeric : p.Numeric) :
    p.landscape = .ok (p.constantParts.landscape ∅) := by
  rw [landscape, numbers_eq_ok numeric]
  rfl

theorem toQubo_eq_ok (numeric : p.Numeric) (options : Quadratization.Options) :
    p.toQubo options = .ok (p.constantParts.toQubo options ∅) := by
  rw [toQubo, numbers_eq_ok numeric]
  rfl

theorem toIsing_eq_ok (numeric : p.Numeric) (small : p.degree ≤ 2) :
    p.toIsing = .ok (Ising.ofQubo (Qubo.ofConstantParts p small)) := by
  rw [toIsing, whenQuadratic, dif_pos small, numbers_eq_ok numeric]
  rfl

end Poly

namespace Problem

variable {h : Problem}

theorem union_vars (numeric : h.objective.Numeric) :
    h.vars ∪ h.objective.constantParts.vars = h.vars := by
  apply SortedSet.ext_mem
  intro v
  rw [SortedSet.mem_union, Poly.vars_constantParts numeric]
  exact or_iff_left_of_imp fun member => mem_vars.mpr (Or.inl member)

theorem landscape_eq_ok (numeric : h.objective.Numeric) :
    h.landscape = .ok (h.objective.constantParts.landscape h.vars) := by
  rw [landscape, Poly.numbers_eq_ok numeric]
  rfl

theorem toQubo_eq_ok (numeric : h.objective.Numeric) (options : Quadratization.Options) :
    h.toQubo options = .ok (h.objective.constantParts.toQubo options h.vars) := by
  rw [toQubo, Poly.numbers_eq_ok numeric]
  rfl

end Problem

end PseudoBoolean
