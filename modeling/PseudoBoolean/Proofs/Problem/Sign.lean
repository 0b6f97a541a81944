import PseudoBoolean.Proofs.Penalty.Sign
import PseudoBoolean.Proofs.Problem.Slack

set_option autoImplicit false

namespace PseudoBoolean.Problem

open Multilinear

variable {c : Constraint} {q : Rat}

/-- A constraint pays only where it has no slack and its polynomial is less than one below zero. -/
theorem constrain_sign (h : Problem) (numeric : c.poly.Numeric) (positive : 0 < q) :
    ∃ h' warnings added, h.constrain c (Coeff.number q) none = (.ok warnings, h') ∧
      h'.objective = h.objective + added ∧
      ∀ a : Assignment, a.Covers h'.vars →
        ∃ charge upper held, added.value a = .ok charge ∧ c.isSatisfied a = .ok held ∧
          (c.relation.upper c.poly).value a = .ok upper ∧ (held = false → 0 < charge) ∧
          (charge < 0 ↔ c.relation ≠ .equal ∧
            Penalty.Unslacked (c.relation.upperBounds c.poly.constantParts.coefficientBounds) ∧
            upper < 0) := by
  let b := c.poly.constantParts.coefficientBounds
  let P := h.penaltyOf c (Coeff.number q) b
  have accepted := constrain_eq_ok h (Coeff.number q) (boundsOf_numeric numeric)
  have charged : P.poly.Numeric := Penalty.numeric_ofConstraint numeric
  refine ⟨h.penalize c P, P.warnings, P.poly, accepted, rfl, fun a covers => ?_⟩
  have constraint : a.Covers c.poly.vars := fun v member =>
    covers v (mem_vars.mpr (Or.inr (Or.inl ⟨c, by simp [penalize], member⟩)))
  have slack : a.Covers P.poly.vars := fun v member =>
    (Penalty.vars_ofConstraint member).elim (constraint v) fun new =>
      covers v (mem_vars.mpr (Or.inr (Or.inr (List.mem_append_right _ new))))
  have encloses : b.Encloses (c.poly.numberAt a.truth) :=
    coefficientBounds_encloses a.truth c.poly.constantParts
  refine ⟨_, _, _, Poly.value_eq_ok charged slack, Constraint.isSatisfied_eq_ok numeric constraint,
    Poly.value_eq_ok (Relation.numeric_upper numeric c.relation) fun v member =>
      constraint v (Relation.vars_upper member), ?_, ?_⟩
  · intro failed
    exact Penalty.ofConstraint_pos numeric positive encloses (of_decide_eq_false failed)
  · exact Penalty.ofConstraint_neg_iff numeric positive encloses

-- With room for one whole unit the slack closes the gap, and fractions are never rewarded.
theorem constrain_sign_fractional :
    let c : Constraint :=
      ⟨Poly.label (.index 0) - (Poly.label (.index 1)).scale (Coeff.number (3 / 2)), .atMost⟩
    ∃ h' warnings added, (ofPoly 0).constrain c (Coeff.number 1) none = (.ok warnings, h') ∧
      h'.objective = (ofPoly 0).objective + added ∧
      ∀ a : Assignment, a.Covers h'.vars → ∃ charge, added.value a = .ok charge ∧ 0 ≤ charge := by
  intro c
  have numeric : c.poly.Numeric := by decide +kernel
  obtain ⟨h', warnings, added, accepted, split, signs⟩ :=
    constrain_sign (c := c) (q := 1) (ofPoly 0) numeric one_pos
  refine ⟨h', warnings, added, accepted, split, fun a covers => ?_⟩
  obtain ⟨charge, upper, held, value, -, -, -, negative⟩ := signs a covers
  have low : (c.relation.upperBounds c.poly.constantParts.coefficientBounds).lo = -(3 / 2) := by
    decide +kernel
  refine ⟨charge, value, le_of_not_gt fun below => ?_⟩
  have unslacked := (negative.mp below).2.1.2
  rw [low] at unslacked
  norm_num at unslacked

-- For `x - y / 2 ≤ 0` there is no slack, and the constraint pays where only `y` is chosen.
theorem constrain_rewards :
    ∃ c h' warnings added a, c.poly.Numeric ∧
      (ofPoly 0).constrain c (Coeff.number 1) none = (.ok warnings, h') ∧
      h'.objective = (ofPoly 0).objective + added ∧ h'.slack = [] ∧ a.Covers h'.vars ∧
      c.isSatisfied a = .ok true ∧ added.value a = .ok (-(1 / 2)) := by
  let c : Constraint :=
    ⟨Poly.label (.index 0) - (Poly.label (.index 1)).scale (Coeff.number (1 / 2)), .atMost⟩
  let a : Assignment := SortedMap.ofList [(.index 0, false), (.index 1, true)]
  have numeric : c.poly.Numeric := by decide +kernel
  have covers : ∀ v ∈ ((ofPoly 0).penalize c ((ofPoly 0).penaltyOf c (Coeff.number 1)
      c.poly.constantParts.coefficientBounds)).vars.toList, v ∈ a.keys := by decide +kernel
  exact ⟨c, _, _, _, a, numeric, constrain_eq_ok _ _ (boundsOf_numeric numeric), rfl,
    by decide +kernel, covers, by decide +kernel, by decide +kernel⟩

end PseudoBoolean.Problem
