import PseudoBoolean.Proofs.Gate.Truth
import PseudoBoolean.Proofs.Problem.Slack

set_option autoImplicit false

namespace PseudoBoolean

open Multilinear

namespace Poly

variable {p r : Poly} {σ : Label → Bool} {x y : Bool}

theorem pow_two_sub (left : p.TwoValued) (right : r.TwoValued) :
    FormalSum.pow (p - r) 2 = p.xor r := by
  apply valueAt_injective
  intro σ
  have first := valueAt_eq_bitAt left σ
  have second := valueAt_eq_bitAt right σ
  have parity := BinaryKind.xor.valueAt_combine first second
  refine Eq.trans ?_ parity.symm
  rw [valueAt_pow, valueAt_sub, first, second]
  cases p.bitAt σ <;> cases r.bitAt σ <;> simp [BinaryKind.truth]

theorem degree_xor_le (p r : Poly) : (p.xor r).degree ≤ p.degree + r.degree := by
  have sum := degree_add_le p r
  have double := degree_mul_le (number 2) p
  have product := degree_mul_le (number 2 * p) r
  have difference := degree_sub_le (p + r) (number 2 * p * r)
  have two : degree (number 2) = 0 := degree_constant (Coeff.number 2)
  refine difference.trans (Nat.max_le.mpr ⟨?_, ?_⟩) <;> omega

end Poly

section Evaluation

variable {a : Assignment} {p r : Poly} {x y : Bool}

theorem Constraint.isSatisfied_sub (left : p.eval a = .ok (if x then 1 else 0))
    (right : r.eval a = .ok (if y then 1 else 0)) :
    isSatisfied a ⟨p - r, .equal⟩ = .ok (decide (x = y)) := by
  obtain ⟨first, minuend⟩ := Poly.eval_eq_ok_iff.mp left
  obtain ⟨second, subtrahend⟩ := Poly.eval_eq_ok_iff.mp right
  have covered : p - r ∈ Poly.coveredBy a := sub_mem (S := Subring Poly) first second
  have difference : (p - r).eval a =
      .ok (Coeff.number ((if x then 1 else 0) - if y then 1 else 0)) := by
    rw [Poly.eval_eq_ok covered, valueAt_sub, minuend, subtrahend]
    cases x <;> cases y <;> simp [Coeff.number_neg]
  have value : (p - r).value a = .ok ((if x then 1 else 0) - if y then 1 else 0) := by
    rw [Poly.value, difference]
    exact Coeff.toNumber_number _
  rw [isSatisfied, value]
  change Except.ok (decide (_ = _)) = _
  cases x <;> cases y <;> simp

theorem Poly.eval_add_scale_xor {o : Poly} {c : Coeff} (lam : Coeff) (before : o.eval a = .ok c)
    (left : p.eval a = .ok (if x then 1 else 0)) (right : r.eval a = .ok (if y then 1 else 0)) :
    (o + FormalSum.scale lam (p.xor r)).eval a = .ok (if x = y then c else c + lam) := by
  obtain ⟨old, start⟩ := eval_eq_ok_iff.mp before
  obtain ⟨first, goal⟩ := eval_eq_ok_iff.mp left
  obtain ⟨second, output⟩ := eval_eq_ok_iff.mp right
  have parity : p.xor r ∈ coveredBy a := BinaryKind.xor.combine_mem first second
  have charged : FormalSum.scale lam (p.xor r) ∈ coveredBy a := fun v member =>
    parity v (vars_scale member)
  have covered : o + FormalSum.scale lam (p.xor r) ∈ coveredBy a :=
    add_mem (S := Subring Poly) old charged
  have differ : valueAt a.truth (p.xor r) = if Bool.xor x y then 1 else 0 :=
    BinaryKind.xor.valueAt_combine goal output
  rw [eval_eq_ok covered, valueAt_add, valueAt_scale, start, differ]
  cases x <;> cases y <;> simp

end Evaluation

namespace Problem

variable {target : Poly} {g : Gate}

-- Neither bound gives the difference a sign.
theorem ofEqual_unit (p : Poly) (lam : Coeff) :
    Penalty.ofEqual p lam ⟨-1, 1⟩ = ⟨FormalSum.scale lam (FormalSum.pow p 2), [], []⟩ := by
  have below : ¬ (0 : Rat) ≤ -1 := by decide
  have above : ¬ (1 : Rat) ≤ 0 := by decide
  simp [Penalty.ofEqual, Bounds.excludesZero, below, above]

theorem constrainGate_eq_ok (h : Problem) (lam : Coeff) (binary : target.TwoValued)
    (output : g.toPoly.TwoValued) :
    h.constrainGate target g lam =
      (.ok [], h.penalize ⟨target - g.toPoly, .equal⟩
        ⟨FormalSum.scale lam (target.xor g.toPoly), [], []⟩) := by
  have penalty := ofEqual_unit (target - g.toPoly) lam
  rw [Poly.pow_two_sub binary output] at penalty
  have accepted : h.constrain ⟨target - g.toPoly, .equal⟩ lam (some ⟨-1, 1⟩) = _ :=
    constrain_eq_ok h lam rfl
  rw [penaltyOf, Penalty.ofConstraint_eq_ofEqual rfl, penalty] at accepted
  exact accepted

/-- The forms for single kinds of gates are this call at their gate, and those that force a gate
have the target `1`. -/
theorem constrainGate_charges (h : Problem) (lam : Coeff) (binary : target.TwoValued)
    (inputs : ∀ p ∈ g.inputs, p.TwoValued) :
    ∃ h' added, h.constrainGate target g lam = (.ok [], h') ∧ h'.slack = h.slack ∧
      h'.ledger = h.ledger ++ [⟨target - g.toPoly, .equal⟩] ∧
      h'.objective = h.objective + added ∧ added.degree ≤ target.degree + g.toPoly.degree ∧
      ∀ a : Assignment, a.Covers h.objective.vars → a.Covers target.vars →
        (∀ p ∈ g.inputs, a.Covers p.vars) →
        ∃ x t read, h.objective.eval a = .ok x ∧ target.eval a = .ok (if t then 1 else 0) ∧
          (∀ p ∈ g.inputs, p.eval a = .ok (if read p then 1 else 0)) ∧
          h'.objective.eval a = .ok (if t = g.output read then x else x + lam) ∧
          Constraint.isSatisfied a ⟨target - g.toPoly, .equal⟩ =
            .ok (decide (t = g.output read)) := by
  have output := Gate.twoValued_toPoly inputs
  refine ⟨_, _, constrainGate_eq_ok h lam binary output, List.append_nil _, rfl, rfl, ?degree,
    ?charge⟩
  case degree =>
    exact (degree_mapCoeffs_le _ _).trans (Poly.degree_xor_le target g.toPoly)
  case charge =>
    intro a covered goal each
    obtain ⟨read, known, computed⟩ := Gate.eval_toPoly inputs each
    have before := Poly.eval_eq_ok covered
    have aimed := Poly.eval_eq_bitAt binary goal
    exact ⟨_, _, read, before, aimed, known, Poly.eval_add_scale_xor lam before aimed computed,
      Constraint.isSatisfied_sub aimed computed⟩

-- Two inputs forced to disagree: where both are true the objective grows by the parameter.
theorem constrainGate_charges_forced :
    let x (n : Nat) := Poly.label (.index n)
    let lam := Coeff.symbol ⟨"lam"⟩
    let g : Gate := .many .nand [x 0, x 1]
    let a : Assignment := SortedMap.ofList [(.index 0, true), (.index 1, true)]
    (1 : Poly).TwoValued ∧ (∀ p ∈ g.inputs, p.TwoValued) ∧
      ∃ h', (ofPoly (x 0)).constrainGate 1 g lam = (.ok [], h') ∧
        h'.objective.eval a = .ok (1 + lam) ∧
        Constraint.isSatisfied a ⟨1 - g.toPoly, .equal⟩ = .ok false := by
  intro x lam g a
  have goal : (1 : Poly).TwoValued := by decide +kernel
  have inputs : ∀ p ∈ g.inputs, p.TwoValued := by decide +kernel
  have old : a.Covers (x 0).vars := by decide +kernel
  have aim : a.Covers (Multilinear.vars (1 : Poly)) := by decide +kernel
  have each : ∀ p ∈ g.inputs, a.Covers p.vars := by decide +kernel
  obtain ⟨h', added, accepted, -, -, -, -, charge⟩ :=
    constrainGate_charges (ofPoly (x 0)) lam goal inputs
  obtain ⟨y, t, read, before, aimed, known, after, judged⟩ := charge a old aim each
  have start : (x 0).eval a = .ok 1 := by decide +kernel
  obtain rfl : 1 = y := Except.ok.inj (start.symm.trans before)
  have set : t = true := Poly.bit_unique aimed (by decide +kernel)
  have on : ∀ p ∈ g.inputs, read p = true := by
    have each : ∀ p ∈ g.inputs, p.eval a = .ok (if true then 1 else 0) := by decide +kernel
    exact fun p inside => Poly.bit_unique (known p inside) (each p inside)
  have off : g.output read = false := by
    simp [g, Gate.output, ManyKind.truth, on (x 0) (by simp [g, Gate.inputs]),
      on (x 1) (by simp [g, Gate.inputs])]
  rw [set, off] at after judged
  exact ⟨goal, inputs, h', accepted, after, judged⟩

end Problem

end PseudoBoolean
