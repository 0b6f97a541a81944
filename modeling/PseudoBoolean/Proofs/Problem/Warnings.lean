import PseudoBoolean.Proofs.Penalty.Warnings
import PseudoBoolean.Proofs.Problem.Compile

set_option autoImplicit false

namespace PseudoBoolean

open Multilinear

theorem Constraint.forall_isSatisfied_iff {c : Constraint} (numeric : c.poly.Numeric) (b : Bool) :
    (∀ a : Assignment, a.Covers c.poly.vars → c.isSatisfied a = .ok b) ↔
      ∀ σ, decide (c.HoldsAt σ) = b := by
  constructor
  · intro judged σ
    have covered : (Assignment.ofTruth c.poly.vars σ).Covers c.poly.vars := fun v member => by
      rwa [Assignment.keys_ofTruth]
    have same : c.poly.numberAt (Assignment.ofTruth c.poly.vars σ).truth = c.poly.numberAt σ :=
      Poly.numberAt_congr _ fun v member => Assignment.truth_ofTruth member
    have verdict := judged _ covered
    rw [isSatisfied_eq_ok numeric covered, Except.ok.injEq] at verdict
    simp only [HoldsAt, same] at verdict
    exact verdict
  · intro decided a covered
    rw [isSatisfied_eq_ok numeric covered, decided]

namespace Problem

variable {c : Constraint}

theorem attains_coefficientBounds {g : Poly} (linear : g.degree ≤ 1) :
    g.Attains g.constantParts.coefficientBounds :=
  coefficientBounds_attained ((separate_of_linear linear).mapCoeffs Coeff.constantPart)

theorem penalize_unchanged_iff (h : Problem) (P : Penalty) :
    (h.penalize c P).objective = h.objective ∧ (h.penalize c P).slack = h.slack ↔
      P.poly = 0 ∧ P.slack = [] := by
  have kept : h.objective + P.poly = h.objective ↔ P.poly = 0 := by
    constructor
    · intro same
      calc P.poly = h.objective + P.poly - h.objective := by ring
        _ = 0 := (congrArg (· - h.objective) same).trans (sub_self h.objective)
    · intro nothing
      rw [nothing]
      exact add_zero h.objective
  exact and_congr kept List.append_right_eq_self

theorem constrain_warns (h : Problem) (strength : Coeff) {given : Option Bounds}
    (integral : c.poly.Integral)
    (sound : ∀ b, given = some b → ∀ σ, b.Encloses (c.poly.numberAt σ)) :
    ∃ h' warnings, h.constrain c strength given = (.ok warnings, h') ∧
      (warnings ≠ [] → ∀ a : Assignment, a.Covers c.poly.vars → c.isSatisfied a = .ok false) ∧
      (c.relation ≠ .equal → c.poly.degree ≤ 1 → given = none →
        (warnings ≠ [] ↔
          ∀ a : Assignment, a.Covers c.poly.vars → c.isSatisfied a = .ok false) ∧
        (strength ≠ 0 →
          (h'.objective = h.objective ∧ h'.slack = h.slack ↔
            ∀ a : Assignment, a.Covers c.poly.vars → c.isSatisfied a = .ok true))) := by
  obtain ⟨b, bounds, bounded⟩ := boundsOf_bounded integral sound
  refine ⟨_, _, constrain_eq_ok h strength bounds, ?justified, ?complete⟩
  case justified =>
    intro warned
    refine (Constraint.forall_isSatisfied_iff bounded.numeric false).mpr fun σ => ?_
    exact decide_eq_false (Penalty.not_holdsAt_of_warned bounded warned σ)
  case complete =>
    intro inequality linear absent
    -- Only computed bounds are known to be values of the polynomial.
    have attained : c.poly.Attains b := by
      rw [absent, boundsOf_numeric bounded.numeric, Except.ok.injEq] at bounds
      exact bounds ▸ attains_coefficientBounds linear
    refine ⟨?_, fun nonzero => ?_⟩
    · rw [Constraint.forall_isSatisfied_iff bounded.numeric]
      simp only [decide_eq_false_iff_not]
      exact Penalty.warned_iff inequality bounded attained
    · rw [penalize_unchanged_iff, Constraint.forall_isSatisfied_iff bounded.numeric]
      simp only [decide_eq_true_eq]
      exact Penalty.omitted_iff inequality bounded attained nonzero

-- Equality is the most that `x + y - 2` can reach, so the strict inequality just misses.
theorem constrain_warns_strict :
    let x (n : Nat) := Poly.label (.index n)
    let lam := Coeff.symbol ⟨"lam"⟩
    let c : Constraint := ⟨x 0 + x 1 - Poly.number 2, .greater⟩
    ∃ h' warnings, (ofPoly (x 0)).constrain c lam none = (.ok warnings, h') ∧ warnings ≠ [] ∧
      (∀ a : Assignment, a.Covers c.poly.vars → c.isSatisfied a = .ok false) ∧
      ¬ (h'.objective = x 0 ∧ h'.slack = []) := by
  intro x lam c
  have integral : c.poly.Integral := by decide +kernel
  have sound : ∀ b : Bounds, none = some b → ∀ σ, b.Encloses (c.poly.numberAt σ) :=
    fun b given => by cases given
  obtain ⟨h', warnings, accepted, never, linear⟩ :=
    constrain_warns (ofPoly (x 0)) lam integral sound
  obtain ⟨-, unchanged⟩ := linear (by decide) (by decide +kernel) rfl
  have counted : ((ofPoly (x 0)).constrain c lam none).1.toOption.map List.length = some 1 := by
    decide +kernel
  rw [accepted] at counted
  have warned : warnings ≠ [] := by
    rintro rfl
    cases counted
  refine ⟨h', warnings, accepted, warned, never warned, fun same => ?_⟩
  let a : Assignment := SortedMap.ofList [(.index 0, true), (.index 1, true)]
  have covered : a.Covers c.poly.vars := by decide +kernel
  have held := (unchanged (by decide +kernel)).mp same a covered
  rw [never warned a covered] at held
  cases held

end Problem

end PseudoBoolean
