import PseudoBoolean.Proofs.Multilinear.Bounds
import PseudoBoolean.Proofs.Poly.Symbols

set_option autoImplicit false

namespace PseudoBoolean.Poly

open Multilinear

def Attains (g : Poly) (b : Bounds) : Prop :=
  (∃ σ, g.numberAt σ = b.lo) ∧ ∃ σ, g.numberAt σ = b.hi

variable {p : Poly} {b : Bounds}

theorem bounds_numeric (numeric : p.Numeric) :
    p.bounds? = some p.constantParts.coefficientBounds := by
  have known : p.isNumeric = true := numeric
  simp [bounds?, numbers?, known]

theorem bounds_eq_none_iff : p.bounds? = none ↔ ¬ p.Numeric := by
  by_cases known : p.isNumeric = true <;> simp [bounds?, numbers?, Numeric, known]

theorem bounds_eq_some_iff :
    p.bounds? = some b ↔ p.Numeric ∧ p.constantParts.coefficientBounds = b := by
  by_cases numeric : p.Numeric
  · simp [bounds_numeric numeric, numeric]
  · simp [bounds_eq_none_iff.mpr numeric, numeric]

theorem not_numeric_iff : ¬ p.Numeric ↔ ∃ e ∈ p.entries, ∃ s, s ∈ e.2.symbols := by
  simp only [numeric_iff_symbols, mem_symbols, not_forall, not_not]
  constructor
  · rintro ⟨s, e, inside, held⟩
    exact ⟨e, inside, s, held⟩
  · rintro ⟨e, inside, s, held⟩
    exact ⟨s, e, inside, held⟩

theorem encloses_bounds (range : p.bounds? = some b) (σ : Label → Bool) :
    b.Encloses (p.numberAt σ) := by
  obtain ⟨-, rfl⟩ := bounds_eq_some_iff.mp range
  exact coefficientBounds_encloses σ p.constantParts

theorem attains_bounds (range : p.bounds? = some b) (separate : p.Separate) : p.Attains b := by
  obtain ⟨-, rfl⟩ := bounds_eq_some_iff.mp range
  exact coefficientBounds_attained (separate.mapCoeffs Coeff.constantPart)

theorem value_ofTruth (numeric : p.Numeric) (σ : Label → Bool) :
    p.value (Assignment.ofTruth p.vars σ) = .ok (p.numberAt σ) := by
  have covered : (Assignment.ofTruth p.vars σ).Covers p.vars := fun v member => by
    rwa [Assignment.keys_ofTruth]
  rw [value_eq_ok numeric covered]
  exact congrArg _ (numberAt_congr _ fun v member => Assignment.truth_ofTruth member)

theorem Attains.exists_assignment (attains : p.Attains b) (numeric : p.Numeric) :
    (∃ a : Assignment, a.keys = p.vars ∧ p.value a = .ok b.lo) ∧
      ∃ a : Assignment, a.keys = p.vars ∧ p.value a = .ok b.hi := by
  have reached {q : Rat} (value : ∃ σ, p.numberAt σ = q) :
      ∃ a : Assignment, a.keys = p.vars ∧ p.value a = .ok q := by
    obtain ⟨σ, rfl⟩ := value
    exact ⟨_, Assignment.keys_ofTruth p.vars σ, value_ofTruth numeric σ⟩
  exact ⟨reached attains.1, reached attains.2⟩

theorem bounds_exact (p : Poly) :
    (p.bounds? = none ↔ ∃ e ∈ p.entries, ∃ s, s ∈ e.2.symbols) ∧
      (p.degree ≤ 1 → p.Separate) ∧
      ∀ b, p.bounds? = some b →
        (∀ a : Assignment, a.Covers p.vars → ∃ v, p.value a = .ok v ∧ b.lo ≤ v ∧ v ≤ b.hi) ∧
        (p.Separate →
          (∃ a : Assignment, a.keys = p.vars ∧ p.value a = .ok b.lo) ∧
            ∃ a : Assignment, a.keys = p.vars ∧ p.value a = .ok b.hi) := by
  refine ⟨bounds_eq_none_iff.trans not_numeric_iff, separate_of_linear, fun b range => ?_⟩
  have numeric := (bounds_eq_some_iff.mp range).1
  constructor
  · intro a covered
    exact ⟨_, value_eq_ok numeric covered, encloses_bounds range a.truth⟩
  · intro separate
    exact (attains_bounds range separate).exists_assignment numeric

-- In `x * y - x` both monomials have `x`, and one is out of reach.
example :
    let x := label (.name "x")
    let y := label (.name "y")
    (x * y - x).bounds? = some ⟨-1, 1⟩ ∧ (number 3 + y - x).bounds? = some ⟨2, 4⟩ := by
  decide +kernel

end PseudoBoolean.Poly
