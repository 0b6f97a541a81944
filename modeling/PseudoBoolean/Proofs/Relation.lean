import PseudoBoolean.Proofs.Poly.Bounds

set_option autoImplicit false

namespace PseudoBoolean

open Multilinear PseudoBoolean.Poly

namespace Relation

def upper (g : Poly) : Relation → Poly
  | .equal | .atMost => g
  | .less => g + 1
  | .atLeast => -g
  | .greater => 1 - g

def upperBounds (b : Bounds) : Relation → Bounds
  | .equal | .atMost => b
  | .less => b.shift 1
  | .atLeast => b.negate
  | .greater => b.negate.shift 1

variable {g : Poly} {b : Bounds} {σ : Label → Bool} {r : Relation}

theorem numeric_upper (numeric : g.Numeric) (r : Relation) : (r.upper g).Numeric := by
  cases r
  case equal => exact numeric
  case atMost => exact numeric
  case less => exact numeric.add Numeric.one
  case atLeast => exact numeric.neg
  case greater => exact Numeric.one.sub numeric

theorem vars_upper {v : Label} (member : v ∈ (r.upper g).vars) : v ∈ g.vars := by
  cases r
  case equal => exact member
  case atMost => exact member
  case less => exact (vars_add member).resolve_right not_mem_vars_one
  case atLeast => exact vars_neg member
  case greater => exact (vars_sub member).resolve_left not_mem_vars_one

theorem numberAt_greater (g : Poly) (σ : Label → Bool) :
    (upper g .greater).numberAt σ = -g.numberAt σ + 1 := by
  simp only [upper, numberAt_sub, numberAt_one]
  ring

theorem upperBounds_encloses (encloses : b.Encloses (g.numberAt σ)) (r : Relation) :
    (r.upperBounds b).Encloses ((r.upper g).numberAt σ) := by
  have negated := Bounds.negate_encloses encloses
  cases r
  case equal => exact encloses
  case atMost => exact encloses
  case less =>
    have shifted := Bounds.shift_encloses 1 encloses
    simpa [upper, upperBounds] using shifted
  case atLeast => simpa [upper, upperBounds] using negated
  case greater =>
    have shifted := Bounds.shift_encloses 1 negated
    rw [numberAt_greater]
    exact shifted

theorem upperBounds_attained (attained : g.Attains b) (r : Relation) :
    (r.upper g).Attains (r.upperBounds b) := by
  obtain ⟨⟨σ, least⟩, τ, greatest⟩ := attained
  cases r
  case equal => exact ⟨⟨σ, least⟩, τ, greatest⟩
  case atMost => exact ⟨⟨σ, least⟩, τ, greatest⟩
  case less =>
    exact ⟨⟨σ, by simp [upper, upperBounds, Bounds.shift, least]⟩,
      τ, by simp [upper, upperBounds, Bounds.shift, greatest]⟩
  case atLeast =>
    exact ⟨⟨τ, by simp [upper, upperBounds, Bounds.negate, greatest]⟩,
      σ, by simp [upper, upperBounds, Bounds.negate, least]⟩
  case greater =>
    exact ⟨⟨τ, (numberAt_greater g τ).trans (by rw [greatest]; rfl)⟩,
      σ, (numberAt_greater g σ).trans (by rw [least]; rfl)⟩

theorem whole_upper {z : Int} (value : g.numberAt σ = z) (r : Relation) :
    ∃ z : Int, (r.upper g).numberAt σ = z := by
  cases r
  case equal => exact ⟨z, value⟩
  case atMost => exact ⟨z, value⟩
  case less => exact ⟨z + 1, by simp [upper, value]⟩
  case atLeast => exact ⟨-z, by simp [upper, value]⟩
  case greater => exact ⟨1 - z, by simp [upper, value]⟩

-- Fractions make the strict inequalities harder to satisfy, never easier to violate.
theorem upper_pos (inequality : r ≠ .equal) (violated : ¬ r.holds (g.numberAt σ) = true) :
    0 < (r.upper g).numberAt σ := by
  cases r <;> simp only [holds, decide_eq_true_eq, not_lt, not_le] at violated
  case equal => exact absurd rfl inequality
  case less =>
    simp only [upper, numberAt_add, numberAt_one]
    linarith
  case atMost => exact violated
  case greater =>
    simp only [upper, numberAt_sub, numberAt_one]
    linarith
  case atLeast =>
    simp only [upper, numberAt_neg]
    linarith

theorem holds_iff_upper (inequality : r ≠ .equal) {z : Int} (value : g.numberAt σ = z) :
    r.holds (g.numberAt σ) = true ↔ (r.upper g).numberAt σ ≤ 0 := by
  constructor
  · intro held
    cases r <;> simp only [holds, decide_eq_true_eq, value] at held
    case equal => exact absurd rfl inequality
    case less =>
      have below : z < 0 := by exact_mod_cast held
      simp only [upper, numberAt_add, numberAt_one, value]
      exact_mod_cast below
    case atMost => exact value ▸ held
    case greater =>
      have above : 0 < z := by exact_mod_cast held
      simp only [upper, numberAt_sub, numberAt_one, value, sub_nonpos]
      exact_mod_cast above
    case atLeast =>
      simp only [upper, numberAt_neg, value]
      linarith
  · intro low
    by_contra violated
    exact absurd low (not_le.mpr (upper_pos inequality violated))

end Relation

theorem Constraint.holdsAt_equal {c : Constraint} {σ : Label → Bool}
    (equality : c.relation = .equal) : c.HoldsAt σ ↔ c.poly.numberAt σ = 0 := by
  simp [HoldsAt, Relation.holds, equality]

namespace Penalty

variable {c : Constraint} {b : Bounds} {taken : SortedSet Label} {start : Nat}

theorem ofConstraint_eq_ofAtMost (inequality : c.relation ≠ .equal) (strength : Coeff) :
    ofConstraint c strength b taken start =
      ofAtMost (c.relation.upper c.poly) strength (c.relation.upperBounds b) taken start := by
  cases relation : c.relation <;> simp only [ofConstraint, relation] at inequality ⊢
  case equal => exact absurd rfl inequality
  all_goals rfl

theorem ofConstraint_eq_ofEqual (equality : c.relation = .equal) (strength : Coeff) :
    ofConstraint c strength b taken start = ofEqual c.poly strength b := by
  simp only [ofConstraint, equality]

end Penalty

end PseudoBoolean
