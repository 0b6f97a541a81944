import PseudoBoolean.Proofs.Coefficient.Values
import PseudoBoolean.Proofs.Penalty.Sign

set_option autoImplicit false

namespace PseudoBoolean

open Multilinear PseudoBoolean.Poly

namespace Penalty

variable {g : Poly} {b : Bounds} {strength : Coeff} {taken : SortedSet Label} {start : Nat}

theorem warnings_ofEqual :
    (ofEqual g strength b).warnings ≠ [] ↔ 0 < b.lo ∨ b.hi < 0 := by
  have split : b.excludesZero = true ↔ 0 < b.lo ∨ b.hi < 0 := by simp [Bounds.excludesZero]
  rw [← split, ofEqual]
  cases b.excludesZero <;> simp

section AtMost

theorem warnings_ofAtMost :
    (ofAtMost g strength b taken start).warnings ≠ [] ↔ 0 < b.hi ∧ 0 < b.lo := by
  by_cases always : b.hi ≤ 0
  · simp [ofAtMost, always, not_lt.mpr always]
  by_cases never : 0 < b.lo
  · simp [ofAtMost, always, never, lt_of_not_ge always]
  · by_cases tight : (-b.lo).floor.toNat = 0 <;> simp [ofAtMost, always, never, tight]

theorem warnings_ofAtMost_iff (encloses : ∀ σ, b.Encloses (g.numberAt σ)) (attained : g.Attains b) :
    (ofAtMost g strength b taken start).warnings ≠ [] ↔ ∀ σ, 0 < g.numberAt σ := by
  rw [warnings_ofAtMost]
  constructor
  · exact fun apart σ => apart.2.trans_le (encloses σ).1
  · intro positive
    obtain ⟨⟨σ, least⟩, τ, greatest⟩ := attained
    exact ⟨greatest ▸ positive τ, least ▸ positive σ⟩

theorem scale_ne_zero (numeric : g.Numeric) (nonzero : strength ≠ 0) {σ : Label → Bool}
    (apart : g.numberAt σ ≠ 0) : FormalSum.scale strength g ≠ 0 := by
  intro nothing
  have value := valueAt_scale σ g strength
  rw [nothing, valueAt_zero, valueAt_numeric numeric] at value
  have factor : Coeff.number (g.numberAt σ) = 0 :=
    (mul_eq_zero.mp value.symm).resolve_right nonzero
  exact apart (Coeff.number_eq_zero_iff.mp factor)

theorem atMostCount_eq_zero_iff : atMostCount b = 0 ↔ b.hi ≤ 0 ∨ Unslacked b := by
  have tight := room_eq_zero_iff b
  by_cases always : b.hi ≤ 0
  · simp [atMostCount, always]
  · have possible : 0 < b.hi := lt_of_not_ge always
    by_cases above : -1 < b.lo
    · simp [atMostCount, Unslacked, possible, above, tight]
    · have below : ¬ 0 < b.lo := fun positive => above (by linarith)
      simp [atMostCount, Unslacked, always, above, below, tight]

theorem slack_ofAtMost_eq_nil_iff :
    (ofAtMost g strength b taken start).slack = [] ↔ b.hi ≤ 0 ∨ Unslacked b := by
  rw [slack_ofAtMost, ← List.length_eq_zero_iff, Slack.length_labels, atMostCount_eq_zero_iff]

-- With slack the squares might cancel, but then the slack itself is new.
theorem ofAtMost_omitted_iff (numeric : g.Numeric) (nonzero : strength ≠ 0)
    (encloses : ∀ σ, b.Encloses (g.numberAt σ)) (attained : g.Attains b) :
    (ofAtMost g strength b taken start).poly = 0 ∧ (ofAtMost g strength b taken start).slack = [] ↔
      ∀ σ, g.numberAt σ ≤ 0 := by
  obtain ⟨τ, greatest⟩ := attained.2
  have never : (∀ σ, g.numberAt σ ≤ 0) ↔ b.hi ≤ 0 :=
    ⟨fun low => greatest ▸ low τ, fun always σ => (encloses σ).2.trans always⟩
  rw [never, slack_ofAtMost_eq_nil_iff]
  constructor
  · rintro ⟨nothing, always | unslacked⟩
    · exact always
    · rcases ofAtMost_form g strength b taken start with ⟨always, -⟩ | ⟨-, form⟩ | ⟨slacked, -⟩
      · exact always
      · have apart : g.numberAt τ ≠ 0 := by
          rw [greatest]
          exact unslacked.1.ne'
        exact absurd (form.symm.trans nothing) (scale_ne_zero numeric nonzero apart)
      · exact absurd unslacked slacked
  · intro always
    exact ⟨by simp [ofAtMost, always], Or.inl always⟩

end AtMost

section Constraint

variable {c : Constraint}

theorem not_holdsAt_of_warned (bounded : Bounded c.poly b)
    (warned : (ofConstraint c strength b taken start).warnings ≠ []) (σ : Label → Bool) :
    ¬ c.HoldsAt σ := by
  by_cases equality : c.relation = .equal
  · rw [ofConstraint_eq_ofEqual equality, warnings_ofEqual] at warned
    have inside := bounded.encloses σ
    rw [Constraint.holdsAt_equal equality]
    intro zero
    rw [zero] at inside
    exact warned.elim (not_lt.mpr inside.1) (not_lt.mpr inside.2)
  · rw [ofConstraint_eq_ofAtMost equality, warnings_ofAtMost] at warned
    have above := ((bounded.upper c.relation).encloses σ).1
    rw [bounded.holdsAt_iff equality]
    exact not_le.mpr (warned.2.trans_le above)

variable (inequality : c.relation ≠ .equal) (bounded : Bounded c.poly b)
  (attained : c.poly.Attains b)

include inequality bounded attained

theorem warned_iff :
    (ofConstraint c strength b taken start).warnings ≠ [] ↔ ∀ σ, ¬ c.HoldsAt σ := by
  rw [ofConstraint_eq_ofAtMost inequality, warnings_ofAtMost_iff (bounded.upper c.relation).encloses
    (Relation.upperBounds_attained attained c.relation)]
  simp only [bounded.holdsAt_iff inequality, not_le]

theorem omitted_iff (nonzero : strength ≠ 0) :
    (ofConstraint c strength b taken start).poly = 0 ∧
        (ofConstraint c strength b taken start).slack = [] ↔ ∀ σ, c.HoldsAt σ := by
  have upper := bounded.upper c.relation
  rw [ofConstraint_eq_ofAtMost inequality, ofAtMost_omitted_iff upper.numeric nonzero upper.encloses
    (Relation.upperBounds_attained attained c.relation)]
  simp only [bounded.holdsAt_iff inequality]

end Constraint

end Penalty

end PseudoBoolean
