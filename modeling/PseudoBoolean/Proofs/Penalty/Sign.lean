import PseudoBoolean.Proofs.Penalty

set_option autoImplicit false

namespace PseudoBoolean

open Multilinear PseudoBoolean.Poly

namespace Penalty

variable {g : Poly} {b : Bounds} {strength : Coeff} {q : Rat} {σ : Label → Bool}
  {taken : SortedSet Label} {start : Nat}

section Equal

theorem numeric_ofEqual (numeric : g.Numeric) : (ofEqual g (Coeff.number q) b).poly.Numeric := by
  rcases ofEqual_form g (Coeff.number q) b with ⟨-, form⟩ | ⟨-, form⟩ | form
  · exact form ▸ numeric.scale q
  · exact form ▸ (numeric.scale q).neg
  · exact form ▸ (numeric.pow 2).scale q

-- All three forms have the same sign, whatever values `g` takes between the bounds.
theorem ofEqual_sign (numeric : g.Numeric) (positive : 0 < q)
    (encloses : b.Encloses (g.numberAt σ)) :
    0 ≤ (ofEqual g (Coeff.number q) b).poly.numberAt σ ∧
      (g.numberAt σ ≠ 0 → 0 < (ofEqual g (Coeff.number q) b).poly.numberAt σ) := by
  obtain ⟨above, below⟩ := encloses
  have scaled := numberAt_scale σ numeric q
  rcases ofEqual_form g (Coeff.number q) b with ⟨nonneg, form⟩ | ⟨nonpos, form⟩ | form
  · have low : 0 ≤ g.numberAt σ := nonneg.trans above
    rw [form, scaled]
    refine ⟨mul_nonneg low positive.le, fun apart => ?_⟩
    exact mul_pos (lt_of_le_of_ne low apart.symm) positive
  · have high : g.numberAt σ ≤ 0 := below.trans nonpos
    rw [form, numberAt_neg, scaled, ← neg_mul]
    refine ⟨mul_nonneg (neg_nonneg.mpr high) positive.le, fun apart => ?_⟩
    exact mul_pos (neg_pos.mpr (lt_of_le_of_ne high apart)) positive
  · rw [form, numberAt_scale σ (numeric.pow 2), numberAt_pow σ numeric]
    refine ⟨mul_nonneg (sq_nonneg _) positive.le, fun apart => ?_⟩
    exact mul_pos (sq_pos_of_ne_zero apart) positive

end Equal

section AtMost

theorem room_eq_zero_iff (b : Bounds) : room b = 0 ↔ -1 < b.lo := by
  have one_le : 1 ≤ (-b.lo).floor ↔ b.lo ≤ -1 := by
    rw [Rat.le_floor_iff, Int.cast_one, le_neg]
  rw [← not_le, ← one_le, room]
  omega

def Unslacked (b : Bounds) : Prop :=
  0 < b.hi ∧ -1 < b.lo

theorem ofAtMost_form (g : Poly) (strength : Coeff) (b : Bounds) (taken : SortedSet Label)
    (start : Nat) :
    (b.hi ≤ 0 ∧ (ofAtMost g strength b taken start).poly = 0) ∨
      (Unslacked b ∧ (ofAtMost g strength b taken start).poly = g.scale strength) ∨
      (¬ Unslacked b ∧ ∃ labels, (ofAtMost g strength b taken start).poly =
        FormalSum.scale strength ((g + Slack.weighted labels (Slack.weights (room b))).pow 2)) := by
  by_cases always : b.hi ≤ 0
  · exact Or.inl ⟨always, by simp [ofAtMost, always]⟩
  have possible : 0 < b.hi := lt_of_not_ge always
  by_cases never : 0 < b.lo
  · have above : -1 < b.lo := by linarith
    exact Or.inr (Or.inl ⟨⟨possible, above⟩, by simp [ofAtMost, always, never]⟩)
  by_cases tight : (-b.lo).floor.toNat = 0
  · have above := (room_eq_zero_iff b).mp tight
    exact Or.inr (Or.inl ⟨⟨possible, above⟩, by simp [ofAtMost, always, never, tight]⟩)
  · have slacked : ¬ Unslacked b := fun unslacked => tight ((room_eq_zero_iff b).mpr unslacked.2)
    refine Or.inr (Or.inr ⟨slacked, Slack.labels taken start (Slack.weights (room b)).length, ?_⟩)
    simp only [ofAtMost, always, never, tight, if_false, room]

theorem numeric_ofAtMost (numeric : g.Numeric) :
    (ofAtMost g (Coeff.number q) b taken start).poly.Numeric := by
  rcases ofAtMost_form g (Coeff.number q) b taken start with
    ⟨-, form⟩ | ⟨-, form⟩ | ⟨-, labels, form⟩
  · exact form ▸ Numeric.zero
  · exact form ▸ numeric.scale q
  · exact form ▸ ((numeric.add (Slack.numeric_weighted labels _)).pow 2).scale q

-- Slack is never negative, so it hides no violation, also where it shares labels with `g`.
theorem ofAtMost_pos (numeric : g.Numeric) (positive : 0 < q)
    (encloses : b.Encloses (g.numberAt σ)) (violated : 0 < g.numberAt σ) :
    0 < (ofAtMost g (Coeff.number q) b taken start).poly.numberAt σ := by
  rcases ofAtMost_form g (Coeff.number q) b taken start with
    ⟨always, -⟩ | ⟨-, form⟩ | ⟨-, labels, form⟩
  · exact absurd (encloses.2.trans always) (not_le.mpr violated)
  · rw [form, numberAt_scale σ numeric]
    exact mul_pos violated positive
  · rw [form, numberAt_square numeric]
    exact mul_pos (pow_pos (add_pos_of_pos_of_nonneg violated (Nat.cast_nonneg _)) 2) positive

theorem ofAtMost_neg_iff (numeric : g.Numeric) (positive : 0 < q) :
    (ofAtMost g (Coeff.number q) b taken start).poly.numberAt σ < 0 ↔
      Unslacked b ∧ g.numberAt σ < 0 := by
  rcases ofAtMost_form g (Coeff.number q) b taken start with
    ⟨always, form⟩ | ⟨unslacked, form⟩ | ⟨slacked, labels, form⟩
  · have closed : ¬ Unslacked b := fun unslacked => not_lt.mpr always unslacked.1
    simp [form, closed]
  · rw [form, numberAt_scale σ numeric, and_iff_right unslacked]
    exact ⟨fun below => neg_of_mul_neg_left below positive.le,
      fun below => mul_neg_of_neg_of_pos below positive⟩
  · rw [form, numberAt_square numeric]
    refine iff_of_false (not_lt.mpr ?_) fun both => slacked both.1
    exact mul_nonneg (sq_nonneg _) positive.le

end AtMost

section Constraint

variable {c : Constraint}

theorem numeric_ofConstraint (numeric : c.poly.Numeric) :
    (ofConstraint c (Coeff.number q) b taken start).poly.Numeric := by
  by_cases equality : c.relation = .equal
  · rw [ofConstraint_eq_ofEqual equality]
    exact numeric_ofEqual numeric
  · rw [ofConstraint_eq_ofAtMost equality]
    exact numeric_ofAtMost (Relation.numeric_upper numeric c.relation)

theorem ofConstraint_pos (numeric : c.poly.Numeric) (positive : 0 < q)
    (encloses : b.Encloses (c.poly.numberAt σ)) (violated : ¬ c.HoldsAt σ) :
    0 < (ofConstraint c (Coeff.number q) b taken start).poly.numberAt σ := by
  by_cases equality : c.relation = .equal
  · have apart : c.poly.numberAt σ ≠ 0 := fun zero =>
      violated ((Constraint.holdsAt_equal equality).mpr zero)
    rw [ofConstraint_eq_ofEqual equality]
    exact (ofEqual_sign numeric positive encloses).2 apart
  · rw [ofConstraint_eq_ofAtMost equality]
    exact ofAtMost_pos (Relation.numeric_upper numeric c.relation) positive
      (Relation.upperBounds_encloses encloses c.relation) (Relation.upper_pos equality violated)

theorem ofConstraint_neg_iff (numeric : c.poly.Numeric) (positive : 0 < q)
    (encloses : b.Encloses (c.poly.numberAt σ)) :
    (ofConstraint c (Coeff.number q) b taken start).poly.numberAt σ < 0 ↔
      c.relation ≠ .equal ∧ Unslacked (c.relation.upperBounds b) ∧
        (c.relation.upper c.poly).numberAt σ < 0 := by
  by_cases equality : c.relation = .equal
  · rw [ofConstraint_eq_ofEqual equality]
    have nonneg := (ofEqual_sign numeric positive encloses).1
    exact iff_of_false (not_lt.mpr nonneg) fun three => three.1 equality
  · rw [ofConstraint_eq_ofAtMost equality,
      ofAtMost_neg_iff (Relation.numeric_upper numeric c.relation) positive]
    exact (and_iff_right equality).symm

end Constraint

end Penalty

end PseudoBoolean
