import PseudoBoolean.Proofs.Relation
import PseudoBoolean.Proofs.Slack.Labels
import PseudoBoolean.Proofs.Slack.Values

set_option autoImplicit false

namespace PseudoBoolean

open Multilinear PseudoBoolean.Poly

namespace Penalty

-- At least `strength` where `holds` fails, and nothing with the right slack where it does not.
structure Exact (P : Penalty) (holds : (Label → Bool) → Prop) (strength : Rat) : Prop where
  numeric : P.poly.Numeric
  nonneg : ∀ σ, 0 ≤ P.poly.numberAt σ
  charged : ∀ σ, ¬ holds σ → strength ≤ P.poly.numberAt σ
  attained : ∀ σ, holds σ → ∃ τ, AgreeOff P.slack σ τ ∧ P.poly.numberAt τ = 0

structure Bounded (g : Poly) (b : Bounds) : Prop where
  numeric : g.Numeric
  whole : ∀ σ, ∃ z : Int, g.numberAt σ = z
  encloses : ∀ σ, b.Encloses (g.numberAt σ)

theorem Bounded.upper {g : Poly} {b : Bounds} (bounded : Bounded g b) (r : Relation) :
    Bounded (r.upper g) (r.upperBounds b) where
  numeric := Relation.numeric_upper bounded.numeric r
  whole σ := by
    obtain ⟨z, value⟩ := bounded.whole σ
    exact Relation.whole_upper value r
  encloses σ := Relation.upperBounds_encloses (bounded.encloses σ) r

theorem Bounded.holdsAt_iff {c : Constraint} {b : Bounds} (bounded : Bounded c.poly b)
    (inequality : c.relation ≠ .equal) (σ : Label → Bool) :
    c.HoldsAt σ ↔ (c.relation.upper c.poly).numberAt σ ≤ 0 := by
  obtain ⟨z, value⟩ := bounded.whole σ
  exact Relation.holds_iff_upper inequality value

variable {q : Rat}

theorem exact_of_multiple {P : Penalty} {holds : (Label → Bool) → Prop} {w : (Label → Bool) → Int}
    (numeric : P.poly.Numeric) (positive : 0 < q) (value : ∀ σ, P.poly.numberAt σ = w σ * q)
    (nonneg : ∀ σ, 0 ≤ w σ) (violated : ∀ σ, ¬ holds σ → w σ ≠ 0)
    (attained : ∀ σ, holds σ → ∃ τ, AgreeOff P.slack σ τ ∧ w τ = 0) : P.Exact holds q where
  numeric := numeric
  nonneg σ := by
    rw [value]
    exact mul_nonneg (Int.cast_nonneg (nonneg σ)) (le_of_lt positive)
  charged σ failed := by
    have apart := violated σ failed
    have low := nonneg σ
    have large : (1 : Rat) ≤ w σ := by
      norm_cast
      omega
    rw [value]
    exact le_mul_of_one_le_left (le_of_lt positive) large
  attained σ held := by
    obtain ⟨τ, agree, zero⟩ := attained σ held
    exact ⟨τ, agree, by rw [value, zero, Int.cast_zero, zero_mul]⟩

variable {g : Poly} {b : Bounds}

theorem ofEqual_form (g : Poly) (strength : Coeff) (b : Bounds) :
    (0 ≤ b.lo ∧ (ofEqual g strength b).poly = g.scale strength) ∨
      (b.hi ≤ 0 ∧ (ofEqual g strength b).poly = -g.scale strength) ∨
      (ofEqual g strength b).poly = (g.pow 2).scale strength := by
  by_cases nonneg : 0 ≤ b.lo
  · exact Or.inl ⟨nonneg, by simp [ofEqual, nonneg]⟩
  by_cases nonpos : b.hi ≤ 0
  · exact Or.inr (Or.inl ⟨nonpos, by simp [ofEqual, nonneg, nonpos]⟩)
  · exact Or.inr (Or.inr (by simp [ofEqual, nonneg, nonpos]))

theorem ofEqual_exact (bounded : Bounded g b) (positive : 0 < q) :
    (ofEqual g (Coeff.number q) b).Exact (fun σ => g.numberAt σ = 0) q := by
  choose z value using bounded.whole
  have zero_iff (σ : Label → Bool) : g.numberAt σ = 0 ↔ z σ = 0 := by
    rw [value, Int.cast_eq_zero]
  have scaled (σ : Label → Bool) := numberAt_scale σ bounded.numeric q
  rcases ofEqual_form g (Coeff.number q) b with ⟨nonneg, poly⟩ | ⟨nonpos, poly⟩ | poly
  · have low (σ : Label → Bool) : 0 ≤ z σ := by
      have above := le_trans nonneg (bounded.encloses σ).1
      rw [value] at above
      exact_mod_cast above
    apply exact_of_multiple (w := z) (poly ▸ bounded.numeric.scale q) positive
    · intro σ
      rw [poly, scaled, value]
    · exact low
    · exact fun σ failed zero => failed ((zero_iff σ).mpr zero)
    · exact fun σ held => ⟨σ, AgreeOff.refl _ σ, (zero_iff σ).mp held⟩
  · have high (σ : Label → Bool) : z σ ≤ 0 := by
      have below := le_trans (bounded.encloses σ).2 nonpos
      rw [value] at below
      exact_mod_cast below
    apply exact_of_multiple (w := fun σ => -z σ) (poly ▸ (bounded.numeric.scale q).neg) positive
    · intro σ
      rw [poly, numberAt_neg, scaled, value, Int.cast_neg, neg_mul]
    · exact fun σ => Int.neg_nonneg.mpr (high σ)
    · exact fun σ failed zero => failed ((zero_iff σ).mpr (Int.neg_eq_zero.mp zero))
    · exact fun σ held => ⟨σ, AgreeOff.refl _ σ, Int.neg_eq_zero.mpr ((zero_iff σ).mp held)⟩
  · apply exact_of_multiple (w := fun σ => z σ ^ 2) (poly ▸ (bounded.numeric.pow 2).scale q)
      positive
    · intro σ
      rw [poly, numberAt_scale σ (bounded.numeric.pow 2), numberAt_pow σ bounded.numeric, value,
        Int.cast_pow]
    · exact fun σ => sq_nonneg (z σ)
    · exact fun σ failed zero => failed ((zero_iff σ).mpr (sq_eq_zero_iff.mp zero))
    · exact fun σ held => ⟨σ, AgreeOff.refl _ σ, sq_eq_zero_iff.mpr ((zero_iff σ).mp held)⟩

theorem vars_ofEqual {strength : Coeff} {v : Label}
    (member : v ∈ vars (ofEqual g strength b).poly) : v ∈ g.vars := by
  rcases ofEqual_form g strength b with ⟨-, poly⟩ | ⟨-, poly⟩ | poly <;> rw [poly] at member
  · exact vars_scale member
  · exact vars_scale (vars_neg member)
  · exact vars_pow (vars_scale member)

section AtMost

variable {taken : SortedSet Label} {start : Nat}

def room (b : Bounds) : Nat :=
  (-b.lo).floor.toNat

-- Bounds need not be whole, but a whole value has the room that their whole part leaves.
theorem neg_le_floor {z : Int} (above : b.lo ≤ z) : -z ≤ (-b.lo).floor := by
  rw [Rat.le_floor_iff, Int.cast_neg]
  exact neg_le_neg above

-- Without slack the value is never negative, so `g ≤ 0` says that it is zero.
theorem exact_scale (bounded : Bounded g b) (positive : 0 < q) (low : ∀ σ, 0 ≤ g.numberAt σ)
    (warnings : List Warning) :
    Exact ⟨g.scale (Coeff.number q), [], warnings⟩ (fun σ => g.numberAt σ ≤ 0) q := by
  choose z value using bounded.whole
  have whole (σ : Label → Bool) : 0 ≤ z σ := by
    have above := low σ
    rw [value] at above
    exact_mod_cast above
  have nonpos_iff (σ : Label → Bool) : g.numberAt σ ≤ 0 ↔ z σ ≤ 0 := by
    rw [value, Int.cast_nonpos]
  apply exact_of_multiple (w := z) (bounded.numeric.scale q) positive
  · intro σ
    rw [numberAt_scale σ bounded.numeric, value]
  · exact whole
  · exact fun σ failed zero => failed ((nonpos_iff σ).mpr (le_of_eq zero))
  · intro σ held
    exact ⟨σ, AgreeOff.refl _ σ, le_antisymm ((nonpos_iff σ).mp held) (whole σ)⟩

theorem numberAt_square {σ : Label → Bool} (numeric : g.Numeric) (labels : List Label)
    (ws : List Nat) :
    numberAt σ (FormalSum.scale (Coeff.number q) ((g + Slack.weighted labels ws).pow 2)) =
      (g.numberAt σ + Slack.chosen σ (labels.zip ws)) ^ 2 * q := by
  have sum := numeric.add (Slack.numeric_weighted labels ws)
  rw [numberAt_scale σ (sum.pow 2), numberAt_pow σ sum, numberAt_add,
    numberAt_of_valueAt (Slack.valueAt_weighted σ labels ws)]

theorem exact_square (bounded : Bounded g b) (positive : 0 < q) {labels : List Label}
    (paired : labels.length = (Slack.weights (room b)).length) (nodup : labels.Nodup)
    (apart : ∀ v ∈ labels, v ∉ g.vars) :
    Exact ⟨((g + Slack.weighted labels (Slack.weights (room b))).pow 2).scale (Coeff.number q),
      labels, []⟩ (fun σ => g.numberAt σ ≤ 0) q := by
  choose z value using bounded.whole
  have nonpos_iff (σ : Label → Bool) : g.numberAt σ ≤ 0 ↔ z σ ≤ 0 := by
    rw [value, Int.cast_nonpos]
  have numeric := bounded.numeric.add (Slack.numeric_weighted labels (Slack.weights (room b)))
  apply exact_of_multiple
    (w := fun σ => (z σ + Slack.chosen σ (labels.zip (Slack.weights (room b)))) ^ 2)
    ((numeric.pow 2).scale q) positive
  · intro σ
    rw [numberAt_square bounded.numeric, value]
    push_cast
    rfl
  · exact fun σ => sq_nonneg _
  · intro σ failed zero
    have sum := sq_eq_zero_iff.mp zero
    exact failed ((nonpos_iff σ).mpr (by omega))
  -- The slack makes up what `g` lacks to zero, and `g` does not change with it.
  · intro σ held
    have low := (nonpos_iff σ).mp held
    have enough : -z σ ≤ (-b.lo).floor := neg_le_floor (value σ ▸ (bounded.encloses σ).1)
    obtain ⟨τ, agree, chosen⟩ := Slack.exists_chosen_weights (k := (-z σ).toNat) paired nodup
      (by simp only [room]; omega) σ
    have kept : z τ = z σ := by
      have same : g.numberAt τ = g.numberAt σ := numberAt_agree apart agree
      rw [value, value] at same
      exact_mod_cast same
    exact ⟨τ, agree, by rw [kept, chosen, sq_eq_zero_iff]; omega⟩

theorem ofAtMost_exact (bounded : Bounded g b) (positive : 0 < q)
    (apart : ∀ v ∈ (ofAtMost g (Coeff.number q) b taken start).slack, v ∉ g.vars) :
    (ofAtMost g (Coeff.number q) b taken start).Exact (fun σ => g.numberAt σ ≤ 0) q := by
  simp only [ofAtMost] at apart ⊢
  by_cases always : b.hi ≤ 0
  · simp only [always, if_true]
    have held (σ : Label → Bool) : g.numberAt σ ≤ 0 := le_trans (bounded.encloses σ).2 always
    constructor
    · exact Numeric.zero
    · exact fun σ => le_refl 0
    · exact fun σ failed => absurd (held σ) failed
    · exact fun σ _ => ⟨σ, AgreeOff.refl _ σ, rfl⟩
  by_cases never : 0 < b.lo
  · simp only [always, never, if_true, if_false]
    apply exact_scale bounded positive
    exact fun σ => le_trans (le_of_lt never) (bounded.encloses σ).1
  by_cases tight : (-b.lo).floor.toNat = 0
  · simp only [always, never, tight, if_true, if_false]
    apply exact_scale bounded positive
    intro σ
    obtain ⟨z, value⟩ := bounded.whole σ
    have enough : -z ≤ (-b.lo).floor := neg_le_floor (value ▸ (bounded.encloses σ).1)
    rw [value, Int.cast_nonneg_iff]
    omega
  · simp only [always, never, tight, if_false] at apart ⊢
    exact exact_square bounded positive (Slack.length_labels taken start _)
      (Slack.nodup_labels taken start _) apart

def atMostCount (b : Bounds) : Nat :=
  if b.hi ≤ 0 ∨ 0 < b.lo ∨ room b = 0 then 0 else (room b).log2 + 1

theorem slack_ofAtMost (g : Poly) (strength : Coeff) (b : Bounds) :
    (ofAtMost g strength b taken start).slack = Slack.labels taken start (atMostCount b) := by
  by_cases always : b.hi ≤ 0
  · simp [ofAtMost, atMostCount, always, Slack.labels]
  by_cases never : 0 < b.lo
  · simp [ofAtMost, atMostCount, always, never, Slack.labels]
  by_cases tight : room b = 0
  · have tight' : (-b.lo).floor.toNat = 0 := tight
    simp [ofAtMost, atMostCount, always, never, tight, tight', Slack.labels]
  · have loose : ¬ (-b.lo).floor.toNat = 0 := tight
    simp only [ofAtMost, atMostCount, always, never, tight, loose, if_false, or_self]
    rw [Slack.length_weights]
    rfl

theorem vars_ofAtMost {strength : Coeff} {v : Label}
    (member : v ∈ vars (ofAtMost g strength b taken start).poly) :
    v ∈ g.vars ∨ v ∈ (ofAtMost g strength b taken start).slack := by
  simp only [ofAtMost] at member ⊢
  split at member
  · exact absurd member not_mem_vars_zero
  · split at member
    · exact Or.inl (vars_scale member)
    · split at member
      · exact Or.inl (vars_scale member)
      next always never tight =>
        simp only [always, never, tight, if_false]
        exact (vars_add (vars_pow (vars_scale member))).imp id Slack.mem_of_mem_vars_weighted

end AtMost

section Constraint

variable {c : Constraint} {taken : SortedSet Label} {start : Nat}

def slackCount : Relation → Bounds → Nat
  | .equal, _ => 0
  | .atMost, b => atMostCount b
  | .less, b => atMostCount (b.shift 1)
  | .atLeast, b => atMostCount b.negate
  | .greater, b => atMostCount (b.negate.shift 1)

theorem slack_ofConstraint (c : Constraint) (strength : Coeff) (b : Bounds) :
    (ofConstraint c strength b taken start).slack =
      Slack.labels taken start (slackCount c.relation b) := by
  cases relation : c.relation <;> simp only [ofConstraint, relation, slackCount]
  case equal => rfl
  all_goals exact slack_ofAtMost _ _ _

theorem vars_ofConstraint {strength : Coeff} {v : Label}
    (member : v ∈ vars (ofConstraint c strength b taken start).poly) :
    v ∈ c.poly.vars ∨ v ∈ (ofConstraint c strength b taken start).slack := by
  by_cases equality : c.relation = .equal
  · rw [ofConstraint_eq_ofEqual equality] at member
    exact Or.inl (vars_ofEqual member)
  · rw [ofConstraint_eq_ofAtMost equality] at member ⊢
    exact (vars_ofAtMost member).imp Relation.vars_upper id

theorem ofConstraint_exact (bounded : Bounded c.poly b) (positive : 0 < q)
    (apart : ∀ v ∈ (ofConstraint c (Coeff.number q) b taken start).slack, v ∉ c.poly.vars) :
    (ofConstraint c (Coeff.number q) b taken start).Exact (fun σ => c.HoldsAt σ) q := by
  by_cases equality : c.relation = .equal
  · have holds : (fun σ => c.HoldsAt σ) = fun σ => c.poly.numberAt σ = 0 := by
      funext σ
      simp [Constraint.HoldsAt, Relation.holds, equality]
    rw [ofConstraint_eq_ofEqual equality, holds]
    exact ofEqual_exact bounded positive
  · have holds : (fun σ => c.HoldsAt σ) = fun σ => (c.relation.upper c.poly).numberAt σ ≤ 0 := by
      funext σ
      obtain ⟨z, value⟩ := bounded.whole σ
      exact propext (Relation.holds_iff_upper equality value)
    rw [ofConstraint_eq_ofAtMost equality] at apart ⊢
    rw [holds]
    exact ofAtMost_exact (bounded.upper c.relation) positive fun v inside held =>
      apart v inside (Relation.vars_upper held)

end Constraint

end Penalty

end PseudoBoolean
