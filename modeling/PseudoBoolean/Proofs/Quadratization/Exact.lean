import PseudoBoolean.Proofs.Quadratization.Run

set_option autoImplicit false

namespace PseudoBoolean.Quadratization

open Multilinear

namespace Result

def labels (r : Result) : List Label :=
  r.ancillas.map Ancilla.label

def Consistent (σ : Label → Bool) (r : Result) : Prop :=
  ∀ a ∈ r.ancillas, a.Consistent σ

end Result

theorem wrong_eq_zero_iff {σ : Label → Bool} {r : Result} :
    wrong σ r.ancillas = 0 ↔ r.Consistent σ := by
  rw [wrong, List.countP_eq_zero]
  exact forall₂_congr fun a _ => by simp

section Quadratize

variable (p : NumericPoly) (options : Options) (reserved : SortedSet Label)

theorem quadratize_reduces :
    Reduces options p (reserved ∪ p.vars) (p.quadratize options reserved).poly
      (p.quadratize options reserved).ancillas :=
  reduceFrom_reduces options p (reserved ∪ p.vars) 0

theorem label_not_mem_vars {v : Label} (new : v ∈ (p.quadratize options reserved).labels) :
    v ∉ reserved ∪ p.vars := by
  obtain ⟨a, inside, rfl⟩ := List.mem_map.mp new
  exact (quadratize_reduces p options reserved).label_not_taken a inside

theorem derived_consistent (σ : Label → Bool) :
    (p.quadratize options reserved).Consistent
      (derived σ (p.quadratize options reserved).ancillas) :=
  (quadratize_reduces p options reserved).derived_consistent
    (fun _ member => SortedSet.mem_union.mpr (Or.inr member)) σ

theorem exists_consistent (σ : Label → Bool) :
    ∃ τ, AgreeOff (p.quadratize options reserved).labels σ τ ∧
      (p.quadratize options reserved).Consistent τ :=
  ⟨_, derived_agree σ _, derived_consistent p options reserved σ⟩

theorem valueAt_quadratize {σ : Label → Bool}
    (consistent : (p.quadratize options reserved).Consistent σ) :
    valueAt σ (p.quadratize options reserved).poly = valueAt σ p :=
  (quadratize_reduces p options reserved).valueAt_consistent consistent

theorem valueAt_of_agree {σ τ : Label → Bool}
    (agree : AgreeOff (p.quadratize options reserved).labels σ τ) : valueAt τ p = valueAt σ p := by
  refine valueAt_congr fun v member => agree v fun new => ?_
  exact label_not_mem_vars p options reserved new (SortedSet.mem_union.mpr (Or.inr member))

-- What `τ` says of labels that the result has lost does not matter.
theorem valueAt_of_derived {σ τ : Label → Bool} (known : ∀ v ∈ p.vars, τ v = σ v)
    (settled : ∀ v ∈ (p.quadratize options reserved).labels,
      v ∈ (p.quadratize options reserved).poly.vars →
        τ v = derived σ (p.quadratize options reserved).ancillas v) :
    valueAt τ (p.quadratize options reserved).poly = valueAt σ p := by
  have agree := derived_agree σ (p.quadratize options reserved).ancillas
  rw [← valueAt_of_agree p options reserved agree,
    ← valueAt_quadratize p options reserved (derived_consistent p options reserved σ)]
  refine valueAt_congr fun v member => ?_
  rcases (quadratize_reduces p options reserved).vars_subset v member with old | new
  · have outside : v ∉ (p.quadratize options reserved).labels := fun new =>
      label_not_mem_vars p options reserved new (SortedSet.mem_union.mpr (Or.inr old))
    rw [known v old, agree v outside]
  · exact settled v new member

theorem valueAt_quadratize_eq_iff (computed : options.penalty = none) (σ : Label → Bool) :
    valueAt σ (p.quadratize options reserved).poly = valueAt σ p ↔
      (p.quadratize options reserved).Consistent σ := by
  constructor
  · intro same
    have bound := (quadratize_reduces p options reserved).add_wrong_le computed σ
    rw [same] at bound
    have none : wrong σ (p.quadratize options reserved).ancillas = 0 := by
      have small : ((wrong σ (p.quadratize options reserved).ancillas : Nat) : Rat) ≤ 0 := by
        linarith
      exact Nat.le_zero.mp (by exact_mod_cast small)
    exact wrong_eq_zero_iff.mp none
  · exact valueAt_quadratize p options reserved

theorem isLeast_quadratize (strong : ∀ m, options.penalty = some m → highWeight p ≤ m)
    (σ : Label → Bool) :
    IsLeast (valuesOver (p.quadratize options reserved).labels
      (fun τ => valueAt τ (p.quadratize options reserved).poly) σ) (valueAt σ p) := by
  constructor
  · obtain ⟨τ, agree, consistent⟩ := exists_consistent p options reserved σ
    refine ⟨τ, agree, ?_⟩
    rw [← valueAt_of_agree p options reserved agree]
    exact valueAt_quadratize p options reserved consistent
  · rintro q ⟨τ, agree, rfl⟩
    rw [← valueAt_of_agree p options reserved agree]
    exact (quadratize_reduces p options reserved).valueAt_le strong τ

/-- Where the new variables carry their products the value is that of `p`. With computed penalties
each wrong one costs at least one. -/
theorem quadratize_exact (σ : Label → Bool) :
    let r := p.quadratize options reserved
    (∀ τ, AgreeOff r.labels σ τ → valueAt τ p = valueAt σ p) ∧
      (∃ τ, AgreeOff r.labels σ τ ∧ r.Consistent τ) ∧
      (r.Consistent σ → valueAt σ r.poly = valueAt σ p) ∧
      (options.penalty = none →
        valueAt σ p + wrong σ r.ancillas ≤ valueAt σ r.poly ∧
          IsLeast (valuesOver r.labels (fun τ => valueAt τ r.poly) σ) (valueAt σ p) ∧
          ∀ τ, AgreeOff r.labels σ τ → (valueAt τ r.poly = valueAt σ p ↔ r.Consistent τ)) ∧
      (∀ m, options.penalty = some m → highWeight p ≤ m →
        IsLeast (valuesOver r.labels (fun τ => valueAt τ r.poly) σ) (valueAt σ p)) := by
  intro r
  refine ⟨fun τ agree => valueAt_of_agree p options reserved agree,
    exists_consistent p options reserved σ, valueAt_quadratize p options reserved, ?_, ?_⟩
  · intro computed
    have strong : ∀ m, options.penalty = some m → highWeight p ≤ m := by simp [computed]
    refine ⟨(quadratize_reduces p options reserved).add_wrong_le computed σ,
      isLeast_quadratize p options reserved strong σ, ?_⟩
    intro τ agree
    rw [← valueAt_of_agree p options reserved agree]
    exact valueAt_quadratize_eq_iff p options reserved computed τ
  · intro m given enough
    refine isLeast_quadratize p options reserved ?_ σ
    intro n other
    rw [given, Option.some.injEq] at other
    exact other ▸ enough

end Quadratize

end PseudoBoolean.Quadratization
