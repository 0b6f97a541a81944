import PseudoBoolean.Proofs.Landscape.Solve
import PseudoBoolean.Proofs.Quadratization.WellFormed

set_option autoImplicit false

namespace PseudoBoolean

open Multilinear

structure Majorizes (r p : NumericPoly) (added : List Label) : Prop where
  above : ∀ σ, valueAt σ p ≤ valueAt σ r
  reached : ∀ σ, ∃ τ, AgreeOff added σ τ ∧ valueAt τ r = valueAt σ p

theorem Majorizes.quadratize (p : NumericPoly) (options : Quadratization.Options)
    (extra : SortedSet Label)
    (strong : ∀ m, options.penalty = some m → Quadratization.highWeight p ≤ m) :
    Majorizes (p.quadratize options extra).poly p (p.quadratize options extra).labels := by
  have isLeast := Quadratization.isLeast_quadratize p options extra strong
  constructor
  · exact fun σ => (isLeast σ).2 ⟨σ, AgreeOff.refl _ σ, rfl⟩
  · exact fun σ => (isLeast σ).1

theorem Majorizes.value_eq {r p : NumericPoly} {added : List Label}
    (majorizes : Majorizes r p added) {least : Rat}
    (isLeast : IsLeast (Set.range fun σ => valueAt σ r) least) {σ : Label → Bool}
    (minimal : valueAt σ r = least) : valueAt σ p = least := by
  obtain ⟨τ, -, touched⟩ := majorizes.reached σ
  have above := majorizes.above σ
  have below := isLeast.2 ⟨τ, touched⟩
  linarith

theorem Majorizes.isLeast {r p : NumericPoly} {added : List Label} (majorizes : Majorizes r p added)
    {least : Rat} (isLeast : IsLeast (Set.range fun σ => valueAt σ r) least) :
    IsLeast (Set.range fun σ => valueAt σ p) least := by
  constructor
  · obtain ⟨σ, minimal⟩ := isLeast.1
    exact ⟨σ, majorizes.value_eq isLeast minimal⟩
  · rintro q ⟨σ, rfl⟩
    obtain ⟨τ, -, touched⟩ := majorizes.reached σ
    exact isLeast.2 ⟨τ, touched⟩

namespace NumericPoly

theorem landscape_energy {p : NumericPoly} {x : Indexing} (inside : ∀ v ∈ p.vars, v ∈ x.labels)
    (mask : Nat) : compiledValue (p.compile x) mask = valueAt (x.pull mask.testBit) p := by
  rw [compiledValue, compile, sumOf, sum_map_filter, List.map_map, valueAt, sum_map_filter]
  refine congrArg List.sum (List.map_congr_left fun e member => ?_)
  have part := Indexing.mask_and_eq_iff
    (fun v held => inside v (mem_vars.mpr ⟨e, member, held⟩)) mask
  simp only [Function.comp_apply, part, decide_eq_true_eq]

theorem represents_landscape (p : NumericPoly) (extra : SortedSet Label) :
    (p.landscape extra).Represents fun σ => valueAt σ p where
  energy := landscape_energy (Quadratization.covered_quadratize p extra)
  depends _ _ same := valueAt_congr fun v member =>
    same v (Quadratization.covered_quadratize p extra v member)

-- The masks of the monomials and the indexed tensor hold the same function.
theorem landscape_ofQuadratic (p : NumericPoly) (small : p.degree ≤ 2) (ancillas : List Ancilla)
    (extra : SortedSet Label) :
    (Qubo.ofQuadratic p small ancillas extra).landscape = p.landscape extra := by
  have inside := Quadratization.covered_quadratize p extra
  have energy : (Qubo.ofQuadratic p small ancillas extra).landscape.energy =
      (p.landscape extra).energy := by
    funext mask
    exact (Indexing.valueAt_encode inside mask.testBit).trans (landscape_energy inside mask).symm
  exact congrArg (Landscape.mk ⟨extra ∪ p.vars⟩) energy

theorem value_ofQuadratic (p : NumericPoly) (small : p.degree ≤ 2) (ancillas : List Ancilla)
    (extra : SortedSet Label) {bits : List Bool}
    (fits : bits.length = Indexing.size ⟨extra ∪ p.vars⟩) :
    (Qubo.ofQuadratic p small ancillas extra).value bits =
      .ok (valueAt (Indexing.assign ⟨extra ∪ p.vars⟩ bits).truth p) := by
  have inside := Quadratization.covered_quadratize p extra
  have energy : (Qubo.ofQuadratic p small ancillas extra).energy (fun i => bits.getD i false) =
      valueAt (Indexing.assign ⟨extra ∪ p.vars⟩ bits).truth p := by
    refine (Indexing.valueAt_encode inside fun i => bits.getD i false).trans ?_
    rw [Indexing.assign_eq fits]
    exact valueAt_congr fun v member => (Assignment.truth_ofTruth (inside v member)).symm
  exact (if_pos fits).trans (congrArg Except.ok energy)

-- A reduction with nothing to do gives back the polynomial, so both branches build this model.
theorem toQubo_eq (p : NumericPoly) (options : Quadratization.Options) (extra : SortedSet Label) :
    p.toQubo options extra =
      Qubo.ofQuadratic (p.quadratize options extra).poly (p.quadratize options extra).quadratic
        (p.quadratize options extra).ancillas extra := by
  by_cases small : p.degree ≤ 2
  · have direct : p.toQubo options extra = Qubo.ofQuadratic p small [] extra := dif_pos small
    have unchanged := (Quadratization.quadratize_reduces p options extra).unchanged small
    rw [direct]
    congr 1
    · exact unchanged.1.symm
    · exact unchanged.2.symm
  · exact dif_neg small

theorem represents_toQubo (p : NumericPoly) (options : Quadratization.Options)
    (extra : SortedSet Label) :
    (p.toQubo options extra).landscape.Represents
      fun σ => valueAt σ (p.quadratize options extra).poly := by
  rw [toQubo_eq, landscape_ofQuadratic]
  exact represents_landscape _ extra

theorem exists_model (p : NumericPoly) (options : Quadratization.Options)
    (extra : SortedSet Label)
    (strong : ∀ m, options.penalty = some m → Quadratization.highWeight p ≤ m) :
    ∃ r added, (p.toQubo options extra).landscape.Represents (fun σ => valueAt σ r) ∧
      Majorizes r p added ∧ (∀ v ∈ added, v ∉ extra) ∧
      ∀ v ∈ extra, v ∈ (p.toQubo options extra).landscape.indexing.labels := by
  refine ⟨_, _, p.represents_toQubo options extra,
    Majorizes.quadratize p options extra strong, ?_, ?_⟩
  · intro v new member
    exact Quadratization.label_not_mem_vars p options extra new
      (SortedSet.mem_union.mpr (Or.inl member))
  · intro v member
    rw [toQubo_eq]
    exact SortedSet.mem_union.mpr (Or.inl member)

end NumericPoly

end PseudoBoolean
