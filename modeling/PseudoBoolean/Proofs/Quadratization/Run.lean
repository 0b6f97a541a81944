import PseudoBoolean.Proofs.FreshName
import PseudoBoolean.Proofs.Quadratization.Step

set_option autoImplicit false

namespace PseudoBoolean.Quadratization

open Multilinear

inductive Reduces (options : Options) :
    NumericPoly → SortedSet Label → NumericPoly → List Ancilla → Prop where
  | done {p : NumericPoly} {taken : SortedSet Label} (low : p.mostCommonPair = none) :
      Reduces options p taken p []
  | step {p q : NumericPoly} {taken : SortedSet Label} {ancillas : List Ancilla} {c : Pair Label}
      {a : Label} {weight : Rat} (chosen : p.mostCommonPair = some c) (fresh : a ∉ taken)
      (strength : weight = options.penalty.getD (contractedWeight p c + 1))
      (rest : Reduces options (replace p c a weight) (taken.insert a) q ancillas) :
      Reduces options p taken q (⟨a, c, weight⟩ :: ancillas)

theorem reduceFrom_reduces (options : Options) (p : NumericPoly) (taken : SortedSet Label)
    (counter : Nat) :
    Reduces options p taken (reduceFrom options p taken counter).poly
      (reduceFrom options p taken counter).ancillas := by
  induction p, taken, counter using reduceFrom.induct options with
  | case1 p taken counter chosen =>
    rw [reduceFrom]
    split
    next => exact Reduces.done chosen
    next c other => rw [chosen] at other; cases other
  | case2 p taken counter c chosen n a weight ih =>
    rw [reduceFrom]
    split
    next none => rw [chosen] at none; cases none
    next d other =>
      have same : c = d := Option.some.inj (chosen.symm.trans other)
      subst same
      exact Reduces.step chosen (firstFresh_free (ancillaName_injective _ _)) rfl ih

theorem vars_replace {p : NumericPoly} {c : Pair Label} {a : Label} {weight : Rat}
    (left : c.left ∈ p.vars) (right : c.right ∈ p.vars) {v : Label}
    (member : v ∈ (replace p c a weight).vars) : v = a ∨ v ∈ p.vars := by
  rcases vars_add member with contracted | penalized
  · obtain ⟨t, inside, held⟩ := vars_ofList contracted
    obtain ⟨e, found, rfl⟩ := List.mem_map.mp inside
    by_cases changed : 2 < e.1.degree ∧ c.left ∈ e.1 ∧ c.right ∈ e.1
    · rcases (mem_contractMonomial changed).mp held with new | ⟨old, -, -⟩
      · exact Or.inl new
      · exact Or.inr (mem_vars.mpr ⟨e, found, old⟩)
    · rw [contractMonomial_of_not_held changed] at held
      exact Or.inr (mem_vars.mpr ⟨e, found, held⟩)
  · obtain ⟨t, inside, held⟩ := vars_ofList penalized
    have listed : v = c.left ∨ v = c.right ∨ v = a := by
      simp only [List.mem_cons, List.not_mem_nil, or_false] at inside
      rcases inside with rfl | rfl | rfl | rfl <;>
        simp only [SortedSet.mem_ofList, List.mem_cons, List.not_mem_nil, or_false] at held <;>
        tauto
    rcases listed with rfl | rfl | rfl
    · exact Or.inr left
    · exact Or.inr right
    · exact Or.inl rfl

theorem pair_mem_vars {p : NumericPoly} {c : Pair Label} (chosen : p.mostCommonPair = some c) :
    c.left ∈ p.vars ∧ c.right ∈ p.vars := by
  obtain ⟨e, inside, -, left, right, -⟩ := mostCommonPair_mem chosen
  exact ⟨mem_vars.mpr ⟨e, inside, left⟩, mem_vars.mpr ⟨e, inside, right⟩⟩

theorem covered_replace {p : NumericPoly} {taken : SortedSet Label} {c : Pair Label}
    (covered : ∀ v ∈ p.vars, v ∈ taken) (chosen : p.mostCommonPair = some c) (a : Label)
    (weight : Rat) : ∀ v ∈ (replace p c a weight).vars, v ∈ taken.insert a := by
  intro v member
  have sides := pair_mem_vars chosen
  exact SortedSet.mem_insert.mpr ((vars_replace sides.1 sides.2 member).imp id (covered v))

def wrong (σ : Label → Bool) (ancillas : List Ancilla) : Nat :=
  ancillas.countP fun a => ¬ a.Consistent σ

def derived (σ : Label → Bool) (ancillas : List Ancilla) : Label → Bool :=
  ancillas.foldl (fun τ a v => if v = a.label then τ a.pair.left && τ a.pair.right else τ v) σ

theorem derived_agree (σ : Label → Bool) (ancillas : List Ancilla) :
    AgreeOff (ancillas.map Ancilla.label) σ (derived σ ancillas) := by
  induction ancillas generalizing σ with
  | nil => exact AgreeOff.refl _ σ
  | cons a later ih =>
    refine AgreeOff.trans (AgreeOff.update List.mem_cons_self _) ((ih _).mono ?_)
    exact fun v inside => List.mem_cons_of_mem a.label inside

namespace Reduces

variable {options : Options} {p q : NumericPoly} {taken : SortedSet Label} {ancillas : List Ancilla}

theorem valueAt_consistent (reduces : Reduces options p taken q ancillas) {σ : Label → Bool}
    (consistent : ∀ a ∈ ancillas, a.Consistent σ) : valueAt σ q = valueAt σ p := by
  induction reduces with
  | done low => rfl
  | step chosen fresh strength rest ih =>
    obtain ⟨first, later⟩ := List.forall_mem_cons.mp consistent
    rw [ih later, valueAt_replace_consistent first]

theorem add_wrong_le (reduces : Reduces options p taken q ancillas)
    (computed : options.penalty = none) (σ : Label → Bool) :
    valueAt σ p + wrong σ ancillas ≤ valueAt σ q := by
  induction reduces with
  | done low => simp [wrong]
  | @step p q taken ancillas c a weight chosen fresh strength rest ih =>
    have heavy : weight = contractedWeight p c + 1 := by rw [strength, computed, Option.getD_none]
    have nonneg := contractedWeight_nonneg (c := c) p
    by_cases first : Ancilla.Consistent σ ⟨a, c, weight⟩
    · have kept := valueAt_replace_consistent first p weight
      have counted : wrong σ (⟨a, c, weight⟩ :: ancillas) = wrong σ ancillas := by
        simp [wrong, first]
      rw [counted]
      linarith
    · have grown := le_valueAt_replace first p weight (by linarith)
      have counted : wrong σ (⟨a, c, weight⟩ :: ancillas) = wrong σ ancillas + 1 := by
        simp [wrong, first]
      rw [counted]
      push_cast
      linarith

theorem valueAt_le (reduces : Reduces options p taken q ancillas)
    (strong : ∀ m, options.penalty = some m → highWeight p ≤ m) (σ : Label → Bool) :
    valueAt σ p ≤ valueAt σ q := by
  induction reduces with
  | done low => exact le_refl _
  | @step p q taken ancillas c a weight chosen fresh strength rest ih =>
    obtain ⟨-, -, -, -, -, before⟩ := mostCommonPair_mem chosen
    have nonneg := contractedWeight_nonneg (c := c) p
    have part := contractedWeight_le_highWeight (c := c) p
    have heavy : contractedWeight p c ≤ weight := by
      cases given : options.penalty with
      | none =>
        rw [given, Option.getD_none] at strength
        linarith
      | some m =>
        rw [given, Option.getD_some] at strength
        have enough := strong m given
        linarith
    have next := ih fun m given => le_trans (highWeight_replace_le before p weight) (strong m given)
    by_cases first : Ancilla.Consistent σ ⟨a, c, weight⟩
    · have kept := valueAt_replace_consistent first p weight
      linarith
    · have grown := le_valueAt_replace first p weight (by linarith)
      linarith

theorem label_not_taken (reduces : Reduces options p taken q ancillas) :
    ∀ a ∈ ancillas, a.label ∉ taken := by
  induction reduces with
  | done low => simp
  | step chosen fresh strength rest ih =>
    refine List.forall_mem_cons.mpr ⟨fresh, ?_⟩
    intro a inside old
    exact ih a inside (SortedSet.mem_insert.mpr (Or.inr old))

-- No pair is changed by a later step, so what a step has made consistent stays so.
theorem derived_consistent (reduces : Reduces options p taken q ancillas)
    (covered : ∀ v ∈ p.vars, v ∈ taken) (σ : Label → Bool) :
    ∀ a ∈ ancillas, a.Consistent (derived σ ancillas) := by
  induction reduces generalizing σ with
  | done low => simp
  | @step p q taken ancillas c a weight chosen fresh strength rest ih =>
    obtain ⟨left, right⟩ := pair_mem_vars chosen
    let τ : Label → Bool := fun v => if v = a then σ c.left && σ c.right else σ v
    have kept : ∀ v ∈ taken.insert a, derived τ ancillas v = τ v := by
      intro v old
      refine derived_agree τ ancillas v fun new => ?_
      obtain ⟨b, inside, rfl⟩ := List.mem_map.mp new
      exact rest.label_not_taken b inside old
    have before : ∀ v ∈ taken, derived τ ancillas v = σ v := by
      intro v old
      have apart : v ≠ a := fun same => fresh (same ▸ old)
      rw [kept v (SortedSet.mem_insert.mpr (Or.inr old))]
      exact if_neg apart
    refine List.forall_mem_cons.mpr ⟨?_, ih (covered_replace covered chosen a weight) τ⟩
    have new : derived τ ancillas a = (σ c.left && σ c.right) := by
      rw [kept a (SortedSet.mem_insert.mpr (Or.inl rfl))]
      exact if_pos rfl
    change derived τ ancillas a = (derived τ ancillas c.left && derived τ ancillas c.right)
    rw [new, before _ (covered _ left), before _ (covered _ right)]

-- With a penalty of zero variables can get lost, but none comes from elsewhere.
theorem vars_subset (reduces : Reduces options p taken q ancillas) :
    ∀ v ∈ q.vars, v ∈ p.vars ∨ v ∈ ancillas.map Ancilla.label := by
  induction reduces with
  | done low => exact fun v member => Or.inl member
  | @step p q taken ancillas c a weight chosen fresh strength rest ih =>
    intro v member
    obtain ⟨left, right⟩ := pair_mem_vars chosen
    rw [List.map_cons, List.mem_cons]
    rcases ih v member with old | later
    · rcases vars_replace left right old with new | original
      · exact Or.inr (Or.inl new)
      · exact Or.inl original
    · exact Or.inr (Or.inr later)

end Reduces

end PseudoBoolean.Quadratization
