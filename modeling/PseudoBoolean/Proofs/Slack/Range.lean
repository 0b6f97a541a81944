import Mathlib.Data.Nat.Size
import PseudoBoolean.Proofs.Poly.Bounds
import PseudoBoolean.Proofs.Slack.Labels
import PseudoBoolean.Proofs.Slack.Values

set_option autoImplicit false

namespace PseudoBoolean

theorem SortedSet.singleton_injective {A : Type} [Ord A] :
    Function.Injective (singleton : A → SortedSet A) := by
  intro a b same
  have member : a ∈ singleton b := same ▸ mem_singleton.mpr rfl
  exact mem_singleton.mp member

namespace Slack

open Multilinear FormalSum

section Weights

variable {max : Nat} (positive : 0 < max)

include positive

theorem length_weights_eq_size : (weights max).length = max.size := by
  rw [length_weights]
  apply le_antisymm
  · exact Nat.lt_size.mpr (Nat.log2_self_le positive.ne')
  · exact Nat.size_le.mpr Nat.lt_log2_self

-- The powers add up to less than the maximum, so something is left for the last weight.
theorem weights_pos : ∀ w ∈ weights max, 0 < w := by
  intro w listed
  simp only [weights_eq, List.mem_append, List.mem_map, List.mem_singleton] at listed
  rcases listed with ⟨i, -, rfl⟩ | rfl
  · exact Nat.two_pow_pos i
  · have power := Nat.two_pow_pos max.log2
    have below := Nat.log2_self_le positive.ne'
    omega

end Weights

section Terms

variable {labels : List Label} {ws : List Nat}

theorem map_fst_terms (paired : labels.length = ws.length) :
    ((labels.zip ws).map fun t => (SortedSet.singleton t.1, Coeff.number t.2)).map Prod.fst =
      labels.map SortedSet.singleton := by
  conv_rhs => rw [← map_fst_zip_weights paired]
  simp only [List.map_map]
  rfl

variable (paired : labels.length = ws.length) (nodup : labels.Nodup) (positive : ∀ w ∈ ws, 0 < w)

include paired nodup positive

theorem mem_entries_weighted {e : Monomial Label × Coeff} :
    e ∈ (weighted labels ws).entries ↔
      ∃ v w, (v, w) ∈ labels.zip ws ∧ e = (SortedSet.singleton v, Coeff.number w) := by
  have distinct : (((labels.zip ws).map fun t =>
      (SortedSet.singleton t.1, Coeff.number t.2)).map Prod.fst).Nodup := by
    rw [map_fst_terms paired]
    exact nodup.map SortedSet.singleton_injective
  have nonzero : ∀ e ∈ (labels.zip ws).map fun t =>
      ((SortedSet.singleton t.1 : Monomial Label), Coeff.number t.2), e.2 ≠ 0 := by
    intro e listed
    obtain ⟨t, member, rfl⟩ := List.mem_map.mp listed
    have above := positive t.2 (List.of_mem_zip member).2
    exact fun zero => above.ne' (Nat.cast_eq_zero.mp (Coeff.number_eq_zero_iff.mp zero))
  rw [weighted, mem_entries_ofList distinct nonzero]
  simp [eq_comm]

theorem vars_weighted : (weighted labels ws).vars = SortedSet.ofList labels := by
  apply SortedSet.ext_mem
  intro v
  rw [SortedSet.mem_ofList]
  constructor
  · exact mem_of_mem_vars_weighted
  · intro listed
    rw [← map_fst_zip_weights paired] at listed
    obtain ⟨t, member, rfl⟩ := List.mem_map.mp listed
    have stored := (mem_entries_weighted paired nodup positive).mpr ⟨t.1, t.2, member, rfl⟩
    exact mem_vars.mpr ⟨_, stored, SortedSet.mem_singleton.mpr rfl⟩

end Terms

theorem values_weighted {labels : List Label} {max : Nat}
    (paired : labels.length = (weights max).length) (nodup : labels.Nodup) {q : Rat} :
    (∃ a : Assignment, a.keys = (weighted labels (weights max)).vars ∧
        (weighted labels (weights max)).value a = .ok q) ↔
      ∃ k : Nat, k ≤ max ∧ q = k := by
  have numeric := numeric_weighted labels (weights max)
  have number (σ : Label → Bool) : Poly.numberAt σ (weighted labels (weights max)) =
      chosen σ (labels.zip (weights max)) := Poly.numberAt_of_valueAt (valueAt_weighted σ _ _)
  constructor
  · rintro ⟨a, keys, value⟩
    have covered : a.Covers (weighted labels (weights max)).vars := fun v member => keys ▸ member
    rw [Poly.value_eq_ok numeric covered, number, Except.ok.injEq] at value
    exact ⟨_, chosen_weights_le paired a.truth, value.symm⟩
  · rintro ⟨k, small, rfl⟩
    obtain ⟨σ, -, sum⟩ := exists_chosen_weights paired nodup small fun _ => false
    refine ⟨_, Assignment.keys_ofTruth _ σ, ?_⟩
    rw [Poly.value_ofTruth numeric, number, sum]

/-- The values of the slack are the whole numbers from zero to `max`. -/
theorem weighted_covers (taken : SortedSet Label) (start : Nat) {max : Nat} (positive : 0 < max) :
    let ws := weights max
    let vs := labels taken start ws.length
    let p := weighted vs ws
    (vs.length = max.size ∧ vs.Nodup ∧ (∀ v ∈ vs, v ∉ taken) ∧ p.vars = SortedSet.ofList vs) ∧
      (ws.length = max.size ∧ (∀ w ∈ ws, 0 < w) ∧ ws.sum = max) ∧
      (∀ e, e ∈ p.entries ↔
        ∃ v w, (v, w) ∈ vs.zip ws ∧ e = (SortedSet.singleton v, Coeff.number w)) ∧
      ∀ q, (∃ a : Assignment, a.keys = p.vars ∧ p.value a = .ok q) ↔
        ∃ k : Nat, k ≤ max ∧ q = k := by
  intro ws vs p
  have paired : vs.length = ws.length := length_labels taken start ws.length
  have nodup : vs.Nodup := nodup_labels taken start ws.length
  have digits : ws.length = max.size := length_weights_eq_size positive
  have above : ∀ w ∈ ws, 0 < w := weights_pos positive
  have new : ∀ v ∈ vs, v ∉ taken := fun v => not_taken_of_mem_labels
  refine ⟨⟨paired.trans digits, nodup, new, vars_weighted paired nodup above⟩,
    ⟨digits, above, sum_weights max⟩, ?_, ?_⟩
  · exact fun e => mem_entries_weighted paired nodup above
  · exact fun q => values_weighted paired nodup

-- Five is `1 + 2 + 2` with the last weight cut, and the first name is taken.
theorem weighted_covers_five :
    let taken := SortedSet.singleton (name 0)
    let p := weighted [name 1, name 2, name 3] [1, 2, 2]
    0 < 5 ∧ labels taken 0 3 = [name 1, name 2, name 3] ∧
      p.vars = SortedSet.ofList [name 1, name 2, name 3] ∧
      (∃ a : Assignment, a.keys = p.vars ∧ p.value a = .ok 5) ∧
      ¬ ∃ a : Assignment, a.keys = p.vars ∧ p.value a = .ok 6 := by
  intro taken p
  have weights : weights 5 = [1, 2, 2] := by decide +kernel
  have names : labels taken 0 3 = [name 1, name 2, name 3] := by decide +kernel
  have positive : 0 < 5 := by decide
  have covers := weighted_covers taken 0 positive
  rw [weights] at covers
  simp only [List.length_cons, List.length_nil, names] at covers
  obtain ⟨⟨-, -, -, vars⟩, -, -, values⟩ := covers
  refine ⟨positive, names, vars, (values 5).mpr ⟨5, le_rfl, rfl⟩, fun reached => ?_⟩
  obtain ⟨k, small, same⟩ := (values 6).mp reached
  have equal : k = 6 := by exact_mod_cast same.symm
  omega

end Slack

end PseudoBoolean
