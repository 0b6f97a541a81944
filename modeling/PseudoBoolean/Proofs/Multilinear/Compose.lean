import PseudoBoolean.Proofs.Multilinear.Unique
import PseudoBoolean.Proofs.Multilinear.Variables

set_option autoImplicit false

namespace PseudoBoolean

open Std

theorem Monomial.holds_erase {A : Type} [Ord A] [DecidableEq A] (σ : A → Bool) (m : Monomial A)
    (v : A) : Monomial.holds σ (m.erase v) = m.holds (Function.update σ v true) := by
  rw [Bool.eq_iff_iff, Monomial.holds_iff, Monomial.holds_iff]
  constructor
  · intro held a member
    by_cases same : a = v
    · rw [same, Function.update_self]
    · rw [Function.update_of_ne same]
      exact held a (SortedSet.mem_erase.mpr ⟨member, same⟩)
  · intro held a member
    obtain ⟨inside, other⟩ := SortedSet.mem_erase.mp member
    have kept := held a inside
    rwa [Function.update_of_ne other] at kept

namespace Multilinear

open FormalSum

variable {A R : Type} [Ord A] [TransOrd A] [LawfulEqOrd A] [DecidableEq A] [CommRing R]
variable {p r : Multilinear A R} {v w : A}

theorem withoutVar_eq (p : Multilinear A R) (v : A) :
    p.withoutVar v = p.filterKeys fun m => !decide (v ∈ m) := by
  simp only [withoutVar, SortedSet.contains_eq_decide]

theorem vars_withoutVar (member : w ∈ (p.withoutVar v).vars) : w ∈ p.vars ∧ w ≠ v := by
  rw [withoutVar_eq] at member
  obtain ⟨e, chosen, held⟩ := mem_vars.mp member
  refine ⟨mem_vars.mpr ⟨e, (List.mem_filter.mp chosen).1, held⟩, fun same => ?_⟩
  exact not_mem_vars_without (same ▸ member)

variable [DecidableEq R]

theorem vars_quotient (member : w ∈ (p.quotient v).vars) : w ∈ p.vars ∧ w ≠ v := by
  obtain ⟨e, reduced, held⟩ := vars_ofList member
  obtain ⟨t, chosen, rfl⟩ := List.mem_map.mp reduced
  obtain ⟨present, other⟩ := SortedSet.mem_erase.mp held
  exact ⟨mem_vars.mpr ⟨t, (List.mem_filter.mp chosen).1, present⟩, other⟩

theorem vars_compose (member : w ∈ (p.compose v r).vars) : (w ∈ p.vars ∧ w ≠ v) ∨ w ∈ r.vars := by
  rcases vars_add member with without | product
  · exact Or.inl (vars_withoutVar without)
  · exact (vars_mul product).imp vars_quotient id

theorem valueAt_quotient (σ : A → Bool) (p : Multilinear A R) (v : A) :
    valueAt σ (p.quotient v) =
      valueAt (Function.update σ v true) (p.filterKeys fun m => decide (v ∈ m)) := by
  rw [quotient, valueAt_ofList_map, valueAt, sum_map_filter]
  simp only [Monomial.holds_erase, SortedSet.contains_eq_decide]

-- The terms with `v` count where `v` is true, the others always.
theorem valueAt_update_eq (σ : A → Bool) (p : Multilinear A R) (v : A) (b : Bool) :
    valueAt (Function.update σ v b) p =
      valueAt σ (p.withoutVar v) + valueAt σ (p.quotient v) * if b then 1 else 0 := by
  have free : valueAt (Function.update σ v b) (p.withoutVar v) = valueAt σ (p.withoutVar v) :=
    valueAt_update (fun member => (vars_withoutVar member).2 rfl) σ b
  rw [valueAt_split p fun m => decide (v ∈ m), ← withoutVar_eq, free, add_comm]
  congr 1
  cases b with
  | false => rw [valueAt_with_eq_zero (Function.update_self v false σ)]; simp
  | true => rw [← valueAt_quotient]; simp

theorem valueAt_compose {σ : A → Bool} {b : Bool} (replaced : valueAt σ r = if b then 1 else 0) :
    valueAt σ (p.compose v r) = valueAt (Function.update σ v b) p := by
  rw [valueAt_update_eq, compose, valueAt_add, valueAt_mul, replaced]

theorem fix_eq_compose (p : Multilinear A R) (v : A) (b : Bool) :
    p.fix v b = p.compose v (constant (if b then 1 else 0)) := by
  have one : (constant 1 : Multilinear A R) = 1 := rfl
  have zero : (constant 0 : Multilinear A R) = 0 := map_zero constants
  cases b with
  | false => simp [fix, compose, zero]
  | true => simp [fix, compose, one]

theorem valueAt_fix (σ : A → Bool) (p : Multilinear A R) (v : A) (b : Bool) :
    valueAt σ (p.fix v b) = valueAt (Function.update σ v b) p := by
  rw [valueAt_update_eq]
  cases b with
  | false => simp [fix]
  | true => simp [fix]

end Multilinear

end PseudoBoolean
