import Mathlib.Data.List.Perm.Subperm
import Mathlib.Data.Set.Finite.Lemmas
import Mathlib.Data.Set.Finite.List
import PseudoBoolean.Proofs.Multilinear.Value

set_option autoImplicit false

namespace PseudoBoolean

open Std

variable {A R : Type} [Ord A] [TransOrd A] [LawfulEqOrd A]

theorem Monomial.eq_of_subset {m n : Monomial A} (subset : ∀ a ∈ m, a ∈ n)
    (large : n.degree ≤ m.degree) : m = n := by
  have included : m.toList.Subperm n.toList := List.subperm_of_subset m.nodup_toList subset
  have perm := included.perm_of_length_le large
  exact SortedSet.ext_mem fun a => perm.mem_iff

namespace Multilinear

open FormalSum

section Additive

variable [AddCommMonoid R]

-- Where exactly the variables of `m` are true, a monomial holds if it is part of `m`.
theorem valueAt_of_minimal {p : Multilinear A R} {m : Monomial A} {σ : A → Bool}
    (chosen : ∀ a, σ a = true ↔ a ∈ m) (minimal : ∀ e ∈ p.entries, m.degree ≤ e.1.degree) :
    p.valueAt σ = p.coeffAt m := by
  have same : ∀ e ∈ p.entries, weigh σ e.1 e.2 = pick m e.1 e.2 := by
    intro e inside
    by_cases level : compare m e.1 = .eq
    · have equal : m = e.1 := LawfulEqOrd.eq_of_compare level
      have held : e.1.holds σ = true :=
        Monomial.holds_iff.mpr fun a member => (chosen a).mpr (equal ▸ member)
      simp [weigh, pick, level, held]
    · have missed : ¬ e.1.holds σ = true := by
        intro held
        have subset : ∀ a ∈ e.1, a ∈ m := fun a member =>
          (chosen a).mp (Monomial.holds_iff.mp held a member)
        have equal := Monomial.eq_of_subset subset (minimal e inside)
        exact level (by simp [equal])
      simp [weigh, pick, level, missed]
  rw [valueAt_eq_fold, coeffAt_eq_fold, fold, fold]
  exact congrArg List.sum (List.map_congr_left same)

theorem exists_valueAt_ne_zero {p : Multilinear A R} {e : Monomial A × R}
    (inside : e ∈ p.entries) : ∃ σ, p.valueAt σ ≠ 0 := by
  classical
  obtain ⟨t, present, minimal⟩ := Set.exists_min_image {t | t ∈ p.entries}
    (fun t => t.1.degree) (List.finite_toSet _) ⟨e, inside⟩
  refine ⟨fun a => decide (a ∈ t.1), ?_⟩
  rw [valueAt_of_minimal (fun a => decide_eq_true_iff) minimal, coeffAt_of_mem present]
  exact p.nonzero t present

end Additive

section Ring

variable [CommRing R] [DecidableEq R]

theorem valueAt_injective {p q : Multilinear A R} (same : ∀ σ, p.valueAt σ = q.valueAt σ) :
    p = q := by
  have nothing : (p - q).entries = [] := by
    by_contra some
    obtain ⟨e, inside⟩ := List.exists_mem_of_ne_nil _ some
    obtain ⟨σ, apart⟩ := exists_valueAt_ne_zero inside
    rw [valueAt_sub, same, sub_self] at apart
    exact apart rfl
  have zero : p - q = 0 := ext_coeff fun k => coeffAt_eq_zero (by simp [nothing])
  exact sub_eq_zero.mp zero

end Ring

section Depends

variable [CommRing R]

omit [TransOrd A] [LawfulEqOrd A] in
theorem valueAt_split (p : Multilinear A R) (keep : Monomial A → Bool) (σ : A → Bool) :
    p.valueAt σ = valueAt σ (p.filterKeys keep) + valueAt σ (p.filterKeys fun m => !keep m) := by
  simp only [valueAt, FormalSum.filterKeys, SortedMap.filterKeys, sum_map_filter,
    ← List.sum_map_add]
  refine congrArg List.sum (List.map_congr_left fun e _ => ?_)
  by_cases kept : keep e.1 <;> simp [kept]

variable [DecidableEq A]

def DependsOn (p : Multilinear A R) (v : A) : Prop :=
  ∃ σ, valueAt (Function.update σ v true) p ≠ valueAt (Function.update σ v false) p

variable {p : Multilinear A R} {v : A}

theorem valueAt_update (absent : v ∉ p.vars) (σ : A → Bool) (b : Bool) :
    valueAt (Function.update σ v b) p = valueAt σ p := by
  refine valueAt_congr fun w member => ?_
  have other : w ≠ v := fun same => absent (same ▸ member)
  rw [Function.update_of_ne other]

omit [TransOrd A] [LawfulEqOrd A] in
theorem valueAt_with_eq_zero {σ : A → Bool} (off : σ v = false) :
    valueAt σ (p.filterKeys fun m => decide (v ∈ m)) = 0 := by
  rw [valueAt, List.filter_eq_nil_iff.mpr, List.map_nil, List.sum_nil]
  intro e chosen holds
  have present : v ∈ e.1 := of_decide_eq_true (List.mem_filter.mp chosen).2
  rw [Monomial.holds_iff.mp holds v present] at off
  cases off

theorem not_mem_vars_without : v ∉ vars (p.filterKeys fun m => !decide (v ∈ m)) := by
  intro used
  obtain ⟨e, chosen, present⟩ := mem_vars.mp used
  have free : v ∉ e.1 := by simpa using (List.mem_filter.mp chosen).2
  exact free present

theorem dependsOn_of_mem_vars (member : v ∈ p.vars) : p.DependsOn v := by
  obtain ⟨e, inside, held⟩ := mem_vars.mp member
  have kept : e ∈ (p.filterKeys fun m => decide (v ∈ m)).entries :=
    List.mem_filter.mpr ⟨inside, decide_eq_true held⟩
  obtain ⟨σ, apart⟩ := exists_valueAt_ne_zero kept
  have on : σ v = true := by
    by_contra off
    exact apart (valueAt_with_eq_zero (by simpa using off))
  have unchanged : Function.update σ v true = σ := by
    rw [← on, Function.update_eq_self]
  refine ⟨σ, ?_⟩
  rw [valueAt_split p (fun m => decide (v ∈ m)) (Function.update σ v true),
    valueAt_split p (fun m => decide (v ∈ m)) (Function.update σ v false),
    valueAt_update not_mem_vars_without, valueAt_update not_mem_vars_without,
    valueAt_with_eq_zero (Function.update_self v false σ), unchanged]
  simpa using apart

theorem mem_vars_iff_dependsOn : v ∈ p.vars ↔ p.DependsOn v := by
  refine ⟨dependsOn_of_mem_vars, fun depends => ?_⟩
  obtain ⟨σ, apart⟩ := depends
  by_contra absent
  exact apart ((valueAt_update absent σ true).trans (valueAt_update absent σ false).symm)

end Depends

end Multilinear

end PseudoBoolean
