import Mathlib.Data.Set.List
import PseudoBoolean.Proofs.Multilinear.Unique
import PseudoBoolean.Proofs.Poly.Evaluation

set_option autoImplicit false

namespace PseudoBoolean

open Std Multilinear

namespace FormalSum

variable {K K' R R' : Type} [Ord K] [Ord K'] [OfNat R 0] {f : K → K'} {g : R → R'}

theorem exists_entries {l : List (K' × R')} (same : ∀ j k, compare (f j) (f k) = compare j k)
    (inside : ∀ e ∈ l, e ∈ Set.range (Prod.map f g)) (increasing : IncreasingOn Prod.fst l)
    (nonzero : ∀ e ∈ l, e.2 ≠ g 0) :
    ∃ p : FormalSum K R, p.entries.map (Prod.map f g) = l := by
  have listed : l ∈ Set.range (List.map (Prod.map f g)) := by
    rw [Set.range_list_map]
    exact inside
  obtain ⟨entries, rfl⟩ := listed
  have ordered : IncreasingOn Prod.fst entries :=
    (List.pairwise_map.mp increasing).imp fun before => (same _ _).symm.trans before
  refine ⟨⟨⟨entries, ordered⟩, fun e member zero => ?_⟩, rfl⟩
  exact nonzero _ (List.mem_map_of_mem member) (congrArg g zero)

omit [Ord K'] in
theorem entries_injective (keys : Function.Injective f) (coefficients : Function.Injective g) :
    Function.Injective fun p : FormalSum K R => p.entries.map (Prod.map f g) := by
  intro p q same
  apply toSortedMap_injective
  exact SortedMap.ext ((keys.prodMap coefficients).list_map same)

end FormalSum

namespace Coeff

def stored (c : Coeff) : List (List Symbol × Rat) :=
  c.entries.map (Prod.map SymbolProduct.factors id)

structure Canonical (l : List (List Symbol × Rat)) : Prop where
  ascending : ∀ e ∈ l, e.1.Pairwise fun s t => (compare s t).isLE
  increasing : IncreasingOn Prod.fst l
  nonzero : ∀ e ∈ l, e.2 ≠ 0

theorem stored_injective : Function.Injective stored :=
  FormalSum.entries_injective (fun _ _ => SymbolProduct.ext) Function.injective_id

theorem canonical_stored (c : Coeff) : Canonical c.stored where
  ascending := List.forall_mem_map.mpr fun e _ => e.1.ascending
  increasing := List.pairwise_map.mpr c.increasing
  nonzero := List.forall_mem_map.mpr c.nonzero

theorem Canonical.exists_coeff {l : List (List Symbol × Rat)} (canonical : Canonical l) :
    ∃ c : Coeff, c.stored = l := by
  refine FormalSum.exists_entries (fun _ _ => rfl) ?_ canonical.increasing canonical.nonzero
  exact fun e member => ⟨(⟨e.1, canonical.ascending e member⟩, e.2), rfl⟩

end Coeff

namespace Poly

def stored (p : Poly) : List (List Label × List (List Symbol × Rat)) :=
  p.entries.map (Prod.map SortedSet.toList Coeff.stored)

structure Canonical (l : List (List Label × List (List Symbol × Rat))) : Prop where
  strict : ∀ e ∈ l, IncreasingOn id e.1
  increasing : IncreasingOn Prod.fst l
  nonzero : ∀ e ∈ l, e.2 ≠ []
  coefficients : ∀ e ∈ l, Coeff.Canonical e.2

theorem stored_injective : Function.Injective stored :=
  FormalSum.entries_injective (fun _ _ => SortedSet.ext) Coeff.stored_injective

theorem canonical_stored (p : Poly) : Canonical p.stored where
  strict := List.forall_mem_map.mpr fun e _ => e.1.increasing
  increasing := List.pairwise_map.mpr p.increasing
  nonzero := List.forall_mem_map.mpr fun e member zero =>
    p.nonzero e member (Coeff.stored_injective zero)
  coefficients := List.forall_mem_map.mpr fun e _ => e.2.canonical_stored

theorem Canonical.exists_poly {l : List (List Label × List (List Symbol × Rat))}
    (canonical : Canonical l) : ∃ p : Poly, p.stored = l := by
  refine FormalSum.exists_entries (fun _ _ => rfl) ?_ canonical.increasing canonical.nonzero
  intro e member
  obtain ⟨c, same⟩ := (canonical.coefficients e member).exists_coeff
  exact ⟨(⟨e.1, canonical.strict e member⟩, c), Prod.ext rfl same⟩

theorem eq_of_eval_eq {p q : Poly}
    (same : ∀ a : Assignment, a.Covers p.vars → a.Covers q.vars → p.eval a = q.eval a) :
    p = q := by
  apply valueAt_injective
  intro σ
  have inLeft : ∀ v ∈ p.vars, v ∈ p.vars ∪ q.vars := fun v member =>
    SortedSet.mem_union.mpr (Or.inl member)
  have inRight : ∀ v ∈ q.vars, v ∈ p.vars ∪ q.vars := fun v member =>
    SortedSet.mem_union.mpr (Or.inr member)
  have left := eval_ofTruth inLeft σ
  have right := eval_ofTruth inRight σ
  have values := same _ (eval_isOk_iff.mp ⟨_, left⟩) (eval_isOk_iff.mp ⟨_, right⟩)
  rw [left, right] at values
  exact Except.ok.inj values

theorem canonical_form :
    (∀ l, Canonical l ↔ ∃ p : Poly, p.stored = l) ∧
      ∀ p q : Poly, p.stored = q.stored ↔
        ∀ a : Assignment, a.Covers p.vars → a.Covers q.vars → p.eval a = q.eval a := by
  constructor
  · intro l
    constructor
    · exact Canonical.exists_poly
    · rintro ⟨p, rfl⟩
      exact p.canonical_stored
  · intro p q
    constructor
    · intro same a _ _
      rw [stored_injective same]
    · intro same
      rw [eq_of_eval_eq same]

end Poly

end PseudoBoolean
