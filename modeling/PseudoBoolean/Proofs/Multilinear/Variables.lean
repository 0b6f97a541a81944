import PseudoBoolean.Proofs.Multilinear.Value

set_option autoImplicit false

namespace PseudoBoolean

open Std

namespace Multilinear

open Std FormalSum

variable {A R : Type} [Ord A] [TransOrd A] [LawfulEqOrd A]

section Any

variable [OfNat R 0]

theorem not_mem_vars_zero {a : A} : a ∉ vars (0 : Multilinear A R) := by
  intro member
  obtain ⟨e, inside, -⟩ := mem_vars.mp member
  exact absurd inside List.not_mem_nil

variable [DecidableEq R]

theorem mem_of_mem_vars_single {a : A} {m : Monomial A} {c : R}
    (member : a ∈ vars (single m c : Multilinear A R)) : a ∈ m := by
  obtain ⟨e, inside, held⟩ := mem_vars.mp member
  rwa [key_mem_single inside] at held

omit [DecidableEq R] in
theorem vars_mapCoeffs {S : Type} [OfNat S 0] [DecidableEq S] (f : R → S) {p : Multilinear A R}
    {a : A} (member : a ∈ vars (p.mapCoeffs f : Multilinear A S)) : a ∈ p.vars := by
  obtain ⟨e, inside, held⟩ := mem_vars.mp member
  obtain ⟨t, found, rfl⟩ := exists_of_mem_mapCoeffs inside
  exact mem_vars.mpr ⟨t, found, held⟩

variable [Add R]

theorem vars_add {p q : Multilinear A R} {a : A} (member : a ∈ vars (p + q)) :
    a ∈ p.vars ∨ a ∈ q.vars := by
  obtain ⟨e, inside, held⟩ := mem_vars.mp member
  obtain ⟨f, found, same⟩ := key_mem_add inside
  rw [← same] at held
  rcases found with left | right
  · exact Or.inl (mem_vars.mpr ⟨f, left, held⟩)
  · exact Or.inr (mem_vars.mpr ⟨f, right, held⟩)

theorem vars_ofList {l : List (Monomial A × R)} {a : A}
    (member : a ∈ vars (ofList l : Multilinear A R)) : ∃ e ∈ l, a ∈ e.1 := by
  obtain ⟨e, inside, held⟩ := mem_vars.mp member
  obtain ⟨f, found, same⟩ := key_mem_ofList inside
  exact ⟨f, found, same ▸ held⟩

end Any

section Ring

variable [CommRing R] [DecidableEq R] {p q : Multilinear A R} {a : A}

theorem vars_neg (member : a ∈ vars (-p)) : a ∈ p.vars :=
  vars_mapCoeffs Neg.neg member

theorem vars_sub (member : a ∈ vars (p - q)) : a ∈ p.vars ∨ a ∈ q.vars :=
  (vars_add member).imp id vars_neg

theorem vars_scale {c : R} (member : a ∈ vars (p.scale c)) : a ∈ p.vars :=
  vars_mapCoeffs (· * c) member

theorem not_mem_vars_one : a ∉ vars (1 : Multilinear A R) := fun member =>
  SortedSet.mem_empty (mem_of_mem_vars_single member)

theorem vars_mul (member : a ∈ vars (p * q)) : a ∈ p.vars ∨ a ∈ q.vars := by
  obtain ⟨e, inside, held⟩ := mem_vars.mp member
  obtain ⟨s, left, t, right, same⟩ := key_mem_mul inside
  rw [same] at held
  rcases Monomial.mem_mul.mp held with first | second
  · exact Or.inl (mem_vars.mpr ⟨s, left, first⟩)
  · exact Or.inr (mem_vars.mpr ⟨t, right, second⟩)

theorem vars_pow {n : Nat} (member : a ∈ vars (p.pow n)) : a ∈ p.vars := by
  induction n with
  | zero => exact absurd member not_mem_vars_one
  | succ n ih => exact (vars_mul (p := p.pow n) member).elim ih id

theorem vars_add_of_left (inside : a ∈ p.vars) (outside : a ∉ q.vars) : a ∈ vars (p + q) := by
  rw [← add_sub_cancel_right p q] at inside
  exact (vars_sub inside).resolve_right outside

end Ring

end Multilinear

variable {A R : Type} [Ord A]

theorem Monomial.degree_mul_le [TransOrd A] [LawfulEqOrd A] (m n : Monomial A) :
    (m * n).degree ≤ m.degree + n.degree :=
  SortedSet.size_union_le m n

namespace Multilinear

open FormalSum

theorem degree_constant [OfNat R 0] [DecidableEq R] (c : R) :
    degree (constant c : Multilinear A R) = 0 := by
  refine Nat.le_zero.mp (degree_le_iff.mpr fun e inside => ?_)
  rw [key_mem_single inside]
  exact Nat.le_refl 0

variable [TransOrd A] [LawfulEqOrd A] [CommRing R] [DecidableEq R] (p q : Multilinear A R)

theorem degree_add_le : degree (p + q) ≤ max p.degree q.degree := by
  refine degree_le_iff.mpr fun e inside => ?_
  obtain ⟨f, found, same⟩ := key_mem_add inside
  rw [← same]
  rcases found with left | right
  · exact (degree_le_of_mem left).trans (Nat.le_max_left _ _)
  · exact (degree_le_of_mem right).trans (Nat.le_max_right _ _)

theorem degree_sub_le : degree (p - q) ≤ max p.degree q.degree :=
  (degree_add_le p (-q)).trans (max_le_max_left p.degree (degree_mapCoeffs_le Neg.neg q))

theorem degree_mul_le : degree (p * q) ≤ p.degree + q.degree := by
  refine degree_le_iff.mpr fun e inside => ?_
  obtain ⟨s, left, t, right, same⟩ := key_mem_mul inside
  rw [same]
  exact (Monomial.degree_mul_le s.1 t.1).trans
    (Nat.add_le_add (degree_le_of_mem left) (degree_le_of_mem right))

end Multilinear

end PseudoBoolean
