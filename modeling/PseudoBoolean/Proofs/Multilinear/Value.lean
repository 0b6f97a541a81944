import PseudoBoolean.Multilinear
import PseudoBoolean.Proofs.FormalSum.Ring

set_option autoImplicit false

namespace PseudoBoolean

open Std

variable {A R : Type} [Ord A]

instance [TransOrd A] [LawfulEqOrd A] : CommMonoid (Monomial A) where
  mul_assoc l m n := SortedSet.ext_mem fun a => by simp only [Monomial.mem_mul, or_assoc]
  mul_comm m n := SortedSet.ext_mem fun a => by simp only [Monomial.mem_mul, or_comm]
  one_mul m := SortedSet.ext_mem fun a => by
    have nothing : ¬ a ∈ (1 : Monomial A) := SortedSet.mem_empty
    simp only [Monomial.mem_mul, nothing, false_or]
  mul_one m := SortedSet.ext_mem fun a => by
    have nothing : ¬ a ∈ (1 : Monomial A) := SortedSet.mem_empty
    simp only [Monomial.mem_mul, nothing, or_false]

theorem Monomial.holds_congr {σ τ : A → Bool} {m : Monomial A} (same : ∀ a ∈ m, σ a = τ a) :
    m.holds σ = m.holds τ := by
  rw [Bool.eq_iff_iff, Monomial.holds_iff, Monomial.holds_iff]
  exact forall₂_congr fun a member => by rw [same a member]

namespace Multilinear

open FormalSum

section Additive

variable [AddCommMonoid R]

def weigh (σ : A → Bool) (m : Monomial A) : R →+ R :=
  if m.holds σ then AddMonoidHom.id R else 0

theorem weigh_apply (σ : A → Bool) (m : Monomial A) (c : R) :
    weigh σ m c = if m.holds σ then c else 0 := by
  by_cases held : m.holds σ <;> simp [weigh, held]

theorem valueAt_eq_fold (σ : A → Bool) (p : Multilinear A R) :
    p.valueAt σ = fold (weigh σ) p := by
  simp only [valueAt, sum_map_filter, fold, weigh_apply]

theorem valueAt_ofList [TransOrd A] [LawfulEqOrd A] [DecidableEq R] (σ : A → Bool)
    (l : List (Monomial A × R)) :
    valueAt σ (ofList l : Multilinear A R) =
      (l.map fun e => if e.1.holds σ then e.2 else 0).sum := by
  simp only [valueAt_eq_fold, fold_ofList, weigh_apply]

theorem valueAt_ofList_map [TransOrd A] [LawfulEqOrd A] [DecidableEq R] {D : Type} (σ : A → Bool)
    (g : D → Monomial A × R) (l : List D) :
    valueAt σ (ofList (l.map g) : Multilinear A R) =
      (l.map fun x => if (g x).1.holds σ then (g x).2 else 0).sum := by
  rw [valueAt_ofList, List.map_map]
  rfl

theorem valueAt_mapCoeffs {S : Type} [AddCommMonoid S] [DecidableEq S] (σ : A → Bool)
    (g : R →+ S) (p : Multilinear A R) :
    valueAt σ (p.mapCoeffs g : Multilinear A S) = g (p.valueAt σ) := by
  rw [valueAt_eq_fold, fold_mapCoeffs, valueAt_eq_fold, map_fold]
  refine fold_congr (fun m c => ?_) p
  by_cases held : m.holds σ <;> simp [weigh, held]

theorem valueAt_congr [TransOrd A] [LawfulEqOrd A] {σ τ : A → Bool} {p : Multilinear A R}
    (same : ∀ a ∈ p.vars, σ a = τ a) : p.valueAt σ = p.valueAt τ := by
  have filtered : p.entries.filter (fun e => e.1.holds σ) =
      p.entries.filter (fun e => e.1.holds τ) := by
    refine List.filter_congr fun e inside => ?_
    exact Monomial.holds_congr fun a member => same a (mem_vars.mpr ⟨e, inside, member⟩)
  rw [valueAt, valueAt, filtered]

end Additive

section Ring

variable [TransOrd A] [LawfulEqOrd A] [CommRing R] [DecidableEq R]

def valueHom (σ : A → Bool) : Multilinear A R →+* R where
  toFun := valueAt σ
  map_zero' := rfl
  map_one' := by
    rw [valueAt_eq_fold]
    exact (fold_single _ 1 1).trans (by simp [weigh])
  map_add' p q := by simp only [valueAt_eq_fold, fold_add]
  map_mul' p q := by
    simp only [valueAt_eq_fold]
    refine fold_mul _ ?_ p q
    intro m n c d
    by_cases left : m.holds σ <;> by_cases right : n.holds σ <;> simp [weigh, left, right]

variable (σ : A → Bool) (p q : Multilinear A R)

omit [TransOrd A] [LawfulEqOrd A] [DecidableEq R] in
@[simp]
theorem valueAt_zero : valueAt σ (0 : Multilinear A R) = 0 := rfl

@[simp]
theorem valueAt_one : valueAt σ (1 : Multilinear A R) = 1 :=
  map_one (valueHom σ)

@[simp]
theorem valueAt_add : valueAt σ (p + q) = valueAt σ p + valueAt σ q :=
  map_add (valueHom σ) p q

@[simp]
theorem valueAt_neg : valueAt σ (-p) = -valueAt σ p :=
  map_neg (valueHom σ) p

@[simp]
theorem valueAt_sub : valueAt σ (p - q) = valueAt σ p - valueAt σ q :=
  map_sub (valueHom σ) p q

@[simp]
theorem valueAt_mul : valueAt σ (p * q) = valueAt σ p * valueAt σ q :=
  map_mul (valueHom σ) p q

@[simp]
theorem valueAt_pow (n : Nat) : valueAt σ (p.pow n) = valueAt σ p ^ n :=
  map_pow (valueHom σ) p n

omit [TransOrd A] [LawfulEqOrd A] in
@[simp]
theorem valueAt_scale (c : R) : valueAt σ (p.scale c) = valueAt σ p * c :=
  valueAt_mapCoeffs σ (AddMonoidHom.mulRight c) p

end Ring

end Multilinear

end PseudoBoolean
