import Mathlib.Algebra.BigOperators.Ring.List
import Mathlib.Algebra.MonoidAlgebra.Basic
import PseudoBoolean.Proofs.FormalSum.Fold

set_option autoImplicit false

namespace PseudoBoolean.FormalSum

open Std

variable {K R S : Type} [Ord K] [TransOrd K] [LawfulEqOrd K] [CommRing R] [DecidableEq R]

section Linear

variable [AddCommGroup S]

omit [TransOrd K] [LawfulEqOrd K] in
@[simp]
theorem fold_neg (f : K → R →+ S) (p : FormalSum K R) : fold f (-p) = -fold f p := by
  have negated : -p = p.mapCoeffs (negAddMonoidHom : R →+ R) := rfl
  rw [negated, fold_mapCoeffs]
  simp [fold, List.sum_neg, Function.comp_def]

@[simp]
theorem fold_sub (f : K → R →+ S) (p q : FormalSum K R) :
    fold f (p - q) = fold f p - fold f q := by
  have difference : p - q = p + -q := rfl
  rw [difference, fold_add, fold_neg, sub_eq_add_neg]

end Linear

omit [TransOrd K] [LawfulEqOrd K] in
theorem scale_eq_mapCoeffs (c : R) (p : FormalSum K R) :
    p.scale c = p.mapCoeffs (AddMonoidHom.mulRight c) := rfl

variable [CommMonoid K]

@[simp]
theorem fold_timesTerm [AddCommMonoid S] (f : K → R →+ S) (k : K) (c : R) (p : FormalSum K R) :
    fold f (p.timesTerm k c) = (p.entries.map fun e => f (k * e.1) (c * e.2)).sum := by
  simp [timesTerm, Function.comp_def]

theorem fold_mul [NonUnitalNonAssocSemiring S] (f : K → R →+ S)
    (multiplies : ∀ j k c d, f (j * k) (c * d) = f j c * f k d) (p q : FormalSum K R) :
    fold f (p * q) = fold f p * fold f q := by
  have product : p * q = sum (p.entries.map fun e => q.timesTerm e.1 e.2) := rfl
  rw [product, fold_sum, List.map_map]
  simp only [Function.comp_def, fold_timesTerm, multiplies]
  simp only [fold, List.sum_map_mul_left, List.sum_map_mul_right]

noncomputable def toAlgebra (p : FormalSum K R) : MonoidAlgebra R K :=
  fold MonoidAlgebra.singleAddHom p

omit [TransOrd K] [DecidableEq R] [CommMonoid K] in
theorem coeff_toAlgebra (p : FormalSum K R) (k : K) : p.toAlgebra.coeff k = p.coeffAt k := by
  let read : MonoidAlgebra R K →+ R :=
    { toFun := fun x => x.coeff k
      map_zero' := rfl
      map_add' := fun x y => by rw [MonoidAlgebra.coeff_add, Finsupp.add_apply] }
  rw [coeffAt_eq_fold]
  refine (map_fold read _ p).trans (fold_congr (fun j c => ?_) p)
  change (MonoidAlgebra.single j c).coeff k = _
  by_cases level : compare k j = .eq
  · have equal : k = j := LawfulEqOrd.eq_of_compare level
    simp [pick, equal]
  · have apart : j ≠ k := fun equal => level (equal ▸ ReflOrd.compare_self)
    simp [pick, level, apart]

omit [DecidableEq R] [CommMonoid K] in
theorem toAlgebra_injective :
    Function.Injective (toAlgebra : FormalSum K R → MonoidAlgebra R K) := by
  intro p q same
  apply ext_coeff
  intro k
  rw [← coeff_toAlgebra, ← coeff_toAlgebra, same]

omit [TransOrd K] [LawfulEqOrd K] [DecidableEq R] in
theorem toAlgebra_zero : toAlgebra (0 : FormalSum K R) = 0 := rfl

omit [TransOrd K] [LawfulEqOrd K] in
theorem toAlgebra_one : toAlgebra (1 : FormalSum K R) = 1 :=
  fold_single _ 1 1

theorem toAlgebra_add (p q : FormalSum K R) : toAlgebra (p + q) = toAlgebra p + toAlgebra q :=
  fold_add _ p q

omit [TransOrd K] [LawfulEqOrd K] [CommMonoid K] in
theorem toAlgebra_neg (p : FormalSum K R) : toAlgebra (-p) = -toAlgebra p :=
  fold_neg _ p

theorem toAlgebra_mul (p q : FormalSum K R) : toAlgebra (p * q) = toAlgebra p * toAlgebra q :=
  fold_mul _ (fun _ _ _ _ => (MonoidAlgebra.single_mul_single _ _ _ _).symm) p q

instance : CommRing (FormalSum K R) where
  add_assoc p q r := toAlgebra_injective (by simp only [toAlgebra_add, add_assoc])
  zero_add p := toAlgebra_injective (by rw [toAlgebra_add, toAlgebra_zero, zero_add])
  add_zero p := toAlgebra_injective (by rw [toAlgebra_add, toAlgebra_zero, add_zero])
  add_comm p q := toAlgebra_injective (by rw [toAlgebra_add, toAlgebra_add, add_comm])
  neg_add_cancel p := toAlgebra_injective (by
    rw [toAlgebra_add, toAlgebra_neg, toAlgebra_zero, neg_add_cancel])
  sub_eq_add_neg p q := rfl
  mul_assoc p q r := toAlgebra_injective (by simp only [toAlgebra_mul, mul_assoc])
  mul_comm p q := toAlgebra_injective (by rw [toAlgebra_mul, toAlgebra_mul, mul_comm])
  one_mul p := toAlgebra_injective (by rw [toAlgebra_mul, toAlgebra_one, one_mul])
  mul_one p := toAlgebra_injective (by rw [toAlgebra_mul, toAlgebra_one, mul_one])
  zero_mul p := toAlgebra_injective (by rw [toAlgebra_mul, toAlgebra_zero, zero_mul])
  mul_zero p := toAlgebra_injective (by rw [toAlgebra_mul, toAlgebra_zero, mul_zero])
  left_distrib p q r := toAlgebra_injective (by
    simp only [toAlgebra_add, toAlgebra_mul, left_distrib])
  right_distrib p q r := toAlgebra_injective (by
    simp only [toAlgebra_add, toAlgebra_mul, right_distrib])
  nsmul := nsmulRec
  zsmul := zsmulRec
  npow n p := p.pow n

def constants : R →+* FormalSum K R where
  toFun c := single 1 c
  map_one' := rfl
  map_zero' := by simp [single]
  map_add' c d := toAlgebra_injective (by simp [toAlgebra])
  map_mul' c d := toAlgebra_injective (by rw [toAlgebra_mul]; simp [toAlgebra])

@[simp]
theorem constants_apply (c : R) : (constants c : FormalSum K R) = single 1 c := rfl

theorem scale_eq_mul (c : R) (p : FormalSum K R) : p.scale c = p * constants c := by
  apply toAlgebra_injective
  rw [toAlgebra_mul, scale_eq_mapCoeffs, toAlgebra, fold_mapCoeffs, constants_apply]
  simp only [toAlgebra, fold_single]
  simp only [fold, ← List.sum_map_mul_right]
  congr 1
  refine List.map_congr_left fun e _ => ?_
  simp

section Map

variable {T : Type} [CommRing T] [DecidableEq T]

def mapHom (g : R →+* T) : FormalSum K R →+* FormalSum K T where
  toFun := mapCoeffs g
  map_zero' := rfl
  map_one' := by
    apply toAlgebra_injective
    refine (fold_mapCoeffs _ (g : R →+ T) 1).trans ((fold_single _ 1 1).trans ?_)
    simp [toAlgebra_one, MonoidAlgebra.one_def]
  map_add' p q := by
    apply toAlgebra_injective
    have mapped (r : FormalSum K R) := fold_mapCoeffs MonoidAlgebra.singleAddHom (g : R →+ T) r
    simp only [toAlgebra_add]
    exact (mapped (p + q)).trans (by rw [fold_add, ← mapped, ← mapped]; rfl)
  map_mul' p q := by
    apply toAlgebra_injective
    have mapped (r : FormalSum K R) := fold_mapCoeffs MonoidAlgebra.singleAddHom (g : R →+ T) r
    rw [toAlgebra_mul]
    refine (mapped (p * q)).trans ?_
    rw [fold_mul, ← mapped, ← mapped]
    · rfl
    · intro j k c d
      simp [MonoidAlgebra.single_mul_single]

theorem mapHom_constants (g : R →+* T) (c : R) :
    mapHom g (constants c : FormalSum K R) = constants (g c) := by
  apply toAlgebra_injective
  refine (fold_mapCoeffs _ (g : R →+ T) _).trans ?_
  simp [toAlgebra]

end Map

end PseudoBoolean.FormalSum
