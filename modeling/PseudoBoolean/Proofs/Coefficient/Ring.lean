import Mathlib.Algebra.Order.Ring.Rat
import PseudoBoolean.Evaluation
import PseudoBoolean.Proofs.FormalSum.Ring

set_option autoImplicit false

namespace PseudoBoolean

open Std

namespace SymbolProduct

theorem eq_of_perm {a b : SymbolProduct} (perm : a.factors.Perm b.factors) : a = b := by
  apply SymbolProduct.ext
  refine perm.eq_of_pairwise ?_ a.ascending b.ascending
  intro s t _ _ before after
  exact LawfulEqOrd.eq_of_compare (OrientedCmp.isLE_antisymm before after)

theorem perm_mul (a b : SymbolProduct) : (a * b).factors.Perm (a.factors ++ b.factors) :=
  perm_sort (a.factors ++ b.factors)

theorem one_factors : (1 : SymbolProduct).factors = [] := rfl

instance : CommMonoid SymbolProduct where
  mul_assoc a b c := by
    apply eq_of_perm
    refine (perm_mul _ _).trans (((perm_mul a b).append_right c.factors).trans ?_)
    rw [List.append_assoc]
    exact (((perm_mul b c).append_left a.factors).symm).trans (perm_mul _ _).symm
  mul_comm a b := by
    apply eq_of_perm
    exact (perm_mul a b).trans (List.perm_append_comm.trans (perm_mul b a).symm)
  one_mul a := eq_of_perm (perm_mul 1 a)
  mul_one a := by
    apply eq_of_perm
    have appended := perm_mul a 1
    rwa [one_factors, List.append_nil] at appended

end SymbolProduct

namespace Coeff

open FormalSum

def numbers : Rat →+* Coeff :=
  constants

@[simp]
theorem number_zero : number 0 = 0 := map_zero numbers

@[simp]
theorem number_one : number 1 = 1 := map_one numbers

theorem number_add (q r : Rat) : number (q + r) = number q + number r := map_add numbers q r

theorem number_neg (q : Rat) : number (-q) = -number q := map_neg numbers q

theorem number_mul (q r : Rat) : number (q * r) = number q * number r := map_mul numbers q r

@[simp]
theorem constantPart_number (q : Rat) : (number q).constantPart = q := by
  rw [constantPart, coeffAt_eq_fold, number, fold_single]
  simp [pick]

theorem number_eq_zero_iff {q : Rat} : number q = 0 ↔ q = 0 := by
  constructor
  · intro zero
    rw [← constantPart_number q, zero]
    rfl
  · rintro rfl
    exact number_zero

def constantPartHom : Coeff →+ Rat where
  toFun := constantPart
  map_zero' := rfl
  map_add' c d := coeffAt_add c d 1

theorem symbols_number (q : Rat) : (number q).symbols.toList = [] := by
  by_cases zero : q = 0
  · subst zero
    rfl
  · simp [number, single, zero, symbols, SortedMap.singleton, SymbolProduct.one_factors]
    rfl

theorem eq_number_of_isNumber {c : Coeff} (isNumber : c.isNumber = true) :
    c = number c.constantPart := by
  have alone : ∀ e ∈ c.entries, e.1 = 1 := by simpa [Coeff.isNumber] using isNumber
  apply ext_coeff
  intro k
  rw [coeffAt_eq_fold, coeffAt_eq_fold, number, fold_single, constantPart, coeffAt_eq_fold]
  by_cases level : compare k 1 = .eq
  · have equal : k = 1 := LawfulEqOrd.eq_of_compare level
    simp [equal, pick]
  · have nothing : (c.entries.map fun e => pick k e.1 e.2).sum = (c.entries.map fun _ => 0).sum :=
      congrArg List.sum (List.map_congr_left fun e inside => by
        simp [pick, alone e inside, level])
    rw [fold, nothing]
    simp [pick, level]

theorem toNumber_number (q : Rat) : (number q).toNumber = .ok q := by
  rw [toNumber, symbols_number]
  simp

end Coeff

end PseudoBoolean
