import Mathlib.Algebra.CharZero.Infinite
import Mathlib.Algebra.MvPolynomial.Funext
import PseudoBoolean.Proofs.Coefficient.Substitute

set_option autoImplicit false

namespace PseudoBoolean

namespace SymbolProduct

def valueAt (φ : Symbol → Rat) (k : SymbolProduct) : Rat :=
  (k.factors.map φ).prod

noncomputable def exponents (k : SymbolProduct) : Symbol →₀ ℕ :=
  Multiset.toFinsupp (k.factors : Multiset Symbol)

theorem foldr_eq_mul (φ : Symbol → Rat) (k : SymbolProduct) (q : Rat) :
    k.factors.foldr (fun s q => φ s * q) q = q * k.valueAt φ := by
  rw [valueAt]
  induction k.factors with
  | nil => simp
  | cons s l ih =>
    rw [List.foldr_cons, ih, List.map_cons, List.prod_cons]
    ring

theorem exponents_one : exponents 1 = 0 :=
  Multiset.toFinsupp_zero

theorem exponents_mul (j k : SymbolProduct) : (j * k).exponents = j.exponents + k.exponents := by
  have factors : ((j * k).factors : Multiset Symbol) = j.factors + k.factors :=
    Multiset.coe_eq_coe.mpr (perm_mul j k)
  rw [exponents, factors, Multiset.toFinsupp_add, exponents, exponents]

theorem exponents_injective : Function.Injective exponents := by
  intro j k same
  exact eq_of_perm (Multiset.coe_eq_coe.mp (Multiset.toFinsupp.injective same))

theorem prod_exponents (φ : Symbol → Rat) (k : SymbolProduct) :
    (k.exponents.prod fun s n => φ s ^ n) = k.valueAt φ :=
  (Finset.prod_multiset_map_count (k.factors : Multiset Symbol) φ).symm

theorem valueAt_erase (φ : Symbol → Rat) (s : Symbol) (q : Rat) (k : SymbolProduct) :
    (k.erase s).valueAt φ * q ^ k.degreeOf s = k.valueAt (Function.update φ s q) := by
  simp only [valueAt, erase, degreeOf]
  induction k.factors with
  | nil => simp
  | cons t l ih =>
    by_cases same : t = s
    · subst same
      simp only [List.map_cons, List.prod_cons, List.count_cons_self, Function.update_self, ← ih]
      simp
      ring
    · simp [same, ← ih, mul_assoc]

end SymbolProduct

namespace Coeff

open FormalSum

noncomputable def toMvPolynomial : Coeff →+* MvPolynomial Symbol Rat where
  toFun := fold fun k => (MvPolynomial.monomial k.exponents).toAddMonoidHom
  map_zero' := rfl
  map_one' := by
    refine (fold_single _ 1 1).trans ?_
    rw [SymbolProduct.exponents_one]
    rfl
  map_add' := fold_add _
  map_mul' c d := by
    refine fold_mul _ (fun j k x y => ?_) c d
    rw [SymbolProduct.exponents_mul]
    exact MvPolynomial.monomial_mul.symm

theorem coeff_toMvPolynomial (c : Coeff) (k : SymbolProduct) :
    MvPolynomial.coeff k.exponents c.toMvPolynomial = c.coeffAt k := by
  rw [coeffAt_eq_fold]
  refine (map_fold (MvPolynomial.coeffAddMonoidHom k.exponents) _ c).trans
    (fold_congr (fun j q => ?_) c)
  change MvPolynomial.coeff k.exponents (MvPolynomial.monomial j.exponents q) = _
  rw [MvPolynomial.coeff_monomial]
  by_cases same : k = j
  · simp [pick, same]
  · have apart : j.exponents ≠ k.exponents := fun equal =>
      same (SymbolProduct.exponents_injective equal).symm
    have unlike : compare k j ≠ .eq := fun level => same (Std.LawfulEqOrd.eq_of_compare level)
    simp [pick, apart, unlike]

theorem toMvPolynomial_injective : Function.Injective toMvPolynomial := by
  intro c d same
  apply ext_coeff
  intro k
  rw [← coeff_toMvPolynomial, same, coeff_toMvPolynomial]

instance : IsDomain Coeff :=
  toMvPolynomial_injective.isDomain toMvPolynomial

theorem valueAt_eq_fold (φ : Symbol → Rat) (c : Coeff) :
    c.valueAt φ = fold (fun k => AddMonoidHom.mulRight (k.valueAt φ)) c :=
  congrArg List.sum (List.map_congr_left fun e _ => e.1.foldr_eq_mul φ e.2)

theorem valueAt_eq_eval (φ : Symbol → Rat) (c : Coeff) :
    c.valueAt φ = MvPolynomial.eval φ c.toMvPolynomial := by
  rw [valueAt_eq_fold]
  refine ((map_fold (MvPolynomial.eval φ : MvPolynomial Symbol Rat →+ Rat) _ c).trans
    (fold_congr (fun k q => ?_) c)).symm
  change MvPolynomial.eval φ (MvPolynomial.monomial k.exponents q) = _
  rw [MvPolynomial.eval_monomial, SymbolProduct.prod_exponents]
  rfl

theorem valueAt_injective {c d : Coeff} (same : ∀ φ, c.valueAt φ = d.valueAt φ) : c = d := by
  apply toMvPolynomial_injective
  apply MvPolynomial.funext
  intro φ
  rw [← valueAt_eq_eval, same, valueAt_eq_eval]

section Calculus

variable (φ : Symbol → Rat) (c d : Coeff)

@[simp]
theorem valueAt_add : (c + d).valueAt φ = c.valueAt φ + d.valueAt φ := by
  simp only [valueAt_eq_eval, map_add]

@[simp]
theorem valueAt_neg : (-c).valueAt φ = -c.valueAt φ := by
  simp only [valueAt_eq_eval, map_neg]

@[simp]
theorem valueAt_sub : (c - d).valueAt φ = c.valueAt φ - d.valueAt φ := by
  simp only [valueAt_eq_eval, map_sub]

@[simp]
theorem valueAt_mul : (c * d).valueAt φ = c.valueAt φ * d.valueAt φ := by
  simp only [valueAt_eq_eval, map_mul]

@[simp]
theorem valueAt_number (q : Rat) : (number q).valueAt φ = q := by
  rw [valueAt_eq_fold, number, fold_single]
  exact mul_one q

@[simp]
theorem valueAt_symbol (s : Symbol) : (symbol s).valueAt φ = φ s := by
  rw [valueAt_eq_fold, symbol, fold_single]
  simp [SymbolProduct.valueAt, SymbolProduct.single]

@[simp]
theorem valueAt_substitute (s : Symbol) (q : Rat) :
    (c.substitute s q).valueAt φ = c.valueAt (Function.update φ s q) := by
  rw [valueAt_eq_fold, valueAt_eq_fold, substitute, fold_ofList_map, fold]
  refine congrArg List.sum (List.map_congr_left fun e _ => ?_)
  have erased := SymbolProduct.valueAt_erase φ s q e.1
  simp only [AddMonoidHom.mulRight_apply, ← erased]
  ring

end Calculus

theorem substitute_comm {s t : Symbol} (other : t ≠ s) (c : Coeff) (q r : Rat) :
    (c.substitute s q).substitute t r = (c.substitute t r).substitute s q := by
  apply valueAt_injective
  intro φ
  rw [valueAt_substitute, valueAt_substitute, valueAt_substitute, valueAt_substitute,
    Function.update_comm other]

theorem valueAt_congr {φ ψ : Symbol → Rat} {c : Coeff} (same : ∀ s ∈ c.symbols, φ s = ψ s) :
    c.valueAt φ = c.valueAt ψ := by
  rw [valueAt_eq_fold, valueAt_eq_fold]
  refine congrArg List.sum (List.map_congr_left fun e inside => ?_)
  have factors : e.1.factors.map φ = e.1.factors.map ψ :=
    List.map_congr_left fun s held => same s (mem_symbols.mpr ⟨e, inside, held⟩)
  simp only [AddMonoidHom.mulRight_apply, SymbolProduct.valueAt, factors]

def substituteAll (c : Coeff) (φ : Symbol → Rat) : Coeff :=
  c.symbols.toList.foldl (fun d s => d.substitute s (φ s)) c

theorem valueAt_foldl_substitute (φ ψ : Symbol → Rat) (l : List Symbol) (c : Coeff) :
    (l.foldl (fun d s => d.substitute s (φ s)) c).valueAt ψ =
      c.valueAt fun s => if s ∈ l then φ s else ψ s := by
  induction l generalizing c with
  | nil => simp
  | cons s l ih =>
    rw [List.foldl_cons, ih, valueAt_substitute]
    congr 1
    funext t
    by_cases same : t = s
    · simp [same]
    · simp [same, Function.update_of_ne]

theorem substituteAll_eq (c : Coeff) (φ : Symbol → Rat) :
    c.substituteAll φ = number (c.valueAt φ) := by
  apply valueAt_injective
  intro ψ
  rw [substituteAll, valueAt_foldl_substitute, valueAt_number]
  exact valueAt_congr fun s member => if_pos member

end Coeff

end PseudoBoolean
