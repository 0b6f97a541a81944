import Mathlib.Algebra.Ring.Subring.Basic
import PseudoBoolean.Proofs.Assignment
import PseudoBoolean.Proofs.Coefficient.Ring
import PseudoBoolean.Proofs.Multilinear.Variables

set_option autoImplicit false

namespace PseudoBoolean.Poly

open Multilinear FormalSum

def Numeric (p : Poly) : Prop :=
  p.isNumeric = true

instance : DecidablePred Numeric := fun p =>
  inferInstanceAs (Decidable (p.isNumeric = true))

def Integral (p : Poly) : Prop :=
  ∀ e ∈ p.entries, ∃ z : Int, e.2 = Coeff.number z

def ofNumbers : NumericPoly →+* Poly :=
  mapHom Coeff.numbers

theorem eq_number_of_numeric {p : Poly} (numeric : p.Numeric) :
    ∀ e ∈ p.entries, e.2 = Coeff.number e.2.constantPart := by
  have each : ∀ e ∈ p.entries, e.2.isNumber = true := List.all_eq_true.mp numeric
  exact fun e inside => Coeff.eq_number_of_isNumber (each e inside)

theorem isNumber_number (q : Rat) : (Coeff.number q).isNumber = true := by
  by_cases zero : q = 0
  · subst zero
    rfl
  · simp [Coeff.isNumber, Coeff.number, single, zero, SortedMap.singleton]

theorem numeric_of_numbers {p : Poly} (numbers : ∀ e ∈ p.entries, ∃ q, e.2 = Coeff.number q) :
    p.Numeric := by
  refine List.all_eq_true.mpr fun e inside => ?_
  obtain ⟨q, same⟩ := numbers e inside
  rw [same]
  exact isNumber_number q

instance : DecidablePred Integral := fun p =>
  decidable_of_iff (∀ e ∈ p.entries, e.2 = Coeff.number e.2.constantPart.num) <|
    forall₂_congr fun e _ => by
      constructor
      · exact fun same => ⟨_, same⟩
      · rintro ⟨z, same⟩
        rw [same, Coeff.constantPart_number, Rat.num_intCast]

theorem Integral.numeric {p : Poly} (integral : p.Integral) : p.Numeric := by
  refine numeric_of_numbers fun e inside => ?_
  obtain ⟨z, same⟩ := integral e inside
  exact ⟨z, same⟩

theorem ofNumbers_constantParts {p : Poly} (numeric : p.Numeric) :
    ofNumbers p.constantParts = p := by
  apply ext_coeff
  intro m
  have outer := coeffAt_mapCoeffs (Coeff.numbers : Rat →+ Coeff) p.constantParts m
  have inner := coeffAt_mapCoeffs Coeff.constantPartHom p m
  refine outer.trans ?_
  rw [show p.constantParts.coeffAt m = (p.coeffAt m).constantPart from inner]
  have number : ∃ q, p.coeffAt m = Coeff.number q := by
    simp only [coeffAt]
    cases found : p.get? m with
    | none => exact ⟨0, rfl⟩
    | some c => exact ⟨_, eq_number_of_numeric numeric _ (SortedMap.get_eq_some.mp found)⟩
  obtain ⟨q, same⟩ := number
  rw [same, Coeff.constantPart_number]
  rfl

theorem vars_constantParts {p : Poly} (numeric : p.Numeric) : p.constantParts.vars = p.vars := by
  apply SortedSet.ext_mem
  intro v
  constructor
  · exact vars_mapCoeffs Coeff.constantPart
  · intro member
    rw [← ofNumbers_constantParts numeric] at member
    exact vars_mapCoeffs Coeff.numbers member

theorem degree_constantParts {p : Poly} (small : p.degree ≤ 2) : p.constantParts.degree ≤ 2 :=
  (degree_mapCoeffs_le Coeff.constantPart p).trans small

theorem degree_constantParts_eq {p : Poly} (numeric : p.Numeric) :
    p.constantParts.degree = p.degree := by
  apply le_antisymm
  · exact degree_mapCoeffs_le Coeff.constantPart p
  · have back := degree_mapCoeffs_le Coeff.numbers p.constantParts
    have same : p.constantParts.mapCoeffs Coeff.numbers = p := ofNumbers_constantParts numeric
    rwa [same] at back

theorem constantParts_toPoly (r : NumericPoly) : r.toPoly.constantParts = r := by
  apply ext_coeff
  intro m
  have outer := coeffAt_mapCoeffs Coeff.constantPartHom r.toPoly m
  have inner := coeffAt_mapCoeffs (Coeff.numbers : Rat →+ Coeff) r m
  exact outer.trans ((congrArg Coeff.constantPart inner).trans (Coeff.constantPart_number _))

theorem numeric_ofNumbers (p : NumericPoly) : (ofNumbers p).Numeric := by
  refine numeric_of_numbers fun e inside => ?_
  obtain ⟨t, -, same⟩ := exists_of_mem_mapCoeffs inside
  exact ⟨t.2, congrArg Prod.snd same⟩

theorem numeric_iff {p : Poly} : p.Numeric ↔ p ∈ ofNumbers.range := by
  constructor
  · exact fun numeric => ⟨p.constantParts, ofNumbers_constantParts numeric⟩
  · rintro ⟨q, rfl⟩
    exact numeric_ofNumbers q

theorem Numeric.single (m : Monomial Label) (q : Rat) :
    Numeric (FormalSum.single m (Coeff.number q)) := by
  refine numeric_of_numbers fun e inside => ⟨q, ?_⟩
  simp only [FormalSum.single] at inside
  split at inside
  · exact absurd inside List.not_mem_nil
  · simp_all [SortedMap.singleton]

section Closure

variable {p q : Poly}

theorem Numeric.zero : Numeric 0 :=
  numeric_iff.mpr (zero_mem _)

theorem Numeric.one : Numeric 1 :=
  numeric_iff.mpr (one_mem _)

theorem Numeric.add (left : p.Numeric) (right : q.Numeric) : (p + q).Numeric :=
  numeric_iff.mpr (add_mem (numeric_iff.mp left) (numeric_iff.mp right))

theorem Numeric.neg (numeric : p.Numeric) : (-p).Numeric :=
  numeric_iff.mpr (neg_mem (numeric_iff.mp numeric))

theorem Numeric.sub (left : p.Numeric) (right : q.Numeric) : (p - q).Numeric :=
  numeric_iff.mpr (sub_mem (numeric_iff.mp left) (numeric_iff.mp right))

theorem Numeric.pow (numeric : p.Numeric) (n : Nat) :
    Numeric (FormalSum.pow p n) :=
  numeric_iff.mpr (pow_mem (numeric_iff.mp numeric) n)

theorem Numeric.scale (numeric : p.Numeric) (q : Rat) :
    Numeric (FormalSum.scale (Coeff.number q) p) := by
  have constant : constants (Coeff.number q) ∈ ofNumbers.range :=
    ⟨constants q, mapHom_constants Coeff.numbers q⟩
  rw [scale_eq_mul]
  exact numeric_iff.mpr (mul_mem (numeric_iff.mp numeric) constant)

end Closure

def numberAt (σ : Label → Bool) (p : Poly) : Rat :=
  valueAt σ p.constantParts

theorem numberAt_eq (σ : Label → Bool) (p : Poly) : numberAt σ p = (valueAt σ p).constantPart :=
  valueAt_mapCoeffs σ Coeff.constantPartHom p

theorem valueAt_numeric {p : Poly} (numeric : p.Numeric) (σ : Label → Bool) :
    valueAt σ p = Coeff.number (numberAt σ p) := by
  have mapped := valueAt_mapCoeffs σ (Coeff.numbers : Rat →+ Coeff) p.constantParts
  exact (congrArg (valueAt σ) (ofNumbers_constantParts numeric).symm).trans mapped

theorem numberAt_of_valueAt {p : Poly} {σ : Label → Bool} {q : Rat}
    (value : valueAt σ p = Coeff.number q) : numberAt σ p = q := by
  rw [numberAt_eq, value, Coeff.constantPart_number]

section Calculus

variable (σ : Label → Bool) (p q : Poly)

@[simp]
theorem numberAt_zero : numberAt σ 0 = 0 := rfl

@[simp]
theorem numberAt_one : numberAt σ 1 = 1 :=
  numberAt_of_valueAt (by rw [valueAt_one, Coeff.number_one])

@[simp]
theorem numberAt_add : numberAt σ (p + q) = numberAt σ p + numberAt σ q := by
  simp only [numberAt_eq, valueAt_add]
  exact map_add Coeff.constantPartHom _ _

@[simp]
theorem numberAt_neg : numberAt σ (-p) = -numberAt σ p := by
  simp only [numberAt_eq, valueAt_neg]
  exact map_neg Coeff.constantPartHom _

@[simp]
theorem numberAt_sub : numberAt σ (p - q) = numberAt σ p - numberAt σ q := by
  simp only [numberAt_eq, valueAt_sub]
  exact map_sub Coeff.constantPartHom _ _

variable {p}

theorem numberAt_scale (numeric : p.Numeric) (c : Rat) :
    numberAt σ (FormalSum.scale (Coeff.number c) p) = numberAt σ p * c :=
  numberAt_of_valueAt (by rw [valueAt_scale, valueAt_numeric numeric, Coeff.number_mul])

theorem numberAt_pow (numeric : p.Numeric) (n : Nat) :
    numberAt σ (FormalSum.pow p n) = numberAt σ p ^ n := by
  apply numberAt_of_valueAt
  rw [valueAt_pow, valueAt_numeric numeric]
  exact (map_pow Coeff.numbers _ n).symm

theorem numberAt_congr {τ : Label → Bool} (same : ∀ v ∈ p.vars, σ v = τ v) :
    numberAt σ p = numberAt τ p := by
  rw [numberAt_eq, numberAt_eq, valueAt_congr same]

variable {σ}

theorem numberAt_agree {free : List Label} (apart : ∀ v ∈ free, v ∉ p.vars) {τ : Label → Bool}
    (agree : AgreeOff free σ τ) : numberAt τ p = numberAt σ p :=
  numberAt_congr τ fun v member => agree v fun inside => apart v inside member

end Calculus

theorem sum_integral {l : List Coeff} (integral : ∀ c ∈ l, ∃ z : Int, c = Coeff.number z) :
    ∃ z : Int, l.sum = Coeff.number z := by
  induction l with
  | nil => exact ⟨0, rfl⟩
  | cons c l ih =>
    obtain ⟨⟨y, first⟩, rest⟩ := List.forall_mem_cons.mp integral
    obtain ⟨z, later⟩ := ih rest
    refine ⟨y + z, ?_⟩
    rw [List.sum_cons, first, later, ← Coeff.number_add, Int.cast_add]

theorem Integral.numberAt {p : Poly} (integral : p.Integral) (σ : Label → Bool) :
    ∃ z : Int, numberAt σ p = z := by
  have whole : ∃ z : Int, valueAt σ p = Coeff.number z := by
    rw [valueAt]
    apply sum_integral
    intro c member
    obtain ⟨e, kept, rfl⟩ := List.mem_map.mp member
    exact integral e (List.mem_filter.mp kept).1
  obtain ⟨z, value⟩ := whole
  exact ⟨z, numberAt_of_valueAt value⟩

theorem mem_symbols {p : Poly} {s : Symbol} :
    s ∈ p.symbols ↔ ∃ e ∈ p.entries, s ∈ e.2.symbols := by
  rw [symbols, SortedSet.mem_unions]
  constructor
  · intro member
    obtain ⟨t, inside, held⟩ := member
    obtain ⟨e, found, rfl⟩ := List.mem_map.mp inside
    exact ⟨e, found, held⟩
  · intro member
    obtain ⟨e, found, held⟩ := member
    exact ⟨e.2.symbols, List.mem_map_of_mem found, held⟩

theorem not_mem_symbols_of_numeric {p : Poly} (numeric : p.Numeric) (s : Symbol) :
    s ∉ p.symbols := by
  intro member
  obtain ⟨e, found, held⟩ := mem_symbols.mp member
  rw [eq_number_of_numeric numeric e found] at held
  have absent : s ∈ (Coeff.number e.2.constantPart).symbols.toList := held
  rw [Coeff.symbols_number] at absent
  exact absurd absent List.not_mem_nil

theorem numbers_eq_ok {p : Poly} (numeric : p.Numeric) : p.numbers = .ok p.constantParts := by
  have nothing : p.symbols.toList = [] :=
    List.eq_nil_iff_forall_not_mem.mpr (not_mem_symbols_of_numeric numeric)
  rw [numbers, nothing]

end PseudoBoolean.Poly
