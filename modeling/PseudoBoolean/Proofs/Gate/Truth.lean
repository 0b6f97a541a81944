import Mathlib.Algebra.Ring.Parity
import PseudoBoolean.Proofs.Gate
import PseudoBoolean.Proofs.Poly.Substitution

set_option autoImplicit false

namespace PseudoBoolean

open Multilinear

namespace BinaryKind

def truth : BinaryKind → Bool → Bool → Bool
  | .and => Bool.and
  | .or => Bool.or
  | .xor => Bool.xor

def unit : BinaryKind → Bool
  | .and => true
  | .or => false
  | .xor => false

def many : BinaryKind → ManyKind
  | .and => .and
  | .or => .or
  | .xor => .xor

def inverted : BinaryKind → ManyKind
  | .and => .nand
  | .or => .nor
  | .xor => .xnor

end BinaryKind

namespace Gate

def output (read : Poly → Bool) : Gate → Bool
  | .not input => !read input
  | .binary kind left right => kind.truth (read left) (read right)
  | .many kind inputs => kind.truth (inputs.map read)

end Gate

namespace ManyKind

variable (kind : BinaryKind)

theorem exists_kind (k : ManyKind) : ∃ kind : BinaryKind, k = kind.many ∨ k = kind.inverted := by
  cases k with
  | and => exact ⟨.and, Or.inl rfl⟩
  | or => exact ⟨.or, Or.inl rfl⟩
  | xor => exact ⟨.xor, Or.inl rfl⟩
  | nand => exact ⟨.and, Or.inr rfl⟩
  | nor => exact ⟨.or, Or.inr rfl⟩
  | xnor => exact ⟨.xor, Or.inr rfl⟩

theorem combine_many (inputs : List Poly) :
    kind.many.combine inputs = inputs.foldl kind.combine (if kind.unit then 1 else 0) := by
  cases kind <;> rfl

theorem combine_inverted (inputs : List Poly) :
    kind.inverted.combine inputs = (kind.many.combine inputs).not := by
  cases kind <;> rfl

theorem truth_inverted (bits : List Bool) : kind.inverted.truth bits = !kind.many.truth bits := by
  cases kind <;> rfl

theorem foldl_and (start : Bool) (bits : List Bool) :
    bits.foldl Bool.and start = (start && bits.all id) := by
  induction bits generalizing start with
  | nil => simp
  | cons b bits ih => simp [ih, Bool.and_assoc]

theorem foldl_or (start : Bool) (bits : List Bool) :
    bits.foldl Bool.or start = (start || bits.any id) := by
  induction bits generalizing start with
  | nil => simp
  | cons b bits ih => simp [ih, Bool.or_assoc]

theorem foldl_xor (start : Bool) (bits : List Bool) :
    bits.foldl Bool.xor start = (start ^^ decide (Odd (bits.count true))) := by
  induction bits generalizing start with
  | nil => simp
  | cons b bits ih =>
    rw [List.foldl_cons, ih]
    cases b with
    | false => simp
    | true => by_cases odd : Odd (bits.count true) <;> simp [Nat.odd_add_one, odd]

theorem truth_many (bits : List Bool) :
    kind.many.truth bits = bits.foldl kind.truth kind.unit := by
  cases kind with
  | and => exact (foldl_and true bits).symm
  | or => exact (foldl_or false bits).symm
  | xor => rfl

theorem truth_xor (bits : List Bool) :
    ManyKind.xor.truth bits = decide (Odd (bits.count true)) := by
  rw [truth, foldl_xor, Bool.false_xor]

end ManyKind

section Values

variable {σ : Label → Bool} {a b : Poly} {x y : Bool}

theorem Poly.valueAt_not (input : valueAt σ a = if x then 1 else 0) :
    valueAt σ a.not = if !x then 1 else 0 := by
  rw [Poly.not, valueAt_sub, valueAt_one, input]
  cases x <;> simp

theorem BinaryKind.valueAt_combine (kind : BinaryKind) (left : valueAt σ a = if x then 1 else 0)
    (right : valueAt σ b = if y then 1 else 0) :
    valueAt σ (kind.combine a b) = if kind.truth x y then 1 else 0 := by
  cases kind with
  | and =>
    rw [combine, Poly.and, valueAt_mul, left, right]
    cases x <;> cases y <;> simp [truth]
  | or =>
    rw [combine, Poly.or, valueAt_sub, valueAt_add, valueAt_mul, left, right]
    cases x <;> cases y <;> simp [truth]
  | xor =>
    have two : valueAt σ (Poly.number 2) = 2 := by
      rw [Poly.number_two]
      exact map_ofNat (valueHom σ) 2
    rw [combine, Poly.xor, valueAt_sub, valueAt_add, valueAt_mul, valueAt_mul, two, left, right]
    cases x <;> cases y <;> simp [truth]
    norm_num

theorem BinaryKind.valueAt_foldl (kind : BinaryKind) {read : Poly → Bool} {inputs : List Poly}
    (first : valueAt σ a = if x then 1 else 0)
    (each : ∀ p ∈ inputs, valueAt σ p = if read p then 1 else 0) :
    valueAt σ (inputs.foldl kind.combine a) =
      if (inputs.map read).foldl kind.truth x then 1 else 0 := by
  induction inputs generalizing a x with
  | nil => exact first
  | cons p rest ih =>
    obtain ⟨head, tail⟩ := List.forall_mem_cons.mp each
    exact ih (kind.valueAt_combine first head) tail

theorem ManyKind.valueAt_combine (k : ManyKind) {read : Poly → Bool} {inputs : List Poly}
    (each : ∀ p ∈ inputs, valueAt σ p = if read p then 1 else 0) :
    valueAt σ (k.combine inputs) = if k.truth (inputs.map read) then 1 else 0 := by
  have folded (kind : BinaryKind) : valueAt σ (kind.many.combine inputs) =
      if kind.many.truth (inputs.map read) then 1 else 0 := by
    have start : valueAt σ (if kind.unit then 1 else 0 : Poly) = if kind.unit then 1 else 0 := by
      cases kind.unit <;> simp
    rw [combine_many, truth_many]
    exact kind.valueAt_foldl start each
  obtain ⟨kind, rfl | rfl⟩ := k.exists_kind
  · exact folded kind
  · rw [combine_inverted, truth_inverted]
    exact Poly.valueAt_not (folded kind)

theorem Gate.valueAt_toPoly {g : Gate} {read : Poly → Bool}
    (each : ∀ p ∈ g.inputs, valueAt σ p = if read p then 1 else 0) :
    valueAt σ g.toPoly = if g.output read then 1 else 0 := by
  cases g with
  | not input => exact Poly.valueAt_not (each input (by simp [inputs]))
  | binary kind left right =>
    exact kind.valueAt_combine (each left (by simp [inputs])) (each right (by simp [inputs]))
  | many k list => exact k.valueAt_combine each

end Values

def Poly.coveredBy (a : Assignment) : Subring Poly where
  carrier := {p | a.Covers p.vars}
  zero_mem' _ member := absurd member not_mem_vars_zero
  one_mem' _ member := absurd member not_mem_vars_one
  add_mem' left right v member := (vars_add member).elim (left v) (right v)
  mul_mem' left right v member := (vars_mul member).elim (left v) (right v)
  neg_mem' inside v member := inside v (vars_neg member)

namespace Gate

variable {g : Gate} {a : Assignment}

theorem covers_toPoly (covered : ∀ p ∈ g.inputs, a.Covers p.vars) : a.Covers g.toPoly.vars :=
  toPoly_mem (R := Poly.coveredBy a) covered

theorem eval_toPoly (binary : ∀ p ∈ g.inputs, p.TwoValued)
    (covered : ∀ p ∈ g.inputs, a.Covers p.vars) :
    ∃ read : Poly → Bool, (∀ p ∈ g.inputs, p.eval a = .ok (if read p then 1 else 0)) ∧
      g.toPoly.eval a = .ok (if g.output read then 1 else 0) := by
  have each : ∀ p ∈ g.inputs, valueAt a.truth p = if p.bitAt a.truth then 1 else 0 :=
    fun p inside => Poly.valueAt_eq_bitAt (binary p inside) a.truth
  refine ⟨fun p => p.bitAt a.truth, fun p inside => ?_, ?_⟩
  · exact Poly.eval_eq_bitAt (binary p inside) (covered p inside)
  · rw [Poly.eval_eq_ok (covers_toPoly covered), valueAt_toPoly each]

theorem twoValued_toPoly (binary : ∀ p ∈ g.inputs, p.TwoValued) : g.toPoly.TwoValued := by
  refine Poly.twoValued_iff.mpr fun σ => ?_
  rw [valueAt_toPoly fun p inside => Poly.valueAt_eq_bitAt (binary p inside) σ]
  cases g.output fun p => p.bitAt σ <;> simp

end Gate

section Structure

namespace BinaryKind

theorem combine_right_comm (kind : BinaryKind) (z a b : Poly) :
    kind.combine (kind.combine z a) b = kind.combine (kind.combine z b) a := by
  cases kind with
  | and =>
    simp only [combine, Poly.and]
    ring
  | or =>
    simp only [combine, Poly.or]
    ring
  | xor =>
    simp only [combine, Poly.xor]
    ring

theorem combine_unit (kind : BinaryKind) (a : Poly) :
    kind.combine (if kind.unit then 1 else 0) a = a := by
  cases kind with
  | and =>
    simp only [combine, unit, Poly.and, if_true]
    ring
  | or =>
    simp only [combine, unit, Poly.or, Bool.false_eq_true, if_false]
    ring
  | xor =>
    simp only [combine, unit, Poly.xor, Bool.false_eq_true, if_false]
    ring

end BinaryKind

theorem ManyKind.combine_perm (k : ManyKind) {inputs other : List Poly} (perm : inputs.Perm other) :
    k.combine inputs = k.combine other := by
  have folded (kind : BinaryKind) : kind.many.combine inputs = kind.many.combine other := by
    rw [combine_many, combine_many]
    exact perm.foldl_eq' (fun a _ b _ z => kind.combine_right_comm z a b) _
  obtain ⟨kind, rfl | rfl⟩ := k.exists_kind
  · exact folded kind
  · rw [combine_inverted, combine_inverted, folded]

theorem ManyKind.combine_pair (kind : BinaryKind) (a b : Poly) :
    kind.many.combine [a, b] = kind.combine a b := by
  rw [combine_many, List.foldl_cons, List.foldl_cons, List.foldl_nil, kind.combine_unit]

theorem Poly.foldl_or (start : Poly) (inputs : List Poly) :
    inputs.foldl Poly.or start = 1 - (1 - start) * (inputs.map (1 - ·)).prod := by
  induction inputs generalizing start with
  | nil =>
    rw [List.foldl_nil, List.map_nil, List.prod_nil]
    ring
  | cons a rest ih =>
    rw [List.foldl_cons, ih, List.map_cons, List.prod_cons, Poly.or]
    ring

end Structure

theorem Gate.toPoly_computes :
    (∀ g : Gate, (∀ p ∈ g.inputs, p.TwoValued) →
        g.toPoly.TwoValued ∧ ∀ a : Assignment, (∀ p ∈ g.inputs, a.Covers p.vars) →
          ∃ read : Poly → Bool, (∀ p ∈ g.inputs, p.eval a = .ok (if read p then 1 else 0)) ∧
            g.toPoly.eval a = .ok (if g.output read then 1 else 0)) ∧
      (∀ bits, ManyKind.xor.truth bits = decide (Odd (bits.count true))) ∧
      (∀ inputs, (Gate.many .or inputs).toPoly = 1 - (inputs.map (1 - ·)).prod) ∧
      (∀ k inputs other, inputs.Perm other →
        (Gate.many k inputs).toPoly = (Gate.many k other).toPoly) ∧
      ∀ kind a b,
        (Gate.many kind.many [a, b]).toPoly = (Gate.binary kind a b).toPoly ∧
          (Gate.many kind.inverted [a, b]).toPoly = (Gate.binary kind a b).toPoly.not := by
  refine ⟨?values, ManyKind.truth_xor, ?product, ?order, ?pair⟩
  case values =>
    intro g binary
    exact ⟨twoValued_toPoly binary, fun a covered => eval_toPoly binary covered⟩
  case product =>
    intro inputs
    refine (Poly.foldl_or 0 inputs).trans ?_
    ring
  case order => exact fun k inputs other perm => k.combine_perm perm
  case pair =>
    intro kind a b
    have pair := ManyKind.combine_pair kind a b
    exact ⟨pair, (ManyKind.combine_inverted kind [a, b]).trans (congrArg Poly.not pair)⟩

-- The first input stands twice and cancels, so that the second decides.
theorem Gate.toPoly_computes_repeated :
    let x (n : Nat) := Poly.label (.index n)
    let g : Gate := .many .xor [x 0, x 0 * x 1, x 0]
    let a : Assignment := SortedMap.ofList [(.index 0, true), (.index 1, false)]
    (∀ p ∈ g.inputs, p.TwoValued) ∧ g.toPoly = x 0 * x 1 ∧ g.toPoly.TwoValued ∧
      (x 0).eval a = .ok 1 ∧ (x 0 * x 1).eval a = .ok 0 ∧ g.toPoly.eval a = .ok 0 := by
  intro x g a
  have binary : ∀ p ∈ g.inputs, p.TwoValued := by decide +kernel
  have first : (x 0).eval a = .ok 1 := by decide +kernel
  have second : (x 0 * x 1).eval a = .ok 0 := by decide +kernel
  have covered : ∀ p ∈ g.inputs, a.Covers p.vars := by decide +kernel
  obtain ⟨two, computes⟩ := toPoly_computes.1 g binary
  obtain ⟨read, known, value⟩ := computes a covered
  have on : read (x 0) = true := Poly.bit_unique (known (x 0) (by simp [g, inputs])) first
  have off : read (x 0 * x 1) = false :=
    Poly.bit_unique (known (x 0 * x 1) (by simp [g, inputs])) second
  have output : g.output read = false := by
    simp [g, Gate.output, ManyKind.truth, on, off]
  rw [output] at value
  exact ⟨binary, by decide +kernel, two, first, second, value⟩

end PseudoBoolean
