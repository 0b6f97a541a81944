import PseudoBoolean.Gate
import PseudoBoolean.Proofs.Poly.Numeric

set_option autoImplicit false

namespace PseudoBoolean

open FormalSum

variable {R : Subring Poly}

theorem Poly.number_two : Poly.number 2 = 2 :=
  map_ofNat ((constants : Coeff →+* Poly).comp Coeff.numbers) 2

theorem Poly.number_two_mem (R : Subring Poly) : Poly.number 2 ∈ R := by
  rw [Poly.number_two]
  exact ofNat_mem R 2

theorem Poly.not_mem {a : Poly} (input : a ∈ R) : a.not ∈ R :=
  sub_mem (one_mem R) input

namespace BinaryKind

variable {a b : Poly}

theorem combine_mem (kind : BinaryKind) (left : a ∈ R) (right : b ∈ R) : kind.combine a b ∈ R := by
  cases kind with
  | and => exact mul_mem left right
  | or => exact sub_mem (add_mem left right) (mul_mem left right)
  | xor =>
    have double := mul_mem (mul_mem (Poly.number_two_mem R) left) right
    exact sub_mem (add_mem left right) double

theorem foldl_mem (kind : BinaryKind) {inputs : List Poly} {start : Poly} (first : start ∈ R)
    (each : ∀ a ∈ inputs, a ∈ R) : inputs.foldl kind.combine start ∈ R := by
  induction inputs generalizing start with
  | nil => exact first
  | cons a rest ih =>
    obtain ⟨head, tail⟩ := List.forall_mem_cons.mp each
    exact ih (kind.combine_mem first head) tail

end BinaryKind

theorem ManyKind.combine_mem (kind : ManyKind) {inputs : List Poly} (each : ∀ a ∈ inputs, a ∈ R) :
    kind.combine inputs ∈ R := by
  have all := BinaryKind.and.foldl_mem (one_mem R) each
  have any := BinaryKind.or.foldl_mem (zero_mem R) each
  have odd := BinaryKind.xor.foldl_mem (zero_mem R) each
  cases kind with
  | and => exact all
  | or => exact any
  | xor => exact odd
  | nand => exact Poly.not_mem all
  | nor => exact Poly.not_mem any
  | xnor => exact Poly.not_mem odd

theorem Gate.toPoly_mem {g : Gate} (each : ∀ a ∈ g.inputs, a ∈ R) : g.toPoly ∈ R := by
  cases g with
  | not input => exact Poly.not_mem (each input (by simp [inputs]))
  | binary kind left right =>
    exact kind.combine_mem (each left (by simp [inputs])) (each right (by simp [inputs]))
  | many kind list => exact kind.combine_mem each

end PseudoBoolean
