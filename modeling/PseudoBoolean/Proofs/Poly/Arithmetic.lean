import PseudoBoolean.Proofs.Poly.Evaluation

set_option autoImplicit false

namespace PseudoBoolean.Poly

open Multilinear

def Pointwise (op : Poly → Poly) (f : Coeff → Coeff) : Prop :=
  ∀ p, (∀ v ∈ (op p).vars, v ∈ p.vars) ∧
    ∀ a : Assignment, a.Covers p.vars → ∃ x, p.eval a = .ok x ∧ (op p).eval a = .ok (f x)

def Pointwise₂ (op : Poly → Poly → Poly) (f : Coeff → Coeff → Coeff) : Prop :=
  ∀ p q, (∀ v ∈ (op p q).vars, v ∈ p.vars ∨ v ∈ q.vars) ∧
    ∀ a : Assignment, a.Covers p.vars → a.Covers q.vars →
      ∃ x y, p.eval a = .ok x ∧ q.eval a = .ok y ∧ (op p q).eval a = .ok (f x y)

theorem pointwise_of_valueAt {op : Poly → Poly} {f : Coeff → Coeff}
    (subset : ∀ p, ∀ v ∈ (op p).vars, v ∈ p.vars)
    (value : ∀ σ p, valueAt σ (op p) = f (valueAt σ p)) : Pointwise op f := by
  intro p
  refine ⟨subset p, fun a covered => ⟨valueAt a.truth p, eval_eq_ok covered, ?_⟩⟩
  have result : a.Covers (op p).vars := fun v member => covered v (subset p v member)
  rw [eval_eq_ok result, value]

theorem pointwise₂_of_valueAt {op : Poly → Poly → Poly} {f : Coeff → Coeff → Coeff}
    (subset : ∀ p q, ∀ v ∈ (op p q).vars, v ∈ p.vars ∨ v ∈ q.vars)
    (value : ∀ σ p q, valueAt σ (op p q) = f (valueAt σ p) (valueAt σ q)) : Pointwise₂ op f := by
  intro p q
  refine ⟨subset p q, fun a left right =>
    ⟨valueAt a.truth p, valueAt a.truth q, eval_eq_ok left, eval_eq_ok right, ?_⟩⟩
  have result : a.Covers (op p q).vars := fun v member =>
    (subset p q v member).elim (left v) (right v)
  rw [eval_eq_ok result, value]

theorem eval_pointwise :
    Pointwise₂ (· + ·) (· + ·) ∧ Pointwise₂ (· - ·) (· - ·) ∧ Pointwise₂ (· * ·) (· * ·) ∧
      Pointwise (- ·) (- ·) ∧ (∀ c, Pointwise (FormalSum.scale c) (· * c)) ∧
      (∀ n, Pointwise (FormalSum.pow · n) (· ^ n)) ∧
      ∀ (p : Poly) (a : Assignment), ((∃ x, p.eval a = .ok x) ↔ a.Covers p.vars) ∧
        ∀ failure, p.eval a = .error failure →
          ∃ v ∈ p.vars, v ∉ a.keys ∧ failure = .missingVariable v := by
  refine ⟨?sum, ?difference, ?product, ?negation, ?multiple, ?power, fun p a =>
    ⟨eval_isOk_iff, fun failure => exists_missing_of_eval⟩⟩
  case sum => exact pointwise₂_of_valueAt (fun p q v => vars_add) valueAt_add
  case difference => exact pointwise₂_of_valueAt (fun p q v => vars_sub) valueAt_sub
  case product => exact pointwise₂_of_valueAt (fun p q v => vars_mul) valueAt_mul
  case negation => exact pointwise_of_valueAt (fun p v => vars_neg) valueAt_neg
  case multiple =>
    intro c
    exact pointwise_of_valueAt (fun p v => vars_scale) fun σ p => valueAt_scale σ p c
  case power =>
    intro n
    exact pointwise_of_valueAt (fun p v => vars_pow) fun σ p => valueAt_pow σ p n

-- The first variable is false already, the second one is asked for all the same.
example : eval (SortedMap.ofList [(.index 0, false)]) (label (.index 0) * label (.index 1)) =
    .error (.missingVariable (.index 1)) := by
  decide +kernel

end PseudoBoolean.Poly
