import Mathlib.Algebra.GroupWithZero.Idempotent
import PseudoBoolean.Proofs.Coefficient.Values
import PseudoBoolean.Proofs.Multilinear.Compose
import PseudoBoolean.Proofs.Poly.Evaluation

set_option autoImplicit false

namespace PseudoBoolean.Poly

open Multilinear

def TwoValued (p : Poly) : Prop :=
  ∀ a : Assignment, a.Covers p.vars → p.eval a = .ok 0 ∨ p.eval a = .ok 1

section TwoValued

variable {p : Poly}

theorem twoValued_iff : p.TwoValued ↔ ∀ σ, valueAt σ p = 0 ∨ valueAt σ p = 1 := by
  constructor
  · intro binary σ
    have inside : ∀ v ∈ p.vars, v ∈ p.vars := fun _ => id
    have value := eval_ofTruth inside σ
    have decided := binary _ (eval_isOk_iff.mp ⟨_, value⟩)
    rwa [value, Except.ok.injEq, Except.ok.injEq] at decided
  · intro binary a covered
    rw [eval_eq_ok covered, Except.ok.injEq, Except.ok.injEq]
    exact binary a.truth

def bitAt (σ : Label → Bool) (p : Poly) : Bool :=
  valueAt σ p = 1

theorem valueAt_eq_bitAt (binary : p.TwoValued) (σ : Label → Bool) :
    valueAt σ p = if p.bitAt σ then 1 else 0 := by
  rcases twoValued_iff.mp binary σ with zero | one
  · simp [bitAt, zero]
  · simp [bitAt, one]

theorem eval_eq_bitAt {a : Assignment} (binary : p.TwoValued) (covered : a.Covers p.vars) :
    p.eval a = .ok (if p.bitAt a.truth then 1 else 0) := by
  rw [eval_eq_ok covered, valueAt_eq_bitAt binary]

theorem bit_unique {a : Assignment} {b c : Bool} (left : p.eval a = .ok (if b then 1 else 0))
    (right : p.eval a = .ok (if c then 1 else 0)) : b = c := by
  have same : (if b then 1 else 0 : Coeff) = if c then 1 else 0 :=
    Except.ok.inj (left.symm.trans right)
  cases b <;> cases c <;> simp_all

theorem twoValued_constant (b : Bool) : TwoValued (constant (if b then 1 else 0)) := by
  refine twoValued_iff.mpr fun σ => ?_
  cases b with
  | false => exact Or.inl rfl
  | true => exact Or.inr (valueAt_one σ)

-- Coefficients have no zero divisors, so one that is its own square is zero or one.
theorem isBooleanValued_iff : p.isBooleanValued = true ↔ p.TwoValued := by
  rw [isBooleanValued, decide_eq_true_iff, twoValued_iff]
  constructor
  · intro square σ
    have idempotent : IsIdempotentElem (valueAt σ p) := by
      rw [IsIdempotentElem, ← valueAt_mul, square]
    exact IsIdempotentElem.iff_eq_zero_or_one.mp idempotent
  · intro binary
    apply valueAt_injective
    intro σ
    rw [valueAt_mul]
    exact IsIdempotentElem.iff_eq_zero_or_one.mpr (binary σ)

instance : DecidablePred TwoValued := fun p =>
  decidable_of_iff (p.isBooleanValued = true) isBooleanValued_iff

theorem not_isBooleanValued_iff :
    ¬ p.isBooleanValued = true ↔
      ∃ a x, Assignment.Covers a p.vars ∧ p.eval a = .ok x ∧ x ≠ 0 ∧ x ≠ 1 := by
  rw [isBooleanValued_iff, TwoValued]
  push Not
  refine exists_congr fun a => ?_
  constructor
  · rintro ⟨covered, notZero, notOne⟩
    have value := eval_eq_ok covered
    rw [value, ne_eq, Except.ok.injEq] at notZero notOne
    exact ⟨_, covered, value, notZero, notOne⟩
  · rintro ⟨x, covered, value, notZero, notOne⟩
    rw [value, ne_eq, ne_eq, Except.ok.injEq, Except.ok.injEq]
    exact ⟨covered, notZero, notOne⟩

theorem isBooleanValued_exact (r : Poly) :
    (r.isBooleanValued = true ↔
        ∀ a : Assignment, a.Covers r.vars → r.eval a = .ok 0 ∨ r.eval a = .ok 1) ∧
      ∀ (p : Poly) (v : Label) (failure : Failure),
        p.substitute v r = .error failure ↔ failure = .notBooleanValued v r ∧
          ∃ a x, Assignment.Covers a r.vars ∧ r.eval a = .ok x ∧ x ≠ 0 ∧ x ≠ 1 := by
  refine ⟨isBooleanValued_iff, fun p v failure => ?_⟩
  rw [← not_isBooleanValued_iff, substitute]
  split
  next binary => simp [binary]
  next other => simp [other, eq_comm]

end TwoValued

section Substitute

variable {r : Poly} {v : Label}

theorem substitute_eq_ok (binary : r.TwoValued) (p : Poly) (v : Label) :
    p.substitute v r = .ok (p.compose v r) :=
  if_pos (isBooleanValued_iff.mpr binary)

theorem twoValued_compose {p : Poly} (outer : p.TwoValued) (binary : r.TwoValued) (v : Label) :
    TwoValued (p.compose v r) := by
  refine twoValued_iff.mpr fun σ => ?_
  rw [valueAt_compose (valueAt_eq_bitAt binary σ)]
  exact twoValued_iff.mp outer _

theorem eval_compose {p : Poly} {a : Assignment} (binary : r.TwoValued) (left : a.Covers p.vars)
    (right : a.Covers r.vars) (v : Label) :
    ∃ (b : Bool) (x : Coeff), r.eval a = .ok (if b then 1 else 0) ∧
      p.eval (a.insert v b) = .ok x ∧ eval a (p.compose v r) = .ok x := by
  let b := r.bitAt a.truth
  have replaced := valueAt_eq_bitAt binary a.truth
  have set : Assignment.Covers (a.insert v b) p.vars := fun w member =>
    SortedMap.mem_keys_insert.mpr (Or.inr (left w member))
  have result : a.Covers (vars (p.compose v r)) := fun w member =>
    (vars_compose member).elim (fun outer => left w outer.1) (right w)
  refine ⟨b, valueAt (Assignment.truth (a.insert v b)) p, ?_, eval_eq_ok set, ?_⟩
  · rw [eval_eq_ok right, replaced]
  · rw [eval_eq_ok result, valueAt_compose replaced, Assignment.truth_insert]

/-- The replacement may contain `v` and the other variables of `p`. -/
theorem substitute_composes (binary : r.TwoValued) (p : Poly) (v : Label) :
    (∃ s, p.substitute v r = .ok s ∧
      (∀ a : Assignment, a.Covers p.vars → a.Covers r.vars →
        ∃ (b : Bool) (x : Coeff), r.eval a = .ok (if b then 1 else 0) ∧
          p.eval (a.insert v b) = .ok x ∧ s.eval a = .ok x) ∧
      (v ∉ r.vars → v ∉ s.vars) ∧ (p.TwoValued → s.TwoValued)) ∧
    ∀ b : Bool, p.substitute v (constant (if b then 1 else 0)) = .ok (p.fix v b) := by
  constructor
  · refine ⟨p.compose v r, substitute_eq_ok binary p v, ?value, ?free, ?outer⟩
    case value => exact fun a left right => eval_compose binary left right v
    case free =>
      intro absent member
      rcases vars_compose member with kept | added
      · exact kept.2 rfl
      · exact absent added
    case outer => exact fun outer => twoValued_compose outer binary v
  · intro b
    rw [fix_eq_compose]
    exact substitute_eq_ok (twoValued_constant b) p v

-- The replacement has the variable itself and shares the other one, so two terms become one.
theorem substitute_composes_collapsing :
    let x (n : Nat) := label (.index n)
    let lam := Coeff.symbol ⟨"lam"⟩
    let p := x 0 * x 1 + (x 0).scale lam - x 1
    let r := x 0 * x 1
    let a : Assignment := SortedMap.ofList [(.index 0, true), (.index 1, false)]
    r.TwoValued ∧ p.eval a = .ok lam ∧ r.eval a = .ok 0 ∧
      p.substitute (.index 0) r = .ok (r.scale (1 + lam) - x 1) ∧
      p.eval (a.insert (.index 0) false) = .ok 0 ∧ eval a (r.scale (1 + lam) - x 1) = .ok 0 := by
  intro x lam p r a
  have binary : r.TwoValued := isBooleanValued_iff.mp (by decide +kernel)
  obtain ⟨⟨s, replaced, composes, -, -⟩, -⟩ := substitute_composes binary p (.index 0)
  have collapsed : p.substitute (.index 0) r = .ok (r.scale (1 + lam) - x 1) := by decide +kernel
  obtain rfl : r.scale (1 + lam) - x 1 = s := Except.ok.inj (collapsed.symm.trans replaced)
  have before : p.eval a = .ok lam := by decide +kernel
  have truth : r.eval a = .ok 0 := by decide +kernel
  obtain ⟨b, y, same, outer, inner⟩ :=
    composes a (eval_isOk_iff.mp ⟨_, before⟩) (eval_isOk_iff.mp ⟨_, truth⟩)
  cases b with
  | true => exact absurd (truth.symm.trans same) (by decide +kernel)
  | false =>
    have value : p.eval (a.insert (.index 0) false) = .ok 0 := by decide +kernel
    obtain rfl : 0 = y := Except.ok.inj (value.symm.trans outer)
    exact ⟨binary, before, truth, collapsed, outer, inner⟩

end Substitute

end PseudoBoolean.Poly
