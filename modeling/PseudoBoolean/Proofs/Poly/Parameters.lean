import PseudoBoolean.Proofs.Coefficient.Values
import PseudoBoolean.Proofs.Multilinear.Compose
import PseudoBoolean.Proofs.Poly.Evaluation
import PseudoBoolean.Proofs.Poly.Resolve

set_option autoImplicit false

namespace PseudoBoolean.Poly

open Multilinear

variable {p : Poly} {s t : Symbol} {q : Rat}

theorem mem_symbols_resolve (member : t ∈ (p.resolve s q).symbols) : t ∈ p.symbols ∧ t ≠ s := by
  obtain ⟨e, inside, held⟩ := mem_symbols.mp member
  obtain ⟨f, found, rfl⟩ := FormalSum.exists_of_mem_mapCoeffs inside
  obtain ⟨old, other⟩ := Coeff.mem_symbols_substitute held
  exact ⟨mem_symbols.mpr ⟨f, found, old⟩, other⟩

-- Else the parameter could be replaced without any change to the values.
theorem exists_valueAt_symbol (held : s ∈ p.symbols) : ∃ σ, s ∈ (valueAt σ p).symbols := by
  by_contra free
  have unchanged : p.resolve s 0 = p := by
    apply valueAt_injective
    intro σ
    rw [valueAt_resolve]
    exact Coeff.substitute_of_not_mem (fun left => free ⟨σ, left⟩) 0
  have kept : s ∈ (p.resolve s 0).symbols := unchanged.symm ▸ held
  exact (mem_symbols_resolve kept).2 rfl

theorem resolve_comm (other : t ≠ s) (p : Poly) (q r : Rat) :
    (p.resolve s q).resolve t r = (p.resolve t r).resolve s q := by
  apply valueAt_injective
  intro σ
  simp only [valueAt_resolve]
  exact Coeff.substitute_comm other _ q r

theorem resolve_fix (p : Poly) (v : Label) (b : Bool) (s : Symbol) (q : Rat) :
    resolve (p.fix v b) s q = Multilinear.fix (p.resolve s q) v b := by
  apply valueAt_injective
  intro σ
  rw [valueAt_resolve, valueAt_fix, valueAt_fix, valueAt_resolve]

-- Variables may vanish with their coefficients, so what covers `p` covers the result.
theorem eval_resolve {a : Assignment} (covered : a.Covers p.vars) (s : Symbol) (q : Rat) :
    ∃ c, p.eval a = .ok c ∧ (p.resolve s q).eval a = .ok (c.substitute s q) := by
  have result : a.Covers (p.resolve s q).vars := fun v member => covered v (vars_mapCoeffs _ member)
  refine ⟨valueAt a.truth p, eval_eq_ok covered, ?_⟩
  rw [eval_eq_ok result, valueAt_resolve]

theorem resolve_commutes (s : Symbol) (q : Rat) :
    (∀ (c : Coeff) (φ : Symbol → Rat),
        (c.substitute s q).valueAt φ = c.valueAt (Function.update φ s q)) ∧
      (∀ c d : Coeff,
        (c + d).substitute s q = c.substitute s q + d.substitute s q ∧
          (c - d).substitute s q = c.substitute s q - d.substitute s q ∧
          (c * d).substitute s q = c.substitute s q * d.substitute s q) ∧
      (∀ p r : Poly,
        (p + r).resolve s q = p.resolve s q + r.resolve s q ∧
          (p - r).resolve s q = p.resolve s q - r.resolve s q ∧
          (p * r).resolve s q = p.resolve s q * r.resolve s q) ∧
      (∀ (p : Poly) (n : Nat), resolve (p.pow n) s q = FormalSum.pow (p.resolve s q) n) ∧
      (∀ (p : Poly) (v : Label) (b : Bool),
        resolve (p.fix v b) s q = Multilinear.fix (p.resolve s q) v b) ∧
      (∀ (p : Poly) (a : Assignment), a.Covers p.vars →
        ∃ c, p.eval a = .ok c ∧ (p.resolve s q).eval a = .ok (c.substitute s q)) ∧
      (∀ c : Coeff, ∀ t ∈ (c.substitute s q).symbols, t ∈ c.symbols ∧ t ≠ s) ∧
      (∀ p : Poly, ∀ t ∈ (p.resolve s q).symbols, t ∈ p.symbols ∧ t ≠ s) ∧
      ∀ (t : Symbol) (r : Rat), t ≠ s →
        (∀ c : Coeff, (c.substitute s q).substitute t r = (c.substitute t r).substitute s q) ∧
          ∀ p : Poly, (p.resolve s q).resolve t r = (p.resolve t r).resolve s q := by
  refine ⟨?meaning, ?coefficients, ?polynomials, ?powers, ?fixed, ?evaluation, ?free, ?cleared,
    ?order⟩
  case meaning => exact fun c φ => Coeff.valueAt_substitute φ c s q
  case coefficients =>
    intro c d
    let hom := Coeff.substituteHom s q
    exact ⟨map_add hom c d, map_sub hom c d, map_mul hom c d⟩
  case polynomials =>
    intro p r
    exact ⟨resolve_add p r s q, resolve_sub p r s q, resolve_mul p r s q⟩
  case powers => exact fun p n => resolve_pow p s q n
  case fixed => exact fun p v b => resolve_fix p v b s q
  case evaluation => exact fun p a covered => eval_resolve covered s q
  case free => exact fun c t member => Coeff.mem_symbols_substitute member
  case cleared => exact fun p t member => mem_symbols_resolve member
  case order =>
    intro t r other
    exact ⟨fun c => Coeff.substitute_comm other c q r, fun p => resolve_comm other p q r⟩

-- At one the first coefficient vanishes and takes its monomial along, the others join into one.
example :
    let lam := Coeff.symbol ⟨"lam"⟩
    let mu := Coeff.symbol ⟨"mu"⟩
    let x (n : Nat) := label (.index n)
    resolve ((x 0).scale (lam * lam - lam) + (x 1).scale (lam * mu + mu)) ⟨"lam"⟩ 1 =
      (x 1).scale (Coeff.number 2 * mu) := by
  decide +kernel

end PseudoBoolean.Poly
