import PseudoBoolean.Proofs.Coefficient.Substitute
import PseudoBoolean.Proofs.Poly.Numeric

set_option autoImplicit false

namespace PseudoBoolean.Poly

open FormalSum Multilinear

def resolveHom (s : Symbol) (q : Rat) : Poly →+* Poly :=
  mapHom (Coeff.substituteHom s q)

section Calculus

variable (p r : Poly) (s : Symbol) (q : Rat)

@[simp]
theorem resolve_zero : resolve 0 s q = 0 := rfl

@[simp]
theorem resolve_add : (p + r).resolve s q = p.resolve s q + r.resolve s q :=
  map_add (resolveHom s q) p r

@[simp]
theorem resolve_neg : (-p).resolve s q = -p.resolve s q :=
  map_neg (resolveHom s q) p

@[simp]
theorem resolve_sub : (p - r).resolve s q = p.resolve s q - r.resolve s q :=
  map_sub (resolveHom s q) p r

@[simp]
theorem resolve_mul : (p * r).resolve s q = p.resolve s q * r.resolve s q :=
  map_mul (resolveHom s q) p r

@[simp]
theorem resolve_pow (n : Nat) : resolve (p.pow n) s q = FormalSum.pow (p.resolve s q) n :=
  map_pow (resolveHom s q) p n

@[simp]
theorem resolve_scale (c : Coeff) :
    resolve (p.scale c) s q = FormalSum.scale (c.substitute s q) (p.resolve s q) := by
  have strength : resolve (constants c) s q = constants (c.substitute s q) :=
    mapHom_constants (Coeff.substituteHom s q) c
  rw [scale_eq_mul, resolve_mul, strength, scale_eq_mul]

theorem valueAt_resolve (σ : Label → Bool) :
    valueAt σ (p.resolve s q) = (valueAt σ p).substitute s q :=
  valueAt_mapCoeffs σ (Coeff.substituteHom s q : Coeff →+ Coeff) p

end Calculus

variable {p : Poly} {s : Symbol} {q : Rat}

def steady (s : Symbol) (q : Rat) : Subring Poly :=
  (resolveHom s q).eqLocus (RingHom.id Poly)

theorem mem_steady : p ∈ steady s q ↔ p.resolve s q = p := Iff.rfl

theorem mem_steady_of_not_mem (absent : s ∉ p.symbols) (q : Rat) : p ∈ steady s q := by
  refine mem_steady.mpr (ext_coeff fun m => ?_)
  have mapped := coeffAt_mapCoeffs (Coeff.substituteHom s q : Coeff →+ Coeff) p m
  refine mapped.trans ?_
  by_cases present : p.coeffAt m = 0
  · rw [present, map_zero]
  · refine Coeff.substitute_of_not_mem (fun held => absent ?_) q
    exact mem_symbols.mpr ⟨_, mem_of_coeffAt present, held⟩

theorem Numeric.mem_steady (numeric : p.Numeric) (s : Symbol) (q : Rat) : p ∈ steady s q :=
  mem_steady_of_not_mem (not_mem_symbols_of_numeric numeric s) q

end PseudoBoolean.Poly
