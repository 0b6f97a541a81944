import PseudoBoolean.Proofs.Coefficient.Values
import PseudoBoolean.Proofs.Poly.Canonical

set_option autoImplicit false

namespace PseudoBoolean.Coeff

inductive Construction where
  | number (q : Rat)
  | ratio (numerator denominator : Int)
  | symbol (s : Symbol)
  | add (left right : Construction)
  | sub (left right : Construction)
  | mul (left right : Construction)
  | neg (part : Construction)
  | substitute (part : Construction) (s : Symbol) (q : Rat)

namespace Construction

def build : Construction → Option Coeff
  | .number q => some (Coeff.number q)
  | .ratio numerator denominator => ratio? numerator denominator
  | .symbol s => some (Coeff.symbol s)
  | .add left right => do return (← left.build) + (← right.build)
  | .sub left right => do return (← left.build) - (← right.build)
  | .mul left right => do return (← left.build) * (← right.build)
  | .neg part => do return -(← part.build)
  | .substitute part s q => do return (← part.build).substitute s q

def valueAt (φ : Symbol → Rat) : Construction → Rat
  | .number q => q
  | .ratio numerator denominator => numerator / denominator
  | .symbol s => φ s
  | .add left right => left.valueAt φ + right.valueAt φ
  | .sub left right => left.valueAt φ - right.valueAt φ
  | .mul left right => left.valueAt φ * right.valueAt φ
  | .neg part => -part.valueAt φ
  | .substitute part s q => part.valueAt (Function.update φ s q)

theorem valueAt_build {e : Construction} {c : Coeff} (built : e.build = some c)
    (φ : Symbol → Rat) : c.valueAt φ = e.valueAt φ := by
  induction e generalizing c φ with
  | number q =>
    cases built
    exact valueAt_number φ q
  | ratio numerator denominator =>
    simp only [build, ratio?] at built
    split at built <;> cases built
    rw [valueAt_number, valueAt, Rat.divInt_eq_div]
  | symbol s =>
    cases built
    exact valueAt_symbol φ s
  | add left right first second =>
    simp only [build, Option.bind_eq_bind, Option.bind_eq_some_iff] at built
    obtain ⟨a, builtLeft, b, builtRight, same⟩ := built
    cases same
    rw [Coeff.valueAt_add, first builtLeft, second builtRight, valueAt]
  | sub left right first second =>
    simp only [build, Option.bind_eq_bind, Option.bind_eq_some_iff] at built
    obtain ⟨a, builtLeft, b, builtRight, same⟩ := built
    cases same
    rw [Coeff.valueAt_sub, first builtLeft, second builtRight, valueAt]
  | mul left right first second =>
    simp only [build, Option.bind_eq_bind, Option.bind_eq_some_iff] at built
    obtain ⟨a, builtLeft, b, builtRight, same⟩ := built
    cases same
    rw [Coeff.valueAt_mul, first builtLeft, second builtRight, valueAt]
  | neg part ih =>
    simp only [build, Option.bind_eq_bind, Option.bind_eq_some_iff] at built
    obtain ⟨a, builtPart, same⟩ := built
    cases same
    rw [Coeff.valueAt_neg, ih builtPart, valueAt]
  | substitute part s q ih =>
    simp only [build, Option.bind_eq_bind, Option.bind_eq_some_iff] at built
    obtain ⟨a, builtPart, same⟩ := built
    cases same
    rw [Coeff.valueAt_substitute, ih builtPart, valueAt]

def ofTerm (factors : List Symbol) (q : Rat) : Construction :=
  factors.foldr (fun s part => .mul (.symbol s) part) (.number q)

def ofTerms (terms : List (SymbolProduct × Rat)) : Construction :=
  terms.foldr (fun e rest => .add (ofTerm e.1.factors e.2) rest) (.number 0)

theorem exists_build_ofTerm (factors : List Symbol) (q : Rat) :
    ∃ c, (ofTerm factors q).build = some c := by
  induction factors with
  | nil => exact ⟨_, rfl⟩
  | cons s l ih =>
    obtain ⟨c, built⟩ := ih
    have product : (ofTerm (s :: l) q).build =
        (ofTerm l q).build.bind fun c => some (Coeff.symbol s * c) := rfl
    exact ⟨Coeff.symbol s * c, by rw [product, built, Option.bind_some]⟩

theorem exists_build_ofTerms (terms : List (SymbolProduct × Rat)) :
    ∃ c, (ofTerms terms).build = some c := by
  induction terms with
  | nil => exact ⟨_, rfl⟩
  | cons e l ih =>
    obtain ⟨c, builtTerm⟩ := exists_build_ofTerm e.1.factors e.2
    obtain ⟨d, builtRest⟩ := ih
    have sum : (ofTerms (e :: l)).build =
        (ofTerm e.1.factors e.2).build.bind fun c => (ofTerms l).build.bind fun d => some (c + d) :=
      rfl
    exact ⟨c + d, by rw [sum, builtTerm, builtRest, Option.bind_some, Option.bind_some]⟩

theorem valueAt_ofTerm (φ : Symbol → Rat) (factors : List Symbol) (q : Rat) :
    (ofTerm factors q).valueAt φ = factors.foldr (fun s q => φ s * q) q := by
  induction factors with
  | nil => rfl
  | cons s l ih => exact congrArg (φ s * ·) ih

theorem valueAt_ofTerms (φ : Symbol → Rat) (terms : List (SymbolProduct × Rat)) :
    (ofTerms terms).valueAt φ =
      (terms.map fun e => e.1.factors.foldr (fun s q => φ s * q) e.2).sum := by
  induction terms with
  | nil => rfl
  | cons e l ih => exact congrArg₂ (· + ·) (valueAt_ofTerm φ e.1.factors e.2) ih

-- The terms of `c` are put together again. What they give has the values of `c`.
theorem exists_build_eq (c : Coeff) : ∃ e : Construction, e.build = some c := by
  obtain ⟨d, built⟩ := exists_build_ofTerms c.entries
  have same : d = c := by
    apply valueAt_injective
    intro φ
    rw [valueAt_build built, valueAt_ofTerms, Coeff.valueAt]
  exact ⟨ofTerms c.entries, same ▸ built⟩

end Construction

/-- What can be built is what is in canonical form. -/
theorem polynomial_ring :
    (∀ l, Canonical l ↔ ∃ e c, Construction.build e = some c ∧ c.stored = l) ∧
      (∀ e c, Construction.build e = some c →
        ∀ φ, c.valueAt φ = e.valueAt φ ∧ c.substituteAll φ = number (e.valueAt φ)) ∧
      (∀ c d : Coeff, c.stored = d.stored ↔ ∀ φ, c.valueAt φ = d.valueAt φ) ∧
      ∀ b c d : Coeff,
        b + c + d = b + (c + d) ∧ b * c * d = b * (c * d) ∧ b + c = c + b ∧ b * c = c * b ∧
          b * (c + d) = b * c + b * d ∧ 0 + c = c ∧ 1 * c = c ∧ b - c = b + -c ∧
          (c + -c).stored = [] := by
  refine ⟨?form, ?values, ?equality, ?laws⟩
  case form =>
    intro l
    constructor
    · intro canonical
      obtain ⟨c, stored⟩ := canonical.exists_coeff
      obtain ⟨e, built⟩ := Construction.exists_build_eq c
      exact ⟨e, c, built, stored⟩
    · rintro ⟨e, c, built, rfl⟩
      exact c.canonical_stored
  case values =>
    intro e c built φ
    have value := Construction.valueAt_build built φ
    exact ⟨value, value ▸ c.substituteAll_eq φ⟩
  case equality =>
    intro c d
    constructor
    · intro same φ
      rw [stored_injective same]
    · intro same
      rw [valueAt_injective same]
  case laws =>
    intro b c d
    have inverse : (c + -c).stored = [] := by
      rw [add_neg_cancel]
      rfl
    exact ⟨add_assoc b c d, mul_assoc b c d, add_comm b c, mul_comm b c, mul_add b c d,
      zero_add c, one_mul c, sub_eq_add_neg b c, inverse⟩

end PseudoBoolean.Coeff
