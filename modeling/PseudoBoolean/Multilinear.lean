import PseudoBoolean.FormalSum
import PseudoBoolean.Monomial
import PseudoBoolean.Rational

set_option autoImplicit false

namespace PseudoBoolean

open Std

abbrev Multilinear (A R : Type) [Ord A] [OfNat R 0] := FormalSum (Monomial A) R

namespace Multilinear

variable {A R : Type} [Ord A] [OfNat R 0]

def valueAt [Add R] (σ : A → Bool) (p : Multilinear A R) : R :=
  ((p.entries.filter fun e => e.1.holds σ).map Prod.snd).sum

def degree (p : Multilinear A R) : Nat :=
  p.entries.foldr (fun e d => max e.1.degree d) 0

theorem degree_le_iff {p : Multilinear A R} {d : Nat} :
    p.degree ≤ d ↔ ∀ e ∈ p.entries, e.1.degree ≤ d := by
  simp only [degree]
  induction p.entries with
  | nil => simp
  | cons e es ih => rw [List.foldr_cons, Nat.max_le, ih, List.forall_mem_cons]

theorem degree_le_of_mem {p : Multilinear A R} {e : Monomial A × R} (inside : e ∈ p.entries) :
    e.1.degree ≤ p.degree :=
  degree_le_iff.mp (Nat.le_refl p.degree) e inside

theorem degree_mapCoeffs_le {S : Type} [DecidableEq R] [OfNat S 0] [DecidableEq S] (f : R → S)
    (p : Multilinear A R) : Multilinear.degree (p.mapCoeffs f) ≤ p.degree := by
  rw [degree_le_iff]
  intro e member
  obtain ⟨t, inside, rfl⟩ := FormalSum.exists_of_mem_mapCoeffs member
  exact degree_le_of_mem inside

def offset (p : Multilinear A R) : R :=
  p.coeffAt 1

def coefficientBounds (p : Multilinear A Rat) : Bounds :=
  let others := p.entries.filter fun e => !e.1.isConstant
  { lo := p.offset + sumOf Prod.snd (others.filter fun e => e.2 < 0)
    hi := p.offset + sumOf Prod.snd (others.filter fun e => 0 < e.2) }

section Lawful

variable [TransOrd A] [LawfulEqOrd A]

def vars (p : Multilinear A R) : SortedSet A :=
  SortedSet.unions (p.entries.map Prod.fst)

theorem mem_vars {p : Multilinear A R} {a : A} :
    a ∈ p.vars ↔ ∃ e ∈ p.entries, a ∈ e.1 := by
  simp [vars, SortedSet.mem_unions]

variable [DecidableEq R]

def constant (c : R) : Multilinear A R :=
  FormalSum.single 1 c

def var [OfNat R 1] (a : A) : Multilinear A R :=
  FormalSum.single (SortedSet.singleton a) 1

variable [DecidableEq A] [Add R]

-- `p = withoutVar a + a · quotient a`.
def withoutVar (p : Multilinear A R) (a : A) : Multilinear A R :=
  p.filterKeys fun m => !m.contains a

def quotient (p : Multilinear A R) (a : A) : Multilinear A R :=
  FormalSum.ofList ((p.filterKeys fun m => m.contains a).entries.map fun e => (e.1.erase a, e.2))

def fix (p : Multilinear A R) (a : A) (value : Bool) : Multilinear A R :=
  if value then p.withoutVar a + p.quotient a else p.withoutVar a

variable [Mul R] [OfNat R 1]

def compose (p : Multilinear A R) (a : A) (r : Multilinear A R) : Multilinear A R :=
  p.withoutVar a + p.quotient a * r

/-- A polynomial equals its square exactly when it takes no value but `0` and `1`. -/
def isBooleanValued (p : Multilinear A R) : Bool :=
  p * p = p

end Lawful

end Multilinear

end PseudoBoolean
