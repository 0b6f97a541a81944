import PseudoBoolean.Indexing
import PseudoBoolean.Quadratization

set_option autoImplicit false

namespace PseudoBoolean

open Std

structure Qubo where
  indexing : Indexing
  tensor : Multilinear Nat Rat
  ancillas : List Ancilla
  quadratic : tensor.degree ≤ 2
  indexed : ∀ e ∈ tensor.entries, ∀ i ∈ e.1, i < indexing.size

namespace Qubo

def encode (x : Indexing) (p : NumericPoly) : Multilinear Nat Rat :=
  FormalSum.ofList (p.entries.map fun e => (x.encode e.1, e.2))

theorem key_mem_encode {x : Indexing} {p : NumericPoly} {e : Monomial Nat × Rat}
    (member : e ∈ (encode x p).entries) : ∃ t ∈ p.entries, x.encode t.1 = e.1 := by
  obtain ⟨f, found, same⟩ := FormalSum.key_mem_ofList member
  obtain ⟨t, inside, rfl⟩ := List.mem_map.mp found
  exact ⟨t, inside, same⟩

/-- The labels in `extra` get an index even if no monomial holds them. -/
def ofQuadratic (p : NumericPoly) (small : p.degree ≤ 2) (ancillas : List Ancilla)
    (extra : SortedSet Label) : Qubo where
  indexing := ⟨extra ∪ p.vars⟩
  tensor := encode ⟨extra ∪ p.vars⟩ p
  ancillas := ancillas
  quadratic := by
    rw [Multilinear.degree_le_iff]
    intro e member
    obtain ⟨t, inside, same⟩ := key_mem_encode member
    rw [← same]
    exact Nat.le_trans (Indexing.degree_encode_le _ t.1)
      (Multilinear.degree_le_iff.mp small t inside)
  indexed e member i held := by
    obtain ⟨t, -, same⟩ := key_mem_encode member
    exact Indexing.lt_size_of_mem_encode (same ▸ held)

def build (p : Poly) (ancillas : List Ancilla) (extra : SortedSet Label) : Except Failure Qubo :=
  p.whenQuadratic p.numbersInOrder fun small =>
    ofQuadratic p.constantParts
      (Nat.le_trans (Multilinear.degree_mapCoeffs_le Coeff.constantPart p) small) ancillas extra

def ofPoly (p : Poly) : Except Failure Qubo :=
  build p [] ∅

def ofConstantParts (p : Poly) (small : p.degree ≤ 2) : Qubo :=
  ofQuadratic p.constantParts
    (Nat.le_trans (Multilinear.degree_mapCoeffs_le Coeff.constantPart p) small) [] ∅

def size (q : Qubo) : Nat :=
  q.indexing.size

def offset (q : Qubo) : Rat :=
  q.tensor.offset

def coefficient (q : Qubo) (i j : Nat) : Rat :=
  q.tensor.coeffAt (SortedSet.ofList [i, j])

def energy (q : Qubo) (σ : Nat → Bool) : Rat :=
  q.tensor.valueAt σ

def value (q : Qubo) (bits : List Bool) : Except Failure Rat :=
  if bits.length = q.size then .ok (q.energy fun i => bits.getD i false)
  else .error (.wrongValueCount q.size bits.length)

def toPoly (q : Qubo) : NumericPoly :=
  FormalSum.ofList (q.tensor.entries.map fun e => (q.indexing.decode e.1, e.2))

def assignment (q : Qubo) (bits : List Bool) : Except Failure Assignment :=
  q.indexing.toAssignment bits

def text (q : Qubo) : String :=
  let entry (e : Monomial Nat × Rat) : String :=
    "(" ++ String.intercalate ", " (e.1.toList.map Nat.repr) ++ "): " ++ Text.rational e.2
  "\x7b" ++ String.intercalate ", " (q.tensor.entries.map entry) ++ "\x7d"

end Qubo

namespace NumericPoly

def toQubo (p : NumericPoly) (options : Quadratization.Options) (extra : SortedSet Label) : Qubo :=
  if small : p.degree ≤ 2 then Qubo.ofQuadratic p small [] extra
  else
    let reduced := p.quadratize options extra
    Qubo.ofQuadratic reduced.poly reduced.quadratic reduced.ancillas extra

end NumericPoly

namespace Poly

/-- All checks are made again on the polynomial that the model is built from. -/
def buildQubo (p : Poly) (options : Quadratization.Options) (extra : SortedSet Label) :
    Except Failure Qubo := do
  let numbers ← p.numbers
  if p.degree ≤ 2 then Qubo.build p [] extra
  else
    let reduced := numbers.quadratize options extra
    Qubo.build reduced.poly.toPoly reduced.ancillas extra

def toQubo (p : Poly) (options : Quadratization.Options) : Except Failure Qubo := do
  return (← p.numbers).toQubo options ∅

end Poly

end PseudoBoolean
