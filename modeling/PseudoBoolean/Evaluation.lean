import PseudoBoolean.Poly

set_option autoImplicit false

namespace PseudoBoolean

inductive Failure where
  | missingVariable (label : Label)
  | notBooleanValued (label : Label) (replacement : Poly)
  | degreeTooHigh (degree : Nat)
  | tooManyVariables (count limit : Nat)
  | unboundedConstraint (p : Poly)
  | unresolvedParameter (s : Symbol)
  | wrongValueCount (expected actual : Nat)
  | wrongSpinCount (expected actual : Nat)
  | notASpin (n : Int)
  | notADouble (q : Rat)
  | noReads
  | indexOutOfBounds (size index : Nat)
deriving DecidableEq

namespace Failure

def message : Failure → String
  | .missingVariable label => "assignment is missing variable " ++ label.text
  | .notBooleanValued label replacement =>
    "invalid substitution for " ++ label.text ++ ": " ++ replacement.text ++ " is not 0/1-valued"
  | .degreeTooHigh degree =>
    "polynomial has degree " ++ degree.repr ++ ", but at most 2 is required"
  | .tooManyVariables count limit =>
    "brute force over " ++ count.repr ++ " variables exceeds the limit of " ++ limit.repr
  | .unboundedConstraint p =>
    "unbounded constraint: cannot bound " ++ p.text ++
      " with symbolic coefficients; pass explicit bounds"
  | .unresolvedParameter s => "coefficient depends on unresolved parameter " ++ s.name
  | .wrongValueCount expected actual =>
    "invalid sample: expected " ++ expected.repr ++ " values, got " ++ actual.repr
  | .wrongSpinCount expected actual =>
    "invalid sample: expected " ++ expected.repr ++ " spins, got " ++ actual.repr
  | .notASpin n => "invalid sample: " ++ n.repr ++ " is not a spin"
  | .notADouble q =>
    "invalid sample: coefficient " ++ Text.rational q ++ " does not fit in f64"
  | .noReads => "invalid sample: no reads"
  | .indexOutOfBounds size index =>
    "index out of bounds: the len is " ++ size.repr ++ " but the index is " ++ index.repr

end Failure

namespace Assignment

def value (a : Assignment) (v : Label) : Except Failure Bool :=
  match a.get? v with
  | some b => .ok b
  | none => .error (.missingVariable v)

end Assignment

namespace Monomial

def eval (a : Assignment) (m : Monomial Label) : Except Failure Bool := do
  let values ← m.toList.mapM a.value
  return values.all id

end Monomial

namespace Coeff

def toNumber (c : Coeff) : Except Failure Rat :=
  match c.symbols.toList with
  | [] => .ok c.constantPart
  | s :: _ => .error (.unresolvedParameter s)

def magnitude (c : Coeff) : Except Failure Rat := do
  return (← c.toNumber).abs

end Coeff

namespace Poly

def eval (a : Assignment) (p : Poly) : Except Failure Coeff := do
  let parts ← p.entries.mapM fun e => do
    return if ← e.1.eval a then e.2 else 0
  return FormalSum.sum parts

def value (a : Assignment) (p : Poly) : Except Failure Rat := do
  (← p.eval a).toNumber

def numbers (p : Poly) : Except Failure NumericPoly :=
  match p.symbols.toList with
  | [] => .ok p.constantParts
  | s :: _ => .error (.unresolvedParameter s)

-- Here the first monomial with a parameter decides which one is reported.
def numbersInOrder (p : Poly) : Except Failure NumericPoly := do
  p.entries.forM fun e => discard e.2.toNumber
  return p.constantParts

def whenQuadratic {F : Type} (p : Poly) (read : Except Failure NumericPoly)
    (model : p.degree ≤ 2 → F) : Except Failure F :=
  if small : p.degree ≤ 2 then do
    let _ ← read
    return model small
  else .error (.degreeTooHigh p.degree)

/-- A replacement with other values is refused, also where `v` does not occur. -/
def substitute (p : Poly) (v : Label) (replacement : Poly) : Except Failure Poly :=
  if replacement.isBooleanValued then .ok (p.compose v replacement)
  else .error (.notBooleanValued v replacement)

end Poly

end PseudoBoolean
