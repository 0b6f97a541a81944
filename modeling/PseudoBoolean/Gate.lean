import PseudoBoolean.Poly

set_option autoImplicit false

namespace PseudoBoolean

namespace Poly

def not (a : Poly) : Poly :=
  1 - a

def and (a b : Poly) : Poly :=
  a * b

def or (a b : Poly) : Poly :=
  a + b - a * b

def xor (a b : Poly) : Poly :=
  a + b - number 2 * a * b

def nand (a b : Poly) : Poly :=
  (a.and b).not

def nor (a b : Poly) : Poly :=
  (a.or b).not

def xnor (a b : Poly) : Poly :=
  (a.xor b).not

end Poly

inductive BinaryKind where
  | and
  | or
  | xor
deriving DecidableEq

inductive ManyKind where
  | and
  | or
  | xor
  | nand
  | nor
  | xnor
deriving DecidableEq

inductive Gate where
  | not (input : Poly)
  | binary (kind : BinaryKind) (left right : Poly)
  | many (kind : ManyKind) (inputs : List Poly)
deriving DecidableEq

namespace BinaryKind

def combine : BinaryKind → Poly → Poly → Poly
  | .and => Poly.and
  | .or => Poly.or
  | .xor => Poly.xor

end BinaryKind

namespace ManyKind

-- Without inputs a conjunction is true, a disjunction and a parity are false.
def combine : ManyKind → List Poly → Poly
  | .and, inputs => inputs.foldl Poly.and 1
  | .or, inputs => inputs.foldl Poly.or 0
  | .xor, inputs => inputs.foldl Poly.xor 0
  | .nand, inputs => (inputs.foldl Poly.and 1).not
  | .nor, inputs => (inputs.foldl Poly.or 0).not
  | .xnor, inputs => (inputs.foldl Poly.xor 0).not

def truth : ManyKind → List Bool → Bool
  | .and, bits => bits.all id
  | .or, bits => bits.any id
  | .xor, bits => bits.foldl Bool.xor false
  | .nand, bits => !bits.all id
  | .nor, bits => !bits.any id
  | .xnor, bits => !bits.foldl Bool.xor false

end ManyKind

namespace Gate

def inputs : Gate → List Poly
  | .not input => [input]
  | .binary _ left right => [left, right]
  | .many _ inputs => inputs

def toPoly : Gate → Poly
  | .not input => input.not
  | .binary kind left right => kind.combine left right
  | .many kind inputs => kind.combine inputs

end Gate

end PseudoBoolean
