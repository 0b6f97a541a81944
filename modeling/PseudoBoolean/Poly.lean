import PseudoBoolean.Coefficient
import PseudoBoolean.Multilinear

set_option autoImplicit false

namespace PseudoBoolean

abbrev Poly := Multilinear Label Coeff

abbrev NumericPoly := Multilinear Label Rat

namespace NumericPoly

def toPoly (p : NumericPoly) : Poly :=
  p.mapCoeffs Coeff.number

end NumericPoly

namespace Poly

def constant (c : Coeff) : Poly :=
  Multilinear.constant c

def number (q : Rat) : Poly :=
  constant (Coeff.number q)

def label (v : Label) : Poly :=
  Multilinear.var v

def symbols (p : Poly) : SortedSet Symbol :=
  SortedSet.unions (p.entries.map fun e => e.2.symbols)

def isNumeric (p : Poly) : Bool :=
  p.entries.all fun e => e.2.isNumber

def constantParts (p : Poly) : NumericPoly :=
  p.mapCoeffs Coeff.constantPart

def numbers? (p : Poly) : Option NumericPoly :=
  if p.isNumeric then some p.constantParts else none

def bounds? (p : Poly) : Option Bounds :=
  p.numbers?.map Multilinear.coefficientBounds

def resolve (p : Poly) (s : Symbol) (q : Rat) : Poly :=
  p.mapCoeffs fun c => c.substitute s q

-- A coefficient with parameters stands in brackets and never shows a sign of its own.
def summand (m : Monomial Label) (c : Coeff) : Text.Summand :=
  match c.number? with
  | some q => Text.signed q m.text?
  | none =>
    { negative := false
      body := "(" ++ c.text ++ ")" ++ (m.text?.map ("*" ++ ·)).getD "" }

def text (p : Poly) : String :=
  Text.signedSum (p.entries.map fun e => summand e.1 e.2)

end Poly

end PseudoBoolean
