import PseudoBoolean.FormalSum
import PseudoBoolean.Rational

set_option autoImplicit false

namespace PseudoBoolean

open Std

@[ext]
structure Symbol where
  name : String
deriving DecidableEq, Inhabited

namespace Symbol

instance : Ord Symbol where
  compare s t := compare s.name t.name

instance : TransOrd Symbol where
  eq_swap := OrientedOrd.eq_swap (α := String)
  isLE_trans := TransOrd.isLE_trans (α := String)

instance : LawfulEqOrd Symbol where
  compare_self := ReflOrd.compare_self (α := String)
  eq_of_compare same := Symbol.ext (LawfulEqOrd.eq_of_compare (α := String) same)

end Symbol

@[ext]
structure SymbolProduct where
  factors : List Symbol
  ascending : Ascending factors

namespace SymbolProduct

instance : DecidableEq SymbolProduct := fun a b =>
  decidable_of_iff (a.factors = b.factors) SymbolProduct.ext_iff.symm

instance : Ord SymbolProduct where
  compare a b := compare a.factors b.factors

instance : TransOrd SymbolProduct where
  eq_swap := OrientedOrd.eq_swap (α := List Symbol)
  isLE_trans := TransOrd.isLE_trans (α := List Symbol)

instance : LawfulEqOrd SymbolProduct where
  compare_self := ReflOrd.compare_self (α := List Symbol)
  eq_of_compare same := SymbolProduct.ext (LawfulEqOrd.eq_of_compare (α := List Symbol) same)

instance : One SymbolProduct := ⟨⟨[], List.Pairwise.nil⟩⟩

def single (s : Symbol) : SymbolProduct :=
  ⟨[s], List.pairwise_singleton _ s⟩

instance : Mul SymbolProduct where
  mul a b := ⟨sort (a.factors ++ b.factors), ascending_sort (a.factors ++ b.factors)⟩

def degreeOf (a : SymbolProduct) (s : Symbol) : Nat :=
  a.factors.count s

def erase (a : SymbolProduct) (s : Symbol) : SymbolProduct :=
  ⟨a.factors.filter (· ≠ s), a.ascending.filter _⟩

def text? (a : SymbolProduct) : Option String :=
  match a.factors with
  | [] => none
  | factors => some (String.intercalate "*" (factors.map Symbol.name))

end SymbolProduct

abbrev Coeff := FormalSum SymbolProduct Rat

namespace Coeff

def number (q : Rat) : Coeff :=
  FormalSum.single 1 q

def symbol (s : Symbol) : Coeff :=
  FormalSum.single (SymbolProduct.single s) 1

def ratio? (numerator denominator : Int) : Option Coeff :=
  if denominator = 0 then none else some (number (Rat.divInt numerator denominator))

def isNumber (c : Coeff) : Bool :=
  c.entries.all fun e => e.1 = 1

def constantPart (c : Coeff) : Rat :=
  c.coeffAt 1

def number? (c : Coeff) : Option Rat :=
  if c.isNumber then some c.constantPart else none

def symbols (c : Coeff) : SortedSet Symbol :=
  SortedSet.ofList (c.entries.flatMap fun e => e.1.factors)

def substitute (c : Coeff) (s : Symbol) (q : Rat) : Coeff :=
  FormalSum.ofList (c.entries.map fun e => (e.1.erase s, e.2 * q ^ e.1.degreeOf s))

def valueAt (φ : Symbol → Rat) (c : Coeff) : Rat :=
  sumOf (fun e => e.1.factors.foldr (fun s q => φ s * q) e.2) c.entries

-- The greatest product comes first, the number last.
def text (c : Coeff) : String :=
  Text.signedSum (c.entries.reverse.map fun e => Text.signed e.2 e.1.text?)

end Coeff

end PseudoBoolean
