import PseudoBoolean.Ising

set_option autoImplicit false

namespace PseudoBoolean

structure Landscape where
  indexing : Indexing
  energy : Nat → Rat

structure Minimum where
  value? : Option Rat
  masks : Array Nat
  count : Nat

namespace Minimum

def unset : Minimum :=
  ⟨none, #[], 0⟩

-- A lesser value starts anew. An equal one is counted, and kept where `all` masks are wanted.
def offer (all : Bool) (value : Rat) (mask : Nat) (m : Minimum) : Minimum :=
  if m.value?.any (· < value) then m
  else if m.value? = some value then
    { m with
      masks := if all then m.masks.push mask else m.masks
      count := m.count + 1 }
  else ⟨some value, #[mask], 1⟩

def search (f : Nat → Rat) (all : Bool) (bound : Nat) : Minimum :=
  bound.fold (fun mask _ m => m.offer all (f mask) mask) unset

end Minimum

structure Solution where
  value : Rat
  assignment : Assignment
deriving DecidableEq

structure Solutions where
  value : Rat
  assignments : List Assignment
deriving DecidableEq

namespace Landscape

def standardLimit : Nat := 24

-- A mask has at most 63 bits, whatever the limit.
def minimum (l : Landscape) (all : Bool) (limit : Nat) : Except Failure Minimum :=
  let n := l.indexing.size
  if limit < n ∨ 64 ≤ n then .error (.tooManyVariables n limit)
  else .ok (Minimum.search l.energy all (1 <<< n))

def solve (l : Landscape) (limit : Nat) : Except Failure Solution := do
  let m ← l.minimum false limit
  return ⟨m.value?.getD 0, l.indexing.ofMask (m.masks[0]?.getD 0)⟩

def solveAll (l : Landscape) (limit : Nat) : Except Failure Solutions := do
  let m ← l.minimum true limit
  return ⟨m.value?.getD 0, m.masks.toList.map l.indexing.ofMask⟩

def countMinimizers (l : Landscape) (limit : Nat) : Except Failure Nat := do
  let m ← l.minimum false limit
  return m.count

end Landscape

namespace NumericPoly

def compile (p : NumericPoly) (x : Indexing) : List (Nat × Rat) :=
  p.entries.map fun e => (x.mask e.1, e.2)

def compiledValue (terms : List (Nat × Rat)) (mask : Nat) : Rat :=
  sumOf Prod.snd (terms.filter fun t => t.1 &&& mask = t.1)

def landscape (p : NumericPoly) (extra : SortedSet Label) : Landscape :=
  let x : Indexing := ⟨extra ∪ p.vars⟩
  let terms := p.compile x
  { indexing := x
    energy := compiledValue terms }

end NumericPoly

namespace Poly

def landscape (p : Poly) : Except Failure Landscape := do
  return (← p.numbers).landscape ∅

end Poly

namespace Qubo

def landscape (q : Qubo) : Landscape where
  indexing := q.indexing
  energy mask := q.energy mask.testBit

end Qubo

namespace Ising

def landscape (m : Ising) : Landscape where
  indexing := m.indexing
  energy mask := m.energy fun i => Spin.ofBool (mask.testBit i)

end Ising

end PseudoBoolean
