import PseudoBoolean.Qubo

set_option autoImplicit false

namespace PseudoBoolean

open Std

inductive Spin where
  | down
  | up
deriving DecidableEq, Inhabited

namespace Spin

def toInt : Spin → Int
  | .down => -1
  | .up => 1

def ofInt? (n : Int) : Option Spin :=
  if n = 1 then some .up else if n = -1 then some .down else none

def ofBool : Bool → Spin
  | false => .down
  | true => .up

def toBool : Spin → Bool
  | .down => false
  | .up => true

def flip : Spin → Spin
  | .down => .up
  | .up => .down

@[simp]
theorem ofInt_toInt (s : Spin) : ofInt? s.toInt = some s := by
  cases s <;> rfl

@[simp]
theorem toBool_ofBool (b : Bool) : (ofBool b).toBool = b := by
  cases b <;> rfl

@[simp]
theorem ofBool_toBool (s : Spin) : ofBool s.toBool = s := by
  cases s <;> rfl

def times {R : Type} [Neg R] (s : Spin) (c : R) : R :=
  match s with
  | .down => -c
  | .up => c

end Spin

structure Ising where
  indexing : Indexing
  fields : FormalSum Nat Rat
  couplings : FormalSum (Pair Nat) Rat
  offset : Rat
deriving DecidableEq

namespace Ising

-- `c·x = c/2 + c/2·s` and `c·x·y = c/4 · (1 + s + t + s·t)`.
def fieldsOf (e : Monomial Nat × Rat) : List (Nat × Rat) :=
  match e.1.toList with
  | [i] => [(i, e.2 / 2)]
  | [i, j] => [(i, e.2 / 4), (j, e.2 / 4)]
  | _ => []

def couplingsOf (e : Monomial Nat × Rat) : List (Pair Nat × Rat) :=
  match e.1.toList with
  | [i, j] => [(⟨i, j⟩, e.2 / 4)]
  | _ => []

def offsetOf (e : Monomial Nat × Rat) : Rat :=
  match e.1.toList with
  | [] => e.2
  | [_] => e.2 / 2
  | _ => e.2 / 4

def ofQubo (q : Qubo) : Ising where
  indexing := q.indexing
  fields := FormalSum.ofList (q.tensor.entries.flatMap fieldsOf)
  couplings := FormalSum.ofList (q.tensor.entries.flatMap couplingsOf)
  offset := sumOf offsetOf q.tensor.entries

def size (m : Ising) : Nat :=
  m.indexing.size

def field (m : Ising) (i : Nat) : Rat :=
  m.fields.coeffAt i

def coupling (m : Ising) (i j : Nat) : Rat :=
  m.couplings.coeffAt ⟨min i j, max i j⟩

def numTerms (m : Ising) : Nat :=
  m.fields.numTerms + m.couplings.numTerms + if m.offset = 0 then 0 else 1

def degree (m : Ising) : Nat :=
  if !m.couplings.isZero then 2 else if !m.fields.isZero then 1 else 0

def energy (m : Ising) (s : Nat → Spin) : Rat :=
  m.offset + sumOf (fun e => (s e.1).times e.2) m.fields.entries +
    sumOf (fun e => if s e.1.left = s e.1.right then e.2 else -e.2) m.couplings.entries

def readSpin (n : Int) : Except Failure Spin :=
  match Spin.ofInt? n with
  | some s => .ok s
  | none => .error (.notASpin n)

def readSpins (m : Ising) (values : List Int) : Except Failure (List Spin) :=
  if values.length = m.size then values.mapM readSpin
  else .error (.wrongSpinCount m.size values.length)

def value (m : Ising) (values : List Int) : Except Failure Rat := do
  let spins ← m.readSpins values
  return m.energy fun i => spins.getD i .down

def assignment (m : Ising) (values : List Int) : Except Failure Assignment := do
  let spins ← m.readSpins values
  m.indexing.toAssignment (spins.map Spin.toBool)

def text (m : Ising) : String :=
  let field (e : Nat × Rat) : String := e.1.repr ++ ": " ++ Text.rational e.2
  let coupling (e : Pair Nat × Rat) : String :=
    "(" ++ e.1.left.repr ++ ", " ++ e.1.right.repr ++ "): " ++ Text.rational e.2
  "offset: " ++ Text.rational m.offset ++
    ", h: \x7b" ++ String.intercalate ", " (m.fields.entries.map field) ++
    "\x7d, J: \x7b" ++ String.intercalate ", " (m.couplings.entries.map coupling) ++ "\x7d"

end Ising

namespace Poly

def toIsing (p : Poly) : Except Failure Ising :=
  p.whenQuadratic p.numbers fun small => Ising.ofQubo (Qubo.ofConstantParts p small)

end Poly

structure SpinGraph (R : Type) where
  fields : Array R
  neighbours : Array (List (Nat × R))

namespace SpinGraph

def size {R : Type} (g : SpinGraph R) : Nat :=
  g.fields.size

def update {A : Type} (a : Array A) (i : Nat) (f : A → A) : Except Failure (Array A) :=
  if i < a.size then .ok (a.modify i f) else .error (.indexOutOfBounds a.size i)

section Build

variable {R : Type} (convert : Rat → Except Failure R)

def setField (fields : Array R) (e : Nat × Rat) : Except Failure (Array R) := do
  let c ← convert e.2
  update fields e.1 fun _ => c

-- A coupling goes to the lists of both its ends.
def link (neighbours : Array (List (Nat × R))) (e : Pair Nat × Rat) :
    Except Failure (Array (List (Nat × R))) := do
  let c ← convert e.2
  let neighbours ← update neighbours e.1.left (· ++ [(e.1.right, c)])
  update neighbours e.1.right (· ++ [(e.1.left, c)])

def build [OfNat R 0] (m : Ising) : Except Failure (SpinGraph R) := do
  let fields ← m.fields.entries.foldlM (setField convert) (Array.replicate m.size 0)
  let neighbours ← m.couplings.entries.foldlM (link convert) (Array.replicate m.size [])
  return ⟨fields, neighbours⟩

end Build

def neighbour? (i : Nat) (e : Pair Nat × Rat) : Option (Nat × Rat) :=
  if e.1.left = i then some (e.1.right, e.2)
  else if e.1.right = i then some (e.1.left, e.2)
  else none

def ofIsing (m : Ising) : SpinGraph Rat where
  fields := (Array.range m.size).map m.field
  neighbours := (Array.range m.size).map fun i => m.couplings.entries.filterMap (neighbour? i)

section Energy

variable {R : Type} [OfNat R 0] [Add R] [Neg R]

-- The neighbours are summed from the left before the field is added.
def localField (g : SpinGraph R) (s : Nat → Spin) (i : Nat) : R :=
  g.fields.getD i 0 +
    (g.neighbours.getD i []).foldl (fun r e => r + (s e.1).times e.2) 0

def flipDelta (g : SpinGraph R) (s : Nat → Spin) (i : Nat) : R :=
  let f := g.localField s i
  (s i).times (-(f + f))

end Energy

end SpinGraph

end PseudoBoolean
