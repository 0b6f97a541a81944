import PseudoBoolean.Landscape

set_option autoImplicit false

namespace PseudoBoolean

structure Sample where
  bits : List Bool
  energy : Rat
deriving DecidableEq

structure Sampler (S : Type) where
  sample : Qubo → Nat → S → Except Failure Sample × S

namespace Sampler

def exhaustive (limit : Nat) : Sampler Unit where
  sample q _ state :=
    let found := do
      let best ← q.landscape.solve limit
      let bits ← q.indexing.toBits best.assignment
      return ⟨bits, best.value - q.offset⟩
    (found, state)

def scripted (s : Sample) : Sampler Unit where
  sample _ _ state := (.ok s, state)

end Sampler

namespace Qubo

def solution (q : Qubo) (s : Sample) : Except Failure Solution := do
  let assignment ← q.assignment s.bits
  return ⟨s.energy + q.offset, assignment⟩

def solveWith {S : Type} (q : Qubo) (sampler : Sampler S) (reads : Nat) (state : S) :
    Except Failure Solution × S :=
  let (found, next) := sampler.sample q reads state
  (found.bind q.solution, next)

end Qubo

/-- A fair coin, a number below a bound and a fraction. -/
structure Dice (G : Type) where
  coin : StateM G Bool
  below : Nat → StateM G Nat
  unit : StateM G Float

abbrev Walk (G : Type) := ExceptT Failure (StateM G)

structure Annealing where
  sweeps : Nat
  first : Float
  last : Float

namespace Annealing

def standard : Annealing where
  sweeps := 1000
  first := 10.0
  last := 0.05

def temperature (c : Annealing) (sweep : Nat) : Float :=
  if c.sweeps ≤ 1 then c.last
  else c.first * Float.pow (c.last / c.first) (sweep.toFloat / (c.sweeps - 1).toFloat)

def toDouble (round : Rat → Option Float) (q : Rat) : Except Failure Float :=
  match round q with
  | some x => .ok x
  | none => .error (.notADouble q)

variable {G : Type} (dice : Dice G) (round : Rat → Option Float)

-- A flip that costs nothing needs no random number.
def accepts (change temperature : Float) : StateM G Bool := do
  if change ≤ 0 then return true
  else return (← dice.unit) < Float.exp (-change / temperature)

def propose (g : SpinGraph Float) (temperature : Float) (spins : Array Spin) :
    Walk G (Array Spin) := do
  let i ← dice.below g.size
  if i < g.size then
    let change := g.flipDelta (fun j => spins.getD j .down) i
    return if ← accepts dice change temperature then spins.modify i Spin.flip else spins
  else throw (.indexOutOfBounds g.size i)

def proposals (g : SpinGraph Float) (temperature : Float) :
    Nat → Array Spin → Walk G (Array Spin)
  | 0, spins => return spins
  | count + 1, spins => do
    proposals g temperature count (← propose dice g temperature spins)

def sweepsFrom (c : Annealing) (g : SpinGraph Float) (sweep : Nat) :
    Nat → Array Spin → Walk G (Array Spin)
  | 0, spins => return spins
  | left + 1, spins => do
    let spins ← proposals dice g (c.temperature sweep) g.size spins
    c.sweepsFrom g (sweep + 1) left spins

def initial : Nat → StateM G (List Spin)
  | 0 => return []
  | n + 1 => do
    let s ← dice.coin
    return Spin.ofBool s :: (← initial n)

def walk (c : Annealing) (g : SpinGraph Float) : Walk G (Array Spin) := do
  let spins ← initial dice g.size
  c.sweepsFrom dice g 0 c.sweeps spins.toArray

def read (c : Annealing) (q : Qubo) (g : SpinGraph Float) : Walk G Sample := do
  let spins ← c.walk dice g
  let bits := spins.toList.map Spin.toBool
  let value ← ofExcept (q.value bits)
  return ⟨bits, value - q.offset⟩

/-- Of equal energies the earlier read is kept. -/
def offer (best : Option Sample) (s : Sample) : Option Sample :=
  if best.all (s.energy < ·.energy) then some s else best

def readsFrom (c : Annealing) (q : Qubo) (g : SpinGraph Float) :
    Nat → Option Sample → Walk G (Option Sample)
  | 0, best => return best
  | left + 1, best => do
    let s ← c.read dice q g
    c.readsFrom q g left (offer best s)

def best (c : Annealing) (q : Qubo) (reads : Nat) : Walk G Sample := do
  let g ← ofExcept (SpinGraph.build (toDouble round) (Ising.ofQubo q))
  match ← c.readsFrom dice q g (max 1 reads) none with
  | some s => return s
  | none => throw .noReads

def sampler (c : Annealing) : Sampler G where
  sample q reads state := (c.best dice round q reads).run.run state

end Annealing

end PseudoBoolean
