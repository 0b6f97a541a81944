import PseudoBoolean.Gate
import PseudoBoolean.Landscape
import PseudoBoolean.Penalty

set_option autoImplicit false

namespace PseudoBoolean

open Std

structure Problem where
  objective : Poly
  ledger : List Constraint
  slack : List Label
deriving DecidableEq

namespace Problem

def ofPoly (p : Poly) : Problem :=
  ⟨p, [], []⟩

instance : Inhabited Problem := ⟨ofPoly 0⟩

def constraintsOf (h : Problem) (r : Relation) : List Poly :=
  (h.ledger.filter (·.relation = r)).map Constraint.poly

-- Grouped by relation, each group in the order of the calls.
def records (h : Problem) : List Constraint :=
  Relation.all.flatMap fun r => h.ledger.filter (·.relation = r)

def vars (h : Problem) : SortedSet Label :=
  h.objective.vars ∪
    (SortedSet.unions (h.ledger.map fun c => c.poly.vars) ∪ SortedSet.ofList h.slack)

def value (h : Problem) (a : Assignment) : Except Failure Rat :=
  h.objective.value a

/-- Every constraint is evaluated, also after one that is violated. -/
def isValid (h : Problem) (a : Assignment) : Except Failure Bool := do
  let verdicts ← h.records.mapM fun c => c.isSatisfied a
  return verdicts.all id

def restrict (h : Problem) (a : Assignment) : Assignment :=
  a.filterKeys fun v => v ∈ h.vars

def addObjective (h : Problem) (p : Poly) : Problem :=
  { h with objective := h.objective + p }

def resolve (h : Problem) (s : Symbol) (q : Rat) : Problem where
  objective := h.objective.resolve s q
  ledger := h.ledger.map fun c => c.resolve s q
  slack := h.slack

def penalize (h : Problem) (c : Constraint) (p : Penalty) : Problem where
  objective := h.objective + p.poly
  ledger := h.ledger ++ [c]
  slack := h.slack ++ p.slack

def boundsOf (g : Poly) (given : Option Bounds) : Except Failure Bounds :=
  match given.or g.bounds? with
  | some b => .ok b
  | none => .error (.unboundedConstraint g)

/-- What a call changed before a failure would stay changed. -/
abbrev Call := ExceptT Failure (StateM Problem)

namespace Call

def constrain (c : Constraint) (strength : Coeff) (given : Option Bounds) :
    Call (List Warning) := do
  let b ← ofExcept (boundsOf c.poly given)
  let h ← get
  let p := Penalty.ofConstraint c strength b h.vars h.slack.length
  set (h.penalize c p)
  return p.warnings

-- The difference of target and output lies between `-1` and `1`.
def constrainGate (target : Poly) (g : Gate) (strength : Coeff) : Call (List Warning) :=
  constrain ⟨target - g.toPoly, .equal⟩ strength (some ⟨-1, 1⟩)

end Call

def constrain (h : Problem) (c : Constraint) (strength : Coeff) (given : Option Bounds) :
    Except Failure (List Warning) × Problem :=
  (Call.constrain c strength given).run.run h

def constrainGate (h : Problem) (target : Poly) (g : Gate) (strength : Coeff) :
    Except Failure (List Warning) × Problem :=
  (Call.constrainGate target g strength).run.run h

section Gates

variable (h : Problem) (target a b : Poly) (strength : Coeff)

def constrainNot : Except Failure (List Warning) × Problem :=
  h.constrainGate target (.not a) strength

def constrainAnd : Except Failure (List Warning) × Problem :=
  h.constrainGate target (.binary .and a b) strength

def constrainOr : Except Failure (List Warning) × Problem :=
  h.constrainGate target (.binary .or a b) strength

def constrainXor : Except Failure (List Warning) × Problem :=
  h.constrainGate target (.binary .xor a b) strength

def constrainNand : Except Failure (List Warning) × Problem :=
  h.constrainGate target (.many .nand [a, b]) strength

def constrainNor : Except Failure (List Warning) × Problem :=
  h.constrainGate target (.many .nor [a, b]) strength

def force (g : Gate) : Except Failure (List Warning) × Problem :=
  h.constrainGate 1 g strength

def forceNot : Except Failure (List Warning) × Problem :=
  h.force strength (.not a)

def forceAnd : Except Failure (List Warning) × Problem :=
  h.force strength (.binary .and a b)

def forceOr : Except Failure (List Warning) × Problem :=
  h.force strength (.binary .or a b)

def forceXor : Except Failure (List Warning) × Problem :=
  h.force strength (.binary .xor a b)

end Gates

def landscape (h : Problem) : Except Failure Landscape := do
  return (← h.objective.numbers).landscape h.vars

-- Every variable of the problem gets an index.
def toQubo (h : Problem) (options : Quadratization.Options) : Except Failure Qubo := do
  return (← h.objective.numbers).toQubo options h.vars

inductive Step where
  | objective (p : Poly)
  | constraint (c : Constraint) (strength : Coeff) (bounds : Option Bounds)
  | gate (target : Poly) (g : Gate) (strength : Coeff)
  | resolve (s : Symbol) (q : Rat)

def Step.call : Step → Call (List Warning)
  | .objective p => do
    modify (·.addObjective p)
    return []
  | .constraint c strength bounds => Call.constrain c strength bounds
  | .gate target g strength => Call.constrainGate target g strength
  | .resolve s q => do
    modify (·.resolve s q)
    return []

def apply (h : Problem) (step : Step) : Except Failure (List Warning) × Problem :=
  step.call.run.run h

variable {h : Problem} {strength : Coeff}

theorem apply_constraint {c : Constraint} {given : Option Bounds} :
    h.apply (.constraint c strength given) = h.constrain c strength given := rfl

theorem apply_gate {target : Poly} {g : Gate} : h.apply (.gate target g strength) =
    h.constrain ⟨target - g.toPoly, .equal⟩ strength (some ⟨-1, 1⟩) := rfl

def advance (h : Problem) (step : Step) : Problem :=
  (h.apply step).2

def run (h : Problem) (steps : List Step) : Problem :=
  steps.foldl advance h

end Problem

end PseudoBoolean
