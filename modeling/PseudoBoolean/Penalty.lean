import PseudoBoolean.Evaluation

set_option autoImplicit false

namespace PseudoBoolean

structure Constraint where
  poly : Poly
  relation : Relation
deriving DecidableEq

namespace Constraint

def isSatisfied (a : Assignment) (c : Constraint) : Except Failure Bool := do
  return c.relation.holds (← c.poly.value a)

def resolve (c : Constraint) (s : Symbol) (q : Rat) : Constraint :=
  { c with poly := c.poly.resolve s q }

def text (c : Constraint) : String :=
  c.poly.text ++ " " ++ c.relation.text ++ " 0"

end Constraint

namespace Slack

def weights (max : Nat) : List Nat :=
  (List.range max.log2).map (1 <<< ·) ++ [max - ((1 <<< max.log2) - 1)]

def name (n : Nat) : Label :=
  .name ("__s" ++ n.repr)

def labels (taken : SortedSet Label) (start : Nat) : Nat → List Label
  | 0 => []
  | count + 1 =>
    let v := name (firstFresh name taken start)
    v :: labels (taken.insert v) (start + 1) count

def weighted (labels : List Label) (weights : List Nat) : Poly :=
  FormalSum.ofList ((labels.zip weights).map fun e =>
    (SortedSet.singleton e.1, Coeff.number e.2))

end Slack

inductive Warning where
  | neverZero (g : Poly) (b : Bounds)
  | neverAtMostZero (g : Poly) (b : Bounds)
deriving DecidableEq

namespace Warning

def message : Warning → String
  | .neverZero g b =>
    "constraint " ++ g.text ++ " == 0 is unsatisfiable: value in " ++ b.text
  | .neverAtMostZero g b =>
    "constraint " ++ g.text ++ " <= 0 is unsatisfiable: value in " ++ b.text

end Warning

structure Penalty where
  poly : Poly
  slack : List Label
  warnings : List Warning
deriving DecidableEq

namespace Penalty

-- Linear where `g` has one sign, else squared.
def ofEqual (g : Poly) (strength : Coeff) (b : Bounds) : Penalty where
  poly :=
    if 0 ≤ b.lo then g.scale strength
    else if b.hi ≤ 0 then -g.scale strength
    else (g.pow 2).scale strength
  slack := []
  warnings := if b.excludesZero then [.neverZero g b] else []

/-- Slack with the values `0, …, -lo` makes up what `g` lacks to zero. -/
def ofAtMost (g : Poly) (strength : Coeff) (b : Bounds) (taken : SortedSet Label) (start : Nat) :
    Penalty :=
  let room := (-b.lo).floor.toNat
  if b.hi ≤ 0 then ⟨0, [], []⟩
  else if 0 < b.lo then ⟨g.scale strength, [], [.neverAtMostZero g b]⟩
  else if room = 0 then ⟨g.scale strength, [], []⟩
  else
    let weights := Slack.weights room
    let labels := Slack.labels taken start weights.length
    ⟨((g + Slack.weighted labels weights).pow 2).scale strength, labels, []⟩

/-- The strict inequalities are shifted by one, as for a whole-valued `g`. -/
def ofConstraint (c : Constraint) (strength : Coeff) (b : Bounds) (taken : SortedSet Label)
    (start : Nat) : Penalty :=
  match c.relation with
  | .equal => ofEqual c.poly strength b
  | .atMost => ofAtMost c.poly strength b taken start
  | .less => ofAtMost (c.poly + 1) strength (b.shift 1) taken start
  | .atLeast => ofAtMost (-c.poly) strength b.negate taken start
  | .greater => ofAtMost (1 - c.poly) strength (b.negate.shift 1) taken start

end Penalty

end PseudoBoolean
