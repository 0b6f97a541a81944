import PseudoBoolean.Proofs.Gate
import PseudoBoolean.Proofs.Poly.Resolve
import PseudoBoolean.Proofs.Problem.Slack

set_option autoImplicit false

namespace PseudoBoolean

open Multilinear

variable {s : Symbol} {q : Rat}

namespace Penalty

def resolve (P : Penalty) (s : Symbol) (q : Rat) : Penalty :=
  { P with poly := P.poly.resolve s q }

variable {g : Poly} {b : Bounds} {strength : Coeff} {taken : SortedSet Label} {start : Nat}

theorem ofEqual_substitute (steady : g ∈ Poly.steady s q) :
    ofEqual g (strength.substitute s q) b = (ofEqual g strength b).resolve s q := by
  have kept : g.resolve s q = g := steady
  by_cases nonneg : 0 ≤ b.lo
  · simp [ofEqual, resolve, nonneg, kept]
  by_cases nonpos : b.hi ≤ 0
  · simp [ofEqual, resolve, nonneg, nonpos, kept]
  · simp [ofEqual, resolve, nonneg, nonpos, kept]

theorem ofAtMost_substitute (steady : g ∈ Poly.steady s q) :
    ofAtMost g (strength.substitute s q) b taken start =
      (ofAtMost g strength b taken start).resolve s q := by
  have kept : g.resolve s q = g := steady
  by_cases always : b.hi ≤ 0
  · simp [ofAtMost, resolve, always]
  by_cases never : 0 < b.lo
  · simp [ofAtMost, resolve, always, never, kept]
  by_cases tight : (-b.lo).floor.toNat = 0
  · simp [ofAtMost, resolve, always, never, tight, kept]
  · have slack (labels : List Label) (weights : List Nat) :
        (Slack.weighted labels weights).resolve s q = Slack.weighted labels weights :=
      (Slack.numeric_weighted labels weights).mem_steady s q
    simp [ofAtMost, resolve, always, never, tight, kept, slack]

theorem ofConstraint_substitute {c : Constraint} (steady : c.poly ∈ Poly.steady s q) :
    ofConstraint c (strength.substitute s q) b taken start =
      (ofConstraint c strength b taken start).resolve s q := by
  cases relation : c.relation <;> simp only [ofConstraint, relation]
  case equal => exact ofEqual_substitute steady
  case atMost => exact ofAtMost_substitute steady
  case less => exact ofAtMost_substitute (add_mem steady (one_mem _))
  case atLeast => exact ofAtMost_substitute (neg_mem steady)
  case greater => exact ofAtMost_substitute (sub_mem (one_mem _) steady)

end Penalty

namespace Problem

namespace Step

def substitute (s : Symbol) (q : Rat) : Step → Step
  | .objective p => .objective p
  | .constraint c strength bounds => .constraint c (strength.substitute s q) bounds
  | .gate target g strength => .gate target g (strength.substitute s q)
  | .resolve t r => .resolve t r

def Avoids (s : Symbol) : Step → Prop
  | .objective p => s ∉ p.symbols
  | .constraint c _ _ => s ∉ c.poly.symbols
  | .gate target g _ => s ∉ target.symbols ∧ ∀ p ∈ g.inputs, s ∉ p.symbols
  | .resolve _ _ => False

instance (s : Symbol) : DecidablePred (Avoids s)
  | .objective p => inferInstanceAs (Decidable (s ∉ p.symbols))
  | .constraint c _ _ => inferInstanceAs (Decidable (s ∉ c.poly.symbols))
  | .gate target g _ =>
    inferInstanceAs (Decidable (s ∉ target.symbols ∧ ∀ p ∈ g.inputs, s ∉ p.symbols))
  | .resolve _ _ => inferInstanceAs (Decidable False)

end Step

def outcomes (h : Problem) : List Step → List (Except Failure (List Warning))
  | [] => []
  | step :: rest => (h.apply step).1 :: outcomes (h.advance step) rest

-- Neither the pieces nor the constraints change with `s`, and penalties bring no new variables.
structure Steady (h : Problem) (o : Poly) (s : Symbol) (q : Rat) : Prop where
  combined : o ∈ Poly.steady s q
  ledger : ∀ c ∈ h.ledger, c.poly ∈ Poly.steady s q
  added : ∃ d : Poly, h.objective = o + d ∧ h.Charged d

variable {h : Problem} {o p : Poly} {c : Constraint} {strength : Coeff} {given : Option Bounds}

theorem resolve_constraint (steady : c.poly ∈ Poly.steady s q) : c.resolve s q = c := by
  rw [Constraint.resolve, show c.poly.resolve s q = c.poly from steady]

theorem Steady.ledger_resolve (steady : h.Steady o s q) : (h.resolve s q).ledger = h.ledger := by
  have kept : ∀ c ∈ h.ledger, c.resolve s q = c := fun c stated =>
    resolve_constraint (steady.ledger c stated)
  rw [resolve, List.map_congr_left kept, List.map_id']

-- Substitution may cancel variables of penalties, which the constraints and the slack keep.
theorem Steady.vars_resolve (steady : h.Steady o s q) : (h.resolve s q).vars = h.vars := by
  obtain ⟨d, split, charged⟩ := steady.added
  have combined : o.resolve s q = o := steady.combined
  have resolved : (h.resolve s q).objective = o + d.resolve s q := by
    rw [resolve, split, Poly.resolve_add, combined]
  have still : (h.resolve s q).Charged (d.resolve s q) := by
    intro v member
    rw [steady.ledger_resolve]
    exact charged v (vars_mapCoeffs _ member)
  apply SortedSet.ext_mem
  intro v
  rw [still.mem_vars resolved, charged.mem_vars split, steady.ledger_resolve]
  rfl

theorem penalize_resolve (steady : c.poly ∈ Poly.steady s q) (P : Penalty) :
    (h.resolve s q).penalize c (P.resolve s q) = (h.penalize c P).resolve s q := by
  simp [penalize, resolve, Penalty.resolve, resolve_constraint steady]

-- Failure is a matter of the bounds, and slack of the variables.
theorem Steady.constrain_substitute (steady : h.Steady o s q)
    (constraint : c.poly ∈ Poly.steady s q) :
    (h.resolve s q).constrain c (strength.substitute s q) given =
      (h.constrain c strength given).map id (·.resolve s q) := by
  cases bounds : boundsOf c.poly given with
  | error failure =>
    rw [constrain_eq_error _ _ bounds, constrain_eq_error _ _ bounds]
    rfl
  | ok b =>
    have penalty : (h.resolve s q).penaltyOf c (strength.substitute s q) b =
        (h.penaltyOf c strength b).resolve s q := by
      rw [penaltyOf, steady.vars_resolve, Penalty.ofConstraint_substitute constraint]
      rfl
    rw [constrain_eq_ok _ _ bounds, constrain_eq_ok _ _ bounds, penalty,
      penalize_resolve constraint]
    rfl

theorem Steady.penalize (steady : h.Steady o s q) (constraint : c.poly ∈ Poly.steady s q)
    (strength : Coeff) (b : Bounds) :
    (h.penalize c (h.penaltyOf c strength b)).Steady o s q := by
  constructor
  · exact steady.combined
  · intro d stated
    rcases List.mem_append.mp stated with old | new
    · exact steady.ledger d old
    · exact List.mem_singleton.mp new ▸ constraint
  · obtain ⟨d, split, charged⟩ := steady.added
    refine ⟨d + (h.penaltyOf c strength b).poly, ?_, charged.penalize c strength b⟩
    rw [Problem.penalize, split]
    exact add_assoc o d _

theorem Steady.constrain (steady : h.Steady o s q) (constraint : c.poly ∈ Poly.steady s q) :
    (h.constrain c strength given).2.Steady o s q := by
  cases bounds : boundsOf c.poly given with
  | error failure => rwa [constrain_eq_error h strength bounds]
  | ok b =>
    rw [constrain_eq_ok h strength bounds]
    exact steady.penalize constraint strength b

theorem Steady.addObjective (steady : h.Steady o s q) (piece : p ∈ Poly.steady s q) :
    (h.addObjective p).Steady (o + p) s q where
  combined := add_mem steady.combined piece
  ledger := steady.ledger
  added := by
    obtain ⟨d, split, charged⟩ := steady.added
    refine ⟨d, ?_, charged⟩
    rw [Problem.addObjective, split]
    exact add_right_comm o d p

theorem gate_mem_steady {target : Poly} {g : Gate} (avoids : (Step.gate target g strength).Avoids s)
    (q : Rat) : target - g.toPoly ∈ Poly.steady s q := by
  obtain ⟨free, inputs⟩ := avoids
  have gate : g.toPoly ∈ Poly.steady s q :=
    Gate.toPoly_mem fun p inside => Poly.mem_steady_of_not_mem (inputs p inside) q
  exact sub_mem (Poly.mem_steady_of_not_mem free q) gate

variable {step : Step} {steps : List Step}

theorem Steady.apply_substitute (steady : h.Steady o s q) (avoids : step.Avoids s) :
    (h.resolve s q).apply (step.substitute s q) =
      (h.apply step).map id (·.resolve s q) := by
  cases step with
  | objective p =>
    have kept : p.resolve s q = p := Poly.mem_steady_of_not_mem avoids q
    have same : (h.resolve s q).addObjective p = (h.addObjective p).resolve s q := by
      simp [Problem.addObjective, resolve, kept]
    exact congrArg (Prod.mk (Except.ok [])) same
  | constraint c strength given =>
    exact steady.constrain_substitute (Poly.mem_steady_of_not_mem avoids q)
  | gate target g strength => exact steady.constrain_substitute (gate_mem_steady avoids q)
  | resolve t r => exact avoids.elim

theorem Steady.advance (steady : h.Steady o s q) (avoids : step.Avoids s) :
    ∃ o', (h.advance step).Steady o' s q := by
  cases step with
  | objective p => exact ⟨o + p, steady.addObjective (Poly.mem_steady_of_not_mem avoids q)⟩
  | constraint c strength given =>
    exact ⟨o, steady.constrain (Poly.mem_steady_of_not_mem avoids q)⟩
  | gate target g strength => exact ⟨o, steady.constrain (gate_mem_steady avoids q)⟩
  | resolve t r => exact avoids.elim

theorem Steady.run (steady : h.Steady o s q) (avoids : ∀ step ∈ steps, step.Avoids s) :
    (h.run steps).resolve s q = (h.resolve s q).run (steps.map (Step.substitute s q)) ∧
      h.outcomes steps = (h.resolve s q).outcomes (steps.map (Step.substitute s q)) := by
  induction steps generalizing h o with
  | nil => exact ⟨rfl, rfl⟩
  | cons step rest ih =>
    obtain ⟨first, later⟩ := List.forall_mem_cons.mp avoids
    have call := steady.apply_substitute first
    have state : (h.resolve s q).advance (step.substitute s q) = (h.advance step).resolve s q :=
      congrArg Prod.snd call
    obtain ⟨o', next⟩ := steady.advance first
    obtain ⟨same, reports⟩ := ih next later
    rw [← state] at same reports
    refine ⟨same, ?_⟩
    rw [List.map_cons, outcomes, outcomes, call, reports]
    rfl

/-- Putting the number in after the run gives the problem that is built with the number. -/
theorem run_resolve (q : Rat) (free : s ∉ p.symbols) (avoids : ∀ step ∈ steps, step.Avoids s) :
    ((ofPoly p).run steps).resolve s q = (ofPoly p).run (steps.map (Step.substitute s q)) ∧
      (ofPoly p).outcomes steps = (ofPoly p).outcomes (steps.map (Step.substitute s q)) := by
  have kept : p.resolve s q = p := Poly.mem_steady_of_not_mem free q
  have start : (ofPoly p).resolve s q = ofPoly p := by simp [resolve, ofPoly, kept]
  have steady : (ofPoly p).Steady p s q :=
    ⟨Poly.mem_steady_of_not_mem free q, fun c stated => absurd stated List.not_mem_nil,
      0, (add_zero p).symm, fun v member => absurd member not_mem_vars_zero⟩
  have both := steady.run avoids
  rwa [start] at both

-- The second call lacks bounds and fails. At one the strength of the first call is zero.
def parametric : List Step :=
  let strength := Coeff.symbol ⟨"lam"⟩
  let x (n : Nat) := Poly.label (.index n)
  [.constraint ⟨x 0 + x 1 - 1, .atMost⟩ (strength * strength - strength) none,
    .constraint ⟨x 0 + Poly.constant (Coeff.symbol ⟨"mu"⟩), .equal⟩ strength none,
    .gate (x 2) (.binary .and (x 0) (x 1)) strength]

theorem run_resolve_vanishing :
    let h := (ofPoly 0).run parametric
    let numbers := parametric.map (Step.substitute ⟨"lam"⟩ 1)
    h.resolve ⟨"lam"⟩ 1 = (ofPoly 0).run numbers ∧
      (ofPoly 0).outcomes parametric = (ofPoly 0).outcomes numbers ∧
      h.slack = [Slack.name 0] ∧ Slack.name 0 ∉ ((ofPoly 0).run numbers).objective.vars ∧
      ((ofPoly 0).outcomes parametric).map Except.toBool = [true, false, true] := by
  have avoids : ∀ step ∈ parametric, step.Avoids ⟨"lam"⟩ := by decide +kernel
  have free : (⟨"lam"⟩ : Symbol) ∉ Poly.symbols 0 := by decide +kernel
  obtain ⟨same, reports⟩ := run_resolve 1 free avoids
  exact ⟨same, reports, by decide +kernel, by decide +kernel, by decide +kernel⟩

end Problem

end PseudoBoolean
