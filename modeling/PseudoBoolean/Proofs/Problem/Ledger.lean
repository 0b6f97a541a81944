import PseudoBoolean.Proofs.Problem.Slack

set_option autoImplicit false

namespace PseudoBoolean.Problem

namespace Step

def stated? : Step → Option Constraint
  | .constraint c _ _ => some c
  | .gate target g _ => some ⟨target - g.toPoly, .equal⟩
  | .objective _ => none
  | .resolve _ _ => none

def carry : Step → Constraint → Constraint
  | .resolve s q, c => c.resolve s q
  | _, c => c

end Step

def carried (later : List Step) (c : Constraint) : Constraint :=
  later.foldl (fun d step => step.carry d) c

def entered (h : Problem) (step : Step) : List Constraint :=
  match (h.apply step).1 with
  | .ok _ => step.stated?.toList
  | .error _ => []

-- Each constraint stands as the calls after it leave it.
def history (h : Problem) : List Step → List Constraint
  | [] => []
  | step :: rest => (h.entered step).map (carried rest) ++ history (h.advance step) rest

variable {h h' : Problem} {c : Constraint} {strength : Coeff} {given : Option Bounds}
  {step : Step} {warnings : List Warning} {failure : Failure}

section Calls

theorem boundsOf_eq_error_iff {g : Poly} :
    boundsOf g given = .error failure ↔
      given = none ∧ (∃ s, s ∈ g.symbols) ∧ failure = .unboundedConstraint g := by
  cases given with
  | some b => simp [boundsOf]
  | none =>
    by_cases numeric : g.Numeric
    · rw [boundsOf_numeric numeric]
      have free := Poly.numeric_iff_symbols.mp numeric
      simp [free]
    · have parametric : ∃ s, s ∈ g.symbols := by
        simpa [Poly.numeric_iff_symbols] using numeric
      simp [boundsOf, Poly.bounds_eq_none_iff.mpr numeric, parametric, eq_comm]

theorem constrain_eq_error_iff :
    (h.constrain c strength given).1 = .error failure ↔
      given = none ∧ (∃ s, s ∈ c.poly.symbols) ∧ failure = .unboundedConstraint c.poly := by
  rw [← boundsOf_eq_error_iff]
  cases bounds : boundsOf c.poly given with
  | error refused => simp [constrain_eq_error h strength bounds]
  | ok b => simp [constrain_eq_ok h strength bounds]

theorem constrain_of_error (failed : (h.constrain c strength given).1 = .error failure) :
    (h.constrain c strength given).2 = h := by
  cases bounds : boundsOf c.poly given with
  | error refused => rw [constrain_eq_error h strength bounds]
  | ok b =>
    rw [constrain_eq_ok h strength bounds] at failed
    cases failed

-- Gates give bounds, so of all calls only a constraint can fail.
theorem apply_eq_error_iff :
    (h.apply step).1 = .error failure ↔
      ∃ c strength, step = .constraint c strength none ∧ (∃ s, s ∈ c.poly.symbols) ∧
        failure = .unboundedConstraint c.poly := by
  cases step with
  | objective p => exact iff_of_false nofun nofun
  | constraint c strength given =>
    rw [apply_constraint, constrain_eq_error_iff]
    simp
  | gate target g strength =>
    rw [apply_gate, constrain_eq_error_iff]
    simp
  | resolve s q => exact iff_of_false nofun nofun

theorem advance_of_error (failed : (h.apply step).1 = .error failure) : h.advance step = h := by
  obtain ⟨c, strength, rfl, -⟩ := apply_eq_error_iff.mp failed
  exact constrain_of_error failed

theorem apply_cases (accepted : h.apply step = (.ok warnings, h')) :
    (step.stated? = none ∧ h'.ledger = h.ledger.map step.carry ∧ h'.slack = h.slack) ∨
      ∃ c strength b, step.stated? = some c ∧ step.carry = id ∧
        h' = h.penalize c (h.penaltyOf c strength b) := by
  cases step with
  | objective p =>
    cases accepted
    exact Or.inl ⟨rfl, (List.map_id _).symm, rfl⟩
  | constraint c strength given =>
    obtain ⟨b, -, next⟩ := exists_bounds accepted
    exact Or.inr ⟨c, strength, b, rfl, rfl, next⟩
  | gate target g strength =>
    obtain ⟨b, -, next⟩ := exists_bounds accepted
    exact Or.inr ⟨_, strength, b, rfl, rfl, next⟩
  | resolve s q =>
    cases accepted
    exact Or.inl ⟨rfl, rfl, rfl⟩

end Calls

section Ledger

theorem ledger_advance (h : Problem) (step : Step) :
    (h.advance step).ledger = h.ledger.map step.carry ++ h.entered step := by
  cases outcome : (h.apply step).1 with
  | error failure =>
    obtain ⟨c, strength, rfl, -⟩ := apply_eq_error_iff.mp outcome
    have kept : Step.carry (.constraint c strength none) = id := rfl
    rw [advance_of_error outcome, entered, outcome, kept, List.map_id, List.append_nil]
  | ok warnings =>
    rw [entered, outcome]
    have call : h.apply step = (.ok warnings, h.advance step) := Prod.ext outcome rfl
    rcases apply_cases call with ⟨silent, ledger, -⟩ | ⟨c, strength, b, stated, kept, penalized⟩
    · rw [ledger, silent, Option.toList_none, List.append_nil]
    · rw [penalized, stated, kept, List.map_id, penalize, Option.toList_some]

theorem ledger_run (h : Problem) (steps : List Step) :
    (h.run steps).ledger = h.ledger.map (carried steps) ++ h.history steps := by
  induction steps generalizing h with
  | nil =>
    have unchanged : carried [] = id := rfl
    simp [run, unchanged, history]
  | cons step rest ih =>
    have first : carried (step :: rest) = carried rest ∘ step.carry := rfl
    have tail : h.run (step :: rest) = (h.advance step).run rest := rfl
    rw [tail, ih, ledger_advance, first, history, List.map_append, List.map_map, List.append_assoc]

end Ledger

section Slack

theorem slack_advance (h : Problem) (step : Step) :
    ∃ added, (h.advance step).slack = h.slack ++ added ∧ added.Nodup ∧
      ∀ v ∈ added, v ∉ h.slack := by
  have unchanged (kept : (h.advance step).slack = h.slack) : ∃ added,
      (h.advance step).slack = h.slack ++ added ∧ added.Nodup ∧ ∀ v ∈ added, v ∉ h.slack :=
    ⟨[], kept.trans (List.append_nil _).symm, List.nodup_nil, fun v inside =>
      absurd inside List.not_mem_nil⟩
  cases outcome : (h.apply step).1 with
  | error failure => exact unchanged (congrArg slack (advance_of_error outcome))
  | ok warnings =>
    have call : h.apply step = (.ok warnings, h.advance step) := Prod.ext outcome rfl
    rcases apply_cases call with ⟨-, -, kept⟩ | ⟨c, strength, b, -, -, penalized⟩
    · exact unchanged kept
    · refine ⟨(h.penaltyOf c strength b).slack, congrArg slack penalized, ?_, ?_⟩
      · rw [slack_penaltyOf]
        exact Slack.nodup_labels _ _ _
      · intro v inside old
        rw [slack_penaltyOf] at inside
        exact Slack.not_taken_of_mem_labels inside (mem_vars.mpr (Or.inr (Or.inr old)))

theorem prefix_slack_run (h : Problem) (steps : List Step) : h.slack <+: (h.run steps).slack := by
  induction steps generalizing h with
  | nil => exact List.prefix_refl _
  | cons step rest ih =>
    obtain ⟨added, slack, -, -⟩ := slack_advance h step
    have one : h.slack <+: (h.advance step).slack := ⟨added, slack.symm⟩
    exact one.trans (ih (h.advance step))

theorem nodup_slack_run (steps : List Step) (distinct : h.slack.Nodup) :
    (h.run steps).slack.Nodup := by
  induction steps generalizing h with
  | nil => exact distinct
  | cons step rest ih =>
    obtain ⟨added, slack, once, new⟩ := slack_advance h step
    refine ih (h := h.advance step) ?_
    rw [slack, List.nodup_append']
    exact ⟨distinct, once, fun v old inside => new v inside old⟩

end Slack

/-- A call fails exactly where it lacks bounds, and then changes nothing. -/
theorem run_ledger (p : Poly) (steps : List Step) :
    let h := (ofPoly p).run steps
    (∀ r, h.constraintsOf r =
        (((ofPoly p).history steps).filter (·.relation = r)).map Constraint.poly) ∧
      (∀ step failure, (h.apply step).1 = .error failure ↔
        ∃ c strength, step = .constraint c strength none ∧ (∃ s, s ∈ c.poly.symbols) ∧
          failure = .unboundedConstraint c.poly) ∧
      (∀ step failure, (h.apply step).1 = .error failure → h.advance step = h) ∧
      h.slack.Nodup ∧ (∀ s q, (h.advance (.resolve s q)).slack = h.slack) ∧
      ∀ later, h.slack <+: (h.run later).slack ∧ ∀ v ∈ h.slack, v ∈ (h.run later).vars := by
  intro h
  have ledger : h.ledger = (ofPoly p).history steps := ledger_run (ofPoly p) steps
  refine ⟨fun r => ?_, fun step failure => apply_eq_error_iff,
    fun step failure => advance_of_error, nodup_slack_run steps List.nodup_nil,
    fun s q => rfl, fun later => ?_⟩
  · rw [constraintsOf, ledger]
  · have grows := prefix_slack_run h later
    exact ⟨grows, fun v old => mem_vars.mpr (Or.inr (Or.inr (grows.subset old)))⟩

-- The strict inequality stands unshifted, the call without bounds is left out, and the parameter of
-- the last one is resolved.
example :
    let x (n : Nat) := Poly.label (.index n)
    let mu := Coeff.symbol ⟨"mu"⟩
    ((ofPoly 0).run [.constraint ⟨x 0, .less⟩ 1 none,
      .constraint ⟨x 0 + Poly.constant mu, .less⟩ 1 none,
      .constraint ⟨(x 1).scale mu, .less⟩ mu (some ⟨0, 1⟩),
      .resolve ⟨"mu"⟩ 2]).constraintsOf .less = [x 0, (x 1).scale (Coeff.number 2)] := by
  decide +kernel

end PseudoBoolean.Problem
