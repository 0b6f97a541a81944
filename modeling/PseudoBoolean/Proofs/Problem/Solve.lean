import PseudoBoolean.Proofs.Problem.Exact
import PseudoBoolean.Proofs.Problem.Restrict

set_option autoImplicit false

namespace PseudoBoolean.Problem

open Multilinear PseudoBoolean.Poly

def validAssignments (h : Problem) : Set Assignment :=
  {x | x.keys = h.decisions ∧ h.isValid x = .ok true}

def decided (h : Problem) (a : Assignment) : Assignment :=
  (h.restrict a).filterKeys fun v => v ∉ h.slack

section Decided

variable {h : Problem} {a x : Assignment}

theorem covers_of_keys (keys : x.keys = h.decisions) : x.Covers h.decisions := fun v member => by
  rwa [keys]

theorem keys_decided (covers : a.Covers h.vars) : (h.decided a).keys = h.decisions := by
  apply SortedSet.ext_mem
  intro v
  rw [decided, SortedMap.mem_keys_filterKeys, keys_restrict covers, mem_decisions,
    decide_eq_true_iff]

theorem truth_decided {v : Label} (member : v ∈ h.decisions) :
    (h.decided a).truth v = a.truth v := by
  obtain ⟨inside, outside⟩ := mem_decisions.mp member
  rw [decided, Assignment.truth_filterKeys (decide_eq_true outside), truth_restrict inside]

theorem decided_eq (covers : a.Covers h.vars) (keys : x.keys = h.decisions)
    (same : ∀ v ∈ h.decisions, a.truth v = x.truth v) : h.decided a = x := by
  have level := keys_decided covers
  apply Assignment.ext_truth (level.trans keys.symm)
  intro v member
  rw [level] at member
  rw [truth_decided member, same v member]

end Decided

structure Decisive (h : Problem) (o : Poly) (charge : (Label → Bool) → Rat) : Prop where
  nonneg : ∀ σ, 0 ≤ charge σ
  strong : ∀ σ τ, (∃ c ∈ h.ledger, ¬ c.HoldsAt σ) → o.numberAt τ < o.numberAt σ + charge σ
  feasible : ∃ σ, ∀ c ∈ h.ledger, c.HoldsAt σ

section Compiled

variable {h : Problem} {o : Poly} {charge : (Label → Bool) → Rat}
  (compiles : h.Compiles o charge) {least : Rat}

include compiles

theorem Compiles.mem_validAssignments {x : Assignment} :
    x ∈ h.validAssignments ↔ x.keys = h.decisions ∧ ∀ c ∈ h.ledger, c.HoldsAt x.truth := by
  refine and_congr_right fun keys => ?_
  rw [compiles.isValid_eq_ok (covers_of_keys keys), Except.ok.injEq, decide_eq_true_iff]

-- A valid valuation reaches its value of the combined objective with the right slack.
theorem Compiles.least_le (isLeast : IsLeast (Set.range fun σ => h.objective.numberAt σ) least)
    {σ : Label → Bool} (held : ∀ c ∈ h.ledger, c.HoldsAt σ) : least ≤ o.numberAt σ := by
  obtain ⟨τ, -, value⟩ := compiles.reached σ held
  exact isLeast.2 ⟨τ, value⟩

theorem Compiles.minimum_valid (decisive : h.Decisive o charge)
    (isLeast : IsLeast (Set.range fun σ => h.objective.numberAt σ) least) {σ : Label → Bool}
    (minimal : h.objective.numberAt σ = least) :
    (∀ c ∈ h.ledger, c.HoldsAt σ) ∧ o.numberAt σ = least := by
  have above := compiles.above σ
  obtain ⟨ρ, feasible⟩ := decisive.feasible
  have best := compiles.least_le isLeast feasible
  have held : ∀ c ∈ h.ledger, c.HoldsAt σ := by
    intro c stated
    by_cases satisfied : c.HoldsAt σ
    · exact satisfied
    · have heavy := decisive.strong σ ρ ⟨c, stated, satisfied⟩
      exfalso
      linarith
  have lower := compiles.least_le isLeast held
  have free := decisive.nonneg σ
  exact ⟨held, by linarith⟩

variable {a : Assignment} (covers : a.Covers h.vars) (held : ∀ c ∈ h.ledger, c.HoldsAt a.truth)

include covers held

theorem Compiles.isValid_restrict : h.isValid (h.restrict a) = .ok true := by
  have assigned : a.Covers h.decisions := fun v member => covers v (mem_decisions.mp member).1
  rw [h.isValid_restrict, compiles.isValid_eq_ok assigned, Except.ok.injEq, decide_eq_true_iff]
  exact held

theorem Compiles.decided_valid : h.decided a ∈ h.validAssignments ∧
    o.value (h.decided a) = .ok (o.numberAt a.truth) := by
  have keys := keys_decided covers
  have same : ∀ v ∈ h.decisions, (h.decided a).truth v = a.truth v := fun v => truth_decided
  constructor
  · refine compiles.mem_validAssignments.mpr ⟨keys, fun c stated => ?_⟩
    exact (compiles.holdsAt_decided same stated).mpr (held c stated)
  · rw [compiles.value_objective (covers_of_keys keys), compiles.numberAt_decided same]

end Compiled

section Run

variable {p : Poly} {steps : List Step}

theorem run_decisive (numeric : p.Numeric) (unreserved : p.Unreserved)
    (admissible : ∀ s ∈ steps, s.Admissible) {b : Bounds}
    (range : (combined p steps).bounds? = some b)
    (strong : ∀ c strength given, Step.constraint c strength given ∈ steps →
      b.hi - b.lo < strength.constantPart)
    (feasible : ((ofPoly p).run steps).validAssignments.Nonempty) :
    ((ofPoly p).run steps).Decisive (combined p steps)
      fun σ => (steps.map (Step.chargeAt σ)).sum := by
  obtain ⟨compiles, recorded⟩ := run_compiles numeric unreserved admissible
  constructor
  · exact fun σ => List.sum_nonneg (List.forall_mem_map.mpr fun s inside =>
      chargeAt_nonneg (admissible s inside))
  · rintro σ τ ⟨c, stated, violated⟩
    obtain ⟨strength, given, called⟩ := exists_stated (recorded ▸ stated)
    have heavy := strong c strength given called
    have charged := le_charges admissible called violated
    have low := (encloses_bounds range σ).1
    have high := (encloses_bounds range τ).2
    linarith
  · obtain ⟨x, valid⟩ := feasible
    exact ⟨x.truth, (compiles.mem_validAssignments.mp valid).2⟩

/-- With strengths above the range of the combined objective the minima of the model are valid, and
have the least value over the valid assignments. -/
theorem run_toQubo_solves (numeric : p.Numeric) (unreserved : p.Unreserved)
    (admissible : ∀ s ∈ steps, s.Admissible) {b : Bounds}
    (range : (combined p steps).bounds? = some b)
    (strong : ∀ c strength given, Step.constraint c strength given ∈ steps →
      b.hi - b.lo < strength.constantPart)
    (feasible : ((ofPoly p).run steps).validAssignments.Nonempty) {q : Qubo}
    (built : ((ofPoly p).run steps).toQubo Quadratization.Options.standard = .ok q)
    {limit : Nat} {s : Solutions} (solved : q.landscape.solveAll limit = .ok s) :
    let h := (ofPoly p).run steps
    IsLeast {v | ∃ x ∈ h.validAssignments, (combined p steps).value x = .ok v} s.value ∧
      (∀ a ∈ s.assignments, h.isValid (h.restrict a) = .ok true) ∧
      {x | ∃ a ∈ s.assignments, h.decided a = x} =
        {x ∈ h.validAssignments | (combined p steps).value x = .ok s.value} := by
  intro h
  obtain ⟨compiles, recorded⟩ := run_compiles numeric unreserved admissible
  rw [toQubo_eq_ok compiles.objective _, Except.ok.injEq] at built
  subst built
  obtain ⟨r, added, represents, majorizes, apart, indexed⟩ :=
    h.objective.constantParts.exists_model Quadratization.Options.standard h.vars
      (fun m given => by cases given)
  have modelLeast := represents.isLeast solved
  have isLeast := majorizes.isLeast modelLeast
  have decisive := run_decisive numeric unreserved admissible range strong feasible
  -- A minimum of the model is a valid valuation of the least value.
  have settled {a : Assignment} (member : a ∈ s.assignments) : a.Covers h.vars ∧
      (∀ c ∈ h.ledger, c.HoldsAt a.truth) ∧ (combined p steps).numberAt a.truth = s.value := by
    obtain ⟨keys, minimal⟩ := (represents.mem_assignments solved).mp member
    refine ⟨fun v inside => keys ▸ indexed v inside, ?_⟩
    exact compiles.minimum_valid decisive isLeast (majorizes.value_eq modelLeast minimal)
  have decided {a : Assignment} (member : a ∈ s.assignments) :
      h.decided a ∈ h.validAssignments ∧
        (combined p steps).value (h.decided a) = .ok s.value := by
    obtain ⟨covers, held, value⟩ := settled member
    rw [← value]
    exact compiles.decided_valid covers held
  refine ⟨⟨?_, ?_⟩, ?_, ?_⟩
  · obtain ⟨σ, minimal⟩ := modelLeast.1
    exact ⟨_, decided (represents.ofTruth_mem solved minimal)⟩
  · rintro v ⟨x, valid, value⟩
    obtain ⟨keys, held⟩ := compiles.mem_validAssignments.mp valid
    rw [compiles.value_objective (covers_of_keys keys), Except.ok.injEq] at value
    rw [← value]
    exact compiles.least_le isLeast held
  · intro a member
    obtain ⟨covers, held, -⟩ := settled member
    exact compiles.isValid_restrict covers held
  · apply Set.Subset.antisymm
    · rintro x ⟨a, member, rfl⟩
      exact decided member
    -- The slack and then the ancillas are filled in, which brings `x` to the least energy.
    · rintro x ⟨valid, value⟩
      obtain ⟨keys, held⟩ := compiles.mem_validAssignments.mp valid
      rw [compiles.value_objective (covers_of_keys keys), Except.ok.injEq] at value
      obtain ⟨τ, slack, filled⟩ := compiles.reached _ held
      obtain ⟨υ, ancillas, touched⟩ := majorizes.reached τ
      have member := represents.ofTruth_mem solved (touched.trans (filled.trans value))
      refine ⟨_, member, decided_eq (settled member).1 keys ?_⟩
      intro v inside
      obtain ⟨used, outside⟩ := mem_decisions.mp inside
      have free : v ∉ added := fun new => apart v new used
      rw [Assignment.truth_ofTruth (indexed v used), ancillas v free, slack v outside]

theorem run_toQubo_solves_atMostOne :
    let h := (ofPoly (-label (.index 0))).run atMostOne
    ∃ q s, h.toQubo Quadratization.Options.standard = .ok q ∧
      q.landscape.solveAll Landscape.standardLimit = .ok s ∧
      IsLeast {v | ∃ x ∈ h.validAssignments,
        (combined (-label (.index 0)) atMostOne).value x = .ok v} (-1) ∧
      ∀ a ∈ s.assignments, h.isValid (h.restrict a) = .ok true := by
  intro h
  have objective : h.objective.Numeric := by decide +kernel
  have built := toQubo_eq_ok objective Quadratization.Options.standard
  have solved : (h.objective.constantParts.toQubo Quadratization.Options.standard
      h.vars).landscape.solveAll Landscape.standardLimit =
      .ok ⟨-1, [SortedMap.ofList
        [(.index 0, true), (.index 1, false), (Slack.name 0, false)]]⟩ := by
    decide +kernel
  have feasible : h.validAssignments.Nonempty :=
    ⟨SortedMap.ofList [(.index 0, false), (.index 1, false)], by decide +kernel, by decide +kernel⟩
  have strong : ∀ c strength given, Step.constraint c strength given ∈ atMostOne →
      (1 : Rat) - (-1) < strength.constantPart := by
    intro c strength given stated
    rcases List.mem_cons.mp stated with same | later
    · cases same
      decide +kernel
    · cases List.mem_singleton.mp later
  obtain ⟨least, valid, -⟩ := run_toQubo_solves (by decide +kernel)
    (unreserved_of_indices (by decide +kernel)) atMostOne_admissible (b := ⟨-1, 1⟩)
    (by decide +kernel) strong feasible built solved
  exact ⟨_, _, built, solved, least, valid⟩

end Run

end PseudoBoolean.Problem
