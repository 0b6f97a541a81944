import Mathlib.Data.Set.Finite.Lemmas
import PseudoBoolean.Proofs.Problem.Compile

set_option autoImplicit false

namespace PseudoBoolean.Problem

open Multilinear PseudoBoolean.Poly

def decisions (h : Problem) : SortedSet Label :=
  h.vars.filter fun v => v ∉ h.slack

theorem mem_decisions {h : Problem} {v : Label} : v ∈ h.decisions ↔ v ∈ h.vars ∧ v ∉ h.slack := by
  simp [decisions, SortedSet.mem_filter]

structure Completes (h : Problem) (x y : Assignment) : Prop where
  covers : y.Covers h.vars
  agrees : ∀ v ∈ h.decisions, y.get? v = x.get? v

def slackValues (h : Problem) (x : Assignment) : Set Rat :=
  {q | ∃ y, h.Completes x y ∧ h.value y = .ok q}

def Step.charge (x : Assignment) : Step → Rat
  | .constraint c strength _ => if c.isSatisfied x = .ok true then 0 else strength.constantPart
  | _ => 0

theorem chargeAt_nonneg {σ : Label → Bool} {s : Step} (admissible : s.Admissible) :
    0 ≤ s.chargeAt σ := by
  cases admissible with
  | objective => exact le_refl 0
  | @constraint c q given integral unreserved positive sound =>
    simp only [Step.chargeAt, Coeff.constantPart_number]
    split
    · exact le_refl 0
    · exact le_of_lt positive

theorem le_charges {σ : Label → Bool} {steps : List Step}
    (admissible : ∀ s ∈ steps, s.Admissible) {c : Constraint} {strength : Coeff}
    {given : Option Bounds} (stated : Step.constraint c strength given ∈ steps)
    (violated : ¬ c.HoldsAt σ) :
    strength.constantPart ≤ (steps.map (Step.chargeAt σ)).sum := by
  have charged : (Step.constraint c strength given).chargeAt σ = strength.constantPart :=
    if_neg violated
  have nonneg : ∀ q ∈ steps.map (Step.chargeAt σ), 0 ≤ q := by
    intro q member
    obtain ⟨s, chosen, rfl⟩ := List.mem_map.mp member
    exact chargeAt_nonneg (admissible s chosen)
  rw [← charged]
  exact List.single_le_sum nonneg _ (List.mem_map_of_mem stated)

theorem exists_stated {steps : List Step} {c : Constraint}
    (recorded : c ∈ steps.filterMap Step.constraint?) :
    ∃ strength given, Step.constraint c strength given ∈ steps := by
  obtain ⟨s, inside, same⟩ := List.mem_filterMap.mp recorded
  cases s with
  | constraint d strength given =>
    obtain rfl : d = c := Option.some.inj same
    exact ⟨strength, given, inside⟩
  | objective | gate | resolve => cases same

theorem charges_pos {σ : Label → Bool} {steps : List Step}
    (admissible : ∀ s ∈ steps, s.Admissible) {c : Constraint}
    (recorded : c ∈ steps.filterMap Step.constraint?) (violated : ¬ c.HoldsAt σ) :
    0 < (steps.map (Step.chargeAt σ)).sum := by
  obtain ⟨strength, given, stated⟩ := exists_stated recorded
  have positive : 0 < strength.constantPart := by
    cases admissible _ stated with
    | constraint integral unreserved positive sound => rwa [Coeff.constantPart_number]
  exact lt_of_lt_of_le positive (le_charges admissible stated violated)

section Compiled

variable {h : Problem} {o : Poly} {charge : (Label → Bool) → Rat}
  (compiles : h.Compiles o charge) {x y : Assignment}

include compiles

theorem Compiles.vars_subset {v : Label} (member : v ∈ o.vars) : v ∈ h.vars := by
  obtain ⟨d, split, charged⟩ := compiles.added
  exact (Charged.mem_vars charged split).mpr (Or.inl member)

theorem Compiles.decides {p : Poly} (unreserved : p.Unreserved) {v : Label} (member : v ∈ p.vars)
    (inside : v ∈ h.vars) : v ∈ h.decisions :=
  mem_decisions.mpr ⟨inside, fun slack => unreserved v member (compiles.reserved v slack)⟩

theorem Compiles.decides_objective {v : Label} (member : v ∈ o.vars) : v ∈ h.decisions :=
  compiles.decides compiles.unreserved member (compiles.vars_subset member)

theorem Compiles.decides_ledger {c : Constraint} (stated : c ∈ h.ledger) {v : Label}
    (member : v ∈ c.poly.vars) : v ∈ h.decisions :=
  compiles.decides (compiles.recorded c stated).2 member
    (mem_vars.mpr (Or.inr (Or.inl ⟨c, stated, member⟩)))

theorem Compiles.numberAt_decided {σ τ : Label → Bool} (same : ∀ v ∈ h.decisions, σ v = τ v) :
    o.numberAt σ = o.numberAt τ :=
  numberAt_congr σ fun v member => same v (compiles.decides_objective member)

theorem Compiles.holdsAt_decided {σ τ : Label → Bool} (same : ∀ v ∈ h.decisions, σ v = τ v)
    {c : Constraint} (stated : c ∈ h.ledger) : c.HoldsAt σ ↔ c.HoldsAt τ := by
  have value : c.poly.numberAt σ = c.poly.numberAt τ :=
    numberAt_congr σ fun v member => same v (compiles.decides_ledger stated member)
  rw [Constraint.HoldsAt, value, Constraint.HoldsAt]

theorem Compiles.value_objective (assigned : x.Covers h.decisions) :
    o.value x = .ok (o.numberAt x.truth) :=
  Poly.value_eq_ok compiles.numeric fun v member => assigned v (compiles.decides_objective member)

theorem Compiles.isSatisfied_eq_ok (assigned : x.Covers h.decisions) {c : Constraint}
    (stated : c ∈ h.ledger) : c.isSatisfied x = .ok (decide (c.HoldsAt x.truth)) :=
  Constraint.isSatisfied_eq_ok (compiles.recorded c stated).1 fun v member =>
    assigned v (compiles.decides_ledger stated member)

theorem Compiles.isValid_eq_ok (assigned : x.Covers h.decisions) :
    h.isValid x = .ok (decide (∀ c ∈ h.ledger, c.HoldsAt x.truth)) :=
  Problem.isValid_eq_ok (fun c stated => (compiles.recorded c stated).1) fun _ stated v member =>
    assigned v (compiles.decides_ledger stated member)

theorem Compiles.value_eq_ok (covers : y.Covers h.vars) :
    h.value y = .ok (h.objective.numberAt y.truth) :=
  Poly.value_eq_ok compiles.objective fun v member => covers v (mem_vars.mpr (Or.inl member))

omit compiles in
theorem Completes.truth_eq (completes : h.Completes x y) :
    ∀ v ∈ h.decisions, y.truth v = x.truth v := by
  intro v member
  rw [Assignment.truth, completes.agrees v member, Assignment.truth]

omit compiles in
theorem completes_ofTruth (assigned : x.Covers h.decisions) {τ : Label → Bool}
    (agree : AgreeOff h.slack x.truth τ) : h.Completes x (Assignment.ofTruth h.vars τ) := by
  have keys := Assignment.keys_ofTruth h.vars τ
  constructor
  · intro v member
    rwa [keys]
  · intro v member
    obtain ⟨inside, outside⟩ := mem_decisions.mp member
    rw [Assignment.get_eq_truth (keys.symm ▸ inside), Assignment.truth_ofTruth inside,
      agree v outside, Assignment.get_eq_truth (assigned v member)]

theorem Compiles.exists_completion (assigned : x.Covers h.decisions) {τ : Label → Bool}
    (agree : AgreeOff h.slack x.truth τ) : h.objective.numberAt τ ∈ h.slackValues x := by
  have completes := completes_ofTruth assigned agree
  refine ⟨_, completes, ?_⟩
  rw [compiles.value_eq_ok completes.covers]
  congr 1
  exact numberAt_congr _ fun v member =>
    Assignment.truth_ofTruth (mem_vars.mpr (Or.inl member))

theorem Compiles.exists_least (assigned : x.Covers h.decisions) :
    ∃ q, IsLeast (h.slackValues x) q := by
  have finite : (h.slackValues x).Finite := by
    refine (finite_values h.objective.constantParts).subset ?_
    rintro q ⟨y, completes, value⟩
    rw [compiles.value_eq_ok completes.covers] at value
    exact ⟨y.truth, Except.ok.inj value⟩
  have some : (h.slackValues x).Nonempty :=
    ⟨_, compiles.exists_completion assigned (AgreeOff.refl _ _)⟩
  obtain ⟨q, member, least⟩ := Set.exists_min_image _ id finite some
  exact ⟨q, member, least⟩

end Compiled

theorem charges_eq {steps : List Step} {x : Assignment} {σ : Label → Bool}
    (same : ∀ c ∈ steps.filterMap Step.constraint?,
      c.isSatisfied x = .ok (decide (c.HoldsAt σ))) :
    (steps.map (Step.charge x)).sum = (steps.map (Step.chargeAt σ)).sum := by
  refine congrArg List.sum (List.map_congr_left fun s inside => ?_)
  cases s with
  | constraint c strength given =>
    have verdict := same c (List.mem_filterMap.mpr ⟨_, inside, rfl⟩)
    by_cases held : c.HoldsAt σ <;> simp [Step.charge, Step.chargeAt, verdict, held]
  | objective | gate | resolve => rfl

section Run

variable {p : Poly} {steps : List Step}

theorem run_compiles (numeric : p.Numeric) (unreserved : p.Unreserved)
    (admissible : ∀ s ∈ steps, s.Admissible) :
    ((ofPoly p).run steps).Compiles (combined p steps)
        (fun σ => (steps.map (Step.chargeAt σ)).sum) ∧
      ((ofPoly p).run steps).ledger = steps.filterMap Step.constraint? := by
  have final := (compiles_ofPoly numeric unreserved).run admissible
  simp only [zero_add] at final
  exact final

/-- The least value over the completions of `x` is that of the combined objective where `x`
satisfies the constraints, and elsewhere larger by the strengths of the violated ones. -/
theorem run_exact (numeric : p.Numeric) (unreserved : p.Unreserved)
    (admissible : ∀ s ∈ steps, s.Admissible) {x : Assignment}
    (assigned : x.Covers ((ofPoly p).run steps).decisions) :
    let h := (ofPoly p).run steps
    h.ledger = steps.filterMap Step.constraint? ∧
      (∀ y, h.Completes x y → ∃ q, h.value y = .ok q) ∧
      ∃ o valid least, (combined p steps).value x = .ok o ∧ h.isValid x = .ok valid ∧
        IsLeast (h.slackValues x) least ∧ (valid = true → least = o) ∧
        (valid = false → o + (steps.map (Step.charge x)).sum ≤ least) ∧
        (valid = true ↔ least = o) := by
  intro h
  obtain ⟨compiles, recorded⟩ := run_compiles numeric unreserved admissible
  obtain ⟨least, reached, below⟩ := compiles.exists_least assigned
  have value := compiles.value_objective assigned
  -- The least value is taken somewhere, and there it pays for every violated constraint.
  have bound : (combined p steps).numberAt x.truth + (steps.map (Step.charge x)).sum ≤ least := by
    obtain ⟨y, completes, taken⟩ := reached
    rw [compiles.value_eq_ok completes.covers, Except.ok.injEq] at taken
    have charges : (steps.map (Step.charge x)).sum = (steps.map (Step.chargeAt y.truth)).sum := by
      apply charges_eq
      intro c stated
      rw [← recorded] at stated
      rw [compiles.isSatisfied_eq_ok assigned stated]
      simp only [compiles.holdsAt_decided completes.truth_eq stated]
    rw [charges, ← compiles.numberAt_decided completes.truth_eq, ← taken]
    exact compiles.above y.truth
  have charges : (steps.map (Step.charge x)).sum = (steps.map (Step.chargeAt x.truth)).sum :=
    charges_eq fun c stated => compiles.isSatisfied_eq_ok assigned (recorded ▸ stated)
  have satisfied (held : ∀ c ∈ h.ledger, c.HoldsAt x.truth) :
      least = (combined p steps).numberAt x.truth := by
    obtain ⟨τ, agree, same⟩ := compiles.reached _ held
    have attained := below (compiles.exists_completion assigned agree)
    have nonneg : 0 ≤ (steps.map (Step.charge x)).sum := by
      rw [charges]
      exact List.sum_nonneg (List.forall_mem_map.mpr fun s inside =>
        chargeAt_nonneg (admissible s inside))
    rw [same] at attained
    linarith
  have violated (failed : ¬ ∀ c ∈ h.ledger, c.HoldsAt x.truth) :
      (combined p steps).numberAt x.truth < least := by
    push Not at failed
    obtain ⟨c, stated, broken⟩ := failed
    have positive : 0 < (steps.map (Step.charge x)).sum := by
      rw [charges]
      exact charges_pos admissible (recorded ▸ stated) broken
    linarith
  refine ⟨recorded, fun y completes => ⟨_, compiles.value_eq_ok completes.covers⟩, _, _, least,
    value, compiles.isValid_eq_ok assigned, ⟨reached, below⟩, ?_, fun _ => bound, ?_⟩
  · exact fun valid => satisfied (of_decide_eq_true valid)
  · constructor
    · exact fun valid => satisfied (of_decide_eq_true valid)
    · intro same
      by_cases held : ∀ c ∈ h.ledger, c.HoldsAt x.truth
      · exact decide_eq_true held
      · exact absurd same (ne_of_gt (violated held))

-- At most one of two variables may be chosen, and the second costs something.
def atMostOne : List Step :=
  [.constraint ⟨label (.index 0) + label (.index 1) - 1, .atMost⟩ (Coeff.number 3) none,
    .objective (label (.index 1))]

theorem atMostOne_admissible : ∀ s ∈ atMostOne, s.Admissible := by
  have integral : ∀ e ∈ (label (.index 0) + label (.index 1) - 1).entries,
      e.2 = Coeff.number e.2.constantPart.num := by decide +kernel
  intro s inside
  rcases List.mem_cons.mp inside with rfl | later
  · apply Step.Admissible.constraint
    · exact fun e member => ⟨_, integral e member⟩
    · exact unreserved_of_indices (by decide +kernel)
    · decide
    · exact fun b given => by cases given
  · rw [List.mem_singleton.mp later]
    exact Step.Admissible.objective (by decide +kernel) (unreserved_of_indices (by decide +kernel))

theorem run_exact_violated :
    let h := (ofPoly (-label (.index 0))).run atMostOne
    let x : Assignment := SortedMap.ofList [(.index 0, true), (.index 1, true)]
    h.isValid x = .ok false ∧ (combined (-label (.index 0)) atMostOne).value x = .ok 0 ∧
      ∃ least, IsLeast (h.slackValues x) least ∧ 3 ≤ least := by
  intro h x
  have assigned : ∀ v ∈ h.decisions.toList, v ∈ x.keys := by decide +kernel
  obtain ⟨-, -, o, valid, least, value, verdict, isLeast, -, bound, -⟩ :=
    run_exact (by decide +kernel) (unreserved_of_indices (by decide +kernel))
      atMostOne_admissible (x := x) assigned
  have judged : h.isValid x = .ok false := by decide +kernel
  have valued : (combined (-label (.index 0)) atMostOne).value x = .ok 0 := by decide +kernel
  have charged : (atMostOne.map (Step.charge x)).sum = 3 := by decide +kernel
  have failed : valid = false := Except.ok.inj (verdict.symm.trans judged)
  have known : o = 0 := Except.ok.inj (value.symm.trans valued)
  rw [known, charged, zero_add] at bound
  exact ⟨judged, valued, least, isLeast, bound failed⟩

end Run

end PseudoBoolean.Problem
