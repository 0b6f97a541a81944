import PseudoBoolean.Proofs.Problem.Slack

set_option autoImplicit false

namespace PseudoBoolean

open Multilinear PseudoBoolean.Poly

def Label.Reserved (v : Label) : Prop :=
  ∃ rest, v = .name ("__s" ++ rest)

def Poly.Unreserved (p : Poly) : Prop :=
  ∀ v ∈ p.vars, ¬ v.Reserved

theorem Poly.unreserved_of_indices {p : Poly} (indices : ∀ v ∈ p.vars.toList, v.name? = none) :
    p.Unreserved := by
  intro v member reserved
  obtain ⟨rest, rfl⟩ := reserved
  cases indices _ member

theorem Slack.reserved_of_mem_labels {taken : SortedSet Label} {start count : Nat} {v : Label}
    (member : v ∈ labels taken start count) : v.Reserved := by
  obtain ⟨n, rfl, -⟩ := mem_labels_iff.mp member
  exact ⟨n.repr, rfl⟩

namespace Problem

namespace Step

inductive Admissible : Step → Prop
  | objective {p : Poly} (numeric : p.Numeric) (unreserved : p.Unreserved) :
    Admissible (.objective p)
  | constraint {c : Constraint} {q : Rat} {given : Option Bounds} (integral : c.poly.Integral)
    (unreserved : c.poly.Unreserved) (positive : 0 < q)
    (sound : ∀ b, given = some b → ∀ σ, b.Encloses (c.poly.numberAt σ)) :
    Admissible (.constraint c (Coeff.number q) given)

def piece : Step → Poly
  | .objective p => p
  | _ => 0

def constraint? : Step → Option Constraint
  | .constraint c _ _ => some c
  | _ => none

def chargeAt (σ : Label → Bool) : Step → Rat
  | .constraint c strength _ => if c.HoldsAt σ then 0 else strength.constantPart
  | _ => 0

end Step

def combined (p : Poly) (steps : List Step) : Poly :=
  p + (steps.map Step.piece).sum

theorem boundsOf_bounded {g : Poly} {given : Option Bounds} (integral : g.Integral)
    (sound : ∀ b, given = some b → ∀ σ, b.Encloses (g.numberAt σ)) :
    ∃ b, boundsOf g given = .ok b ∧ Penalty.Bounded g b := by
  cases given with
  | some b => exact ⟨b, rfl, integral.numeric, integral.numberAt, sound b rfl⟩
  | none =>
    exact ⟨_, boundsOf_numeric integral.numeric, integral.numeric, integral.numberAt, fun σ =>
      coefficientBounds_encloses σ g.constantParts⟩

/-- The objective stands for the sum `o` of pieces, with `charge` for what is violated. -/
structure Compiles (h : Problem) (o : Poly) (charge : (Label → Bool) → Rat) : Prop where
  numeric : o.Numeric
  unreserved : o.Unreserved
  recorded : ∀ c ∈ h.ledger, c.poly.Numeric ∧ c.poly.Unreserved
  reserved : ∀ v ∈ h.slack, v.Reserved
  objective : h.objective.Numeric
  added : ∃ d : Poly, h.objective = o + d ∧
    ∀ v ∈ d.vars, (∃ c ∈ h.ledger, v ∈ c.poly.vars) ∨ v ∈ h.slack
  above : ∀ σ, o.numberAt σ + charge σ ≤ h.objective.numberAt σ
  reached : ∀ σ, (∀ c ∈ h.ledger, c.HoldsAt σ) →
    ∃ τ, AgreeOff h.slack σ τ ∧ h.objective.numberAt τ = o.numberAt σ

section Step

variable {h : Problem} {o : Poly} {charge : (Label → Bool) → Rat}

theorem compiles_ofPoly {p : Poly} (numeric : p.Numeric) (unreserved : p.Unreserved) :
    (ofPoly p).Compiles p fun _ => 0 where
  numeric := numeric
  unreserved := unreserved
  recorded _ inside := absurd inside List.not_mem_nil
  reserved _ inside := absurd inside List.not_mem_nil
  objective := numeric
  added := ⟨0, (add_zero p).symm, fun _ member => absurd member not_mem_vars_zero⟩
  above _ := le_of_eq (add_zero _)
  reached σ _ := ⟨σ, AgreeOff.refl _ σ, rfl⟩

-- A polynomial without reserved variables does not see the slack.
theorem Compiles.numberAt_agree (compiles : h.Compiles o charge) {p : Poly}
    (unreserved : p.Unreserved) {σ τ : Label → Bool} (agree : AgreeOff h.slack σ τ) :
    p.numberAt τ = p.numberAt σ :=
  Poly.numberAt_agree (fun v inside member =>
    unreserved v member (compiles.reserved v inside)) agree

theorem Compiles.addObjective (compiles : h.Compiles o charge) {p : Poly} (numeric : p.Numeric)
    (unreserved : p.Unreserved) : (h.addObjective p).Compiles (o + p) charge where
  numeric := compiles.numeric.add numeric
  unreserved v member := (vars_add member).elim (compiles.unreserved v) (unreserved v)
  recorded := compiles.recorded
  reserved := compiles.reserved
  objective := compiles.objective.add numeric
  added := by
    obtain ⟨d, split, inside⟩ := compiles.added
    refine ⟨d, ?_, inside⟩
    have moved : o + d + p = o + p + d := add_right_comm o d p
    rw [← moved, ← split]
    rfl
  above σ := by
    have bound := compiles.above σ
    have value : (h.addObjective p).objective.numberAt σ =
        h.objective.numberAt σ + p.numberAt σ := numberAt_add σ h.objective p
    rw [value, numberAt_add]
    linarith
  reached σ held := by
    obtain ⟨τ, agree, value⟩ := compiles.reached σ held
    refine ⟨τ, agree, ?_⟩
    have split : (h.addObjective p).objective.numberAt τ =
        h.objective.numberAt τ + p.numberAt τ := numberAt_add τ h.objective p
    rw [split, numberAt_add, value, compiles.numberAt_agree unreserved agree]

theorem Compiles.penalize (compiles : h.Compiles o charge) {c : Constraint} {q : Rat} {b : Bounds}
    (bounded : Penalty.Bounded c.poly b) (unreserved : c.poly.Unreserved) (positive : 0 < q) :
    (h.penalize c (h.penaltyOf c (Coeff.number q) b)).Compiles o
      (fun σ => charge σ + if c.HoldsAt σ then 0 else q) := by
  have labels := slack_penaltyOf h c (Coeff.number q) b
  have supply : ∀ v ∈ (h.penaltyOf c (Coeff.number q) b).slack, v.Reserved := fun v inside =>
    Slack.reserved_of_mem_labels (labels ▸ inside)
  have exact : (h.penaltyOf c (Coeff.number q) b).Exact (fun σ => c.HoldsAt σ) q :=
    Penalty.ofConstraint_exact bounded positive fun v inside member =>
      unreserved v member (supply v inside)
  have value (σ : Label → Bool) :
      (h.penalize c (h.penaltyOf c (Coeff.number q) b)).objective.numberAt σ =
        h.objective.numberAt σ + (h.penaltyOf c (Coeff.number q) b).poly.numberAt σ :=
    numberAt_add σ _ _
  constructor
  case numeric => exact compiles.numeric
  case unreserved => exact compiles.unreserved
  case objective => exact compiles.objective.add exact.numeric
  case recorded =>
    intro d inside
    rcases List.mem_append.mp inside with old | new
    · exact compiles.recorded d old
    · rw [List.mem_singleton.mp new]
      exact ⟨bounded.numeric, unreserved⟩
  case reserved =>
    intro v inside
    exact (List.mem_append.mp inside).elim (compiles.reserved v) (supply v)
  case added =>
    obtain ⟨d, split, inside⟩ := compiles.added
    refine ⟨d + (h.penaltyOf c (Coeff.number q) b).poly, ?_, ?_⟩
    · have moved := add_assoc o d (h.penaltyOf c (Coeff.number q) b).poly
      rw [← moved, ← split]
      rfl
    · exact Charged.penalize inside c (Coeff.number q) b
  case above =>
    intro σ
    have bound := compiles.above σ
    rw [value]
    by_cases held : c.HoldsAt σ
    · have nonneg := exact.nonneg σ
      rw [if_pos held]
      linarith
    · have charged := exact.charged σ held
      rw [if_neg held]
      linarith
  case reached =>
    intro σ held
    obtain ⟨τ, agree, old⟩ := compiles.reached σ fun d inside =>
      held d (List.mem_append_left _ inside)
    have still : c.HoldsAt τ := by
      have before := held c (List.mem_append_right _ List.mem_cons_self)
      rwa [Constraint.HoldsAt, compiles.numberAt_agree unreserved agree]
    obtain ⟨υ, later, zero⟩ := exact.attained τ still
    -- The new slack is not in the old objective, so the first choice is not spoiled.
    have kept : h.objective.numberAt υ = h.objective.numberAt τ := by
      refine Poly.numberAt_agree (fun v inside member => ?_) later
      exact Slack.not_taken_of_mem_labels (labels ▸ inside) (mem_vars.mpr (Or.inl member))
    refine ⟨υ, (agree.mono ?_).trans (later.mono ?_), ?_⟩
    · exact fun v => List.mem_append_left _
    · exact fun v => List.mem_append_right _
    · rw [value, zero, kept, old, add_zero]

theorem Compiles.advance (compiles : h.Compiles o charge) {s : Step} (admissible : s.Admissible) :
    (h.advance s).Compiles (o + s.piece) (fun σ => charge σ + s.chargeAt σ) ∧
      (h.advance s).ledger = h.ledger ++ s.constraint?.toList := by
  cases admissible with
  | @objective p numeric unreserved =>
    have next := compiles.addObjective numeric unreserved
    have same : (fun σ => charge σ + Step.chargeAt σ (.objective p)) = charge := by
      funext σ
      exact add_zero _
    rw [same]
    exact ⟨next, (List.append_nil _).symm⟩
  | @constraint c q given integral unreserved positive sound =>
    obtain ⟨b, bounds, bounded⟩ := boundsOf_bounded integral sound
    have accepted := constrain_eq_ok h (Coeff.number q) bounds
    have next := compiles.penalize bounded unreserved positive
    have nothing : o + 0 = o := add_zero o
    simp only [Problem.advance, apply_constraint, accepted, Step.piece, Step.chargeAt, nothing,
      Coeff.constantPart_number]
    exact ⟨next, rfl⟩

theorem Compiles.run (compiles : h.Compiles o charge) {steps : List Step}
    (admissible : ∀ s ∈ steps, s.Admissible) :
    (h.run steps).Compiles (combined o steps)
        (fun σ => charge σ + (steps.map (Step.chargeAt σ)).sum) ∧
      (h.run steps).ledger = h.ledger ++ steps.filterMap Step.constraint? := by
  induction steps generalizing h o charge with
  | nil =>
    have nothing : combined o [] = o := add_zero o
    simp only [nothing, List.map_nil, List.sum_nil, add_zero]
    exact ⟨compiles, (List.append_nil _).symm⟩
  | cons s steps ih =>
    obtain ⟨first, rest⟩ := List.forall_mem_cons.mp admissible
    obtain ⟨next, recorded⟩ := compiles.advance first
    obtain ⟨final, later⟩ := ih next rest
    have sum : combined (o + s.piece) steps = combined o (s :: steps) :=
      add_assoc o s.piece ((steps.map Step.piece).sum)
    simp only [sum, add_assoc] at final
    refine ⟨final, later.trans ?_⟩
    rw [recorded, List.append_assoc]
    cases s <;> rfl

end Step

end Problem

end PseudoBoolean
