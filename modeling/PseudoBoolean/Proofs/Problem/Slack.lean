import PseudoBoolean.Proofs.Penalty

set_option autoImplicit false

namespace PseudoBoolean.Problem

open Multilinear Penalty

theorem mem_vars {h : Problem} {v : Label} :
    v ∈ h.vars ↔ v ∈ h.objective.vars ∨ (∃ c ∈ h.ledger, v ∈ c.poly.vars) ∨ v ∈ h.slack := by
  simp only [vars, SortedSet.mem_union, SortedSet.mem_unions, SortedSet.mem_ofList]
  refine or_congr_right (or_congr_left ?_)
  constructor
  · rintro ⟨s, member, inside⟩
    obtain ⟨c, recorded, rfl⟩ := List.mem_map.mp member
    exact ⟨c, recorded, inside⟩
  · rintro ⟨c, recorded, inside⟩
    exact ⟨c.poly.vars, List.mem_map_of_mem recorded, inside⟩

def penaltyOf (h : Problem) (c : Constraint) (strength : Coeff) (b : Bounds) : Penalty :=
  Penalty.ofConstraint c strength b h.vars h.slack.length

theorem slack_penaltyOf (h : Problem) (c : Constraint) (strength : Coeff) (b : Bounds) :
    (h.penaltyOf c strength b).slack =
      Slack.labels h.vars h.slack.length (slackCount c.relation b) :=
  slack_ofConstraint c strength b

variable {h h' : Problem} {c : Constraint} {strength : Coeff} {given : Option Bounds}
  {warnings : List Warning}

theorem constrain_eq_ok (h : Problem) (strength : Coeff) {b : Bounds}
    (bounds : boundsOf c.poly given = .ok b) :
    h.constrain c strength given =
      (.ok (h.penaltyOf c strength b).warnings, h.penalize c (h.penaltyOf c strength b)) := by
  rw [constrain, Call.constrain, bounds]
  rfl

-- The bounds are asked for before anything changes.
theorem constrain_eq_error (h : Problem) (strength : Coeff) {failure : Failure}
    (refused : boundsOf c.poly given = .error failure) :
    h.constrain c strength given = (.error failure, h) := by
  rw [constrain, Call.constrain, refused]
  rfl

theorem boundsOf_numeric {g : Poly} (numeric : g.Numeric) :
    boundsOf g none = .ok g.constantParts.coefficientBounds := by
  rw [boundsOf, Poly.bounds_numeric numeric]
  rfl

theorem exists_bounds (accepted : h.constrain c strength given = (.ok warnings, h')) :
    ∃ b, boundsOf c.poly given = .ok b ∧ h' = h.penalize c (h.penaltyOf c strength b) := by
  cases bounds : boundsOf c.poly given with
  | error failure =>
    rw [constrain_eq_error h strength bounds] at accepted
    cases accepted
  | ok b =>
    rw [constrain_eq_ok h strength bounds] at accepted
    cases accepted
    exact ⟨b, rfl, rfl⟩

def Charged (h : Problem) (d : Poly) : Prop :=
  ∀ v ∈ d.vars, (∃ c ∈ h.ledger, v ∈ c.poly.vars) ∨ v ∈ h.slack

variable {d o : Poly}

theorem Charged.penalize (charged : h.Charged d) (c : Constraint) (strength : Coeff) (b : Bounds) :
    (h.penalize c (h.penaltyOf c strength b)).Charged (d + (h.penaltyOf c strength b).poly) := by
  intro v member
  rcases vars_add member with old | new
  · refine (charged v old).imp ?_ (List.mem_append_left _)
    intro known
    obtain ⟨e, stated, used⟩ := known
    exact ⟨e, List.mem_append_left _ stated, used⟩
  · refine (vars_ofConstraint new).imp ?_ (List.mem_append_right _)
    exact fun used => ⟨c, List.mem_append_right _ List.mem_cons_self, used⟩

-- A variable of `o` cancels only against one of `d`, and the problem has those anyway.
theorem Charged.mem_vars (charged : h.Charged d) (split : h.objective = o + d) {v : Label} :
    v ∈ h.vars ↔ v ∈ o.vars ∨ (∃ c ∈ h.ledger, v ∈ c.poly.vars) ∨ v ∈ h.slack := by
  rw [Problem.mem_vars, split]
  constructor
  · intro member
    rcases member with used | other
    · exact (vars_add used).imp id (charged v)
    · exact Or.inr other
  · intro member
    by_cases penalized : v ∈ d.vars
    · exact Or.inr (charged v penalized)
    · exact member.imp (fun used => vars_add_of_left used penalized) id

/-- The new slack avoids the constraint exactly when no free name among the first of that many is
used there. -/
theorem constrain_slack (accepted : h.constrain c strength given = (.ok warnings, h')) :
    ∃ b added, boundsOf c.poly given = .ok b ∧ h'.slack = h.slack ++ added ∧
      added.length = slackCount c.relation b ∧ added.Nodup ∧
      (∀ v ∈ added, v ∉ h.objective.vars ∧ (∀ d ∈ h.ledger, v ∉ d.poly.vars) ∧ v ∉ h.slack) ∧
      ((∀ v ∈ added, v ∉ c.poly.vars) ↔
        ∀ n, Slack.name n ∈ c.poly.vars → Slack.Free h.vars h.slack.length n →
          added.length ≤ Nat.count (Slack.Free h.vars h.slack.length) n) := by
  obtain ⟨b, bounds, rfl⟩ := exists_bounds accepted
  have labels := slack_penaltyOf h c strength b
  have length : (h.penaltyOf c strength b).slack.length = slackCount c.relation b := by
    rw [labels, Slack.length_labels]
  refine ⟨b, (h.penaltyOf c strength b).slack, bounds, rfl, length, ?_, ?_, ?_⟩
  · rw [labels]
    exact Slack.nodup_labels _ _ _
  · intro v inside
    rw [labels] at inside
    have outside := Slack.not_taken_of_mem_labels inside
    rw [mem_vars, not_or, not_or] at outside
    obtain ⟨objective, ledger, slack⟩ := outside
    exact ⟨objective, fun d recorded member => ledger ⟨d, recorded, member⟩, slack⟩
  · rw [length, labels]
    constructor
    · intro avoids n used free
      by_cases few : Nat.count (Slack.Free h.vars h.slack.length) n < slackCount c.relation b
      · exact absurd used (avoids _ (Slack.mem_labels_iff.mpr ⟨n, rfl, free, few⟩))
      · exact Nat.le_of_not_lt few
    · intro late v inside used
      obtain ⟨n, rfl, free, few⟩ := Slack.mem_labels_iff.mp inside
      exact absurd (late n used free) (Nat.not_le_of_lt few)

-- For `x + y - 1 ≤ 0` one label is enough, and it is neither `x` nor `y`.
theorem constrain_slack_exclusive :
    let c : Constraint := ⟨Poly.label (.name "x") + Poly.label (.name "y") - 1, .atMost⟩
    ∃ h' warnings added, (ofPoly 0).constrain c 1 none = (.ok warnings, h') ∧
      h'.slack = [] ++ added ∧ added.length = 1 ∧ ∀ v ∈ added, v ∉ c.poly.vars := by
  intro c
  have bounds : boundsOf c.poly none = .ok ⟨-1, 1⟩ := by decide +kernel
  have listed : c.poly.vars.toList = [.name "x", .name "y"] := by decide +kernel
  have unused (n : Nat) : Slack.name n ∉ c.poly.vars := by
    intro used
    have either : Slack.name n ∈ [Label.name "x", Label.name "y"] := listed ▸ used
    simp only [Slack.name, List.mem_cons, Label.name.injEq, List.not_mem_nil, or_false] at either
    have long : 3 ≤ ("__s" ++ n.repr).length := by
      rw [String.length_append]
      exact Nat.le_add_right 3 _
    rcases either with same | same
    · exact absurd (same ▸ long) (by decide)
    · exact absurd (same ▸ long) (by decide)
  obtain ⟨b, added, found, slack, length, -, -, avoids⟩ :=
    constrain_slack (constrain_eq_ok (ofPoly 0) 1 bounds)
  rw [bounds] at found
  cases found
  exact ⟨_, _, added, constrain_eq_ok (ofPoly 0) 1 bounds, slack, length,
    avoids.mpr fun n used => absurd used (unused n)⟩

-- For `x + y - 1 ≤ 0` with `y` named as the first slack variable that variable is taken again.
theorem constrain_slack_collides :
    ∃ c h' warnings, (ofPoly 0).constrain c 1 none = (.ok warnings, h') ∧
      ∃ v ∈ h'.slack, v ∉ (ofPoly 0).slack ∧ v ∈ c.poly.vars := by
  have bounds : boundsOf (Poly.label (.name "x") + Poly.label (Slack.name 0) - 1) none =
      .ok ⟨-1, 1⟩ := by decide +kernel
  refine ⟨⟨_, .atMost⟩, _, _, constrain_eq_ok (ofPoly 0) 1 bounds, Slack.name 0, ?_,
    List.not_mem_nil, ?_⟩
  · decide +kernel
  · decide +kernel

end PseudoBoolean.Problem
