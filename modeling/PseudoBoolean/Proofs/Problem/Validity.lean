import PseudoBoolean.Proofs.Poly.Parameters
import PseudoBoolean.Proofs.Problem.Ledger

set_option autoImplicit false

namespace PseudoBoolean

open Multilinear

theorem all_of_mapM {E ε : Type} {f : E → Except ε Bool} {l : List E} {bs : List Bool}
    (succeeded : l.mapM f = .ok bs) : bs.all id = true ↔ ∀ x ∈ l, f x = .ok true := by
  induction l generalizing bs with
  | nil =>
    cases succeeded
    simp
  | cons x l ih =>
    rw [List.mapM_cons] at succeeded
    obtain ⟨b, first, later⟩ := exists_of_bind_eq_ok succeeded
    obtain ⟨bs, rest, same⟩ := exists_of_bind_eq_ok later
    cases same
    rw [List.all_cons, Bool.and_eq_true, ih rest, List.forall_mem_cons, first, Except.ok.injEq]
    rfl

namespace Constraint

variable {a : Assignment} {c : Constraint} {failure : Failure}

def Settled (a : Assignment) (c : Constraint) : Prop :=
  ∃ x, c.poly.eval a = .ok x ∧ ∀ s, s ∉ x.symbols

theorem isSatisfied_isOk_iff : (∃ b, c.isSatisfied a = .ok b) ↔ c.Settled a := by
  constructor
  · rintro ⟨b, judged⟩
    obtain ⟨q, known, -⟩ := exists_of_bind_eq_ok judged
    obtain ⟨x, value, number⟩ := exists_of_bind_eq_ok known
    exact ⟨x, value, Coeff.toNumber_isOk_iff.mp ⟨q, number⟩⟩
  · rintro ⟨x, value, free⟩
    obtain ⟨q, number⟩ := Coeff.toNumber_isOk_iff.mpr free
    have known : c.poly.value a = .ok q := by
      rw [Poly.value, value]
      exact number
    rw [isSatisfied, known]
    exact ⟨_, rfl⟩

theorem isSatisfied_eq_error_iff (covered : a.Covers c.poly.vars) :
    c.isSatisfied a = .error failure ↔
      ∃ x s, c.poly.eval a = .ok x ∧ x.symbols.Least s ∧ failure = .unresolvedParameter s := by
  rw [isSatisfied, bind_pure_eq_error_iff, Poly.value, Poly.eval_eq_ok covered]
  change (valueAt a.truth c.poly).toNumber = _ ↔ _
  rw [Coeff.toNumber_eq_error_iff]
  simp

theorem settled_iff (numeric : c.poly.Numeric) : c.Settled a ↔ a.Covers c.poly.vars := by
  constructor
  · rintro ⟨x, value, -⟩
    exact Poly.eval_isOk_iff.mp ⟨x, value⟩
  · exact fun covered => isSatisfied_isOk_iff.mp ⟨_, isSatisfied_eq_ok numeric covered⟩

theorem exists_missing_of_isSatisfied (numeric : c.poly.Numeric)
    (failed : c.isSatisfied a = .error failure) :
    ∃ v ∈ c.poly.vars, v ∉ a.keys ∧ failure = .missingVariable v := by
  cases value : c.poly.eval a with
  | error other =>
    rw [isSatisfied, bind_pure_eq_error_iff, Poly.value, value] at failed
    cases failed
    exact Poly.exists_missing_of_eval value
  | ok x =>
    rw [isSatisfied_eq_ok numeric (Poly.eval_isOk_iff.mp ⟨x, value⟩)] at failed
    cases failed

end Constraint

namespace Problem

variable {h k : Problem} {a b : Assignment} {failure : Failure}

section Judgement

theorem isValid_isOk_iff : (∃ v, h.isValid a = .ok v) ↔ ∀ c ∈ h.records, c.Settled a := by
  simp only [← Constraint.isSatisfied_isOk_iff, ← mapM_isOk_iff]
  constructor
  · rintro ⟨v, judged⟩
    obtain ⟨verdicts, read, -⟩ := exists_of_bind_eq_ok judged
    exact ⟨verdicts, read⟩
  · rintro ⟨verdicts, read⟩
    rw [isValid, read]
    exact ⟨_, rfl⟩

theorem isValid_isError_iff :
    (∃ failure, h.isValid a = .error failure) ↔ ∃ c ∈ h.records, ¬ c.Settled a := by
  have total : (∃ failure, h.isValid a = .error failure) ↔ ¬ ∃ v, h.isValid a = .ok v := by
    cases h.isValid a <;> simp
  rw [total, isValid_isOk_iff]
  push Not
  rfl

-- In the order of the records, the first constraint without a verdict decides.
theorem isValid_eq_error_iff :
    h.isValid a = .error failure ↔ ∃ before c after, h.records = before ++ c :: after ∧
      (∀ d ∈ before, d.Settled a) ∧ c.isSatisfied a = .error failure := by
  simp only [← Constraint.isSatisfied_isOk_iff]
  exact bind_pure_eq_error_iff.trans mapM_eq_error_iff

theorem eq_true_iff_of_isValid {v : Bool} (judged : h.isValid a = .ok v) :
    v = true ↔ ∀ c ∈ h.records, c.isSatisfied a = .ok true := by
  obtain ⟨verdicts, read, same⟩ := exists_of_bind_eq_ok judged
  cases same
  exact all_of_mapM read

end Judgement

section Parameters

theorem isValid_eq_unresolved_iff (covered : ∀ c ∈ h.records, a.Covers c.poly.vars) :
    h.isValid a = .error failure ↔ ∃ before c after, h.records = before ++ c :: after ∧
      (∀ d ∈ before, d.Settled a) ∧
      ∃ x s, c.poly.eval a = .ok x ∧ x.symbols.Least s ∧ failure = .unresolvedParameter s := by
  rw [isValid_eq_error_iff]
  refine exists_congr fun before => exists_congr fun c => exists_congr fun after =>
    and_congr_right fun listed => and_congr_right fun _ => ?_
  have stated : c ∈ h.records := by
    rw [listed]
    exact List.mem_append_right before List.mem_cons_self
  exact Constraint.isSatisfied_eq_error_iff (covered c stated)

-- The other labels of the assignment can be kept.
theorem exists_unresolved_iff (covered : ∀ c ∈ h.records, a.Covers c.poly.vars) :
    (∃ b : Assignment, b.keys = a.keys ∧ ∃ s, h.isValid b = .error (.unresolvedParameter s)) ↔
      ∃ c ∈ h.records, ∃ s, s ∈ c.poly.symbols := by
  constructor
  · rintro ⟨b, keys, s, failed⟩
    by_contra free
    push Not at free
    obtain ⟨c, stated, unsettled⟩ := isValid_isError_iff.mp ⟨_, failed⟩
    have numeric := Poly.numeric_iff_symbols.mpr (free c stated)
    refine unsettled ((Constraint.settled_iff numeric).mpr fun v member => ?_)
    rw [keys]
    exact covered c stated v member
  · rintro ⟨c, stated, s, held⟩
    obtain ⟨σ, left⟩ := Poly.exists_valueAt_symbol held
    let b := Assignment.ofTruth a.keys σ
    have keys : b.keys = a.keys := Assignment.keys_ofTruth a.keys σ
    have covered' : ∀ c ∈ h.records, b.Covers c.poly.vars := fun d listed v member =>
      keys.symm ▸ covered d listed v member
    have unsettled : ¬ c.Settled b := by
      rintro ⟨x, value, free⟩
      rw [Poly.eval_ofTruth (covered c stated), Except.ok.injEq] at value
      exact free s (value ▸ left)
    obtain ⟨failure, failed⟩ := isValid_isError_iff.mpr ⟨c, stated, unsettled⟩
    obtain ⟨-, -, -, -, -, -, t, -, -, rfl⟩ := (isValid_eq_unresolved_iff covered').mp failed
    exact ⟨b, keys, t, failed⟩

theorem isValid_parametric (h : Problem) (covered : ∀ c ∈ h.records, a.Covers c.poly.vars) :
    (∀ failure, h.isValid a = .error failure ↔
        ∃ before c after, h.records = before ++ c :: after ∧ (∀ d ∈ before, d.Settled a) ∧
          ∃ x s, c.poly.eval a = .ok x ∧ x.symbols.Least s ∧ failure = .unresolvedParameter s) ∧
      ((∃ v, h.isValid a = .ok v) ↔ ∀ c ∈ h.records, c.Settled a) ∧
      ((∃ c ∈ h.records, ∃ s, s ∈ c.poly.symbols) ↔
        ∃ b : Assignment, b.keys = a.keys ∧
          ∃ s, h.isValid b = .error (.unresolvedParameter s)) := by
  refine ⟨fun failure => ?reported, ?judged, ?somewhere⟩
  case reported => exact isValid_eq_unresolved_iff covered
  case judged => exact isValid_isOk_iff
  case somewhere => exact (exists_unresolved_iff covered).symm

-- The lesser parameter vanishes with its variable, so the other one is reported.
theorem isValid_parametric_remaining :
    let x (n : Nat) := Poly.label (.index n)
    let c : Constraint :=
      ⟨(x 0).scale (Coeff.symbol ⟨"lam"⟩) + (x 1).scale (Coeff.symbol ⟨"mu"⟩), .atMost⟩
    let h := (ofPoly 0).run [.constraint c 1 (some ⟨0, 1⟩), .constraint ⟨x 0, .equal⟩ 1 none]
    let a : Assignment := SortedMap.ofList [(.index 0, false), (.index 1, true)]
    (∀ c ∈ h.records, a.Covers c.poly.vars) ∧
      h.isValid a = .error (.unresolvedParameter ⟨"mu"⟩) := by
  intro x c h a
  have listed : h.records = [⟨x 0, .equal⟩, c] := by decide +kernel
  have covered : ∀ c ∈ h.records, a.Covers c.poly.vars := by decide +kernel
  have value : c.poly.eval a = .ok (Coeff.symbol ⟨"mu"⟩) := by decide +kernel
  have only : (Coeff.symbol ⟨"mu"⟩).symbols.toList = [⟨"mu"⟩] := by decide +kernel
  have settled : Constraint.Settled a ⟨x 0, .equal⟩ :=
    (Constraint.settled_iff (by decide +kernel)).mpr (by decide +kernel)
  obtain ⟨reported, -, -⟩ := isValid_parametric h covered
  refine ⟨covered, (reported _).mpr ⟨[⟨x 0, .equal⟩], c, [], listed, ?_, _, _, value, ?_, rfl⟩⟩
  · exact List.forall_mem_singleton.mpr settled
  · exact SortedSet.least_of_toList only

-- At zero the coefficient of `lam * x` does not count, and `lam * x = 0` is found to hold.
theorem isValid_parametric_judged :
    let c : Constraint := ⟨(Poly.label (.name "x")).scale (Coeff.symbol ⟨"lam"⟩), .equal⟩
    let h := (ofPoly 0).run [.constraint c 1 (some ⟨0, 1⟩)]
    let a : Assignment := SortedMap.ofList [(.name "x", false)]
    c ∈ h.records ∧ (⟨"lam"⟩ : Symbol) ∈ c.poly.symbols ∧
      (∀ c ∈ h.records, a.Covers c.poly.vars) ∧ h.isValid a = .ok true := by
  decide +kernel

end Parameters

section History

inductive Entry where
  | states (c : Constraint)
  | resolves (s : Symbol) (q : Rat)

def Entry.enter (l : List Constraint) : Entry → List Constraint
  | .states c => l ++ [c]
  | .resolves s q => l.map fun c => c.resolve s q

-- Of the bounds it only counts whether they are given, and only where there are parameters.
def Step.entry? : Step → Option Entry
  | .objective _ => none
  | .constraint c _ given =>
    if given.isNone ∧ ¬ c.poly.Numeric then none else some (.states c)
  | .gate target g _ => some (.states ⟨target - g.toPoly, .equal⟩)
  | .resolve s q => some (.resolves s q)

theorem entered_constraint (h : Problem) (c : Constraint) (strength : Coeff)
    (given : Option Bounds) : h.entered (.constraint c strength given) =
      if given.isNone ∧ ¬ c.poly.Numeric then [] else [c] := by
  have fails : (∃ failure, (h.constrain c strength given).1 = .error failure) ↔
      given.isNone ∧ ¬ c.poly.Numeric := by
    simp [constrain_eq_error_iff, Poly.numeric_iff_symbols]
  rw [entered, apply_constraint]
  cases outcome : (h.constrain c strength given).1 with
  | error failure => rw [if_pos (fails.mp ⟨failure, outcome⟩)]
  | ok warnings =>
    have accepted : ¬ (given.isNone ∧ ¬ c.poly.Numeric) := by
      rw [← fails]
      rintro ⟨failure, failed⟩
      cases outcome.symm.trans failed
    rw [if_neg accepted]
    rfl

theorem ledger_advance_entry (h : Problem) (step : Step) :
    (h.advance step).ledger = step.entry?.toList.foldl Entry.enter h.ledger := by
  rw [ledger_advance]
  cases step with
  | objective p =>
    have kept : Step.carry (.objective p) = id := rfl
    rw [kept, List.map_id]
    exact List.append_nil h.ledger
  | constraint c strength given =>
    have kept : Step.carry (.constraint c strength given) = id := rfl
    rw [kept, List.map_id, entered_constraint, Step.entry?]
    by_cases failing : given.isNone ∧ ¬ c.poly.Numeric
    · rw [if_pos failing, if_pos failing]
      exact List.append_nil h.ledger
    · rw [if_neg failing, if_neg failing]
      rfl
  | gate target g strength =>
    have kept : Step.carry (.gate target g strength) = id := rfl
    have bounded := entered_constraint h ⟨target - g.toPoly, .equal⟩ strength (some ⟨-1, 1⟩)
    rw [kept, List.map_id]
    exact congrArg (h.ledger ++ ·) bounded
  | resolve s q => exact List.append_nil _

theorem ledger_run_entries (h : Problem) (steps : List Step) :
    (h.run steps).ledger = (steps.filterMap Step.entry?).foldl Entry.enter h.ledger := by
  induction steps generalizing h with
  | nil => rfl
  | cons step rest ih =>
    have tail : h.run (step :: rest) = (h.advance step).run rest := rfl
    rw [tail, ih, ledger_advance_entry, List.filterMap_cons]
    cases step.entry? <;> rfl

theorem records_eq (h : Problem) :
    h.records = Relation.all.flatMap fun r => (h.constraintsOf r).map fun p => ⟨p, r⟩ := by
  have group (r : Relation) : (h.ledger.filter (·.relation = r)) =
      (h.constraintsOf r).map fun p => ⟨p, r⟩ := by
    have each : ∀ c ∈ h.ledger.filter (·.relation = r), (⟨c.poly, r⟩ : Constraint) = c := by
      intro c kept
      rw [← of_decide_eq_true (List.mem_filter.mp kept).2]
    rw [constraintsOf, List.map_map]
    exact ((List.map_congr_left each).trans (List.map_id' _)).symm
  simp only [records, group]

theorem isValid_of_constraintsOf (same : ∀ r, k.constraintsOf r = h.constraintsOf r)
    (a : Assignment) : k.isValid a = h.isValid a := by
  have records : k.records = h.records := by
    simp only [records_eq, same]
  rw [isValid, records, isValid]

/-- Only the constraints count, not the objectives, strengths and bounds of the calls. -/
theorem isValid_exact (p : Poly) (steps : List Step)
    (numeric : ∀ c ∈ ((ofPoly p).run steps).records, c.poly.Numeric) (a : Assignment) :
    let h := (ofPoly p).run steps
    ((∃ failure, h.isValid a = .error failure) ↔ ∃ c ∈ h.records, ∃ v ∈ c.poly.vars, v ∉ a.keys) ∧
      (∀ failure, h.isValid a = .error failure →
        ∃ c ∈ h.records, ∃ v ∈ c.poly.vars, v ∉ a.keys ∧ failure = .missingVariable v) ∧
      (∀ v, h.isValid a = .ok v → (v = true ↔ ∀ c ∈ h.records, c.isSatisfied a = .ok true)) ∧
      (∀ q others, (∀ r, ((ofPoly q).run others).constraintsOf r = h.constraintsOf r) →
        ((ofPoly q).run others).isValid a = h.isValid a) ∧
      (∀ q others, others.filterMap Step.entry? = steps.filterMap Step.entry? →
        ∀ r, ((ofPoly q).run others).constraintsOf r = h.constraintsOf r) ∧
      ∀ b : Assignment, (∀ c ∈ h.records, ∀ v ∈ c.poly.vars, b.get? v = a.get? v) →
        h.isValid b = h.isValid a := by
  intro h
  refine ⟨?refused, ?missing, ?judged, ?constraints, ?histories, ?labels⟩
  case refused =>
    rw [isValid_isError_iff]
    refine exists_congr fun c => and_congr_right fun stated => ?_
    rw [Constraint.settled_iff (numeric c stated), Assignment.Covers]
    push Not
    rfl
  case missing =>
    intro failure failed
    obtain ⟨before, c, after, listed, -, unjudged⟩ := isValid_eq_error_iff.mp failed
    have stated : c ∈ h.records := by
      rw [listed]
      exact List.mem_append_right before List.mem_cons_self
    exact ⟨c, stated, Constraint.exists_missing_of_isSatisfied (numeric c stated) unjudged⟩
  case judged => exact fun v judged => eq_true_iff_of_isValid judged
  case constraints => exact fun q others same => isValid_of_constraintsOf same a
  case histories =>
    intro q others same r
    have ledger : ((ofPoly q).run others).ledger = h.ledger := by
      rw [ledger_run_entries, same]
      exact (ledger_run_entries (ofPoly p) steps).symm
    rw [constraintsOf, ledger, constraintsOf]
  case labels => exact fun b same => isValid_congr fun c stated => same c (mem_records.mpr stated)

-- The equality that comes first in the records fails, and yet the missing label is reported.
theorem isValid_exact_violated :
    let x (n : Nat) := Poly.label (.index n)
    let steps : List Step :=
      [.constraint ⟨x 0 + x 1 - 1, .atMost⟩ 1 none, .constraint ⟨x 0 - x 2, .equal⟩ 1 none]
    let h := (ofPoly 0).run steps
    let a : Assignment := SortedMap.ofList [(.index 0, true), (.index 2, false)]
    (∀ c ∈ h.records, c.poly.Numeric) ∧ h.records[0]?.map (·.isSatisfied a) = some (.ok false) ∧
      h.slack = [Slack.name 0] ∧ h.isValid a = .error (.missingVariable (.index 1)) := by
  intro x steps h a
  have numeric : ∀ c ∈ h.records, c.poly.Numeric := by decide +kernel
  obtain ⟨refused, missing, -⟩ := isValid_exact 0 steps numeric a
  have lacking : ∃ c ∈ h.records, ∃ v ∈ c.poly.vars, v ∉ a.keys := by decide +kernel
  obtain ⟨failure, failed⟩ := refused.mpr lacking
  obtain ⟨c, stated, v, used, absent, rfl⟩ := missing failure failed
  have only : ∀ c ∈ h.records, ∀ v ∈ c.poly.vars.toList, v ∉ a.keys → v = .index 1 := by
    decide +kernel
  rw [only c stated v used absent] at failed
  exact ⟨numeric, by decide +kernel, by decide +kernel, failed⟩

end History

end Problem

end PseudoBoolean
