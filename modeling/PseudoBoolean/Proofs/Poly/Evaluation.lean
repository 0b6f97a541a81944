import PseudoBoolean.Problem
import PseudoBoolean.Proofs.Poly.Numeric

set_option autoImplicit false

namespace PseudoBoolean

open Multilinear

def Assignment.Covers (a : Assignment) (s : SortedSet Label) : Prop :=
  ∀ v ∈ s, v ∈ a.keys

instance (a : Assignment) : DecidablePred a.Covers := fun s =>
  inferInstanceAs (Decidable (∀ v ∈ s.toList, v ∈ a.keys))

theorem exists_of_bind_eq_ok {E F ε : Type} {x : Except ε E} {f : E → Except ε F} {y : F}
    (succeeded : (x >>= f) = .ok y) : ∃ a, x = .ok a ∧ f a = .ok y := by
  cases x with
  | error e => cases succeeded
  | ok a => exact ⟨a, rfl, succeeded⟩

theorem bind_pure_eq_error_iff {E F ε : Type} {x : Except ε E} {f : E → F} {e : ε} :
    (x >>= fun a => pure (f a)) = .error e ↔ x = .error e := by
  cases x with
  | error other => simp [bind, Except.bind]
  | ok a => simp [bind, Except.bind, pure, Except.pure]

theorem mapM_eq_ok {E F ε : Type} {f : E → Except ε F} {g : E → F} {l : List E}
    (each : ∀ x ∈ l, f x = .ok (g x)) : l.mapM f = .ok (l.map g) := by
  induction l with
  | nil => rfl
  | cons x l ih =>
    obtain ⟨first, rest⟩ := List.forall_mem_cons.mp each
    rw [List.mapM_cons, first, ih rest]
    rfl

theorem mapM_congr {E F ε : Type} {f g : E → Except ε F} {l : List E}
    (same : ∀ x ∈ l, f x = g x) : l.mapM f = l.mapM g := by
  induction l with
  | nil => rfl
  | cons x l ih =>
    obtain ⟨first, rest⟩ := List.forall_mem_cons.mp same
    rw [List.mapM_cons, List.mapM_cons, first, ih rest]

theorem mapM_eq_error_iff {E F ε : Type} {f : E → Except ε F} {l : List E} {e : ε} :
    l.mapM f = .error e ↔ ∃ before x after, l = before ++ x :: after ∧
      (∀ y ∈ before, ∃ z, f y = .ok z) ∧ f x = .error e := by
  constructor
  · intro failed
    induction l with
    | nil => cases failed
    | cons x l ih =>
      rw [List.mapM_cons] at failed
      cases first : f x with
      | error other =>
        rw [first] at failed
        cases failed
        exact ⟨[], x, l, rfl, List.forall_mem_nil _, first⟩
      | ok y =>
        rw [first] at failed
        have rest : l.mapM f = .error e := bind_pure_eq_error_iff.mp failed
        obtain ⟨before, z, after, rfl, prior, last⟩ := ih rest
        exact ⟨x :: before, z, after, rfl, List.forall_mem_cons.mpr ⟨⟨y, first⟩, prior⟩, last⟩
  · rintro ⟨before, x, after, rfl, prior, last⟩
    induction before with
    | nil =>
      rw [List.nil_append, List.mapM_cons, last]
      rfl
    | cons y before ih =>
      obtain ⟨⟨z, first⟩, rest⟩ := List.forall_mem_cons.mp prior
      rw [List.cons_append, List.mapM_cons, first]
      exact bind_pure_eq_error_iff.mpr (ih rest)

theorem exists_mapM_error {E F ε : Type} {f : E → Except ε F} {l : List E} {e : ε}
    (failed : l.mapM f = .error e) : ∃ x ∈ l, f x = .error e := by
  obtain ⟨before, x, after, rfl, -, last⟩ := mapM_eq_error_iff.mp failed
  exact ⟨x, List.mem_append_right before List.mem_cons_self, last⟩

theorem exists_ok_of_mapM {E F ε : Type} {f : E → Except ε F} {l : List E} {ys : List F}
    (succeeded : l.mapM f = .ok ys) : ∀ x ∈ l, ∃ y, f x = .ok y := by
  induction l generalizing ys with
  | nil => exact List.forall_mem_nil _
  | cons x l ih =>
    rw [List.mapM_cons] at succeeded
    obtain ⟨y, first, later⟩ := exists_of_bind_eq_ok succeeded
    obtain ⟨zs, rest, -⟩ := exists_of_bind_eq_ok later
    exact List.forall_mem_cons.mpr ⟨⟨y, first⟩, ih rest⟩

theorem mapM_isOk_iff {E F ε : Type} {f : E → Except ε F} {l : List E} :
    (∃ ys, l.mapM f = .ok ys) ↔ ∀ x ∈ l, ∃ y, f x = .ok y := by
  constructor
  · rintro ⟨ys, succeeded⟩
    exact exists_ok_of_mapM succeeded
  · intro each
    cases result : l.mapM f with
    | ok ys => exact ⟨ys, rfl⟩
    | error e =>
      obtain ⟨x, inside, failed⟩ := exists_mapM_error result
      obtain ⟨y, known⟩ := each x inside
      cases known.symm.trans failed

variable {a b : Assignment}

theorem Assignment.value_eq_ok {v : Label} (covered : v ∈ a.keys) :
    a.value v = .ok (a.truth v) := by
  rw [Assignment.value, get_eq_truth covered]

theorem Assignment.value_isOk_iff {v : Label} : (∃ b, a.value v = .ok b) ↔ v ∈ a.keys := by
  constructor
  · intro read
    by_contra missing
    rw [Assignment.value, SortedMap.get_eq_none missing] at read
    obtain ⟨b, known⟩ := read
    cases known
  · exact fun covered => ⟨_, Assignment.value_eq_ok covered⟩

theorem Assignment.missing_of_value {v : Label} {failure : Failure}
    (failed : a.value v = .error failure) : v ∉ a.keys ∧ failure = .missingVariable v := by
  rw [Assignment.value] at failed
  split at failed
  next => cases failed
  next nothing =>
    cases failed
    refine ⟨fun covered => ?_, rfl⟩
    rw [get_eq_truth covered] at nothing
    cases nothing

theorem Monomial.eval_eq_ok {m : Monomial Label} (covered : a.Covers m) :
    m.eval a = .ok (m.holds a.truth) := by
  have values : m.toList.mapM a.value = .ok (m.toList.map a.truth) :=
    mapM_eq_ok fun v inside => Assignment.value_eq_ok (covered v inside)
  rw [Monomial.eval, values]
  simp [holds, List.all_map, bind, Except.bind, pure, Except.pure]

theorem Monomial.eval_isOk_iff {m : Monomial Label} : (∃ b, m.eval a = .ok b) ↔ a.Covers m := by
  constructor
  · rintro ⟨b, known⟩ v inside
    obtain ⟨values, read, -⟩ := exists_of_bind_eq_ok known
    exact Assignment.value_isOk_iff.mp (exists_ok_of_mapM read v inside)
  · exact fun covered => ⟨_, Monomial.eval_eq_ok covered⟩

theorem Monomial.exists_missing_of_eval {m : Monomial Label} {failure : Failure}
    (failed : m.eval a = .error failure) :
    ∃ v ∈ m, v ∉ a.keys ∧ failure = .missingVariable v := by
  rw [Monomial.eval, bind_pure_eq_error_iff] at failed
  obtain ⟨v, inside, unread⟩ := exists_mapM_error failed
  exact ⟨v, inside, Assignment.missing_of_value unread⟩

theorem Monomial.eval_congr {m : Monomial Label} (same : ∀ v ∈ m, a.get? v = b.get? v) :
    m.eval a = m.eval b := by
  have values : m.toList.mapM a.value = m.toList.mapM b.value := by
    apply mapM_congr
    intro v inside
    rw [Assignment.value, same v inside, Assignment.value]
  rw [Monomial.eval, values, Monomial.eval]

namespace Poly

variable {p : Poly}

theorem eval_eq_ok (covered : a.Covers p.vars) : p.eval a = .ok (valueAt a.truth p) := by
  have parts : (p.entries.mapM fun e => do return if ← e.1.eval a then e.2 else 0) =
      .ok (p.entries.map fun e => if e.1.holds a.truth then e.2 else 0) := by
    apply mapM_eq_ok
    intro e inside
    have each : a.Covers e.1 := fun v held => covered v (mem_vars.mpr ⟨e, inside, held⟩)
    rw [Monomial.eval_eq_ok each]
    rfl
  rw [eval, parts, valueAt, sum_map_filter]
  rfl

theorem eval_ofTruth {s : SortedSet Label} (inside : ∀ v ∈ p.vars, v ∈ s) (σ : Label → Bool) :
    p.eval (Assignment.ofTruth s σ) = .ok (valueAt σ p) := by
  have covered : (Assignment.ofTruth s σ).Covers p.vars := fun v member => by
    rw [Assignment.keys_ofTruth]
    exact inside v member
  rw [eval_eq_ok covered, valueAt_congr fun v member => Assignment.truth_ofTruth (inside v member)]

-- A variable without a value is never passed over, whatever the rest of its monomial says.
theorem eval_isOk_iff : (∃ x, p.eval a = .ok x) ↔ a.Covers p.vars := by
  constructor
  · rintro ⟨x, known⟩ v member
    obtain ⟨e, inside, held⟩ := mem_vars.mp member
    obtain ⟨parts, read, -⟩ := exists_of_bind_eq_ok known
    obtain ⟨part, counted⟩ := exists_ok_of_mapM read e inside
    obtain ⟨b, decided, -⟩ := exists_of_bind_eq_ok counted
    exact Monomial.eval_isOk_iff.mp ⟨b, decided⟩ v held
  · exact fun covered => ⟨_, eval_eq_ok covered⟩

theorem eval_eq_ok_iff {x : Coeff} :
    p.eval a = .ok x ↔ a.Covers p.vars ∧ valueAt a.truth p = x := by
  constructor
  · intro known
    have covered : a.Covers p.vars := eval_isOk_iff.mp ⟨x, known⟩
    exact ⟨covered, Except.ok.inj ((eval_eq_ok covered).symm.trans known)⟩
  · rintro ⟨covered, rfl⟩
    exact eval_eq_ok covered

theorem exists_missing_of_eval {failure : Failure} (failed : p.eval a = .error failure) :
    ∃ v ∈ p.vars, v ∉ a.keys ∧ failure = .missingVariable v := by
  rw [eval, bind_pure_eq_error_iff] at failed
  obtain ⟨e, inside, uncounted⟩ := exists_mapM_error failed
  rw [bind_pure_eq_error_iff] at uncounted
  obtain ⟨v, held, missing⟩ := Monomial.exists_missing_of_eval uncounted
  exact ⟨v, mem_vars.mpr ⟨e, inside, held⟩, missing⟩

theorem value_eq_ok (numeric : p.Numeric) (covered : a.Covers p.vars) :
    p.value a = .ok (numberAt a.truth p) := by
  rw [value, eval_eq_ok covered, valueAt_numeric numeric]
  exact Coeff.toNumber_number _

theorem value_ne_missing (covered : a.Covers p.vars) (v : Label) :
    p.value a ≠ .error (.missingVariable v) := by
  rw [value, eval_eq_ok covered]
  change (valueAt a.truth p).toNumber ≠ _
  rw [Coeff.toNumber]
  split <;> simp

theorem value_congr (same : ∀ v ∈ p.vars, a.get? v = b.get? v) : p.value a = p.value b := by
  have parts : (p.entries.mapM fun e => do return if ← e.1.eval a then e.2 else 0) =
      p.entries.mapM fun e => do return if ← e.1.eval b then e.2 else 0 := by
    apply mapM_congr
    intro e inside
    rw [Monomial.eval_congr fun v held => same v (mem_vars.mpr ⟨e, inside, held⟩)]
  rw [value, eval, parts, value, eval]

end Poly

def Constraint.HoldsAt (σ : Label → Bool) (c : Constraint) : Prop :=
  c.relation.holds (c.poly.numberAt σ) = true

instance (σ : Label → Bool) : DecidablePred (Constraint.HoldsAt σ) := fun c =>
  inferInstanceAs (Decidable (c.relation.holds (c.poly.numberAt σ) = true))

theorem Constraint.isSatisfied_eq_ok {c : Constraint} (numeric : c.poly.Numeric)
    (covered : a.Covers c.poly.vars) : c.isSatisfied a = .ok (decide (c.HoldsAt a.truth)) := by
  rw [isSatisfied, Poly.value_eq_ok numeric covered]
  change Except.ok (c.relation.holds _) = _
  rw [Except.ok.injEq, Bool.eq_iff_iff, decide_eq_true_iff]
  exact Iff.rfl

namespace Problem

theorem mem_records {h : Problem} {c : Constraint} : c ∈ h.records ↔ c ∈ h.ledger := by
  simp only [records, List.mem_flatMap, List.mem_filter, decide_eq_true_eq]
  constructor
  · rintro ⟨r, -, inside, -⟩
    exact inside
  · exact fun inside => ⟨c.relation, Relation.mem_all _, inside, rfl⟩

theorem isValid_eq_ok {h : Problem} (numeric : ∀ c ∈ h.ledger, c.poly.Numeric)
    (covered : ∀ c ∈ h.ledger, a.Covers c.poly.vars) :
    h.isValid a = .ok (decide (∀ c ∈ h.ledger, c.HoldsAt a.truth)) := by
  have verdicts : (h.records.mapM fun c => c.isSatisfied a) =
      .ok (h.records.map fun c => decide (c.HoldsAt a.truth)) := by
    apply mapM_eq_ok
    intro c inside
    have stated := mem_records.mp inside
    exact Constraint.isSatisfied_eq_ok (numeric c stated) (covered c stated)
  rw [isValid, verdicts]
  change Except.ok (List.all _ id) = _
  rw [Except.ok.injEq, Bool.eq_iff_iff]
  simp [List.all_map, mem_records]

theorem isValid_ne_missing {h : Problem} (covered : ∀ c ∈ h.ledger, a.Covers c.poly.vars)
    (v : Label) : h.isValid a ≠ .error (.missingVariable v) := by
  intro failed
  rw [isValid, bind_pure_eq_error_iff] at failed
  obtain ⟨c, inside, judged⟩ := exists_mapM_error failed
  rw [Constraint.isSatisfied, bind_pure_eq_error_iff] at judged
  exact Poly.value_ne_missing (covered c (mem_records.mp inside)) v judged

theorem isValid_congr {h : Problem}
    (same : ∀ c ∈ h.ledger, ∀ v ∈ c.poly.vars, a.get? v = b.get? v) :
    h.isValid a = h.isValid b := by
  have verdicts : (h.records.mapM fun c => c.isSatisfied a) =
      h.records.mapM fun c => c.isSatisfied b := by
    apply mapM_congr
    intro c inside
    rw [Constraint.isSatisfied, Poly.value_congr (same c (mem_records.mp inside)),
      Constraint.isSatisfied]
  rw [isValid, verdicts, isValid]

end Problem

end PseudoBoolean
