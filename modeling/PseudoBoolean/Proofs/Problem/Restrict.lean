import PseudoBoolean.Proofs.Problem.Models
import PseudoBoolean.Proofs.Qubo

set_option autoImplicit false

namespace PseudoBoolean.Problem

open Multilinear Quadratization

variable {h : Problem} {a : Assignment}

theorem keys_restrict (covers : a.Covers h.vars) : (h.restrict a).keys = h.vars :=
  Assignment.keys_filterKeys covers

theorem truth_restrict {v : Label} (member : v ∈ h.vars) :
    (h.restrict a).truth v = a.truth v :=
  Assignment.truth_filterKeys (decide_eq_true member)

-- The constraints are about variables of the problem, also those that the objective has lost.
theorem isValid_restrict (h : Problem) (a : Assignment) :
    h.isValid (h.restrict a) = h.isValid a := by
  apply isValid_congr
  intro c stated v member
  have used : v ∈ h.vars := mem_vars.mpr (Or.inr (Or.inl ⟨c, stated, member⟩))
  exact SortedMap.get_filterKeys (decide_eq_true used)

theorem value_restrict (numeric : h.objective.Numeric) (covers : a.Covers h.vars) :
    h.value (h.restrict a) = .ok (h.objective.numberAt (h.restrict a).truth) := by
  refine Poly.value_eq_ok numeric fun v member => ?_
  rw [keys_restrict covers]
  exact mem_vars.mpr (Or.inl member)

theorem isValid_restrict_ne_missing (covers : a.Covers h.vars) (v : Label) :
    h.isValid (h.restrict a) ≠ .error (.missingVariable v) := by
  rw [isValid_restrict]
  refine isValid_ne_missing (fun c stated w member => ?_) v
  exact covers w (mem_vars.mpr (Or.inr (Or.inl ⟨c, stated, member⟩)))

structure Restores (h : Problem) (q : Qubo) (bits : List Bool) (a : Assignment) : Prop where
  keys : (h.restrict a).keys = h.vars
  added : ∀ c ∈ q.ancillas, c.label ∉ h.vars
  value : ∃ v, h.value (h.restrict a) = .ok v
  judged : ∀ v, h.isValid (h.restrict a) ≠ .error (.missingVariable v)
  same : (∀ c ∈ q.ancillas, c.label ∈ q.indexing.labels →
      a.truth c.label = derived (h.restrict a).truth q.ancillas c.label) →
    q.value bits = h.value (h.restrict a)

theorem toQubo_eq_ofQuadratic (numeric : h.objective.Numeric) (options : Options) :
    h.toQubo options = .ok (Qubo.ofQuadratic
      (h.objective.constantParts.quadratize options h.vars).poly
      (h.objective.constantParts.quadratize options h.vars).quadratic
      (h.objective.constantParts.quadratize options h.vars).ancillas h.vars) := by
  rw [toQubo_eq_ok numeric, NumericPoly.toQubo_eq]

theorem toQubo_restores (numeric : h.objective.Numeric) (options : Options) :
    ∃ q, h.toQubo options = .ok q ∧ ∀ bits : List Bool, bits.length = q.size →
      ∃ a, q.assignment bits = .ok a ∧ h.Restores q bits a := by
  refine ⟨_, toQubo_eq_ofQuadratic numeric options, fun bits length => ⟨_, if_pos length, ?_⟩⟩
  let p := h.objective.constantParts
  let r := p.quadratize options h.vars
  let x : Indexing := ⟨h.vars ∪ r.poly.vars⟩
  have fits : bits.length = x.size := length
  have labels : (x.assign bits).keys = x.labels := by
    rw [Indexing.assign_eq fits, Assignment.keys_ofTruth]
  have covers : (x.assign bits).Covers h.vars := fun v member => by
    rw [labels]
    exact SortedSet.mem_union.mpr (Or.inl member)
  have value := value_restrict numeric covers
  constructor
  case keys => exact keys_restrict covers
  case value => exact ⟨_, value⟩
  case judged => exact isValid_restrict_ne_missing covers
  case added =>
    intro c inside known
    exact label_not_mem_vars p options h.vars (List.mem_map_of_mem inside)
      (SortedSet.mem_union.mpr (Or.inl known))
  case same =>
    intro settled
    have restricted : ∀ v ∈ p.vars,
        (x.assign bits).truth v = (h.restrict (x.assign bits)).truth v := by
      intro v member
      rw [Poly.vars_constantParts numeric] at member
      exact (truth_restrict (mem_vars.mpr (Or.inl member))).symm
    have derived : valueAt (x.assign bits).truth r.poly =
        valueAt (h.restrict (x.assign bits)).truth p := by
      refine valueAt_of_derived p options h.vars restricted fun v new left => ?_
      obtain ⟨c, inside, rfl⟩ := List.mem_map.mp new
      exact settled c inside (SortedSet.mem_union.mpr (Or.inr left))
    refine (NumericPoly.value_ofQuadratic r.poly r.quadratic r.ancillas h.vars fits).trans ?_
    exact (congrArg Except.ok derived).trans value.symm

-- Without a penalty two variables get lost, and a third one stands in a constraint only.
theorem toQubo_restores_unpenalized :
    let x (i : Nat) : Poly := Poly.label (.index i)
    let h := (ofPoly (x 0 * x 1 * x 2)).run [.constraint ⟨-x 3, .atMost⟩ 1 none]
    let bits := [true, true, true, false, true]
    ∃ q a, h.toQubo ⟨some 0, "_q"⟩ = .ok q ∧ q.tensor.vars.toList = [2, 4] ∧
      q.assignment bits = .ok a ∧
      (h.restrict a).keys.toList = [.index 0, .index 1, .index 2, .index 3] ∧
      q.value bits = h.value (h.restrict a) ∧ h.isValid (h.restrict a) = .ok true := by
  intro x h bits
  have numeric : h.objective.Numeric := by decide +kernel
  let q := h.objective.constantParts.toQubo ⟨some 0, "_q"⟩ h.vars
  have known : h.toQubo ⟨some 0, "_q"⟩ = .ok q := toQubo_eq_ok numeric _
  obtain ⟨q', built, restores⟩ := toQubo_restores numeric ⟨some 0, "_q"⟩
  obtain rfl : q = q' := Except.ok.inj (known.symm.trans built)
  obtain ⟨a, read, restored⟩ := restores bits (by decide +kernel)
  have assigned : q.assignment bits = .ok (q.indexing.assign bits) := by decide +kernel
  obtain rfl : q.indexing.assign bits = a := Except.ok.inj (assigned.symm.trans read)
  refine ⟨q, _, built, by decide +kernel, read, ?_, restored.same (by decide +kernel),
    by decide +kernel⟩
  rw [restored.keys]
  decide +kernel

end PseudoBoolean.Problem
