import PseudoBoolean.Proofs.Landscape.Exhaustive
import PseudoBoolean.Proofs.Problem.Models

set_option autoImplicit false

namespace PseudoBoolean

open Landscape

theorem NumericPoly.searches {p : NumericPoly} {extra s : SortedSet Label}
    {value : Assignment → Except Failure Rat} (labels : extra ∪ p.vars = s)
    (known : ∀ a : Assignment, a.keys = s → value a = .ok (Multilinear.valueAt a.truth p))
    (limit : Nat) : Searches ⟨s⟩ value limit (.ok (p.landscape extra)) := by
  subst labels
  exact ((p.represents_landscape extra).evaluates known).searches limit

/-- A search is refused exactly where there are more variables than the limit or a mask allows. -/
theorem Landscape.search_exhaustive (limit : Nat) :
    (∀ p : Poly, p.Numeric → Searches ⟨p.vars⟩ p.value limit p.landscape) ∧
      (∀ h : Problem, h.objective.Numeric → Searches ⟨h.vars⟩ h.value limit h.landscape) ∧
      (∀ q : Qubo, Searches q.indexing q.valueUnder limit (.ok q.landscape)) ∧
      ∀ m : Ising, Searches m.indexing m.valueUnder limit (.ok m.landscape) := by
  refine ⟨?_, ?_, fun q => q.evaluates.searches limit, fun m => m.evaluates.searches limit⟩
  · intro p numeric
    rw [Poly.landscape_eq_ok numeric]
    refine NumericPoly.searches (Poly.union_vars numeric) (fun a keys => ?_) limit
    exact Poly.value_eq_ok numeric fun v member => by rwa [keys]
  · intro h numeric
    rw [Problem.landscape_eq_ok numeric]
    refine NumericPoly.searches (Problem.union_vars numeric) (fun a keys => ?_) limit
    refine Poly.value_eq_ok numeric fun v member => ?_
    rw [keys]
    exact Problem.mem_vars.mpr (Or.inl member)

-- Two assignments reach a negative fraction.
theorem Landscape.search_exhaustive_tie :
    let x : Poly := Poly.label (.index 0)
    let y : Poly := Poly.label (.index 1)
    let p : Poly := FormalSum.scale (Coeff.number (1 / 2)) (x + y) - x * y - Poly.number (3 / 4)
    let neither : Assignment := SortedMap.ofList [(.index 0, false), (.index 1, false)]
    let both : Assignment := SortedMap.ofList [(.index 0, true), (.index 1, true)]
    Solutions.Exhaustive ⟨p.vars⟩ p.value ⟨-(3 / 4), [neither, both]⟩ ∧
      p.landscape.bind (·.solve standardLimit) = .ok ⟨-(3 / 4), neither⟩ ∧
      p.landscape.bind (·.countMinimizers standardLimit) = .ok 2 ∧
      p.landscape.bind (·.countMinimizers 1) = .error (.tooManyVariables 2 1) := by
  intro x y p neither both
  have numeric : p.Numeric := by decide +kernel
  obtain ⟨allowed, -⟩ := search_exhaustive standardLimit
  obtain ⟨blocked, -⟩ := search_exhaustive 1
  have size : Indexing.size ⟨p.vars⟩ = 2 := by decide +kernel
  obtain ⟨q, first, rest, exhaustive, all, one, count⟩ :=
    (allowed p numeric).answered (by rw [size]; decide)
  obtain ⟨-, -, refused⟩ := (blocked p numeric).refused (by rw [size]; decide)
  have found : p.landscape.bind (·.solveAll standardLimit) =
      .ok ⟨-(3 / 4), [neither, both]⟩ := by decide +kernel
  rw [found] at all
  cases all
  rw [size] at refused
  exact ⟨exhaustive, one, count, refused⟩

structure Landscape.SameAnswers (l m : Landscape) : Prop where
  all : ∀ limit, l.solveAll limit = m.solveAll limit
  first : ∀ limit, l.solve limit = m.solve limit
  count : ∀ limit, l.countMinimizers limit = m.countMinimizers limit

theorem Landscape.SameAnswers.of_eq {l m : Landscape} (same : l = m) : l.SameAnswers m := by
  subst same
  exact ⟨fun _ => rfl, fun _ => rfl, fun _ => rfl⟩

theorem NumericPoly.landscape_toQubo {p : NumericPoly} (small : p.degree ≤ 2)
    (options : Quadratization.Options) (extra : SortedSet Label) :
    (p.toQubo options extra).landscape = p.landscape extra := by
  rw [toQubo, dif_pos small, landscape_ofQuadratic]

theorem Landscape.quadratic_models_agree (options : Quadratization.Options) :
    (∀ p : Poly, p.Numeric → p.degree ≤ 2 →
      ∃ l q m, p.landscape = .ok l ∧ p.toQubo options = .ok q ∧ p.toIsing = .ok m ∧
        l.SameAnswers q.landscape ∧ l.SameAnswers m.landscape) ∧
      ∀ h : Problem, h.objective.Numeric → h.objective.degree ≤ 2 →
        ∃ l q, h.landscape = .ok l ∧ h.toQubo options = .ok q ∧ l.indexing = ⟨h.vars⟩ ∧
          l.SameAnswers q.landscape ∧ l.SameAnswers (Ising.ofQubo q).landscape := by
  constructor
  · intro p numeric small
    have model := NumericPoly.landscape_toQubo (Poly.degree_constantParts small) options ∅
    have spins : (Ising.ofQubo (Qubo.ofConstantParts p small)).landscape =
        p.constantParts.landscape ∅ := by
      rw [Ising.landscape_ofQubo]
      exact NumericPoly.landscape_ofQuadratic _ _ _ ∅
    exact ⟨_, _, _, Poly.landscape_eq_ok numeric, Poly.toQubo_eq_ok numeric options,
      Poly.toIsing_eq_ok numeric small, .of_eq model.symm, .of_eq spins.symm⟩
  · intro h numeric small
    have model := NumericPoly.landscape_toQubo (Poly.degree_constantParts small) options h.vars
    have spins := (Ising.landscape_ofQubo _).trans model
    have indexing : (h.objective.constantParts.landscape h.vars).indexing = ⟨h.vars⟩ :=
      congrArg Indexing.mk (Problem.union_vars numeric)
    exact ⟨_, _, Problem.landscape_eq_ok numeric, Problem.toQubo_eq_ok numeric options, indexing,
      .of_eq model.symm, .of_eq spins.symm⟩

-- One variable is left in the objective. The others stand only in constraints and in the slack.
theorem Landscape.quadratic_models_agree_unused :
    let x (i : Nat) : Poly := Poly.label (.index i)
    let h := (Problem.ofPoly (x 0)).run
      [.constraint ⟨-x 1, .atMost⟩ 1 none, .constraint ⟨x 0 + x 2 - 1, .atMost⟩ 0 none]
    h.objective = x 0 ∧ h.vars.toList = [.index 0, .index 1, .index 2, Slack.name 0] ∧
      ∃ l q, h.landscape = .ok l ∧ h.toQubo Quadratization.Options.standard = .ok q ∧
        l.countMinimizers standardLimit = .ok 8 ∧
        q.landscape.countMinimizers standardLimit = .ok 8 ∧
        (Ising.ofQubo q).landscape.countMinimizers standardLimit = .ok 8 := by
  intro x h
  obtain ⟨-, problems⟩ := quadratic_models_agree Quadratization.Options.standard
  obtain ⟨l, q, direct, built, -, model, spins⟩ :=
    problems h (by decide +kernel) (by decide +kernel)
  have found : h.landscape.bind (·.countMinimizers standardLimit) = .ok 8 := by decide +kernel
  rw [direct] at found
  refine ⟨by decide +kernel, by decide +kernel, l, q, direct, built, found, ?_, ?_⟩
  · exact (model.count _).symm.trans found
  · exact (spins.count _).symm.trans found

end PseudoBoolean
