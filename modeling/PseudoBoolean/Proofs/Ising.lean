import Mathlib.Data.List.GetD
import Mathlib.Tactic.Ring
import PseudoBoolean.Proofs.Multilinear.Unique
import PseudoBoolean.Proofs.Poly.Evaluation

set_option autoImplicit false

namespace PseudoBoolean

open Multilinear

namespace Spin

def timesHom (s : Spin) : Rat →+ Rat where
  toFun := s.times
  map_zero' := by cases s <;> simp [times]
  map_add' c d := by cases s <;> simp [times, add_comm]

def alignHom (s t : Spin) : Rat →+ Rat where
  toFun c := if s = t then c else -c
  map_zero' := by simp
  map_add' c d := by by_cases same : s = t <;> simp [same, add_comm]

end Spin

namespace Ising

theorem sum_fields (q : Qubo) (s : Nat → Spin) :
    ((ofQubo q).fields.entries.map fun e => (s e.1).times e.2).sum =
      (q.tensor.entries.map fun e => ((fieldsOf e).map fun f => (s f.1).times f.2).sum).sum :=
  FormalSum.fold_ofList_flatMap (fun i => (s i).timesHom) fieldsOf q.tensor.entries

theorem sum_couplings (q : Qubo) (s : Nat → Spin) :
    ((ofQubo q).couplings.entries.map fun e =>
        if s e.1.left = s e.1.right then e.2 else -e.2).sum =
      (q.tensor.entries.map fun e => ((couplingsOf e).map fun f =>
        if s f.1.left = s f.1.right then f.2 else -f.2).sum).sum :=
  FormalSum.fold_ofList_flatMap (fun c : Pair Nat => Spin.alignHom (s c.left) (s c.right))
    couplingsOf q.tensor.entries

-- A term of each of the three shapes becomes spin terms with the same sum.
theorem term_eq {e : Monomial Nat × Rat} (small : e.1.degree ≤ 2) (σ : Nat → Bool) :
    offsetOf e + ((fieldsOf e).map fun f => (Spin.ofBool (σ f.1)).times f.2).sum +
        ((couplingsOf e).map fun f =>
          if Spin.ofBool (σ f.1.left) = Spin.ofBool (σ f.1.right) then f.2 else -f.2).sum =
      if e.1.holds σ then e.2 else 0 := by
  obtain ⟨⟨labels, increasing⟩, c⟩ := e
  match labels with
  | [] => simp [offsetOf, fieldsOf, couplingsOf, Monomial.holds]
  | [i] =>
    cases held : σ i <;>
      simp [offsetOf, fieldsOf, couplingsOf, Monomial.holds, Spin.ofBool, Spin.times, held]
  | [i, j] =>
    cases first : σ i <;> cases second : σ j
    all_goals
      simp [offsetOf, fieldsOf, couplingsOf, Monomial.holds, Spin.ofBool, Spin.times, first, second]
    -- Where both are true the four quarters remain.
    ring
  | i :: j :: k :: rest =>
    simp only [Monomial.degree, SortedSet.size, List.length_cons] at small
    omega

theorem energy_ofQubo (q : Qubo) (σ : Nat → Bool) :
    (ofQubo q).energy (fun i => Spin.ofBool (σ i)) = q.energy σ := by
  have fields := sum_fields q fun i => Spin.ofBool (σ i)
  have couplings := sum_couplings q fun i => Spin.ofBool (σ i)
  have offset : (ofQubo q).offset = (q.tensor.entries.map offsetOf).sum := rfl
  rw [energy, sumOf, sumOf, offset, fields, couplings, ← List.sum_map_add, ← List.sum_map_add, Qubo.energy,
    valueAt, sum_map_filter]
  refine congrArg List.sum (List.map_congr_left fun e inside => ?_)
  exact term_eq (degree_le_iff.mp q.quadratic e inside) σ

theorem landscape_ofQubo (q : Qubo) : (ofQubo q).landscape = q.landscape := by
  have energy : (ofQubo q).landscape.energy = q.landscape.energy :=
    funext fun mask => energy_ofQubo q mask.testBit
  exact congrArg (Landscape.mk q.indexing) energy

theorem tensor_injective {q r : Qubo} (same : ofQubo q = ofQubo r) : q.tensor = r.tensor := by
  apply valueAt_injective
  intro σ
  have energy := congrArg (fun m => m.energy fun i => Spin.ofBool (σ i)) same
  rwa [energy_ofQubo, energy_ofQubo] at energy

theorem readSpins_toInt {m : Ising} {spins : List Spin} (fits : spins.length = m.size) :
    m.readSpins (spins.map Spin.toInt) = .ok spins := by
  have read : ∀ s ∈ spins, (readSpin ∘ Spin.toInt) s = .ok s := by
    intro s _
    rw [Function.comp_apply, readSpin, Spin.ofInt_toInt]
  rw [readSpins, if_pos (by rwa [List.length_map]), List.mapM_map, mapM_eq_ok read, List.map_id']

theorem value_toInt {m : Ising} {spins : List Spin} (fits : spins.length = m.size) :
    m.value (spins.map Spin.toInt) = .ok (m.energy fun i => spins.getD i .down) := by
  rw [value, readSpins_toInt fits]
  rfl

theorem readSpins_eq_ok {m : Ising} {bits : List Bool} (fits : bits.length = m.size) :
    m.readSpins (bits.map fun b => (Spin.ofBool b).toInt) = .ok (bits.map Spin.ofBool) := by
  have same : bits.map (fun b => (Spin.ofBool b).toInt) = (bits.map Spin.ofBool).map Spin.toInt :=
    (List.map_map (g := Spin.toInt)).symm
  rw [same, readSpins_toInt (by rwa [List.length_map])]

theorem value_eq_ok {m : Ising} {bits : List Bool} (fits : bits.length = m.size) :
    m.value (bits.map fun b => (Spin.ofBool b).toInt) =
      .ok (m.energy fun i => Spin.ofBool (bits.getD i false)) := by
  have each (i : Nat) : (bits.map Spin.ofBool).getD i .down = Spin.ofBool (bits.getD i false) :=
    List.getD_map (l := bits) (d := false) Spin.ofBool
  rw [value, readSpins_eq_ok fits]
  simp only [← each]
  rfl

theorem assignment_eq_ok {m : Ising} {bits : List Bool} (fits : bits.length = m.size) :
    m.assignment (bits.map fun b => (Spin.ofBool b).toInt) = .ok (m.indexing.assign bits) := by
  have back : (bits.map Spin.ofBool).map Spin.toBool = bits := by
    simp [Function.comp_def]
  rw [assignment, readSpins_eq_ok fits]
  change m.indexing.toAssignment ((bits.map Spin.ofBool).map Spin.toBool) = _
  rw [back]
  exact if_pos fits

theorem coupling_indices {q : Qubo} {e : Pair Nat × Rat}
    (inside : e ∈ (ofQubo q).couplings.entries) : e.1.left < e.1.right ∧ e.1.right < q.size := by
  obtain ⟨f, listed, same⟩ := FormalSum.key_mem_ofList inside
  obtain ⟨t, term, found⟩ := List.mem_flatMap.mp listed
  rw [← same]
  simp only [couplingsOf] at found
  split at found
  next i j labels =>
    have increasing := t.1.increasing
    have last : j ∈ t.1 := by
      rw [← SortedSet.mem_toList, labels]
      simp
    rw [labels, increasing_cons] at increasing
    have before := Nat.compare_eq_lt.mp (increasing.1 j List.mem_cons_self)
    rw [List.mem_singleton.mp found]
    exact ⟨before, q.indexed t term j last⟩
  next => cases found

/-- The spin model has the value of the quadratic model at every point, and it tells different
tensors apart. -/
theorem ofQubo_same_function (q : Qubo) {bits : List Bool} (fits : bits.length = q.size) :
    let m := ofQubo q
    let spins := bits.map fun b => (Spin.ofBool b).toInt
    (∃ v, q.value bits = .ok v ∧ m.value spins = .ok v) ∧
      (∃ a, q.assignment bits = .ok a ∧ m.assignment spins = .ok a) ∧
      (∀ e ∈ m.fields.entries, e.2 ≠ 0) ∧
      (∀ e ∈ m.couplings.entries, e.2 ≠ 0 ∧ e.1.left < e.1.right ∧ e.1.right < q.size) ∧
      ∀ r : Qubo, r.tensor ≠ q.tensor → ofQubo r ≠ m := by
  intro m spins
  have fits' : bits.length = m.size := fits
  refine ⟨⟨_, if_pos fits, ?_⟩, ⟨_, if_pos fits, assignment_eq_ok fits'⟩, m.fields.nonzero, ?_, ?_⟩
  · rw [value_eq_ok fits', energy_ofQubo]
  · exact fun e inside => ⟨m.couplings.nonzero e inside, coupling_indices inside⟩
  · exact fun r differ same => differ (tensor_injective same)

-- A cubic polynomial at a point where the ancilla of its model does not carry its product.
theorem ofQubo_same_function_reduced :
    ∃ q, (Poly.label (.index 0) * Poly.label (.index 1) * Poly.label (.index 2) -
        Poly.label (.index 0)).toQubo Quadratization.Options.standard = .ok q ∧
      [true, true, false, false].length = q.size ∧ q.value [true, true, false, false] = .ok 1 ∧
      (ofQubo q).value [1, 1, -1, -1] = .ok 1 := by
  let p := Poly.label (.index 0) * Poly.label (.index 1) * Poly.label (.index 2) -
    Poly.label (.index 0)
  have numeric : p.Numeric := by decide +kernel
  let q := p.constantParts.toQubo Quadratization.Options.standard ∅
  have built : p.toQubo Quadratization.Options.standard = .ok q := by
    rw [Poly.toQubo, Poly.numbers_eq_ok numeric]
    rfl
  have fits : [true, true, false, false].length = q.size := by decide +kernel
  have value : q.value [true, true, false, false] = .ok 1 := by decide +kernel
  obtain ⟨⟨v, known, same⟩, -⟩ := ofQubo_same_function q fits
  obtain rfl : v = 1 := Except.ok.inj (known.symm.trans value)
  exact ⟨q, built, fits, value, same⟩

end Ising

end PseudoBoolean
