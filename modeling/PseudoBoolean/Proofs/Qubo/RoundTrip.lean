import PseudoBoolean.Proofs.Indexing.Order
import PseudoBoolean.Proofs.Poly.Symbols
import PseudoBoolean.Proofs.Qubo

set_option autoImplicit false

namespace PseudoBoolean.Qubo

open Multilinear

section Tensor

variable {x : Indexing} {p : NumericPoly}

-- No two terms get the same key, and none moves.
theorem entries_encode (inside : ∀ v ∈ p.vars, v ∈ x.labels) :
    (encode x p).entries = p.entries.map fun e => (x.encode e.1, e.2) := by
  have covered : ∀ e ∈ p.entries, ∀ v ∈ e.1, v ∈ x.labels := fun e term v held =>
    inside v (mem_vars.mpr ⟨e, term, held⟩)
  refine FormalSum.entries_ofList ?_ (List.forall_mem_map.mpr p.nonzero)
  refine List.pairwise_map.mpr (p.increasing.imp_of_mem fun {e f} first second before => ?_)
  exact (Indexing.compare_encode (covered e first) (covered f second)).trans before

theorem toPoly_ofQuadratic (p : NumericPoly) (small : p.degree ≤ 2) (ancillas : List Ancilla)
    (extra : SortedSet Label) : (ofQuadratic p small ancillas extra).toPoly = p := by
  have inside := Quadratization.covered_quadratize p extra
  have read : ∀ e ∈ p.entries, (Indexing.decode ⟨extra ∪ p.vars⟩
      (Indexing.encode ⟨extra ∪ p.vars⟩ e.1), e.2) = e := fun e term =>
    Prod.ext (Indexing.decode_encode fun v held => inside v (mem_vars.mpr ⟨e, term, held⟩)) rfl
  have tensor : (ofQuadratic p small ancillas extra).tensor.entries = _ := entries_encode inside
  have terms := (List.map_congr_left read).trans (List.map_id' p.entries)
  rw [toPoly, tensor, List.map_map]
  exact (congrArg FormalSum.ofList terms).trans (FormalSum.ofList_entries p)

end Tensor

section Value

variable (q : Qubo) {σ : Nat → Bool}

theorem valueAt_toPoly : valueAt (q.indexing.pull σ) q.toPoly = q.energy σ := by
  rw [toPoly, valueAt_ofList_map, energy, valueAt, sum_map_filter]
  refine congrArg List.sum (List.map_congr_left fun e stored => ?_)
  rw [Indexing.holds_decode (q.indexed e stored)]

theorem vars_toPoly : ∀ v ∈ vars q.toPoly, v ∈ q.indexing.labels := by
  intro v member
  obtain ⟨e, term, held⟩ := mem_vars.mp member
  obtain ⟨f, listed, same⟩ := FormalSum.key_mem_ofList term
  obtain ⟨t, -, rfl⟩ := List.mem_map.mp listed
  rw [← same] at held
  obtain ⟨i, -, found⟩ := Indexing.mem_decode.mp held
  exact List.mem_of_getElem? found

theorem value_toPoly {bits : List Bool} (fits : bits.length = q.size) :
    q.toPoly.toPoly.value (q.indexing.assign bits) =
      .ok (q.energy fun i => bits.getD i false) := by
  have covered : (q.indexing.assign bits).Covers q.toPoly.toPoly.vars := by
    intro v member
    rw [Indexing.assign_eq fits, Assignment.keys_ofTruth]
    exact vars_toPoly q v (vars_mapCoeffs Coeff.numbers member)
  have number : Poly.numberAt (q.indexing.assign bits).truth q.toPoly.toPoly =
      q.energy fun i => bits.getD i false := by
    rw [Poly.numberAt, Poly.constantParts_toPoly, Indexing.assign_eq fits, ← valueAt_toPoly]
    exact valueAt_congr fun v member => Assignment.truth_ofTruth (vars_toPoly q v member)
  have numeric : q.toPoly.toPoly.Numeric := Poly.numeric_ofNumbers q.toPoly
  rw [Poly.value_eq_ok numeric covered, number]

end Value

variable {p : Poly}

theorem ofPoly_eq_ok_iff {q : Qubo} :
    ofPoly p = .ok q ↔ p.Numeric ∧ ∃ small : p.degree ≤ 2, q = ofConstantParts p small := by
  rw [← Poly.numbersInOrder_isOk_iff]
  exact Poly.whenQuadratic_eq_ok_iff

theorem toPoly_ofConstantParts (numeric : p.Numeric) (small : p.degree ≤ 2) :
    (ofConstantParts p small).toPoly.toPoly = p := by
  rw [ofConstantParts, toPoly_ofQuadratic]
  exact Poly.ofNumbers_constantParts numeric

theorem entries_ofConstantParts (numeric : p.Numeric) (small : p.degree ≤ 2) :
    ((ofConstantParts p small).tensor.entries.map fun e => (e.1.toList, e.2)) =
      p.entries.map fun e => (e.1.toList.filterMap (ofConstantParts p small).indexing.index?,
        e.2.constantPart) := by
  have nonzero : ∀ e ∈ p.entries, e.2.constantPart ≠ 0 := by
    intro e term zero
    have number := Poly.eq_number_of_numeric numeric e term
    rw [zero] at number
    exact p.nonzero e term number
  have parts : p.constantParts.entries = _ := FormalSum.entries_mapCoeffs nonzero
  have inside := Quadratization.covered_quadratize p.constantParts ∅
  have tensor : (ofConstantParts p small).tensor.entries = _ := entries_encode inside
  rw [tensor, parts, List.map_map, List.map_map]
  refine List.map_congr_left fun e term => ?_
  have held : ∀ v ∈ e.1, v ∈ ∅ ∪ p.constantParts.vars := fun v member =>
    inside v (Poly.vars_constantParts numeric ▸ mem_vars.mpr ⟨e, term, member⟩)
  have key := (Indexing.toList_encode (x := ⟨_⟩) held).trans
    (Indexing.filterMap_index (x := ⟨_⟩) held).symm
  exact congrArg (Prod.mk · e.2.constantPart) key

theorem value_ofConstantParts (numeric : p.Numeric) (small : p.degree ≤ 2) {bits : List Bool}
    (fits : bits.length = (ofConstantParts p small).size) :
    ∃ a v, (ofConstantParts p small).assignment bits = .ok a ∧
      (ofConstantParts p small).value bits = .ok v ∧ p.value a = .ok v := by
  refine ⟨_, _, if_pos fits, NumericPoly.value_ofQuadratic _ _ [] ∅ fits, ?_⟩
  refine Poly.value_eq_ok numeric fun v member => ?_
  have inside := Quadratization.covered_quadratize p.constantParts ∅
  rw [← Poly.vars_constantParts numeric] at member
  have assigned := Indexing.assign_eq (x := ⟨∅ ∪ p.constantParts.vars⟩) fits
  change v ∈ (Indexing.assign ⟨∅ ∪ p.constantParts.vars⟩ bits).keys
  rw [assigned, Assignment.keys_ofTruth]
  exact inside v member

/-- A numeric polynomial of degree at most two is read back from its model. -/
theorem ofPoly_lossless (numeric : p.Numeric) (small : p.degree ≤ 2) :
    ∃ q, ofPoly p = .ok q ∧ q.toPoly.toPoly = p ∧
      ((q.tensor.entries.map fun e => (e.1.toList, e.2)) =
        p.entries.map fun e => (e.1.toList.filterMap q.indexing.index?, e.2.constantPart)) ∧
      (∀ bits, bits.length = q.size →
        ∃ a v, q.assignment bits = .ok a ∧ q.value bits = .ok v ∧ p.value a = .ok v) ∧
      (∀ e ∈ q.tensor.entries,
        e.1.toList.Pairwise (· < ·) ∧ (∀ i ∈ e.1, i < q.size) ∧ e.2 ≠ 0) ∧
      ∀ p' q', ofPoly p' = .ok q' → ofPoly q'.toPoly.toPoly = .ok q' := by
  refine ⟨_, ofPoly_eq_ok_iff.mpr ⟨numeric, small, rfl⟩, toPoly_ofConstantParts numeric small,
    entries_ofConstantParts numeric small, fun bits => value_ofConstantParts numeric small,
    fun e stored => ?_, fun p' q' built => ?_⟩
  · exact ⟨e.1.increasing.imp Nat.compare_eq_lt.mp, (ofConstantParts p small).indexed e stored,
      (ofConstantParts p small).tensor.nonzero e stored⟩
  · obtain ⟨numeric', small', rfl⟩ := ofPoly_eq_ok_iff.mp built
    rw [toPoly_ofConstantParts numeric' small', built]

-- Two labels that print alike, in the order in which indices come before names.
theorem ofPoly_lossless_mixed :
    let p := Poly.label (.name "x1") * Poly.label (.index 1) -
      (Poly.label (.name "x1")).scale (Coeff.number (1 / 2))
    ∃ q, ofPoly p = .ok q ∧ q.toPoly.toPoly = p ∧
      (q.tensor.entries.map fun e => (e.1.toList, e.2)) = [([0, 1], 1), ([1], -(1 / 2))] := by
  intro p
  have numeric : p.Numeric := by decide +kernel
  have small : p.degree ≤ 2 := by decide +kernel
  obtain ⟨q, built, back, terms, -⟩ := ofPoly_lossless numeric small
  obtain ⟨-, small', rfl⟩ := ofPoly_eq_ok_iff.mp built
  have replaced : (p.entries.map fun e =>
      (e.1.toList.filterMap (Indexing.index? ⟨∅ ∪ p.constantParts.vars⟩), e.2.constantPart)) =
        [([0, 1], 1), ([1], -(1 / 2))] := by
    decide +kernel
  exact ⟨_, built, back, terms.trans replaced⟩

end PseudoBoolean.Qubo
