import PseudoBoolean.Proofs.Multilinear.Unique
import PseudoBoolean.Proofs.Quadratization.Exact
import PseudoBoolean.Proofs.Quadratization.Pairs

set_option autoImplicit false

namespace PseudoBoolean

namespace Quadratization

open Multilinear

variable {p q : NumericPoly} {c : Pair Label} {a b v : Label} {weight : Rat}

-- Among the terms of the penalty the product of `b` and the new variable stands once.
theorem coeffAt_penalty (before : compare c.left c.right = .lt) (left : c.left ≠ a)
    (right : c.right ≠ a) (side : b = c.left ∨ b = c.right) (weight : Rat) :
    (penalty c a weight).coeffAt (SortedSet.ofList [b, a]) = -2 * weight := by
  have apart : c.left ≠ c.right := ne_of_before before
  have differ {l k : List Label} (v : Label) (inside : v ∈ l) (outside : v ∉ k) :
      (SortedSet.ofList l : Monomial Label) ≠ SortedSet.ofList k := by
    intro same
    have member : v ∈ SortedSet.ofList l := SortedSet.mem_ofList.mpr inside
    rw [same] at member
    exact outside (SortedSet.mem_ofList.mp member)
  rw [penalty, FormalSum.coeffAt_ofList]
  simp only [List.map_cons, List.sum_cons, List.map_nil, List.sum_nil, FormalSum.pick,
    Std.compare_eq_iff_eq]
  rcases side with rfl | rfl
  · have pair := differ a (l := [c.left, a]) (k := [c.left, c.right]) (by simp)
      (by simp [left.symm, right.symm])
    have other := differ c.left (l := [c.left, a]) (k := [c.right, a]) (by simp)
      (by simp [apart, left])
    have alone := differ c.left (l := [c.left, a]) (k := [a]) (by simp) (by simp [left])
    simp [pair, other, alone]
  · have pair := differ a (l := [c.right, a]) (k := [c.left, c.right]) (by simp)
      (by simp [left.symm, right.symm])
    have other := differ c.right (l := [c.right, a]) (k := [c.left, a]) (by simp)
      (by simp [apart.symm, right])
    have alone := differ c.right (l := [c.right, a]) (k := [a]) (by simp) (by simp [right])
    simp [pair, other, alone]

-- A changed monomial has lost both labels of the pair, and the others do not hold the new one.
theorem coeffAt_contract (new : a ∉ p.vars) (fresh : b ≠ a) (side : b = c.left ∨ b = c.right) :
    (contract p c a).coeffAt (SortedSet.ofList [b, a]) = 0 := by
  apply FormalSum.coeffAt_eq_zero
  intro e inside same
  obtain ⟨t, old, contracted⟩ := exists_contracted inside
  rw [same] at contracted
  have left : b ∈ contractMonomial c a t.1 := by
    rw [contracted]
    exact SortedSet.mem_ofList.mpr (by simp)
  have right : a ∈ contractMonomial c a t.1 := by
    rw [contracted]
    exact SortedSet.mem_ofList.mpr (by simp)
  by_cases changed : 2 < t.1.degree ∧ c.left ∈ t.1 ∧ c.right ∈ t.1
  · obtain ⟨-, notLeft, notRight⟩ := ((mem_contractMonomial changed).mp left).resolve_left fresh
    exact side.elim notLeft notRight
  · rw [contractMonomial_of_not_held changed] at right
    exact new (mem_vars.mpr ⟨t, old, right⟩)

theorem coeffAt_replace (before : compare c.left c.right = .lt) (left : c.left ≠ a)
    (right : c.right ≠ a) (new : a ∉ p.vars) (side : b = c.left ∨ b = c.right) (weight : Rat) :
    (replace p c a weight).coeffAt (SortedSet.ofList [b, a]) = -2 * weight := by
  have fresh : b ≠ a := by
    rcases side with rfl | rfl
    · exact left
    · exact right
  rw [replace, FormalSum.coeffAt_add, coeffAt_contract new fresh side,
    coeffAt_penalty before left right side, zero_add]

-- Off the pair, the new variable can carry the product while `v` changes.
theorem dependsOn_replace (left : c.left ≠ a) (right : c.right ≠ a) (new : a ∉ p.vars)
    (notLeft : v ≠ c.left) (notRight : v ≠ c.right) (weight : Rat) (depends : p.DependsOn v) :
    (replace p c a weight).DependsOn v := by
  obtain ⟨σ, apart⟩ := depends
  have fresh : v ≠ a := by
    intro same
    exact new (same ▸ mem_vars_iff_dependsOn.mpr ⟨σ, apart⟩)
  let τ := Function.update σ a (σ c.left && σ c.right)
  have value (b : Bool) : valueAt (Function.update τ v b) (replace p c a weight) =
      valueAt (Function.update σ v b) p := by
    have carried : Function.update τ v b a =
        (Function.update τ v b c.left && Function.update τ v b c.right) := by
      simp [τ, Function.update_of_ne, notLeft.symm, notRight.symm, fresh.symm, left, right]
    rw [valueAt_replace_consistent carried]
    refine valueAt_congr fun w member => ?_
    have old : w ≠ a := fun same => new (same ▸ member)
    by_cases same : w = v <;> simp [τ, same, old]
  refine ⟨τ, ?_⟩
  rw [value, value]
  exact apart

theorem mem_vars_replace (chosen : p.mostCommonPair = some c) (new : a ∉ p.vars)
    (nonzero : weight ≠ 0) : v ∈ (replace p c a weight).vars ↔ v = a ∨ v ∈ p.vars := by
  obtain ⟨inLeft, inRight⟩ := pair_mem_vars chosen
  obtain ⟨-, -, -, -, -, before⟩ := mostCommonPair_mem chosen
  have left : c.left ≠ a := fun same => new (same ▸ inLeft)
  have right : c.right ≠ a := fun same => new (same ▸ inRight)
  -- The product of a label of the pair and the new one keeps the coefficient of the penalty.
  have paired {b w : Label} (side : b = c.left ∨ b = c.right) (member : w = b ∨ w = a) :
      w ∈ (replace p c a weight).vars := by
    have coefficient := coeffAt_replace before left right new side weight
    have present : (replace p c a weight).coeffAt (SortedSet.ofList [b, a]) ≠ 0 := by
      rw [coefficient]
      simpa using nonzero
    refine mem_vars.mpr ⟨_, FormalSum.mem_of_coeffAt present, ?_⟩
    exact SortedSet.mem_ofList.mpr (by simpa using member)
  constructor
  · exact vars_replace inLeft inRight
  · intro member
    by_cases isNew : v = a
    · exact paired (Or.inl rfl) (Or.inr isNew)
    by_cases isLeft : v = c.left
    · exact paired (Or.inl rfl) (Or.inl isLeft)
    by_cases isRight : v = c.right
    · exact paired (Or.inr rfl) (Or.inl isRight)
    · have depends := mem_vars_iff_dependsOn.mp (member.resolve_left isNew)
      exact mem_vars_iff_dependsOn.mpr
        (dependsOn_replace left right new isLeft isRight weight depends)

theorem Reduces.mem_vars {options : Options} {taken : SortedSet Label} {ancillas : List Ancilla}
    (reduces : Reduces options p taken q ancillas) (computed : options.penalty = none)
    (covered : ∀ v ∈ p.vars, v ∈ taken) :
    v ∈ q.vars ↔ v ∈ p.vars ∨ v ∈ ancillas.map Ancilla.label := by
  induction reduces with
  | done low => simp
  | @step p q taken ancillas c a weight chosen fresh strength rest ih =>
    have heavy : weight ≠ 0 := by
      have nonneg := contractedWeight_nonneg (c := c) p
      rw [computed, Option.getD_none] at strength
      linarith
    have new : a ∉ p.vars := fun member => fresh (covered a member)
    rw [ih (covered_replace covered chosen a weight), mem_vars_replace chosen new heavy,
      List.map_cons, List.mem_cons]
    exact or_assoc.trans or_left_comm

end Quadratization

namespace Quadratization

open Multilinear

theorem covered_quadratize (p : NumericPoly) (reserved : SortedSet Label) :
    ∀ v ∈ p.vars, v ∈ reserved ∪ p.vars := fun _ member =>
  SortedSet.mem_union.mpr (Or.inr member)

theorem mem_vars_quadratize (p : NumericPoly) (options : Options) (reserved : SortedSet Label)
    (computed : options.penalty = none) {v : Label} :
    v ∈ (p.quadratize options reserved).poly.vars ↔
      v ∈ p.vars ∨ v ∈ (p.quadratize options reserved).labels :=
  (quadratize_reduces p options reserved).mem_vars computed (covered_quadratize p reserved)

theorem quadratize_wellFormed (p : NumericPoly) (options : Options)
    (reserved : SortedSet Label) :
    let r := p.quadratize options reserved
    Reduces options p (reserved ∪ p.vars) r.poly r.ancillas ∧ r.poly.degree ≤ 2 ∧
      r.ancillas.length ≤ excess p ∧ (p.degree ≤ 2 → r.poly = p ∧ r.ancillas = []) ∧
      r.labels.Nodup ∧ (∀ v ∈ r.labels, v ∉ reserved ∧ v ∉ p.vars) ∧
      Grounded p.vars r.ancillas ∧ (r.ancillas.map Ancilla.pair).Nodup ∧
      (options.penalty = none → ∀ v, v ∈ r.poly.vars ↔ v ∈ p.vars ∨ v ∈ r.labels) := by
  intro r
  have reduces := quadratize_reduces p options reserved
  refine ⟨reduces, r.quadratic, reduces.length_le_excess, reduces.unchanged,
    reduces.nodup_labels, ?_, reduces.grounded, reduces.nodup_pairs (covered_quadratize p reserved),
    fun computed v => mem_vars_quadratize p options reserved computed⟩
  intro v new
  have outside := label_not_mem_vars p options reserved new
  rw [SortedSet.mem_union, not_or] at outside
  exact outside

end Quadratization

end PseudoBoolean
