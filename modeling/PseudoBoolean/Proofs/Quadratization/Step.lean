import PseudoBoolean.Proofs.Assignment
import PseudoBoolean.Proofs.Multilinear.Variables
import PseudoBoolean.Quadratization

set_option autoImplicit false

namespace PseudoBoolean

open Multilinear

theorem abs_eq (q : Rat) : q.abs = |q| := by
  by_cases nonneg : 0 ≤ q
  · rw [Rat.abs_of_nonneg nonneg, abs_of_nonneg nonneg]
  · have nonpos : q ≤ 0 := le_of_not_ge nonneg
    rw [Rat.abs_of_nonpos nonpos, abs_of_nonpos nonpos]

theorem Monomial.holds_ofList {A : Type} [Ord A] [Std.TransOrd A] [Std.LawfulEqOrd A]
    (σ : A → Bool) (l : List A) : Monomial.holds σ (SortedSet.ofList l) = l.all σ := by
  rw [Bool.eq_iff_iff, Monomial.holds_iff, List.all_eq_true]
  exact forall_congr' fun a => by rw [SortedSet.mem_ofList]

namespace Ancilla

def Consistent (σ : Label → Bool) (a : Ancilla) : Prop :=
  σ a.label = (σ a.pair.left && σ a.pair.right)

instance (σ : Label → Bool) : DecidablePred (Consistent σ) := fun a =>
  inferInstanceAs (Decidable (σ a.label = (σ a.pair.left && σ a.pair.right)))

end Ancilla

namespace Quadratization

variable {σ : Label → Bool} {c : Pair Label} {a : Label}

theorem contractMonomial_of_not_held {m : Monomial Label}
    (spared : ¬ (2 < m.degree ∧ c.left ∈ m ∧ c.right ∈ m)) : contractMonomial c a m = m := by
  by_cases high : 2 < m.degree
  · have absent : ¬ (c.left ∈ m ∧ c.right ∈ m) := fun held => spared ⟨high, held⟩
    simp [contractMonomial, Monomial.replacePair_of_not_mem a absent]
  · simp [contractMonomial, high]

theorem mem_contractMonomial {m : Monomial Label}
    (held : 2 < m.degree ∧ c.left ∈ m ∧ c.right ∈ m) {b : Label} :
    b ∈ contractMonomial c a m ↔ b = a ∨ (b ∈ m ∧ b ≠ c.left ∧ b ≠ c.right) := by
  have replaced := Monomial.replacePair_of_mem a held.2
  have contracted : contractMonomial c a m = ((m.erase c.left).erase c.right).insert a := by
    simp [contractMonomial, held.1, replaced]
  rw [contracted, Monomial.mem_of_replacePair replaced]

theorem holds_contractMonomial (carried : σ a = (σ c.left && σ c.right)) (m : Monomial Label) :
    (contractMonomial c a m).holds σ = m.holds σ := by
  by_cases held : 2 < m.degree ∧ c.left ∈ m ∧ c.right ∈ m
  · rw [Bool.eq_iff_iff, Monomial.holds_iff, Monomial.holds_iff]
    constructor
    · intro all b member
      have both : σ c.left = true ∧ σ c.right = true := by
        have first := all a ((mem_contractMonomial held).mpr (Or.inl rfl))
        rwa [carried, Bool.and_eq_true] at first
      by_cases left : b = c.left
      · rw [left, both.1]
      · by_cases right : b = c.right
        · rw [right, both.2]
        · exact all b ((mem_contractMonomial held).mpr (Or.inr ⟨member, left, right⟩))
    · intro all b member
      rcases (mem_contractMonomial held).mp member with rfl | ⟨inside, -, -⟩
      · rw [carried, all _ held.2.1, all _ held.2.2, Bool.and_self]
      · exact all b inside
  · rw [contractMonomial_of_not_held held]

theorem valueAt_contract (p : NumericPoly) :
    valueAt σ (contract p c a) =
      (p.entries.map fun e => if (contractMonomial c a e.1).holds σ then e.2 else 0).sum :=
  valueAt_ofList_map ..

theorem valueAt_eq_sum (p : NumericPoly) :
    valueAt σ p = (p.entries.map fun e => if e.1.holds σ then e.2 else 0).sum :=
  sum_map_filter Prod.snd _ _

theorem valueAt_contract_consistent (carried : σ a = (σ c.left && σ c.right)) (p : NumericPoly) :
    valueAt σ (contract p c a) = valueAt σ p := by
  rw [valueAt_contract, valueAt_eq_sum]
  refine congrArg List.sum (List.map_congr_left fun e _ => ?_)
  rw [holds_contractMonomial carried]

theorem contractedWeight_nonneg (p : NumericPoly) : 0 ≤ contractedWeight p c :=
  List.sum_nonneg (List.forall_mem_map.mpr fun _ _ => Rat.abs_nonneg)

-- A changed monomial may lose or gain its whole coefficient; the others keep their value.
theorem valueAt_le_contract (p : NumericPoly) :
    valueAt σ p ≤ valueAt σ (contract p c a) + contractedWeight p c := by
  rw [valueAt_contract, valueAt_eq_sum, contractedWeight, sumOf, sum_map_filter, ← List.sum_map_add]
  apply List.sum_le_sum
  intro e _
  by_cases held : 2 < e.1.degree ∧ c.left ∈ e.1 ∧ c.right ∈ e.1
  · have above := le_abs_self e.2
    have below := neg_abs_le e.2
    have nonneg := abs_nonneg e.2
    by_cases before : e.1.holds σ <;> by_cases after : (contractMonomial c a e.1).holds σ <;>
      simp [before, after, held, abs_eq] <;> linarith
  · simp [contractMonomial_of_not_held held, held]

theorem valueAt_penalty (weight : Rat) :
    valueAt σ (penalty c a weight) =
      (if σ c.left && σ c.right then weight else 0) +
        ((if σ c.left && σ a then -2 * weight else 0) +
          ((if σ c.right && σ a then -2 * weight else 0) + if σ a then 3 * weight else 0)) := by
  rw [penalty, valueAt_ofList]
  simp [Monomial.holds_ofList]

theorem valueAt_penalty_consistent (carried : σ a = (σ c.left && σ c.right)) (weight : Rat) :
    valueAt σ (penalty c a weight) = 0 := by
  rw [valueAt_penalty, carried]
  cases σ c.left <;> cases σ c.right <;> simp
  linarith

theorem le_valueAt_penalty (wrong : σ a ≠ (σ c.left && σ c.right)) {weight : Rat}
    (nonneg : 0 ≤ weight) : weight ≤ valueAt σ (penalty c a weight) := by
  rw [valueAt_penalty]
  cases left : σ c.left <;> cases right : σ c.right <;> cases new : σ a <;>
    simp [left, right, new] at wrong ⊢ <;> linarith

theorem valueAt_replace_consistent (carried : σ a = (σ c.left && σ c.right)) (p : NumericPoly)
    (weight : Rat) : valueAt σ (replace p c a weight) = valueAt σ p := by
  rw [replace, valueAt_add, valueAt_contract_consistent carried, valueAt_penalty_consistent carried,
    add_zero]

theorem le_valueAt_replace (wrong : σ a ≠ (σ c.left && σ c.right)) (p : NumericPoly)
    (weight : Rat) (nonneg : 0 ≤ weight) :
    valueAt σ p + (weight - contractedWeight p c) ≤ valueAt σ (replace p c a weight) := by
  have contracted := valueAt_le_contract (σ := σ) (c := c) (a := a) p
  have penalized := le_valueAt_penalty wrong nonneg
  rw [replace, valueAt_add]
  linarith

def highWeight (p : NumericPoly) : Rat :=
  ((p.entries.filter fun e => 2 < e.1.degree).map fun e => e.2.abs).sum

def highPart (e : Monomial Label × Rat) : Rat :=
  if 2 < e.1.degree then e.2.abs else 0

theorem highPart_nonneg (e : Monomial Label × Rat) : 0 ≤ highPart e := by
  by_cases high : 2 < e.1.degree
  · simp [highPart, high, Rat.abs_nonneg]
  · simp [highPart, high]

theorem highWeight_eq_sum (p : NumericPoly) : highWeight p = (p.entries.map highPart).sum := by
  rw [highWeight, sum_map_filter]
  refine congrArg List.sum (List.map_congr_left fun e _ => ?_)
  simp [highPart]

theorem contractedWeight_le_highWeight (p : NumericPoly) : contractedWeight p c ≤ highWeight p := by
  rw [highWeight_eq_sum, contractedWeight, sumOf, sum_map_filter]
  apply List.sum_le_sum
  intro e _
  by_cases held : 2 < e.1.degree ∧ c.left ∈ e.1 ∧ c.right ∈ e.1
  · simp [held, highPart]
  · simpa [held] using highPart_nonneg e

theorem highWeight_add_le (p q : NumericPoly) :
    highWeight (p + q) ≤ highWeight p + highWeight q := by
  simp only [highWeight_eq_sum]
  refine (merged p.entries q.entries).sum_map le_refl add_le_add highPart ?_
  intro x y level
  have equal : x.1 = y.1 := Std.LawfulEqOrd.eq_of_compare level
  by_cases zero : x.2 + y.2 = 0
  · simpa [FormalSum.joinTerms, zero] using add_nonneg (highPart_nonneg x) (highPart_nonneg y)
  · by_cases high : 2 < y.1.degree
    · simpa [FormalSum.joinTerms, zero, highPart, equal, high, abs_eq] using abs_add_le x.2 y.2
    · simp [FormalSum.joinTerms, zero, highPart, equal, high]

theorem highWeight_ofList_le (l : List (Monomial Label × Rat)) :
    highWeight (FormalSum.ofList l) ≤ (l.map highPart).sum := by
  induction l with
  | nil => rfl
  | cons e l ih =>
    have joined := highWeight_add_le (FormalSum.single e.1 e.2) (FormalSum.ofList l)
    have alone : highWeight (FormalSum.single e.1 e.2) ≤ highPart e := by
      rw [highWeight_eq_sum]
      by_cases zero : e.2 = 0
      · have nothing : FormalSum.single e.1 e.2 = 0 := by simp [FormalSum.single, zero]
        rw [nothing]
        exact highPart_nonneg e
      · simp [FormalSum.single, zero, SortedMap.singleton]
    rw [List.map_cons, List.sum_cons]
    exact le_trans joined (add_le_add alone ih)

theorem highWeight_contract_le (before : compare c.left c.right = .lt) (p : NumericPoly) :
    highWeight (contract p c a) ≤ highWeight p := by
  have listed := highWeight_ofList_le (p.entries.map fun e => (contractMonomial c a e.1, e.2))
  rw [List.map_map] at listed
  refine le_trans listed ?_
  rw [highWeight_eq_sum]
  apply List.sum_le_sum
  intro e _
  have lower := degree_contractMonomial_le a before e.1
  by_cases high : 2 < (contractMonomial c a e.1).degree
  · have higher : 2 < e.1.degree := lt_of_lt_of_le high lower
    simp [highPart, high, higher]
  · simpa [highPart, high] using highPart_nonneg e

theorem degree_of_mem_penalty {weight : Rat} {e : Monomial Label × Rat}
    (inside : e ∈ (penalty c a weight).entries) : e.1.degree ≤ 2 := by
  have short (l : List Label) (small : l.length ≤ 2) :
      Monomial.degree (SortedSet.ofList l) ≤ 2 :=
    Nat.le_trans (SortedSet.size_ofList_le l) small
  obtain ⟨f, listed, same⟩ := FormalSum.key_mem_ofList inside
  rw [← same]
  simp only [List.mem_cons, List.not_mem_nil, or_false] at listed
  rcases listed with rfl | rfl | rfl | rfl
  · exact short [c.left, c.right] (by simp)
  · exact short [c.left, a] (by simp)
  · exact short [c.right, a] (by simp)
  · exact short [a] (by simp)

theorem highWeight_penalty (weight : Rat) : highWeight (penalty c a weight) = 0 := by
  have none : (penalty c a weight).entries.filter (fun e => 2 < e.1.degree) = [] := by
    refine List.filter_eq_nil_iff.mpr fun e inside high => ?_
    exact absurd (of_decide_eq_true high) (Nat.not_lt_of_le (degree_of_mem_penalty inside))
  rw [highWeight, none, List.map_nil, List.sum_nil]

theorem highWeight_replace_le (before : compare c.left c.right = .lt) (p : NumericPoly)
    (weight : Rat) : highWeight (replace p c a weight) ≤ highWeight p := by
  have joined := highWeight_add_le (contract p c a) (penalty c a weight)
  have contracted := highWeight_contract_le (a := a) before p
  have penalized := highWeight_penalty (c := c) (a := a) weight
  rw [replace]
  linarith

end Quadratization

end PseudoBoolean
