import Mathlib.Data.List.Nodup
import PseudoBoolean.CommonPair
import PseudoBoolean.Poly
import PseudoBoolean.Proofs.FormalSum.Fold

set_option autoImplicit false

namespace PseudoBoolean

open Std

namespace Multilinear

variable {A R : Type} [Ord A] [OfNat R 0] [TransOrd A] [LawfulEqOrd A]

theorem mem_pairsOf_iff {l : List A} (increasing : IncreasingOn id l) {c : Pair A} :
    c ∈ pairsOf l ↔ c.left ∈ l ∧ c.right ∈ l ∧ compare c.left c.right = .lt := by
  refine ⟨mem_pairsOf increasing, ?_⟩
  rintro ⟨left, right, before⟩
  induction l with
  | nil => exact absurd left List.not_mem_nil
  | cons u l ih =>
    obtain ⟨first, rest⟩ := increasing_cons.mp increasing
    rw [pairsOf, List.mem_append]
    rcases List.mem_cons.mp right with same | later
    · -- No label comes before the first.
      rcases List.mem_cons.mp left with alone | behind
      · exact absurd (alone.trans same.symm) (ne_of_before before)
      · exact absurd (same ▸ before) (OrientedCmp.not_lt_of_lt (first _ behind))
    · rcases List.mem_cons.mp left with same | behind
      · exact Or.inl (List.mem_map.mpr ⟨c.right, later, Pair.ext same.symm rfl⟩)
      · exact Or.inr (ih rest behind later)

omit [TransOrd A] in
theorem nodup_pairsOf {l : List A} (increasing : IncreasingOn id l) : (pairsOf l).Nodup := by
  induction l with
  | nil => exact List.nodup_nil
  | cons u l ih =>
    obtain ⟨first, rest⟩ := increasing_cons.mp increasing
    have nodup : l.Nodup := rest.imp ne_of_before
    refine List.Nodup.append ?_ (ih rest) ?_
    · exact nodup.map fun v w same => congrArg Pair.right same
    · intro c here later
      obtain ⟨v, -, rfl⟩ := List.mem_map.mp here
      exact ne_of_before (first u (mem_pairsOf rest later).1) rfl

variable [DecidableEq A] {p : Multilinear A R} {c d : Pair A}

def together (p : Multilinear A R) (c : Pair A) : Nat :=
  p.entries.countP fun e => 2 < e.1.degree ∧ c.left ∈ e.1 ∧ c.right ∈ e.1

theorem coeffAt_pairCounts (before : compare c.left c.right = .lt) :
    p.pairCounts.coeffAt c = p.together c := by
  have counted (e : Monomial A × R) : FormalSum.fold (FormalSum.pick c)
      (FormalSum.counts (pairsOf e.1.toList)) = if c.left ∈ e.1 ∧ c.right ∈ e.1 then 1 else 0 := by
    rw [← FormalSum.coeffAt_eq_fold, FormalSum.coeffAt_counts]
    simp only [(nodup_pairsOf e.1.increasing).count, mem_pairsOf_iff e.1.increasing, before,
      and_true, SortedSet.mem_toList]
  have number (keep : Monomial A × R → Bool) :
      (p.entries.map fun e => if keep e then 1 else 0).sum = p.entries.countP keep := by
    simp [List.sum_map_ite, List.countP_eq_length_filter]
  rw [pairCounts, FormalSum.coeffAt_eq_fold, FormalSum.fold_sum, List.map_map, sum_map_filter,
    together, ← number]
  refine congrArg List.sum (List.map_congr_left fun e _ => ?_)
  simp only [Function.comp_apply, counted, Bool.decide_and, Bool.and_eq_true, decide_eq_true_iff,
    ite_and]

omit [DecidableEq A] in
theorem before_of_mem_pairCounts {e : Pair A × Nat} (inside : e ∈ p.pairCounts.entries) :
    compare e.1.left e.1.right = .lt := by
  obtain ⟨q, chosen, f, counted, same⟩ := FormalSum.key_mem_sum inside
  obtain ⟨t, -, rfl⟩ := List.mem_map.mp chosen
  have listed := FormalSum.key_mem_counts counted
  rw [same] at listed
  exact (mem_pairsOf t.1.increasing listed).2.2

theorem mem_pairCounts {e : Pair A × Nat} :
    e ∈ p.pairCounts.entries ↔
      compare e.1.left e.1.right = .lt ∧ e.2 = p.together e.1 ∧ 0 < p.together e.1 := by
  constructor
  · intro inside
    have before := before_of_mem_pairCounts inside
    have same : p.together e.1 = e.2 := by
      rw [← coeffAt_pairCounts before, FormalSum.coeffAt_of_mem inside]
    exact ⟨before, same.symm, same ▸ Nat.pos_of_ne_zero (p.pairCounts.nonzero e inside)⟩
  · rintro ⟨before, same, positive⟩
    have found := FormalSum.mem_of_coeffAt (p := p.pairCounts) (k := e.1)
      (by rw [coeffAt_pairCounts before]; exact positive.ne')
    rwa [coeffAt_pairCounts before, ← same] at found

omit [TransOrd A] [LawfulEqOrd A] in
theorem together_pos_iff : 0 < p.together c ↔
    ∃ e ∈ p.entries, 2 < e.1.degree ∧ c.left ∈ e.1 ∧ c.right ∈ e.1 := by
  simp only [together, List.countP_pos_iff, decide_eq_true_iff]

omit [TransOrd A] [LawfulEqOrd A] in
theorem together_swap : p.together ⟨c.right, c.left⟩ = p.together c := by
  simp only [together, and_comm (a := c.left ∈ _)]

structure MostCommon (p : Multilinear A R) (c : Pair A) : Prop where
  ordered : compare c.left c.right = .lt
  occurs : ∃ e ∈ p.entries, 2 < e.1.degree ∧ c.left ∈ e.1 ∧ c.right ∈ e.1
  most : ∀ d : Pair A, d.left ≠ d.right → p.together d ≤ p.together c
  smallest : ∀ d : Pair A, d.left ≠ d.right → d ≠ c → p.together d = p.together c →
    compare c d = .lt

theorem MostCommon.of_ordered (ordered : compare c.left c.right = .lt) (occurs : 0 < p.together c)
    (best : ∀ d : Pair A, compare d.left d.right = .lt → p.together d < p.together c ∨
      p.together d = p.together c ∧ (d = c ∨ compare c d = .lt)) : p.MostCommon c := by
  have bound (d : Pair A) (before : compare d.left d.right = .lt) :
      p.together d ≤ p.together c :=
    (best d before).elim Nat.le_of_lt fun level => Nat.le_of_eq level.1
  have place (d : Pair A) (before : compare d.left d.right = .lt)
      (same : p.together d = p.together c) : d = c ∨ compare c d = .lt :=
    ((best d before).resolve_left (Nat.not_lt_of_le same.ge)).2
  refine ⟨ordered, together_pos_iff.mp occurs, fun d differ => ?_, fun d differ other same => ?_⟩
  · rcases before_or_before differ with before | turned
    · exact bound d before
    · rw [← together_swap]
      exact bound ⟨d.right, d.left⟩ turned
  · rcases before_or_before differ with before | turned
    · exact (place d before same).resolve_left other
    · -- The pair in order comes before the pair out of order.
      have next : compare ⟨d.right, d.left⟩ d = .lt := Pair.lt_of_left_lt turned
      rw [← together_swap] at same
      rcases place ⟨d.right, d.left⟩ turned same with own | later
      · exact own ▸ next
      · exact TransCmp.lt_trans later next

-- The pairs before the chosen one have lower counts, and those behind it have no higher ones.
theorem mostCommon_of_mostCommonPair (chosen : p.mostCommonPair = some c) : p.MostCommon c := by
  obtain ⟨m, found, rfl⟩ := Option.map_eq_some_iff.mp chosen
  have first := greatest_spec found
  obtain ⟨ordered, own, occurs⟩ := mem_pairCounts.mp first.mem
  obtain ⟨earlier, later, listed, above, level⟩ := first
  have increasing := p.pairCounts.increasing
  rw [listed] at increasing
  refine MostCommon.of_ordered ordered occurs fun d before => ?_
  by_cases nowhere : p.together d = 0
  · exact Or.inl (nowhere ▸ occurs)
  have inside : (d, p.together d) ∈ p.pairCounts.entries :=
    mem_pairCounts.mpr ⟨before, rfl, Nat.pos_of_ne_zero nowhere⟩
  rw [listed] at inside
  rcases List.mem_append.mp inside with ahead | rest
  · exact Or.inl (own ▸ above _ ahead)
  · rcases List.mem_cons.mp rest with same | behind
    · rw [← same]
      exact Or.inr ⟨rfl, Or.inl rfl⟩
    · have least : compare m.1 d = .lt :=
        (increasing_cons.mp (List.pairwise_append.mp increasing).2.1).1 _ behind
      have bound : p.together d ≤ p.together m.1 := own ▸ Nat.le_of_not_lt (level _ behind)
      exact (Nat.lt_or_eq_of_le bound).imp id fun same => ⟨same, Or.inr least⟩

theorem MostCommon.unique (left : p.MostCommon c) (right : p.MostCommon d) : c = d := by
  by_contra apart
  have most := left.most d (ne_of_before right.ordered)
  have most' := right.most c (ne_of_before left.ordered)
  have same : p.together d = p.together c := Nat.le_antisymm most most'
  have first := left.smallest d (ne_of_before right.ordered) (Ne.symm apart) same
  have second := right.smallest c (ne_of_before left.ordered) apart same.symm
  exact OrientedCmp.not_lt_of_lt first second

omit [DecidableEq A] in
theorem mostCommonPair_eq_none_iff : p.mostCommonPair = none ↔ p.degree ≤ 2 := by
  refine ⟨degree_le_of_mostCommonPair, fun low => ?_⟩
  cases chosen : p.mostCommonPair with
  | none => rfl
  | some c => exact absurd low (Nat.not_le_of_lt (lt_degree_of_mostCommonPair chosen))

/-- The chosen pair is the only one of its kind. -/
theorem mostCommonPair_greedy {R : Type} [OfNat R 0] (p : Multilinear Label R) :
    (p.mostCommonPair = none ↔ p.degree ≤ 2) ∧
      ∀ c, p.mostCommonPair = some c ↔ p.MostCommon c := by
  refine ⟨mostCommonPair_eq_none_iff, fun c => ⟨mostCommon_of_mostCommonPair, fun common => ?_⟩⟩
  cases chosen : p.mostCommonPair with
  | none =>
    obtain ⟨e, inside, high, -⟩ := common.occurs
    have low := (degree_le_of_mem inside).trans (mostCommonPair_eq_none_iff.mp chosen)
    exact absurd low (Nat.not_le_of_lt high)
  | some d => rw [common.unique (mostCommon_of_mostCommonPair chosen)]

-- Three pairs stand together in both monomials of degree four; that of degree two does not count.
example :
    let x (n : Nat) : NumericPoly := Multilinear.var (.index n)
    (x 0 * x 1 * x 2 * x 3 + x 1 * x 2 * x 3 * x 4 + x 0 * x 1).mostCommonPair =
      some ⟨.index 1, .index 2⟩ := by
  decide +kernel

end Multilinear

end PseudoBoolean
