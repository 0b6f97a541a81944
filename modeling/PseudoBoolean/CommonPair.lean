import PseudoBoolean.Foremost
import PseudoBoolean.Multilinear

set_option autoImplicit false

namespace PseudoBoolean

open Std

@[ext]
structure Pair (A : Type) where
  left : A
  right : A
deriving DecidableEq

namespace Pair

variable {A : Type} [Ord A]

instance : Ord (Pair A) where
  compare := compareLex (compareOn left) (compareOn right)

instance [TransOrd A] : TransOrd (Pair A) :=
  inferInstanceAs (TransCmp (compareLex (compareOn left) (compareOn right)))

instance [LawfulEqOrd A] : LawfulEqOrd (Pair A) where
  compare_self := by simp [compare, compareLex, compareOn]
  eq_of_compare same := by
    simp only [compare, compareLex_eq_eq, compareOn] at same
    exact Pair.ext (LawfulEqOrd.eq_of_compare same.1) (LawfulEqOrd.eq_of_compare same.2)

theorem lt_of_left_lt {c d : Pair A} (before : compare c.left d.left = .lt) :
    compare c d = .lt := by
  simp [compare, compareLex, compareOn, before]

end Pair

namespace Multilinear

open Std

variable {A R : Type} [Ord A] [OfNat R 0]

def pairsOf : List A → List (Pair A)
  | [] => []
  | u :: rest => rest.map (Pair.mk u) ++ pairsOf rest

theorem mem_pairsOf {l : List A} (increasing : IncreasingOn id l) {c : Pair A}
    (member : c ∈ pairsOf l) :
    c.left ∈ l ∧ c.right ∈ l ∧ compare c.left c.right = .lt := by
  induction l with
  | nil => exact absurd member List.not_mem_nil
  | cons u l ih =>
    obtain ⟨first, rest⟩ := increasing_cons.mp increasing
    rcases List.mem_append.mp member with here | later
    · obtain ⟨v, inside, rfl⟩ := List.mem_map.mp here
      exact ⟨List.mem_cons_self, List.mem_cons_of_mem u inside, first v inside⟩
    · obtain ⟨left, right, before⟩ := ih rest later
      exact ⟨List.mem_cons_of_mem u left, List.mem_cons_of_mem u right, before⟩

omit [Ord A] in
theorem length_le_of_pairsOf_eq_nil {l : List A} (nothing : pairsOf l = []) : l.length ≤ 1 := by
  cases l with
  | nil => simp
  | cons u l =>
    have : l = [] := by simpa using (List.append_eq_nil_iff.mp nothing).1
    simp [this]

def greatest {K : Type} (l : List (K × Nat)) : Option (K × Nat) :=
  foremost (fun e f => f.2 < e.2) l

theorem greatest_spec {K : Type} {l : List (K × Nat)} {e : K × Nat}
    (found : greatest l = some e) : Foremost (fun e f => f.2 < e.2) e l := by
  refine foremost_spec ⟨fun above => ?_, fun above level => ?_⟩ found
  · exact Nat.lt_asymm above
  · exact Nat.lt_of_le_of_lt (Nat.le_of_not_lt level) above

variable [TransOrd A] [LawfulEqOrd A]

def pairCounts (p : Multilinear A R) : FormalSum (Pair A) Nat :=
  FormalSum.sum ((p.entries.filter fun e => 2 < e.1.degree).map fun e =>
    FormalSum.counts (pairsOf e.1.toList))

-- Of the pairs with the greatest count the smallest is taken.
def mostCommonPair (p : Multilinear A R) : Option (Pair A) :=
  (greatest p.pairCounts.entries).map Prod.fst

theorem mostCommonPair_mem {p : Multilinear A R} {c : Pair A}
    (chosen : p.mostCommonPair = some c) :
    ∃ e ∈ p.entries, 2 < e.1.degree ∧ c.left ∈ e.1 ∧ c.right ∈ e.1 ∧
      compare c.left c.right = .lt := by
  obtain ⟨e, found, rfl⟩ := Option.map_eq_some_iff.mp chosen
  obtain ⟨q, inside, f, counted, same⟩ := FormalSum.key_mem_sum (greatest_spec found).mem
  obtain ⟨t, kept, rfl⟩ := List.mem_map.mp inside
  obtain ⟨member, high⟩ := List.mem_filter.mp kept
  have held := mem_pairsOf t.1.increasing (FormalSum.key_mem_counts counted)
  rw [same] at held
  exact ⟨t, member, by simpa using high, held⟩

theorem lt_degree_of_mostCommonPair {p : Multilinear A R} {c : Pair A}
    (chosen : p.mostCommonPair = some c) : 2 < p.degree := by
  obtain ⟨e, inside, high, -⟩ := mostCommonPair_mem chosen
  exact Nat.lt_of_lt_of_le high (degree_le_of_mem inside)

theorem degree_le_of_mostCommonPair {p : Multilinear A R} (nothing : p.mostCommonPair = none) :
    p.degree ≤ 2 := by
  rw [degree_le_iff]
  intro e member
  refine Nat.le_of_not_lt fun high => ?_
  have empty := foremost_eq_none.mp (Option.map_eq_none_iff.mp nothing)
  have each := FormalSum.sum_eq_nil empty (FormalSum.counts (pairsOf e.1.toList))
    (List.mem_map.mpr ⟨e, List.mem_filter.mpr ⟨member, by simpa using high⟩, rfl⟩)
  have short := length_le_of_pairsOf_eq_nil (FormalSum.counts_eq_nil each)
  simp only [Monomial.degree, SortedSet.size] at high
  omega

end Multilinear

end PseudoBoolean
