import Mathlib.Data.List.Nodup
import Mathlib.Data.List.Perm.Subperm
import PseudoBoolean.Penalty
import PseudoBoolean.Quadratization

set_option autoImplicit false

namespace PseudoBoolean

section Search

variable {name : Nat → Label} (taken : SortedSet Label) (start : Nat)

theorem exists_free (differ : Function.Injective name) :
    ∃ n ∈ List.range' start (taken.size + 1), name n ∉ taken := by
  -- Otherwise there are more candidates than taken labels.
  refine Classical.byContradiction fun none => ?_
  have all : ∀ n ∈ List.range' start (taken.size + 1), name n ∈ taken := fun n inside =>
    Classical.byContradiction fun free => none ⟨n, inside, free⟩
  have nodup : ((List.range' start (taken.size + 1)).map name).Nodup :=
    (List.nodup_range').map differ
  have included : (List.range' start (taken.size + 1)).map name ⊆ taken.toList := by
    intro v member
    obtain ⟨n, inside, rfl⟩ := List.mem_map.mp member
    exact all n inside
  have short := (List.subperm_of_subset nodup included).length_le
  simp only [List.length_map, List.length_range', SortedSet.size] at short
  omega

theorem find_firstFresh (differ : Function.Injective name) :
    (List.range' start (taken.size + 1)).find? (fun n => name n ∉ taken) =
      some (firstFresh name taken start) := by
  cases found : (List.range' start (taken.size + 1)).find? fun n => name n ∉ taken with
  | none =>
    obtain ⟨n, inside, free⟩ := exists_free taken start differ
    exact absurd (by simpa using free) (List.find?_eq_none.mp found n inside)
  | some n => rw [firstFresh, found, Option.getD_some]

variable {taken start}

theorem firstFresh_free (differ : Function.Injective name) :
    name (firstFresh name taken start) ∉ taken := by
  have found := (List.find?_range'_eq_some.mp (find_firstFresh taken start differ)).1
  simpa using found

theorem start_le_firstFresh (differ : Function.Injective name) :
    start ≤ firstFresh name taken start := by
  have found := (List.find?_range'_eq_some.mp (find_firstFresh taken start differ)).2.1
  exact (List.mem_range'_1.mp found).1

theorem taken_of_lt_firstFresh (differ : Function.Injective name) {n : Nat} (after : start ≤ n)
    (before : n < firstFresh name taken start) : name n ∈ taken := by
  have found := (List.find?_range'_eq_some.mp
    (find_firstFresh taken start differ)).2.2 n after before
  simpa using found

end Search

theorem repr_injective : Function.Injective Nat.repr := by
  intro m n same
  have digits : Nat.toDigits 10 m = Nat.toDigits 10 n := by
    rw [← Nat.toList_repr, ← Nat.toList_repr, same]
  rw [← Nat.ofDigitChars_ten_toDigits (n := m), digits, Nat.ofDigitChars_ten_toDigits]

theorem Slack.name_injective : Function.Injective Slack.name := by
  intro m n same
  exact repr_injective ((String.append_right_inj _).mp (Label.name.inj same))

theorem Quadratization.ancillaName_injective (stem : String) (c : Pair Label) :
    Function.Injective (ancillaName stem c) := by
  intro m n same
  have texts := Label.name.inj same
  simp only [String.append_left_inj, String.append_right_inj] at texts
  exact repr_injective texts

end PseudoBoolean
