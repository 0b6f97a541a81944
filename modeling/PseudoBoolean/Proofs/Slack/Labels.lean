import Mathlib.Data.Nat.Count
import PseudoBoolean.Proofs.FreshName

set_option autoImplicit false

namespace PseudoBoolean.Slack

def Free (taken : SortedSet Label) (start n : Nat) : Prop :=
  start ≤ n ∧ name n ∉ taken

instance (taken : SortedSet Label) (start : Nat) : DecidablePred (Free taken start) := fun n =>
  inferInstanceAs (Decidable (start ≤ n ∧ name n ∉ taken))

def first (taken : SortedSet Label) (start : Nat) : Nat :=
  firstFresh name taken start

variable {taken : SortedSet Label} {start : Nat}

variable (taken start) in
theorem free_first : Free taken start (first taken start) :=
  ⟨start_le_firstFresh name_injective, firstFresh_free name_injective⟩

theorem first_le {n : Nat} (free : Free taken start n) : first taken start ≤ n := by
  by_cases before : n < first taken start
  · exact absurd (taken_of_lt_firstFresh name_injective free.1 before) free.2
  · exact Nat.le_of_not_lt before

theorem labels_succ (taken : SortedSet Label) (start count : Nat) :
    labels taken start (count + 1) =
      name (first taken start) ::
        labels (taken.insert (name (first taken start))) (start + 1) count := rfl

theorem free_later {n : Nat} :
    Free (taken.insert (name (first taken start))) (start + 1) n ↔
      Free taken start n ∧ n ≠ first taken start := by
  simp only [Free, SortedSet.mem_insert, name_injective.eq_iff, not_or]
  constructor
  · rintro ⟨after, apart, free⟩
    exact ⟨⟨by omega, free⟩, apart⟩
  · rintro ⟨free, apart⟩
    have later := first_le free
    have early := (free_first taken start).1
    exact ⟨by omega, apart, free.2⟩

theorem count_free_first : Nat.count (Free taken start) (first taken start) = 0 := by
  rw [Nat.count_iff_forall_not]
  intro n before free
  exact absurd (first_le free) (Nat.not_le_of_lt before)

theorem count_free_later {n : Nat} (after : first taken start < n) :
    Nat.count (Free taken start) n =
      Nat.count (Free (taken.insert (name (first taken start))) (start + 1)) n + 1 := by
  -- Both counts grow together once the first free number is passed.
  induction n, after using Nat.le_induction with
  | base =>
    have none : Nat.count (Free (taken.insert (name (first taken start))) (start + 1))
        (first taken start + 1) = 0 := by
      rw [Nat.count_iff_forall_not]
      intro n before free
      obtain ⟨old, apart⟩ := free_later.mp free
      have later := first_le old
      omega
    rw [none, Nat.count_succ, count_free_first, if_pos (free_first taken start)]
  | succ n after ih =>
    have apart : n ≠ first taken start := by omega
    have same : Free (taken.insert (name (first taken start))) (start + 1) n ↔
        Free taken start n := by
      rw [free_later]
      exact and_iff_left apart
    simp only [Nat.count_succ, same, ih]
    omega

theorem length_labels (taken : SortedSet Label) (start count : Nat) :
    (labels taken start count).length = count := by
  induction count generalizing taken start with
  | zero => rfl
  | succ count ih => rw [labels_succ, List.length_cons, ih]

theorem mem_labels_iff {count : Nat} {v : Label} :
    v ∈ labels taken start count ↔
      ∃ n, v = name n ∧ Free taken start n ∧ Nat.count (Free taken start) n < count := by
  induction count generalizing taken start with
  | zero => simp [labels]
  | succ count ih =>
    rw [labels_succ, List.mem_cons, ih]
    constructor
    · rintro (rfl | ⟨n, rfl, free, few⟩)
      · exact ⟨first taken start, rfl, free_first taken start, by rw [count_free_first]; omega⟩
      · obtain ⟨old, apart⟩ := free_later.mp free
        have later := first_le old
        refine ⟨n, rfl, old, ?_⟩
        rw [count_free_later (by omega)]
        omega
    · rintro ⟨n, rfl, free, few⟩
      by_cases same : n = first taken start
      · exact Or.inl (congrArg name same)
      · have later := first_le free
        rw [count_free_later (by omega)] at few
        exact Or.inr ⟨n, rfl, free_later.mpr ⟨free, same⟩, by omega⟩

theorem not_taken_of_mem_labels {count : Nat} {v : Label} (member : v ∈ labels taken start count) :
    v ∉ taken := by
  obtain ⟨n, rfl, free, -⟩ := mem_labels_iff.mp member
  exact free.2

theorem nodup_labels (taken : SortedSet Label) (start count : Nat) :
    (labels taken start count).Nodup := by
  induction count generalizing taken start with
  | zero => exact List.nodup_nil
  | succ count ih =>
    rw [labels_succ]
    refine List.nodup_cons.mpr ⟨fun later => ?_, ih _ _⟩
    exact not_taken_of_mem_labels later (SortedSet.mem_insert.mpr (Or.inl rfl))

end PseudoBoolean.Slack
