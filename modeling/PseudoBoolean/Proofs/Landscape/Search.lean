import Mathlib.Algebra.Order.Ring.Rat
import Mathlib.Order.Bounds.Basic
import PseudoBoolean.Landscape

set_option autoImplicit false

namespace PseudoBoolean.Minimum

def level (f : Nat → Rat) (q : Rat) (bound : Nat) : List Nat :=
  (List.range bound).filter fun mask => f mask = q

structure Finds (f : Nat → Rat) (all : Bool) (bound : Nat) (q : Rat) (m : Minimum) : Prop where
  value : m.value? = some q
  least : IsLeast {v | ∃ mask < bound, f mask = v} q
  masks : m.masks.toList = if all then level f q bound else (level f q bound).take 1
  count : m.count = (level f q bound).length

variable {f : Nat → Rat} {all : Bool} {bound mask : Nat} {q : Rat} {m : Minimum}

theorem mem_level : mask ∈ level f q bound ↔ mask < bound ∧ f mask = q := by
  rw [level, List.mem_filter, List.mem_range, decide_eq_true_iff]

theorem pairwise_level (f : Nat → Rat) (q : Rat) (bound : Nat) :
    (level f q bound).Pairwise (· < ·) :=
  List.pairwise_lt_range.filter _

theorem level_succ_of_eq (same : f bound = q) :
    level f q (bound + 1) = level f q bound ++ [bound] := by
  simp [level, List.range_succ, same]

theorem level_succ_of_ne (other : f bound ≠ q) : level f q (bound + 1) = level f q bound := by
  simp [level, List.range_succ, other]

theorem level_eq_nil (above : ∀ mask < bound, q < f mask) : level f q bound = [] := by
  rw [List.eq_nil_iff_forall_not_mem]
  intro mask found
  obtain ⟨small, same⟩ := mem_level.mp found
  exact absurd same (above mask small).ne'

theorem Finds.le (finds : Finds f all bound q m) (small : mask < bound) : q ≤ f mask :=
  finds.least.2 ⟨mask, small, rfl⟩

theorem Finds.level_ne_nil (finds : Finds f all bound q m) : level f q bound ≠ [] := by
  obtain ⟨mask, reached⟩ := finds.least.1
  exact List.ne_nil_of_mem (mem_level.mpr reached)

theorem isLeast_succ (least : IsLeast {v | ∃ mask < bound, f mask = v} q) :
    IsLeast {v | ∃ mask < bound + 1, f mask = v} (min q (f bound)) := by
  constructor
  · rcases min_choice q (f bound) with same | same
    · obtain ⟨mask, small, reached⟩ := least.1
      exact ⟨mask, Nat.lt_succ_of_lt small, reached.trans same.symm⟩
    · exact ⟨bound, Nat.lt_succ_self bound, same.symm⟩
  · rintro v ⟨mask, small, rfl⟩
    rcases Nat.lt_succ_iff_lt_or_eq.mp small with old | rfl
    · exact (min_le_left _ _).trans (least.2 ⟨mask, old, rfl⟩)
    · exact min_le_right _ _

theorem finds_first (f : Nat → Rat) (all : Bool) :
    Finds f all 1 (f 0) (unset.offer all (f 0) 0) := by
  have alone : level f (f 0) 1 = [0] := level_succ_of_eq rfl
  have least : IsLeast {v | ∃ mask < 1, f mask = v} (f 0) := by
    constructor
    · exact ⟨0, Nat.one_pos, rfl⟩
    · rintro v ⟨mask, small, rfl⟩
      rw [Nat.lt_one_iff.mp small]
  refine ⟨rfl, least, ?_, ?_⟩
  · rw [alone, List.take_of_length_le (Nat.le_refl 1), ite_self]
    rfl
  · rw [alone]
    rfl

theorem Finds.offer (finds : Finds f all bound q m) :
    Finds f all (bound + 1) (min q (f bound)) (m.offer all (f bound) bound) := by
  have least := isLeast_succ finds.least
  rcases lt_trichotomy (f bound) q with lower | same | higher
  · have result : m.offer all (f bound) bound = ⟨some (f bound), #[bound], 1⟩ := by
      simp [Minimum.offer, finds.value, lower.ne', lower.le]
    have fresh : level f (f bound) (bound + 1) = [bound] := by
      rw [level_succ_of_eq rfl, level_eq_nil fun mask small => lower.trans_le (finds.le small),
        List.nil_append]
    rw [min_eq_right lower.le] at least ⊢
    rw [result]
    exact ⟨rfl, least, by simp [fresh], by simp [fresh]⟩
  · have result : m.offer all (f bound) bound =
        ⟨some q, if all then m.masks.push bound else m.masks, m.count + 1⟩ := by
      simp [Minimum.offer, finds.value, same]
    rw [min_eq_left same.ge] at least ⊢
    rw [result]
    refine ⟨rfl, least, ?_, ?_⟩
    · rw [level_succ_of_eq same]
      have masks := finds.masks
      cases all
      · have started := List.length_pos_iff.mpr finds.level_ne_nil
        simp only [Bool.false_eq_true, if_false] at masks ⊢
        rw [masks, List.take_append_of_le_length started]
      · simp only [if_true] at masks ⊢
        rw [Array.toList_push, masks]
    · rw [level_succ_of_eq same, List.length_append, List.length_singleton, finds.count]
  · have result : m.offer all (f bound) bound = m := by
      simp [Minimum.offer, finds.value, higher]
    have kept := level_succ_of_ne higher.ne'
    rw [min_eq_left higher.le] at least ⊢
    rw [result]
    exact ⟨finds.value, least, kept ▸ finds.masks, kept ▸ finds.count⟩

theorem search_succ (f : Nat → Rat) (all : Bool) (bound : Nat) :
    search f all (bound + 1) = (search f all bound).offer all (f bound) bound :=
  Nat.fold_succ ..

theorem search_finds (f : Nat → Rat) (all : Bool) {bound : Nat} (positive : 0 < bound) :
    ∃ q, Finds f all bound q (search f all bound) := by
  induction bound, positive using Nat.le_induction with
  | base => exact ⟨f 0, finds_first f all⟩
  | succ bound _ ih =>
    obtain ⟨q, finds⟩ := ih
    exact ⟨_, search_succ f all bound ▸ finds.offer⟩

end PseudoBoolean.Minimum
