import Mathlib.Data.Set.Finite.List
import PseudoBoolean.Proofs.Multilinear.Unique

set_option autoImplicit false

namespace PseudoBoolean.Multilinear

open Std FormalSum

variable {A : Type} [Ord A] [LawfulEqOrd A]

omit [LawfulEqOrd A] in
theorem isConstant_iff {m : Monomial A} : m.isConstant = true ↔ m = 1 := by
  simp only [Monomial.isConstant, SortedSet.isEmpty, List.isEmpty_iff]
  exact ⟨fun nothing => SortedSet.ext nothing, fun same => same ▸ rfl⟩

theorem valueAt_eq_offset_add (σ : A → Bool) (p : Multilinear A Rat) :
    p.valueAt σ = p.offset +
      (p.entries.map fun e => if !e.1.isConstant && e.1.holds σ then e.2 else 0).sum := by
  rw [valueAt, sum_map_filter, offset, coeffAt_eq_fold, fold, ← List.sum_map_add]
  refine congrArg List.sum (List.map_congr_left fun e _ => ?_)
  by_cases constant : e.1 = 1
  · simp [constant, pick, isConstant_iff.mpr]
  · have apart : compare 1 e.1 ≠ .eq := fun same =>
      constant (LawfulEqOrd.eq_of_compare same).symm
    have proper : e.1.isConstant = false := by
      rw [Bool.eq_false_iff]
      exact fun closed => constant (isConstant_iff.mp closed)
    simp [pick, apart, proper]

theorem coefficientBounds_encloses (σ : A → Bool) (p : Multilinear A Rat) :
    p.coefficientBounds.Encloses (p.valueAt σ) := by
  rw [valueAt_eq_offset_add]
  simp only [Bounds.Encloses, coefficientBounds, sum_map_filter]
  constructor
  · apply add_le_add_right
    apply List.sum_le_sum
    intro e _
    cases e.1.isConstant <;> cases e.1.holds σ <;> by_cases sign : e.2 < 0 <;> simp [sign] <;>
      linarith
  · apply add_le_add_right
    apply List.sum_le_sum
    intro e _
    cases e.1.isConstant <;> cases e.1.holds σ <;> by_cases sign : 0 < e.2 <;> simp [sign] <;>
      linarith

section Attained

def Separate {R : Type} [OfNat R 0] (p : Multilinear A R) : Prop :=
  ∀ e ∈ p.entries, ∀ f ∈ p.entries, ∀ a, a ∈ e.1 → a ∈ f.1 → e.1 = f.1

theorem separate_of_linear [TransOrd A] {R : Type} [OfNat R 0] {p : Multilinear A R}
    (linear : p.degree ≤ 1) : p.Separate := by
  intro e inside f found a left right
  have alone {m : Monomial A} (small : m.degree ≤ 1) (member : a ∈ m) :
      SortedSet.singleton a = m :=
    Monomial.eq_of_subset (fun b same => SortedSet.mem_singleton.mp same ▸ member) small
  rw [← alone ((degree_le_of_mem inside).trans linear) left,
    ← alone ((degree_le_of_mem found).trans linear) right]

omit [LawfulEqOrd A] in
theorem Separate.mapCoeffs {R S : Type} [OfNat R 0] [OfNat S 0] [DecidableEq S]
    {p : Multilinear A R} (separate : p.Separate) (f : R → S) : Separate (p.mapCoeffs f) := by
  intro e inside e' inside' a left right
  obtain ⟨t, found, rfl⟩ := exists_of_mem_mapCoeffs inside
  obtain ⟨t', found', rfl⟩ := exists_of_mem_mapCoeffs inside'
  exact separate t found t' found' a left right

variable {p : Multilinear A Rat}

-- Separate monomials can be made true independently of each other.
theorem exists_holds_iff (separate : p.Separate) (keep : Rat → Bool) :
    ∃ σ : A → Bool, ∀ e ∈ p.entries, e.1.isConstant = false → e.1.holds σ = keep e.2 := by
  classical
  refine ⟨fun a => decide (∃ e ∈ p.entries, a ∈ e.1 ∧ keep e.2 = true), ?_⟩
  intro e inside proper
  rw [Bool.eq_iff_iff, Monomial.holds_iff]
  constructor
  · intro held
    have some : e.1.toList ≠ [] := by simpa [Monomial.isConstant, SortedSet.isEmpty] using proper
    obtain ⟨a, member⟩ := List.exists_mem_of_ne_nil e.1.toList some
    obtain ⟨f, found, shared, kept⟩ := of_decide_eq_true (held a member)
    have same : e.1 = f.1 := separate e inside f found a member shared
    rwa [← coeffAt_of_mem inside, same, coeffAt_of_mem found]
  · exact fun kept a member => decide_eq_true ⟨e, inside, member, kept⟩

theorem exists_valueAt_eq (separate : p.Separate) (keep : Rat → Bool) :
    ∃ σ, p.valueAt σ = p.offset +
      (((p.entries.filter fun e => !e.1.isConstant).filter (keep ·.2)).map Prod.snd).sum := by
  obtain ⟨σ, chosen⟩ := exists_holds_iff separate keep
  refine ⟨σ, (valueAt_eq_offset_add σ p).trans (congrArg _ ?_)⟩
  rw [List.filter_filter, sum_map_filter]
  refine congrArg List.sum (List.map_congr_left fun e inside => ?_)
  cases constant : e.1.isConstant with
  | true => simp
  | false => simp [chosen e inside constant]

theorem coefficientBounds_attained (separate : p.Separate) :
    (∃ σ, p.valueAt σ = p.coefficientBounds.lo) ∧ ∃ σ, p.valueAt σ = p.coefficientBounds.hi :=
  ⟨exists_valueAt_eq separate fun q => q < 0, exists_valueAt_eq separate fun q => 0 < q⟩

end Attained

omit [LawfulEqOrd A] in
theorem finite_values {R : Type} [AddCommMonoid R] (p : Multilinear A R) :
    (Set.range fun σ => p.valueAt σ).Finite := by
  have parts : {l | l ∈ p.entries.sublists}.Finite := List.finite_toSet _
  refine (parts.image fun l => (l.map Prod.snd).sum).subset ?_
  rintro _ ⟨σ, rfl⟩
  exact ⟨_, List.mem_sublists.mpr List.filter_sublist, rfl⟩

end PseudoBoolean.Multilinear
