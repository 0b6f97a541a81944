import Mathlib.Data.Nat.Bitwise
import Mathlib.Data.Set.Function
import PseudoBoolean.Proofs.Assignment
import PseudoBoolean.Proofs.Multilinear.Value
import PseudoBoolean.Qubo

set_option autoImplicit false

namespace PseudoBoolean

namespace Indexing

variable {x : Indexing} {v : Label} {i : Nat}

theorem index_eq_some : x.index? v = some i ↔ x.label? i = some v := by
  rw [index?, label?, List.idxOf?_eq_some_iff, List.getElem?_eq_some_iff]
  constructor
  · rintro ⟨bound, same, -⟩
    exact ⟨bound, same⟩
  · rintro ⟨bound, same⟩
    refine ⟨bound, same, fun j before other => ?_⟩
    have equal := x.labels.nodup_toList.getElem_inj_iff.mp (other.trans same.symm)
    omega

theorem exists_index (inside : v ∈ x.labels) : ∃ i, x.index? v = some i := by
  obtain ⟨i, found⟩ := List.mem_iff_getElem?.mp inside
  exact ⟨i, index_eq_some.mpr found⟩

def pull (x : Indexing) (σ : Nat → Bool) (v : Label) : Bool :=
  ((x.index? v).map σ).getD false

theorem pull_of_index {σ : Nat → Bool} (found : x.index? v = some i) : x.pull σ v = σ i := by
  rw [pull, found, Option.map_some, Option.getD_some]

theorem holds_encode {m : Monomial Label} (inside : ∀ v ∈ m, v ∈ x.labels) (σ : Nat → Bool) :
    (x.encode m).holds σ = m.holds (x.pull σ) := by
  rw [Bool.eq_iff_iff, Monomial.holds_iff, Monomial.holds_iff]
  constructor
  · intro held v member
    obtain ⟨i, found⟩ := exists_index (inside v member)
    rw [pull_of_index found]
    exact held i (SortedSet.mem_ofList.mpr (List.mem_filterMap.mpr ⟨v, member, found⟩))
  · intro held i member
    obtain ⟨v, inside, found⟩ := List.mem_filterMap.mp (SortedSet.mem_ofList.mp member)
    have truth := held v inside
    rwa [pull_of_index found] at truth

theorem mem_decode {m : Monomial Nat} : v ∈ x.decode m ↔ ∃ i ∈ m, x.label? i = some v := by
  rw [decode, SortedSet.mem_ofList, List.mem_filterMap]
  rfl

theorem holds_decode {m : Monomial Nat} (inside : ∀ i ∈ m, i < x.size) (σ : Nat → Bool) :
    (x.decode m).holds (x.pull σ) = m.holds σ := by
  rw [Bool.eq_iff_iff, Monomial.holds_iff, Monomial.holds_iff]
  constructor
  · intro held i member
    have bound : i < x.labels.toList.length := inside i member
    have found : x.label? i = some x.labels.toList[i] := List.getElem?_eq_getElem bound
    have truth := held _ (mem_decode.mpr ⟨i, member, found⟩)
    rwa [pull_of_index (index_eq_some.mpr found)] at truth
  · intro held v member
    obtain ⟨i, inside, found⟩ := mem_decode.mp member
    rw [pull_of_index (index_eq_some.mpr found)]
    exact held i inside

theorem valueAt_encode {p : NumericPoly} (inside : ∀ v ∈ Multilinear.vars p, v ∈ x.labels)
    (σ : Nat → Bool) :
    Multilinear.valueAt σ (Qubo.encode x p) = Multilinear.valueAt (x.pull σ) p := by
  rw [Qubo.encode, Multilinear.valueAt_ofList_map, Multilinear.valueAt, sum_map_filter]
  refine congrArg List.sum (List.map_congr_left fun e member => ?_)
  rw [holds_encode fun v held => inside v (Multilinear.mem_vars.mpr ⟨e, member, held⟩)]

theorem testBit_foldl (l : List Nat) (bits j : Nat) :
    (l.foldl (fun bits i => bits ||| 1 <<< i) bits).testBit j = true ↔
      bits.testBit j = true ∨ j ∈ l := by
  induction l generalizing bits with
  | nil => simp
  | cons i l ih =>
    rw [List.foldl_cons, ih, Nat.testBit_or, Nat.one_shiftLeft, Nat.testBit_two_pow,
      Bool.or_eq_true, decide_eq_true_iff, List.mem_cons, or_assoc, eq_comm (a := i)]

theorem testBit_mask {m : Monomial Label} :
    (x.mask m).testBit i = true ↔ ∃ v ∈ m, x.index? v = some i := by
  rw [mask, testBit_foldl, Nat.zero_testBit, List.mem_filterMap]
  simp [SortedSet.mem_toList]

theorem mask_and_eq_iff {m : Monomial Label} (inside : ∀ v ∈ m, v ∈ x.labels) (mask : Nat) :
    x.mask m &&& mask = x.mask m ↔ m.holds (x.pull mask.testBit) = true := by
  rw [Monomial.holds_iff]
  constructor
  · intro part v member
    obtain ⟨i, found⟩ := exists_index (inside v member)
    have own : (x.mask m).testBit i = true := testBit_mask.mpr ⟨v, member, found⟩
    rw [← part, Nat.testBit_and, Bool.and_eq_true] at own
    rw [pull_of_index found, own.2]
  · intro held
    apply Nat.eq_of_testBit_eq
    intro i
    rw [Nat.testBit_and, Bool.and_eq_left_iff_imp]
    intro own
    obtain ⟨v, member, found⟩ := testBit_mask.mp own
    exact (pull_of_index found).symm.trans (held v member)

theorem map_pull (x : Indexing) (σ : Nat → Bool) :
    x.labels.toList.map (x.pull σ) = (List.range x.size).map σ := by
  apply List.ext_getElem
  · simp [Indexing.size, SortedSet.size]
  · intro i bound small
    rw [List.length_map] at bound
    have found : x.index? x.labels.toList[i] = some i :=
      index_eq_some.mpr (List.getElem?_eq_getElem bound)
    rw [List.getElem_map, List.getElem_map, List.getElem_range, pull_of_index found]

theorem map_pull_getD {bits : List Bool} (fits : bits.length = x.size) :
    x.labels.toList.map (x.pull fun i => bits.getD i false) = bits := by
  rw [map_pull]
  apply List.ext_getElem
  · rw [List.length_map, List.length_range, fits]
  · intro i _ bound
    rw [List.getElem_map, List.getElem_range, List.getD_eq_getElem bits false bound]

theorem assign_eq {bits : List Bool} (fits : bits.length = x.size) :
    x.assign bits = Assignment.ofTruth x.labels (x.pull fun i => bits.getD i false) := by
  rw [assign, Assignment.ofTruth, map_pull_getD fits]

theorem ofMask_eq (x : Indexing) (mask : Nat) :
    x.ofMask mask = Assignment.ofTruth x.labels (x.pull mask.testBit) := by
  rw [ofMask, assign, ← map_pull]
  rfl

def maskOf (x : Indexing) (σ : Label → Bool) : Nat :=
  Nat.ofBits fun i : Fin x.size => ((x.label? i).map σ).getD false

theorem maskOf_lt (x : Indexing) (σ : Label → Bool) : x.maskOf σ < 2 ^ x.size :=
  Nat.ofBits_lt_two_pow _

theorem testBit_maskOf {σ : Label → Bool} (found : x.index? v = some i) :
    (x.maskOf σ).testBit i = σ v := by
  rw [maskOf, Nat.testBit_ofBits_lt _ i (index_lt_size found), index_eq_some.mp found,
    Option.map_some, Option.getD_some]

theorem pull_maskOf {σ : Label → Bool} (inside : v ∈ x.labels) :
    x.pull (x.maskOf σ).testBit v = σ v := by
  obtain ⟨i, found⟩ := exists_index inside
  rw [pull_of_index found, testBit_maskOf found]

theorem ofMask_maskOf (x : Indexing) (σ : Label → Bool) :
    x.ofMask (x.maskOf σ) = Assignment.ofTruth x.labels σ := by
  rw [ofMask_eq]
  exact Assignment.ofTruth_congr fun _ => pull_maskOf

theorem testBit_outside {mask : Nat} (small : mask < 2 ^ x.size) (outside : ¬i < x.size) :
    mask.testBit i = false := by
  have high : 2 ^ x.size ≤ 2 ^ i := Nat.pow_le_pow_right Nat.two_pos (Nat.le_of_not_lt outside)
  exact Nat.testBit_lt_two_pow (Nat.lt_of_lt_of_le small high)

-- A bit within the size is the truth value of its label, and the others are zero.
theorem maskOf_ofMask {mask : Nat} (small : mask < 2 ^ x.size) :
    x.maskOf (x.ofMask mask).truth = mask := by
  apply Nat.eq_of_testBit_eq
  intro i
  by_cases inside : i < x.size
  · have found : x.index? x.labels.toList[i] = some i :=
      index_eq_some.mpr (List.getElem?_eq_getElem inside)
    rw [testBit_maskOf found, ofMask_eq, Assignment.truth_ofTruth (List.getElem_mem inside),
      pull_of_index found]
  · rw [testBit_outside (x.maskOf_lt _) inside, testBit_outside small inside]

theorem ofMask_injOn (x : Indexing) : Set.InjOn x.ofMask {mask | mask < 2 ^ x.size} := by
  intro mask small other smallOther same
  rw [← maskOf_ofMask small, same, maskOf_ofMask smallOther]

end Indexing

end PseudoBoolean
