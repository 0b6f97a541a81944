import Mathlib.Algebra.BigOperators.Group.List.Lemmas
import Mathlib.Algebra.BigOperators.Ring.List
import Mathlib.Algebra.Group.Hom.Instances
import Mathlib.Algebra.Order.BigOperators.Group.List
import Mathlib.Algebra.Order.Ring.Rat
import Mathlib.Tactic.Linarith
import PseudoBoolean.FormalSum

set_option autoImplicit false

namespace PseudoBoolean

open Std

section Sums

variable {D E S : Type} [AddCommMonoid S]

theorem sum_map_filter (f : E → S) (keep : E → Bool) (l : List E) :
    ((l.filter keep).map f).sum = (l.map fun x => if keep x then f x else 0).sum := by
  simp [List.sum_map_ite]

theorem sum_map_filterMap (f : E → S) (g : D → Option E) (l : List D) :
    ((l.filterMap g).map f).sum = (l.map fun x => (g x).elim 0 f).sum := by
  induction l with
  | nil => rfl
  | cons x l ih => cases kept : g x <;> simp [kept, ih]

end Sums

namespace FormalSum

variable {K R S : Type} [Ord K] [AddCommMonoid R] [AddCommMonoid S]

def fold (f : K → R →+ S) (p : FormalSum K R) : S :=
  (p.entries.map fun e => f e.1 e.2).sum

@[simp]
theorem fold_zero (f : K → R →+ S) : fold f (0 : FormalSum K R) = 0 := rfl

theorem map_fold {T : Type} [AddCommMonoid T] (g : S →+ T) (f : K → R →+ S)
    (p : FormalSum K R) : g (fold f p) = fold (fun k => g.comp (f k)) p := by
  simp only [fold, map_list_sum, List.map_map]
  rfl

theorem fold_congr {f g : K → R →+ S} (same : ∀ k c, f k c = g k c) (p : FormalSum K R) :
    fold f p = fold g p :=
  congrArg List.sum (List.map_congr_left fun e _ => same e.1 e.2)

theorem fold_mapCoeffs {T : Type} [AddCommMonoid T] [DecidableEq T] (f : K → T →+ S) (g : R →+ T)
    (p : FormalSum K R) : fold f (p.mapCoeffs g) = fold (fun k => (f k).comp g) p := by
  simp only [fold, mapCoeffs]
  induction p.entries with
  | nil => rfl
  | cons e l ih => by_cases zero : g e.2 = 0 <;> simp [zero, ih]

omit [AddCommMonoid R] [AddCommMonoid S] in
theorem entries_mapCoeffs [OfNat R 0] [OfNat S 0] [DecidableEq S] {f : R → S}
    {p : FormalSum K R} (nonzero : ∀ e ∈ p.entries, f e.2 ≠ 0) :
    (p.mapCoeffs f).entries = p.entries.map (Prod.map id f) := by
  rw [mapCoeffs, ← List.filterMap_eq_map]
  exact List.filterMap_congr fun e inside => if_neg (nonzero e inside)

section Decide

variable [DecidableEq R]

@[simp]
theorem fold_single (f : K → R →+ S) (k : K) (c : R) : fold f (single k c) = f k c := by
  by_cases zero : c = 0
  · simp [single, zero]
  · simp [single, zero, fold, SortedMap.singleton]

variable [TransOrd K] [LawfulEqOrd K]

@[simp]
theorem fold_add (f : K → R →+ S) (p q : FormalSum K R) :
    fold f (p + q) = fold f p + fold f q := by
  refine (merged p.entries q.entries).sum_map (fun _ => rfl)
    (fun left right => congrArg₂ (· + ·) left right) (fun e => f e.1 e.2) ?_
  intro x y level
  have equal : x.1 = y.1 := LawfulEqOrd.eq_of_compare level
  by_cases zero : x.2 + y.2 = 0
  · simp [joinTerms, zero, ← equal, ← map_add]
  · simp [joinTerms, zero, ← equal]

@[simp]
theorem fold_ofList (f : K → R →+ S) (l : List (K × R)) :
    fold f (ofList l) = (l.map fun e => f e.1 e.2).sum := by
  induction l with
  | nil => rfl
  | cons e l ih =>
    have first : ofList (e :: l) = single e.1 e.2 + ofList l := rfl
    rw [first, fold_add, fold_single, ih, List.map_cons, List.sum_cons]

theorem fold_ofList_map {D : Type} (f : K → R →+ S) (g : D → K × R) (l : List D) :
    fold f (ofList (l.map g)) = (l.map fun x => f (g x).1 (g x).2).sum := by
  rw [fold_ofList, List.map_map]
  rfl

theorem fold_ofList_flatMap {D : Type} (f : K → R →+ S) (g : D → List (K × R)) (l : List D) :
    fold f (ofList (l.flatMap g)) = (l.map fun x => ((g x).map fun e => f e.1 e.2).sum).sum := by
  rw [fold_ofList, List.map_flatMap, List.flatMap_def, List.sum_flatten, List.map_map]
  rfl

@[simp]
theorem fold_sum (f : K → R →+ S) (l : List (FormalSum K R)) :
    fold f (sum l) = (l.map (fold f)).sum := by
  induction l with
  | nil => rfl
  | cons p l ih =>
    have first : sum (p :: l) = p + sum l := rfl
    rw [first, fold_add, ih, List.map_cons, List.sum_cons]

end Decide

section Coefficient

variable [LawfulEqOrd K]

def pick (k j : K) : R →+ R :=
  if compare k j = .eq then AddMonoidHom.id R else 0

theorem sum_pick_absent {k : K} {l : List (K × R)} (absent : ∀ e ∈ l, k ≠ e.1) :
    (l.map fun e => pick k e.1 e.2).sum = 0 := by
  induction l with
  | nil => rfl
  | cons e l ih =>
    obtain ⟨first, rest⟩ := List.forall_mem_cons.mp absent
    have apart : compare k e.1 ≠ .eq := fun level => first (LawfulEqOrd.eq_of_compare level)
    rw [List.map_cons, List.sum_cons, ih rest]
    simp [pick, apart]

-- Where the keys differ, one term alone has the key `k`.
theorem sum_pick_of_mem {l : List (K × R)} (nodup : (l.map Prod.fst).Nodup) {e : K × R}
    (inside : e ∈ l) : (l.map fun t => pick e.1 t.1 t.2).sum = e.2 := by
  induction l with
  | nil => exact absurd inside List.not_mem_nil
  | cons t l ih =>
    obtain ⟨new, distinct⟩ := List.nodup_cons.mp nodup
    rw [List.map_cons, List.sum_cons]
    rcases List.mem_cons.mp inside with rfl | later
    · have rest : (l.map fun t => pick e.1 t.1 t.2).sum = 0 :=
        sum_pick_absent fun t other same => new (same ▸ List.mem_map_of_mem other)
      rw [rest]
      simp [pick]
    · have apart : compare e.1 t.1 ≠ .eq := fun level =>
        new (LawfulEqOrd.eq_of_compare level ▸ List.mem_map_of_mem later)
      rw [ih distinct later]
      simp [pick, apart]

theorem find_eq_sum {k : K} {l : List (K × R)} (increasing : IncreasingOn Prod.fst l) :
    (SortedMap.find k l).getD 0 = (l.map fun e => pick k e.1 e.2).sum := by
  induction l with
  | nil => rfl
  | cons e l ih =>
    obtain ⟨first, rest⟩ := increasing_cons.mp increasing
    by_cases level : compare k e.1 = .eq
    · have equal : k = e.1 := LawfulEqOrd.eq_of_compare level
      rw [List.map_cons, List.sum_cons,
        sum_pick_absent fun t later => ne_of_before (equal ▸ first t later)]
      simp [SortedMap.find, pick, level]
    · rw [List.map_cons, List.sum_cons, ← ih rest]
      simp [SortedMap.find, pick, level]

theorem coeffAt_eq_fold (p : FormalSum K R) (k : K) : p.coeffAt k = fold (pick k) p :=
  find_eq_sum p.increasing

@[simp]
theorem coeffAt_add [TransOrd K] [DecidableEq R] (p q : FormalSum K R) (k : K) :
    (p + q).coeffAt k = p.coeffAt k + q.coeffAt k := by
  simp only [coeffAt_eq_fold, fold_add]

theorem coeffAt_mapCoeffs {T : Type} [AddCommMonoid T] [DecidableEq T] (g : R →+ T)
    (p : FormalSum K R) (k : K) : (p.mapCoeffs g).coeffAt k = g (p.coeffAt k) := by
  rw [coeffAt_eq_fold, coeffAt_eq_fold, fold_mapCoeffs, map_fold]
  refine fold_congr (fun j c => ?_) p
  by_cases level : compare k j = .eq <;> simp [pick, level]

theorem coeffAt_of_mem {p : FormalSum K R} {e : K × R} (inside : e ∈ p.entries) :
    p.coeffAt e.1 = e.2 := by
  have found : p.get? e.1 = some e.2 := SortedMap.get_eq_some.mpr inside
  rw [coeffAt, found, Option.getD_some]

theorem mem_of_coeffAt {p : FormalSum K R} {k : K} (present : p.coeffAt k ≠ 0) :
    (k, p.coeffAt k) ∈ p.entries := by
  cases found : p.get? k with
  | none => simp [coeffAt, found] at present
  | some c =>
    rw [coeffAt, found]
    exact SortedMap.get_eq_some.mp found

theorem coeffAt_eq_zero {p : FormalSum K R} {k : K} (absent : ∀ e ∈ p.entries, e.1 ≠ k) :
    p.coeffAt k = 0 := by
  by_contra present
  exact absent _ (mem_of_coeffAt present) rfl

theorem coeffAt_ofList [TransOrd K] [DecidableEq R] (l : List (K × R)) (k : K) :
    (ofList l).coeffAt k = (l.map fun e => pick k e.1 e.2).sum := by
  rw [coeffAt_eq_fold, fold_ofList]

theorem ofList_entries [TransOrd K] [DecidableEq R] (p : FormalSum K R) : ofList p.entries = p := by
  apply ext_coeff
  intro k
  rw [coeffAt_ofList, coeffAt_eq_fold, fold]

theorem entries_ofList [TransOrd K] [DecidableEq R] {l : List (K × R)}
    (increasing : IncreasingOn Prod.fst l) (nonzero : ∀ e ∈ l, e.2 ≠ 0) :
    (ofList l).entries = l :=
  congrArg (fun p : FormalSum K R => p.entries) (ofList_entries ⟨⟨l, increasing⟩, nonzero⟩)

theorem mem_entries_ofList [TransOrd K] [DecidableEq R] {l : List (K × R)}
    (nodup : (l.map Prod.fst).Nodup) (nonzero : ∀ e ∈ l, e.2 ≠ 0) {e : K × R} :
    e ∈ (ofList l).entries ↔ e ∈ l := by
  have coeff {t : K × R} (listed : t ∈ l) : (ofList l).coeffAt t.1 = t.2 := by
    rw [coeffAt_ofList, sum_pick_of_mem nodup listed]
  constructor
  · intro inside
    obtain ⟨t, listed, same⟩ := key_mem_ofList inside
    have value := coeffAt_of_mem inside
    rw [← same, coeff listed] at value
    exact Prod.ext same value ▸ listed
  · intro listed
    have present : (ofList l).coeffAt e.1 ≠ 0 := (coeff listed).symm ▸ nonzero e listed
    have found := mem_of_coeffAt present
    rwa [coeff listed] at found

theorem coeffAt_counts [TransOrd K] [DecidableEq K] (l : List K) (k : K) :
    (counts l).coeffAt k = l.count k := by
  rw [counts, coeffAt_ofList, List.map_map]
  induction l with
  | nil => rfl
  | cons j l ih =>
    rw [List.map_cons, List.sum_cons, ih, List.count_cons, Nat.add_comm, Function.comp_apply]
    by_cases same : j = k
    · simp [pick, same]
    · have apart : compare k j ≠ .eq := fun level => same (LawfulEqOrd.eq_of_compare level).symm
      simp only [pick, if_neg apart, beq_iff_eq, if_neg same, AddMonoidHom.zero_apply]

end Coefficient

end FormalSum

end PseudoBoolean
