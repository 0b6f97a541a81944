import PseudoBoolean.Increasing

set_option autoImplicit false

namespace PseudoBoolean

open Std

variable {A : Type} [Ord A] {a b : A} {l : List A}

def Ascending (l : List A) : Prop :=
  l.Pairwise fun a b => (compare a b).isLE

-- Evaluates in proofs, which the merge sort of the library does not.
def place (a : A) : List A → List A
  | [] => [a]
  | b :: l => if (compare a b).isLE then a :: b :: l else b :: place a l

def sort (l : List A) : List A :=
  l.foldr place []

theorem place_append {k : List A} (behind : ∀ b ∈ l, (!(compare a b).isLE) = true)
    (before : ∀ b ∈ k, (compare a b).isLE) : place a (l ++ k) = l ++ a :: k := by
  induction l with
  | nil =>
    cases k with
    | nil => rfl
    | cons c k => exact if_pos (before c List.mem_cons_self)
  | cons b l ih =>
    obtain ⟨first, rest⟩ := List.forall_mem_cons.mp behind
    have larger : ¬ (compare a b).isLE = true := by simpa using first
    rw [List.cons_append, place, if_neg larger, ih rest, List.cons_append]

section Lawful

variable [TransOrd A]

theorem isLE_total (a b : A) : ((compare a b).isLE || (compare b a).isLE) = true := by
  cases order : (compare a b).isLE with
  | true => rfl
  | false => exact Ordering.isLE_of_eq_lt (OrientedCmp.lt_of_not_isLE (by simp [order]))

theorem ascending_mergeSort (l : List A) :
    Ascending (l.mergeSort fun a b => (compare a b).isLE) :=
  List.pairwise_mergeSort (fun _ _ _ => TransCmp.isLE_trans) isLE_total l

theorem sort_eq_mergeSort (l : List A) : sort l = l.mergeSort fun a b => (compare a b).isLE := by
  induction l with
  | nil => exact List.mergeSort_nil.symm
  | cons a l ih =>
    obtain ⟨front, back, whole, parts, behind⟩ := @List.mergeSort_cons A
      (fun a b => (compare a b).isLE) (fun _ _ _ => TransCmp.isLE_trans) isLE_total a l
    have ascending := ascending_mergeSort (a :: l)
    rw [whole] at ascending
    obtain ⟨-, rest, -⟩ := List.pairwise_append.mp ascending
    have placed : sort (a :: l) = place a (sort l) := rfl
    rw [placed, ih, parts, whole, place_append behind (List.pairwise_cons.mp rest).1]

theorem perm_sort (l : List A) : (sort l).Perm l :=
  sort_eq_mergeSort l ▸ List.mergeSort_perm l _

theorem ascending_sort (l : List A) : Ascending (sort l) :=
  sort_eq_mergeSort l ▸ ascending_mergeSort l

end Lawful

def changes (a : A) : List A → List A
  | [] => []
  | b :: l => if compare a b = .eq then changes a l else b :: changes b l

def dropRepeats : List A → List A
  | [] => []
  | a :: l => a :: changes a l

theorem length_changes_le (a : A) (l : List A) : (changes a l).length ≤ l.length := by
  induction l generalizing a with
  | nil => exact Nat.le_refl 0
  | cons b l ih =>
    simp only [changes]
    split
    · exact Nat.le_succ_of_le (ih a)
    · exact Nat.succ_le_succ (ih b)

theorem length_dropRepeats_le (l : List A) : (dropRepeats l).length ≤ l.length := by
  cases l with
  | nil => exact Nat.le_refl 0
  | cons a l => exact Nat.succ_le_succ (length_changes_le a l)

theorem mem_cons_changes [LawfulEqOrd A] : b ∈ a :: changes a l ↔ b ∈ a :: l := by
  induction l generalizing a with
  | nil => exact Iff.rfl
  | cons c l ih =>
    simp only [changes]
    split
    next level =>
      have equal : a = c := LawfulEqOrd.eq_of_compare level
      subst equal
      rw [ih, List.mem_cons, List.mem_cons, List.mem_cons, ← or_assoc, or_self]
    next => rw [List.mem_cons, ih, List.mem_cons (l := c :: l)]

theorem mem_dropRepeats [LawfulEqOrd A] : b ∈ dropRepeats l ↔ b ∈ l := by
  cases l with
  | nil => exact Iff.rfl
  | cons a l => exact mem_cons_changes

theorem increasing_cons_changes [TransOrd A] [LawfulEqOrd A] (ascending : Ascending (a :: l)) :
    IncreasingOn id (a :: changes a l) := by
  induction l generalizing a with
  | nil => exact increasing_singleton id a
  | cons c l ih =>
    obtain ⟨first, rest⟩ := List.pairwise_cons.mp ascending
    obtain ⟨-, later⟩ := List.pairwise_cons.mp rest
    simp only [changes]
    split
    next level =>
      exact ih (List.pairwise_cons.mpr
        ⟨fun d member => first d (List.mem_cons_of_mem c member), later⟩)
    next apart =>
      have before : compare a c = .lt :=
        (Ordering.isLE_iff_eq_lt_or_eq_eq.mp (first c List.mem_cons_self)).resolve_right apart
      refine increasing_cons.mpr ⟨?_, ih rest⟩
      intro d member
      rcases List.mem_cons.mp (mem_cons_changes.mp member) with rfl | inside
      · exact before
      · exact TransCmp.lt_of_lt_of_isLE before ((List.pairwise_cons.mp rest).1 d inside)

theorem increasing_dropRepeats [TransOrd A] [LawfulEqOrd A] (ascending : Ascending l) :
    IncreasingOn id (dropRepeats l) := by
  cases l with
  | nil => exact increasing_nil id
  | cons a l => exact increasing_cons_changes ascending

omit [Ord A] in
theorem length_of_cut {n : Nat} {later : List A} (parts : l.drop n = b :: later) :
    n + later.length + 1 = l.length := by
  have lengths := congrArg List.length parts
  rw [List.length_drop, List.length_cons] at lengths
  omega

def bisect (a : A) (l : List A) : Bool :=
  match parts : l.drop (l.length / 2) with
  | [] => false
  | b :: later =>
    have := length_of_cut parts
    match compare a b with
    | .lt => bisect a (l.take (l.length / 2))
    | .eq => true
    | .gt => bisect a later
termination_by l.length
decreasing_by
  · rw [List.length_take]
    omega
  · omega

theorem increasing_cut (increasing : IncreasingOn id l) {n : Nat} {later : List A}
    (parts : l.drop n = b :: later) :
    (IncreasingOn id (l.take n) ∧ ∀ c ∈ l.take n, compare c b = .lt) ∧
      (IncreasingOn id later ∧ ∀ c ∈ later, compare b c = .lt) ∧
      ∀ c, c ∈ l ↔ c ∈ l.take n ∨ c = b ∨ c ∈ later := by
  have whole : l = l.take n ++ b :: later := by rw [← parts, List.take_append_drop]
  obtain ⟨front, rest, across⟩ := List.pairwise_append.mp (whole ▸ increasing)
  obtain ⟨first, back⟩ := increasing_cons.mp rest
  refine ⟨⟨front, fun c member => across c member b List.mem_cons_self⟩, ⟨back, first⟩, ?_⟩
  intro c
  have inside : c ∈ l.take n ++ b :: later ↔ c ∈ l.take n ∨ c = b ∨ c ∈ later := by
    rw [List.mem_append, List.mem_cons]
  rwa [← whole] at inside

theorem bisect_iff [TransOrd A] [LawfulEqOrd A] (increasing : IncreasingOn id l) :
    bisect a l = true ↔ a ∈ l := by
  fun_induction bisect a l with
  | case1 l parts =>
    have short := congrArg List.length parts
    rw [List.length_drop, List.length_nil] at short
    have empty : l = [] := List.eq_nil_of_length_eq_zero (by omega)
    simp [empty]
  | case2 l b later parts _ before ih =>
    obtain ⟨⟨front, -⟩, ⟨-, above⟩, inside⟩ := increasing_cut increasing parts
    rw [ih front, inside]
    refine ⟨Or.inl, fun found => found.resolve_right ?_⟩
    rintro (same | behind)
    · exact ne_of_before before same
    · exact OrientedCmp.not_lt_of_lt before (above a behind)
  | case3 l b later parts _ level =>
    obtain ⟨-, -, inside⟩ := increasing_cut increasing parts
    have equal : a = b := LawfulEqOrd.eq_of_compare level
    exact ⟨fun _ => (inside a).mpr (.inr (.inl equal)), fun _ => rfl⟩
  | case4 l b later parts _ after ih =>
    obtain ⟨⟨-, below⟩, ⟨back, -⟩, inside⟩ := increasing_cut increasing parts
    have before : compare b a = .lt := OrientedCmp.lt_of_gt after
    rw [ih back, inside]
    refine ⟨fun found => .inr (.inr found), ?_⟩
    rintro (ahead | same | behind)
    · exact absurd (below a ahead) (OrientedCmp.not_lt_of_lt before)
    · exact absurd same.symm (ne_of_before before)
    · exact behind

end PseudoBoolean
