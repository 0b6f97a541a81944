import PseudoBoolean.Sorting

set_option autoImplicit false

namespace PseudoBoolean

open Std

@[ext]
structure SortedSet (A : Type) [Ord A] where
  toList : List A
  increasing : IncreasingOn id toList

namespace SortedSet

variable {A : Type} [Ord A]

instance [DecidableEq A] : DecidableEq (SortedSet A) := fun s t =>
  decidable_of_iff (s.toList = t.toList) SortedSet.ext_iff.symm

instance : Membership A (SortedSet A) where
  mem s a := a ∈ s.toList

theorem mem_toList {s : SortedSet A} {a : A} : a ∈ s.toList ↔ a ∈ s := Iff.rfl

instance [DecidableEq A] (s : SortedSet A) (a : A) : Decidable (a ∈ s) :=
  inferInstanceAs (Decidable (a ∈ s.toList))

def empty : SortedSet A where
  toList := []
  increasing := increasing_nil id

instance : EmptyCollection (SortedSet A) := ⟨empty⟩
instance : Inhabited (SortedSet A) := ⟨empty⟩

def singleton (a : A) : SortedSet A where
  toList := [a]
  increasing := increasing_singleton id a

def size (s : SortedSet A) : Nat :=
  s.toList.length

def isEmpty (s : SortedSet A) : Bool :=
  s.toList.isEmpty

def contains (s : SortedSet A) (a : A) : Bool :=
  bisect a s.toList

def filter (keep : A → Bool) (s : SortedSet A) : SortedSet A where
  toList := s.toList.filter keep
  increasing := s.increasing.filter keep

def erase [DecidableEq A] (s : SortedSet A) (a : A) : SortedSet A :=
  s.filter (· ≠ a)

instance : Ord (SortedSet A) where
  compare s t := compare s.toList t.toList

instance [TransOrd A] : TransOrd (SortedSet A) where
  eq_swap := OrientedOrd.eq_swap (α := List A)
  isLE_trans := TransOrd.isLE_trans (α := List A)

instance [LawfulEqOrd A] : LawfulEqOrd (SortedSet A) where
  compare_self := ReflOrd.compare_self (α := List A)
  eq_of_compare same := SortedSet.ext (LawfulEqOrd.eq_of_compare (α := List A) same)

theorem mem_empty {a : A} : ¬ a ∈ (∅ : SortedSet A) :=
  List.not_mem_nil

theorem mem_singleton {a b : A} : b ∈ singleton a ↔ b = a :=
  List.mem_singleton

theorem mem_filter {s : SortedSet A} {keep : A → Bool} {a : A} :
    a ∈ s.filter keep ↔ a ∈ s ∧ keep a = true :=
  List.mem_filter

theorem mem_erase [DecidableEq A] {s : SortedSet A} {a b : A} :
    b ∈ s.erase a ↔ b ∈ s ∧ b ≠ a := by
  simp [erase, mem_filter]

section Lawful

variable [TransOrd A] [LawfulEqOrd A]

omit [TransOrd A] in
theorem nodup_toList (s : SortedSet A) : s.toList.Nodup :=
  s.increasing.imp ne_of_before

theorem contains_iff {s : SortedSet A} {a : A} : s.contains a = true ↔ a ∈ s :=
  bisect_iff s.increasing

@[simp]
theorem contains_eq_decide [DecidableEq A] (s : SortedSet A) (a : A) :
    s.contains a = decide (a ∈ s) := by
  rw [Bool.eq_iff_iff, contains_iff, decide_eq_true_iff]

theorem ext_mem {s t : SortedSet A} (same : ∀ a, a ∈ s ↔ a ∈ t) : s = t := by
  apply SortedSet.ext
  refine List.Perm.eq_of_pairwise ?_ s.increasing t.increasing ?_
  · exact fun a b _ _ before after => absurd after (OrientedCmp.not_lt_of_lt before)
  · exact (List.perm_ext_iff_of_nodup s.nodup_toList t.nodup_toList).mpr same

def union (s t : SortedSet A) : SortedSet A where
  toList := merge id (fun a _ => some a) s.toList t.toList
  increasing := (merged s.toList t.toList).increasing (fun _ _ _ joined => by simp_all)
    s.increasing t.increasing

instance : Union (SortedSet A) := ⟨union⟩

omit [TransOrd A] in
theorem mem_merged {l k n : List A} {a : A} (merged : Merged id (fun b _ => some b) l k n) :
    a ∈ n ↔ a ∈ l ∨ a ∈ k := by
  induction merged with
  | right | left => simp
  | before first rest ih => simp [ih, or_assoc]
  | @joined x y z l k n level same rest ih =>
    have equal : x = y := LawfulEqOrd.eq_of_compare level
    obtain rfl := Option.some.inj same
    simp only [equal, List.mem_cons, ih]
    grind
  | gone level nothing => cases nothing
  | after first rest ih =>
    simp only [List.mem_cons, ih]
    grind

theorem mem_union {s t : SortedSet A} {a : A} : a ∈ s ∪ t ↔ a ∈ s ∨ a ∈ t :=
  mem_merged (merged s.toList t.toList)

def insert (a : A) (s : SortedSet A) : SortedSet A :=
  singleton a ∪ s

theorem mem_insert {s : SortedSet A} {a b : A} : b ∈ s.insert a ↔ b = a ∨ b ∈ s := by
  simp [insert, mem_union, mem_singleton]

def ofList (l : List A) : SortedSet A where
  toList := dropRepeats (sort l)
  increasing := increasing_dropRepeats (ascending_sort l)

theorem mem_ofList {l : List A} {a : A} : a ∈ ofList l ↔ a ∈ l :=
  mem_dropRepeats.trans (perm_sort l).mem_iff

theorem size_ofList_le (l : List A) : (ofList l).size ≤ l.length :=
  Nat.le_trans (length_dropRepeats_le (sort l)) (Nat.le_of_eq (perm_sort l).length_eq)

theorem size_union_le (s t : SortedSet A) : (s ∪ t).size ≤ s.size + t.size := by
  have whole : Merged id (fun b _ => some b) s.toList t.toList (s ∪ t).toList := merged ..
  have joined := whole.sum_map Nat.le_refl Nat.add_le_add (fun _ => 1) fun _ _ _ => Nat.le_succ 1
  simp only [List.map_const', List.sum_replicate_nat, Nat.mul_one] at joined
  exact joined

theorem size_insert_le (a : A) (s : SortedSet A) : (s.insert a).size ≤ s.size + 1 :=
  Nat.le_trans (size_union_le (singleton a) s) (Nat.le_of_eq (Nat.add_comm ..))

omit [TransOrd A] [LawfulEqOrd A] in
theorem size_erase_lt [DecidableEq A] {a : A} {s : SortedSet A} (member : a ∈ s) :
    (s.erase a).size < s.size :=
  List.length_filter_lt_length_iff_exists.mpr ⟨a, member, by simp⟩

theorem ofList_toList (s : SortedSet A) : ofList s.toList = s :=
  ext_mem fun _ => mem_ofList

theorem toList_ofList {l : List A} (increasing : IncreasingOn id l) : (ofList l).toList = l :=
  congrArg toList (ofList_toList ⟨l, increasing⟩)

def unions (l : List (SortedSet A)) : SortedSet A :=
  l.foldr union ∅

theorem mem_unions {l : List (SortedSet A)} {a : A} : a ∈ unions l ↔ ∃ s ∈ l, a ∈ s := by
  induction l with
  | nil => simp [unions, mem_empty]
  | cons s l ih =>
    have unfolded : unions (s :: l) = s ∪ unions l := rfl
    simp [unfolded, mem_union, ih]

end Lawful

end SortedSet

end PseudoBoolean
