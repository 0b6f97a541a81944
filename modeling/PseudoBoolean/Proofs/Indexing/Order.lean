import PseudoBoolean.Proofs.Indexing

set_option autoImplicit false

namespace PseudoBoolean

open Std

theorem compare_map {A B : Type} [Ord A] [Ord B] {f : A → B} {l k : List A}
    (same : ∀ a ∈ l, ∀ b ∈ k, compare (f a) (f b) = compare a b) :
    compare (l.map f) (k.map f) = compare l k := by
  induction l generalizing k with
  | nil => cases k <;> rfl
  | cons a l ih =>
    cases k with
    | nil => rfl
    | cons b k =>
      have heads := same a List.mem_cons_self b List.mem_cons_self
      have tails := ih fun c inside d inside' =>
        same c (List.mem_cons_of_mem a inside) d (List.mem_cons_of_mem b inside')
      simp only [List.map_cons, List.compare_cons_cons, heads, tails]

namespace Indexing

variable {x : Indexing} {u v : Label} {i j : Nat}

theorem compare_index (first : x.index? u = some i) (second : x.index? v = some j) :
    compare i j = compare u v := by
  obtain ⟨low, here⟩ := List.getElem?_eq_some_iff.mp (index_eq_some.mp first)
  obtain ⟨high, there⟩ := List.getElem?_eq_some_iff.mp (index_eq_some.mp second)
  have ordered := List.pairwise_iff_getElem.mp x.labels.increasing
  rcases Nat.lt_trichotomy i j with before | same | after
  · have labels : compare u v = .lt := here ▸ there ▸ ordered i j low high before
    rw [labels, Nat.compare_eq_lt.mpr before]
  · subst same
    obtain rfl : u = v := here.symm.trans there
    rw [ReflOrd.compare_self, ReflOrd.compare_self]
  · have labels : compare v u = .lt := here ▸ there ▸ ordered j i high low after
    rw [OrientedCmp.gt_of_lt labels, Nat.compare_eq_gt.mpr after]

def position (x : Indexing) (v : Label) : Nat :=
  (x.index? v).getD 0

theorem index_position (inside : v ∈ x.labels) : x.index? v = some (x.position v) := by
  obtain ⟨i, found⟩ := exists_index inside
  rw [position, found, Option.getD_some]

theorem label_position (inside : v ∈ x.labels) : x.label? (x.position v) = some v :=
  index_eq_some.mp (index_position inside)

theorem compare_position (inside : u ∈ x.labels) (inside' : v ∈ x.labels) :
    compare (x.position u) (x.position v) = compare u v :=
  compare_index (index_position inside) (index_position inside')

variable {m n : Monomial Label}

theorem filterMap_index (inside : ∀ v ∈ m, v ∈ x.labels) :
    m.toList.filterMap x.index? = m.toList.map x.position := by
  rw [← List.filterMap_eq_map]
  exact List.filterMap_congr fun v member => index_position (inside v member)

-- The indices need no sorting.
theorem toList_encode (inside : ∀ v ∈ m, v ∈ x.labels) :
    (x.encode m).toList = m.toList.map x.position := by
  have increasing : IncreasingOn id (m.toList.map x.position) :=
    List.pairwise_map.mpr (m.increasing.imp_of_mem fun first second before =>
      (compare_position (inside _ first) (inside _ second)).trans before)
  rw [encode, filterMap_index inside, SortedSet.toList_ofList increasing]

theorem decode_encode (inside : ∀ v ∈ m, v ∈ x.labels) : x.decode (x.encode m) = m := by
  have read : (m.toList.map x.position).filterMap x.label? = m.toList := by
    rw [List.filterMap_map]
    exact (List.filterMap_congr fun v member => label_position (inside v member)).trans
      List.filterMap_some
  rw [decode, toList_encode inside, read, SortedSet.ofList_toList]

theorem compare_encode (inside : ∀ v ∈ m, v ∈ x.labels) (inside' : ∀ v ∈ n, v ∈ x.labels) :
    compare (x.encode m) (x.encode n) = compare m n := by
  change compare (x.encode m).toList (x.encode n).toList = compare m.toList n.toList
  rw [toList_encode inside, toList_encode inside']
  exact compare_map fun u first v second => compare_position (inside u first) (inside' v second)

end Indexing

end PseudoBoolean
