import PseudoBoolean.SortedSet

set_option autoImplicit false

namespace PseudoBoolean

open Std

@[ext]
structure SortedMap (K V : Type) [Ord K] where
  entries : List (K × V)
  increasing : IncreasingOn Prod.fst entries

namespace SortedMap

variable {K V : Type} [Ord K]

instance [DecidableEq K] [DecidableEq V] : DecidableEq (SortedMap K V) := fun m n =>
  decidable_of_iff (m.entries = n.entries) SortedMap.ext_iff.symm

def empty : SortedMap K V where
  entries := []
  increasing := increasing_nil Prod.fst

instance : EmptyCollection (SortedMap K V) := ⟨empty⟩
instance : Inhabited (SortedMap K V) := ⟨empty⟩

def singleton (k : K) (v : V) : SortedMap K V where
  entries := [(k, v)]
  increasing := increasing_singleton Prod.fst (k, v)

def find (k : K) : List (K × V) → Option V
  | [] => none
  | (j, v) :: rest => if compare k j = .eq then some v else find k rest

def get? (m : SortedMap K V) (k : K) : Option V :=
  find k m.entries

def size (m : SortedMap K V) : Nat :=
  m.entries.length

def filterKeys (keep : K → Bool) (m : SortedMap K V) : SortedMap K V where
  entries := m.entries.filter fun e => keep e.1
  increasing := m.increasing.filter _

def keys (m : SortedMap K V) : SortedSet K where
  toList := m.entries.map Prod.fst
  increasing := List.pairwise_map.mpr m.increasing

theorem increasing_zip {l : List K} (increasing : IncreasingOn id l) (values : List V) :
    IncreasingOn Prod.fst (l.zip values) := by
  induction l generalizing values with
  | nil => exact increasing_nil Prod.fst
  | cons k l ih =>
    cases values with
    | nil => exact increasing_nil Prod.fst
    | cons v values =>
      obtain ⟨first, rest⟩ := increasing_cons.mp increasing
      exact increasing_cons.mpr
        ⟨fun e member => first e.1 (List.of_mem_zip member).1, ih rest values⟩

def ofKeys (s : SortedSet K) (values : List V) : SortedMap K V where
  entries := s.toList.zip values
  increasing := increasing_zip s.increasing values

section Lawful

variable [TransOrd K] [LawfulEqOrd K]

omit [TransOrd K] in
theorem find_eq_some {k : K} {v : V} {l : List (K × V)} (increasing : IncreasingOn Prod.fst l) :
    find k l = some v ↔ (k, v) ∈ l := by
  induction l with
  | nil => simp [find]
  | cons e l ih =>
    obtain ⟨j, w⟩ := e
    obtain ⟨first, rest⟩ := increasing_cons.mp increasing
    simp only [find]
    split
    next level =>
      have equal : k = j := LawfulEqOrd.eq_of_compare level
      subst equal
      constructor
      · intro found
        simp_all
      · intro member
        rcases List.mem_cons.mp member with same | tail
        · simp_all
        · exact absurd rfl (ne_of_before (first (k, v) tail))
    next apart =>
      rw [ih rest]
      constructor
      · exact List.mem_cons_of_mem _
      · intro member
        rcases List.mem_cons.mp member with same | tail
        · exact absurd (by simp_all) apart
        · exact tail

omit [TransOrd K] in
theorem get_eq_some {m : SortedMap K V} {k : K} {v : V} :
    m.get? k = some v ↔ (k, v) ∈ m.entries :=
  find_eq_some m.increasing

theorem ext_get {m n : SortedMap K V} (same : ∀ k, m.get? k = n.get? k) : m = n := by
  have nodup (o : SortedMap K V) : o.entries.Nodup :=
    o.increasing.imp fun before equal => ne_of_before before (congrArg Prod.fst equal)
  apply SortedMap.ext
  refine List.Perm.eq_of_pairwise ?_ m.increasing n.increasing ?_
  · exact fun _ _ _ _ before after => absurd after (OrientedCmp.not_lt_of_lt before)
  · refine (List.perm_ext_iff_of_nodup (nodup m) (nodup n)).mpr fun e => ?_
    rw [← get_eq_some (m := m), ← get_eq_some (m := n), same]

def insert (k : K) (v : V) (m : SortedMap K V) : SortedMap K V where
  entries := merge Prod.fst (fun e _ => some e) [(k, v)] m.entries
  increasing := (merged [(k, v)] m.entries).increasing (fun _ _ _ joined => by simp_all)
    (increasing_singleton Prod.fst (k, v)) m.increasing

-- The last pair for a key counts.
def ofList (l : List (K × V)) : SortedMap K V :=
  l.foldl (fun m e => m.insert e.1 e.2) ∅

end Lawful

end SortedMap

end PseudoBoolean
