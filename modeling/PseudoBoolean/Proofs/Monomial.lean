import PseudoBoolean.Monomial

set_option autoImplicit false

namespace PseudoBoolean

open Std

structure Enumerates {A : Type} [Ord A] (P : A → Prop) (l : List A) : Prop where
  increasing : IncreasingOn id l
  members : ∀ a, a ∈ l ↔ P a

section Enumerates

variable {A : Type} [Ord A] {P : A → Prop} {l k : List A} {s t : SortedSet A}

theorem SortedSet.enumerates (members : ∀ a, a ∈ s ↔ P a) : Enumerates P s.toList :=
  ⟨s.increasing, members⟩

variable [TransOrd A] [LawfulEqOrd A]

theorem Enumerates.unique (left : Enumerates P l) (right : Enumerates P k) : l = k := by
  have same : (⟨l, left.increasing⟩ : SortedSet A) = ⟨k, right.increasing⟩ :=
    SortedSet.ext_mem fun a => (left.members a).trans (right.members a).symm
  exact congrArg SortedSet.toList same

theorem SortedSet.enumerates_ofList (l : List A) : Enumerates (· ∈ l) (ofList l).toList :=
  enumerates fun _ => mem_ofList

theorem SortedSet.enumerates_union (s t : SortedSet A) :
    Enumerates (fun a => a ∈ s.toList ∨ a ∈ t.toList) (s ∪ t).toList :=
  enumerates fun _ => mem_union

theorem SortedSet.ofList_perm_append (perm : l.Perm (s.toList ++ t.toList)) : ofList l = s ∪ t := by
  apply SortedSet.ext
  refine (enumerates_ofList l).unique ⟨(s ∪ t).increasing, fun a => ?_⟩
  rw [perm.mem_iff, List.mem_append]
  exact mem_union

end Enumerates

namespace Monomial

variable {A : Type} [Ord A] [TransOrd A] [LawfulEqOrd A] [DecidableEq A] {m n : Monomial A}
variable {u v : A}

theorem isSome_replacePair_iff (a : A) :
    (m.replacePair u v a).isSome = true ↔ u ∈ m.toList ∧ v ∈ m.toList := by
  by_cases both : u ∈ m ∧ v ∈ m
  · rw [replacePair_of_mem a both]
    exact ⟨fun _ => both, fun _ => rfl⟩
  · rw [replacePair_of_not_mem a both]
    exact ⟨fun some => absurd some Bool.false_ne_true, fun held => absurd held both⟩

theorem enumerates_replacePair {a : A} (replaced : m.replacePair u v a = some n) :
    Enumerates (fun b => (b ∈ m.toList ∧ b ≠ u ∧ b ≠ v) ∨ b = a) n.toList :=
  SortedSet.enumerates fun _ => (mem_of_replacePair replaced).trans or_comm

theorem set_operations (m n : Monomial Label) (u v a : Label) :
    (∀ l : List Label, Enumerates (· ∈ l) (SortedSet.ofList l).toList) ∧
      Enumerates (fun b => b ∈ m.toList ∨ b ∈ n.toList) (m * n).toList ∧
      (∀ l : List Label, l.Perm (m.toList ++ n.toList) → SortedSet.ofList l = m * n) ∧
      (m.contains v = true ↔ v ∈ m.toList) ∧
      Enumerates (fun b => b ∈ m.toList ∧ b ≠ v) (m.erase v).toList ∧
      ((m.replacePair u v a).isSome = true ↔ u ∈ m.toList ∧ v ∈ m.toList) ∧
      ∀ r, m.replacePair u v a = some r →
        Enumerates (fun b => (b ∈ m.toList ∧ b ≠ u ∧ b ≠ v) ∨ b = a) r.toList := by
  refine ⟨SortedSet.enumerates_ofList, SortedSet.enumerates_union m n,
    fun l => SortedSet.ofList_perm_append, SortedSet.contains_iff, ?_,
    isSome_replacePair_iff a, fun r => enumerates_replacePair⟩
  exact SortedSet.enumerates fun b => SortedSet.mem_erase

-- One label taken as the pair, and a new label that the monomial holds.
example :
    let set (l : List Nat) : Monomial Label := SortedSet.ofList (l.map Label.index)
    (set [2, 0, 1, 2]).replacePair (.index 1) (.index 1) (.index 2) = some (set [0, 2]) := by
  decide +kernel

end Monomial

end PseudoBoolean
