import PseudoBoolean.Label

set_option autoImplicit false

namespace PseudoBoolean

open Std

abbrev Monomial (A : Type) [Ord A] := SortedSet A

namespace Monomial

variable {A : Type} [Ord A]

instance : One (Monomial A) := ⟨SortedSet.empty⟩

instance [TransOrd A] [LawfulEqOrd A] : Mul (Monomial A) := ⟨SortedSet.union⟩

def degree (m : Monomial A) : Nat :=
  m.size

def isConstant (m : Monomial A) : Bool :=
  m.isEmpty

def holds (σ : A → Bool) (m : Monomial A) : Bool :=
  m.toList.all σ

theorem mem_mul [TransOrd A] [LawfulEqOrd A] {m n : Monomial A} {a : A} :
    a ∈ m * n ↔ a ∈ m ∨ a ∈ n :=
  SortedSet.mem_union

theorem holds_iff {σ : A → Bool} {m : Monomial A} : m.holds σ = true ↔ ∀ a ∈ m, σ a = true :=
  List.all_eq_true

@[simp]
theorem holds_one (σ : A → Bool) : (1 : Monomial A).holds σ = true := rfl

@[simp]
theorem holds_mul [TransOrd A] [LawfulEqOrd A] (σ : A → Bool) (m n : Monomial A) :
    (m * n).holds σ = (m.holds σ && n.holds σ) := by
  rw [Bool.eq_iff_iff]
  simp only [holds_iff, mem_mul, Bool.and_eq_true]
  grind

def replacePair [TransOrd A] [LawfulEqOrd A] [DecidableEq A] (m : Monomial A) (u v a : A) :
    Option (Monomial A) :=
  if m.contains u && m.contains v then
    some (SortedSet.ofList (m.toList.filter (fun b => b ≠ u && b ≠ v) ++ [a]))
  else none

section ReplacePair

variable [TransOrd A] [LawfulEqOrd A] [DecidableEq A] {m n : Monomial A} {u v : A}

theorem replacePair_of_mem (a : A) (both : u ∈ m ∧ v ∈ m) :
    m.replacePair u v a = some (((m.erase u).erase v).insert a) := by
  have found : (m.contains u && m.contains v) = true := by simpa using both
  rw [replacePair, if_pos found, Option.some.injEq]
  apply SortedSet.ext_mem
  intro b
  simp only [SortedSet.mem_ofList, List.mem_append, List.mem_filter, List.mem_singleton,
    SortedSet.mem_insert, SortedSet.mem_erase, SortedSet.mem_toList, Bool.and_eq_true,
    decide_eq_true_iff, and_assoc]
  exact or_comm

theorem replacePair_of_not_mem (a : A) (absent : ¬ (u ∈ m ∧ v ∈ m)) :
    m.replacePair u v a = none := by
  have missed : ¬ (m.contains u && m.contains v) = true := by simpa using absent
  exact if_neg missed

theorem mem_of_replacePair {a : A} (replaced : m.replacePair u v a = some n) {b : A} :
    b ∈ n ↔ b = a ∨ (b ∈ m ∧ b ≠ u ∧ b ≠ v) := by
  by_cases both : u ∈ m ∧ v ∈ m
  · rw [replacePair_of_mem a both, Option.some.injEq] at replaced
    rw [← replaced, SortedSet.mem_insert, SortedSet.mem_erase, SortedSet.mem_erase, and_assoc]
  · rw [replacePair_of_not_mem a both] at replaced
    cases replaced

end ReplacePair

def text? (m : Monomial Label) : Option String :=
  match m.toList with
  | [] => none
  | labels => some (String.intercalate "*" (labels.map Label.text))

def text (m : Monomial Label) : String :=
  m.text?.getD "1"

end Monomial

end PseudoBoolean
