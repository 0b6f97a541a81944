set_option autoImplicit false

namespace PseudoBoolean

open Std

variable {E K : Type} [Ord K]

theorem ne_of_before [ReflOrd K] {a b : K} (before : compare a b = .lt) : a ≠ b := by
  rintro rfl
  simp at before

theorem before_or_before [OrientedOrd K] [LawfulEqOrd K] {a b : K} (differ : a ≠ b) :
    compare a b = .lt ∨ compare b a = .lt := by
  cases order : compare a b with
  | lt => exact Or.inl rfl
  | eq => exact absurd (LawfulEqOrd.eq_of_compare order) differ
  | gt => exact Or.inr (OrientedCmp.lt_of_gt order)

def IncreasingOn (key : E → K) (l : List E) : Prop :=
  l.Pairwise fun a b => compare (key a) (key b) = .lt

theorem increasing_nil (key : E → K) : IncreasingOn key [] :=
  List.Pairwise.nil

theorem increasing_singleton (key : E → K) (a : E) : IncreasingOn key [a] :=
  List.pairwise_singleton _ a

theorem increasing_cons {key : E → K} {a : E} {l : List E} :
    IncreasingOn key (a :: l) ↔
      (∀ b ∈ l, compare (key a) (key b) = .lt) ∧ IncreasingOn key l :=
  List.pairwise_cons

theorem IncreasingOn.filter {key : E → K} {l : List E} (increasing : IncreasingOn key l)
    (keep : E → Bool) : IncreasingOn key (l.filter keep) :=
  List.Pairwise.filter keep increasing

theorem IncreasingOn.filterMap {F : Type} {key : E → K} {key' : F → K} {l : List E}
    (increasing : IncreasingOn key l) (f : E → Option F)
    (keeps : ∀ a b, f a = some b → key' b = key a) : IncreasingOn key' (l.filterMap f) := by
  refine List.Pairwise.filterMap f ?_ increasing
  intro a a' before b hb b' hb'
  rw [keeps a b hb, keeps a' b' hb']
  exact before

def weave (key : E → K) (join : E → E → Option E) (x : E) (rest : List E → List E) :
    List E → List E
  | [] => x :: rest []
  | y :: ys =>
    match compare (key x) (key y) with
    | .lt => x :: rest (y :: ys)
    | .eq =>
      match join x y with
      | some z => z :: rest ys
      | none => rest ys
    | .gt => y :: weave key join x rest ys

/-- Two elements with one key are joined; both go when `join` gives nothing. -/
def merge (key : E → K) (join : E → E → Option E) : List E → List E → List E
  | [], ys => ys
  | x :: xs, ys => weave key join x (merge key join xs) ys

section Merge

variable {key : E → K} {join : E → E → Option E} {xs ys l : List E} {e : E}

inductive Merged (key : E → K) (join : E → E → Option E) : List E → List E → List E → Prop
  | right (ys : List E) : Merged key join [] ys ys
  | left (xs : List E) : Merged key join xs [] xs
  | before {x y : E} {xs ys l : List E} (first : compare (key x) (key y) = .lt)
      (rest : Merged key join xs (y :: ys) l) : Merged key join (x :: xs) (y :: ys) (x :: l)
  | joined {x y z : E} {xs ys l : List E} (level : compare (key x) (key y) = .eq)
      (same : join x y = some z) (rest : Merged key join xs ys l) :
      Merged key join (x :: xs) (y :: ys) (z :: l)
  | gone {x y : E} {xs ys l : List E} (level : compare (key x) (key y) = .eq)
      (nothing : join x y = none) (rest : Merged key join xs ys l) :
      Merged key join (x :: xs) (y :: ys) l
  | after {x y : E} {xs ys l : List E} (first : compare (key x) (key y) = .gt)
      (rest : Merged key join (x :: xs) ys l) : Merged key join (x :: xs) (y :: ys) (y :: l)

variable (key join) in
theorem merge_nil (xs : List E) : merge key join xs [] = xs := by
  induction xs with
  | nil => rfl
  | cons x xs ih => exact congrArg (x :: ·) ih

theorem merged (xs ys : List E) : Merged key join xs ys (merge key join xs ys) := by
  induction xs generalizing ys with
  | nil => exact .right ys
  | cons x xs ih =>
    induction ys with
    | nil => exact (merge_nil key join (x :: xs)).symm ▸ .left (x :: xs)
    | cons y ys ihy =>
      simp only [merge, weave] at ihy ⊢
      split
      next first => exact .before first (ih (y :: ys))
      next level =>
        split
        next z same => exact .joined level same (ih ys)
        next nothing => exact .gone level nothing (ih ys)
      next first => exact .after first ihy

def JoinKeeps (key : E → K) (join : E → E → Option E) : Prop :=
  ∀ x y z, join x y = some z → key z = key x

namespace Merged

theorem key_of_mem (merged : Merged key join xs ys l) (keeps : JoinKeeps key join)
    (member : e ∈ l) : ∃ a, (a ∈ xs ∨ a ∈ ys) ∧ key a = key e := by
  induction merged with
  | right ys => exact ⟨e, .inr member, rfl⟩
  | left xs => exact ⟨e, .inl member, rfl⟩
  | before first rest ih =>
    rcases List.mem_cons.mp member with rfl | tail
    · exact ⟨e, .inl List.mem_cons_self, rfl⟩
    · obtain ⟨a, found, same⟩ := ih tail
      exact ⟨a, found.imp (List.mem_cons_of_mem _) id, same⟩
  | @joined x y z xs ys l level same rest ih =>
    rcases List.mem_cons.mp member with rfl | tail
    · exact ⟨x, .inl List.mem_cons_self, (keeps x y e same).symm⟩
    · obtain ⟨a, found, same⟩ := ih tail
      exact ⟨a, found.imp (List.mem_cons_of_mem x) (List.mem_cons_of_mem y), same⟩
  | gone level nothing rest ih =>
    obtain ⟨a, found, same⟩ := ih member
    exact ⟨a, found.imp (List.mem_cons_of_mem _) (List.mem_cons_of_mem _), same⟩
  | after first rest ih =>
    rcases List.mem_cons.mp member with rfl | tail
    · exact ⟨e, .inr List.mem_cons_self, rfl⟩
    · obtain ⟨a, found, same⟩ := ih tail
      exact ⟨a, found.imp id (List.mem_cons_of_mem _), same⟩

theorem forall_mem {P : E → Prop} (merged : Merged key join xs ys l) (left : ∀ x ∈ xs, P x)
    (right : ∀ y ∈ ys, P y) (joined : ∀ x y z, join x y = some z → P z) : ∀ e ∈ l, P e := by
  induction merged with
  | right ys => exact right
  | left xs => exact left
  | before first rest ih =>
    obtain ⟨here, left⟩ := List.forall_mem_cons.mp left
    exact List.forall_mem_cons.mpr ⟨here, ih left right⟩
  | joined level same rest ih =>
    obtain ⟨-, left⟩ := List.forall_mem_cons.mp left
    obtain ⟨-, right⟩ := List.forall_mem_cons.mp right
    exact List.forall_mem_cons.mpr ⟨joined _ _ _ same, ih left right⟩
  | gone level nothing rest ih =>
    exact ih (List.forall_mem_cons.mp left).2 (List.forall_mem_cons.mp right).2
  | after first rest ih =>
    obtain ⟨here, right⟩ := List.forall_mem_cons.mp right
    exact List.forall_mem_cons.mpr ⟨here, ih left right⟩

theorem increasing [TransOrd K] [LawfulEqOrd K] (merged : Merged key join xs ys l)
    (keeps : JoinKeeps key join) (left : IncreasingOn key xs) (right : IncreasingOn key ys) :
    IncreasingOn key l := by
  induction merged with
  | right ys => exact right
  | left xs => exact left
  | @before x y xs ys l first rest ih =>
    obtain ⟨least, left⟩ := increasing_cons.mp left
    refine increasing_cons.mpr ⟨fun e member => ?_, ih left right⟩
    obtain ⟨a, found, same⟩ := rest.key_of_mem keeps member
    rw [← same]
    rcases found with inLeft | inRight
    · exact least a inLeft
    · rcases List.mem_cons.mp inRight with rfl | tail
      · exact first
      · exact TransCmp.lt_trans first ((increasing_cons.mp right).1 a tail)
  | @joined x y z xs ys l level joined rest ih =>
    obtain ⟨least, left⟩ := increasing_cons.mp left
    obtain ⟨least', right⟩ := increasing_cons.mp right
    have equal : key x = key y := LawfulEqOrd.eq_of_compare level
    refine increasing_cons.mpr ⟨fun e member => ?_, ih left right⟩
    obtain ⟨a, found, same⟩ := rest.key_of_mem keeps member
    rw [← same, keeps x y z joined]
    exact found.elim (least a) fun inRight => equal ▸ least' a inRight
  | gone level nothing rest ih =>
    exact ih (increasing_cons.mp left).2 (increasing_cons.mp right).2
  | @after x y xs ys l first rest ih =>
    obtain ⟨least, right⟩ := increasing_cons.mp right
    have before : compare (key y) (key x) = .lt := OrientedCmp.lt_of_gt first
    refine increasing_cons.mpr ⟨fun e member => ?_, ih left right⟩
    obtain ⟨a, found, same⟩ := rest.key_of_mem keeps member
    rw [← same]
    rcases found with inLeft | inRight
    · rcases List.mem_cons.mp inLeft with rfl | tail
      · exact before
      · exact TransCmp.lt_trans before ((increasing_cons.mp left).1 a tail)
    · exact least a inRight

-- For `r` an equation the sum is kept, for `r` an order it is bounded.
theorem sum_map {R : Type} [Add R] [Zero R] [Std.Associative (α := R) (· + ·)]
    [Std.Commutative (α := R) (· + ·)] [Std.LawfulIdentity (α := R) (· + ·) 0] {r : R → R → Prop}
    (merged : Merged key join xs ys l) (refl : ∀ a, r a a)
    (add : ∀ {a b c d}, r a b → r c d → r (a + c) (b + d)) (f : E → R)
    (pair : ∀ x y, compare (key x) (key y) = .eq → r ((join x y).elim 0 f) (f x + f y)) :
    r (l.map f).sum ((xs.map f).sum + (ys.map f).sum) := by
  have zero_add (a : R) : 0 + a = a := Std.LawfulLeftIdentity.left_id a
  have add_zero (a : R) : a + 0 = a := Std.LawfulRightIdentity.right_id a
  have swap (a b c d : R) : a + b + (c + d) = a + c + (b + d) := by ac_rfl
  have across (a b c : R) : a + (b + c) = b + (a + c) := by ac_rfl
  have group (a b c : R) : a + (b + c) = a + b + c := by ac_rfl
  induction merged with
  | right ys =>
    rw [List.map_nil, List.sum_nil, zero_add]
    exact refl _
  | left xs =>
    rw [List.map_nil, List.sum_nil, add_zero]
    exact refl _
  | @before x y xs ys l first rest ih =>
    simp only [List.map_cons, List.sum_cons] at ih ⊢
    have next := add (refl (f x)) ih
    rwa [group] at next
  | joined level same rest ih =>
    have both := pair _ _ level
    rw [same, Option.elim_some] at both
    have next := add both ih
    rwa [swap] at next
  | gone level nothing rest ih =>
    have both := pair _ _ level
    rw [nothing, Option.elim_none] at both
    have next := add both ih
    rwa [swap, zero_add] at next
  | @after x y xs ys l first rest ih =>
    have next := add (refl (f y)) ih
    rwa [across] at next

end Merged

theorem merge_eq_nil (never : ∀ x ∈ xs, ∀ y ∈ ys, join x y ≠ none)
    (nothing : merge key join xs ys = []) : xs = [] ∧ ys = [] := by
  cases xs with
  | nil => exact ⟨rfl, nothing⟩
  | cons x xs =>
    cases ys with
    | nil => simp [merge, weave] at nothing
    | cons y ys =>
      have some := never x (by simp) y (by simp)
      simp only [merge, weave] at nothing
      grind

end Merge

end PseudoBoolean
