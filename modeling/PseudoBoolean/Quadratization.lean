import PseudoBoolean.CommonPair
import PseudoBoolean.Evaluation

set_option autoImplicit false

namespace PseudoBoolean

open Std

/-- The variable `label` stands for the product of the pair. -/
structure Ancilla where
  label : Label
  pair : Pair Label
  penalty : Rat
deriving DecidableEq

namespace Ancilla

def text (a : Ancilla) : String :=
  a.label.text ++ " = " ++ a.pair.left.text ++ "*" ++ a.pair.right.text ++
    " (M = " ++ Text.rational a.penalty ++ ")"

end Ancilla

namespace Quadratization

/-- Without a fixed penalty each pair gets one more than the total weight it is taken from. -/
structure Options where
  penalty : Option Rat
  stem : String
deriving DecidableEq

def Options.standard : Options where
  penalty := none
  stem := "_q"

structure Result where
  poly : NumericPoly
  ancillas : List Ancilla
  quadratic : poly.degree ≤ 2

def contractMonomial (c : Pair Label) (a : Label) (m : Monomial Label) : Monomial Label :=
  if 2 < m.degree then (m.replacePair c.left c.right a).getD m else m

def contract (p : NumericPoly) (c : Pair Label) (a : Label) : NumericPoly :=
  FormalSum.ofList (p.entries.map fun e => (contractMonomial c a e.1, e.2))

def contractedWeight (p : NumericPoly) (c : Pair Label) : Rat :=
  sumOf (fun e => e.2.abs)
    (p.entries.filter fun e => 2 < e.1.degree ∧ c.left ∈ e.1 ∧ c.right ∈ e.1)

def penalty (c : Pair Label) (a : Label) (weight : Rat) : NumericPoly :=
  FormalSum.ofList
    [(SortedSet.ofList [c.left, c.right], weight),
      (SortedSet.ofList [c.left, a], -2 * weight),
      (SortedSet.ofList [c.right, a], -2 * weight),
      (SortedSet.ofList [a], 3 * weight)]

def replace (p : NumericPoly) (c : Pair Label) (a : Label) (weight : Rat) : NumericPoly :=
  contract p c a + penalty c a weight

def excess (p : NumericPoly) : Nat :=
  p.weight fun m => m.degree - 2

theorem degree_replacePair_lt {m n : Monomial Label} {c : Pair Label} {a : Label}
    (before : compare c.left c.right = .lt)
    (replaced : m.replacePair c.left c.right a = some n) : n.degree < m.degree := by
  by_cases held : c.left ∈ m ∧ c.right ∈ m
  · have first := SortedSet.size_erase_lt held.1
    have second := SortedSet.size_erase_lt (a := c.right) (s := m.erase c.left)
      (SortedSet.mem_erase.mpr ⟨held.2, (ne_of_before before).symm⟩)
    have third := SortedSet.size_insert_le a ((m.erase c.left).erase c.right)
    rw [Monomial.replacePair_of_mem a held, Option.some.injEq] at replaced
    subst replaced
    simp only [Monomial.degree]
    omega
  · rw [Monomial.replacePair_of_not_mem a held] at replaced
    cases replaced

theorem degree_contractMonomial_le {c : Pair Label} (a : Label)
    (before : compare c.left c.right = .lt) (m : Monomial Label) :
    (contractMonomial c a m).degree ≤ m.degree := by
  simp only [contractMonomial]
  split
  · cases replaced : m.replacePair c.left c.right a with
    | none => exact Nat.le_refl _
    | some n => exact Nat.le_of_lt (degree_replacePair_lt before replaced)
  · exact Nat.le_refl _

theorem degree_contractMonomial_lt {c : Pair Label} (a : Label)
    (before : compare c.left c.right = .lt) {m : Monomial Label} (high : 2 < m.degree)
    (left : c.left ∈ m) (right : c.right ∈ m) :
    (contractMonomial c a m).degree < m.degree := by
  have replaced := Monomial.replacePair_of_mem a (And.intro left right)
  simpa [contractMonomial, high, replaced] using degree_replacePair_lt before replaced

theorem excess_penalty (c : Pair Label) (a : Label) (weight : Rat) :
    excess (penalty c a weight) = 0 := by
  have short (l : List Label) (small : l.length ≤ 2) :
      Monomial.degree (SortedSet.ofList l) - 2 = 0 := by
    have := SortedSet.size_ofList_le l
    simp only [Monomial.degree]
    omega
  have sum := FormalSum.weight_ofList_le (fun m : Monomial Label => m.degree - 2)
    [(SortedSet.ofList [c.left, c.right], weight), (SortedSet.ofList [c.left, a], -2 * weight),
      (SortedSet.ofList [c.right, a], -2 * weight), (SortedSet.ofList [a], 3 * weight)]
  simp only [sumOf, List.map_cons, List.sum_cons, List.map_nil, List.sum_nil] at sum
  rw [short _ (by simp), short _ (by simp), short _ (by simp), short _ (by simp)] at sum
  exact Nat.le_zero.mp sum

theorem sum_map_lt {E : Type} {f g : E → Nat} {l : List E} (below : ∀ x ∈ l, f x ≤ g x) {x : E}
    (member : x ∈ l) (strict : f x < g x) : sumOf f l < sumOf g l := by
  have bound (k : List E) (below : ∀ x ∈ k, f x ≤ g x) : sumOf f k ≤ sumOf g k := by
    induction k with
    | nil => exact Nat.le_refl 0
    | cons y k ih =>
      obtain ⟨first, rest⟩ := List.forall_mem_cons.mp below
      exact Nat.add_le_add first (ih rest)
  obtain ⟨front, back, rfl⟩ := List.append_of_mem member
  have front := bound front fun y inside => below y (List.mem_append_left _ inside)
  have back := bound back fun y inside =>
    below y (List.mem_append_right _ (List.mem_cons_of_mem x inside))
  simp only [sumOf, List.map_append, List.map_cons, List.sum_append_nat, List.sum_cons] at *
  omega

theorem excess_replace_lt {p : NumericPoly} {c : Pair Label} (a : Label) (weight : Rat)
    (chosen : p.mostCommonPair = some c) : excess (replace p c a weight) < excess p := by
  obtain ⟨e, member, high, left, right, before⟩ := Multilinear.mostCommonPair_mem chosen
  have added := FormalSum.weight_add_le (fun m : Monomial Label => m.degree - 2)
    (contract p c a) (penalty c a weight)
  have nothing := excess_penalty c a weight
  have contracted := FormalSum.weight_ofList_le (fun m : Monomial Label => m.degree - 2)
    (p.entries.map fun e => (contractMonomial c a e.1, e.2))
  have lower := sum_map_lt
    (f := fun e : Monomial Label × Rat => (contractMonomial c a e.1).degree - 2)
    (g := fun e => e.1.degree - 2)
    (fun e _ => Nat.sub_le_sub_right (degree_contractMonomial_le a before e.1) 2) member
    (by have := degree_contractMonomial_lt a before high left right; omega)
  simp only [sumOf, List.map_map, Function.comp_def] at contracted lower
  simp only [excess, replace, contract, FormalSum.weight, sumOf] at *
  omega

def ancillaName (stem : String) (c : Pair Label) (n : Nat) : Label :=
  .name (stem ++ n.repr ++ "[" ++ c.left.text ++ "*" ++ c.right.text ++ "]")

/-- Numbers run on through all pairs, also over those that are skipped because they are taken. -/
def reduceFrom (options : Options) (p : NumericPoly) (taken : SortedSet Label) (counter : Nat) :
    Result :=
  match chosen : p.mostCommonPair with
  | none =>
    { poly := p
      ancillas := []
      quadratic := Multilinear.degree_le_of_mostCommonPair chosen }
  | some c =>
    let n := firstFresh (ancillaName options.stem c) taken counter
    let a := ancillaName options.stem c n
    let weight := options.penalty.getD (contractedWeight p c + 1)
    let rest := reduceFrom options (replace p c a weight) (taken.insert a) (n + 1)
    { rest with ancillas := ⟨a, c, weight⟩ :: rest.ancillas }
termination_by excess p
decreasing_by exact excess_replace_lt _ _ chosen

end Quadratization

namespace NumericPoly

def quadratize (p : NumericPoly) (options : Quadratization.Options)
    (reserved : SortedSet Label) : Quadratization.Result :=
  Quadratization.reduceFrom options p (reserved ∪ p.vars) 0

end NumericPoly

namespace Poly

def quadratizeWith (p : Poly) (options : Quadratization.Options) :
    Except Failure Quadratization.Result := do
  return (← p.numbers).quadratize options ∅

def quadratize (p : Poly) : Except Failure Quadratization.Result :=
  p.quadratizeWith Quadratization.Options.standard

end Poly

end PseudoBoolean
