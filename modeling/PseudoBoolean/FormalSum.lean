import PseudoBoolean.SortedMap

set_option autoImplicit false

namespace PseudoBoolean

open Std

-- At concrete numbers too the sum starts from the literal zero.
abbrev sumOf {E R : Type} [OfNat R 0] [Add R] (f : E → R) (l : List E) : R :=
  (l.map f).sum

structure FormalSum (K R : Type) [Ord K] [OfNat R 0] extends SortedMap K R where
  nonzero : ∀ e ∈ entries, e.2 ≠ 0

namespace FormalSum

variable {K R : Type} [Ord K] [OfNat R 0]

theorem toSortedMap_injective {p q : FormalSum K R} (same : p.toSortedMap = q.toSortedMap) :
    p = q := by
  cases p
  cases q
  simpa using same

instance [DecidableEq K] [DecidableEq R] : DecidableEq (FormalSum K R) := fun p q =>
  decidable_of_iff (p.toSortedMap = q.toSortedMap) ⟨toSortedMap_injective, congrArg _⟩

def zero : FormalSum K R where
  toSortedMap := ∅
  nonzero := by simp [EmptyCollection.emptyCollection, SortedMap.empty]

instance : Zero (FormalSum K R) := ⟨zero⟩
instance : Inhabited (FormalSum K R) := ⟨zero⟩

def coeffAt (p : FormalSum K R) (k : K) : R :=
  (p.get? k).getD 0

def numTerms (p : FormalSum K R) : Nat :=
  p.size

def isZero (p : FormalSum K R) : Bool :=
  p.entries.isEmpty

def filterKeys (keep : K → Bool) (p : FormalSum K R) : FormalSum K R where
  toSortedMap := p.toSortedMap.filterKeys keep
  nonzero e member := p.nonzero e (List.mem_filter.mp member).1

theorem ext_coeff [TransOrd K] [LawfulEqOrd K] {p q : FormalSum K R}
    (same : ∀ k, p.coeffAt k = q.coeffAt k) : p = q := by
  have never (o : FormalSum K R) (k : K) : o.get? k ≠ some 0 := fun found =>
    o.nonzero _ (SortedMap.get_eq_some.mp found) rfl
  apply toSortedMap_injective
  apply SortedMap.ext_get
  intro k
  have at_k := same k
  simp only [coeffAt] at at_k
  cases left : p.get? k <;> cases right : q.get? k <;> simp_all

section Decide

variable [DecidableEq R]

def single (k : K) (c : R) : FormalSum K R :=
  if zero : c = 0 then 0
  else
    { toSortedMap := SortedMap.singleton k c
      nonzero := by simpa [SortedMap.singleton] using zero }

def mapCoeffs {S : Type} [OfNat S 0] [DecidableEq S] (f : R → S) (p : FormalSum K R) :
    FormalSum K S where
  entries := p.entries.filterMap fun e => if f e.2 = 0 then none else some (e.1, f e.2)
  increasing := p.increasing.filterMap _ (by grind)
  nonzero := by grind

omit [DecidableEq R] in
theorem exists_of_mem_mapCoeffs {S : Type} [OfNat S 0] [DecidableEq S] {f : R → S}
    {p : FormalSum K R} {e : K × S} (member : e ∈ (p.mapCoeffs f).entries) :
    ∃ t ∈ p.entries, e = (t.1, f t.2) := by
  obtain ⟨t, inside, kept⟩ := List.mem_filterMap.mp member
  exact ⟨t, inside, by grind⟩

section Add

variable [Add R]

def joinTerms (s t : K × R) : Option (K × R) :=
  if s.2 + t.2 = 0 then none else some (s.1, s.2 + t.2)

variable [TransOrd K] [LawfulEqOrd K]

def add (p q : FormalSum K R) : FormalSum K R where
  entries := merge Prod.fst joinTerms p.entries q.entries
  increasing := (merged p.entries q.entries).increasing (by grind [JoinKeeps, joinTerms])
    p.increasing q.increasing
  nonzero := (merged p.entries q.entries).forall_mem p.nonzero q.nonzero (by grind [joinTerms])

instance : Add (FormalSum K R) := ⟨add⟩

def addTerm (p : FormalSum K R) (k : K) (c : R) : FormalSum K R :=
  single k c + p

def ofList (l : List (K × R)) : FormalSum K R :=
  l.foldr (fun e p => p.addTerm e.1 e.2) 0

def sum (l : List (FormalSum K R)) : FormalSum K R :=
  l.foldr add 0

end Add

section Weight

def weight (w : K → Nat) (p : FormalSum K R) : Nat :=
  sumOf (fun e => w e.1) p.entries

theorem weight_single_le (w : K → Nat) (k : K) (c : R) : (single k c).weight w ≤ w k := by
  simp only [single]
  split
  · exact Nat.zero_le _
  · simp [weight, sumOf, SortedMap.singleton]

variable [Add R] [TransOrd K] [LawfulEqOrd K]

theorem weight_add_le (w : K → Nat) (p q : FormalSum K R) :
    (p + q).weight w ≤ p.weight w + q.weight w := by
  refine (merged p.entries q.entries).sum_map Nat.le_refl Nat.add_le_add (fun e => w e.1) ?_
  intro x y _
  simp only [joinTerms]
  split
  · exact Nat.zero_le _
  · exact Nat.le_add_right _ _

theorem weight_ofList_le (w : K → Nat) (l : List (K × R)) :
    (ofList l).weight w ≤ sumOf (fun e => w e.1) l := by
  induction l with
  | nil => exact Nat.le_refl 0
  | cons e l ih =>
    have first := weight_add_le w (single e.1 e.2) (ofList l)
    have alone := weight_single_le w e.1 e.2
    simp only [sumOf, List.map_cons, List.sum_cons] at ih ⊢
    exact Nat.le_trans first (by omega)

end Weight

section Keys

theorem key_mem_single {k : K} {c : R} {e : K × R} (member : e ∈ (single k c).entries) :
    e.1 = k := by
  simp only [single] at member
  split at member
  · exact absurd member List.not_mem_nil
  · simp_all [SortedMap.singleton]

variable [Add R] [TransOrd K] [LawfulEqOrd K]

theorem key_mem_add {p q : FormalSum K R} {e : K × R}
    (member : e ∈ (p + q).entries) :
    ∃ f, (f ∈ p.entries ∨ f ∈ q.entries) ∧ f.1 = e.1 :=
  (merged p.entries q.entries).key_of_mem (by grind [JoinKeeps, joinTerms]) member

theorem key_mem_ofList {l : List (K × R)} {e : K × R} (member : e ∈ (ofList l).entries) :
    ∃ f ∈ l, f.1 = e.1 := by
  induction l generalizing e with
  | nil => exact absurd member List.not_mem_nil
  | cons g l ih =>
    obtain ⟨f, found | found, same⟩ :=
      key_mem_add (show e ∈ (single g.1 g.2 + ofList l).entries from member)
    · exact ⟨g, by simp, (key_mem_single found).symm.trans same⟩
    · obtain ⟨f', found', same'⟩ := ih found
      exact ⟨f', by simp [found'], same'.trans same⟩

theorem key_mem_sum {l : List (FormalSum K R)} {e : K × R} (member : e ∈ (sum l).entries) :
    ∃ p ∈ l, ∃ f ∈ p.entries, f.1 = e.1 := by
  induction l generalizing e with
  | nil => exact absurd member List.not_mem_nil
  | cons p l ih =>
    obtain ⟨f, found | found, same⟩ :=
      key_mem_add (show e ∈ (p + sum l).entries from member)
    · exact ⟨p, by simp, f, found, same⟩
    · obtain ⟨q, inside, g, found', same'⟩ := ih found
      exact ⟨q, by simp [inside], g, found', same'.trans same⟩

end Keys

section Counting

variable {J : Type} [Ord J] [TransOrd J] [LawfulEqOrd J]

-- Natural coefficients never cancel.
theorem add_eq_nil {p q : FormalSum J Nat} (nothing : (p + q).entries = []) :
    p.entries = [] ∧ q.entries = [] := by
  refine merge_eq_nil (fun x inside y _ => ?_) nothing
  have := p.nonzero x inside
  simp only [joinTerms]
  split <;> simp_all

theorem sum_eq_nil {l : List (FormalSum J Nat)} (nothing : (sum l).entries = []) :
    ∀ p ∈ l, p.entries = [] := by
  induction l with
  | nil => simp
  | cons p l ih =>
    obtain ⟨first, rest⟩ := add_eq_nil (show (p + sum l).entries = [] from nothing)
    simpa [first] using ih rest

def counts (l : List J) : FormalSum J Nat :=
  ofList (l.map fun k => (k, 1))

theorem counts_eq_nil {l : List J} (nothing : (counts l).entries = []) : l = [] := by
  cases l with
  | nil => rfl
  | cons k l =>
    obtain ⟨first, -⟩ := add_eq_nil (show (single k 1 + counts l).entries = [] from nothing)
    simp [single, SortedMap.singleton] at first

theorem key_mem_counts {l : List J} {e : J × Nat} (member : e ∈ (counts l).entries) : e.1 ∈ l := by
  obtain ⟨f, found, same⟩ := key_mem_ofList member
  obtain ⟨k, inside, rfl⟩ := List.mem_map.mp found
  simpa [← same] using inside

end Counting

instance [Neg R] : Neg (FormalSum K R) := ⟨mapCoeffs Neg.neg⟩

instance [Add R] [Neg R] [TransOrd K] [LawfulEqOrd K] : Sub (FormalSum K R) where
  sub p q := p + -q

def scale [Mul R] (c : R) (p : FormalSum K R) : FormalSum K R :=
  p.mapCoeffs (· * c)

section Product

variable [TransOrd K] [LawfulEqOrd K] [Mul K] [One K] [Add R] [Mul R] [OfNat R 1]

instance : One (FormalSum K R) := ⟨single 1 1⟩

def timesTerm (k : K) (c : R) (p : FormalSum K R) : FormalSum K R :=
  ofList (p.entries.map fun e => (k * e.1, c * e.2))

instance : Mul (FormalSum K R) where
  mul p q := sum (p.entries.map fun e => q.timesTerm e.1 e.2)

omit [One K] [OfNat R 1] in
theorem key_mem_mul {p q : FormalSum K R} {e : K × R} (member : e ∈ (p * q).entries) :
    ∃ s ∈ p.entries, ∃ t ∈ q.entries, e.1 = s.1 * t.1 := by
  obtain ⟨r, chosen, f, found, same⟩ := key_mem_sum member
  obtain ⟨s, left, rfl⟩ := List.mem_map.mp chosen
  obtain ⟨g, counted, same'⟩ := key_mem_ofList found
  obtain ⟨t, right, rfl⟩ := List.mem_map.mp counted
  exact ⟨s, left, t, right, by rw [← same, ← same']⟩

def pow (p : FormalSum K R) : Nat → FormalSum K R
  | 0 => 1
  | n + 1 => p.pow n * p

end Product

end Decide

end FormalSum

end PseudoBoolean
