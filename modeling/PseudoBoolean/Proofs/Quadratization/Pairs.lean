import PseudoBoolean.Proofs.Quadratization.Run

set_option autoImplicit false

namespace PseudoBoolean.Quadratization

open Multilinear

variable {p q : NumericPoly} {c d : Pair Label} {a : Label} {weight : Rat}

theorem exists_contracted {e : Monomial Label × Rat}
    (inside : e ∈ (contract p c a).entries) : ∃ t ∈ p.entries, contractMonomial c a t.1 = e.1 := by
  obtain ⟨f, listed, same⟩ := FormalSum.key_mem_ofList inside
  obtain ⟨t, old, rfl⟩ := List.mem_map.mp listed
  exact ⟨t, old, same⟩

-- The penalty brings no monomial of degree above two.
theorem exists_contracted_of_high {e : Monomial Label × Rat}
    (inside : e ∈ (replace p c a weight).entries) (high : 2 < e.1.degree) :
    ∃ t ∈ p.entries, contractMonomial c a t.1 = e.1 := by
  obtain ⟨f, found, same⟩ := FormalSum.key_mem_add inside
  rw [← same] at high ⊢
  rcases found with contracted | penalized
  · exact exists_contracted contracted
  · exact absurd (degree_of_mem_penalty penalized) (Nat.not_le_of_lt high)

def Spent (c : Pair Label) (p : NumericPoly) : Prop :=
  ∀ e ∈ p.entries, 2 < e.1.degree → ¬ (c.left ∈ e.1 ∧ c.right ∈ e.1)

theorem spent_replace (new : c.left ≠ a) (p : NumericPoly) (weight : Rat) :
    Spent c (replace p c a weight) := by
  intro e inside high both
  obtain ⟨t, old, same⟩ := exists_contracted_of_high inside high
  rw [← same] at high both
  by_cases changed : 2 < t.1.degree ∧ c.left ∈ t.1 ∧ c.right ∈ t.1
  · rcases (mem_contractMonomial changed).mp both.1 with fresh | ⟨-, gone, -⟩
    · exact new fresh
    · exact gone rfl
  · rw [contractMonomial_of_not_held changed] at high both
    exact changed ⟨high, both⟩

-- A later step brings a new label into a monomial and no other.
theorem Spent.replace (spent : Spent d p) (before : compare c.left c.right = .lt)
    (left : d.left ≠ a) (right : d.right ≠ a) (weight : Rat) :
    Spent d (replace p c a weight) := by
  intro e inside high both
  obtain ⟨t, old, same⟩ := exists_contracted_of_high inside high
  have kept (v : Label) (apart : v ≠ a) (member : v ∈ e.1) : v ∈ t.1 := by
    rw [← same] at member
    by_cases changed : 2 < t.1.degree ∧ c.left ∈ t.1 ∧ c.right ∈ t.1
    · exact (((mem_contractMonomial changed).mp member).resolve_left apart).1
    · rwa [contractMonomial_of_not_held changed] at member
  have higher : 2 < t.1.degree := by
    rw [← same] at high
    exact Nat.lt_of_lt_of_le high (degree_contractMonomial_le a before t.1)
  exact spent t old higher ⟨kept d.left left both.1, kept d.right right both.2⟩

def Grounded : SortedSet Label → List Ancilla → Prop
  | _, [] => True
  | known, a :: later =>
    compare a.pair.left a.pair.right = .lt ∧ a.pair.left ∈ known ∧ a.pair.right ∈ known ∧
      Grounded (known.insert a.label) later

theorem Grounded.mono {known more : SortedSet Label} {ancillas : List Ancilla}
    (grounded : Grounded known ancillas) (subset : ∀ v ∈ known, v ∈ more) :
    Grounded more ancillas := by
  induction ancillas generalizing known more with
  | nil => trivial
  | cons a later ih =>
    obtain ⟨ordered, left, right, rest⟩ := grounded
    refine ⟨ordered, subset _ left, subset _ right, ih rest fun v member => ?_⟩
    exact SortedSet.mem_insert.mpr ((SortedSet.mem_insert.mp member).imp id (subset v))

theorem Grounded.agree {known : SortedSet Label} {ancillas : List Ancilla}
    (grounded : Grounded known ancillas) {σ τ : Label → Bool}
    (left : ∀ a ∈ ancillas, a.Consistent σ) (right : ∀ a ∈ ancillas, a.Consistent τ)
    (same : ∀ v ∈ known, σ v = τ v) : ∀ a ∈ ancillas, σ a.label = τ a.label := by
  induction ancillas generalizing known with
  | nil => simp
  | cons a later ih =>
    obtain ⟨-, first, second, rest⟩ := grounded
    obtain ⟨carried, left⟩ := List.forall_mem_cons.mp left
    obtain ⟨carried', right⟩ := List.forall_mem_cons.mp right
    have settled : σ a.label = τ a.label := by
      rw [carried, carried', same _ first, same _ second]
    refine List.forall_mem_cons.mpr ⟨settled, ih rest left right fun v member => ?_⟩
    rcases SortedSet.mem_insert.mp member with rfl | old
    · exact settled
    · exact same v old

namespace Reduces

variable {options : Options} {taken : SortedSet Label} {ancillas : List Ancilla}

theorem grounded (reduces : Reduces options p taken q ancillas) : Grounded p.vars ancillas := by
  induction reduces with
  | done low => trivial
  | @step p q taken ancillas c a weight chosen fresh strength rest ih =>
    obtain ⟨left, right⟩ := pair_mem_vars chosen
    obtain ⟨-, -, -, -, -, before⟩ := mostCommonPair_mem chosen
    refine ⟨before, left, right, ih.mono fun v member => ?_⟩
    exact SortedSet.mem_insert.mpr (vars_replace left right member)

theorem not_mem_pairs (reduces : Reduces options p taken q ancillas) (spent : Spent d p)
    (left : d.left ∈ taken) (right : d.right ∈ taken) : d ∉ ancillas.map Ancilla.pair := by
  induction reduces with
  | done low => simp
  | @step p q taken ancillas c a weight chosen fresh strength rest ih =>
    obtain ⟨e, inside, high, first, second, before⟩ := mostCommonPair_mem chosen
    have apart {v : Label} (old : v ∈ taken) : v ≠ a := fun same => fresh (same ▸ old)
    have old {v : Label} (member : v ∈ taken) : v ∈ taken.insert a :=
      SortedSet.mem_insert.mpr (Or.inr member)
    have later := ih (spent.replace before (apart left) (apart right) weight) (old left) (old right)
    rw [List.map_cons, List.mem_cons, not_or]
    refine ⟨fun same => ?_, later⟩
    subst same
    exact spent e inside high ⟨first, second⟩

theorem nodup_pairs (reduces : Reduces options p taken q ancillas)
    (covered : ∀ v ∈ p.vars, v ∈ taken) : (ancillas.map Ancilla.pair).Nodup := by
  induction reduces with
  | done low => exact List.nodup_nil
  | @step p q taken ancillas c a weight chosen fresh strength rest ih =>
    obtain ⟨left, right⟩ := pair_mem_vars chosen
    have new : c.left ≠ a := fun same => fresh (same ▸ covered _ left)
    have old {v : Label} (member : v ∈ p.vars) : v ∈ taken.insert a :=
      SortedSet.mem_insert.mpr (Or.inr (covered v member))
    rw [List.map_cons, List.nodup_cons]
    constructor
    · exact rest.not_mem_pairs (spent_replace new p weight) (old left) (old right)
    · exact ih (covered_replace covered chosen a weight)

theorem nodup_labels (reduces : Reduces options p taken q ancillas) :
    (ancillas.map Ancilla.label).Nodup := by
  induction reduces with
  | done low => exact List.nodup_nil
  | @step p q taken ancillas c a weight chosen fresh strength rest ih =>
    rw [List.map_cons, List.nodup_cons]
    refine ⟨fun later => ?_, ih⟩
    obtain ⟨b, inside, same⟩ := List.mem_map.mp later
    exact rest.label_not_taken b inside (SortedSet.mem_insert.mpr (Or.inl same))

theorem length_le_excess (reduces : Reduces options p taken q ancillas) :
    ancillas.length ≤ excess p := by
  induction reduces with
  | done low => exact Nat.zero_le _
  | @step p q taken ancillas c a weight chosen fresh strength rest ih =>
    have lower := excess_replace_lt a weight chosen
    rw [List.length_cons]
    omega

theorem unchanged (reduces : Reduces options p taken q ancillas) (small : p.degree ≤ 2) :
    q = p ∧ ancillas = [] := by
  cases reduces with
  | done low => exact ⟨rfl, rfl⟩
  | step chosen fresh strength rest =>
    exact absurd small (Nat.not_le_of_lt (lt_degree_of_mostCommonPair chosen))

end Reduces

end PseudoBoolean.Quadratization
