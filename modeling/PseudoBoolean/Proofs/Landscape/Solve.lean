import PseudoBoolean.Proofs.Indexing
import PseudoBoolean.Proofs.Landscape.Search

set_option autoImplicit false

namespace PseudoBoolean.Landscape

structure Represents (l : Landscape) (f : (Label → Bool) → Rat) : Prop where
  energy : ∀ mask, l.energy mask = f (l.indexing.pull mask.testBit)
  depends : ∀ σ τ, (∀ v ∈ l.indexing.labels, σ v = τ v) → f σ = f τ

variable {l : Landscape} {f : (Label → Bool) → Rat} {limit : Nat} {s : Solutions}

def level (l : Landscape) (q : Rat) : List Assignment :=
  (Minimum.level l.energy q (2 ^ l.indexing.size)).map l.indexing.ofMask

def IsMinimum (l : Landscape) (q : Rat) : Prop :=
  IsLeast {v | ∃ mask < 2 ^ l.indexing.size, l.energy mask = v} q

theorem refuses (l : Landscape) (blocked : limit < l.indexing.size ∨ 64 ≤ l.indexing.size) :
    l.solveAll limit = .error (.tooManyVariables l.indexing.size limit) ∧
      l.solve limit = .error (.tooManyVariables l.indexing.size limit) ∧
      l.countMinimizers limit = .error (.tooManyVariables l.indexing.size limit) := by
  simp [solveAll, solve, countMinimizers, minimum, blocked, bind, Except.bind]

-- The two kinds of search meet the same least value, so they answer from one list.
theorem answers (l : Landscape) (allowed : ¬(limit < l.indexing.size ∨ 64 ≤ l.indexing.size)) :
    ∃ q first rest, l.IsMinimum q ∧ l.level q = first :: rest ∧
      l.solveAll limit = .ok ⟨q, first :: rest⟩ ∧ l.solve limit = .ok ⟨q, first⟩ ∧
      l.countMinimizers limit = .ok (first :: rest).length := by
  have searched (all : Bool) : l.minimum all limit =
      .ok (Minimum.search l.energy all (2 ^ l.indexing.size)) := by
    rw [minimum, if_neg allowed, Nat.one_shiftLeft]
  have positive := Nat.two_pow_pos l.indexing.size
  obtain ⟨q, every⟩ := Minimum.search_finds l.energy true positive
  obtain ⟨q', one⟩ := Minimum.search_finds l.energy false positive
  obtain rfl : q = q' := every.least.unique one.least
  obtain ⟨first, rest, masks⟩ := List.exists_cons_of_ne_nil every.level_ne_nil
  have listed : l.level q = l.indexing.ofMask first :: rest.map l.indexing.ofMask := by
    rw [level, masks, List.map_cons]
  refine ⟨q, _, _, every.least, listed, ?_, ?_, ?_⟩
  · have kept := every.masks
    rw [if_pos rfl, masks] at kept
    rw [solveAll, searched]
    simp [every.value, kept, bind, Except.bind, pure, Except.pure]
  · have kept := one.masks
    rw [if_neg Bool.false_ne_true, masks, List.take_succ_cons, List.take_zero] at kept
    have head : (Minimum.search l.energy false (2 ^ l.indexing.size)).masks[0]? = some first := by
      rw [← Array.getElem?_toList, kept]
      rfl
    rw [solve, searched]
    simp [one.value, head, bind, Except.bind, pure, Except.pure]
  · rw [countMinimizers, searched]
    simp [one.count, masks, bind, Except.bind, pure, Except.pure]

theorem solveAll_eq_ok (solved : l.solveAll limit = .ok s) :
    l.IsMinimum s.value ∧ s.assignments = l.level s.value := by
  by_cases blocked : limit < l.indexing.size ∨ 64 ≤ l.indexing.size
  · rw [(l.refuses blocked).1] at solved
    cases solved
  · obtain ⟨q, first, rest, least, listed, all, -, -⟩ := l.answers blocked
    rw [all] at solved
    cases solved
    exact ⟨least, listed.symm⟩

theorem solve_eq_ok {best : Solution} (solved : l.solve limit = .ok best) :
    ∃ mask < 2 ^ l.indexing.size, best = ⟨l.energy mask, l.indexing.ofMask mask⟩ := by
  by_cases blocked : limit < l.indexing.size ∨ 64 ≤ l.indexing.size
  · rw [(l.refuses blocked).2.1] at solved
    cases solved
  · obtain ⟨q, first, rest, -, listed, -, one, -⟩ := l.answers blocked
    have kept : first ∈ l.level q := listed ▸ List.mem_cons_self
    obtain ⟨mask, found, rfl⟩ := List.mem_map.mp kept
    obtain ⟨small, reached⟩ := Minimum.mem_level.mp found
    rw [one] at solved
    cases solved
    exact ⟨mask, small, by rw [reached]⟩

theorem countMinimizers_eq_ok (solved : l.solveAll limit = .ok s) :
    l.countMinimizers limit = .ok s.assignments.length := by
  by_cases blocked : limit < l.indexing.size ∨ 64 ≤ l.indexing.size
  · rw [(l.refuses blocked).1] at solved
    cases solved
  · obtain ⟨q, first, rest, -, -, all, -, count⟩ := l.answers blocked
    rw [all] at solved
    cases solved
    exact count

theorem nodup_level (l : Landscape) (q : Rat) : (l.level q).Nodup := by
  refine List.Nodup.map_on ?_ ((Minimum.pairwise_level _ _ _).imp Nat.ne_of_lt)
  intro mask found other foundOther same
  exact l.indexing.ofMask_injOn (Minimum.mem_level.mp found).1 (Minimum.mem_level.mp foundOther).1
    same

theorem nodup_assignments (solved : l.solveAll limit = .ok s) : s.assignments.Nodup := by
  rw [(solveAll_eq_ok solved).2]
  exact l.nodup_level s.value

theorem Represents.exists_mask (represents : l.Represents f) (σ : Label → Bool) :
    ∃ mask < 2 ^ l.indexing.size, l.energy mask = f σ ∧
      l.indexing.ofMask mask = Assignment.ofTruth l.indexing.labels σ := by
  refine ⟨l.indexing.maskOf σ, l.indexing.maskOf_lt σ, ?_, l.indexing.ofMask_maskOf σ⟩
  rw [represents.energy]
  exact represents.depends _ _ fun _ => Indexing.pull_maskOf

theorem Represents.energy_ofMask (represents : l.Represents f) (mask : Nat) :
    l.energy mask = f (l.indexing.ofMask mask).truth := by
  rw [represents.energy, Indexing.ofMask_eq]
  exact represents.depends _ _ fun v inside => (Assignment.truth_ofTruth inside).symm

theorem Represents.isLeast (represents : l.Represents f) (solved : l.solveAll limit = .ok s) :
    IsLeast (Set.range f) s.value := by
  obtain ⟨⟨reached, least⟩, -⟩ := solveAll_eq_ok solved
  constructor
  · obtain ⟨mask, -, energy⟩ := reached
    exact ⟨_, (represents.energy_ofMask mask).symm.trans energy⟩
  · rintro q ⟨σ, rfl⟩
    obtain ⟨mask, small, energy, -⟩ := represents.exists_mask σ
    exact least ⟨mask, small, energy⟩

theorem Represents.mem_assignments (represents : l.Represents f)
    (solved : l.solveAll limit = .ok s) {a : Assignment} :
    a ∈ s.assignments ↔ a.keys = l.indexing.labels ∧ f a.truth = s.value := by
  rw [(solveAll_eq_ok solved).2, level, List.mem_map]
  constructor
  · rintro ⟨mask, found, rfl⟩
    obtain ⟨-, reached⟩ := Minimum.mem_level.mp found
    refine ⟨?_, (represents.energy_ofMask mask).symm.trans reached⟩
    rw [Indexing.ofMask_eq, Assignment.keys_ofTruth]
  · rintro ⟨keys, minimal⟩
    obtain ⟨mask, small, energy, same⟩ := represents.exists_mask a.truth
    refine ⟨mask, Minimum.mem_level.mpr ⟨small, energy.trans minimal⟩, ?_⟩
    rw [same, ← keys, Assignment.ofTruth_truth]

theorem Represents.ofTruth_mem (represents : l.Represents f) (solved : l.solveAll limit = .ok s)
    {σ : Label → Bool} (minimal : f σ = s.value) :
    Assignment.ofTruth l.indexing.labels σ ∈ s.assignments := by
  rw [represents.mem_assignments solved, Assignment.keys_ofTruth, ← minimal]
  exact ⟨rfl, represents.depends _ _ fun v inside => Assignment.truth_ofTruth inside⟩

end PseudoBoolean.Landscape
