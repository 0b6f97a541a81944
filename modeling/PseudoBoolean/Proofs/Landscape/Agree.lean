import Mathlib.Data.Set.Function
import PseudoBoolean.Proofs.Qubo

set_option autoImplicit false

namespace PseudoBoolean

open Multilinear

structure Solutions.Agree (restrict : Assignment → Assignment) (direct model : Solutions) :
    Prop where
  value : model.value = direct.value
  nodup_direct : direct.assignments.Nodup
  nodup_model : model.assignments.Nodup
  bijective : Set.BijOn restrict {a | a ∈ model.assignments} {a | a ∈ direct.assignments}

theorem Solutions.Agree.length_eq {restrict : Assignment → Assignment} {direct model : Solutions}
    (agree : Agree restrict direct model) :
    model.assignments.length = direct.assignments.length := by
  have nodup : (model.assignments.map restrict).Nodup :=
    agree.nodup_model.map_on fun a inside b other same =>
      agree.bijective.injOn inside other same
  have image : restrict '' {a | a ∈ model.assignments} = {a | a ∈ direct.assignments} :=
    agree.bijective.image_eq
  have perm : (model.assignments.map restrict).Perm direct.assignments := by
    refine (List.perm_ext_iff_of_nodup nodup agree.nodup_direct).mpr fun a => ?_
    rw [List.mem_map]
    exact Set.ext_iff.mp image a
  have same := perm.length_eq
  rwa [List.length_map] at same

def SameMinima (restrict : Assignment → Assignment) (original : Except Failure Landscape)
    (model : Except Failure Qubo) : Prop :=
  ∀ l q limit limit' direct found, original = .ok l → model = .ok q →
    l.solveAll limit = .ok direct → q.landscape.solveAll limit' = .ok found →
      Solutions.Agree restrict direct found ∧
        l.countMinimizers limit = q.landscape.countMinimizers limit'

namespace NumericPoly

def original (p : NumericPoly) (extra : SortedSet Label) (a : Assignment) : Assignment :=
  a.filterKeys fun v => v ∈ extra ∪ p.vars

variable {p : NumericPoly} {options : Quadratization.Options} {extra : SortedSet Label}
  {a b : Assignment}

theorem truth_original {v : Label} (known : v ∈ extra ∪ p.vars) :
    (p.original extra a).truth v = a.truth v :=
  Assignment.truth_filterKeys (decide_eq_true known)

theorem value_original : valueAt (p.original extra a).truth p = valueAt a.truth p :=
  valueAt_congr fun _ member => truth_original (SortedSet.mem_union.mpr (Or.inr member))

section Minima

variable (computed : options.penalty = none) {limit limit' : Nat} {direct model : Solutions}
  (searched : (p.landscape extra).solveAll limit = .ok direct)
  (solved : (p.toQubo options extra).landscape.solveAll limit' = .ok model)

include computed

theorem mem_labels_toQubo {v : Label} :
    v ∈ (p.toQubo options extra).landscape.indexing.labels ↔
      v ∈ extra ∪ p.vars ∨ v ∈ (p.quadratize options extra).labels := by
  rw [toQubo_eq]
  change v ∈ extra ∪ (p.quadratize options extra).poly.vars ↔ _
  rw [SortedSet.mem_union, SortedSet.mem_union,
    Quadratization.mem_vars_quadratize p options extra computed, or_assoc]

theorem majorizes_quadratize :
    Majorizes (p.quadratize options extra).poly p (p.quadratize options extra).labels :=
  Majorizes.quadratize p options extra (by simp [computed])

include solved

theorem isLeast_toQubo : IsLeast (Set.range fun σ => valueAt σ p) model.value :=
  (majorizes_quadratize computed).isLeast ((p.represents_toQubo options extra).isLeast solved)

-- A minimum of the model has its new labels right, since each wrong one costs something.
theorem minimal_toQubo (member : a ∈ model.assignments) :
    a.keys = (p.toQubo options extra).landscape.indexing.labels ∧
      valueAt a.truth p = model.value ∧ (p.quadratize options extra).Consistent a.truth := by
  have represents := p.represents_toQubo options extra
  obtain ⟨keys, minimal⟩ := (represents.mem_assignments solved).mp member
  have value := (majorizes_quadratize computed).value_eq (represents.isLeast solved) minimal
  have level : valueAt a.truth (p.quadratize options extra).poly = valueAt a.truth p :=
    Eq.trans minimal value.symm
  exact ⟨keys, value,
    (Quadratization.valueAt_quadratize_eq_iff p options extra computed a.truth).mp level⟩

theorem keys_minimal (member : a ∈ model.assignments) :
    (p.original extra a).keys = extra ∪ p.vars := by
  apply Assignment.keys_filterKeys
  intro v known
  rw [(minimal_toQubo computed solved member).1]
  exact (mem_labels_toQubo computed).mpr (Or.inl known)

-- The labels of `p` settle the new ones.
theorem injOn_original : Set.InjOn (p.original extra) {a | a ∈ model.assignments} := by
  intro a inside b other same
  obtain ⟨keys, -, left⟩ := minimal_toQubo computed solved inside
  obtain ⟨keys', -, right⟩ := minimal_toQubo computed solved other
  have known : ∀ v ∈ extra ∪ p.vars, a.truth v = b.truth v := by
    intro v member
    rw [← truth_original (p := p) (a := a) member, same, truth_original member]
  have old : ∀ v ∈ p.vars, a.truth v = b.truth v := fun v member =>
    known v (SortedSet.mem_union.mpr (Or.inr member))
  have new := (Quadratization.quadratize_reduces p options extra).grounded.agree left right old
  apply Assignment.ext_truth (keys.trans keys'.symm)
  intro v member
  rw [keys, mem_labels_toQubo computed] at member
  rcases member with original | added
  · exact known v original
  · obtain ⟨c, listed, named⟩ := List.mem_map.mp added
    rw [← named]
    exact new c listed

include searched

theorem value_toQubo : model.value = direct.value :=
  (isLeast_toQubo computed solved).unique ((p.represents_landscape extra).isLeast searched)

theorem mapsTo_original :
    Set.MapsTo (p.original extra) {a | a ∈ model.assignments} {a | a ∈ direct.assignments} := by
  intro a inside
  have value := (minimal_toQubo computed solved inside).2.1
  refine ((p.represents_landscape extra).mem_assignments searched).mpr
    ⟨keys_minimal computed solved inside, ?_⟩
  rw [value_original, value, value_toQubo computed searched solved]

-- The new labels are given the values that fit a minimum of `p`.
theorem surjOn_original :
    Set.SurjOn (p.original extra) {a | a ∈ model.assignments} {a | a ∈ direct.assignments} := by
  intro b inside
  obtain ⟨keys, minimal⟩ := ((p.represents_landscape extra).mem_assignments searched).mp inside
  obtain ⟨τ, agree, consistent⟩ := Quadratization.exists_consistent p options extra b.truth
  have value : valueAt τ (p.quadratize options extra).poly = model.value := by
    rw [Quadratization.valueAt_quadratize p options extra consistent,
      Quadratization.valueAt_of_agree p options extra agree, minimal,
      value_toQubo computed searched solved]
  have found := (p.represents_toQubo options extra).ofTruth_mem solved value
  refine ⟨_, found, ?_⟩
  have level := keys_minimal computed solved found
  apply Assignment.ext_truth (level.trans keys.symm)
  intro v known
  rw [level] at known
  have free : v ∉ (p.quadratize options extra).labels := fun new =>
    Quadratization.label_not_mem_vars p options extra new known
  rw [truth_original known,
    Assignment.truth_ofTruth ((mem_labels_toQubo computed).mpr (Or.inl known)), agree v free]

theorem agree_toQubo : Solutions.Agree (p.original extra) direct model where
  value := value_toQubo computed searched solved
  nodup_direct := Landscape.nodup_assignments searched
  nodup_model := Landscape.nodup_assignments solved
  bijective := ⟨mapsTo_original computed searched solved, injOn_original computed solved,
    surjOn_original computed searched solved⟩

end Minima

theorem sameMinima (p : NumericPoly) (extra : SortedSet Label) (computed : options.penalty = none) :
    SameMinima (p.original extra) (.ok (p.landscape extra)) (.ok (p.toQubo options extra)) := by
  intro l q limit limit' direct found original model searched solved
  cases original
  cases model
  have agree := agree_toQubo computed searched solved
  refine ⟨agree, ?_⟩
  rw [Landscape.countMinimizers_eq_ok searched, Landscape.countMinimizers_eq_ok solved,
    agree.length_eq]

end NumericPoly

end PseudoBoolean
