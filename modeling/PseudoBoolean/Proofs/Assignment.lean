import Mathlib.Logic.Function.Basic
import Mathlib.Order.Bounds.Basic
import PseudoBoolean.Label

set_option autoImplicit false

namespace PseudoBoolean

open Std

def AgreeOff (free : List Label) (σ τ : Label → Bool) : Prop :=
  ∀ v, v ∉ free → τ v = σ v

namespace AgreeOff

variable {free more : List Label} {σ τ υ : Label → Bool}

theorem refl (free : List Label) (σ : Label → Bool) : AgreeOff free σ σ := fun _ _ => rfl

theorem trans (first : AgreeOff free σ τ) (second : AgreeOff free τ υ) : AgreeOff free σ υ :=
  fun v outside => (second v outside).trans (first v outside)

theorem mono (agree : AgreeOff free σ τ) (subset : ∀ v ∈ free, v ∈ more) : AgreeOff more σ τ :=
  fun v outside => agree v fun inside => outside (subset v inside)

theorem update {a : Label} (inside : a ∈ free) (b : Bool) :
    AgreeOff free σ (fun v => if v = a then b else σ v) := by
  intro v outside
  have apart : v ≠ a := fun same => outside (same ▸ inside)
  simp [apart]

end AgreeOff

def valuesOver (free : List Label) (f : (Label → Bool) → Rat) (σ : Label → Bool) : Set Rat :=
  {q | ∃ τ, AgreeOff free σ τ ∧ f τ = q}

namespace SortedMap

variable {K V : Type} [Ord K] [LawfulEqOrd K]

theorem mem_keys {m : SortedMap K V} {k : K} : k ∈ m.keys ↔ ∃ v, m.get? k = some v := by
  constructor
  · intro member
    obtain ⟨e, inside, rfl⟩ := List.mem_map.mp member
    exact ⟨e.2, get_eq_some.mpr inside⟩
  · rintro ⟨v, found⟩
    exact List.mem_map.mpr ⟨(k, v), get_eq_some.mp found, rfl⟩

theorem get_eq_none {m : SortedMap K V} {k : K} (outside : k ∉ m.keys) : m.get? k = none := by
  cases found : m.get? k with
  | none => rfl
  | some v => exact absurd (mem_keys.mpr ⟨v, found⟩) outside

omit [LawfulEqOrd K] in
theorem mem_keys_filterKeys {m : SortedMap K V} {keep : K → Bool} {k : K} :
    k ∈ (m.filterKeys keep).keys ↔ k ∈ m.keys ∧ keep k = true := by
  constructor
  · intro member
    obtain ⟨e, inside, rfl⟩ := List.mem_map.mp member
    obtain ⟨old, kept⟩ := List.mem_filter.mp inside
    exact ⟨List.mem_map_of_mem old, kept⟩
  · rintro ⟨member, kept⟩
    obtain ⟨e, old, rfl⟩ := List.mem_map.mp member
    exact List.mem_map_of_mem (List.mem_filter.mpr ⟨old, kept⟩)

theorem get_filterKeys {m : SortedMap K V} {keep : K → Bool} {k : K} (kept : keep k = true) :
    (m.filterKeys keep).get? k = m.get? k := by
  apply Option.ext
  intro v
  rw [get_eq_some, get_eq_some]
  exact List.mem_filter.trans (and_iff_left kept)

theorem find_merge [DecidableEq K] (j k : K) (v : V) (l : List (K × V)) :
    find j (merge Prod.fst (fun e _ => some e) [(k, v)] l) =
      if j = k then some v else find j l := by
  induction l with
  | nil => simp [merge, weave, find]
  | cons e l ih =>
    simp only [merge, weave] at ih ⊢
    split
    next => simp [find]
    next level =>
      have equal : k = e.1 := LawfulEqOrd.eq_of_compare level
      by_cases here : j = k <;> simp [find, ← equal, here]
    next after =>
      have apart : k ≠ e.1 := fun same => by simp [same] at after
      simp only [find, ih]
      by_cases here : j = k <;> simp [here, apart]

theorem get_insert [TransOrd K] [DecidableEq K] (m : SortedMap K V) (j k : K) (v : V) :
    (m.insert k v).get? j = if j = k then some v else m.get? j :=
  find_merge j k v m.entries

theorem mem_keys_insert [TransOrd K] [DecidableEq K] {m : SortedMap K V} {j k : K} {v : V} :
    j ∈ (m.insert k v).keys ↔ j = k ∨ j ∈ m.keys := by
  rw [mem_keys, get_insert, mem_keys]
  by_cases same : j = k <;> simp [same]

section Entered

variable [TransOrd K] [DecidableEq K] {l : List (K × V)} {k : K}

theorem get_foldl_insert (absent : ∀ e ∈ l, k ≠ e.1) (m : SortedMap K V) :
    (l.foldl (fun m e => m.insert e.1 e.2) m).get? k = m.get? k := by
  induction l generalizing m with
  | nil => rfl
  | cons e l ih =>
    obtain ⟨first, rest⟩ := List.forall_mem_cons.mp absent
    rw [List.foldl_cons, ih rest, get_insert, if_neg first]

theorem get_foldl_insert_of_mem (nodup : (l.map Prod.fst).Nodup) {e : K × V} (inside : e ∈ l)
    (m : SortedMap K V) : (l.foldl (fun m e => m.insert e.1 e.2) m).get? e.1 = some e.2 := by
  induction l generalizing m with
  | nil => exact absurd inside List.not_mem_nil
  | cons t l ih =>
    obtain ⟨new, distinct⟩ := List.nodup_cons.mp nodup
    rw [List.foldl_cons]
    rcases List.mem_cons.mp inside with rfl | later
    · have last : ∀ t ∈ l, e.1 ≠ t.1 := fun t other same =>
        new (same ▸ List.mem_map_of_mem other)
      rw [get_foldl_insert last, get_insert, if_pos rfl]
    · exact ih distinct later _

end Entered

end SortedMap

namespace Assignment

def truth (a : Assignment) (v : Label) : Bool :=
  (a.get? v).getD false

def ofTruth (s : SortedSet Label) (σ : Label → Bool) : Assignment :=
  SortedMap.ofKeys s (s.toList.map σ)

variable {a b : Assignment} {s : SortedSet Label} {σ τ : Label → Bool} {v : Label}

theorem get_eq_truth (covered : v ∈ a.keys) : a.get? v = some (a.truth v) := by
  obtain ⟨b, found⟩ := SortedMap.mem_keys.mp covered
  simp [truth, found]

theorem ext_truth (same : a.keys = b.keys) (agree : ∀ v ∈ a.keys, a.truth v = b.truth v) :
    a = b := by
  apply SortedMap.ext_get
  intro v
  by_cases covered : v ∈ a.keys
  · rw [get_eq_truth covered, agree v covered, ← get_eq_truth (same ▸ covered)]
  · rw [SortedMap.get_eq_none covered, SortedMap.get_eq_none (same ▸ covered)]

@[simp]
theorem keys_ofTruth (s : SortedSet Label) (σ : Label → Bool) : (ofTruth s σ).keys = s := by
  apply SortedSet.ext
  simp [SortedMap.keys, ofTruth, SortedMap.ofKeys, List.map_fst_zip]

theorem truth_ofTruth (inside : v ∈ s) : (ofTruth s σ).truth v = σ v := by
  have paired : (v, σ v) ∈ s.toList.zip (s.toList.map σ) := by
    rw [← List.map_prod_left_eq_zip]
    exact List.mem_map_of_mem (f := fun v => (v, σ v)) inside
  have found : (ofTruth s σ).get? v = some (σ v) := SortedMap.get_eq_some.mpr paired
  rw [truth, found, Option.getD_some]

theorem ofTruth_congr (same : ∀ v ∈ s, σ v = τ v) : ofTruth s σ = ofTruth s τ := by
  rw [ofTruth, ofTruth, List.map_congr_left same]

theorem ofTruth_truth (a : Assignment) : ofTruth a.keys a.truth = a :=
  ext_truth (keys_ofTruth a.keys a.truth) fun v inside =>
    truth_ofTruth (by rwa [keys_ofTruth] at inside)

theorem truth_filterKeys {keep : Label → Bool} (kept : keep v = true) :
    truth (a.filterKeys keep) v = a.truth v := by
  rw [truth, SortedMap.get_filterKeys kept, truth]

theorem keys_filterKeys (covered : ∀ v ∈ s, v ∈ a.keys) :
    SortedMap.keys (a.filterKeys fun v => v ∈ s) = s := by
  apply SortedSet.ext_mem
  intro v
  rw [SortedMap.mem_keys_filterKeys, decide_eq_true_iff]
  exact ⟨And.right, fun kept => ⟨covered v kept, kept⟩⟩

theorem truth_insert (a : Assignment) (v : Label) (b : Bool) :
    truth (a.insert v b) = Function.update a.truth v b := by
  funext w
  rw [truth, SortedMap.get_insert]
  by_cases same : w = v
  · rw [same, Function.update_self, if_pos rfl, Option.getD_some]
  · rw [Function.update_of_ne same, if_neg same, truth]

end Assignment

end PseudoBoolean
