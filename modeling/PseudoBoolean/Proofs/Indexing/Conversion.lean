import PseudoBoolean.Proofs.Indexing.Order
import PseudoBoolean.Proofs.Poly.Symbols

set_option autoImplicit false

namespace PseudoBoolean.Indexing

open Std

section Numbering

def table (x : Indexing) : SortedMap Label Nat :=
  SortedMap.ofList x.labels.toList.zipIdx

structure Numbers (x : Indexing) : Prop where
  indexed : ∀ v, (∃ i, x.index? v = some i) ↔ v ∈ x.labels
  labelled : ∀ i, (∃ v, x.label? i = some v) ↔ i < x.size
  inverse : ∀ v i, x.index? v = some i ↔ x.label? i = some v
  ordered : ∀ u v i j, x.index? u = some i → x.index? v = some j → compare i j = compare u v
  table : ∀ v, x.table.get? v = x.index? v

theorem indexed_iff {x : Indexing} {v : Label} : (∃ i, x.index? v = some i) ↔ v ∈ x.labels := by
  constructor
  · rintro ⟨i, found⟩
    exact List.mem_of_getElem? (index_eq_some.mp found)
  · exact exists_index

theorem labelled_iff {x : Indexing} {i : Nat} : (∃ v, x.label? i = some v) ↔ i < x.size := by
  constructor
  · rintro ⟨v, found⟩
    exact (List.getElem?_eq_some_iff.mp found).1
  · exact fun bound => ⟨_, List.getElem?_eq_getElem bound⟩

theorem get_table (x : Indexing) (v : Label) : x.table.get? v = x.index? v := by
  have labels : x.labels.toList.zipIdx.map Prod.fst = x.labels.toList := List.zipIdx_map_fst 0 _
  have distinct : (x.labels.toList.zipIdx.map Prod.fst).Nodup := by
    rw [labels]
    exact x.labels.nodup_toList
  cases found : x.index? v with
  | some i =>
    have listed : (v, i) ∈ x.labels.toList.zipIdx :=
      List.mem_zipIdx_iff_getElem?.mpr (index_eq_some.mp found)
    exact SortedMap.get_foldl_insert_of_mem distinct listed ∅
  | none =>
    refine (SortedMap.get_foldl_insert (fun e listed same => ?_) ∅).trans rfl
    have member : v ∈ x.labels.toList := by
      rw [same, ← labels]
      exact List.mem_map_of_mem listed
    obtain ⟨i, other⟩ := exists_index member
    cases found.symm.trans other

theorem numbers (x : Indexing) : x.Numbers where
  indexed _ := indexed_iff
  labelled _ := labelled_iff
  inverse _ _ := index_eq_some
  ordered _ _ _ _ := compare_index
  table := get_table x

theorem mem_ofList {l : List Label} {v : Label} : v ∈ (ofList l).labels ↔ v ∈ l :=
  SortedSet.mem_ofList

theorem size_ofList (l : List Label) : (ofList l).size = l.dedup.length := by
  have perm : (ofList l).labels.toList.Perm l.dedup := by
    refine (List.perm_ext_iff_of_nodup (SortedSet.nodup_toList _) l.nodup_dedup).mpr fun v => ?_
    rw [List.mem_dedup]
    exact mem_ofList
  exact perm.length_eq

theorem ofList_eq_iff {l k : List Label} : ofList k = ofList l ↔ ∀ v, v ∈ k ↔ v ∈ l := by
  constructor
  · intro same v
    rw [← mem_ofList, same, mem_ofList]
  · intro same
    refine congrArg Indexing.mk (SortedSet.ext_mem fun v => ?_)
    rw [SortedSet.mem_ofList, same, SortedSet.mem_ofList]

end Numbering

section Conversion

variable {x : Indexing} {a : Assignment} {values : List Bool} {v : Label} {i mask : Nat}

def bits (x : Indexing) (mask : Nat) : List Bool :=
  (List.range x.size).map mask.testBit

theorem length_bits (x : Indexing) (mask : Nat) : (x.bits mask).length = x.size := by
  rw [bits, List.length_map, List.length_range]

theorem getD_bits (small : mask < 2 ^ x.size) (i : Nat) :
    (x.bits mask).getD i false = mask.testBit i := by
  by_cases inside : i < x.size
  · simp [bits, List.getD, inside]
  · rw [testBit_outside small inside]
    simp [bits, List.getD, inside]

theorem toBits_eq_ok (covered : a.Covers x.labels) :
    x.toBits a = .ok (x.labels.toList.map a.truth) :=
  mapM_eq_ok fun v inside => Assignment.value_eq_ok (covered v inside)

theorem toBits_ofTruth (x : Indexing) (σ : Label → Bool) :
    x.toBits (Assignment.ofTruth x.labels σ) = .ok (x.labels.toList.map σ) := by
  have covered : (Assignment.ofTruth x.labels σ).Covers x.labels := fun v inside => by
    rwa [Assignment.keys_ofTruth]
  rw [toBits_eq_ok covered, List.map_congr_left fun v inside => Assignment.truth_ofTruth inside]

theorem toBits_ofMask (x : Indexing) (mask : Nat) :
    x.toBits (x.ofMask mask) = .ok (x.bits mask) := by
  rw [ofMask_eq, toBits_ofTruth, map_pull, bits]

theorem toBits_assign (fits : values.length = x.size) :
    x.toBits (x.assign values) = .ok values := by
  rw [assign_eq fits, toBits_ofTruth, map_pull_getD fits]

theorem get_ofTruth_pull {σ : Nat → Bool} (found : x.index? v = some i) :
    (Assignment.ofTruth x.labels (x.pull σ)).get? v = some (σ i) := by
  have inside : v ∈ x.labels := indexed_iff.mp ⟨i, found⟩
  rw [Assignment.get_eq_truth (by rwa [Assignment.keys_ofTruth]), Assignment.truth_ofTruth inside,
    pull_of_index found]

theorem get_assign (fits : values.length = x.size) (found : x.index? v = some i) :
    (x.assign values).get? v = values[i]? := by
  have bound : i < values.length := fits ▸ index_lt_size found
  rw [assign_eq fits, get_ofTruth_pull found, List.getD_eq_getElem values false bound,
    List.getElem?_eq_getElem bound]

theorem toAssignment_truth (covered : a.Covers x.labels) :
    x.toAssignment (x.labels.toList.map a.truth) = .ok (a.filterKeys fun v => v ∈ x.labels) := by
  have restricted : Assignment.ofTruth x.labels a.truth = a.filterKeys fun v => v ∈ x.labels := by
    have keys := Assignment.keys_filterKeys covered
    apply Assignment.ext_truth ((Assignment.keys_ofTruth _ _).trans keys.symm)
    intro v member
    rw [Assignment.keys_ofTruth] at member
    rw [Assignment.truth_ofTruth member, Assignment.truth_filterKeys (decide_eq_true member)]
  rw [← restricted]
  exact if_pos (List.length_map _)

theorem toAssignment_eq_error_iff {failure : Failure} :
    x.toAssignment values = .error failure ↔
      values.length ≠ x.size ∧ failure = .wrongValueCount x.size values.length := by
  by_cases fits : values.length = x.size <;> simp [toAssignment, fits, eq_comm]

def missing (x : Indexing) (a : Assignment) : SortedSet Label :=
  x.labels.filter fun v => v ∉ a.keys

theorem toBits_eq_error_iff {failure : Failure} :
    x.toBits a = .error failure ↔ ∃ v, (x.missing a).Least v ∧ failure = .missingVariable v := by
  simp only [toBits, mapM_eq_error_iff, missing, SortedSet.least_filter_iff,
    Assignment.value_isOk_iff]
  constructor
  · rintro ⟨before, v, after, split, prior, failed⟩
    obtain ⟨absent, named⟩ := Assignment.missing_of_value failed
    exact ⟨v, ⟨before, after, split, by simpa using prior, by simpa using absent⟩, named⟩
  · rintro ⟨v, ⟨before, after, split, prior, absent⟩, rfl⟩
    refine ⟨before, v, after, split, by simpa using prior, ?_⟩
    have nothing : a.get? v = none := SortedMap.get_eq_none (by simpa using absent)
    rw [Assignment.value, nothing]

theorem toBits_isOk_iff : (∃ values, x.toBits a = .ok values) ↔ a.Covers x.labels :=
  mapM_isOk_iff.trans (forall₂_congr fun _ _ => Assignment.value_isOk_iff)

structure Converts (x : Indexing) : Prop where
  assigned : ∀ values : List Bool, values.length = x.size →
    ∃ a, x.toAssignment values = .ok a ∧ x.toBits a = .ok values ∧
      ∀ v i, x.index? v = some i → a.get? v = values[i]?
  restricted : ∀ a : Assignment, a.Covers x.labels →
    ∃ values, x.toBits a = .ok values ∧
      x.toAssignment values = .ok (a.filterKeys fun v => v ∈ x.labels)
  counted : ∀ values failure, x.toAssignment values = .error failure ↔
    values.length ≠ x.size ∧ failure = .wrongValueCount x.size values.length
  covered : ∀ a : Assignment, (∃ values, x.toBits a = .ok values) ↔ a.Covers x.labels
  missed : ∀ a failure, x.toBits a = .error failure ↔
    ∃ v, (x.missing a).Least v ∧ failure = .missingVariable v
  masked : ∀ mask, x.toAssignment (x.bits mask) = .ok (x.ofMask mask) ∧
    ∀ v i, x.index? v = some i → (x.ofMask mask).get? v = some (mask.testBit i)

theorem converts (x : Indexing) : x.Converts where
  assigned values fits :=
    ⟨x.assign values, if_pos fits, toBits_assign fits, fun _ _ found => get_assign fits found⟩
  restricted _ covered := ⟨_, toBits_eq_ok covered, toAssignment_truth covered⟩
  counted _ _ := toAssignment_eq_error_iff
  covered _ := toBits_isOk_iff
  missed _ _ := toBits_eq_error_iff
  masked mask := by
    refine ⟨if_pos (x.length_bits mask), fun v i found => ?_⟩
    rw [ofMask_eq, get_ofTruth_pull found]

end Conversion

theorem ofList_bijective (l : List Label) :
    (ofList l).size = l.dedup.length ∧ (∀ v, v ∈ (ofList l).labels ↔ v ∈ l) ∧
      (∀ k, ofList k = ofList l ↔ ∀ v, v ∈ k ↔ v ∈ l) ∧ (ofList l).Numbers ∧
      (ofList l).Converts :=
  ⟨size_ofList l, fun _ => mem_ofList, fun _ => ofList_eq_iff, numbers _, converts _⟩

end PseudoBoolean.Indexing
