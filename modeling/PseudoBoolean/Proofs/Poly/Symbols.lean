import PseudoBoolean.Proofs.Poly.Evaluation

set_option autoImplicit false

namespace PseudoBoolean

open Std

theorem forM_discard {E F ε : Type} (f : E → Except ε F) (l : List E) :
    (l.forM fun x => discard (f x)) = (l.mapM f).map fun _ => () := by
  induction l with
  | nil => rfl
  | cons x l ih =>
    have first : ((x :: l).forM fun x => discard (f x)) =
        (discard (f x) >>= fun _ => l.forM fun x => discard (f x)) := rfl
    rw [first, ih, List.mapM_cons]
    cases f x with
    | error failure => rfl
    | ok y => cases l.mapM f <;> rfl

def SortedSet.Least {A : Type} [Ord A] (t : SortedSet A) (a : A) : Prop :=
  a ∈ t ∧ ∀ b ∈ t, (compare a b).isLE

namespace SortedSet

variable {A : Type} [Ord A] [TransOrd A] [LawfulEqOrd A] {t : SortedSet A} {a : A} {rest : List A}

omit [TransOrd A] in
theorem least_of_toList (listed : t.toList = a :: rest) : t.Least a := by
  have increasing := t.increasing
  rw [listed, increasing_cons] at increasing
  constructor
  · rw [← mem_toList, listed]
    exact List.mem_cons_self
  · intro b member
    rw [← mem_toList, listed] at member
    rcases List.mem_cons.mp member with rfl | later
    · exact ReflCmp.isLE_rfl
    · exact Ordering.isLE_of_eq_lt (increasing.1 b later)

theorem least_filter_iff {keep : A → Bool} :
    (t.filter keep).Least a ↔ ∃ before after, t.toList = before ++ a :: after ∧
      (∀ b ∈ before, keep b = false) ∧ keep a = true := by
  constructor
  · rintro ⟨member, least⟩
    obtain ⟨inside, kept⟩ := mem_filter.mp member
    obtain ⟨before, after, split⟩ := List.append_of_mem (mem_toList.mpr inside)
    refine ⟨before, after, split, fun b earlier => ?_, kept⟩
    have increasing := t.increasing
    rw [split] at increasing
    have strict := (List.pairwise_append.mp increasing).2.2 b earlier a List.mem_cons_self
    by_contra other
    have listed : b ∈ t := mem_toList.mp (split ▸ List.mem_append_left _ earlier)
    have above := least b (mem_filter.mpr ⟨listed, by simpa using other⟩)
    exact absurd above (OrientedCmp.not_isLE_of_lt strict)
  · rintro ⟨before, after, split, dropped, kept⟩
    have increasing := t.increasing
    rw [split] at increasing
    have later := (List.pairwise_cons.mp (List.pairwise_append.mp increasing).2.1).1
    have inside : a ∈ t := mem_toList.mp (split ▸ List.mem_append_right _ List.mem_cons_self)
    refine ⟨mem_filter.mpr ⟨inside, kept⟩, fun b member => ?_⟩
    obtain ⟨listed, held⟩ := mem_filter.mp member
    rw [← mem_toList, split, List.mem_append, List.mem_cons] at listed
    rcases listed with earlier | rfl | after
    · rw [dropped b earlier] at held
      cases held
    · exact ReflCmp.isLE_rfl
    · exact Ordering.isLE_of_eq_lt (later b after)

theorem Least.eq {b : A} (first : t.Least a) (second : t.Least b) : a = b :=
  LawfulEqOrd.eq_of_compare
    (OrientedCmp.isLE_antisymm (first.2 b second.1) (second.2 a first.1))

end SortedSet

section Report

def report {F : Type} (t : SortedSet Symbol) (x : F) : Except Failure F :=
  match t.toList with
  | [] => .ok x
  | s :: _ => .error (.unresolvedParameter s)

variable {F : Type} {t : SortedSet Symbol} {x : F}

theorem report_eq_error_iff {failure : Failure} :
    report t x = .error failure ↔ ∃ s, t.Least s ∧ failure = .unresolvedParameter s := by
  rw [report]
  split
  next nothing =>
    refine iff_of_false (fun failed => by cases failed) ?_
    rintro ⟨s, least, -⟩
    have member := least.1
    rw [← SortedSet.mem_toList, nothing] at member
    exact absurd member List.not_mem_nil
  next s rest listed =>
    have first := SortedSet.least_of_toList listed
    constructor
    · intro failed
      cases failed
      exact ⟨s, first, rfl⟩
    · rintro ⟨t, least, rfl⟩
      rw [first.eq least]

theorem report_isOk_iff : (∃ y, report t x = .ok y) ↔ ∀ s, s ∉ t := by
  simp only [report]
  split
  next nothing =>
    refine iff_of_true ⟨x, rfl⟩ fun s member => ?_
    rw [← SortedSet.mem_toList, nothing] at member
    exact List.not_mem_nil member
  next s rest listed =>
    refine iff_of_false ?_ fun free => free s (SortedSet.least_of_toList listed).1
    rintro ⟨y, read⟩
    cases read

end Report

namespace Coeff

theorem isNumber_iff {c : Coeff} : c.isNumber = true ↔ ∀ s, s ∉ c.symbols := by
  constructor
  · intro number s member
    rw [eq_number_of_isNumber number, ← SortedSet.mem_toList, symbols_number] at member
    exact absurd member List.not_mem_nil
  · intro free
    refine List.all_eq_true.mpr fun e inside => decide_eq_true ?_
    apply SymbolProduct.ext
    rw [SymbolProduct.one_factors, List.eq_nil_iff_forall_not_mem]
    intro s held
    refine free s (SortedSet.mem_ofList.mpr (List.mem_flatMap.mpr ⟨e, inside, held⟩))

theorem toNumber_eq_error_iff {c : Coeff} {failure : Failure} :
    c.toNumber = .error failure ↔ ∃ s, c.symbols.Least s ∧ failure = .unresolvedParameter s :=
  report_eq_error_iff

theorem toNumber_isOk_iff {c : Coeff} : (∃ q, c.toNumber = .ok q) ↔ ∀ s, s ∉ c.symbols :=
  report_isOk_iff

end Coeff

namespace Poly

variable {p : Poly} {failure : Failure}

theorem numeric_iff_symbols : p.Numeric ↔ ∀ s, s ∉ p.symbols := by
  constructor
  · exact not_mem_symbols_of_numeric
  · intro free
    refine List.all_eq_true.mpr fun e inside => Coeff.isNumber_iff.mpr fun s held => ?_
    exact free s (mem_symbols.mpr ⟨e, inside, held⟩)

theorem numbers_eq_error_iff :
    p.numbers = .error failure ↔ ∃ s, p.symbols.Least s ∧ failure = .unresolvedParameter s :=
  report_eq_error_iff

theorem numbers_isOk_iff : (∃ n, p.numbers = .ok n) ↔ p.Numeric :=
  report_isOk_iff.trans numeric_iff_symbols.symm

theorem numbersInOrder_eq (p : Poly) :
    p.numbersInOrder =
      ((p.entries.mapM fun e : Monomial Label × Coeff => e.2.toNumber) >>= fun _ =>
        pure p.constantParts) := by
  rw [numbersInOrder, forM_discard]
  cases p.entries.mapM fun e : Monomial Label × Coeff => e.2.toNumber <;> rfl

theorem numbersInOrder_eq_ok (numeric : p.Numeric) : p.numbersInOrder = .ok p.constantParts := by
  have each : ∀ e ∈ p.entries, e.2.toNumber = .ok e.2.constantPart := by
    intro e inside
    rw [eq_number_of_numeric numeric e inside, Coeff.toNumber_number, Coeff.constantPart_number]
  rw [numbersInOrder_eq, mapM_eq_ok each]
  rfl

theorem numbersInOrder_isOk_iff : (∃ n, p.numbersInOrder = .ok n) ↔ p.Numeric := by
  constructor
  · rintro ⟨n, read⟩
    rw [numbersInOrder_eq] at read
    obtain ⟨numbers, reads, -⟩ := exists_of_bind_eq_ok read
    refine List.all_eq_true.mpr fun e inside => Coeff.isNumber_iff.mpr ?_
    obtain ⟨number, known⟩ := exists_ok_of_mapM reads e inside
    exact Coeff.toNumber_isOk_iff.mp ⟨number, known⟩
  · exact fun numeric => ⟨_, numbersInOrder_eq_ok numeric⟩

theorem exists_of_numbersInOrder (failed : p.numbersInOrder = .error failure) :
    ∃ s ∈ p.symbols, failure = .unresolvedParameter s := by
  rw [numbersInOrder_eq, bind_pure_eq_error_iff] at failed
  obtain ⟨e, inside, unread⟩ := exists_mapM_error failed
  obtain ⟨s, least, same⟩ := Coeff.toNumber_eq_error_iff.mp unread
  exact ⟨s, mem_symbols.mpr ⟨e, inside, least.1⟩, same⟩

section Quadratic

variable {F : Type} {read : Except Failure NumericPoly} {model : p.degree ≤ 2 → F}

theorem whenQuadratic_eq_ok_iff {y : F} :
    p.whenQuadratic read model = .ok y ↔ (∃ n, read = .ok n) ∧ ∃ small, y = model small := by
  constructor
  · intro succeeded
    by_cases small : p.degree ≤ 2
    · rw [whenQuadratic, dif_pos small] at succeeded
      obtain ⟨n, known, same⟩ := exists_of_bind_eq_ok succeeded
      cases same
      exact ⟨⟨n, known⟩, small, rfl⟩
    · rw [whenQuadratic, dif_neg small] at succeeded
      cases succeeded
  · rintro ⟨⟨n, rfl⟩, small, rfl⟩
    exact dif_pos small

theorem whenQuadratic_isOk_iff (reads : (∃ n, read = .ok n) ↔ p.Numeric) :
    (∃ y, p.whenQuadratic read model = .ok y) ↔ p.degree ≤ 2 ∧ p.Numeric := by
  simp only [whenQuadratic_eq_ok_iff, reads]
  constructor
  · rintro ⟨y, numeric, small, -⟩
    exact ⟨small, numeric⟩
  · rintro ⟨small, numeric⟩
    exact ⟨_, numeric, small, rfl⟩

theorem whenQuadratic_degree_iff
    (symbols : ∀ failure, read = .error failure → ∃ s, failure = .unresolvedParameter s) {d : Nat} :
    p.whenQuadratic read model = .error (.degreeTooHigh d) ↔ 2 < p.degree ∧ d = p.degree := by
  by_cases small : p.degree ≤ 2
  · refine iff_of_false (fun failed => ?_) fun high => Nat.not_lt_of_le small high.1
    rw [whenQuadratic, dif_pos small] at failed
    obtain ⟨s, same⟩ := symbols _ (bind_pure_eq_error_iff.mp failed)
    cases same
  · have high : 2 < p.degree := Nat.lt_of_not_le small
    rw [whenQuadratic, dif_neg small]
    simp [high, eq_comm]

end Quadratic

end Poly

end PseudoBoolean
