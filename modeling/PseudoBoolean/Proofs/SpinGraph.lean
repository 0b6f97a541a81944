import PseudoBoolean.Proofs.Ising

set_option autoImplicit false

namespace PseudoBoolean

namespace Spin

theorem times_eq (s : Spin) (c : Rat) : s.times c = c * s.toInt := by
  cases s <;> simp [times, toInt]

theorem align_eq (s t : Spin) (c : Rat) :
    (if s = t then c else -c) = c * s.toInt * t.toInt := by
  cases s <;> cases t <;> simp [toInt]

@[simp]
theorem toInt_flip (s : Spin) : s.flip.toInt = -s.toInt := by
  cases s <;> rfl

@[simp]
theorem toBool_flip (s : Spin) : s.flip.toBool = !s.toBool := by
  cases s <;> rfl

end Spin

namespace Ising

structure Indexed (m : Ising) : Prop where
  field : ∀ e ∈ m.fields.entries, e.1 < m.size
  coupling : ∀ e ∈ m.couplings.entries, e.1.left < e.1.right ∧ e.1.right < m.size

theorem field_index {q : Qubo} {e : Nat × Rat} (inside : e ∈ (ofQubo q).fields.entries) :
    e.1 < q.size := by
  obtain ⟨f, listed, same⟩ := FormalSum.key_mem_ofList inside
  obtain ⟨t, term, found⟩ := List.mem_flatMap.mp listed
  have label : f.1 ∈ t.1 := by
    rw [← SortedSet.mem_toList]
    simp only [fieldsOf] at found
    split at found
    next i labels => simp_all
    next i j labels => rcases List.mem_pair.mp found with rfl | rfl <;> simp [labels]
    next => cases found
  exact same ▸ q.indexed t term f.1 label

theorem indexed_ofQubo (q : Qubo) : (ofQubo q).Indexed where
  field _ := field_index
  coupling _ := coupling_indices

end Ising

namespace SpinGraph

variable {m : Ising} {i : Nat} {s : Nat → Spin}

section Build

variable {A B E ε R : Type}

theorem foldlM_eq_ok {step : B → E → Except ε B} {g : B → E → B} {P : B → Prop} {l : List E}
    (each : ∀ b, P b → ∀ e ∈ l, step b e = .ok (g b e) ∧ P (g b e)) {b : B}
    (start : P b) : l.foldlM step b = .ok (l.foldl g b) := by
  induction l generalizing b with
  | nil => rfl
  | cons e l ih =>
    obtain ⟨taken, kept⟩ := each b start e List.mem_cons_self
    rw [List.foldlM_cons, taken]
    exact ih (fun b held e inside => each b held e (List.mem_cons_of_mem _ inside)) kept

theorem getElem?_foldl {g : Array A → E → Array A} {h : A → E → A} {l : List E} {j : Nat}
    (each : ∀ a, ∀ e ∈ l, (g a e)[j]? = a[j]?.map (h · e)) (a : Array A) :
    (l.foldl g a)[j]? = a[j]?.map fun x => l.foldl h x := by
  induction l generalizing a with
  | nil => simp
  | cons e l ih =>
    rw [List.foldl_cons, ih (fun a e inside => each a e (List.mem_cons_of_mem _ inside)),
      each a e List.mem_cons_self, Option.map_map]
    rfl

-- The keys differ, so one entry is written at most.
theorem foldl_set_eq {f : Rat → R} {l : List (Nat × Rat)} (increasing : IncreasingOn Prod.fst l)
    (j : Nat) (x : R) :
    l.foldl (fun x e => if e.1 = j then f e.2 else x) x =
      ((SortedMap.find j l).map f).getD x := by
  induction l generalizing x with
  | nil => rfl
  | cons e l ih =>
    obtain ⟨first, rest⟩ := increasing_cons.mp increasing
    rw [List.foldl_cons, ih rest]
    by_cases same : e.1 = j
    · have absent : SortedMap.find j l = none := by
        rw [Option.eq_none_iff_forall_ne_some]
        intro v found
        exact ne_of_before (first _ ((SortedMap.find_eq_some rest).mp found)) same
      simp [SortedMap.find, absent, same]
    · have apart : compare j e.1 ≠ .eq := fun level =>
        same (Std.LawfulEqOrd.eq_of_compare level).symm
      simp [SortedMap.find, same, apart]

def spread [OfNat R 0] (f : Rat → R) (m : Ising) : SpinGraph R where
  fields := (Array.range m.size).map fun i => ((m.fields.get? i).map f).getD 0
  neighbours := (Array.range m.size).map fun i =>
    (m.couplings.entries.filterMap (neighbour? i)).map fun e => (e.1, f e.2)

variable {f : Rat → R}

theorem setFields_eq_ok (indexed : m.Indexed) (x : R) :
    m.fields.entries.foldlM (setField fun r => .ok (f r)) (Array.replicate m.size x) =
      .ok ((Array.range m.size).map fun i => ((m.fields.get? i).map f).getD x) := by
  rw [foldlM_eq_ok (g := fun a e => a.modify e.1 fun _ => f e.2) (P := fun a => a.size = m.size)
    ?_ Array.size_replicate]
  · congr 1
    apply Array.ext_getElem?
    intro j
    rw [getElem?_foldl (h := fun x e => if e.1 = j then f e.2 else x)]
    · simp only [foldl_set_eq m.fields.increasing, Array.getElem?_replicate, Array.getElem?_map,
        Array.getElem?_range]
      split <;> rfl
    · intro a e _
      rw [Array.getElem?_modify]
      split <;> simp
  · intro a size e inside
    exact ⟨if_pos (size ▸ indexed.field e inside), by rw [Array.size_modify, size]⟩

theorem links_eq_ok (indexed : m.Indexed) :
    m.couplings.entries.foldlM (link fun r => .ok (f r)) (Array.replicate m.size []) =
      .ok ((Array.range m.size).map fun i =>
        (m.couplings.entries.filterMap (neighbour? i)).map fun e => (e.1, f e.2)) := by
  rw [foldlM_eq_ok
    (g := fun a e => (a.modify e.1.left (· ++ [(e.1.right, f e.2)])).modify e.1.right
      (· ++ [(e.1.left, f e.2)]))
    (P := fun a => a.size = m.size) ?_ Array.size_replicate]
  · congr 1
    apply Array.ext_getElem?
    intro j
    rw [getElem?_foldl
      (h := fun x e => x ++ ((neighbour? j e).map fun e => (e.1, f e.2)).toList)]
    · simp only [Array.getElem?_replicate, Array.getElem?_map, Array.getElem?_range]
      split
      · simp only [Option.map_some, ← List.flatMap_eq_foldl, ← List.filterMap_eq_flatMap_toList,
          List.map_filterMap]
      · rfl
    -- The ends differ, so each list gets the other end once.
    · intro a e inside
      have apart := (indexed.coupling e inside).1.ne
      rw [Array.getElem?_modify, Array.getElem?_modify, neighbour?]
      by_cases left : e.1.left = j
      · have right : e.1.right ≠ j := fun same => apart (left.trans same.symm)
        simp [left, right]
      · by_cases right : e.1.right = j <;> simp [left, right]
  · intro a size e inside
    obtain ⟨before, last⟩ := indexed.coupling e inside
    have left : e.1.left < a.size := by omega
    have right : e.1.right < (a.modify e.1.left (· ++ [(e.1.right, f e.2)])).size := by
      rw [Array.size_modify]
      omega
    refine ⟨?_, by rw [Array.size_modify, Array.size_modify, size]⟩
    simp only [link, bind, Except.bind, update]
    rw [if_pos left]
    exact if_pos right

theorem build_eq_ok [OfNat R 0] (indexed : m.Indexed) :
    build (fun r => .ok (f r)) m = .ok (spread f m) := by
  rw [build, setFields_eq_ok indexed, links_eq_ok indexed]
  rfl

theorem spread_id (m : Ising) : spread id m = ofIsing m := by
  simp [spread, ofIsing, Ising.field, FormalSum.coeffAt]

theorem build_ofQubo (q : Qubo) : build .ok (Ising.ofQubo q) = .ok (ofIsing (Ising.ofQubo q)) :=
  spread_id (Ising.ofQubo q) ▸ build_eq_ok (Ising.indexed_ofQubo q)

theorem size_spread [OfNat R 0] : (spread f m).size = m.size := by
  simp [spread, size]

end Build

theorem fields_ofIsing (inside : i < m.size) : (ofIsing m).fields.getD i 0 = m.field i := by
  simp [ofIsing, Array.getD, inside]

theorem neighbours_ofIsing (inside : i < m.size) :
    (ofIsing m).neighbours.getD i [] = m.couplings.entries.filterMap (neighbour? i) := by
  simp [ofIsing, Array.getD, inside]

theorem localField_eq (g : SpinGraph Rat) (s : Nat → Spin) (i : Nat) :
    g.localField s i =
      g.fields.getD i 0 +
        ((g.neighbours.getD i []).map fun e : Nat × Rat => e.2 * (s e.1).toInt).sum := by
  rw [localField, List.sum_eq_foldl, List.foldl_map]
  simp only [Spin.times_eq]

theorem flipDelta_eq (g : SpinGraph Rat) (s : Nat → Spin) (i : Nat) :
    g.flipDelta s i = -2 * (s i).toInt * g.localField s i := by
  rw [flipDelta, Spin.times_eq]
  ring

def flipAt (s : Nat → Spin) (i : Nat) : Nat → Spin :=
  Function.update s i (s i).flip

theorem flipAt_same : flipAt s i i = (s i).flip :=
  Function.update_self ..

theorem flipAt_other {j : Nat} (apart : j ≠ i) : flipAt s i j = s j :=
  Function.update_of_ne apart ..

theorem field_flipAt (e : Nat × Rat) :
    (flipAt s i e.1).times e.2 =
      (s e.1).times e.2 + -2 * (s i).toInt * FormalSum.pick i e.1 e.2 := by
  by_cases same : e.1 = i
  · simp only [same, flipAt_same, Spin.times_eq, Spin.toInt_flip, FormalSum.pick,
      Std.ReflOrd.compare_self, if_true, AddMonoidHom.id_apply]
    push_cast
    ring
  · simp [FormalSum.pick, flipAt_other same, Ne.symm same]

-- A coupling counts where the spin is one of its ends. With equal ends it would not change.
theorem coupling_flipAt {e : Pair Nat × Rat} (apart : e.1.left ≠ e.1.right) :
    (if flipAt s i e.1.left = flipAt s i e.1.right then e.2 else -e.2) =
      (if s e.1.left = s e.1.right then e.2 else -e.2) +
        -2 * (s i).toInt * (neighbour? i e).elim 0 fun f : Nat × Rat => f.2 * (s f.1).toInt := by
  simp only [Spin.align_eq]
  by_cases left : e.1.left = i
  · have right : e.1.right ≠ i := fun same => apart (left.trans same.symm)
    simp only [neighbour?, left, flipAt_same, flipAt_other right, Spin.toInt_flip, if_true,
      Option.elim_some]
    push_cast
    ring
  by_cases right : e.1.right = i
  · simp only [neighbour?, left, right, flipAt_same, flipAt_other left, Spin.toInt_flip, if_true,
      if_false, Option.elim_some]
    push_cast
    ring
  · simp [neighbour?, left, right, flipAt_other left, flipAt_other right]

theorem energy_flipAt (apart : ∀ e ∈ m.couplings.entries, e.1.left ≠ e.1.right)
    (inside : i < m.size) : m.energy (flipAt s i) = m.energy s + (ofIsing m).flipDelta s i := by
  have fields : (m.fields.entries.map fun e => (flipAt s i e.1).times e.2).sum =
      (m.fields.entries.map fun e => (s e.1).times e.2).sum + -2 * (s i).toInt * m.field i := by
    simp only [field_flipAt]
    rw [List.sum_map_add, List.sum_map_mul_left]
    rw [Ising.field, FormalSum.coeffAt_eq_fold, FormalSum.fold]
  have couplings := congrArg List.sum (List.map_congr_left fun e listed =>
    coupling_flipAt (s := s) (i := i) (apart e listed))
  rw [List.sum_map_add, List.sum_map_mul_left, ← sum_map_filterMap,
    ← neighbours_ofIsing inside] at couplings
  simp only [Ising.energy, sumOf]
  rw [fields, couplings, flipDelta_eq, localField_eq,
    fields_ofIsing inside]
  ring

theorem flipAt_modify {spins : List Spin} (inside : i < spins.length) :
    (fun j => (spins.modify i Spin.flip).getD j .down) =
      flipAt (fun j => spins.getD j .down) i := by
  funext j
  by_cases same : j = i
  · subst same
    simp [flipAt_same, List.getD_eq_getElem?_getD, inside]
  · rw [flipAt_other same, List.getD_eq_getElem?_getD, List.getElem?_modify_ne _ _ (Ne.symm same),
      ← List.getD_eq_getElem?_getD]

theorem map_modify {A B : Type} {f : A → B} {g : A → A} {h : B → B}
    (commute : ∀ x, f (g x) = h (f x)) (l : List A) (i : Nat) :
    (l.modify i g).map f = (l.map f).modify i h := by
  apply List.ext_getElem?
  intro j
  rw [List.getElem?_map, List.getElem?_modify, List.getElem?_modify, List.getElem?_map]
  cases l[j]? with
  | none => rfl
  | some x => by_cases same : i = j <;> simp [same, commute]

theorem value_toBool {q : Qubo} {spins : List Spin} (fits : spins.length = q.size) :
    q.value (spins.map Spin.toBool) =
      .ok ((Ising.ofQubo q).energy fun j => spins.getD j .down) := by
  have each (j : Nat) :
      spins.getD j .down = Spin.ofBool ((spins.map Spin.toBool).getD j false) := by
    rw [← Spin.ofBool_toBool (spins.getD j .down)]
    exact congrArg Spin.ofBool (List.getD_map (l := spins) (d := .down) Spin.toBool).symm
  simp only [each, Ising.energy_ofQubo]
  exact if_pos (by rwa [List.length_map])

/-- The loops over fields and couplings give the adjacency form, off which the change is read. -/
theorem flipDelta_exact {q : Qubo} {spins : List Spin} {i : Nat} (fits : spins.length = q.size)
    (inside : i < q.size) :
    let m := Ising.ofQubo q
    let g := ofIsing m
    let s := fun j => spins.getD j .down
    let values := spins.map Spin.toInt
    let bits := spins.map Spin.toBool
    build .ok m = .ok g ∧
      g.flipDelta s i = -2 * (s i).toInt *
        (g.fields.getD i 0 +
          ((g.neighbours.getD i []).map fun e : Nat × Rat => e.2 * (s e.1).toInt).sum) ∧
      (∃ before after, m.value values = .ok before ∧
        m.value (values.modify i Neg.neg) = .ok after ∧ g.flipDelta s i = after - before) ∧
      ∃ before after, q.value bits = .ok before ∧ q.value (bits.modify i not) = .ok after ∧
        g.flipDelta s i = after - before := by
  intro m g s values bits
  have fits' : (spins.modify i Spin.flip).length = q.size := by rwa [List.length_modify]
  have turned : values.modify i Neg.neg = (spins.modify i Spin.flip).map Spin.toInt :=
    (map_modify Spin.toInt_flip spins i).symm
  have switched : bits.modify i not = (spins.modify i Spin.flip).map Spin.toBool :=
    (map_modify Spin.toBool_flip spins i).symm
  have change : g.flipDelta s i = m.energy (flipAt s i) - m.energy s := by
    rw [energy_flipAt (fun e listed => (Ising.coupling_indices listed).1.ne) inside]
    exact (add_sub_cancel_left _ _).symm
  have moved := flipAt_modify (fits ▸ inside)
  refine ⟨build_ofQubo q, by rw [flipDelta_eq, localField_eq],
    ⟨_, _, Ising.value_toInt fits, ?_, change⟩, ⟨_, _, value_toBool fits, ?_, change⟩⟩
  · rw [turned, Ising.value_toInt fits', moved]
  · rw [switched, value_toBool fits', moved]

-- The middle spin of three in a row has two neighbours. Turning it up costs `1`.
theorem flipDelta_exact_middle :
    let p := Poly.label (.index 0) * Poly.label (.index 1) +
      Poly.label (.index 1) * Poly.label (.index 2) - Poly.label (.index 1)
    ∃ q, p.toQubo Quadratization.Options.standard = .ok q ∧
      [Spin.up, .down, .up].length = q.size ∧ 1 < q.size ∧
      (ofIsing (Ising.ofQubo q)).flipDelta (fun j => [Spin.up, .down, .up].getD j .down) 1 = 1 ∧
      ∃ before after, q.value [true, false, true] = .ok before ∧
        q.value [true, true, true] = .ok after ∧ 1 = after - before := by
  intro p
  have numeric : p.Numeric := by decide +kernel
  let q := p.constantParts.toQubo Quadratization.Options.standard ∅
  have built : p.toQubo Quadratization.Options.standard = .ok q := by
    rw [Poly.toQubo, Poly.numbers_eq_ok numeric]
    rfl
  have fits : [Spin.up, .down, .up].length = q.size := by decide +kernel
  have inside : 1 < q.size := by decide +kernel
  have change : (ofIsing (Ising.ofQubo q)).flipDelta
      (fun j => [Spin.up, .down, .up].getD j .down) 1 = 1 := by decide +kernel
  obtain ⟨before, after, first, second, exact⟩ := (flipDelta_exact fits inside).2.2.2
  exact ⟨q, built, fits, inside, change, before, after, first, second, change.symm.trans exact⟩

end SpinGraph

end PseudoBoolean
