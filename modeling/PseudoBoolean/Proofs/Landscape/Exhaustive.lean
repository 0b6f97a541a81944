import PseudoBoolean.Proofs.Indexing.Conversion
import PseudoBoolean.Proofs.Ising
import PseudoBoolean.Proofs.Qubo

set_option autoImplicit false

namespace PseudoBoolean

structure Solutions.Exhaustive (x : Indexing) (value : Assignment → Except Failure Rat)
    (s : Solutions) : Prop where
  least : ∀ a : Assignment, a.keys = x.labels → ∃ v, value a = .ok v ∧ s.value ≤ v
  exact : ∀ a, a ∈ s.assignments ↔ a.keys = x.labels ∧ value a = .ok s.value
  ordered : s.assignments.Pairwise fun a b => x.maskOf a.truth < x.maskOf b.truth

namespace Landscape

structure Searches (x : Indexing) (value : Assignment → Except Failure Rat) (limit : Nat)
    (l : Except Failure Landscape) : Prop where
  refused : limit < x.size ∨ 64 ≤ x.size →
    l.bind (·.solveAll limit) = .error (.tooManyVariables x.size limit) ∧
      l.bind (·.solve limit) = .error (.tooManyVariables x.size limit) ∧
      l.bind (·.countMinimizers limit) = .error (.tooManyVariables x.size limit)
  answered : ¬(limit < x.size ∨ 64 ≤ x.size) →
    ∃ q first rest, Solutions.Exhaustive x value ⟨q, first :: rest⟩ ∧
      l.bind (·.solveAll limit) = .ok ⟨q, first :: rest⟩ ∧
      l.bind (·.solve limit) = .ok ⟨q, first⟩ ∧
      l.bind (·.countMinimizers limit) = .ok (first :: rest).length

def Evaluates (l : Landscape) (value : Assignment → Except Failure Rat) : Prop :=
  ∀ mask < 2 ^ l.indexing.size, value (l.indexing.ofMask mask) = .ok (l.energy mask)

variable {l : Landscape} {value : Assignment → Except Failure Rat} {q : Rat}

theorem Evaluates.exists_mask (evaluates : l.Evaluates value) {a : Assignment}
    (keys : a.keys = l.indexing.labels) :
    ∃ mask < 2 ^ l.indexing.size, l.indexing.ofMask mask = a ∧ value a = .ok (l.energy mask) := by
  have same : l.indexing.ofMask (l.indexing.maskOf a.truth) = a := by
    rw [Indexing.ofMask_maskOf, ← keys, Assignment.ofTruth_truth]
  have small := l.indexing.maskOf_lt a.truth
  refine ⟨_, small, same, ?_⟩
  rw [← evaluates _ small, same]

theorem Evaluates.exhaustive (evaluates : l.Evaluates value) (minimum : l.IsMinimum q) :
    Solutions.Exhaustive l.indexing value ⟨q, l.level q⟩ where
  least a keys := by
    obtain ⟨mask, small, -, known⟩ := evaluates.exists_mask keys
    exact ⟨_, known, minimum.2 ⟨mask, small, rfl⟩⟩
  exact a := by
    simp only [level, List.mem_map, Minimum.mem_level]
    constructor
    · rintro ⟨mask, ⟨small, reached⟩, rfl⟩
      refine ⟨?_, reached ▸ evaluates mask small⟩
      rw [Indexing.ofMask_eq, Assignment.keys_ofTruth]
    · rintro ⟨keys, reached⟩
      obtain ⟨mask, small, same, known⟩ := evaluates.exists_mask keys
      exact ⟨mask, ⟨small, Except.ok.inj (known.symm.trans reached)⟩, same⟩
  ordered := by
    refine List.pairwise_map.mpr ?_
    refine (Minimum.pairwise_level l.energy q _).imp_of_mem ?_
    intro mask other found foundOther before
    rwa [Indexing.maskOf_ofMask (Minimum.mem_level.mp found).1,
      Indexing.maskOf_ofMask (Minimum.mem_level.mp foundOther).1]

theorem Evaluates.searches (evaluates : l.Evaluates value) (limit : Nat) :
    Searches l.indexing value limit (.ok l) where
  refused blocked := l.refuses blocked
  answered allowed := by
    obtain ⟨q, first, rest, minimum, listed, answers⟩ := l.answers allowed
    exact ⟨q, first, rest, listed ▸ evaluates.exhaustive minimum, answers⟩

theorem Represents.evaluates {f : (Label → Bool) → Rat} (represents : l.Represents f)
    (known : ∀ a : Assignment, a.keys = l.indexing.labels → value a = .ok (f a.truth)) :
    l.Evaluates value := by
  intro mask _
  have keys : (l.indexing.ofMask mask).keys = l.indexing.labels := by
    rw [Indexing.ofMask_eq, Assignment.keys_ofTruth]
  rw [known _ keys, represents.energy_ofMask]

theorem Evaluates.of_bits (onBits : List Bool → Except Failure Rat)
    (known : ∀ mask < 2 ^ l.indexing.size, onBits (l.indexing.bits mask) = .ok (l.energy mask)) :
    l.Evaluates fun a => l.indexing.toBits a >>= onBits := by
  intro mask small
  simp only [Indexing.toBits_ofMask]
  exact known mask small

end Landscape

def Qubo.valueUnder (q : Qubo) (a : Assignment) : Except Failure Rat := do
  q.value (← q.indexing.toBits a)

theorem Qubo.value_bits (q : Qubo) {mask : Nat} (small : mask < 2 ^ q.indexing.size) :
    q.value (q.indexing.bits mask) = .ok (q.landscape.energy mask) := by
  have fits : (q.indexing.bits mask).length = q.size := q.indexing.length_bits mask
  rw [value, if_pos fits, funext (Indexing.getD_bits small)]
  rfl

theorem Qubo.evaluates (q : Qubo) : q.landscape.Evaluates q.valueUnder :=
  Landscape.Evaluates.of_bits q.value fun _ => q.value_bits

def Ising.valueUnder (m : Ising) (a : Assignment) : Except Failure Rat := do
  m.value ((← m.indexing.toBits a).map fun b => (Spin.ofBool b).toInt)

theorem Ising.value_bits (m : Ising) {mask : Nat} (small : mask < 2 ^ m.indexing.size) :
    m.value ((m.indexing.bits mask).map fun b => (Spin.ofBool b).toInt) =
      .ok (m.landscape.energy mask) := by
  rw [Ising.value_eq_ok (m.indexing.length_bits mask)]
  simp only [Indexing.getD_bits small]
  rfl

theorem Ising.evaluates (m : Ising) : m.landscape.Evaluates m.valueUnder :=
  Landscape.Evaluates.of_bits (fun bits => m.value (bits.map fun b => (Spin.ofBool b).toInt))
    fun _ => m.value_bits

end PseudoBoolean
