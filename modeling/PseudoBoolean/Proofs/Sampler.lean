import PseudoBoolean.Proofs.Landscape.Exhaustive
import PseudoBoolean.Sampler

set_option autoImplicit false

namespace PseudoBoolean

structure Sample.Exact (q : Qubo) (s : Sample) : Prop where
  length : s.bits.length = q.size
  value : ∃ v, q.value s.bits = .ok v ∧ s.energy = v - q.offset

variable {q : Qubo} {s : Sample} {limit : Nat} {best : Solution} {failure : Failure}

theorem Sample.Exact.value_eq (exact : s.Exact q) : q.value s.bits = .ok (s.energy + q.offset) := by
  obtain ⟨v, value, energy⟩ := exact.value
  rw [value, energy, sub_add_cancel]

theorem Sample.Exact.solution_eq (exact : s.Exact q) :
    q.solution s = .ok ⟨s.energy + q.offset, q.indexing.assign s.bits⟩ := by
  have assigned : q.assignment s.bits = .ok (q.indexing.assign s.bits) := if_pos exact.length
  rw [Qubo.solution, assigned]
  rfl

namespace Sampler

theorem exhaustive_refuses (reads : Nat) (refused : q.landscape.solve limit = .error failure) :
    (exhaustive limit).sample q reads () = (.error failure, ()) := by
  simp only [exhaustive, refused]
  rfl

theorem exhaustive_answers (reads : Nat) (solved : q.landscape.solve limit = .ok best) :
    ∃ s, (exhaustive limit).sample q reads () = (.ok s, ()) ∧ s.Exact q ∧
      q.solution s = .ok best := by
  obtain ⟨mask, small, rfl⟩ := Landscape.solve_eq_ok solved
  have fits : (q.indexing.bits mask).length = q.size := q.indexing.length_bits mask
  have exact : Sample.Exact q ⟨q.indexing.bits mask, q.landscape.energy mask - q.offset⟩ :=
    ⟨fits, _, q.value_bits small, rfl⟩
  have bits : q.indexing.toBits (q.landscape.indexing.ofMask mask) = .ok (q.indexing.bits mask) :=
    q.indexing.toBits_ofMask mask
  refine ⟨_, ?_, exact, ?_⟩
  · simp only [exhaustive, solved, bits, bind, Except.bind]
    rfl
  · rw [exact.solution_eq, sub_add_cancel]
    rfl

end Sampler

theorem Qubo.solveWith_exhaustive (q : Qubo) (limit reads : Nat) :
    let sampler := Sampler.exhaustive limit
    q.solveWith sampler reads () = (q.landscape.solve limit, ()) ∧
      (∀ best, q.landscape.solve limit = .ok best →
        ∃ s, sampler.sample q reads () = (.ok s, ()) ∧ s.Exact q ∧ q.solution s = .ok best) ∧
      ∀ failure, q.landscape.solve limit = .error failure →
        sampler.sample q reads () = (.error failure, ()) := by
  intro sampler
  refine ⟨?_, fun _ => Sampler.exhaustive_answers reads,
    fun _ => Sampler.exhaustive_refuses reads⟩
  cases solved : q.landscape.solve limit with
  | ok best =>
    obtain ⟨s, sampled, -, solution⟩ := Sampler.exhaustive_answers reads solved
    rw [solveWith, sampled]
    exact congrArg (Prod.mk · ()) solution
  | error failure =>
    rw [solveWith, Sampler.exhaustive_refuses reads solved]
    rfl

end PseudoBoolean
