import PseudoBoolean.Proofs.Qubo.RoundTrip
import PseudoBoolean.Proofs.Random
import PseudoBoolean.Proofs.Sampler
import PseudoBoolean.Proofs.SpinGraph

set_option autoImplicit false

namespace PseudoBoolean

open Walk

def Sample.Earliest (s : Sample) (l : List Sample) : Prop :=
  ∃ before after, l = before ++ s :: after ∧ (∀ t ∈ before, s.energy < t.energy) ∧
    ∀ t ∈ after, s.energy ≤ t.energy

namespace Sample

def ahead (s t : Sample) : Prop :=
  s.energy < t.energy

instance : DecidableRel ahead := fun s t => inferInstanceAs (Decidable (s.energy < t.energy))

theorem strictlyAhead : StrictlyAhead ahead where
  asymm := lt_asymm
  carry below level := below.trans_le (not_lt.mp level)

namespace Earliest

variable {s t : Sample} {l : List Sample}

theorem iff_foremost : Earliest s l ↔ Foremost ahead s l := by
  simp only [Earliest, Foremost, ahead, not_lt]

theorem mem (earliest : Earliest s l) : s ∈ l :=
  (iff_foremost.mp earliest).mem

theorem le (earliest : Earliest s l) (inside : t ∈ l) : s.energy ≤ t.energy := by
  have unbeaten := (iff_foremost.mp earliest).not_ahead strictlyAhead inside
  exact not_lt.mp unbeaten

end Earliest

end Sample

namespace Annealing

open Sample

theorem offer_some (old new : Sample) : offer (some old) new = some (keep ahead old new) := by
  simp only [offer, Option.all_some, decide_eq_true_eq]
  exact (apply_ite some (new.energy < old.energy) new old).symm

theorem foldl_offer (l : List Sample) : l.foldl offer none = foremost ahead l := by
  cases l with
  | nil => rfl
  | cons s l => exact List.foldl_hom some fun old new => offer_some old new

variable {G : Type} (c : Annealing) (dice : Dice G) (round : Rat → Option Float) (q : Qubo)
  (g : SpinGraph Float)

section Walk

variable {dice}

-- A proposal turns over one spin of the model at most.
theorem propose_step (bounded : dice.Bounded) (positive : 0 < g.size) (temperature : Float)
    (spins : Array Spin) :
    Yields (fun t => t = spins ∨ ∃ i < g.size, t = spins.modify i Spin.flip)
      (propose dice g temperature spins) := by
  refine (yields_lift (bounded _ positive)).bind fun i inside => ?_
  rw [if_pos inside]
  refine (yields_lift always_true).bind fun accepted _ => yields_pure ?_
  cases accepted with
  | true => exact .inr ⟨i, inside, rfl⟩
  | false => exact .inl rfl

theorem size_propose (bounded : dice.Bounded) (positive : 0 < g.size) (temperature : Float)
    (spins : Array Spin) :
    Yields (fun t => t.size = spins.size) (propose dice g temperature spins) := by
  refine (propose_step g bounded positive temperature spins).mono ?_
  rintro t (rfl | ⟨i, -, rfl⟩)
  · rfl
  · exact Array.size_modify

-- Without spins there is nothing to propose.
theorem size_proposals (bounded : dice.Bounded) (temperature : Float) {count : Nat}
    (few : count ≤ g.size) (spins : Array Spin) :
    Yields (fun t => t.size = spins.size) (proposals dice g temperature count spins) := by
  induction count generalizing spins with
  | zero => exact yields_pure rfl
  | succ count ih =>
    refine (size_propose g bounded (by omega) temperature spins).bind fun t same => ?_
    exact same ▸ ih (by omega) t

theorem size_sweepsFrom (bounded : dice.Bounded) (sweep left : Nat) (spins : Array Spin) :
    Yields (fun t => t.size = spins.size) (c.sweepsFrom dice g sweep left spins) := by
  induction left generalizing sweep spins with
  | zero => exact yields_pure rfl
  | succ left ih =>
    refine (size_proposals g bounded _ le_rfl spins).bind fun t same => ?_
    exact same ▸ ih (sweep + 1) t

theorem length_initial (n : Nat) : Always (fun l => l.length = n) (initial dice n) := by
  induction n with
  | zero => exact always_pure rfl
  | succ n ih =>
    refine always_true.bind fun s _ => ih.bind fun l same => always_pure ?_
    rw [List.length_cons, same]

theorem size_walk (bounded : dice.Bounded) :
    Yields (fun t => t.size = g.size) (c.walk dice g) := by
  refine (yields_lift (length_initial g.size)).bind fun l same => ?_
  have walked := c.size_sweepsFrom g bounded 0 c.sweeps l.toArray
  rwa [List.size_toArray, same] at walked

variable {g}

theorem exact_read (bounded : dice.Bounded) (size : g.size = q.size) :
    Yields (Sample.Exact q) (c.read dice q g) := by
  refine (c.size_walk g bounded).bind fun spins same => ?_
  have length : (spins.toList.map Spin.toBool).length = q.size := by
    rw [List.length_map, Array.length_toList, same, size]
  have value : q.value (spins.toList.map Spin.toBool) = .ok _ := if_pos length
  dsimp only
  rw [value]
  exact yields_pure ⟨length, _, value, rfl⟩

end Walk

section Reads

def reads : Nat → Walk G (List Sample)
  | 0 => return []
  | n + 1 => do
    let s ← c.read dice q g
    return s :: (← reads n)

variable {dice g} in
theorem reads_spec (bounded : dice.Bounded) (size : g.size = q.size) (n : Nat) :
    Yields (fun l => l.length = n ∧ ∀ s ∈ l, Sample.Exact q s) (c.reads dice q g n) := by
  induction n with
  | zero => exact yields_pure (by simp)
  | succ n ih =>
    refine (c.exact_read q bounded size).bind fun s exact => ih.bind fun l rest => yields_pure ?_
    exact ⟨congrArg Nat.succ rest.1, List.forall_mem_cons.mpr ⟨exact, rest.2⟩⟩

theorem reads_add (k extra : Nat) :
    c.reads dice q g (k + extra) = do
      let l ← c.reads dice q g k
      return l ++ (← c.reads dice q g extra) := by
  induction k with
  | zero => simp [reads]
  | succ k ih => simp [reads, Nat.succ_add, ih]

theorem readsFrom_eq (left : Nat) (best : Option Sample) :
    c.readsFrom dice q g left best = do
      return (← c.reads dice q g left).foldl offer best := by
  induction left generalizing best with
  | zero => simp [readsFrom, reads]
  | succ left ih => simp [readsFrom, reads, ih]

variable {c dice round q g} {k n : Nat} {state next : G} {l : List Sample}

theorem reads_run_add {extra : Nat} {more : List Sample} {after : G}
    (first : (c.reads dice q g k).run.run state = (.ok l, next))
    (rest : (c.reads dice q g extra).run.run next = (.ok more, after)) :
    (c.reads dice q g (k + extra)).run.run state = (.ok (l ++ more), after) := by
  rw [reads_add, run_bind_eq first, run_bind_eq rest]
  rfl

-- At least one read is made, and all are compared with the best in turn.
theorem sample_run (built : SpinGraph.build (toDouble round) (Ising.ofQubo q) = .ok g)
    (run : (c.reads dice q g (max 1 n)).run.run state = (.ok l, next)) (some : l ≠ []) :
    ∃ s, (c.sampler dice round).sample q n state = (.ok s, next) ∧ s.Earliest l := by
  have answered : foremost ahead l ≠ none := mt foremost_eq_none.mp some
  obtain ⟨s, found⟩ := Option.ne_none_iff_exists'.mp answered
  refine ⟨s, ?_, Sample.Earliest.iff_foremost.mpr (foremost_spec strictlyAhead found)⟩
  rw [← foldl_offer] at found
  have kept : (c.readsFrom dice q g (max 1 n) none).run.run state = (.ok (.some s), next) := by
    rw [readsFrom_eq, run_bind_eq run, found]
    rfl
  change (c.best dice round q n).run.run state = _
  rw [best, built]
  change ((c.readsFrom dice q g (max 1 n) none) >>= _).run.run state = _
  rw [run_bind_eq kept]
  rfl

end Reads

theorem solution_eq_ok {s : Sample} (exact : s.Exact q) :
    ∃ a, q.solution s = .ok ⟨s.energy + q.offset, a⟩ ∧
      q.toPoly.toPoly.value a = .ok (s.energy + q.offset) := by
  refine ⟨_, exact.solution_eq, ?_⟩
  rw [← exact.value_eq, Qubo.value_toPoly q exact.length]
  exact (if_pos exact.length).symm

theorem build_eq_ok {round : Rat → Option Float} (rounds : ∀ r, (round r).isSome) :
    ∃ g, SpinGraph.build (toDouble round) (Ising.ofQubo q) = .ok g ∧ g.size = q.size := by
  have converted : toDouble round = fun r => .ok ((round r).get (rounds r)) := by
    funext r
    obtain ⟨x, found⟩ := Option.isSome_iff_exists.mp (rounds r)
    simp [toDouble, found]
  rw [converted]
  exact ⟨_, SpinGraph.build_eq_ok (Ising.indexed_ofQubo q), SpinGraph.size_spread⟩

/-- The sample is the first of the best reads, as long as an index drawn below a bound is below it
and every coefficient can be rounded. -/
theorem sample_exact {G : Type} (dice : Dice G) (round : Rat → Option Float)
    (bounded : dice.Bounded) (rounds : ∀ r, (round r).isSome) (n extra : Nat) (state : G) :
    let sampler := c.sampler dice round
    ∃ g l next, SpinGraph.build (toDouble round) (Ising.ofQubo q) = .ok g ∧
      (c.reads dice q g (max 1 n)).run.run state = (.ok l, next) ∧
      (l.length = max 1 n ∧ ∀ t ∈ l, t.Exact q) ∧
      ∃ s, sampler.sample q n state = (.ok s, next) ∧ s.Exact q ∧ s.Earliest l ∧
        (∃ t later, sampler.sample q (n + extra) state = (.ok t, later) ∧
          t.energy ≤ s.energy) ∧
        ∃ solution, q.solveWith sampler n state = (.ok solution, next) ∧
          solution.value = s.energy + q.offset ∧
          q.toPoly.toPoly.value solution.assignment = .ok solution.value := by
  intro sampler
  obtain ⟨g, built, size⟩ := build_eq_ok q rounds
  obtain ⟨l, next, run, length, each⟩ := (c.reads_spec q bounded size (max 1 n)).run_eq state
  obtain ⟨more, later, rest, -⟩ :=
    (c.reads_spec q bounded size (max 1 (n + extra) - max 1 n)).run_eq next
  have longer := reads_run_add run rest
  rw [show max 1 n + (max 1 (n + extra) - max 1 n) = max 1 (n + extra) by omega] at longer
  have some : l ≠ [] := List.ne_nil_of_length_pos (by omega)
  obtain ⟨s, sampled, earliest⟩ := sample_run built run some
  obtain ⟨t, resampled, least⟩ := sample_run built longer (by simp [some])
  have exact : s.Exact q := each s earliest.mem
  obtain ⟨a, solved, value⟩ := solution_eq_ok q exact
  refine ⟨g, l, next, built, run, ⟨length, each⟩, s, sampled, exact, earliest,
    ⟨t, later, resampled, least.le (List.mem_append_left more earliest.mem)⟩, ⟨_, a⟩, ?_, rfl,
    value⟩
  rw [Qubo.solveWith, sampled]
  exact congrArg (Prod.mk · next) solved

-- Three spins of which no choice pleases all couplings, with the ChaCha stream from a seed.
theorem sample_exact_frustrated :
    let a := Poly.label (.name "a")
    let b := Poly.label (.name "b")
    let c := Poly.label (.name "c")
    let p := 1 - Poly.number 2 * a - Poly.number 2 * c + Poly.number 2 * a * b +
      Poly.number 2 * b * c
    Generator.dice.Bounded ∧ (∀ r, (Binary64.nearest? r).isSome) ∧
      ∃ q, p.toQubo Quadratization.Options.standard = .ok q ∧
        ∃ s next, (standard.sampler Generator.dice Binary64.nearest?).sample q 10
            (Generator.ofSeed 42) = (.ok s, next) ∧ s.Exact q ∧ s.bits.length = 3 := by
  intro a b c p
  have numeric : p.Numeric := by decide +kernel
  let q := p.constantParts.toQubo Quadratization.Options.standard ∅
  have built : p.toQubo Quadratization.Options.standard = .ok q := by
    rw [Poly.toQubo, Poly.numbers_eq_ok numeric]
    rfl
  have size : q.size = 3 := by decide +kernel
  have rounds (r : Rat) : (Binary64.nearest? r).isSome := rfl
  obtain ⟨g, l, next, -, -, -, s, sampled, exact, -⟩ := standard.sample_exact q Generator.dice
    Binary64.nearest? Generator.bounded_dice rounds 10 0 (Generator.ofSeed 42)
  exact ⟨Generator.bounded_dice, rounds, q, built, s, next, sampled, exact,
    exact.length.trans size⟩

end Annealing

end PseudoBoolean
