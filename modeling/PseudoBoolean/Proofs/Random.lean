import PseudoBoolean.Generator

set_option autoImplicit false

namespace PseudoBoolean

variable {G A B : Type} {P : A → Prop} {Q : B → Prop}

def Always (P : A → Prop) (x : StateM G A) : Prop :=
  ∀ state, P (x.run state).1

variable {x y : StateM G A} {f : A → StateM G B} {a : A}

theorem always_pure (holds : P a) : Always P (pure a : StateM G A) :=
  fun _ => holds

theorem always_true : Always (fun _ => True) x :=
  fun _ => trivial

theorem Always.bind (first : Always P x) (rest : ∀ a, P a → Always Q (f a)) :
    Always Q (x >>= f) :=
  fun state => rest _ (first state) _

theorem Always.map {g : A → B} (first : Always (fun a => Q (g a)) x) : Always Q (g <$> x) :=
  fun state => first state

theorem always_ite {c : Prop} [Decidable c] (yes : c → Always P x) (no : ¬c → Always P y) :
    Always P (if c then x else y) := by
  split
  next held => exact yes held
  next failed => exact no failed

def Dice.Bounded (dice : Dice G) : Prop :=
  ∀ n, 0 < n → Always (· < n) (dice.below n)

namespace Walk

def Yields (P : A → Prop) (x : Walk G A) : Prop :=
  Always (fun found => ∃ a, found = .ok a ∧ P a) x.run

variable {x : Walk G A} {f : A → Walk G B} {a : A}

theorem yields_pure (holds : P a) : Yields P (pure a : Walk G A) :=
  fun _ => ⟨a, rfl, holds⟩

theorem yields_lift {x : StateM G A} (always : Always P x) : Yields P (liftM x : Walk G A) :=
  fun state => ⟨_, rfl, always state⟩

theorem Yields.bind (first : Yields P x) (rest : ∀ a, P a → Yields Q (f a)) :
    Yields Q (x >>= f) := by
  refine Always.bind (f := ExceptT.bindCont f) first ?_
  rintro _ ⟨a, rfl, holds⟩
  exact rest a holds

theorem Yields.mono {Q : A → Prop} (yields : Yields P x) (weaker : ∀ a, P a → Q a) : Yields Q x :=
  fun state => (yields state).imp fun a found => ⟨found.1, weaker a found.2⟩

theorem Yields.run_eq (yields : Yields P x) (state : G) :
    ∃ a after, x.run.run state = (.ok a, after) ∧ P a := by
  obtain ⟨a, found, holds⟩ := yields state
  exact ⟨a, _, Prod.ext found rfl, holds⟩

theorem run_bind_eq {state after : G} (first : x.run.run state = (.ok a, after)) :
    (x >>= f).run.run state = (f a).run.run after := by
  rw [ExceptT.run_bind, StateT.run_bind, first]
  rfl

end Walk

namespace Generator

-- The carry does not reach `n`, since both words are below the size.
theorem carried_lt {size n w v : Nat} (first : w < size) (second : v < size)
    (carry : size ≤ w * n % size + v * n / size) : w * n / size + 1 < n := by
  have positive : 0 < n := by
    rcases Nat.eq_zero_or_pos n with rfl | positive
    · simp at carry
      omega
    · exact positive
  have more : v * n / size < n :=
    Nat.div_lt_of_lt_mul (Nat.mul_lt_mul_of_pos_right second positive)
  have split := Nat.div_add_mod (w * n) size
  have product : (w + 1) * n ≤ size * n := Nat.mul_le_mul_right n first
  rw [Nat.add_mul, Nat.one_mul] at product
  apply Nat.lt_of_mul_lt_mul_left (a := size)
  rw [Nat.mul_add]
  omega

theorem scaled_lt {size n : Nat} {draw : StateM Generator Nat} (positive : 0 < n)
    (words : Always (· < size) draw) : Always (· < n) (scaled size draw n) := by
  refine words.bind fun w first => ?_
  have high : w * n / size < n :=
    Nat.div_lt_of_lt_mul (Nat.mul_lt_mul_of_pos_right first positive)
  refine always_ite (fun _ => words.bind fun v second => always_pure ?_) fun _ => always_pure high
  split
  next carry => exact carried_lt first second carry
  next => exact high

theorem bounded_dice : dice.Bounded := fun _ positive =>
  always_ite (fun _ => scaled_lt positive (Always.map fun _ => UInt32.toNat_lt _))
    fun _ => scaled_lt positive (Always.map fun _ => UInt64.toNat_lt _)

end Generator

end PseudoBoolean
