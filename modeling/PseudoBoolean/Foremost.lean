set_option autoImplicit false

namespace PseudoBoolean

variable {E : Type}

structure StrictlyAhead (ahead : E → E → Prop) : Prop where
  asymm : ∀ {a b}, ahead a b → ¬ ahead b a
  carry : ∀ {a b c}, ahead a b → ¬ ahead c b → ahead a c

def Foremost (ahead : E → E → Prop) (m : E) (l : List E) : Prop :=
  ∃ before after, l = before ++ m :: after ∧ (∀ e ∈ before, ahead m e) ∧ ∀ e ∈ after, ¬ ahead e m

namespace Foremost

variable {ahead : E → E → Prop} {m e : E} {l : List E}

theorem mem (first : Foremost ahead m l) : m ∈ l := by
  obtain ⟨before, after, rfl, -, -⟩ := first
  exact List.mem_append_right before List.mem_cons_self

theorem single (ahead : E → E → Prop) (m : E) : Foremost ahead m [m] :=
  ⟨[], [], rfl, by simp, by simp⟩

theorem not_ahead (strict : StrictlyAhead ahead) (first : Foremost ahead m l) (inside : e ∈ l) :
    ¬ ahead e m := by
  obtain ⟨before, after, rfl, above, level⟩ := first
  rcases List.mem_append.mp inside with earlier | rest
  · exact strict.asymm (above e earlier)
  · rcases List.mem_cons.mp rest with rfl | later
    · exact fun self => strict.asymm self self
    · exact level e later

end Foremost

section Loop

variable (ahead : E → E → Prop) [DecidableRel ahead]

def keep (old new : E) : E :=
  if ahead new old then new else old

def foremost : List E → Option E
  | [] => none
  | e :: l => some (l.foldl (keep ahead) e)

variable {ahead} {m : E} {l : List E}

-- An element that is ahead of the kept one is ahead of all before it.
theorem Foremost.keep (strict : StrictlyAhead ahead) (first : Foremost ahead m l) (e : E) :
    Foremost ahead (keep ahead m e) (l ++ [e]) := by
  rw [PseudoBoolean.keep]
  split
  next passed =>
    refine ⟨l, [], rfl, fun a inside => ?_, by simp⟩
    exact strict.carry passed (first.not_ahead strict inside)
  next behind =>
    obtain ⟨before, after, rfl, above, level⟩ := first
    refine ⟨before, after ++ [e], by simp, above, ?_⟩
    intro a inside
    rcases List.mem_append.mp inside with old | new
    · exact level a old
    · rwa [List.mem_singleton.mp new]

theorem Foremost.foldl_keep (strict : StrictlyAhead ahead) (first : Foremost ahead m l)
    (k : List E) : Foremost ahead (k.foldl (PseudoBoolean.keep ahead) m) (l ++ k) := by
  induction k generalizing m l with
  | nil => rwa [List.append_nil]
  | cons e k ih =>
    have next := ih (first.keep strict e)
    rwa [List.append_assoc] at next

theorem foremost_eq_none : foremost ahead l = none ↔ l = [] := by
  cases l with
  | nil => exact ⟨fun _ => rfl, fun _ => rfl⟩
  | cons e l => simp [foremost]

theorem foremost_spec (strict : StrictlyAhead ahead) (found : foremost ahead l = some m) :
    Foremost ahead m l := by
  cases l with
  | nil => cases found
  | cons e l =>
    have last := (Foremost.single ahead e).foldl_keep strict l
    rwa [Option.some.inj found] at last

end Loop

end PseudoBoolean
