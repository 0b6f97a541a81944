import PseudoBoolean.Penalty
import PseudoBoolean.Proofs.Poly.Numeric

set_option autoImplicit false

namespace PseudoBoolean.Slack

open Multilinear FormalSum

-- Each weight exceeds the sum of those before it by at most one.
def Gapless : Nat → List Nat → Prop
  | _, [] => True
  | reached, w :: ws => w ≤ reached + 1 ∧ Gapless (reached + w) ws

theorem gapless_powers (i k : Nat) {last : Nat} (small : last ≤ 2 ^ (i + k)) :
    Gapless (2 ^ i - 1) ((List.range' i k).map (2 ^ ·) ++ [last]) := by
  induction k generalizing i with
  | zero =>
    have positive : 0 < 2 ^ i := Nat.two_pow_pos i
    simp only [Nat.add_zero] at small
    exact ⟨by omega, trivial⟩
  | succ k ih =>
    have positive : 0 < 2 ^ i := Nat.two_pow_pos i
    have doubled : 2 ^ i - 1 + 2 ^ i = 2 ^ (i + 1) - 1 := by
      rw [Nat.pow_succ]
      omega
    rw [List.range'_succ, List.map_cons, List.cons_append]
    refine ⟨by omega, ?_⟩
    rw [doubled]
    exact ih (i + 1) (by rwa [Nat.add_right_comm])

theorem sum_powers (k : Nat) : ((List.range k).map (2 ^ ·)).sum = 2 ^ k - 1 := by
  induction k with
  | zero => rfl
  | succ k ih =>
    have positive : 0 < 2 ^ k := Nat.two_pow_pos k
    rw [List.range_succ, List.map_append, List.sum_append, ih, Nat.pow_succ]
    simp only [List.map_cons, List.map_nil, List.sum_cons, List.sum_nil]
    omega

theorem weights_eq (max : Nat) :
    weights max = (List.range max.log2).map (2 ^ ·) ++ [max - (2 ^ max.log2 - 1)] := by
  simp [weights, Nat.one_shiftLeft]

theorem gapless_weights (max : Nat) : Gapless 0 (weights max) := by
  have small : max - (2 ^ max.log2 - 1) ≤ 2 ^ (0 + max.log2) := by
    have above : max < 2 ^ (max.log2 + 1) := Nat.lt_log2_self
    rw [Nat.pow_succ] at above
    rw [Nat.zero_add]
    omega
  rw [weights_eq, List.range_eq_range']
  exact gapless_powers 0 max.log2 small

theorem sum_weights (max : Nat) : (weights max).sum = max := by
  rw [weights_eq, List.sum_append, sum_powers, List.sum_singleton]
  by_cases zero : max = 0
  · subst zero
    rfl
  · have below : 2 ^ max.log2 ≤ max := Nat.log2_self_le zero
    omega

theorem length_weights (max : Nat) : (weights max).length = max.log2 + 1 := by
  simp [weights]

def chosen (σ : Label → Bool) (l : List (Label × Nat)) : Nat :=
  (l.map fun e => if σ e.1 then e.2 else 0).sum

theorem chosen_le (σ : Label → Bool) (l : List (Label × Nat)) :
    chosen σ l ≤ (l.map Prod.snd).sum := by
  induction l with
  | nil => exact Nat.le_refl 0
  | cons e l ih =>
    simp only [chosen, List.map_cons, List.sum_cons, List.map_cons, List.sum_cons] at ih ⊢
    split <;> omega

theorem chosen_congr {σ τ : Label → Bool} {l : List (Label × Nat)}
    (same : ∀ e ∈ l, τ e.1 = σ e.1) : chosen τ l = chosen σ l := by
  simp only [chosen]
  congr 1
  exact List.map_congr_left fun e inside => by rw [same e inside]

theorem exists_chosen_from {l : List (Label × Nat)} (reached k : Nat)
    (nodup : (l.map Prod.fst).Nodup) (gapless : Gapless reached (l.map Prod.snd))
    (small : k ≤ reached + (l.map Prod.snd).sum) (σ : Label → Bool) :
    ∃ τ, AgreeOff (l.map Prod.fst) σ τ ∧ chosen τ l ≤ k ∧ k ≤ reached + chosen τ l := by
  induction l generalizing reached with
  | nil => exact ⟨σ, AgreeOff.refl _ σ, Nat.zero_le k, small⟩
  | cons e l ih =>
    obtain ⟨next, rest⟩ := gapless
    obtain ⟨new, distinct⟩ := List.nodup_cons.mp nodup
    rw [List.map_cons, List.sum_cons] at small
    obtain ⟨τ, agree, low, high⟩ := ih (reached + e.2) distinct rest (by omega)
    have decided (b : Bool) : ∃ υ, AgreeOff (e.1 :: l.map Prod.fst) σ υ ∧
        chosen υ (e :: l) = (if b then e.2 else 0) + chosen τ l := by
      have kept : chosen (fun v => if v = e.1 then b else τ v) l = chosen τ l := by
        apply chosen_congr
        intro f inside
        have apart : f.1 ≠ e.1 := fun same => new (same ▸ List.mem_map_of_mem inside)
        simp [apart]
      have wide : AgreeOff (e.1 :: l.map Prod.fst) σ τ :=
        agree.mono fun v => List.mem_cons_of_mem e.1
      refine ⟨_, wide.trans (AgreeOff.update List.mem_cons_self b), ?_⟩
      rw [← kept]
      simp [chosen]
    -- The first weight is taken only where the rest falls short, and then it fits in the gap.
    by_cases enough : k ≤ reached + chosen τ l
    · obtain ⟨υ, outside, value⟩ := decided false
      simp only [Bool.false_eq_true, if_false, Nat.zero_add] at value
      exact ⟨υ, outside, by omega, by omega⟩
    · obtain ⟨υ, outside, value⟩ := decided true
      simp only [if_true] at value
      exact ⟨υ, outside, by omega, by omega⟩

theorem map_fst_zip_weights {labels : List Label} {ws : List Nat}
    (paired : labels.length = ws.length) : (labels.zip ws).map Prod.fst = labels :=
  List.map_fst_zip (Nat.le_of_eq paired)

theorem map_snd_zip_weights {labels : List Label} {ws : List Nat}
    (paired : labels.length = ws.length) : (labels.zip ws).map Prod.snd = ws :=
  List.map_snd_zip (Nat.le_of_eq paired.symm)

section Weighted

variable {labels : List Label} {max : Nat}

theorem chosen_weights_le (paired : labels.length = (weights max).length) (σ : Label → Bool) :
    chosen σ (labels.zip (weights max)) ≤ max := by
  have bound := chosen_le σ (labels.zip (weights max))
  rwa [map_snd_zip_weights paired, sum_weights] at bound

theorem exists_chosen_weights (paired : labels.length = (weights max).length)
    (nodup : labels.Nodup) {k : Nat} (small : k ≤ max) (σ : Label → Bool) :
    ∃ τ, AgreeOff labels σ τ ∧ chosen τ (labels.zip (weights max)) = k := by
  have fst := map_fst_zip_weights paired
  have snd := map_snd_zip_weights paired
  obtain ⟨τ, agree, low, high⟩ := exists_chosen_from 0 k
    (fst.symm ▸ nodup) (snd.symm ▸ gapless_weights max)
    (by rw [snd, sum_weights]; omega) σ
  rw [fst] at agree
  exact ⟨τ, agree, by omega⟩

theorem valueAt_weighted (σ : Label → Bool) (labels : List Label) (ws : List Nat) :
    valueAt σ (weighted labels ws) = Coeff.number (chosen σ (labels.zip ws)) := by
  rw [weighted, valueAt_ofList]
  induction labels.zip ws with
  | nil => rfl
  | cons e l ih =>
    have single : Monomial.holds σ (SortedSet.singleton e.1) = σ e.1 := by
      simp [Monomial.holds, SortedSet.singleton]
    simp only [List.map_cons, List.sum_cons, ih, single, chosen, Nat.cast_add,
      Coeff.number_add]
    by_cases held : σ e.1 <;> simp [held]

theorem mem_of_mem_vars_weighted {ws : List Nat} {v : Label}
    (member : v ∈ vars (weighted labels ws)) : v ∈ labels := by
  obtain ⟨f, inside, held⟩ := vars_ofList member
  obtain ⟨e, paired, rfl⟩ := List.mem_map.mp inside
  rw [SortedSet.mem_singleton.mp held]
  exact (List.of_mem_zip paired).1

theorem numeric_weighted (labels : List Label) (ws : List Nat) :
    Poly.Numeric (weighted labels ws) := by
  rw [weighted]
  induction labels.zip ws with
  | nil => exact Poly.Numeric.zero
  | cons e l ih => exact (Poly.Numeric.single _ e.2).add ih

end Weighted

end PseudoBoolean.Slack
