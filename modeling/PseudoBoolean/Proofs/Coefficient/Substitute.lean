import PseudoBoolean.Proofs.Coefficient.Ring

set_option autoImplicit false

namespace PseudoBoolean

namespace SymbolProduct

variable (s : Symbol)

theorem erase_one : (1 : SymbolProduct).erase s = 1 := rfl

theorem degreeOf_one : (1 : SymbolProduct).degreeOf s = 0 := rfl

theorem erase_mul (a b : SymbolProduct) : (a * b).erase s = a.erase s * b.erase s := by
  apply eq_of_perm
  have filtered := (perm_mul a b).filter (fun t => decide (t ≠ s))
  rw [List.filter_append] at filtered
  exact filtered.trans (perm_mul (a.erase s) (b.erase s)).symm

theorem degreeOf_mul (a b : SymbolProduct) : (a * b).degreeOf s = a.degreeOf s + b.degreeOf s := by
  have counted := (perm_mul a b).count_eq s
  rwa [List.count_append] at counted

variable {s} {a : SymbolProduct}

theorem erase_of_not_mem (absent : s ∉ a.factors) : a.erase s = a := by
  apply SymbolProduct.ext
  refine List.filter_eq_self.mpr fun t member => ?_
  have other : t ≠ s := fun same => absent (same ▸ member)
  exact decide_eq_true other

theorem degreeOf_of_not_mem (absent : s ∉ a.factors) : a.degreeOf s = 0 :=
  List.count_eq_zero.mpr absent

end SymbolProduct

namespace Coeff

open FormalSum

-- The terms add up in the monoid algebra, where equal terms need no collecting.
theorem toAlgebra_substitute (c : Coeff) (s : Symbol) (q : Rat) :
    toAlgebra (c.substitute s q) =
      fold (fun k => (MonoidAlgebra.singleAddHom (k.erase s)).comp
        (AddMonoidHom.mulRight (q ^ k.degreeOf s))) c := by
  rw [toAlgebra, substitute, fold_ofList_map]
  rfl

def substituteHom (s : Symbol) (q : Rat) : Coeff →+* Coeff where
  toFun c := c.substitute s q
  map_zero' := rfl
  map_one' := by
    apply toAlgebra_injective
    have one : (1 : Coeff) = single 1 1 := rfl
    rw [toAlgebra_substitute, toAlgebra_one, one, fold_single, SymbolProduct.degreeOf_one]
    simp [SymbolProduct.erase_one, MonoidAlgebra.one_def]
  map_add' c d := by
    apply toAlgebra_injective
    rw [toAlgebra_add, toAlgebra_substitute, toAlgebra_substitute, toAlgebra_substitute, fold_add]
  map_mul' c d := by
    apply toAlgebra_injective
    rw [toAlgebra_mul, toAlgebra_substitute, toAlgebra_substitute, toAlgebra_substitute, fold_mul]
    intro j k x y
    have weights : x * y * q ^ (j * k).degreeOf s =
        x * q ^ j.degreeOf s * (y * q ^ k.degreeOf s) := by
      rw [SymbolProduct.degreeOf_mul, pow_add]
      ring
    simp [SymbolProduct.erase_mul, weights, MonoidAlgebra.single_mul_single]

theorem mem_symbols {c : Coeff} {s : Symbol} :
    s ∈ c.symbols ↔ ∃ e ∈ c.entries, s ∈ e.1.factors := by
  rw [symbols, SortedSet.mem_ofList, List.mem_flatMap]

theorem substitute_of_not_mem {c : Coeff} {s : Symbol} (absent : s ∉ c.symbols) (q : Rat) :
    c.substitute s q = c := by
  have kept : ∀ e ∈ c.entries, (e.1.erase s, e.2 * q ^ e.1.degreeOf s) = e := by
    intro e inside
    have free : s ∉ e.1.factors := fun held => absent (mem_symbols.mpr ⟨e, inside, held⟩)
    rw [SymbolProduct.erase_of_not_mem free, SymbolProduct.degreeOf_of_not_mem free, pow_zero,
      mul_one]
  rw [substitute, List.map_congr_left kept, List.map_id', ofList_entries]

theorem mem_symbols_substitute {c : Coeff} {s t : Symbol} {q : Rat}
    (member : t ∈ (c.substitute s q).symbols) : t ∈ c.symbols ∧ t ≠ s := by
  obtain ⟨e, inside, held⟩ := mem_symbols.mp member
  obtain ⟨f, found, same⟩ := key_mem_ofList inside
  obtain ⟨d, old, rfl⟩ := List.mem_map.mp found
  rw [← same] at held
  obtain ⟨factor, other⟩ := List.mem_filter.mp held
  exact ⟨mem_symbols.mpr ⟨d, old, factor⟩, of_decide_eq_true other⟩

end Coeff

end PseudoBoolean
