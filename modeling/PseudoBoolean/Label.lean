import PseudoBoolean.SortedMap

set_option autoImplicit false

namespace PseudoBoolean

open Std

inductive Label where
  | index (n : Nat)
  | name (s : String)
deriving DecidableEq, Inhabited

namespace Label

instance : Ord Label where
  compare
    | .index m, .index n => compare m n
    | .index _, .name _ => .lt
    | .name _, .index _ => .gt
    | .name s, .name t => compare s t

instance : TransOrd Label where
  eq_swap {a b} := by
    cases a <;> cases b
    · exact OrientedOrd.eq_swap (α := Nat)
    · rfl
    · rfl
    · exact OrientedOrd.eq_swap (α := String)
  isLE_trans {a b c} := by
    cases a <;> cases b <;> cases c <;> intro left right
    all_goals first
      | rfl
      | exact absurd left Bool.false_ne_true
      | exact absurd right Bool.false_ne_true
      | exact TransOrd.isLE_trans (α := Nat) left right
      | exact TransOrd.isLE_trans (α := String) left right

instance : LawfulEqOrd Label where
  eq_of_compare {a b} same := by
    cases a <;> cases b
    · exact congrArg index (LawfulEqOrd.eq_of_compare (α := Nat) same)
    · cases same
    · cases same
    · exact congrArg name (LawfulEqOrd.eq_of_compare (α := String) same)

def name? : Label → Option String
  | .index _ => none
  | .name s => some s

def text : Label → String
  | .index n => "x" ++ n.repr
  | .name s => s

end Label

abbrev Assignment := SortedMap Label Bool

/-- One more candidate than there are taken labels is enough where the names differ. -/
def firstFresh (name : Nat → Label) (taken : SortedSet Label) (start : Nat) : Nat :=
  ((List.range' start (taken.size + 1)).find? fun n => name n ∉ taken).getD start

end PseudoBoolean
