set_option autoImplicit false

namespace PseudoBoolean

namespace Text

def rational (q : Rat) : String :=
  if q.den = 1 then q.num.repr else q.num.repr ++ "/" ++ q.den.repr

-- The factor `1` is left out, but not where it stands alone.
def scaled (magnitude : Rat) (product : Option String) : String :=
  match product with
  | none => rational magnitude
  | some factors => if magnitude = 1 then factors else rational magnitude ++ "*" ++ factors

structure Summand where
  negative : Bool
  body : String

def signedSum : List Summand → String
  | [] => "0"
  | first :: others =>
    (if first.negative then "-" else "") ++ first.body ++
      String.join (others.map fun s => (if s.negative then " - " else " + ") ++ s.body)

def signed (q : Rat) (product : Option String) : Summand where
  negative := q < 0
  body := scaled q.abs product

end Text

structure Bounds where
  lo : Rat
  hi : Rat
deriving DecidableEq

namespace Bounds

def Encloses (b : Bounds) (q : Rat) : Prop :=
  b.lo ≤ q ∧ q ≤ b.hi

def negate (b : Bounds) : Bounds where
  lo := -b.hi
  hi := -b.lo

def shift (b : Bounds) (c : Rat) : Bounds where
  lo := b.lo + c
  hi := b.hi + c

theorem negate_encloses {b : Bounds} {q : Rat} (h : b.Encloses q) : b.negate.Encloses (-q) :=
  ⟨Rat.neg_le_neg h.2, Rat.neg_le_neg h.1⟩

theorem shift_encloses {b : Bounds} {q : Rat} (c : Rat) (h : b.Encloses q) :
    (b.shift c).Encloses (q + c) :=
  ⟨Rat.add_le_add_right.mpr h.1, Rat.add_le_add_right.mpr h.2⟩

def excludesZero (b : Bounds) : Bool :=
  0 < b.lo || b.hi < 0

def text (b : Bounds) : String :=
  "[" ++ Text.rational b.lo ++ ", " ++ Text.rational b.hi ++ "]"

end Bounds

inductive Relation where
  | equal
  | less
  | atMost
  | greater
  | atLeast
deriving DecidableEq, Inhabited

namespace Relation

def all : List Relation :=
  [.equal, .less, .atMost, .greater, .atLeast]

theorem mem_all (r : Relation) : r ∈ all := by
  cases r <;> decide

def holds : Relation → Rat → Bool
  | .equal, q => q = 0
  | .less, q => q < 0
  | .atMost, q => q ≤ 0
  | .greater, q => 0 < q
  | .atLeast, q => 0 ≤ q

def text : Relation → String
  | .equal => "=="
  | .less => "<"
  | .atMost => "<="
  | .greater => ">"
  | .atLeast => ">="

end Relation

end PseudoBoolean
